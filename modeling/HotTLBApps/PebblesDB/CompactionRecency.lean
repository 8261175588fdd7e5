import HotTLBApps.PebblesDB.GuardFitting
import HotTLBApps.PebblesDB.VersionGet

/-!
# PebblesDB: what a compaction does to the order of versions of a key

`LevelRecency` says that a file has newer entries of a user key than every file of a deeper
level, and than every file of its own level with a smaller number.  The outputs of a
compaction get the largest numbers of their level, so that a compaction keeps this under
three conditions:

* no guard of its levels is skipped, so that all files with a user key are in one container;
* a horizontal compaction, which takes some of the files of a container, leaves no newer
  entries of a user key behind;
* no output is closed between two entries of one user key: the second table would have the
  larger number and the older entries.
-/

namespace HotTLBApps.PebblesDB

open OrderedSet Intervals List Option OutputState

variable {K V : Type} [LinearOrder K]

section

variable {v : LevelVersion K}

/-- A user key lies between the bounds of a file. -/
def FileMetaData.Spans (f : FileMetaData K) (userKey : K) : Prop :=
  f.smallest.userKey ≤ userKey ∧ userKey ≤ f.largest.userKey

variable {f : FileMetaData K} {r : List (FileMetaData K)}

/-- Without skipped guards the containers are the parts between the guards. -/
theorem part_eq_of_mem_container (hv : v.WellFormed) (hfits : v.FilesFit) (hskip : v.NoGuardSkipped)
    {j : Nat} (hj : v.containers[j]? = some r) (hf : f ∈ r) : v.part f = j := by
  rw [hv.containers_eq] at hj
  exact (runs_parts_iff hv.sorted hfits).mpr hskip j r hj f hf

variable {userKey : K}

/-- A file is in the container that every user key between its bounds leads to. -/
theorem mem_candidates (hv : v.WellFormed) (hfits : v.FilesFit) (hskip : v.NoGuardSkipped)
    (hf : f ∈ v.files) (hspans : f.Spans userKey) : f ∈ v.candidates userKey := by
  rw [← hv.flatten_containers] at hf
  obtain ⟨r, hr, hfr⟩ := mem_flatten.mp hf
  obtain ⟨j, hj⟩ := getElem?_of_mem hr
  have hpart := part_eq_of_mem_container hv hfits hskip hj hfr
  have hslot : slot (guardUserKeys v.guards) userKey = j := by
    rw [(hfits f (hv.flatten_containers ▸ hf)).slot_eq hspans.1 hspans.2]
    exact hpart
  have hcandidates := candidates_eq_container hv.sorted.guards_increasing userKey
  rw [hslot, hj] at hcandidates
  rwa [← some.inj hcandidates]

theorem candidates_subset (hv : v.WellFormed) (userKey : K) : v.candidates userKey ⊆ v.files := by
  intro f hf
  have hcandidates := candidates_eq_container hv.sorted.guards_increasing userKey
  rw [← hv.flatten_containers]
  exact mem_flatten.mpr ⟨_, mem_of_getElem? hcandidates, hf⟩

/-- A container that has a file of a user key is the one of the user key. -/
theorem eq_candidates (hv : v.WellFormed) (hfits : v.FilesFit) (hskip : v.NoGuardSkipped)
    (hr : r ∈ v.containers) (hf : f ∈ r) (hspans : f.Spans userKey) : r = v.candidates userKey := by
  have hnodup : v.containers.flatten.Nodup := by
    rw [hv.flatten_containers]
    exact hv.sorted.numbers_nodup.of_map
  have hmem : f ∈ v.files := hv.flatten_containers ▸ mem_flatten.mpr ⟨r, hr, hf⟩
  obtain ⟨j, hj⟩ := getElem?_of_mem hr
  have hcandidates := candidates_eq_container hv.sorted.guards_increasing userKey
  have hindex := eq_of_mem_blocks hnodup hj hcandidates hf
    (mem_candidates hv hfits hskip hmem hspans)
  rw [← hindex, hj] at hcandidates
  exact some.inj hcandidates

/-- **Without skipped guards the containers are strictly ordered by user key.** -/
theorem pairwise_containers_lt (hv : v.WellFormed) (hfits : v.FilesFit) (hskip : v.NoGuardSkipped) :
    v.containers.Pairwise fun r s =>
      ∀ f ∈ r, ∀ f' ∈ s, f.largest.userKey < f'.smallest.userKey := by
  rw [pairwise_iff_getElem]
  intro i j hi hj hij f hf f' hf'
  have hpart := part_eq_of_mem_container hv hfits hskip (getElem?_eq_getElem hi) hf
  have hpart' := part_eq_of_mem_container hv hfits hskip (getElem?_eq_getElem hj) hf'
  have hmem : f ∈ v.files :=
    hv.flatten_containers ▸ mem_flatten.mpr ⟨_, getElem_mem hi, hf⟩
  by_contra hle
  have hslot := slot_mono (guardUserKeys v.guards) (not_lt.mp hle)
  have hfit : v.part f = slot (guardUserKeys v.guards) f.largest.userKey := hfits f hmem
  have hsmallest : v.part f' = slot (guardUserKeys v.guards) f'.smallest.userKey := rfl
  omega

variable {tables : Tables K V}

theorem sortedTable_mergeTables {tables : List (List (Entry K V))}
    (h : ∀ table ∈ tables, SortedTable table) : SortedTable (mergeTables tables) := by
  constructor
  · induction tables with
    | nil => exact Pairwise.nil
    | cons table tables ih =>
      exact nondecreasing_merge (h table mem_cons_self).sorted
        (ih fun table' htable' => h table' (mem_cons_of_mem _ htable'))
  · intro e he
    rw [(mergeTables_perm tables).mem_iff, mem_flatten] at he
    obtain ⟨table, htable, he⟩ := he
    exact (h table htable).plain e he

theorem SortedTable.sublist {entries entries' : List (Entry K V)} (h : SortedTable entries)
    (hsub : entries'.Sublist entries) : SortedTable entries' :=
  ⟨h.sorted.sublist hsub, fun e he => h.plain e (hsub.mem he)⟩

theorem LevelInputs.From.sortedTable_entries {inputs : LevelInputs K}
    (h : inputs.From v) (hv : v.WellFormed) (hfits : v.FilesFit) (hskip : v.NoGuardSkipped)
    (htables : TablesOf tables v) (hsorted : ∀ f ∈ v.files, SortedTable (tables f.number)) :
    SortedTable (inputs.entries tables) := by
  constructor
  · refine h.pairwise_entries hv htables (pairwise_containers_lt hv hfits hskip) ?_ ?_
    · intro files hfiles
      refine (sortedTable_mergeTables fun table htable => ?_).sorted
      obtain ⟨f, hf, rfl⟩ := mem_map.mp htable
      exact hsorted f (hfiles f hf)
    · intro f hf f' hf' hlt a ha b hb
      have hlow := ((htables f hf).2.bounds ha).2
      have hhigh := ((htables f' hf').2.bounds hb).1
      exact (InternalKey.lt_of_userKey_lt (hlow.trans_lt (hlt.trans_le hhigh))).le
  · intro e he
    rw [(h.entries_perm hv htables).mem_iff] at he
    obtain ⟨f, hf, he⟩ := mem_flatMap.mp he
    exact (hsorted f ((h.files_sublist hv).mem hf)).plain e he

/-- **The inputs of a compaction are read in the order of internal keys.** -/
theorem Compaction.From.sortedTable_entries {v : Version K} {c : Compaction K} (h : c.From v)
    (hv : ∀ l, (v l).WellFormed) (hfits : ∀ l, (v l).FilesFit)
    (hskip : ∀ l, l = c.level ∨ c.next = some l → (v l).NoGuardSkipped)
    (htables : ∀ l, TablesOf tables (v l))
    (hsorted : ∀ l, ∀ f ∈ (v l).files, SortedTable (tables f.number)) :
    SortedTable (c.entries tables) := by
  obtain ⟨hinputs, hnext⟩ := h.both_entries (P := SortedTable) ⟨Pairwise.nil, nofun⟩
    fun l _ hl hfrom =>
      hfrom.sortedTable_entries (hv l) (hfits l) (hskip l hl) (htables l) (hsorted l)
  exact sortedTable_mergeTables (by simp [hinputs, hnext])

variable {full : List (Entry K V) → Bool}

/-- No table is full between two neighbouring entries of one user key, wherever it starts. -/
def KeysTogether (full : List (Entry K V) → Bool) (entries : List (Entry K V)) : Prop :=
  ∀ before ∈ entries.inits, ∀ a ∈ before.getLast?, ∀ b ∈ (entries.drop before.length).head?,
    a.userKey = b.userKey → ∀ table ∈ before.tails, table ≠ [] → full table = false

instance (full : List (Entry K V) → Bool)
    (entries : List (Entry K V)) : Decidable (KeysTogether full entries) :=
  inferInstanceAs (Decidable (∀ before ∈ entries.inits, ∀ a ∈ before.getLast?,
    ∀ b ∈ (entries.drop before.length).head?, a.userKey = b.userKey →
      ∀ table ∈ before.tails, table ≠ [] → full table = false))

variable {entries : List (Entry K V)}

omit [LinearOrder K] in
theorem KeysTogether.of_append {e : Entry K V}
    (h : KeysTogether full (entries ++ [e])) : KeysTogether full entries := by
  intro before hbefore a ha b hb
  have hpre := (mem_inits _ _).mp hbefore
  refine h before ((mem_inits _ _).mpr (hpre.trans (prefix_append _ _))) a ha b ?_
  rw [drop_append_of_le_length hpre.length_le, head?_append, hb]
  rfl

/-- The open table ends with the last entry, and if there is none, the one before it was
full. -/
theorem suffix_run (guards : List K) (entries : List (Entry K V)) :
    (∀ out, (run full guards entries).builder = some out → out.entries <:+ entries) ∧
      (entries ≠ [] → (run full guards entries).builder = none →
        ∃ table, table ≠ [] ∧ table <:+ entries ∧ full table = true) := by
  induction entries using reverseRecOn with
  | nil => exact ⟨by simp [run], fun h => absurd rfl h⟩
  | append_singleton entries e ih =>
    -- the table that the entry is written to is closed exactly if it is full
    have hclosed : ∀ table : Output K V, table.entries ≠ [] → table.entries <:+ entries ++ [e] →
        ∀ builder, builder = (if full table.entries then none else some table) →
        (∀ out, builder = some out → out.entries <:+ entries ++ [e]) ∧
          (entries ++ [e] ≠ [] → builder = none →
            ∃ table, table ≠ [] ∧ table <:+ entries ++ [e] ∧ full table = true) := by
      rintro table hne hsuffix _ rfl
      split_ifs with hfull
      · exact ⟨by simp, fun _ _ => ⟨table.entries, hne, hsuffix, hfull⟩⟩
      · refine ⟨?_, by simp⟩
        rintro out ⟨rfl⟩
        exact hsuffix
    rw [run_append]
    obtain ⟨out, hout, -, -, hbuilder⟩ | ⟨-, -, hbuilder⟩ :=
      add_cases full (run full guards entries) e
    · obtain ⟨front, hfront⟩ := ih.1 out hout
      refine hclosed (out.append e) (by simp [Output.append]) ⟨front, ?_⟩ _ hbuilder
      rw [← hfront]
      simp [Output.append]
    · exact hclosed (Output.single e) (by simp [Output.single]) (suffix_append _ _) _
        hbuilder

/-- **The tables share no user key**, when no table is full between two entries of one. -/
theorem pairwise_splitEntries (guards : List K) (hsorted : Nondecreasing Entry.userKey entries)
    (htogether : KeysTogether full entries) :
    (splitEntries full guards entries).Pairwise fun out out' =>
      ∀ a ∈ out.entries, ∀ b ∈ out'.entries, a.userKey < b.userKey := by
  rw [splitEntries_eq]
  induction entries using reverseRecOn with
  | nil => exact Pairwise.nil
  | append_singleton entries e ih =>
    obtain ⟨hfront, -, hback⟩ := pairwise_append.mp hsorted
    have hpairwise := ih hfront htogether.of_append
    obtain ⟨-, hwf, hlast⟩ := @tables_run K V _ full guards entries
    have hle : ∀ z ∈ entries, z.userKey ≤ e.userKey := fun z hz =>
      hback z hz e (mem_singleton_self e)
    rw [run_append]
    obtain ⟨out, hout, -, htables, -⟩ | ⟨hnew, htables, -⟩ :=
      add_cases full (run full guards entries) e
    · rw [tables, hout] at hpairwise hwf
      obtain ⟨hbefore, -, hopen⟩ := pairwise_append.mp hpairwise
      rw [htables]
      refine pairwise_append.mpr ⟨hbefore, pairwise_singleton _ _, ?_⟩
      intro out' hout' last hlast' a ha b hb
      obtain rfl := mem_singleton.mp hlast'
      have hbelow := hopen out' hout' out (by simp) a ha
      obtain hb | hb := mem_append.mp hb
      · exact hbelow b hb
      · obtain rfl := mem_singleton.mp hb
        obtain ⟨z, hz, -⟩ := map_eq_some_iff.mp (hwf out (by simp)).largest
        have hz' : entries.getLast? = some z := by rw [← hlast out hout, hz]
        exact (hbelow z (mem_of_getLast? hz)).trans_le (hle z (mem_of_getLast? hz'))
    · rw [htables]
      refine pairwise_append.mpr ⟨hpairwise, pairwise_singleton _ _, ?_⟩
      intro out' hout' last hlast' a ha b hb
      obtain rfl := mem_singleton.mp hlast'
      obtain rfl := mem_singleton.mp hb
      have ha' := (entries_sublist_of_mem_splitEntries hout').mem ha
      obtain ⟨front, z, rfl⟩ := (eq_nil_or_concat' entries).resolve_left (ne_nil_of_mem ha')
      -- user keys end with that of the last entry before
      have haz : a.userKey ≤ z.userKey := by
        obtain ha' | ha' := mem_append.mp ha'
        · exact (pairwise_append.mp hfront).2.2 a ha' z (mem_singleton_self z)
        · rw [mem_singleton.mp ha']
      refine haz.trans_lt (lt_of_le_of_ne (hle z (by simp)) fun heq => ?_)
      -- either the table before was full, or a guard lies in between
      obtain hnone | ⟨g, hg, hge⟩ := hnew
      · obtain ⟨table, htable, hsuffix, hfull⟩ := (suffix_run guards _).2 (by simp) hnone
        have hopen := htogether _ ((mem_inits _ _).mpr (prefix_append _ _)) z (by simp)
          b (by simp) heq table ((mem_tails _ _).mpr hsuffix) htable
        rw [hfull] at hopen
        cases hopen
      · rw [guards_run guards front z hfront] at hg
        have hpast := head?_dropWhile_not (fun g => decide (g ≤ z.userKey)) guards
        rw [hg] at hpast
        have hgz : ¬ g ≤ z.userKey := by simpa using hpast
        exact hgz (heq ▸ hge)

end

theorem ne_of_pairwise_zipIdx {outputs : List (Output K V)}
    (h : outputs.Pairwise fun out out' =>
      ∀ a ∈ out.entries, ∀ b ∈ out'.entries, a.userKey < b.userKey) {p p' : Output K V × Nat}
    (hp : p ∈ outputs.zipIdx) (hp' : p' ∈ outputs.zipIdx) {env : CompactionEnv K V}
    (hnumber : env.number p'.2 < env.number p.2) {e e' : Entry K V} (he : e ∈ p.1.entries)
    (he' : e' ∈ p'.1.entries) : e.userKey ≠ e'.userKey := by
  have hindex : p.2 ≠ p'.2 := by
    intro heq
    rw [heq] at hnumber
    exact lt_irrefl _ hnumber
  obtain ⟨hlt, hget⟩ := List.getElem?_eq_some_iff.mp (List.mem_zipIdx_iff_getElem?.mp hp)
  obtain ⟨hlt', hget'⟩ := List.getElem?_eq_some_iff.mp (List.mem_zipIdx_iff_getElem?.mp hp')
  rw [pairwise_iff_getElem] at h
  obtain hij | hij := lt_or_gt_of_ne hindex
  · exact (h p.2 p'.2 hlt hlt' hij e (hget ▸ he) e' (hget' ▸ he')).ne
  · exact (h p'.2 p.2 hlt' hlt hij e' (hget' ▸ he') e (hget ▸ he)).ne'

section Whole

variable {v : LevelVersion K} {forceCompact scored : Bool} {level : Level} {scores : LevelScores}

/-- A compaction into the next level takes containers as a whole. -/
theorem mem_containers_pickLevelInputs {r : List (FileMetaData K)}
    (hr : r ∈ (pickLevelInputs false forceCompact scored level scores v).containers)
    {f : FileMetaData K} (hf : f ∈ r) : r ∈ v.containers := by
  obtain rfl | hr := mem_cons.mp hr
  · have hpick : pickSentinelFiles false forceCompact scored (maxFilesPerGuard level)
        scores.sentinel (completeGuardsCopy v.completeGuards) v.sentinelFiles =
          v.sentinelFiles ∨ pickSentinelFiles false forceCompact scored (maxFilesPerGuard level)
        scores.sentinel (completeGuardsCopy v.completeGuards) v.sentinelFiles = [] := by
      unfold pickSentinelFiles
      exact ite_eq_or_eq _ _ _
    obtain hall | hnone := hpick
    · exact mem_cons.mpr (.inl hall)
    · change f ∈ pickSentinelFiles _ _ _ _ _ _ _ at hf
      rw [hnone] at hf
      cases hf
  · obtain ⟨g, hg, rfl⟩ := mem_map.mp hr
    obtain ⟨p, hp, rfl⟩ := mem_map.mp hg
    have hpicked := map_pickGuards_sublist forceCompact scored scores.guards
      (completeGuardsCopy v.completeGuards) v.guards.zipIdx
    rw [zipIdx_map_fst] at hpicked
    refine mem_cons_of_mem _ (mem_map.mpr ⟨p.1, ?_, rfl⟩)
    exact hpicked.mem (mem_map_of_mem hp)

/-- With a file, all files that have one of its user keys are taken. -/
theorem mem_files_pickLevelInputs (hv : v.WellFormed) (hfits : v.FilesFit)
    (hskip : v.NoGuardSkipped) {f f' : FileMetaData K}
    (hf : f ∈ (pickLevelInputs false forceCompact scored level scores v).files) (hf' : f' ∈ v.files)
    {userKey : K} (hspans : f.Spans userKey) (hspans' : f'.Spans userKey) :
    f' ∈ (pickLevelInputs false forceCompact scored level scores v).files := by
  obtain ⟨r, hr, hfr⟩ := mem_flatten.mp hf
  have hcontainer := mem_containers_pickLevelInputs hr hfr
  have hcandidates := mem_candidates hv hfits hskip hf' hspans'
  rw [← eq_candidates hv hfits hskip hcontainer hfr hspans] at hcandidates
  exact mem_flatten.mpr ⟨r, hr, hcandidates⟩

end Whole

/-- In every level, files with larger numbers are newer, and so are files of earlier
levels. -/
structure LevelRecency (tables : Tables K V) (v : Version K) : Prop where
  within : ∀ l, ∀ f ∈ (v l).files, ∀ f' ∈ (v l).files, f'.number < f.number → Newer tables f f'
  across : ∀ l l', l < l' → ∀ f ∈ (v l).files, ∀ f' ∈ (v l').files, Newer tables f f'

/-- **When a compaction keeps the order of versions.** -/
structure Compaction.KeepsOrder
    (c : Compaction K) (db : DB K V) (env : CompactionEnv K V) : Prop where
  noGuardSkipped : ∀ l, l = c.level ∨ c.next = some l → (db.version l).NoGuardSkipped
  -- a horizontal compaction leaves no file behind that is newer for a common user key
  newest : c.next = none → ∀ f ∈ c.inputs.files, ∀ f' ∈ (db.version c.level).files,
    f' ∉ c.inputs.files → f.number < f'.number →
      ∀ e ∈ db.tables f.number, ∀ e' ∈ db.tables f'.number, e.userKey ≠ e'.userKey
  together : KeysTogether (env.full c.level)
    (keptEntries db.version c.level env DropState.start (c.entries db.tables))

variable {db : DB K V} {c : Compaction K} {env : CompactionEnv K V}
  {pushed : Level → List (InternalKey K)} {scores : Level → LevelScores} {level : Level}
  {forceCompact : Bool}

theorem val_nextLevel {l next : Level} (h : nextLevel l = some next) : next.val = l.val + 1 := by
  unfold nextLevel at h
  split_ifs at h
  rw [← some.inj h]

variable {l : Level}

omit [LinearOrder K] in
/-- A file is taken from the level of the compaction or from the one of its outputs. -/
theorem Compaction.Takes.level_le (hc : c.From db.version) {g : FileMetaData K}
    (htakes : c.Takes l g) : l ≤ c.outputLevel ∧ c.outputLevel.val ≤ l.val + 1 := by
  have hnext : ∀ next, c.next = some next → c.outputLevel = next ∧ next.val = c.level.val + 1 := by
    intro next hnext
    refine ⟨by rw [Compaction.outputLevel, hnext]; rfl, val_nextLevel (hc.next_eq next hnext)⟩
  obtain ⟨rfl, -⟩ | ⟨hl, -⟩ := htakes
  · cases hnext' : c.next with
    | none =>
      have hlevel : c.outputLevel = c.level := by
        rw [Compaction.outputLevel, hnext']
        rfl
      rw [hlevel]
      exact ⟨le_refl _, Nat.le_succ _⟩
    | some next =>
      obtain ⟨hlevel, hval⟩ := hnext next hnext'
      rw [hlevel]
      exact ⟨Fin.le_def.mpr (by omega), hval.le⟩
  · rw [(hnext l hl).1]
    exact ⟨le_refl _, Nat.le_succ _⟩

theorem Compaction.Takes.mem_files (hc : c.From db.version) (hdb : db.WellFormed)
    {g : FileMetaData K} (htakes : c.Takes l g) : g ∈ (db.version l).files := by
  obtain ⟨rfl, hg⟩ | ⟨hl, hg⟩ := htakes
  · exact (hc.inputs.files_sublist (hdb.levels _)).mem hg
  · exact ((hc.nextInputs l hl).files_sublist (hdb.levels _)).mem hg

variable {e e' : Entry K V}

/-- **Only a horizontal compaction leaves a file behind that shares a user key with a file it
takes**, and that file is the older one. -/
theorem number_lt_of_not_takes (hdb : db.WellFormed) (hfits : ∀ l, (db.version l).FilesFit)
    (hpick : pickCompactionForGuards db.version scores level forceCompact = some c)
    (hkeeps : c.KeepsOrder db env) {f g : FileMetaData K} (htakes : c.Takes l g)
    (hf : f ∈ (db.version l).files) (hstays : ¬ c.Takes l f) (he : e ∈ db.tables g.number)
    (he' : e' ∈ db.tables f.number)
    (huser : e.userKey = e'.userKey) : c.next = none ∧ f.number < g.number := by
  have hc := from_pickCompactionForGuards hdb.levels hpick
  have hg := htakes.mem_files hc hdb
  have hspans : g.Spans e.userKey := (hdb.tables l g hg).2.bounds he
  have hspans' : f.Spans e.userKey := huser ▸ (hdb.tables l f hf).2.bounds he'
  obtain rfl | ⟨next, hnext, rfl⟩ := pickCompactionForGuards_cases hpick
  · refine ⟨rfl, ?_⟩
    obtain ⟨hl, hgin⟩ | ⟨hnone, -⟩ := htakes
    · have hfin : f ∉ (horizontalCompaction db.version scores level forceCompact).inputs.files :=
        fun hfin => hstays (.inl ⟨hl, hfin⟩)
      subst hl
      refine lt_of_le_of_ne (not_lt.mp fun hlt => ?_) ?_
      · exact hkeeps.newest rfl g hgin f hf hfin hlt e he e' he' huser
      · intro hnumber
        have hsame := inj_on_of_nodup_map (hdb.levels _).sorted.numbers_nodup hf hg hnumber
        exact hfin (hsame ▸ hgin)
    · cases hnone
  · exfalso
    apply hstays
    obtain ⟨rfl, hgin⟩ | ⟨hl, hgin⟩ := htakes
    · exact .inl ⟨rfl, mem_files_pickLevelInputs (hdb.levels _) (hfits _)
        (hkeeps.noGuardSkipped _ (.inl rfl)) hgin hf hspans hspans'⟩
    · obtain rfl := some.inj hl
      exact .inr ⟨rfl, mem_files_pickLevelInputs (hdb.levels _) (hfits _)
        (hkeeps.noGuardSkipped _ (.inr rfl)) hgin hf hspans hspans'⟩

variable {out : Output K V}

theorem exists_takes_of_mem_output (hc : c.From db.version) (hdb : db.WellFormed)
    (hout : out ∈ doCompactionWorkGuards db.version db.tables c env)
    (he : e ∈ out.entries) : ∃ l g, c.Takes l g ∧ e ∈ db.tables g.number := by
  rw [doCompactionWorkGuards_eq] at hout
  have hkept := (entries_sublist_of_mem_splitEntries hout).mem he
  have hentry := (keptEntries_sublist _ _ _ _ _).mem hkept
  rw [(hc.entries_perm hdb.levels hdb.tables).mem_iff, mem_flatMap] at hentry
  obtain ⟨g, hg, heg⟩ := hentry
  obtain hg | hg := mem_append.mp hg
  · exact ⟨c.level, g, .inl ⟨rfl, hg⟩, heg⟩
  · cases hnext : c.next with
    | none =>
      rw [hc.horizontal hnext] at hg
      cases hg
    | some next => exact ⟨next, g, .inr ⟨hnext, hg⟩, heg⟩

section

variable (hdb : db.WellFormed) (hfits : ∀ l, (db.version l).FilesFit)
include hdb hfits

/-- The entries of an output and those of a file that stays: which of them are newer is a
matter of their levels. -/
theorem sequence_lt_of_takes
    (hpick : pickCompactionForGuards db.version scores level forceCompact = some c)
    (hkeeps : c.KeepsOrder db env) (h : LevelRecency db.tables db.version) {l l' : Level}
    {f g : FileMetaData K} (htakes : c.Takes l' g) (hf : f ∈ (db.version l).files)
    (hstays : ¬ c.Takes l f) (he : e ∈ db.tables f.number) (he' : e' ∈ db.tables g.number)
    (huser : e.userKey = e'.userKey) : (l < c.outputLevel → e'.key.sequence < e.key.sequence) ∧
      (c.outputLevel ≤ l → e.key.sequence < e'.key.sequence) := by
  have hc := from_pickCompactionForGuards hdb.levels hpick
  have hg := htakes.mem_files hc hdb
  obtain ⟨hle, hge⟩ := htakes.level_le hc
  have hlevel : c.next = none → c.outputLevel = c.level := by
    intro hnext
    rw [Compaction.outputLevel, hnext]
    rfl
  constructor
  · intro hlt
    have hll' : l ≤ l' := Fin.le_def.mpr (by have := Fin.lt_def.mp hlt; omega)
    obtain hll' | rfl := lt_or_eq_of_le hll'
    · exact h.across l l' hll' f hf g hg e he e' he' huser
    · obtain ⟨hnext, -⟩ := number_lt_of_not_takes hdb hfits hpick hkeeps htakes hf hstays he' he
        huser.symm
      -- a horizontal compaction writes to the level it takes from
      obtain ⟨rfl, -⟩ | ⟨hsome, -⟩ := htakes
      · rw [hlevel hnext] at hlt
        exact absurd hlt (lt_irrefl _)
      · rw [hnext] at hsome
        cases hsome
  · intro hout
    obtain hll' | rfl := lt_or_eq_of_le (hle.trans hout)
    · exact h.across l' l hll' g hg f hf e' he' e he huser.symm
    · obtain ⟨-, hnumber⟩ := number_lt_of_not_takes hdb hfits hpick hkeeps htakes hf hstays he' he
        huser.symm
      exact h.within _ g hg f hf hnumber e' he' e he huser.symm

/-- **A compaction keeps the order of versions.** -/
theorem levelRecency_compact
    (hpick : pickCompactionForGuards db.version scores level forceCompact = some c)
    (henv : env.Fresh db.version)
    (hlarger : ∀ i l, ∀ f ∈ (db.version l).files, f.number < env.number i)
    (hkeeps : c.KeepsOrder db env) (h : LevelRecency db.tables db.version) :
    LevelRecency (db.compact c false env pushed).tables
      (db.compact c false env pushed).version := by
  have hc := from_pickCompactionForGuards hdb.levels hpick
  -- an output and a file that stays
  have hmixed : ∀ l, ∀ f ∈ (db.version l).files, ¬ c.Takes l f →
      ∀ p ∈ (doCompactionWorkGuards db.version db.tables c env).zipIdx,
      ∀ e ∈ db.tables f.number, ∀ e' ∈ p.1.entries, e.userKey = e'.userKey →
        (l < c.outputLevel → e'.key.sequence < e.key.sequence) ∧
          (c.outputLevel ≤ l → e.key.sequence < e'.key.sequence) := by
    intro l f hf hstays p hp e he e' he' huser
    obtain ⟨l', g, htakes, heg⟩ := exists_takes_of_mem_output hc hdb (fst_mem_of_mem_zipIdx hp) he'
    exact sequence_lt_of_takes hdb hfits hpick hkeeps h htakes hf hstays he heg huser
  constructor
  · intro l f hf f' hf' hnumber e he e' he' huser
    obtain ⟨hfl, hstays, htable⟩ | ⟨rfl, p, hp, rfl, htable⟩ := compact_cases hc hdb henv hf <;>
      obtain ⟨hfl', hstays', htable'⟩ | ⟨-, p', hp', rfl, htable'⟩ :=
        compact_cases hc hdb henv hf' <;>
      rw [htable] at he <;> rw [htable'] at he'
    · exact h.within l f hfl f' hfl' hnumber e he e' he' huser
    · -- an output has the larger number
      exact absurd (hlarger p'.2 l f hfl) (not_lt.mpr hnumber.le)
    · exact (hmixed _ f' hfl' hstays' p hp e' he' e he huser.symm).2 (le_refl _)
    · rw [doCompactionWorkGuards_eq] at hp hp'
      have hsplit := pairwise_splitEntries c.completeGuards
        (nondecreasing_keptEntries hc hdb hfits DropState.start) hkeeps.together
      exact absurd huser (ne_of_pairwise_zipIdx hsplit hp hp' hnumber he he')
  · intro l l' hll' f hf f' hf' e he e' he' huser
    obtain ⟨hfl, hstays, htable⟩ | ⟨rfl, p, hp, rfl, htable⟩ := compact_cases hc hdb henv hf <;>
      obtain ⟨hfl', hstays', htable'⟩ | ⟨hl', p', hp', rfl, htable'⟩ :=
        compact_cases hc hdb henv hf' <;>
      rw [htable] at he <;> rw [htable'] at he'
    · exact h.across l l' hll' f hfl f' hfl' e he e' he' huser
    · subst hl'
      exact (hmixed l f hfl hstays p' hp' e he e' he' huser).1 hll'
    · exact (hmixed l' f' hfl' hstays' p hp e' he' e he huser.symm).2 hll'.le
    · exact absurd hl' (ne_of_gt hll')

end

end HotTLBApps.PebblesDB
