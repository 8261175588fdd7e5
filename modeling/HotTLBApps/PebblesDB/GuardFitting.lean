import HotTLBApps.PebblesDB.CompactionInstall

/-!
# PebblesDB: files fit the guards after an automatic compaction

A compaction makes the complete guards of its levels guards.  The files that it
leaves where they are fit these guards, because a sentinel set or guard with a file
that does not is taken as a whole; its outputs fit, because they are cut at the
complete guards of the level that they are written to.

That every guard is among the complete guards, which the choice of the inputs
relies on, is part of the shape of a level and is kept as well.
-/

namespace HotTLBApps.PebblesDB

open OrderedSet Intervals List Option

variable {K V : Type} [LinearOrder K]

variable {horizontal forceCompact scored : Bool} {maxFiles : Int}
  {keys : List K} {f : FileMetaData K}

theorem mem_pickSentinelFiles_or_fits {score : ℚ} (hkeys : keys.Pairwise (· < ·))
    {files : List (FileMetaData K)} (hf : f ∈ files)
    (hbounds : f.smallest.userKey ≤ f.largest.userKey) :
    f ∈ pickSentinelFiles horizontal forceCompact scored maxFiles score keys files ∨
      Fits keys f.smallest.userKey f.largest.userKey := by
  cases hall : files.any (exceedsSentinel keys) with
  | true =>
    left
    unfold pickSentinelFiles
    rw [hall]
    cases horizontal with
    | true => simpa [horizontalFiles] using hf
    | false => simpa using hf
  | false =>
    right
    have hbelow : ∀ k ∈ keys, f.largest.userKey < k := by
      have hfirst := any_eq_false.mp hall f hf
      apply forall_lt_of_head? hkeys
      cases keys with
      | nil => simp
      | cons first keys => simpa [exceedsSentinel] using hfirst
    rw [Fits, slot_eq_zero hbelow, slot_eq_zero fun k hk => hbounds.trans_lt (hbelow k hk)]

theorem fits_of_not_exceedsGuard {guardKey : K} {later : List K}
    (hkeys : (guardKey :: later).Pairwise (· < ·))
    (hbounds : f.smallest.userKey ≤ f.largest.userKey)
    (hf : exceedsGuard guardKey later f = false) :
    guardKey ≤ f.smallest.userKey ∧
      Fits (guardKey :: later) f.smallest.userKey f.largest.userKey := by
  obtain ⟨hstart, hlimit⟩ := Bool.or_eq_false_iff.mp hf
  have hstart' : guardKey ≤ f.smallest.userKey := by simpa using hstart
  refine ⟨hstart', ?_⟩
  have hbelow : ∀ k ∈ later, f.largest.userKey < k := by
    apply forall_lt_of_head? (pairwise_cons.mp hkeys).2
    cases later with
    | nil => simp
    | cons next later => simpa using hlimit
  rw [Fits, slot_cons, slot_cons, slot_eq_zero hbelow,
    slot_eq_zero fun k hk => hbounds.trans_lt (hbelow k hk), if_pos hstart',
    if_pos (hstart'.trans hbounds)]

theorem fits_cons {k : K} {x y : K} (h : Fits keys x y) (hx : k ≤ x) (hy : k ≤ y) :
    Fits (k :: keys) x y := by
  rw [Fits, slot_cons, slot_cons, if_pos hx, if_pos hy, h]

/-- A guard is taken with all its files, or its files fit the complete guards. -/
theorem mem_pickGuards_or_fits {scores : Nat → ℚ} (hkeys : keys.Pairwise (· < ·))
    {guards : List (GuardMetaData K × Nat)}
    (hguards : (guards.map (·.1.guardKey.userKey)).Sublist keys) (hfiled : ∀ g ∈ guards, g.1.Filed)
    (hbounds : ∀ g ∈ guards, ∀ f ∈ g.1.fileMetas, f.smallest.userKey ≤ f.largest.userKey) :
    ∀ g ∈ guards, (g.1, true) ∈ pickGuards forceCompact scored scores keys guards ∨
      ∀ f ∈ g.1.fileMetas, g.1.guardKey.userKey ≤ f.smallest.userKey ∧
        Fits keys f.smallest.userKey f.largest.userKey := by
  induction keys generalizing guards with
  | nil =>
    obtain rfl := map_eq_nil_iff.mp (sublist_nil.mp hguards)
    exact fun _ => nofun
  | cons guardKey later ih =>
    obtain ⟨hhead, htail⟩ := pairwise_cons.mp hkeys
    -- Guards beyond the first key are dealt with in the rest of the loop.
    have hlater : ∀ rest : List (GuardMetaData K × Nat), rest ⊆ guards →
        (rest.map (·.1.guardKey.userKey)).Sublist later →
        ∀ g ∈ rest, (g.1, true) ∈ pickGuards forceCompact scored scores later rest ∨
          ∀ f ∈ g.1.fileMetas, g.1.guardKey.userKey ≤ f.smallest.userKey ∧
            Fits (guardKey :: later) f.smallest.userKey f.largest.userKey := by
      intro rest hmem hrest g hg
      refine (ih htail hrest (fun g hg => hfiled g (hmem hg))
        (fun g hg => hbounds g (hmem hg)) g hg).imp_right fun hfit f hf => ?_
      obtain ⟨hstart, hfits⟩ := hfit f hf
      have hle := (hhead _ (hrest.mem (mem_map_of_mem hg))).le.trans hstart
      exact ⟨hstart, fits_cons hfits hle (hle.trans (hbounds g (hmem hg) f hf))⟩
    rw [pickGuards]
    obtain hguards | ⟨_, hcons, hguards⟩ := sublist_cons_iff.mp hguards
    · have hadvance : advanceGuards guardKey guards = (none, guards) := by
        cases guards with
        | nil => rfl
        | cons g rest =>
          have hlt := hhead _ (hguards.mem mem_cons_self)
          rw [advanceGuards, if_neg hlt.ne', if_pos hlt]
      rw [hadvance]
      exact hlater guards (Subset.refl _) hguards
    · obtain ⟨⟨g₀, index⟩, rest, rfl, rfl, rfl⟩ := map_eq_cons_iff.mp hcons
      have hrest := hlater rest (subset_cons_self _ _) hguards
      rw [advanceGuards, if_pos rfl]
      dsimp only
      intro g hg
      obtain rfl | hg := mem_cons.mp hg
      · split_ifs with hany hscore
        · exact .inl mem_cons_self
        all_goals
          right
          intro f hf
          apply fits_of_not_exceedsGuard hkeys (hbounds _ mem_cons_self f hf)
          have htake : g₀.fileMetas.take g₀.files.length = g₀.fileMetas := by
            rw [(hfiled _ mem_cons_self).1, length_map, take_length]
          rw [htake, Bool.not_eq_true, List.any_eq_false] at hany
          simpa using hany f hf
      · split_ifs
        · exact (hrest g hg).imp_left (mem_cons_of_mem _)
        · exact (hrest g hg).imp_left (mem_cons_of_mem _)
        · exact hrest g hg

/-- **A file that a compaction does not take fits the complete guards of its
level.** -/
theorem mem_pickLevelInputs_or_fits {level : Level} {scores : LevelScores} {v : LevelVersion K}
    (hv : v.WellFormed) (hbounds : ∀ f ∈ v.files, f.smallest.userKey ≤ f.largest.userKey)
    (hf : f ∈ v.files) : f ∈ (pickLevelInputs horizontal forceCompact scored level scores v).files ∨
      Fits (completeGuardsCopy v.completeGuards) f.smallest.userKey f.largest.userKey := by
  obtain ⟨hkeys, hmem⟩ := completeGuardsCopy_spec v.completeGuards
  have hcontained : ∀ files ∈ v.containers, ∀ f ∈ files, f ∈ v.files := by
    intro files hfiles f hf
    rw [← hv.flatten_containers]
    exact mem_flatten.mpr ⟨files, hfiles, hf⟩
  rw [← hv.flatten_containers] at hf
  obtain ⟨files, hfiles, hf⟩ := mem_flatten.mp hf
  obtain rfl | hfiles := mem_cons.mp hfiles
  · rcases mem_pickSentinelFiles_or_fits hkeys hf
      (hbounds f (hcontained _ mem_cons_self f hf)) with htaken | hfits
    · exact .inl (mem_flatten.mpr ⟨_, mem_cons_self, htaken⟩)
    · exact .inr hfits
  · obtain ⟨g, hg, rfl⟩ := mem_map.mp hfiles
    have hguards : (v.guards.zipIdx.map (·.1.guardKey.userKey)).Sublist
        (completeGuardsCopy v.completeGuards) := by
      have hincreasing := hv.sorted.guards_increasing
      have hcomplete := hincreasing.nodup.subperm fun k hk =>
        (hmem k).mpr (hv.guards_complete k hk)
      have hsub := sublist_of_subperm_of_pairwise hcomplete hincreasing hkeys
      rwa [guardUserKeys, ← List.zipIdx_map_fst 0 v.guards, List.map_map] at hsub
    have hfst : ∀ p ∈ v.guards.zipIdx, p.1 ∈ v.guards := by
      intro p hp
      exact fst_mem_of_mem_zipIdx hp
    obtain ⟨p, hp, rfl⟩ : ∃ p ∈ v.guards.zipIdx, p.1 = g := by
      rw [← zipIdx_map_fst 0 v.guards] at hg
      exact mem_map.mp hg
    rw [(hv.guards_filed p.1 hg).segments_eq] at hf
    rcases mem_pickGuards_or_fits hkeys hguards
      (fun p hp => hv.guards_filed p.1 (hfst p hp))
      (fun p hp f hf => by
        rw [← (hv.guards_filed p.1 (hfst p hp)).segments_eq] at hf
        exact hbounds f (hcontained _ (mem_cons_of_mem _ (mem_map_of_mem (hfst p hp))) f hf))
      p hp with htaken | hfits
    · left
      refine mem_flatten.mpr ⟨p.1.segments, mem_cons_of_mem _ ?_, ?_⟩
      · refine mem_map.mpr ⟨guardInput horizontal (maxFilesPerGuard level) p.1 true,
          mem_map.mpr ⟨(p.1, true), htaken, rfl⟩, ?_⟩
        cases horizontal with
        | true => simp [guardInput, horizontalFiles, GuardMetaData.segments]
        | false => simp [guardInput]
      · rwa [(hv.guards_filed p.1 hg).segments_eq]
    · exact .inr (hfits f hf).2

variable {db : DB K V} {scores : Level → LevelScores} {level : Level} {c : Compaction K}
  {env : CompactionEnv K V} {pushed : Level → List (InternalKey K)}

/-- The outputs are cut at the complete guards of the level that they are written
to. -/
theorem completeGuards_pickCompactionForGuards {v : Version K}
    (hpick : pickCompactionForGuards v scores level forceCompact = some c) :
    c.completeGuards = completeGuardsCopy (v c.outputLevel).completeGuards := by
  rcases pickCompactionForGuards_cases hpick with rfl | ⟨next, -, rfl⟩ <;> rfl

/-- A file that stays in a level whose complete guards become guards fits them. -/
theorem fits_of_not_takes (hdb : db.WellFormed)
    (hpick : pickCompactionForGuards db.version scores level forceCompact = some c) {l : Level}
    (hadopts : l = c.level ∨ c.next = some l) (hf : f ∈ (db.version l).files)
    (hstays : ¬ c.Takes l f) :
    Fits (completeGuardsCopy (db.version l).completeGuards) f.smallest.userKey
      f.largest.userKey := by
  have hbounds : ∀ f ∈ (db.version l).files, f.smallest.userKey ≤ f.largest.userKey :=
    fun f hf => (hdb.tables l f hf).2.bounds_le
  by_contra hno
  -- a file that does not fit is taken, whatever else is picked
  have htaken := fun horizontal scored scores => (@mem_pickLevelInputs_or_fits K _ horizontal
    forceCompact scored f l scores _ (hdb.levels l) hbounds hf).resolve_right hno
  obtain rfl | ⟨next, -, rfl⟩ := pickCompactionForGuards_cases hpick
  · obtain rfl | hnone := hadopts
    · exact hstays (.inl ⟨rfl, htaken _ _ _⟩)
    · cases hnone
  · obtain rfl | hnext := hadopts
    · exact hstays (.inl ⟨rfl, htaken _ _ _⟩)
    · obtain rfl : next = l := some.inj hnext
      exact hstays (.inr ⟨rfl, htaken _ _ _⟩)

theorem fits_of_mem_outputFiles (hc : c.From db.version) (hdb : db.WellFormed)
    (hfits : ∀ l, (db.version l).FilesFit) (hguards : c.completeGuards.Pairwise (· < ·))
    (hf : f ∈ db.outputFiles c env) :
    Fits c.completeGuards f.smallest.userKey f.largest.userKey := by
  obtain ⟨p, hp, rfl⟩ := mem_map.mp hf
  have hout := fst_mem_of_mem_zipIdx hp
  rw [doCompactionWorkGuards_eq] at hout
  refine ((wellFormed_of_mem_splitEntries hout).fits_iff
    (describes_outputFile hc hdb hfits hp).sorted).mpr ?_
  intro a ha b hb
  exact slot_eq_of_mem_output hguards (nondecreasing_keptEntries hc hdb hfits _) hout ha hb

/-- The files of every level fit its guards after an automatic compaction. -/
theorem filesFit_compact (hdb : db.WellFormed) (hfits : ∀ l, (db.version l).FilesFit)
    (hpick : pickCompactionForGuards db.version scores level forceCompact = some c)
    (henv : env.Fresh db.version) (l : Level) :
    ((db.compact c false env pushed).version l).FilesFit := by
  have hc := from_pickCompactionForGuards hdb.levels hpick
  by_cases hempty : (c.inputs.files.isEmpty && c.nextInputs.files.isEmpty) = true
  · rw [DB.compact, if_pos hempty]
    exact hfits l
  · intro f hf
    rw [guardUserKeys_compact hdb hempty]
    obtain ⟨hf, hstays⟩ | ⟨rfl, hout⟩ := (mem_files_compact hc hdb henv).mp hf
    · split_ifs with hadopts
      · exact fits_of_not_takes hdb hpick hadopts.2 hf hstays
      · exact hfits l f hf
    · have hlevel : c.outputLevel = c.level ∨ c.next = some c.outputLevel := by
        unfold Compaction.outputLevel
        cases hnext : c.next with
        | none => exact .inl rfl
        | some next => exact .inr rfl
      rw [if_pos ⟨rfl, hlevel⟩, ← completeGuards_pickCompactionForGuards hpick]
      refine fits_of_mem_outputFiles hc hdb hfits ?_ hout
      rw [completeGuards_pickCompactionForGuards hpick]
      exact (completeGuardsCopy_spec _).1

theorem flatMap_tables_outputFiles (henv : env.Fresh db.version) (manual : Bool) :
    ((db.outputFiles c env).flatMap fun f =>
        (db.compact c manual env pushed).tables f.number) =
      keptEntries db.version c.level env DropState.start (c.entries db.tables) := by
  have hkept : (doCompactionWorkGuards db.version db.tables c env).flatMap Output.entries =
      keptEntries db.version c.level env DropState.start (c.entries db.tables) := by
    rw [doCompactionWorkGuards_eq, flatMap_splitEntries]
  rw [← hkept, tables_compact, DB.outputFiles, flatMap_map]
  conv_rhs => rw [← zipIdx_map_fst 0 (doCompactionWorkGuards db.version db.tables c env),
    flatMap_map]
  rw [flatMap_def, flatMap_def]
  congr 1
  apply map_congr_left
  intro p hp
  exact writeTables_output henv.injective db.tables hp

/-- **When an automatic compaction keeps every file between guards.**  If no guard and no set of
sentinel files that it reads has more than 1023 files, it ends: the files of every level again fit
its guards, which now include the complete guards of the compacted levels; every entry of the
inputs that is kept is in one output, once, and every output is a file of the new version.  What
the compaction relies on holds again. -/
theorem automatic_compaction_fits_iff
    (hdb : db.WellFormed)
    (hfits : ∀ l, (db.version l).FilesFit)
    (hpick : pickCompactionForGuards db.version scores level forceCompact = some c)
    (henv : env.Fresh db.version) :
    (∃ db', db.runCompaction c false env pushed = some db' ∧
      (∀ l, (db'.version l).FilesFit) ∧
      (((db.outputFiles c env).flatMap fun f => db'.tables f.number) =
          keptEntries db.version c.level env DropState.start (c.entries db.tables) ∧
        (∀ f ∈ db.outputFiles c env, f ∈ (db'.version c.outputLevel).files) ∧
        ((db.outputFiles c env).map (·.number)).Nodup) ∧
      (c.entries db.tables).Perm
        ((c.inputs.files ++ c.nextInputs.files).flatMap fun f => db.tables f.number) ∧
      db'.WellFormed) ↔
    ∀ files ∈ c.inputs.containers ++ c.nextInputs.containers, files.length ≤ 1023 := by
  have hc := from_pickCompactionForGuards hdb.levels hpick
  rw [← hc.fitsBuffer_iff hdb.levels hdb.tables, DB.runCompaction]
  constructor
  · rintro ⟨db', hrun, -⟩
    exact (ite_none_right_eq_some.mp hrun).1
  · intro hbuffer
    refine ⟨_, if_pos hbuffer, filesFit_compact hdb hfits hpick henv,
      ⟨flatMap_tables_outputFiles henv false, ?_, ?_⟩, hc.entries_perm hdb.levels hdb.tables,
      wellFormed_compact hc hdb hfits henv⟩
    · intro f hf
      exact (mem_files_compact hc hdb henv).mpr (.inr ⟨rfl, hf⟩)
    · rw [DB.outputFiles, map_number_outputFile]
      exact nodup_range.map henv.injective

def stackedFile (i : Nat) : FileMetaData Nat :=
  ⟨i + 1, 100, ⟨3, 2 * i + 1, .kTypeValue⟩, ⟨7, 2 * i + 2, .kTypeValue⟩⟩

/-- A database with files of one range in its first level, the newest one first, and a complete
guard inside the range. -/
def stackedDB (n : Nat) : DB Nat Nat :=
  { version := fun l =>
      if l = 0 then
        { files := ((List.range n).map stackedFile).reverse
          guards := []
          sentinelFiles := ((List.range n).map stackedFile).reverse
          completeGuards := [⟨5, 0, .kTypeGuard⟩]
          numCompleteGuards := 1 }
      else
        LevelVersion.empty
    tables := fun number =>
      [⟨⟨3, 2 * number - 1, .kTypeValue⟩, 30⟩, ⟨⟨7, 2 * number, .kTypeValue⟩, 70⟩] }

theorem mem_files_stackedDB {n : Nat} {l : Level} {f : FileMetaData Nat}
    (hf : f ∈ ((stackedDB n).version l).files) : l = 0 ∧ ∃ i < n, stackedFile i = f := by
  unfold stackedDB at hf
  dsimp only at hf
  split_ifs at hf with hl
  · simp only [mem_reverse, List.mem_map, mem_range] at hf
    exact ⟨hl, hf⟩
  · cases hf

theorem wellFormed_stackedDB (n : Nat) : (stackedDB n).WellFormed where
  levels := by
    intro l
    by_cases hl : l = 0
    · subst hl
      refine wellFormed_sentinels ?_ ?_ _ _
      · rw [Increasing, pairwise_reverse, pairwise_map]
        refine pairwise_lt_range.imp fun {i j} hlt => Prod.Lex.toLex_lt_toLex.mpr (.inl ?_)
        exact InternalKey.lt_iff.mpr (.inr ⟨rfl, by
          simp only [stackedFile, InternalKey.tag, packSequenceAndType]; omega⟩)
      · rw [map_reverse, nodup_reverse, List.map_map]
        exact nodup_range.map fun i j h => Nat.succ_injective h
    · have hempty : (stackedDB n).version l = LevelVersion.empty := if_neg hl
      rw [hempty]
      exact wellFormed_empty
  tables := by
    intro l f hf
    obtain ⟨-, i, -, rfl⟩ := mem_files_stackedDB hf
    exact ⟨Nat.succ_pos i, rfl, rfl, pairwise_pair.mpr (by simp [Entry.userKey])⟩

theorem filesFit_stackedDB (n : Nat) (l : Level) : ((stackedDB n).version l).FilesFit := by
  intro f hf
  obtain ⟨rfl, -⟩ := mem_files_stackedDB hf
  rfl

/-- An environment without snapshots whose tables are never full; new files get the numbers from
`next` on. -/
def quietEnv (next : Nat) : CompactionEnv Nat Nat :=
  { smallestSnapshot := 10
    manualGarbageCutoff := 0
    fileSize := fun _ => 0
    finishedSize := List.length
    number := fun i => i + next }

theorem fresh_stackedDB (n : Nat) : (quietEnv (n + 1)).Fresh (stackedDB n).version := by
  refine fresh_of_lt (fun _ => rfl) n.succ_pos fun l f hf => ?_
  obtain ⟨-, i, hi, rfl⟩ := mem_files_stackedDB hf
  exact Nat.succ_lt_succ hi

/-- All files of the first level are compacted into the next one. -/
def stackedCompaction (n : Nat) : Compaction Nat :=
  verticalCompaction (stackedDB n).version (fun _ => ⟨0, fun _ => 0⟩) 0 1 true

theorem pick_stackedDB (n : Nat) :
    pickCompactionForGuards (stackedDB (n + 1)).version (fun _ => ⟨0, fun _ => 0⟩) 0 true =
      some (stackedCompaction (n + 1)) := by
  refine if_neg ?_
  simp [stackedDB]

theorem length_sentinelInputs (n : Nat) :
    (stackedCompaction n).inputs.sentinelInputs.length = n := by
  simp [stackedCompaction, verticalCompaction, pickLevelInputs, pickSentinelFiles, stackedDB]

/-- Two files are compacted, and the outputs are cut at the guard. -/
theorem automatic_compaction_fits_iff_two :
    ∃ db', (stackedDB 2).runCompaction (stackedCompaction 2) false (quietEnv 3) (fun _ => []) =
        some db' ∧
      (stackedCompaction 2).inputs.sentinelInputs.length = 2 ∧ ∀ l, (db'.version l).FilesFit := by
  have hc := from_pickCompactionForGuards (wellFormed_stackedDB 2).levels (pick_stackedDB 1)
  have hlengths : ∀ l, ∀ files ∈ ((stackedDB 2).version l).containers, files.length ≤ 1023 := by
    decide
  have hbounded : ∀ l {inputs : LevelInputs Nat}, inputs.From ((stackedDB 2).version l) →
      ∀ files ∈ inputs.containers, files.length ≤ 1023 := by
    intro l inputs hinputs files hfiles
    obtain ⟨files', hfiles', hsub⟩ := SubBlocks.mem hinputs.containers hfiles
    exact hsub.length_le.trans (hlengths l files' hfiles')
  have hiff := @automatic_compaction_fits_iff Nat Nat _ _ _ _ _ _ _ (fun _ => [])
    (wellFormed_stackedDB 2) (filesFit_stackedDB 2) (pick_stackedDB 1) (fresh_stackedDB 2)
  rcases hiff.mpr (forall_mem_append.mpr ⟨hbounded 0 hc.inputs, hbounded 1 (hc.nextInputs 1 rfl)⟩)
    with ⟨db', hrun, hfits, -⟩
  exact ⟨db', hrun, length_sentinelInputs 2, hfits⟩

/-- With 1024 files the input iterator writes 16392 bytes into its buffer. -/
theorem runCompaction_thousand_files :
    (stackedDB 1024).WellFormed ∧ (∀ l, ((stackedDB 1024).version l).FilesFit) ∧
      pickCompactionForGuards (stackedDB 1024).version (fun _ => ⟨0, fun _ => 0⟩) 0 true =
        some (stackedCompaction 1024) ∧
      (quietEnv 1025).Fresh (stackedDB 1024).version ∧
      (stackedDB 1024).runCompaction (stackedCompaction 1024) false (quietEnv 1025) (fun _ => []) =
        none := by
  have hwf := wellFormed_stackedDB 1024
  refine ⟨hwf, filesFit_stackedDB 1024, pick_stackedDB 1023, fresh_stackedDB 1024, if_neg ?_⟩
  have hc := from_pickCompactionForGuards hwf.levels (pick_stackedDB 1023)
  rw [hc.fitsBuffer_iff hwf.levels hwf.tables]
  intro hsmall
  have hlength := hsmall _ (mem_append_left _ mem_cons_self)
  rw [length_sentinelInputs] at hlength
  omega

end HotTLBApps.PebblesDB
