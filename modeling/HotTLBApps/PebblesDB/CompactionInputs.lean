import HotTLBApps.PebblesDB.CompactionWork
import HotTLBApps.PebblesDB.LevelShape

/-!
# PebblesDB: the inputs of a compaction

Both ways of choosing a compaction take sentinel files and guards of a level in
order, possibly without some of their files.  From this alone follows what the
input iterator returns.
-/

namespace HotTLBApps.PebblesDB

open OrderedSet Intervals List Function Option

variable {K V : Type} [LinearOrder K]

section Containers

variable {α : Type}

/-- Blocks of a list of blocks, in order, each possibly without some elements. -/
abbrev SubBlocks (blocks blocks' : List (List α)) : Prop :=
  List.SublistForall₂ List.Sublist blocks blocks'

variable {blocks blocks' : List (List α)}

section

variable (h : SubBlocks blocks blocks')
include h

theorem SubBlocks.mem {r : List α} (hr : r ∈ blocks) : ∃ r' ∈ blocks', r.Sublist r' := by
  induction h with
  | nil => cases hr
  | cons hsub _ ih =>
    obtain rfl | hr := mem_cons.mp hr
    · exact ⟨_, mem_cons_self, hsub⟩
    · obtain ⟨r', hr', hsub'⟩ := ih hr
      exact ⟨r', mem_cons_of_mem _ hr', hsub'⟩
  | cons_right _ ih =>
    obtain ⟨r', hr', hsub'⟩ := ih hr
    exact ⟨r', mem_cons_of_mem _ hr', hsub'⟩

theorem SubBlocks.flatten : blocks.flatten.Sublist blocks'.flatten := by
  induction h with
  | nil => exact nil_sublist _
  | cons hsub _ ih =>
    rw [flatten_cons, flatten_cons]
    exact hsub.append ih
  | cons_right _ ih =>
    rw [flatten_cons]
    exact ih.trans (sublist_append_right _ _)

theorem SubBlocks.pairwise {R : α → α → Prop}
    (hpairwise : blocks'.Pairwise fun r s => ∀ a ∈ r, ∀ b ∈ s, R a b) :
    blocks.Pairwise fun r s => ∀ a ∈ r, ∀ b ∈ s, R a b := by
  induction h with
  | nil => exact Pairwise.nil
  | cons hsub hrest ih =>
    obtain ⟨hhead, htail⟩ := pairwise_cons.mp hpairwise
    refine pairwise_cons.mpr ⟨?_, ih htail⟩
    intro s hs a ha b hb
    obtain ⟨s', hs', hsub'⟩ := SubBlocks.mem hrest hs
    exact hhead s' hs' a (hsub.mem ha) b (hsub'.mem hb)
  | cons_right hrest ih => exact ih (pairwise_cons.mp hpairwise).2

end

end Containers

/-- Inputs that were taken from a level. -/
structure LevelInputs.From (inputs : LevelInputs K) (v : LevelVersion K) : Prop where
  containers : SubBlocks inputs.containers v.containers
  guards_filed : ∀ g ∈ inputs.guardInputs, g.Filed

/-- What a compaction needs of the table files of a level. -/
def TablesOf (tables : Tables K V) (v : LevelVersion K) : Prop :=
  ∀ f ∈ v.files, 0 < f.number ∧ f.Describes (tables f.number)

section Entries

variable {tables : Tables K V} {v : LevelVersion K} {inputs : LevelInputs K}

section

variable (h : inputs.From v) (hv : v.WellFormed)
include h hv

theorem LevelInputs.From.files_sublist : inputs.files.Sublist v.files := by
  rw [← hv.flatten_containers]
  exact SubBlocks.flatten h.containers

variable (htables : TablesOf tables v)
include htables

/-- The input iterator of a level stops at its containers, if there are files. -/
theorem LevelInputs.From.positions_eq : inputs.positions =
      if inputs.files.isEmpty then [] else
        inputs.containers.map fun files => files.map (·.number) := by
  have hnumbers : inputs.guardInputs.map (fun g => g.files.take g.numberSegments) =
      inputs.guardInputs.map fun g => g.segments.map (·.number) := by
    apply map_congr_left
    intro g hg
    rw [GuardMetaData.segments, (h.guards_filed g hg).1, map_take]
  have hmap : inputs.sentinelInputs.map (·.number) ::
      inputs.guardInputs.map (fun g => g.segments.map (·.number)) =
        inputs.containers.map fun files => files.map (·.number) := by
    simp [LevelInputs.containers, comp_def]
  rw [LevelInputs.positions, hnumbers, hmap, List.map_map]
  refine if_congr Iff.rfl rfl (map_congr_left fun files hfiles => filter_eq_self.mpr ?_)
  intro number hnumber
  obtain ⟨f, hf, rfl⟩ := mem_map.mp hnumber
  have hmem : f ∈ inputs.files := mem_flatten.mpr ⟨files, hfiles, hf⟩
  simpa using (htables f ((h.files_sublist hv).mem hmem)).1

/-- The input iterator of a level merges the tables of each container. -/
theorem LevelInputs.From.entries_eq : inputs.entries tables =
      inputs.containers.flatMap fun files => mergeTables (files.map fun f => tables f.number) := by
  rw [LevelInputs.entries, h.positions_eq hv htables]
  split_ifs with hempty
  · -- Without files every container is empty.
    symm
    rw [flatMap_nil, flatMap_eq_nil_iff]
    intro files hfiles
    rw [flatten_eq_nil_iff.mp (isEmpty_iff.mp hempty) files hfiles]
    rfl
  · rw [flatMap_map]
    exact flatMap_congr fun files _ => by rw [List.map_map]; rfl

/-- **`value_buf_` is large enough** for at most 1023 files in each container. -/
theorem LevelInputs.From.fitsBuffer_iff :
    inputs.fitsBuffer = true ↔ ∀ files ∈ inputs.containers, files.length ≤ 1023 := by
  have hbound : ∀ files : List (FileMetaData K),
      16 * (files.map (·.number)).length + 8 ≤ 16384 ↔ files.length ≤ 1023 := by
    intro files
    rw [length_map]
    omega
  rw [LevelInputs.fitsBuffer, h.positions_eq hv htables]
  split_ifs with hempty
  · refine iff_of_true rfl fun files hfiles => ?_
    rw [flatten_eq_nil_iff.mp (isEmpty_iff.mp hempty) files hfiles]
    exact Nat.zero_le _
  · simp only [List.all_map, List.all_eq_true, comp_apply, decide_eq_true_iff, hbound]

theorem LevelInputs.From.entries_perm :
    (inputs.entries tables).Perm (inputs.files.flatMap fun f => tables f.number) := by
  have hflat : inputs.files.flatMap (fun f => tables f.number) =
      inputs.containers.flatMap fun files => (files.map fun f => tables f.number).flatten := by
    rw [LevelInputs.files, flatMap_def, flatMap_def, map_flatten,
      List.flatten_flatten, List.map_map]
    rfl
  rw [h.entries_eq hv htables, hflat]
  exact Perm.flatMap_left _ fun files _ => mergeTables_perm _

/-- The entries of a level are ordered as those of its containers are. -/
theorem LevelInputs.From.pairwise_entries {R : Entry K V → Entry K V → Prop}
    {S : FileMetaData K → FileMetaData K → Prop}
    (hcontainers : v.containers.Pairwise fun r s => ∀ f ∈ r, ∀ f' ∈ s, S f f')
    (hmerged : ∀ files : List (FileMetaData K), (∀ f ∈ files, f ∈ v.files) →
      (mergeTables (files.map fun f => tables f.number)).Pairwise R)
    (hacross : ∀ f ∈ v.files, ∀ f' ∈ v.files, S f f' →
      ∀ a ∈ tables f.number, ∀ b ∈ tables f'.number, R a b) :
    (inputs.entries tables).Pairwise R := by
  have hfile : ∀ files ∈ inputs.containers, ∀ f ∈ files, f ∈ v.files := fun files hfiles f hf =>
    (h.files_sublist hv).mem (mem_flatten.mpr ⟨files, hfiles, hf⟩)
  have horigin : ∀ files : List (FileMetaData K),
      ∀ e ∈ mergeTables (files.map fun f => tables f.number), ∃ f ∈ files, e ∈ tables f.number := by
    intro files e he
    rw [(mergeTables_perm _).mem_iff, mem_flatten] at he
    obtain ⟨table, htable, he⟩ := he
    obtain ⟨f, hf, rfl⟩ := mem_map.mp htable
    exact ⟨f, hf, he⟩
  have hordered := SubBlocks.pairwise h.containers hcontainers
  rw [h.entries_eq hv htables, flatMap_def]
  refine pairwise_flatten.mpr ⟨?_, pairwise_map.mpr (hordered.imp_of_mem ?_)⟩
  · intro entries hentries
    obtain ⟨files, hfiles, rfl⟩ := mem_map.mp hentries
    exact hmerged files (hfile files hfiles)
  · intro r s hr hs hrs a ha b hb
    obtain ⟨f, hf, haf⟩ := horigin r a ha
    obtain ⟨f', hf', hbf'⟩ := horigin s b hb
    exact hacross f (hfile r hr f hf) f' (hfile s hs f' hf') (hrs f hf f' hf') a haf b hbf'

theorem LevelInputs.From.nondecreasing_entries (hfits : v.FilesFit) :
    Nondecreasing Entry.userKey (inputs.entries tables) := by
  refine h.pairwise_entries hv htables (pairwise_containers hv hfits) ?_ ?_
  · intro files hfiles
    apply nondecreasing_mergeTables
    intro table htable
    obtain ⟨f, hf, rfl⟩ := mem_map.mp htable
    exact (htables f (hfiles f hf)).2.sorted
  · intro f hf f' hf' hle a ha b hb
    exact ((htables f hf).2.bounds ha).2.trans (hle.trans ((htables f' hf').2.bounds hb).1)

end

end Entries

/-- A compaction whose inputs were taken from a version. -/
structure Compaction.From (c : Compaction K) (v : Version K) : Prop where
  inputs : c.inputs.From (v c.level)
  next_eq : ∀ next, c.next = some next → nextLevel c.level = some next
  nextInputs : ∀ next, c.next = some next → c.nextInputs.From (v next)
  horizontal : c.next = none → c.nextInputs = LevelInputs.empty

variable {tables : Tables K V} {v : Version K} {c : Compaction K}

/-- **The input iterator returns the entries of the input files, each once.** -/
theorem Compaction.From.entries_perm (h : c.From v) (hv : ∀ l, (v l).WellFormed)
    (htables : ∀ l, TablesOf tables (v l)) : (c.entries tables).Perm
      ((c.inputs.files ++ c.nextInputs.files).flatMap fun f => tables f.number) := by
  have hnext : (c.nextInputs.entries tables).Perm
      (c.nextInputs.files.flatMap fun f => tables f.number) := by
    cases hnext : c.next with
    | none =>
      rw [h.horizontal hnext]
      exact Perm.refl _
    | some next => exact (h.nextInputs next hnext).entries_perm (hv next) (htables next)
  rw [flatMap_append]
  refine (mergeTables_perm _).trans ?_
  rw [flatten_cons, flatten_singleton]
  exact (h.inputs.entries_perm (hv _) (htables _)).append hnext

/-- What holds of the inputs of a level, and of no inputs, holds of both inputs. -/
theorem Compaction.From.both_entries {P : List (Entry K V) → Prop} (h : c.From v) (hnil : P [])
    (hlevel : ∀ l inputs, l = c.level ∨ c.next = some l → LevelInputs.From inputs (v l) →
      P (inputs.entries tables)) :
    P (c.inputs.entries tables) ∧ P (c.nextInputs.entries tables) := by
  refine ⟨hlevel _ _ (.inl rfl) h.inputs, ?_⟩
  cases hnext : c.next with
  | none =>
    rw [h.horizontal hnext]
    exact hnil
  | some next => exact hlevel next _ (.inr hnext) (h.nextInputs next hnext)

theorem Compaction.From.fitsBuffer_iff (h : c.From v) (hv : ∀ l, (v l).WellFormed)
    (htables : ∀ l, TablesOf tables (v l)) : c.fitsBuffer = true ↔
      ∀ files ∈ c.inputs.containers ++ c.nextInputs.containers, files.length ≤ 1023 := by
  rw [Compaction.fitsBuffer, Bool.and_eq_true, h.inputs.fitsBuffer_iff (hv _) (htables _),
    forall_mem_append]
  refine and_congr_right fun _ => ?_
  cases hnext : c.next with
  | none =>
    rw [h.horizontal hnext]
    exact iff_of_true rfl (by simp [LevelInputs.empty, LevelInputs.containers])
  | some next => exact (h.nextInputs next hnext).fitsBuffer_iff (hv next) (htables next)

/-- **The input iterator over levels whose files fit is sorted by user key.** -/
theorem Compaction.From.nondecreasing_entries (h : c.From v) (hv : ∀ l, (v l).WellFormed)
    (hfits : ∀ l, (v l).FilesFit) (htables : ∀ l, TablesOf tables (v l)) :
    Nondecreasing Entry.userKey (c.entries tables) := by
  obtain ⟨hinputs, hnext⟩ := h.both_entries (P := Nondecreasing Entry.userKey) Pairwise.nil
    fun l _ _ hfrom => hfrom.nondecreasing_entries (hv l) (htables l) (hfits l)
  exact nondecreasing_mergeTables (by simp [hinputs, hnext])

theorem completeGuardsCopy_spec (guards : List (InternalKey K)) :
    (completeGuardsCopy guards).Pairwise (· < ·) ∧
      ∀ u, u ∈ completeGuardsCopy guards ↔ u ∈ guards.map (·.userKey) := by
  have hsorted : Nondecreasing guardOrder
      (guards.mergeSort fun g g' => decide (g.userKey ≤ g'.userKey)) := by
    have htrans : ∀ a b c : InternalKey K, decide (a.userKey ≤ b.userKey) = true →
        decide (b.userKey ≤ c.userKey) = true → decide (a.userKey ≤ c.userKey) = true := by
      intro a b c hab hbc
      simp only [decide_eq_true_eq] at hab hbc ⊢
      exact hab.trans hbc
    have htotal : ∀ a b : InternalKey K,
        (decide (a.userKey ≤ b.userKey) || decide (b.userKey ≤ a.userKey)) = true := by
      intro a b
      simpa using le_total a.userKey b.userKey
    exact (pairwise_mergeSort htrans htotal guards).imp fun h => by
      simpa [guardOrder] using h
  constructor
  · exact pairwise_map.mpr (increasing_maybeAddGuards none hsorted (by simp)).1
  · intro u
    rw [completeGuardsCopy, mem_maybeAddGuards none _ (by simp),
      ((mergeSort_perm _ _).map _).mem_iff]

omit [LinearOrder K] in
theorem horizontalFiles_sublist (addAll : Bool) (maxFiles : Int)
    (all files : List (FileMetaData K)) :
    (horizontalFiles addAll maxFiles all files).Sublist files :=
  filter_sublist

omit [LinearOrder K] in
theorem guardInput_spec (horizontal : Bool) (maxFiles : Int) {g : GuardMetaData K} (hg : g.Filed)
    (addAll : Bool) : (guardInput horizontal maxFiles g addAll).segments.Sublist g.segments ∧
      (guardInput horizontal maxFiles g addAll).Filed := by
  unfold guardInput
  split_ifs
  · constructor
    · simpa [GuardMetaData.segments] using horizontalFiles_sublist addAll maxFiles _ _
    · exact ⟨rfl, rfl⟩
  · exact ⟨Sublist.refl _, hg⟩

variable {guardKey : K} {guards rest : List (GuardMetaData K × Nat)}

theorem advanceGuards_suffix (guardKey : K) (guards : List (GuardMetaData K × Nat)) :
    ((advanceGuards guardKey guards).1.toList ++ (advanceGuards guardKey guards).2) <:+ guards := by
  induction guards with
  | nil => exact suffix_rfl
  | cons g guards ih =>
    rw [advanceGuards]
    split_ifs
    · exact suffix_rfl
    · exact suffix_rfl
    · exact ih.trans (suffix_cons g guards)

theorem map_pickGuards_sublist (forceCompact scored : Bool) (scores : Nat → ℚ)
    (completeGuards : List K) (guards : List (GuardMetaData K × Nat)) :
    ((pickGuards forceCompact scored scores completeGuards guards).map Prod.fst).Sublist
      (guards.map Prod.fst) := by
  induction completeGuards generalizing guards with
  | nil => exact nil_sublist _
  | cons guardKey later ih =>
    have hsub := (advanceGuards_suffix guardKey guards).sublist.map Prod.fst
    rw [pickGuards]
    generalize advanceGuards guardKey guards = found at hsub ⊢
    obtain ⟨_ | ⟨g, index⟩, rest⟩ := found
    · exact (ih rest).trans hsub
    · dsimp only
      split_ifs
      · exact ((ih rest).cons_cons g).trans hsub
      · exact ((ih rest).cons_cons g).trans hsub
      · exact ((ih rest).cons g).trans hsub

/-- The inputs that are taken from a level are taken from it in order. -/
theorem from_pickLevelInputs (horizontal forceCompact scored : Bool) (level : Level)
    (scores : LevelScores) {v : LevelVersion K} (hv : v.WellFormed) :
    (pickLevelInputs horizontal forceCompact scored level scores v).From v := by
  have hpicked := map_pickGuards_sublist forceCompact scored scores.guards
    (completeGuardsCopy v.completeGuards) v.guards.zipIdx
  rw [zipIdx_map_fst] at hpicked
  constructor
  · refine SublistForall₂.cons ?_ ?_
    · change (pickSentinelFiles _ _ _ _ _ _ _).Sublist _
      unfold pickSentinelFiles
      dsimp only
      split_ifs
      · exact horizontalFiles_sublist _ _ _ _
      · exact Sublist.refl _
      · exact nil_sublist _
    rw [sublistForall₂_map_left_iff, sublistForall₂_map_right_iff, sublistForall₂_iff]
    refine ⟨_, ?_, hpicked⟩
    change Forall₂ _ (map _ _) _
    rw [forall₂_map_left_iff, forall₂_map_right_iff, forall₂_same]
    intro p hp
    have hg : p.1 ∈ v.guards := hpicked.mem (mem_map_of_mem hp)
    exact (guardInput_spec horizontal _ (hv.guards_filed p.1 hg) p.2).1
  · intro g hg
    obtain ⟨p, hp, rfl⟩ := mem_map.mp hg
    have hg : p.1 ∈ v.guards := hpicked.mem (mem_map_of_mem hp)
    exact (guardInput_spec horizontal _ (hv.guards_filed p.1 hg) p.2).2

variable {scores : Level → LevelScores} {level : Level} {forceCompact : Bool}
theorem pickCompactionForGuards_cases
    (h : pickCompactionForGuards v scores level forceCompact = some c) :
    c = horizontalCompaction v scores level forceCompact ∨ ∃ next, nextLevel level = some next ∧
        c = verticalCompaction v scores level next forceCompact := by
  unfold pickCompactionForGuards at h
  split_ifs at h
  · exact .inl (some.inj h).symm
  · obtain ⟨next, hnext, rfl⟩ := map_eq_some_iff.mp h
    exact .inr ⟨next, hnext, rfl⟩

/-- **The inputs of `PickCompactionForGuards` are taken from the version.** -/
theorem from_pickCompactionForGuards (hv : ∀ l, (v l).WellFormed)
    (h : pickCompactionForGuards v scores level forceCompact = some c) : c.From v := by
  obtain rfl | ⟨next, hnext, rfl⟩ := pickCompactionForGuards_cases h
  · constructor
    · exact from_pickLevelInputs _ _ _ _ _ (hv level)
    · nofun
    · nofun
    · intro _
      rfl
  · constructor
    · exact from_pickLevelInputs _ _ _ _ _ (hv level)
    · rintro _ ⟨rfl⟩
      exact hnext
    · rintro _ ⟨rfl⟩
      exact from_pickLevelInputs _ _ _ _ _ (hv next)
    · nofun

variable {userBegin userEnd : Option K}

theorem overlappingGuards_sublist {guards taken : List (GuardMetaData K)}
    (h : overlappingGuards userBegin userEnd guards = some taken) : taken.Sublist guards := by
  induction guards generalizing taken with
  | nil =>
    obtain rfl : [] = taken := some.inj h
    exact Sublist.refl _
  | cons g guards ih =>
    rw [overlappingGuards] at h
    split at h
    next start limit rest _ _ hrest =>
      split_ifs at h
      · obtain rfl := some.inj h
        exact (ih hrest).cons_cons g
      · obtain rfl := some.inj h
        exact (ih hrest).cons g
    next =>
      cases h

theorem from_getOverlappingInputsGuards {v : LevelVersion K} (hv : v.WellFormed)
    {inputs : LevelInputs K} (h : getOverlappingInputsGuards v userBegin userEnd = some inputs) :
    inputs.From v := by
  obtain ⟨guards, hguards, rfl⟩ := map_eq_some_iff.mp h
  have hsub := overlappingGuards_sublist hguards
  constructor
  · refine SublistForall₂.cons ?_ ?_
    · split_ifs
      · exact Sublist.refl _
      · exact nil_sublist _
    · exact sublistForall₂_iff.mpr
        ⟨_, forall₂_same.mpr fun _ _ => Sublist.refl _, hsub.map _⟩
  · intro g hg
    exact hv.guards_filed g (hsub.mem hg)

end HotTLBApps.PebblesDB
