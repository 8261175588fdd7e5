import HotTLBApps.PebblesDB.CompactionInputs
import HotTLBApps.PebblesDB.CompactionOutputs

/-!
# PebblesDB: installing a compaction

What a compaction makes of the current version and the table files, for any way of
choosing its inputs.
-/

namespace HotTLBApps.PebblesDB

open OrderedSet Intervals List Function Option

variable {K V : Type}

/-- The numbers that `NewFileNumber` returns for the outputs are new. -/
structure CompactionEnv.Fresh (env : CompactionEnv K V) (v : Version K) : Prop where
  injective : Function.Injective env.number
  positive : ∀ i, 0 < env.number i
  unused : ∀ i l, ∀ f ∈ (v l).files, f.number ≠ env.number i

/-- Numbers from `k` on are new if the files have smaller ones. -/
theorem fresh_of_lt {env : CompactionEnv K V} {v : Version K} {k : Nat}
    (hnumber : ∀ i, env.number i = i + k) (hk : 0 < k)
    (hfiles : ∀ l, ∀ f ∈ (v l).files, f.number < k) : env.Fresh v where
  injective := by
    intro i j h
    simpa [hnumber] using h
  positive := by
    intro i
    rw [hnumber]
    omega
  unused := by
    intro i l f hf
    have := hfiles l f hf
    rw [hnumber]
    omega

variable {c : Compaction K} {manual : Bool} {v : Version K} {files : List (FileMetaData K)}
  {l : Level}

theorem newFiles_edit :
    ((c.edit manual v files).level l).newFiles = if l = c.outputLevel then files else [] := by
  change (files.map fun f => (c.outputLevel, f)).filterMap _ = _
  rw [filterMap_map]
  split_ifs with hl
  · subst hl
    simp
  · simp [Ne.symm hl]

theorem mem_deletedFiles_edit {number : Nat} :
    number ∈ ((c.edit manual v files).level l).deletedFiles ↔
      l = c.level ∧ number ∈ c.inputs.files.map (·.number) ∨
        c.next = some l ∧ number ∈ c.nextInputs.files.map (·.number) := by
  simp only [VersionEdit.level, Compaction.edit, Compaction.inputDeletions, Finset.mem_image,
    Finset.mem_filter, List.mem_toFinset, List.mem_append, List.mem_map, List.mem_flatMap,
    Option.mem_toList]
  constructor
  · rintro ⟨p, ⟨⟨f, hf, rfl⟩ | ⟨next, hnext, f, hf, rfl⟩, hp⟩, rfl⟩
    · exact Or.inl ⟨hp.symm, f, hf, rfl⟩
    · right
      refine ⟨?_, f, hf, rfl⟩
      rw [hnext, show next = l from hp]
  · rintro (⟨rfl, f, hf, rfl⟩ | ⟨hnext, f, hf, rfl⟩)
    · exact ⟨toLex (c.level, f.number), ⟨Or.inl ⟨f, hf, rfl⟩, rfl⟩, rfl⟩
    · exact ⟨toLex (l, f.number), ⟨Or.inr ⟨l, hnext, f, hf, rfl⟩, rfl⟩, rfl⟩

theorem deletedGuards_edit : ((c.edit manual v files).level l).deletedGuards = ∅ := by
  simp [VersionEdit.level, Compaction.edit, VersionEdit.clear]

theorem newGuards_edit : ((c.edit manual v files).level l).newGuards =
      if manual = false ∧ (l = c.level ∨ c.next = some l) then (v l).completeGuards else [] :=
  rfl

/-- Numbers determine the files of a level, so that deleting by number deletes the
inputs. -/
theorem mem_map_number_iff {f : FileMetaData K} {files inputs : List (FileMetaData K)}
    (hnodup : (files.map (·.number)).Nodup) (hinputs : ∀ f ∈ inputs, f ∈ files) (hf : f ∈ files) :
    f.number ∈ inputs.map (·.number) ↔ f ∈ inputs := by
  constructor
  · intro hmem
    obtain ⟨f', hf', hnumber⟩ := mem_map.mp hmem
    rwa [← inj_on_of_nodup_map hnodup (hinputs f' hf') hf hnumber]
  · exact mem_map_of_mem

theorem map_number_outputFile {env : CompactionEnv K V} {outputs : List (Output K V)} :
    (outputs.zipIdx.map env.outputFile).map (·.number) =
      (List.range outputs.length).map env.number := by
  rw [List.map_map, List.range_eq_range', ← List.zipIdx_map_snd 0, List.map_map]
  rfl

/-- New files of one level, with numbers that the level does not use. -/
theorem freshNumbers_of_unused
    {v : LevelVersion K}
    {edit : LevelEdit K}
    {P : Prop} [Decidable P]
    (hold : (v.files.map (·.number)).Nodup)
    (hnew : edit.newFiles = if P then files else [])
    (hnodup : (files.map (·.number)).Nodup)
    (hunused : ∀ f ∈ v.files, ∀ f' ∈ files, f.number ≠ f'.number) :
    FreshNumbers v edit := by
  rw [FreshNumbers, hnew]
  split_ifs
  · refine nodup_append.mpr ⟨hold, hnodup, ?_⟩
    intro number hnumber number' hnumber' heq
    rcases mem_map.mp hnumber with ⟨f, hf, rfl⟩
    rcases mem_map.mp hnumber' with ⟨f', hf', rfl⟩
    exact hunused f hf f' hf' heq
  · simpa using hold

variable [LinearOrder K]

/-- The levels are as `SaveTo` builds them and the table files are as their metadata
tells. -/
@[mk_iff]
structure DB.WellFormed (db : DB K V) : Prop where
  levels : ∀ l, (db.version l).WellFormed
  tables : ∀ l, TablesOf db.tables (db.version l)

section Decide

variable (v : LevelVersion K) (f : FileMetaData K) (entries : List (Entry K V))

instance : Decidable v.FilesFit :=
  inferInstanceAs (Decidable (∀ f ∈ v.files, Fits _ _ _))

instance : Decidable v.Sorted :=
  have : Decidable (Increasing fileKey v.files) := inferInstanceAs (Decidable (Pairwise _ _))
  decidable_of_iff' _ (LevelVersion.sorted_iff v)

instance : DecidablePred (GuardMetaData.Filed (K := K)) := fun _ =>
  inferInstanceAs (Decidable (_ ∧ _))

instance : Decidable v.WellFormed :=
  decidable_of_iff' _ (LevelVersion.wellFormed_iff v)

instance : Decidable (f.Describes entries) :=
  have : Decidable (Nondecreasing Entry.userKey entries) := inferInstanceAs (Decidable (Pairwise _ _))
  decidable_of_iff' _ (FileMetaData.describes_iff f entries)

instance (db : DB K V) : Decidable db.WellFormed :=
  have : ∀ l, Decidable (TablesOf db.tables (db.version l)) := fun l =>
    inferInstanceAs (Decidable (∀ f ∈ (db.version l).files, _ ∧ _))
  decidable_of_iff' _ (DB.wellFormed_iff db)

end Decide

/-- A file of a level is an input. -/
def Compaction.Takes (c : Compaction K) (l : Level) (f : FileMetaData K) : Prop :=
  l = c.level ∧ f ∈ c.inputs.files ∨ c.next = some l ∧ f ∈ c.nextInputs.files

def DB.outputFiles
    (db : DB K V) (c : Compaction K) (env : CompactionEnv K V) : List (FileMetaData K) :=
  (doCompactionWorkGuards db.version db.tables c env).zipIdx.map env.outputFile

variable {db : DB K V} {env : CompactionEnv K V} {pushed : Level → List (InternalKey K)}
  {f : FileMetaData K}

theorem takes_iff (hc : c.From db.version) (hdb : db.WellFormed)
    (hf : f ∈ (db.version l).files) :
    f.number ∈ ((c.edit manual db.version files).level l).deletedFiles ↔ c.Takes l f := by
  have hnodup := (hdb.levels l).sorted.numbers_nodup
  rw [mem_deletedFiles_edit, Compaction.Takes]
  refine or_congr (and_congr_right ?_) (and_congr_right ?_)
  · rintro rfl
    exact mem_map_number_iff hnodup
      (fun f' hf' => (hc.inputs.files_sublist (hdb.levels _)).mem hf') hf
  · intro hnext
    exact mem_map_number_iff hnodup
      (fun f' hf' => ((hc.nextInputs l hnext).files_sublist (hdb.levels _)).mem hf') hf

theorem freshNumbers_edit (hdb : db.WellFormed) (henv : env.Fresh db.version) :
    FreshNumbers ((db.version l).pushGuards (pushed l))
      ((c.edit manual db.version (db.outputFiles c env)).level l) := by
  refine freshNumbers_of_unused (hdb.levels l).sorted.numbers_nodup newFiles_edit ?_ ?_
  · rw [DB.outputFiles, map_number_outputFile]
    exact nodup_range.map henv.injective
  · intro f hf f' hf'
    rcases mem_map.mp hf' with ⟨p, -, rfl⟩
    exact henv.unused p.2 l f hf

theorem doCompactionWorkGuards_of_isEmpty {tables : Tables K V}
    (h : (c.inputs.files.isEmpty && c.nextInputs.files.isEmpty) = true) :
    doCompactionWorkGuards v tables c env = [] := by
  obtain ⟨hinputs, hnext⟩ := Bool.and_eq_true_iff.mp h
  have hentries : c.entries tables = [] := by
    simp [Compaction.entries, mergeTables, LevelInputs.entries, LevelInputs.positions, hinputs, hnext]
  rw [doCompactionWorkGuards, hentries]
  rfl

/-- **The inputs leave their levels, and the outputs enter theirs.** -/
theorem mem_files_compact (hc : c.From db.version) (hdb : db.WellFormed)
    (henv : env.Fresh db.version) :
    f ∈ ((db.compact c manual env pushed).version l).files ↔
      f ∈ (db.version l).files ∧ ¬ c.Takes l f ∨ l = c.outputLevel ∧ f ∈ db.outputFiles c env := by
  unfold DB.compact
  split_ifs with hempty
  · rw [DB.outputFiles, doCompactionWorkGuards_of_isEmpty hempty]
    obtain ⟨hinputs, hnext⟩ := Bool.and_eq_true_iff.mp hempty
    rw [List.isEmpty_iff] at hinputs hnext
    simp [Compaction.Takes, hinputs, hnext, Version.pushGuards, LevelVersion.pushGuards]
  · refine (mem_files_install (freshNumbers_edit hdb henv)).trans ?_
    rw [newFiles_edit]
    refine or_congr ?_ ?_
    · refine and_congr_right ?_
      intro hf
      rw [takes_iff hc hdb hf]
    · split_ifs with hl <;> simp [hl]

/-- The guards after a compaction: unless it is manual, the complete guards of its
levels become guards. -/
theorem guardUserKeys_compact (hdb : db.WellFormed)
    (hinputs : ¬ (c.inputs.files.isEmpty && c.nextInputs.files.isEmpty) = true) :
    guardUserKeys ((db.compact c manual env pushed).version l).guards =
      if manual = false ∧ (l = c.level ∨ c.next = some l) then
        completeGuardsCopy (db.version l).completeGuards
      else
        guardUserKeys (db.version l).guards := by
  have hwf := wellFormed_pushGuards (hdb.levels l) (pushed l)
  obtain ⟨hincreasing, hmem⟩ := guardUserKeys_install
    (@deletedGuards_edit K c manual db.version (db.outputFiles c env) l)
    hwf.sorted.guards_increasing
  rw [DB.compact, if_neg hinputs]
  change guardUserKeys (((db.version l).pushGuards (pushed l)).install
    ((c.edit manual db.version (db.outputFiles c env)).level l)).guards = _
  rw [newGuards_edit] at hmem
  split_ifs at hmem ⊢
  · obtain ⟨hcopy, hcopymem⟩ := completeGuardsCopy_spec (db.version l).completeGuards
    refine Pairwise.eq_of_mem_iff hincreasing hcopy ?_
    intro u
    rw [hmem, hcopymem]
    constructor
    · rintro (hu | hu)
      · exact (hdb.levels l).guards_complete u hu
      · exact hu
    · exact .inr
  · refine Pairwise.eq_of_mem_iff hincreasing (hdb.levels l).sorted.guards_increasing ?_
    intro u
    rw [hmem]
    simp [LevelVersion.pushGuards]

variable {p : Output K V × Nat}

omit [LinearOrder K] in
theorem writeTables_output (hinjective : Injective env.number) (tables : Tables K V)
    {outputs : List (Output K V)} (hp : p ∈ outputs.zipIdx) :
    env.writeTables tables outputs (env.number p.2) = p.1.entries := by
  unfold CompactionEnv.writeTables
  rcases hfind : outputs.zipIdx.find? fun q => decide (env.number q.2 = env.number p.2) with _ | q
  · have hnone := find?_eq_none.mp hfind p hp
    simp at hnone
  · have hq : q.2 = p.2 := by
      apply hinjective
      simpa using find?_some hfind
    have hget := mem_zipIdx_iff_getElem?.mp (mem_of_find?_eq_some hfind)
    rw [hq, mem_zipIdx_iff_getElem?.mp hp] at hget
    simp only [hfind]
    rw [some.inj hget]

omit [LinearOrder K] in
theorem writeTables_of_ne (tables : Tables K V) (outputs : List (Output K V)) {number : Nat}
    (h : ∀ i, number ≠ env.number i) : env.writeTables tables outputs number = tables number := by
  unfold CompactionEnv.writeTables
  rw [find?_eq_none.mpr]
  intro q _
  simpa using (h q.2).symm

/-- The entries that a compaction keeps are sorted by user key. -/
theorem nondecreasing_keptEntries (hc : c.From db.version) (hdb : db.WellFormed)
    (hfits : ∀ l, (db.version l).FilesFit) (st : DropState K) : Nondecreasing Entry.userKey
      (keptEntries db.version c.level env st (c.entries db.tables)) :=
  (hc.nondecreasing_entries hdb.levels hfits hdb.tables).sublist (keptEntries_sublist _ _ _ _ _)

theorem describes_outputFile (hc : c.From db.version) (hdb : db.WellFormed)
    (hfits : ∀ l, (db.version l).FilesFit)
    (hp : p ∈ (doCompactionWorkGuards db.version db.tables c env).zipIdx) :
    (env.outputFile p).Describes p.1.entries := by
  have hout : p.1 ∈ doCompactionWorkGuards db.version db.tables c env :=
    fst_mem_of_mem_zipIdx hp
  rw [doCompactionWorkGuards_eq] at hout
  have hwf := wellFormed_of_mem_splitEntries hout
  exact
    { __ := hwf
      sorted := (nondecreasing_keptEntries hc hdb hfits _).sublist
        (entries_sublist_of_mem_splitEntries hout) }

theorem tables_compact : (db.compact c manual env pushed).tables =
    env.writeTables db.tables (doCompactionWorkGuards db.version db.tables c env) := by
  unfold DB.compact
  split_ifs with hempty
  · rw [doCompactionWorkGuards_of_isEmpty hempty]
    rfl
  · rfl

section

variable (hc : c.From db.version) (hdb : db.WellFormed)
include hc hdb

/-- A file after a compaction is one that stays, with its table, or an output. -/
theorem compact_cases (henv : env.Fresh db.version)
    (hf : f ∈ ((db.compact c manual env pushed).version l).files) :
    (f ∈ (db.version l).files ∧ ¬ c.Takes l f ∧
        (db.compact c manual env pushed).tables f.number = db.tables f.number) ∨
      l = c.outputLevel ∧ ∃ p ∈ (doCompactionWorkGuards db.version db.tables c env).zipIdx,
        f = env.outputFile p ∧ (db.compact c manual env pushed).tables f.number = p.1.entries := by
  rw [tables_compact]
  obtain ⟨hf, hstays⟩ | ⟨hl, hout⟩ := (mem_files_compact hc hdb henv).mp hf
  · exact .inl ⟨hf, hstays, writeTables_of_ne _ _ fun i => henv.unused i l f hf⟩
  · obtain ⟨p, hp, rfl⟩ := mem_map.mp hout
    exact .inr ⟨hl, p, hp, rfl, writeTables_output henv.injective db.tables hp⟩

section

variable (hfits : ∀ l, (db.version l).FilesFit) (henv : env.Fresh db.version)
include hfits henv

/-- **A compaction keeps levels well formed and tables described.** -/
theorem wellFormed_compact : (db.compact c manual env pushed).WellFormed where
  levels := by
    intro l
    have hwf := wellFormed_pushGuards (hdb.levels l) (pushed l)
    unfold DB.compact
    split_ifs
    · exact hwf
    · refine wellFormed_install hwf deletedGuards_edit ?_ (freshNumbers_edit hdb henv)
      intro u hu
      rw [newGuards_edit] at hu
      change u ∈ ((db.version l).completeGuards ++ pushed l).map (·.userKey)
      rw [map_append]
      split_ifs at hu
      · exact mem_append_left _ hu
      · cases hu
  tables := by
    intro l f hf
    obtain ⟨hf, -, htable⟩ | ⟨-, p, hp, rfl, htable⟩ := compact_cases hc hdb henv hf
    · rw [htable]
      exact hdb.tables l f hf
    · rw [htable]
      exact ⟨henv.positive p.2, describes_outputFile hc hdb hfits hp⟩

end

end

end HotTLBApps.PebblesDB
