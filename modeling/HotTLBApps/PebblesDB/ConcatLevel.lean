import HotTLBApps.PebblesDB.CompactionInstall
import HotTLBApps.PebblesDB.ConcatSearch

/-!
# PebblesDB: which files the iterator over a level yields

The header of `AddSomeIteratorsGuards` promises the files with number at least `num`.
-/

namespace HotTLBApps.PebblesDB

open Cursor Intervals List Option LevelReader TwoLevelIteratorGuards

variable {K V : Type} [LinearOrder K]

section Level

namespace LevelReader

/-- The entries that the header promises: those of the files with number at least
`number_`, in the order of internal keys. -/
def entries (r : LevelReader K V) : List (InternalKey K × V) :=
  ((r.level.files.filter fun f => decide (r.number ≤ f.number)).flatMap fun f =>
    r.parts.tables.entries f.number).insertionSort fun a b => a.1 ≤ b.1

/-- The files of the level are as their metadata says. -/
structure OfLevel (r : LevelReader K V) : Prop where
  wellFormed : r.level.WellFormed
  filesFit : r.level.FilesFit
  describes : ∀ f ∈ r.level.files,
    f.Describes ((r.parts.tables.entries f.number).map fun x => (⟨x.1, x.2⟩ : Entry K V))

variable {r : LevelReader K V}

theorem mem_entries {x : InternalKey K × V} : x ∈ r.entries ↔
      ∃ f ∈ r.level.files, r.number ≤ f.number ∧ x ∈ r.parts.tables.entries f.number := by
  rw [entries, mem_insertionSort, mem_flatMap]
  simp only [mem_filter, decide_eq_true_eq, and_assoc]

variable {f f' : FileMetaData K}

theorem OfLevel.entries_sorted (h : r.OfLevel) : r.entries.Pairwise fun a b => a.1 < b.1 := by
  refine SortedUnique.pairwise_lt_insertionSort (k := Prod.fst) (fun _ _ => Iff.rfl) ?_
  rw [pairwise_flatMap]
  refine ⟨fun f _ => (r.parts.tables.sorted f.number).imp fun h => h.ne, ?_⟩
  have hnumbers := pairwise_map.mp h.wellFormed.sorted.numbers_nodup
  refine (hnumbers.filter _).imp ?_
  intro f f' hff' x hx y hy
  exact r.parts.tables.distinct _ _ hff' x hx y hy

variable {p : Nat} {files : List (FileMetaData K)}

theorem OfLevel.fileList_eq (h : r.OfLevel) (hfiles : r.level.containers[p]? = some files) :
    r.fileList p = files.map fun f => (f.number, f.fileSize) := by
  cases p with
  | zero =>
    cases hfiles
    rfl
  | succ i =>
    obtain ⟨g, hg, rfl⟩ : ∃ g, r.level.guards[i]? = some g ∧ g.segments = files := by
      rw [LevelVersion.containers, getElem?_cons_succ, getElem?_map] at hfiles
      exact map_eq_some_iff.mp hfiles
    have hfiled := h.wellFormed.guards_filed g (mem_of_getElem? hg)
    rw [fileList, hg, hfiled.segments_eq]
    dsimp only
    rw [hfiled.1, hfiled.2, zip_map', take_of_length_le (by rw [length_map])]

theorem fileList_eq_nil (hp : r.level.containers[p]? = none) : r.fileList p = [] := by
  cases p with
  | zero => cases hp
  | succ i =>
    rw [LevelVersion.containers, getElem?_cons_succ, getElem?_map, map_eq_none_iff] at hp
    rw [fileList, hp]

section

variable (h : r.OfLevel)
include h

theorem OfLevel.mem_matching {a : Nat × Nat} :
    a ∈ r.matching p ↔ ∃ files, r.level.containers[p]? = some files ∧
      ∃ f ∈ files, r.number < f.number ∧ a = (f.number, f.fileSize) := by
  rw [matching, mem_filter, decide_eq_true_eq]
  cases hfiles : r.level.containers[p]? with
  | none =>
    rw [fileList_eq_nil hfiles]
    simp
  | some files =>
    rw [h.fileList_eq hfiles, List.mem_map]
    constructor
    · rintro ⟨⟨f, hf, rfl⟩, hlt⟩
      exact ⟨files, rfl, f, hf, hlt, rfl⟩
    · rintro ⟨files', hfiles', f, hf, hlt, rfl⟩
      cases hfiles'
      exact ⟨⟨f, hf, rfl⟩, hlt⟩

theorem OfLevel.mem_files (hfiles : r.level.containers[p]? = some files)
    (hf : f ∈ files) : f ∈ r.level.files := by
  rw [← h.wellFormed.flatten_containers]
  exact mem_flatten.mpr ⟨files, mem_of_getElem? hfiles, hf⟩

variable {x : InternalKey K × V}

theorem OfLevel.mem_rows_iff : x ∈ r.rows p ↔ ∃ files, r.level.containers[p]? = some files ∧
      ∃ f ∈ files, r.number < f.number ∧ x ∈ r.parts.tables.entries f.number := by
  rw [rows, mem_flatMap]
  constructor
  · rintro ⟨a, ha, hx⟩
    obtain ⟨files, hfiles, f, hf, hlt, rfl⟩ := h.mem_matching.mp ha
    exact ⟨files, hfiles, f, hf, hlt, hx⟩
  · rintro ⟨files, hfiles, f, hf, hlt, hx⟩
    exact ⟨_, h.mem_matching.mpr ⟨files, hfiles, f, hf, hlt, rfl⟩, hx⟩

/-- A position with an opened file is one at which the index iterator stops. -/
theorem OfLevel.mem_blocks_of_file (hfiles : r.level.containers[p]? = some files)
    (hf : f ∈ files) (hlt : r.number < f.number) : p ∈ r.blocks := by
  have hp := (List.getElem?_eq_some_iff.mp hfiles).1
  have hlength : r.level.containers.length = r.level.guards.length + 1 := by
    rw [LevelVersion.containers, List.length_cons, List.length_map]
  refine mem_blocks.mpr ⟨by omega, any_eq_true.mpr ?_⟩
  obtain ⟨hmem, hnumber⟩ :=
    mem_filter.mp (h.mem_matching.mpr ⟨files, hfiles, f, hf, hlt, rfl⟩)
  exact ⟨_, hmem, hnumber⟩

theorem OfLevel.mem_allRows : x ∈ r.allRows ↔
      ∃ f ∈ r.level.files, r.number < f.number ∧ x ∈ r.parts.tables.entries f.number := by
  rw [allRows, mem_flatMap]
  constructor
  · rintro ⟨p, -, hx⟩
    obtain ⟨files, hfiles, f, hf, hlt, hx⟩ := h.mem_rows_iff.mp hx
    exact ⟨f, h.mem_files hfiles hf, hlt, hx⟩
  · rintro ⟨f, hf, hlt, hx⟩
    rw [← h.wellFormed.flatten_containers] at hf
    obtain ⟨files, hmem, hf⟩ := mem_flatten.mp hf
    obtain ⟨p, hp⟩ := getElem?_of_mem hmem
    exact ⟨p, h.mem_blocks_of_file hp hf hlt, h.mem_rows_iff.mpr ⟨files, hp, f, hf, hlt, hx⟩⟩

/-- The files are filed at the position in which they start, or before it. -/
theorem OfLevel.le_part (hfiles : r.level.containers[p]? = some files)
    (hf : f ∈ files) : p ≤ r.level.part f := by
  rw [h.wellFormed.containers_eq] at hfiles
  have hle : 0 + p ≤ r.level.part f := le_part_of_mem_runs
    (fun j f hf => endsBefore_of_part_le h.wellFormed.sorted.guards_increasing (h.filesFit f hf))
    (pairwise_part h.wellFormed.sorted.files_increasing) (fun _ _ => Nat.zero_le _) hfiles hf
  omega

theorem OfLevel.nodup_matching (p : Nat) : ((r.matching p).map Prod.fst).Nodup := by
  cases hfiles : r.level.containers[p]? with
  | none =>
    rw [matching, fileList_eq_nil hfiles]
    exact nodup_nil
  | some files =>
    have hsub : files.Sublist r.level.files := by
      rw [← h.wellFormed.flatten_containers]
      exact sublist_flatten_of_mem (mem_of_getElem? hfiles)
    have hfilter : ((r.matching p).map Prod.fst).Sublist ((r.fileList p).map Prod.fst) :=
      filter_sublist.map _
    rw [h.fileList_eq hfiles, List.map_map] at hfilter
    exact (h.wellFormed.sorted.numbers_nodup.sublist (hsub.map _)).sublist hfilter

/-- **What the iterator needs of the files**: the ones with a number above `number_` are not
more than fit into `value_buf_`, and they are filed where `FindGuard` looks for them. -/
def Filing (r : LevelReader K V) : Prop :=
  ∀ p files, r.level.containers[p]? = some files →
    (files.filter fun f => decide (r.number < f.number)).length ≤ 1023 ∧
      ∀ f ∈ files, r.number < f.number → r.level.part f = p

theorem OfLevel.length_matching (hfiles : r.level.containers[p]? = some files) :
    (r.matching p).length = (files.filter fun f => decide (r.number < f.number)).length := by
  rw [matching, h.fileList_eq hfiles, List.filter_map, List.length_map]
  rfl

theorem OfLevel.good (hfiling : r.Filing) : r.Good := by
  refine ⟨?_, h.nodup_matching, ?_⟩
  · intro p hp
    have hlength : r.level.containers.length = r.level.guards.length + 1 := by
      rw [LevelVersion.containers, length_cons, length_map]
    have hlt : p < r.level.containers.length := by
      have := (mem_blocks.mp hp).1
      omega
    rw [h.length_matching (getElem?_eq_getElem hlt)]
    exact (hfiling p _ (getElem?_eq_getElem hlt)).1
  · intro p x hx
    obtain ⟨files, hfiles, f, hf, hlt, hx⟩ := h.mem_rows_iff.mp hx
    have hmem := h.mem_files hfiles hf
    have hbounds := (h.describes f hmem).bounds (mem_map_of_mem hx)
    have hslot := (h.filesFit f hmem).slot_eq hbounds.1 hbounds.2
    exact hslot.trans ((hfiling p files hfiles).2 f hf hlt)

end

end LevelReader

namespace TwoLevelIteratorGuards

variable {r : LevelReader K V} {target : InternalKey K}

/-- What `Seek` shows is an entry at the position of the user key or a later one. -/
theorem mem_rows_of_seek (hguards : (guardUserKeys r.level.guards).Pairwise (· < ·))
    {s s' : TwoLevelIteratorGuards K V} (hs : s.Opened r)
    (hseek : s.call r (.seek target) = some s') {x : InternalKey K × V} (hx : s'.view = some x) :
    ∃ p, slot (guardUserKeys r.level.guards) target.userKey ≤ p ∧ x ∈ r.rows p := by
  have hbump := LevelReader.isFirst_bump (r := r)
    (slot (guardUserKeys r.level.guards) target.userKey)
  obtain ⟨s₁, hplace, hskip⟩ := bind_eq_some_iff.mp hseek
  rw [seekIndex_eq hguards target] at hplace
  obtain ⟨hopened, hindex⟩ := opened_place hs.dataOk (fun p hp => (hbump.mem p hp).1) hplace
  have hmove : ∀ p o, slot (guardUserKeys r.level.guards) target.userKey ≤ p →
      (some (r.bump (p + 1)) : Option (Option Nat)) = some o →
      ∀ p' ∈ o, p' ∈ r.blocks ∧ slot (guardUserKeys r.level.guards) target.userKey ≤ p' := by
    intro p o hp ho p' hp'
    cases ho
    obtain ⟨hmem, hle⟩ := (LevelReader.isFirst_bump (r := r) (p + 1)).mem p' hp'
    exact ⟨hmem, by omega⟩
  have hstart : ∀ p ∈ s₁.index, slot (guardUserKeys r.level.guards) target.userKey ≤ p :=
    fun p hp => (hbump.mem p (hindex ▸ hp)).2
  obtain ⟨hopened', hlate⟩ := opened_skipEmptyDataBlocks hmove hopened hstart hskip
  obtain ⟨it, hdata, hit⟩ := bind_eq_some_iff.mp hx
  have hsome := hopened'.isSome_eq
  rw [hdata] at hsome
  obtain ⟨p, hp⟩ := isSome_iff_exists.mp hsome
  refine ⟨p, hlate p hp, ?_⟩
  obtain ⟨it', hdata', hover⟩ := hopened'.exists_data hp
  obtain rfl := some.inj (hdata'.symm.trans hdata)
  rw [mem_rows, ← hover.mem_items]
  exact hover.ready.mem_of_view hit

/-- `Seek` to a position whose files do not fit into the buffer does not return. -/
theorem seek_eq_none (hguards : (guardUserKeys r.level.guards).Pairwise (· < ·))
    {s : TwoLevelIteratorGuards K V}
    (hblock : slot (guardUserKeys r.level.guards) target.userKey ∈ r.blocks)
    (hlong : 1023 < (r.matching (slot (guardUserKeys r.level.guards) target.userKey)).length) :
    s.call r (.seek target) = none := by
  have hbump := LevelReader.isFirst_bump (r := r)
    (slot (guardUserKeys r.level.guards) target.userKey)
  obtain ⟨p, hp, hle⟩ := hbump.least _ hblock le_rfl
  have heq : slot (guardUserKeys r.level.guards) target.userKey = p :=
    Nat.le_antisymm (hbump.mem p hp).2 hle
  have hvalue : r.value p = none := by
    rw [heq] at hlong
    rw [value, if_neg (by omega)]
  unfold call
  dsimp only
  rw [seekIndex_eq hguards target, hp, place, initDataBlock]
  dsimp only
  rw [hvalue]
  rfl

end TwoLevelIteratorGuards

open TwoLevelIteratorGuards in
/-- If `Seek` finds what a cursor finds, then a file that the header promises is opened, and
filed where `FindGuard` looks. -/
theorem LevelReader.OfLevel.opened_of_seek {r : LevelReader K V} (h : r.OfLevel)
    {f : FileMetaData K} (hf : f ∈ r.level.files) (hle : r.number ≤ f.number)
    {s : TwoLevelIteratorGuards K V} (hseek : call r new (.seek f.smallest) = some s)
    (hview : s.view = Cursor.current r.entries (Cursor.seek Prod.fst r.entries f.smallest)) :
    ∃ p files, r.level.containers[p]? = some files ∧ f ∈ files ∧ r.number < f.number ∧
      r.level.part f = p := by
  have hsmallest := (h.describes f hf).smallest
  rw [List.head?_map, Option.map_map] at hsmallest
  obtain ⟨x, hhead, hkey⟩ := Option.map_eq_some_iff.mp hsmallest
  change x.1 = f.smallest at hkey
  have hx := List.mem_of_head? hhead
  have hfirst := isFirst_seek h.entries_sorted f.smallest
  obtain ⟨y, hy, hyx⟩ := hfirst.least x (LevelReader.mem_entries.mpr ⟨f, hf, hle, hx⟩) hkey.ge
  have hyeq : y.1 = x.1 := le_antisymm hyx (hkey ▸ (hfirst.mem y hy).2)
  obtain ⟨p, hp, hrow⟩ := mem_rows_of_seek h.wellFormed.sorted.guards_increasing
    (opened_closed []) hseek (hview.trans hy)
  obtain ⟨files, hfiles, f', hf', hlt, hy'⟩ := h.mem_rows_iff.mp hrow
  obtain rfl : f' = f := by
    apply inj_on_of_nodup_map h.wellFormed.sorted.numbers_nodup (h.mem_files hfiles hf') hf
    by_contra hne
    exact r.parts.tables.distinct _ _ hne y hy' x hx hyeq
  exact ⟨p, files, hfiles, hf', hlt, Nat.le_antisymm hp (h.le_part hfiles hf')⟩

open TwoLevelIteratorGuards in
/-- **The iterator of `NewConcatenatingIterator` yields the files that the header promises**,
forward from any position that `SeekToFirst` and `Seek` lead to, exactly if no file has just
the number `number_`, the lists of files fit into the buffer of the index iterator, and the
files are filed where `FindGuard` looks. -/
theorem newConcatenatingIterator_correct_iff
    (r : LevelReader K V)
    (h : r.OfLevel) :
    (∀ calls : List (Call (InternalKey K)), (∀ c ∈ calls, c.Forward) →
      (calls.foldlM (call r) new).map TwoLevelIteratorGuards.view =
        (calls.foldlM (Cursor.call Prod.fst r.entries) none).map (Cursor.current r.entries)) ↔
    (∀ f ∈ r.level.files, f.number ≠ r.number) ∧ r.Filing := by
  have hguards := h.wellFormed.sorted.guards_increasing
  constructor
  · intro hcorrect
    have hseek : ∀ target, ∃ s, call r new (.seek target) = some s ∧
        s.view = current r.entries (seek Prod.fst r.entries target) := by
      intro target
      have hcall := hcorrect [.seek target] fun c hc => by
        rw [mem_singleton.mp hc]
        exact trivial
      simp only [foldlM_cons, foldlM_nil, bind_pure] at hcall
      exact map_eq_some_iff.mp hcall
    have hopened : ∀ f ∈ r.level.files, r.number ≤ f.number →
        ∃ p files, r.level.containers[p]? = some files ∧ f ∈ files ∧ r.number < f.number ∧
          r.level.part f = p := by
      intro f hf hle
      obtain ⟨s, hs, hview⟩ := hseek f.smallest
      exact h.opened_of_seek hf hle hs hview
    constructor
    · intro f hf heq
      obtain ⟨_, _, _, _, hlt, _⟩ := hopened f hf heq.ge
      omega
    · intro p files hfiles
      have hpart : ∀ f ∈ files, r.number < f.number → r.level.part f = p := by
        intro f hf hlt
        obtain ⟨p', files', hfiles', hf', -, hpart⟩ := hopened f (h.mem_files hfiles hf) hlt.le
        -- a file is in one container
        refine hpart.trans (eq_of_mem_blocks ?_ hfiles' hfiles hf' hf)
        rw [h.wellFormed.flatten_containers]
        exact h.wellFormed.sorted.numbers_nodup.of_map _
      refine ⟨?_, hpart⟩
      by_contra hlong
      obtain ⟨f, hf⟩ := exists_mem_of_length_pos (by omega : 0 <
        (files.filter fun f => decide (r.number < f.number)).length)
      obtain ⟨hf, hlt⟩ := mem_filter.mp hf
      have hlt := of_decide_eq_true hlt
      have hslot : slot (guardUserKeys r.level.guards) f.smallest.userKey = p := hpart f hf hlt
      obtain ⟨s, hs, -⟩ := hseek f.smallest
      have hnone : call r new (.seek f.smallest) = none :=
        seek_eq_none hguards (hslot ▸ h.mem_blocks_of_file hfiles hf hlt)
          (by rw [hslot, h.length_matching hfiles]; omega)
      cases hnone.symm.trans hs
  · rintro ⟨hnumber, hfiling⟩ calls hcalls
    have hmem : ∀ x, x ∈ r.allRows ↔ x ∈ r.entries := by
      intro x
      rw [h.mem_allRows, mem_entries]
      refine exists_congr fun f => and_congr_right fun hf => and_congr_left fun _ => ?_
      exact ⟨le_of_lt, fun hle => lt_of_le_of_ne hle (hnumber f hf).symm⟩
    exact ((twoLevelIteratorGuards_behaves hguards (h.good hfiling)).of_mem_iff hmem).run
      h.entries_sorted (opened_closed []) (fun i hi => (by cases hi)) rfl hcalls

/-- A level with a guard; file 7 is in front of it, and files 8 and 9 overlap behind it. -/
def twoPartLevel : LevelVersion Nat :=
  (LevelVersion.empty.pushGuards [⟨5, 1, .kTypeGuard⟩]).install
    { deletedFiles := ∅
      newFiles :=
        [⟨7, 100, ⟨1, 71, .kTypeValue⟩, ⟨3, 72, .kTypeValue⟩⟩,
          ⟨8, 100, ⟨5, 81, .kTypeValue⟩, ⟨7, 82, .kTypeValue⟩⟩,
          ⟨9, 100, ⟨6, 91, .kTypeValue⟩, ⟨6, 91, .kTypeValue⟩⟩]
      deletedGuards := ∅
      newGuards := [⟨5, 1, .kTypeGuard⟩]
      newCompleteGuards := [] }

def twoPartTables : Nat → List (InternalKey Nat × Nat)
  | 7 => [(⟨1, 71, .kTypeValue⟩, 10), (⟨3, 72, .kTypeValue⟩, 30)]
  | 8 => [(⟨5, 81, .kTypeValue⟩, 50), (⟨7, 82, .kTypeValue⟩, 70)]
  | 9 => [(⟨6, 91, .kTypeValue⟩, 60)]
  | _ => []

/-- The first digit of a sequence number tells the file. -/
theorem sequence_twoPartTables (n : Nat) : ∀ x ∈ twoPartTables n, x.1.sequence / 10 = n := by
  unfold twoPartTables
  split
  case h_4 => nofun
  all_goals decide

/-- A reader of that level. -/
def twoPartReader (number : Nat) : LevelReader Nat Nat where
  level := twoPartLevel
  number := number
  parts :=
    { tables :=
        { entries := twoPartTables
          sorted := by
            intro n
            unfold twoPartTables
            split <;> decide
          distinct := by
            intro n m hne x hx y hy heq
            rw [← sequence_twoPartTables n x hx, ← sequence_twoPartTables m y hy, heq] at hne
            exact hne rfl }
      keyNum := ⟨fun _ => 0, fun _ _ _ => Nat.le_refl _⟩
      std := fun _ => Heap.StdHeap.sorting
      junk := fun _ _ => 0 }

theorem twoPartReader_ofLevel (number : Nat) : (twoPartReader number).OfLevel where
  wellFormed := show twoPartLevel.WellFormed by decide
  filesFit := show twoPartLevel.FilesFit by decide
  describes := show ∀ f ∈ twoPartLevel.files, f.Describes ((twoPartTables f.number).map fun x =>
    (⟨x.1, x.2⟩ : Entry Nat Nat)) by decide

theorem twoPartReader_filing (number : Nat) : (twoPartReader number).Filing := by
  intro p files hfiles
  have hpart : ∀ q ∈ twoPartLevel.containers.zipIdx, q.1.length ≤ 1023 ∧
      ∀ f ∈ q.1, twoPartLevel.part f = q.2 := by decide
  rcases hpart (files, p) (mk_mem_zipIdx_iff_getElem?.mpr hfiles) with ⟨hlength, hfiled⟩
  exact ⟨(length_filter_le _ _).trans hlength, fun f hf _ => hfiled f hf⟩

open TwoLevelIteratorGuards in
/-- From number 6 on, all entries are found. -/
theorem newConcatenatingIterator_correct_iff_six : (twoPartReader 6).entries.length = 5 ∧
    ∀ calls : List (Call (InternalKey Nat)), (∀ c ∈ calls, c.Forward) →
      (calls.foldlM (call (twoPartReader 6)) new).map TwoLevelIteratorGuards.view =
        (calls.foldlM (Cursor.call Prod.fst (twoPartReader 6).entries) none).map
          (Cursor.current (twoPartReader 6).entries) :=
  ⟨by decide, (newConcatenatingIterator_correct_iff (twoPartReader 6)
    (twoPartReader_ofLevel 6)).mpr ⟨by decide, twoPartReader_filing 6⟩⟩

open TwoLevelIteratorGuards in
/-- From number 7 on, the entries of file 7 are promised, and not found. -/
theorem file_of_number_skipped : (twoPartReader 7).OfLevel ∧
      ([Call.seekToFirst].foldlM (call (twoPartReader 7)) new).map TwoLevelIteratorGuards.view =
        some (some (⟨5, 81, .kTypeValue⟩, 50)) ∧
      ([Call.seekToFirst].foldlM (Cursor.call Prod.fst (twoPartReader 7).entries) none).map
          (Cursor.current (twoPartReader 7).entries) =
        some (some (⟨1, 71, .kTypeValue⟩, 10)) :=
  ⟨twoPartReader_ofLevel 7, by decide, by decide⟩

open TwoLevelIteratorGuards in
/-- **Scans in both directions**: when no files are left out, any calls show what they show on a
cursor over the entries of the level. -/
theorem newConcatenatingIterator_run
    (r : LevelReader K V)
    (h : r.OfLevel)
    (hzero : r.number = 0)
    (hnumbers : ∀ f ∈ r.level.files, f.number ≠ 0)
    (hfiling : r.Filing)
    (calls : List (Call (InternalKey K))) :
    (calls.foldlM (call r) new).map TwoLevelIteratorGuards.view =
      (calls.foldlM (Cursor.call Prod.fst r.entries) none).map (Cursor.current r.entries) := by
  have hmem : ∀ x, x ∈ r.allRows ↔ x ∈ r.entries := by
    intro x
    rw [h.mem_allRows, mem_entries, hzero]
    refine exists_congr fun f => and_congr_right fun hf => and_congr_left fun _ => ?_
    exact ⟨le_of_lt, fun _ => Nat.pos_of_ne_zero (hnumbers f hf)⟩
  have hbehaves := twoLevelIteratorGuards_behaves_zero h.wellFormed.sorted.guards_increasing
    (h.good hfiling) hzero
  exact ((hbehaves.of_mem_iff hmem).run h.entries_sorted (opened_closed [])
    (fun i hi => (by cases hi)) rfl calls).1

open TwoLevelIteratorGuards in
/-- Back over the guard to the file in front of it, and forward again. -/
theorem newConcatenatingIterator_run_seekToLast :
    ([Call.seekToLast, .prev, .prev, .prev, .next, .next].foldlM (call (twoPartReader 0)) new).map
        TwoLevelIteratorGuards.view = some (some (⟨6, 91, .kTypeValue⟩, 60)) :=
  (newConcatenatingIterator_run (twoPartReader 0) (twoPartReader_ofLevel 0) rfl (by decide)
    (twoPartReader_filing 0) _).trans (by decide)

end Level

end HotTLBApps.PebblesDB
