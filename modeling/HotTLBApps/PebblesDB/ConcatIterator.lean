import HotTLBApps.PebblesDB.FilesIterator
import HotTLBApps.PebblesDB.LevelShape
import HotTLBApps.PebblesDB.Table

/-!
# PebblesDB: the iterator over a level (`db/version_set.cc`, `table/two_level_iterator.cc`)

`NewConcatenatingIterator` puts two iterators together.  `LevelGuardNumIterator` goes over
the sentinel set and the guards and stops where there is a file with a number above
`number_`; its value is the list of these files.  `TwoLevelIteratorGuards` opens the files
of one position at a time and skips positions in which it finds nothing.

* `isFirst_bump`, `isLast_bumpReverse`, `seekIndex_eq`: where the index iterator stops;
* `Opened`: the files that are open are those of the position of the index iterator.
-/

namespace HotTLBApps.PebblesDB

open Cursor Intervals List Option

variable {K V : Type} [LinearOrder K]

/-- What `NewConcatenatingIterator` is called with, for one level. -/
structure LevelReader (K V : Type) [LinearOrder K] where
  level : LevelVersion K
  number : Nat
  parts : MergeParts (InternalKey K) V

namespace LevelReader

variable (r : LevelReader K V)

/-- The numbers and sizes of the files at a position: 0 is the sentinel set and `i + 1` the
guard `i`, so a position is `index_ + 1`. -/
def fileList : Nat → List (Nat × Nat)
  | 0 => r.level.sentinelFiles.map fun f => (f.number, f.fileSize)
  | i + 1 =>
      match r.level.guards[i]? with
      | some g => (g.files.zip (g.fileMetas.map (·.fileSize))).take g.numberSegments
      | none => []

/-- Whether a position has a file for the iterator. -/
def hasFile (p : Nat) : Bool :=
  (r.fileList p).any fun f => decide (r.number < f.1)

/-- The loop of `Bump`; `none` is an iterator that is not valid. -/
def bumpLoop : (fuel : Nat) → Nat → Option Nat
  | 0, _ => none
  | fuel + 1, p =>
      if p ≤ r.level.guards.length then
        if r.hasFile p then some p else bumpLoop fuel (p + 1)
      else
        none

def bump (p : Nat) : Option Nat :=
  r.bumpLoop (r.level.guards.length + 1) p

def bumpReverse : Nat → Option Nat
  | 0 => if r.hasFile 0 then some 0 else none
  | p + 1 => if r.hasFile (p + 1) then some (p + 1) else bumpReverse p

/-- `LevelGuardNumIterator::Seek`. -/
def seekIndex (target : InternalKey K) : Option Nat :=
  r.bump
    (match r.level.guards with
    | [] => 0
    | g :: _ =>
        if findGuard r.level.guards target.userKey = 0 ∧ target.userKey < g.guardKey.userKey then
          0
        else
          findGuard r.level.guards target.userKey + 1)

/-- `LevelGuardNumIterator::Prev`; `none` is the assertion on `number_`. -/
def prevIndex : Nat → Option (Option Nat)
  | 0 => if r.number = 0 then some none else none
  | p + 1 => if r.number = 0 then some (r.bumpReverse p) else none

/-- The files that `LevelGuardNumIterator::value` lists. -/
def matching (p : Nat) : List (Nat × Nat) :=
  (r.fileList p).filter fun f => decide (r.number < f.1)

/-- `LevelGuardNumIterator::value`; `none` if the list does not fit into `value_buf_`. -/
def value (p : Nat) : Option (List (Nat × Nat)) :=
  if 16 * (r.matching p).length + 8 ≤ 16384 then some (r.matching p) else none

end LevelReader

structure TwoLevelIteratorGuards (K V : Type) [LinearOrder K] where
  index : Option Nat
  data : Option (FilesIterator (InternalKey K) V)
  handle : List (Nat × Nat)

namespace TwoLevelIteratorGuards

/-- `Valid`, `key` and `value`. -/
def view (s : TwoLevelIteratorGuards K V) : Option (InternalKey K × V) :=
  s.data.bind FilesIterator.view

def new : TwoLevelIteratorGuards K V where
  index := none
  data := none
  handle := []

variable (r : LevelReader K V)

/-- The block function is called and `data_block_handle_` is set. -/
def openBlock (handle : List (Nat × Nat))
    (s : TwoLevelIteratorGuards K V) : Option (TwoLevelIteratorGuards K V) :=
  (newMergingIteratorForFiles r.parts (handle.map Prod.fst)).map fun it =>
    { s with data := some it, handle := handle }

def initDataBlock (s : TwoLevelIteratorGuards K V) : Option (TwoLevelIteratorGuards K V) :=
  match s.index with
  | none => some { s with data := none }
  | some p => do
      let handle ← r.value p
      if s.data.isSome ∧ handle = s.handle then some s else s.openBlock r handle

/-- A call to `data_iter_` if it is not null. -/
def callData (c : Call (InternalKey K))
    (s : TwoLevelIteratorGuards K V) : Option (TwoLevelIteratorGuards K V) :=
  match s.data with
  | some it => (it.call r.parts c).map fun it' => { s with data := some it' }
  | none => some s

/-- `InitDataBlock` after the index iterator was placed, and a call to `data_iter_`. -/
def place (index : Option Nat) (c : Call (InternalKey K))
    (s : TwoLevelIteratorGuards K V) : Option (TwoLevelIteratorGuards K V) := do
  let s ← initDataBlock r { s with index := index }
  s.callData r c

/-- `SkipEmptyDataBlocksForward` and `SkipEmptyDataBlocksBackward`: `move` is the step of
the index iterator and `restart` where a new block is entered. -/
def skipEmptyDataBlocks (move : Nat → Option (Option Nat)) (restart : Call (InternalKey K)) :
    (fuel : Nat) → TwoLevelIteratorGuards K V → Option (TwoLevelIteratorGuards K V)
  | 0, _ => none
  | fuel + 1, s =>
      if s.view.isSome then
        some s
      else
        match s.index with
        | none => some { s with data := none }
        | some p => do
            let index ← move p
            let s ← s.place r index restart
            skipEmptyDataBlocks move restart fuel s

/-- There are not more positions to skip than this. -/
def skipFuel : Nat :=
  r.level.guards.length + 2

def skipEmptyDataBlocksForward : TwoLevelIteratorGuards K V → Option (TwoLevelIteratorGuards K V) :=
  skipEmptyDataBlocks r (fun p => some (r.bump (p + 1))) .seekToFirst (skipFuel r)

def skipEmptyDataBlocksBackward :
    TwoLevelIteratorGuards K V → Option (TwoLevelIteratorGuards K V) :=
  skipEmptyDataBlocks r r.prevIndex .seekToLast (skipFuel r)

/-- One call; `none` is an assertion that fails, or a write past `value_buf_`. -/
def call (s : TwoLevelIteratorGuards K V) :
    Call (InternalKey K) → Option (TwoLevelIteratorGuards K V)
  | .seekToFirst => do
      let s ← s.place r (r.bump 0) .seekToFirst
      s.skipEmptyDataBlocksForward r
  | .seekToLast => do
      let s ← s.place r (r.bumpReverse r.level.guards.length) .seekToLast
      s.skipEmptyDataBlocksBackward r
  | .seek target => do
      let s ← s.place r (r.seekIndex target) (.seek target)
      s.skipEmptyDataBlocksForward r
  | .next =>
      if s.view.isSome then do
        let s ← s.callData r .next
        s.skipEmptyDataBlocksForward r
      else
        none
  | .prev =>
      if s.view.isSome then do
        let s ← s.callData r .prev
        s.skipEmptyDataBlocksBackward r
      else
        none

end TwoLevelIteratorGuards

namespace LevelReader

variable {r : LevelReader K V}

/-- The positions at which the index iterator stops. -/
def blocks (r : LevelReader K V) : List Nat :=
  (List.range (r.level.guards.length + 1)).filter r.hasFile

theorem mem_blocks {p : Nat} : p ∈ r.blocks ↔ p ≤ r.level.guards.length ∧ r.hasFile p = true := by
  rw [blocks, mem_filter, mem_range, Nat.lt_succ_iff]

theorem isFirst_bumpLoop {fuel p : Nat} (hfuel : r.level.guards.length + 1 ≤ fuel + p) :
    IsFirst id r.blocks (fun p' => p ≤ p') (r.bumpLoop fuel p) := by
  induction fuel generalizing p with
  | zero =>
    refine isFirst_none fun p' hp' => ?_
    have := (mem_blocks.mp hp').1
    omega
  | succ fuel ih =>
    rw [bumpLoop]
    split_ifs with hle hfile
    · exact isFirst_some (mem_blocks.mpr ⟨hle, hfile⟩) le_rfl fun _ _ hp' => hp'
    · refine (ih (by omega)).congr fun p' hp' => ⟨fun h => by omega, fun h => ?_⟩
      have hne : p' ≠ p := by
        rintro rfl
        exact hfile (mem_blocks.mp hp').2
      omega
    · refine isFirst_none fun p' hp' => ?_
      have := (mem_blocks.mp hp').1
      omega

/-- `Bump` stops at the first position from `p` on. -/
theorem isFirst_bump (p : Nat) : IsFirst id r.blocks (fun p' => p ≤ p') (r.bump p) :=
  isFirst_bumpLoop (by omega)

/-- `BumpReverse` stops at the last position up to `p`. -/
theorem isLast_bumpReverse {p : Nat} (hp : p ≤ r.level.guards.length) :
    IsLast id r.blocks (fun p' => p' ≤ p) (r.bumpReverse p) := by
  have hstop : ∀ p ≤ r.level.guards.length, r.hasFile p = true →
      IsLast id r.blocks (fun p' => p' ≤ p) (some p) := fun p hp hfile =>
    isFirst_some (mem_blocks.mpr ⟨hp, hfile⟩) le_rfl fun _ _ hp' => hp'
  induction p with
  | zero =>
    rw [bumpReverse]
    split_ifs with hfile
    · exact hstop 0 hp hfile
    · refine isFirst_none fun p' hp' hle => ?_
      obtain rfl : p' = 0 := Nat.le_zero.mp hle
      exact hfile (mem_blocks.mp hp').2
  | succ p ih =>
    rw [bumpReverse]
    split_ifs with hfile
    · exact hstop (p + 1) hp hfile
    · refine IsFirst.congr (ih (by omega)) fun p' hp' => ⟨fun h => by omega, fun h => ?_⟩
      have hne : p' ≠ p + 1 := by
        rintro rfl
        exact hfile (mem_blocks.mp hp').2
      omega

/-- `Seek` starts at the position of the user key. -/
theorem seekIndex_eq (hguards : (guardUserKeys r.level.guards).Pairwise (· < ·))
    (target : InternalKey K) :
    r.seekIndex target = r.bump (slot (guardUserKeys r.level.guards) target.userKey) := by
  have hfind := findGuard_eq hguards target.userKey
  have hslot := slot_guardUserKeys_le r.level.guards target.userKey
  rw [seekIndex]
  congr 1
  cases hnil : r.level.guards with
  | nil => rfl
  | cons g gs =>
    have hpass := lt_slot_guard_iff hguards (i := 0) (g := g) (by rw [hnil]; rfl)
      target.userKey
    rw [hnil] at hfind hpass hslot
    dsimp only
    rw [hfind]
    by_cases hlt : target.userKey < g.guardKey.userKey
    · have hzero : slot (guardUserKeys (g :: gs)) target.userKey = 0 := by
        have hnot := mt hpass.mp (not_le.mpr hlt)
        omega
      rw [hzero, if_pos ⟨rfl, hlt⟩]
    · have hpos := hpass.mpr (not_lt.mp hlt)
      rw [if_neg fun h => hlt h.2]
      omega

end LevelReader

namespace LevelReader

variable {r : LevelReader K V}

/-- The entries of the files that are opened at a position. -/
def rows (r : LevelReader K V) (p : Nat) : List (InternalKey K × V) :=
  (r.matching p).flatMap fun f => r.parts.tables.entries f.1

def allRows (r : LevelReader K V) : List (InternalKey K × V) :=
  r.blocks.flatMap r.rows

variable {p : Nat}

theorem mem_rows {x : InternalKey K × V} :
    x ∈ r.rows p ↔ ∃ file ∈ (r.matching p).map Prod.fst, x ∈ r.parts.tables.entries file := by
  simp [rows]

theorem matching_ne_nil (h : r.hasFile p = true) : r.matching p ≠ [] := by
  obtain ⟨f, hf, hnumber⟩ := any_eq_true.mp h
  exact ne_nil_of_mem (mem_filter.mpr ⟨hf, hnumber⟩)

/-- What the reader needs of the level: the lists of files fit into the buffer, and the
entries are at the position of their user keys. -/
structure Good (r : LevelReader K V) : Prop where
  fits : ∀ p ∈ r.blocks, (r.matching p).length ≤ 1023
  nodup : ∀ p, ((r.matching p).map Prod.fst).Nodup
  slot_eq : ∀ p x, x ∈ r.rows p → slot (guardUserKeys r.level.guards) x.1.userKey = p

theorem Good.value_eq (h : r.Good) (hp : p ∈ r.blocks) : r.value p = some (r.matching p) := by
  have hlength := h.fits p hp
  rw [value, if_pos (by omega)]

theorem Good.lt_of_lt (h : r.Good) {p p' : Nat} {x y : InternalKey K × V} (hx : x ∈ r.rows p)
    (hy : y ∈ r.rows p') (hlt : p < p') : x.1 < y.1 := by
  apply InternalKey.lt_of_userKey_lt
  by_contra hle
  have hmono := slot_mono (guardUserKeys r.level.guards) (not_lt.mp hle)
  rw [h.slot_eq p x hx, h.slot_eq p' y hy] at hmono
  omega

end LevelReader

namespace TwoLevelIteratorGuards

variable {r : LevelReader K V} {s s' : TwoLevelIteratorGuards K V}

def DataOk (r : LevelReader K V) (s : TwoLevelIteratorGuards K V) : Prop :=
  ∀ it ∈ s.data, it.Over r.parts (s.handle.map Prod.fst)

structure Opened (r : LevelReader K V) (s : TwoLevelIteratorGuards K V) : Prop where
  dataOk : s.DataOk r
  isSome_eq : s.index.isSome = s.data.isSome
  handle_eq : ∀ p ∈ s.index, s.handle = r.matching p
  block : ∀ p ∈ s.index, p ∈ r.blocks

theorem opened_closed
    (handle : List (Nat × Nat)) : Opened r { index := none, data := none, handle := handle } :=
  ⟨nofun, rfl, nofun, nofun⟩

theorem Opened.exists_data (h : s.Opened r) {p : Nat} (hp : s.index = some p) :
    ∃ it, s.data = some it ∧ it.Over r.parts ((r.matching p).map Prod.fst) := by
  have hsome := h.isSome_eq
  rw [hp] at hsome
  obtain ⟨it, hit⟩ := isSome_iff_exists.mp hsome.symm
  exact ⟨it, hit, h.handle_eq p hp ▸ h.dataOk it hit⟩

theorem opened_initDataBlock (hdata : s.DataOk r) (hblock : ∀ p ∈ s.index, p ∈ r.blocks)
    (hinit : s.initDataBlock r = some s') : s'.Opened r ∧ s'.index = s.index := by
  unfold initDataBlock at hinit
  cases hindex : s.index with
  | none =>
    rw [hindex] at hinit
    cases hinit
    exact ⟨opened_closed _, rfl⟩
  | some p =>
    rw [hindex] at hinit
    obtain ⟨handle, hvalue, hopen⟩ := bind_eq_some_iff.mp hinit
    have hhandle : handle = r.matching p := by
      unfold LevelReader.value at hvalue
      split_ifs at hvalue
      exact (some.inj hvalue).symm
    have hpos : ∀ p' ∈ s.index, p' = p := fun p' hp' => some.inj (hp'.symm.trans hindex)
    split_ifs at hopen with hsame
    · cases hopen
      refine ⟨⟨hdata, ?_, fun p' hp' => ?_, hblock⟩, hindex⟩
      · rw [hsame.1, hindex]
        rfl
      · rw [hpos p' hp', ← hsame.2, hhandle]
    · obtain ⟨it, hit, rfl⟩ := map_eq_some_iff.mp hopen
      refine ⟨⟨?_, ?_, fun p' hp' => ?_, hblock⟩, hindex⟩
      · intro it' hit'
        cases hit'
        exact over_newMergingIteratorForFiles hit
      · rw [hindex]
        rfl
      · rw [hpos p' hp']
        exact hhandle

theorem exists_initDataBlock (hgood : r.Good)
    (hblock : ∀ p ∈ s.index, p ∈ r.blocks) : ∃ s', s.initDataBlock r = some s' := by
  unfold initDataBlock
  cases hindex : s.index with
  | none => exact ⟨_, rfl⟩
  | some p =>
    have hp := hblock p hindex
    dsimp only
    rw [hgood.value_eq hp, bind_eq_bind, bind_some]
    split_ifs
    · exact ⟨_, rfl⟩
    · have hne : (r.matching p).map Prod.fst ≠ [] :=
        mt map_eq_nil_iff.mp (LevelReader.matching_ne_nil (LevelReader.mem_blocks.mp hp).2)
      obtain ⟨it, hit⟩ : ∃ it, newMergingIteratorForFiles r.parts _ = some it :=
        exists_newMergingIteratorForFiles hne (hgood.nodup p)
      rw [openBlock, hit]
      exact ⟨_, rfl⟩

variable {c : Call (InternalKey K)}

theorem Opened.callData (h : s.Opened r)
    (hcall : s.callData r c = some s') : s'.Opened r ∧ s'.index = s.index := by
  unfold TwoLevelIteratorGuards.callData at hcall
  cases hdata : s.data with
  | none =>
    rw [hdata] at hcall
    cases hcall
    exact ⟨h, rfl⟩
  | some it =>
    rw [hdata] at hcall
    obtain ⟨it', hit', rfl⟩ := map_eq_some_iff.mp hcall
    refine ⟨⟨?_, ?_, h.handle_eq, h.block⟩, rfl⟩
    · intro it'' hit''
      cases hit''
      exact (h.dataOk it hdata).call hit'
    · have hsome := h.isSome_eq
      rw [hdata] at hsome
      exact hsome

theorem opened_place (hdata : s.DataOk r) {index : Option Nat} (hblock : ∀ p ∈ index, p ∈ r.blocks)
    (hplace : s.place r index c = some s') : s'.Opened r ∧ s'.index = index := by
  obtain ⟨s₁, hinit, hcall⟩ := bind_eq_some_iff.mp hplace
  have hdata' : DataOk r { s with index := index } := hdata
  obtain ⟨hopened, hindex⟩ := opened_initDataBlock hdata' hblock hinit
  obtain ⟨hopened', hindex'⟩ := hopened.callData hcall
  exact ⟨hopened', hindex'.trans hindex⟩

/-- Skipping keeps the state open, and what the steps of the index iterator keep. -/
theorem opened_skipEmptyDataBlocks {move : Nat → Option (Option Nat)}
    {restart : Call (InternalKey K)} {P : Nat → Prop}
    (hmove : ∀ p o, P p → move p = some o → ∀ p' ∈ o, p' ∈ r.blocks ∧ P p') {fuel : Nat}
    (h : s.Opened r) (hP : ∀ p ∈ s.index, P p)
    (hskip : skipEmptyDataBlocks r move restart fuel s = some s') :
    s'.Opened r ∧ ∀ p ∈ s'.index, P p := by
  induction fuel generalizing s with
  | zero => cases hskip
  | succ fuel ih =>
    rw [skipEmptyDataBlocks] at hskip
    split_ifs at hskip with hview
    · cases hskip
      exact ⟨h, hP⟩
    · cases hindex : s.index with
      | none =>
        rw [hindex] at hskip
        cases hskip
        exact ⟨opened_closed _, nofun⟩
      | some p =>
        rw [hindex] at hskip
        obtain ⟨o, ho, hrest⟩ := bind_eq_some_iff.mp hskip
        obtain ⟨s₁, hplace, hrest⟩ := bind_eq_some_iff.mp hrest
        have hkept := hmove p o (hP p hindex) ho
        obtain ⟨hopened, hindex'⟩ :=
          opened_place h.dataOk (fun p' hp' => (hkept p' hp').1) hplace
        exact ih hopened (fun p' hp' => (hkept p' (hindex' ▸ hp')).2) hrest

end TwoLevelIteratorGuards

end HotTLBApps.PebblesDB
