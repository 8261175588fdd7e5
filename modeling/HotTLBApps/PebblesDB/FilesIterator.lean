import HotTLBApps.PebblesDB.Merger

/-!
# PebblesDB: iterators over the files of a guard (`table/merger.cc`)

`NewMergingIteratorForFiles` gives the iterator of a table if there is one file, and a
merging iterator if there are more.  The metadata of the files that it is handed is not
read.

`exists_newMergingIteratorForFiles`: the iterator has the entries of the files, in order.
-/

namespace HotTLBApps.PebblesDB

open Cursor Heap

variable {K V : Type} [LinearOrder K]

/-- The table files of a version by their numbers: each one is sorted, as `TableBuilder`
asserts, and no key occurs twice. -/
structure TableFiles (K V : Type) [LinearOrder K] where
  entries : Nat → List (K × V)
  sorted : ∀ n, (entries n).Pairwise fun a b => a.1 < b.1
  distinct : ∀ n m, n ≠ m → ∀ x ∈ entries n, ∀ y ∈ entries m, x.1 ≠ y.1

/-- What the iterators of a table and the merging iterator are made of. -/
structure MergeParts (K V : Type) [LinearOrder K] where
  tables : TableFiles K V
  keyNum : KeyNum K
  std : ∀ n, StdHeap (Fin n)
  junk : ∀ n, Fin n → Nat

/-- The iterators of tables with different numbers, as children of a merging iterator. -/
def TableFiles.children
    (t : TableFiles K V) (files : List Nat) (hnodup : files.Nodup) : Children files.length K V where
  items := fun i => t.entries (files.get i)
  sorted := fun i => t.sorted (files.get i)
  distinct := fun _ _ hne => t.distinct _ _ fun heq => hne (hnodup.injective_get heq)

/-- The iterator of one table, or a merging iterator. -/
inductive FilesIterator (K V : Type) [LinearOrder K]
  | table (items : List (K × V)) (pos : Option Nat)
  | merging (n : Nat) (c : Children n K V) (m : MergingIterator n)

namespace FilesIterator

def items : FilesIterator K V → List (K × V)
  | table items _ => items
  | merging _ c _ => c.merged

/-- One call; `none` is an assertion that fails. -/
def call (parts : MergeParts K V) : FilesIterator K V → Call K → Option (FilesIterator K V)
  | table items pos, c => (Cursor.call Prod.fst items pos c).map (table items)
  | merging n children m, c =>
      (m.call children parts.keyNum (parts.std n) c).map (merging n children)

/-- `Valid`, `key` and `value`. -/
def view : FilesIterator K V → Option (K × V)
  | table items pos => Cursor.current items pos
  | merging _ c m => m.view c

end FilesIterator

/-- `NewMergingIteratorForFiles`, as `GetGuardIteratorSeq` calls it, which asserts that there
is a file.  The files of a level have different numbers. -/
def newMergingIteratorForFiles (parts : MergeParts K V) : List Nat → Option (FilesIterator K V)
  | [] => none
  | [file] => some (.table (parts.tables.entries file) none)
  | file :: file' :: files =>
      if hnodup : (file :: file' :: files).Nodup then
        let children := parts.tables.children (file :: file' :: files) hnodup
        some (.merging _ children
          (MergingIterator.new children parts.keyNum (parts.std _) (parts.junk _)))
      else
        none

variable {parts : MergeParts K V}

def FilesIterator.Ready (parts : MergeParts K V) : FilesIterator K V → Prop
  | table items pos => items.Pairwise (fun a b => a.1 < b.1) ∧ Inside items pos
  | merging _ c m => PebblesDB.Ready c parts.keyNum m

variable {it : FilesIterator K V}

/-- **The iterator does what a cursor over its entries does.** -/
theorem filesIterator_behaves (parts : MergeParts K V) (items : List (K × V)) :
    Behaves Prod.fst items (FilesIterator.call parts) FilesIterator.view
      (fun it => it.items = items ∧ it.Ready parts) := by
  refine behaves_of_embeds ?_
  rintro it ⟨rfl, hready⟩
  cases it with
  | table items pos =>
    exact ⟨Option Nat, .table items, call Prod.fst items, current items,
      Inside items, pos, ⟨cursor_behaves hready.1, fun _ _ => rfl, fun _ => rfl,
        fun _ h => ⟨rfl, hready.1, h⟩⟩, hready.2, rfl⟩
  | merging n c m =>
    exact ⟨MergingIterator n, .merging n c, MergingIterator.call c parts.keyNum (parts.std n),
      MergingIterator.view c, PebblesDB.Ready c parts.keyNum, m,
      ⟨mergingIterator_behaves c parts.keyNum (parts.std n), fun _ _ => rfl, fun _ => rfl,
        fun _ h => ⟨rfl, h⟩⟩, hready, rfl⟩

theorem FilesIterator.Ready.mem_of_view (h : it.Ready parts) {x : K × V}
    (hx : it.view = some x) : x ∈ it.items := by
  cases it with
  | table items pos =>
    obtain ⟨i, -, hi⟩ := Option.bind_eq_some_iff.mp hx
    exact List.mem_of_getElem? hi
  | merging n c m =>
    obtain ⟨idx, -, hchild⟩ := Option.bind_eq_some_iff.mp hx
    obtain ⟨i, -, hi⟩ := Option.bind_eq_some_iff.mp hchild
    exact c.mem_merged.mpr ⟨idx, List.mem_of_getElem? hi⟩

/-- An iterator over the files with these numbers. -/
structure FilesIterator.Over
    (parts : MergeParts K V) (files : List Nat) (it : FilesIterator K V) : Prop where
  ready : it.Ready parts
  mem_items : ∀ x, x ∈ it.items ↔ ∃ file ∈ files, x ∈ parts.tables.entries file

variable {files : List Nat}

theorem over_newMergingIteratorForFiles
    (h : newMergingIteratorForFiles parts files = some it) : it.Over parts files := by
  match files, h with
  | [], h => cases h
  | [file], h =>
    cases h
    exact ⟨⟨parts.tables.sorted file, nofun⟩, fun x => by
      simp [FilesIterator.items]⟩
  | file :: file' :: files, h =>
    rw [newMergingIteratorForFiles] at h
    split_ifs at h with hnodup
    cases h
    refine ⟨ready_new _ _ _ _, fun x => ?_⟩
    rw [FilesIterator.items, Children.mem_merged]
    constructor
    · rintro ⟨i, hi⟩
      exact ⟨_, List.get_mem _ i, hi⟩
    · rintro ⟨f, hf, hx⟩
      obtain ⟨i, rfl⟩ := List.get_of_mem hf
      exact ⟨i, hx⟩

theorem exists_newMergingIteratorForFiles (hne : files ≠ [])
    (hnodup : files.Nodup) : ∃ it, newMergingIteratorForFiles parts files = some it := by
  match files, hne, hnodup with
  | [file], _, _ => exact ⟨_, rfl⟩
  | file :: file' :: files, _, hnodup => exact ⟨_, dif_pos hnodup⟩

theorem FilesIterator.Over.call {it it' : FilesIterator K V} (h : it.Over parts files) {c : Call K}
    (hcall : it.call parts c = some it') : it'.Over parts files := by
  have hkept := (filesIterator_behaves parts it.items).preserves ⟨rfl, h.ready⟩ hcall
  exact ⟨hkept.2, fun x => by rw [hkept.1, h.mem_items]⟩

end HotTLBApps.PebblesDB
