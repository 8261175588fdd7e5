import HotTLBApps.Lib.OrderedSet
import HotTLBApps.PebblesDB.Version

/-!
# PebblesDB: the entries of table files (`table/table_builder.h`, `table/merger.cc`)

A table file is the list of its entries in the order in which they were added.
How a table is laid out in blocks is left out; the sizes that the code asks a
`TableBuilder` for are parameters where they are used.

* `Describes`: the metadata of a file tells its first and its last key, and the
  user keys of its entries do not decrease;
* `mergeTables`: a `MergingIterator` over tables, which takes the smallest of the
  heads again and again.

Tables are only required to be sorted by user key: a compaction of a guard that
does not hold all the files that it should writes the entries of one user key in
the order in which it meets them.
-/

namespace HotTLBApps.PebblesDB

open OrderedSet List Option

variable {K V : Type}

structure Entry (K V : Type) where
  key : InternalKey K
  value : V
deriving DecidableEq, Repr

def Entry.userKey (e : Entry K V) : K :=
  e.key.userKey

/-- The contents of the table files, by file number. -/
abbrev Tables (K V : Type) := Nat → List (Entry K V)

variable [LinearOrder K]

/-- What the metadata of a file promises of its entries. -/
@[mk_iff]
structure FileMetaData.Describes (f : FileMetaData K) (entries : List (Entry K V)) : Prop where
  smallest : entries.head?.map Entry.key = some f.smallest
  largest : entries.getLast?.map Entry.key = some f.largest
  sorted : Nondecreasing Entry.userKey entries

variable {f : FileMetaData K} {entries : List (Entry K V)}

theorem FileMetaData.Describes.bounds (h : f.Describes entries) {e : Entry K V} (he : e ∈ entries) :
    f.smallest.userKey ≤ e.userKey ∧ e.userKey ≤ f.largest.userKey := by
  obtain ⟨a, ha, hsmallest⟩ := map_eq_some_iff.mp h.smallest
  obtain ⟨b, hb, hlargest⟩ := map_eq_some_iff.mp h.largest
  rw [← hsmallest, ← hlargest]
  constructor
  · obtain ⟨l, rfl⟩ := head?_eq_some_iff.mp ha
    obtain rfl | he := mem_cons.mp he
    · exact le_refl _
    · exact (pairwise_cons.mp h.sorted).1 e he
  · obtain ⟨l, rfl⟩ := getLast?_eq_some_iff.mp hb
    obtain he | he := mem_append.mp he
    · exact (pairwise_append.mp h.sorted).2.2 e he b (mem_singleton_self b)
    · obtain rfl := mem_singleton.mp he
      exact le_refl _

theorem FileMetaData.Describes.ne_nil (h : f.Describes entries) : entries ≠ [] := by
  rintro rfl
  cases h.smallest

theorem FileMetaData.Describes.bounds_le (h : f.Describes entries) :
    f.smallest.userKey ≤ f.largest.userKey := by
  obtain ⟨e, he⟩ := exists_mem_of_ne_nil entries h.ne_nil
  exact (h.bounds he).1.trans (h.bounds he).2

/-- A `MergingIterator` over tables. -/
def mergeTables (tables : List (List (Entry K V))) : List (Entry K V) :=
  tables.foldr (merge Entry.key) []

theorem mergeTables_perm (tables : List (List (Entry K V))) :
    (mergeTables tables).Perm tables.flatten := by
  induction tables with
  | nil => exact Perm.refl _
  | cons table tables ih =>
    rw [flatten_cons]
    exact (merge_perm _ _).trans (ih.append_left table)

theorem nondecreasing_mergeTables {tables : List (List (Entry K V))}
    (h : ∀ table ∈ tables, Nondecreasing Entry.userKey table) :
    Nondecreasing Entry.userKey (mergeTables tables) := by
  induction tables with
  | nil => exact Pairwise.nil
  | cons table tables ih =>
    exact nondecreasing_merge_of_coarse (fun a b => InternalKey.userKey_le_of_le)
      (h table mem_cons_self)
      (ih fun table' htable' => h table' (mem_cons_of_mem _ htable'))

end HotTLBApps.PebblesDB
