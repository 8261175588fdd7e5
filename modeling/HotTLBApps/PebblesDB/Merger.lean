import HotTLBApps.Lib.HeapMerge
import HotTLBApps.Lib.SortedUnique

/-!
# PebblesDB: merging iterators (`table/merger.cc`)

A merging iterator shows the entries of its children in one order.  It keeps the children
that stand at an entry in a heap, with a number cached for each key that decides most
comparisons.  The order of the heap depends on the direction, and when the direction
changes all other children are placed anew.

The invariant (`Ready`): every child stands at its first entry from some point on (in the
reverse direction, at its last entry up to some point), the heap consists of the children
that stand at an entry, and the child that is shown is its top.
-/

namespace HotTLBApps.PebblesDB

open Cursor Heap HeapMerge List Function Option

variable {n : Nat} {K V : Type} [LinearOrder K]

section

/-- The children: sorted sequences without a common key. -/
structure Children (n : Nat) (K V : Type) [LinearOrder K] where
  items : Fin n → List (K × V)
  sorted : ∀ i, (items i).Pairwise fun a b => a.1 < b.1
  distinct : ∀ i j, i ≠ j → ∀ x ∈ items i, ∀ y ∈ items j, x.1 ≠ y.1

/-- `Comparator::KeyNum`, which does not contradict `Compare`. -/
structure KeyNum (K : Type) [LinearOrder K] where
  num : K → Nat
  mono : ∀ a b, a ≤ b → num a ≤ num b

/-- `Direction`. -/
inductive MergeDirection
  | kForward
  | kReverse
  deriving DecidableEq

/-- `MergingIterator`; the array `heap_` up to `heap_sz_`. -/
structure MergingIterator (n : Nat) where
  children : Fin n → Option Nat
  comparisons : Fin n → Nat
  heap : List (Fin n)
  current : Option (Fin n)
  direction : MergeDirection

variable (c : Children n K V) (num : KeyNum K) (std : StdHeap (Fin n))

def seekAfter (items : List (K × V)) (k : K) : Option Nat :=
  match Cursor.seek Prod.fst items k with
  | some i =>
      if (items[i]?).map Prod.fst = some k then Cursor.next items i else some i
  | none => none

def seekBefore (items : List (K × V)) (k : K) : Option Nat :=
  match Cursor.seek Prod.fst items k with
  | some i => Cursor.prev i
  | none => Cursor.seekToLast items

namespace MergingIterator

def child (m : MergingIterator n) (i : Fin n) : Option (K × V) :=
  Cursor.current (c.items i) (m.children i)

/-- `children_[i].key()`. -/
def childKey (m : MergingIterator n) (i : Fin n) : Option K :=
  (m.child c i).map Prod.fst

/-- `comparisons_[a] < comparisons_[b]`, and the keys where they are equal.  Only children
that stand at an entry are compared. -/
def less (m : MergingIterator n) (a b : Fin n) : Bool :=
  m.comparisons a < m.comparisons b ∨
    (m.comparisons a = m.comparisons b ∧
      ∃ k ∈ m.childKey c a, ∃ k' ∈ m.childKey c b, k < k')

def heapComparator (m : MergingIterator n) (lhs rhs : Fin n) : Bool :=
  match m.direction with
  | .kForward => m.less c rhs lhs
  | .kReverse => m.less c lhs rhs

/-- The loop of `ReinitializeComparisons`. -/
def collect (m : MergingIterator n) : MergingIterator n :=
  { m with
    comparisons := fun i => (m.childKey c i).elim (m.comparisons i) num.num
    heap := (List.finRange n).filter fun i => (m.childKey c i).isSome }

def reinitializeComparisons (m : MergingIterator n) : MergingIterator n :=
  { m.collect c num with
    heap := std.make ((m.collect c num).heapComparator c) (m.collect c num).heap }

/-- `PopCurrentComparison`; `none` is an assertion that fails. -/
def popCurrentComparison (m : MergingIterator n) : Option (MergingIterator n) := do
  let idx ← m.current
  if m.heap.head? = some idx then
    some { m with heap := std.pop (m.heapComparator c) m.heap }
  else
    none

/-- `comparisons_[idx] = comparator_->KeyNum(..)`. -/
def cache (idx : Fin n) (k : K) (m : MergingIterator n) : MergingIterator n :=
  { m with comparisons := Function.update m.comparisons idx (num.num k) }

def pushCurrentComparison (m : MergingIterator n) : Option (MergingIterator n) := do
  let idx ← m.current
  match m.childKey c idx with
  | some k =>
      some { m.cache num idx k with
        heap := std.push ((m.cache num idx k).heapComparator c) m.heap idx }
  | none => some m

/-- `current_->Next()` or `current_->Prev()`. -/
def moveCurrent (move : List (K × V) → Nat → Option Nat)
    (m : MergingIterator n) : Option (MergingIterator n) := do
  let idx ← m.current
  let i ← m.children idx
  some { m with children := Function.update m.children idx (move (c.items idx) i) }

/-- `FindSmallest` and `FindLargest`. -/
def find
    (direction : MergeDirection) (m : MergingIterator n) : Option (MergingIterator n) :=
  if m.direction = direction then some { m with current := m.heap.head? } else none

/-- What `Next` and `Prev` do when the children are in place. -/
def advance (move : List (K × V) → Nat → Option Nat) (direction : MergeDirection)
    (m : MergingIterator n) : Option (MergingIterator n) := do
  let m ← m.popCurrentComparison c std
  let m ← m.moveCurrent c move
  let m ← m.pushCurrentComparison c num std
  m.find direction

/-- All children but the current one are placed anew, and the direction changes. -/
def turn
    (place : List (K × V) → K → Option Nat) (direction : MergeDirection) (idx : Fin n) (k : K)
    (m : MergingIterator n) : MergingIterator n :=
  if m.direction = direction then
    m
  else
    reinitializeComparisons c num std { m with
      children := fun i => if i = idx then m.children i else place (c.items i) k
      direction := direction }

def next (m : MergingIterator n) : Option (MergingIterator n) := do
  let idx ← m.current
  let k ← m.childKey c idx
  (m.turn c num std seekAfter .kForward idx k).advance c num std Cursor.next .kForward

def prev (m : MergingIterator n) : Option (MergingIterator n) := do
  let idx ← m.current
  let k ← m.childKey c idx
  (m.turn c num std seekBefore .kReverse idx k).advance c num std (fun _ => Cursor.prev) .kReverse

/-- `SeekToFirst`, `SeekToLast` and `Seek` place all children. -/
def placeAll (place : List (K × V) → Option Nat) (direction : MergeDirection)
    (m : MergingIterator n) : Option (MergingIterator n) :=
  find direction (reinitializeComparisons c num std { m with
    children := fun i => place (c.items i)
    direction := direction })

/-- One call; `none` is an assertion that fails. -/
def call (m : MergingIterator n) : Call K → Option (MergingIterator n)
  | .seekToFirst => m.placeAll c num std Cursor.seekToFirst .kForward
  | .seekToLast => m.placeAll c num std Cursor.seekToLast .kReverse
  | .seek target => m.placeAll c num std (fun items => Cursor.seek Prod.fst items target) .kForward
  | .next => m.next c num std
  | .prev => m.prev c num std

/-- The constructor.  The children are not placed yet, and `comparisons_` is not
initialised. -/
def new (junk : Fin n → Nat) : MergingIterator n :=
  reinitializeComparisons c num std {
    children := fun _ => none
    comparisons := junk
    heap := []
    current := none
    direction := .kForward }

/-- `Valid`, `key` and `value`. -/
def view (m : MergingIterator n) : Option (K × V) :=
  m.current.bind (m.child c)

end MergingIterator

open MergingIterator hiding current next prev

/-- The sorted merge of the children. -/
def Children.merged (c : Children n K V) : List (K × V) :=
  ((List.finRange n).flatMap c.items).insertionSort fun a b => a.1 ≤ b.1

theorem Children.mem_merged {x : K × V} : x ∈ c.merged ↔ ∃ i, x ∈ c.items i := by
  rw [Children.merged, mem_insertionSort, mem_flatMap]
  simp

theorem Children.index_eq {i j : Fin n} {x y : K × V} (hx : x ∈ c.items i) (hy : y ∈ c.items j)
    (heq : x.1 = y.1) : i = j := by
  by_contra hne
  exact c.distinct i j hne x hx y hy heq

theorem Children.merged_sorted : c.merged.Pairwise fun a b => a.1 < b.1 := by
  refine SortedUnique.pairwise_lt_insertionSort (k := Prod.fst) (fun _ _ => Iff.rfl) ?_
  rw [pairwise_flatMap]
  refine ⟨fun i _ => (c.sorted i).imp fun h => h.ne, ?_⟩
  refine (nodup_finRange n).imp ?_
  intro i j hij x hx y hy
  exact c.distinct i j hij x hx y hy

variable {c : Children n K V} {num : KeyNum K} {std : StdHeap (Fin n)} {m : MergingIterator n}

/-- The cached numbers are those of the keys at which the children stand. -/
def Cached (c : Children n K V) (num : KeyNum K) (m : MergingIterator n) : Prop :=
  ∀ i x, m.child c i = some x → m.comparisons i = num.num x.1

structure HeapOk (c : Children n K V) (num : KeyNum K) (m : MergingIterator n) : Prop where
  nodup : m.heap.Nodup
  mem : ∀ i, i ∈ m.heap ↔ (m.child c i).isSome = true
  isHeap : IsHeap (m.heapComparator c) m.heap
  cached : Cached c num m

theorem HeapOk.setCurrent (h : HeapOk c num m) (current : Option (Fin n)) :
    HeapOk c num { m with current := current } :=
  ⟨h.nodup, h.mem, h.isHeap, h.cached⟩

variable {a b : Fin n}

/-- The cached numbers do not change the order of the keys. -/
theorem Cached.less_iff (h : Cached c num m) {x y : K × V} (ha : m.child c a = some x)
    (hb : m.child c b = some y) : m.less c a b = true ↔ x.1 < y.1 := by
  have hkeys : (∃ k ∈ m.childKey c a, ∃ k' ∈ m.childKey c b, k < k') ↔ x.1 < y.1 := by
    simp [childKey, ha, hb]
  rw [less, decide_eq_true_iff, hkeys, h a x ha, h b y hb]
  constructor
  · rintro (hnum | ⟨-, hlt⟩)
    · by_contra hle
      exact absurd (num.mono _ _ (not_lt.mp hle)) (not_le.mpr hnum)
    · exact hlt
  · intro hlt
    obtain hnum | heq := (num.mono _ _ hlt.le).lt_or_eq
    · exact .inl hnum
    · exact .inr ⟨heq, hlt⟩

/-- A direction and the order in which it goes through the entries. -/
structure Facing
    {κ : Type} [LinearOrder κ] (c : Children n K V) (num : KeyNum K) (direction : MergeDirection)
    (ord : K × V → κ) : Prop where
  eq_iff : ∀ x y, ord x = ord y ↔ x.1 = y.1
  comparator_iff : ∀ m, m.direction = direction → Cached c num m → ∀ a b x y,
    m.child c a = some x → m.child c b = some y →
      (m.heapComparator c a b = true ↔ ord y < ord x)

theorem Facing.compares {κ : Type} [LinearOrder κ] {direction : MergeDirection} {ord : K × V → κ}
    (h : Facing c num direction ord) (hdirection : m.direction = direction)
    (hcached : Cached c num m) : Compares ord (m.child c) (m.heapComparator c) :=
  h.comparator_iff m hdirection hcached

theorem facing_forward (c : Children n K V) (num : KeyNum K) : Facing c num .kForward Prod.fst := by
  refine ⟨fun _ _ => Iff.rfl, ?_⟩
  intro m hdirection hcached a b x y ha hb
  rw [heapComparator, hdirection]
  exact hcached.less_iff hb ha

theorem facing_reverse (c : Children n K V)
    (num : KeyNum K) : Facing c num .kReverse fun x => OrderDual.toDual x.1 := by
  refine ⟨fun _ _ => OrderDual.toDual_inj, ?_⟩
  intro m hdirection hcached a b x y ha hb
  rw [heapComparator, hdirection]
  exact hcached.less_iff ha hb

variable {l : List (Fin n)}

theorem exists_strictWeak (hcached : Cached c num m)
    (hl : ∀ i ∈ l, (m.child c i).isSome = true) : StrictWeak (m.heapComparator c) l := by
  have hentry : ∀ i ∈ l, ∃ x, m.child c i = some x := fun i hi =>
    isSome_iff_exists.mp (hl i hi)
  cases hdirection : m.direction with
  | kForward => exact ((facing_forward c num).compares hdirection hcached).strictWeak hentry
  | kReverse => exact ((facing_reverse c num).compares hdirection hcached).strictWeak hentry

theorem heapOk_reinitializeComparisons (c : Children n K V) (num : KeyNum K) (std : StdHeap (Fin n))
    (m : MergingIterator n) : HeapOk c num (m.reinitializeComparisons c num std) := by
  have hperm := std.make_perm ((m.collect c num).heapComparator c) (m.collect c num).heap
  have hmem : ∀ i, i ∈ (m.collect c num).heap ↔ (m.child c i).isSome = true := by
    intro i
    simp [collect, childKey]
  have hcached : Cached c num (m.collect c num) := by
    intro i x hx
    have hx' : m.child c i = some x := hx
    simp [collect, childKey, hx']
  refine ⟨?_, ?_, ?_, hcached⟩
  · exact hperm.nodup_iff.mpr ((nodup_finRange n).filter _)
  · intro i
    exact hperm.mem_iff.trans (hmem i)
  · exact std.make_isHeap _ _ (exists_strictWeak hcached fun i hi => (hmem i).mp hi)

variable {m' : MergingIterator n}

/-- The comparison of two children looks at nothing else. -/
theorem heapComparator_congr (hdirection : m'.direction = m.direction)
    (ha : m'.children a = m.children a ∧ m'.comparisons a = m.comparisons a)
    (hb : m'.children b = m.children b ∧ m'.comparisons b = m.comparisons b) :
    m.heapComparator c a b = m'.heapComparator c a b := by
  have hless : ∀ a b, m'.children a = m.children a ∧ m'.comparisons a = m.comparisons a →
      m'.children b = m.children b ∧ m'.comparisons b = m.comparisons b →
      m.less c a b = m'.less c a b := by
    intro a b ha hb
    rw [Bool.eq_iff_iff, less, less, decide_eq_true_iff,
      decide_eq_true_iff]
    simp only [childKey, child, ha.1, ha.2, hb.1, hb.2]
  rw [heapComparator, heapComparator, hdirection]
  cases m.direction with
  | kForward => exact hless b a hb ha
  | kReverse => exact hless a b ha hb

/-- What holds of the heap while the child `idx` is out of it. -/
structure HeapWithout
    (c : Children n K V) (num : KeyNum K) (m : MergingIterator n) (idx : Fin n) : Prop where
  nodup : m.heap.Nodup
  mem : ∀ j, j ∈ m.heap ↔ j ≠ idx ∧ (m.child c j).isSome = true
  isHeap : IsHeap (m.heapComparator c) m.heap
  cached : ∀ j x, j ≠ idx → m.child c j = some x → m.comparisons j = num.num x.1

variable {idx : Fin n}

theorem HeapOk.pop (h : HeapOk c num m) (std : StdHeap (Fin n)) (hcurrent : m.current = some idx)
    (htop : m.heap.head? = some idx) :
    ∃ heap, m.popCurrentComparison c std = some { m with heap := heap } ∧
      HeapWithout c num { m with heap := heap } idx := by
  obtain ⟨rest, hheap⟩ := head?_eq_some_iff.mp htop
  have hnodup := h.nodup
  have hisHeap := h.isHeap
  have hweak : StrictWeak (m.heapComparator c) m.heap :=
    exists_strictWeak h.cached fun j hj => (h.mem j).mp hj
  have hmem := h.mem
  rw [hheap] at hnodup hisHeap hweak hmem
  obtain ⟨hidx, hrest⟩ := nodup_cons.mp hnodup
  have hperm := std.pop_perm (m.heapComparator c) idx rest
  refine ⟨std.pop (m.heapComparator c) (idx :: rest), ?_, ?_, ?_, ?_, ?_⟩
  · simp [popCurrentComparison, hcurrent, hheap]
  · exact hperm.nodup_iff.mpr hrest
  · intro j
    change j ∈ std.pop (m.heapComparator c) (idx :: rest) ↔ j ≠ idx ∧ (m.child c j).isSome = true
    rw [hperm.mem_iff, ← hmem j, mem_cons]
    constructor
    · intro hj
      exact ⟨fun heq => hidx (heq ▸ hj), .inr hj⟩
    · rintro ⟨hne, hj | hj⟩
      · exact absurd hj hne
      · exact hj
  · exact std.pop_isHeap _ idx rest hweak hisHeap
  · exact fun j x _ hx => h.cached j x hx

/-- What happens to the child that is out of the heap does not matter. -/
theorem HeapWithout.update (h : HeapWithout c num m idx) (hheap : m'.heap = m.heap)
    (hdirection : m'.direction = m.direction)
    (hother : ∀ j, j ≠ idx → m'.children j = m.children j ∧ m'.comparisons j = m.comparisons j) :
    HeapWithout c num m' idx := by
  have hchild : ∀ j, j ≠ idx → m'.child c j = m.child c j := by
    intro j hj
    rw [child, child, (hother j hj).1]
  refine ⟨hheap ▸ h.nodup, ?_, ?_, ?_⟩
  · intro j
    rw [hheap, h.mem j]
    refine and_congr_right fun hj => ?_
    rw [hchild j hj]
  · rw [hheap]
    refine h.isHeap.congr fun a ha b hb => heapComparator_congr hdirection ?_ ?_
    · exact hother a ((h.mem a).mp ha).1
    · exact hother b ((h.mem b).mp hb).1
  · intro j x hj hx
    rw [hchild j hj] at hx
    rw [(hother j hj).2]
    exact h.cached j x hj hx

/-- The child is put back, if it stands at an entry. -/
theorem HeapWithout.push (h : HeapWithout c num m idx) (std : StdHeap (Fin n))
    (hcurrent : m.current = some idx) :
    ∃ m', m.pushCurrentComparison c num std = some m' ∧ HeapOk c num m' ∧
      m'.children = m.children ∧ m'.direction = m.direction := by
  rw [pushCurrentComparison, hcurrent]
  simp only [bind_eq_bind, bind_some]
  cases hkey : m.childKey c idx with
  | none =>
    have hnone : m.child c idx = none := map_eq_none_iff.mp hkey
    refine ⟨m, rfl, ⟨h.nodup, ?_, h.isHeap, ?_⟩, rfl, rfl⟩
    · intro j
      rw [h.mem j]
      refine and_iff_right_of_imp fun hj => ?_
      rintro rfl
      rw [hnone] at hj
      cases hj
    · intro j x hx
      refine h.cached j x ?_ hx
      rintro rfl
      rw [hnone] at hx
      cases hx
  | some k =>
    obtain ⟨e, he, rfl⟩ := map_eq_some_iff.mp hkey
    have hout : HeapWithout c num (m.cache num idx e.1) idx :=
      h.update rfl rfl fun j hj => ⟨rfl, update_of_ne hj ..⟩
    have hheap : m.heap = (m.cache num idx e.1).heap := rfl
    dsimp only
    rw [hheap]
    generalize hm' : m.cache num idx e.1 = m' at hout ⊢
    have hchild : m'.child c idx = some e := hm' ▸ he
    have hnum : m'.comparisons idx = num.num e.1 := by
      rw [← hm']
      exact update_self ..
    have hcached : Cached c num m' := by
      intro j x hx
      by_cases hj : j = idx
      · subst hj
        rw [hchild] at hx
        cases hx
        exact hnum
      · exact hout.cached j x hj hx
    have hmem : ∀ j, j ∈ idx :: m'.heap ↔ (m'.child c j).isSome = true := by
      intro j
      rw [mem_cons, hout.mem j]
      by_cases hj : j = idx
      · subst hj
        simp [hchild]
      · simp [hj]
    have hperm := std.push_perm (m'.heapComparator c) m'.heap idx
    refine ⟨_, rfl, ⟨?_, ?_, ?_, hcached⟩, hm' ▸ rfl, hm' ▸ rfl⟩
    · refine hperm.nodup_iff.mpr (nodup_cons.mpr ⟨?_, hout.nodup⟩)
      exact fun hidx => ((hout.mem idx).mp hidx).1 rfl
    · exact fun j => hperm.mem_iff.trans (hmem j)
    · exact std.push_isHeap _ _ _ (exists_strictWeak hcached fun j hj => (hmem j).mp hj)
        hout.isHeap

/-- **The current child is moved**, and the heap is repaired. -/
theorem HeapOk.advance (h : HeapOk c num m) (std : StdHeap (Fin n))
    (move : List (K × V) → Nat → Option Nat) {i : Nat} (hcurrent : m.current = some idx)
    (htop : m.heap.head? = some idx) (hi : m.children idx = some i) :
    ∃ m', m.advance c num std move m.direction = some m' ∧ HeapOk c num m' ∧
      m'.current = m'.heap.head? ∧ m'.direction = m.direction ∧
      m'.children = update m.children idx (move (c.items idx) i) := by
  obtain ⟨heap, hpop, hout⟩ := h.pop std hcurrent htop
  have hmove : moveCurrent c move { m with heap := heap } = some { m with
        heap := heap
        children := update m.children idx (move (c.items idx) i) } := by
    simp [moveCurrent, hcurrent, hi]
  have hmoved : HeapWithout c num { m with
      heap := heap
      children := update m.children idx (move (c.items idx) i) } idx :=
    hout.update rfl rfl fun j hj => ⟨update_of_ne hj .., rfl⟩
  obtain ⟨m', hpush, hok, hchildren, hdirection⟩ := hmoved.push std hcurrent
  refine ⟨{ m' with current := m'.heap.head? }, ?_, hok.setCurrent _, rfl, hdirection, hchildren⟩
  rw [MergingIterator.advance]
  simp only [hpop, hmove, hpush, bind_eq_bind, bind_some]
  exact if_pos hdirection

variable {κ : Type} [LinearOrder κ] {direction : MergeDirection} {ord : K × V → κ}
  {p : K × V → Prop} {x : K × V}

/-- Every child stands at its first entry from some point on. -/
def Placed (c : Children n K V) (ord : K × V → κ) (m : MergingIterator n) : Prop :=
  ∃ p : K × V → Prop, (∀ x y, ord x ≤ ord y → p x → p y) ∧
    ∀ i, IsFirst ord (c.items i) p (m.child c i)

section

variable (h : Facing c num direction ord)
include h

/-- **The top of the heap** is the first entry of all. -/
theorem Facing.isFirst_top (hdirection : m.direction = direction)
    (hok : HeapOk c num m) (hall : ∀ i, IsFirst ord (c.items i) p (m.child c i)) :
    IsFirst ord c.merged p (m.heap.head?.bind (m.child c)) :=
  (h.compares hdirection hok.cached).isFirst_top
    (fun i => (hok.mem i).trans isSome_iff_exists) hok.isHeap (fun _ => c.mem_merged) hall

theorem Facing.isFirst_view (hdirection : m.direction = direction)
    (hok : HeapOk c num m) (htop : m.current = m.heap.head?)
    (hall : ∀ i, IsFirst ord (c.items i) p (m.child c i)) : IsFirst ord c.merged p (m.view c) := by
  rw [MergingIterator.view, htop]
  exact h.isFirst_top hdirection hok hall

theorem Facing.placeAll (std : StdHeap (Fin n)) (m : MergingIterator n)
    {place : List (K × V) → Option Nat} (hupper : ∀ x y, ord x ≤ ord y → p x → p y)
    (hplace : ∀ i, IsFirst ord (c.items i) p (Cursor.current (c.items i) (place (c.items i)))) :
    ∃ m', m.placeAll c num std place direction = some m' ∧ HeapOk c num m' ∧
      m'.current = m'.heap.head? ∧ m'.direction = direction ∧ Placed c ord m' ∧
      IsFirst ord c.merged p (m'.view c) := by
  have hok := heapOk_reinitializeComparisons c num std { m with
    children := fun i => place (c.items i), direction := direction }
  have hok' := hok.setCurrent (reinitializeComparisons c num std { m with
    children := fun i => place (c.items i), direction := direction }).heap.head?
  refine ⟨_, if_pos rfl, hok', rfl, rfl, ⟨p, hupper, hplace⟩, ?_⟩
  exact h.isFirst_view rfl hok' rfl hplace

theorem Facing.le_iff_lt (hx : x ∈ c.items idx) {i : Fin n}
    (hne : i ≠ idx) {y : K × V} (hy : y ∈ c.items i) : ord x ≤ ord y ↔ ord x < ord y := by
  refine ⟨fun hle => lt_of_le_of_ne hle fun heq => ?_, le_of_lt⟩
  exact hne (c.index_eq hy hx ((h.eq_iff x y).mp heq).symm)

/-- After a change of direction the current child is the top again. -/
theorem Facing.turn (std : StdHeap (Fin n))
    {place : List (K × V) → K → Option Nat} (hok : HeapOk c num m) (htop : m.current = m.heap.head?)
    (hplaced : m.direction = direction → Placed c ord m) (hcurrent : m.current = some idx)
    (hx : m.child c idx = some x) (hplace : ∀ i, IsFirst ord (c.items i) (fun y => ord x < ord y)
      (Cursor.current (c.items i) (place (c.items i) x.1))) :
    ∃ m', m.turn c num std place direction idx x.1 = m' ∧ HeapOk c num m' ∧
      m'.current = some idx ∧ m'.heap.head? = some idx ∧ m'.direction = direction ∧
      m'.children idx = m.children idx ∧
      ∀ i, IsFirst ord (c.items i) (fun y => ord x ≤ ord y) (m'.child c i) := by
  by_cases hdirection : m.direction = direction
  · rw [MergingIterator.turn, if_pos hdirection]
    obtain ⟨p, hupper, hall⟩ := hplaced hdirection
    have hfirst := h.isFirst_view hdirection hok htop hall
    rw [MergingIterator.view, hcurrent, bind_some, hx] at hfirst
    refine ⟨m, rfl, hok, hcurrent, htop.symm.trans hcurrent, hdirection, rfl, ?_⟩
    intro i
    refine (hall i).congr fun y hy => ⟨fun hp => ?_, fun hle => ?_⟩
    · exact hfirst.le (c.mem_merged.mpr ⟨i, hy⟩) hp
    · exact hupper x y hle (hfirst.mem x rfl).2
  · rw [MergingIterator.turn, if_neg hdirection]
    refine ⟨_, rfl, ?_⟩
    have hok₁ := heapOk_reinitializeComparisons c num std { m with
      children := fun i => if i = idx then m.children i else place (c.items i) x.1
      direction := direction }
    generalize hm₁ : reinitializeComparisons c num std _ = m₁ at hok₁ ⊢
    have hdirection₁ : m₁.direction = direction := by
      rw [← hm₁]
      rfl
    have hchild : m₁.child c idx = some x := by
      rw [← hx, ← hm₁]
      change current (c.items idx) (if idx = idx then _ else _) = _
      rw [if_pos rfl]
      rfl
    have hxmem : x ∈ c.items idx := by
      obtain ⟨j, -, hj⟩ := bind_eq_some_iff.mp hx
      exact mem_of_getElem? hj
    have hall : ∀ i, IsFirst ord (c.items i) (fun y => ord x ≤ ord y) (m₁.child c i) := by
      intro i
      by_cases hi : i = idx
      · subst hi
        rw [hchild]
        exact isFirst_some hxmem le_rfl fun _ _ hle => hle
      · have hpos : m₁.child c i = current (c.items i) (place (c.items i) x.1) := by
          rw [← hm₁]
          change current (c.items i) (if i = idx then _ else _) = _
          rw [if_neg hi]
        rw [hpos]
        exact (hplace i).congr fun y hy => (h.le_iff_lt hxmem hi hy).symm
    refine ⟨hok₁, hm₁ ▸ hcurrent, ?_, hdirection₁, ?_, hall⟩
    · -- The top is not after `x`, and every child stands at `x` or after it.
      have hfirst := h.isFirst_top hdirection₁ hok₁ hall
      obtain ⟨z, hz, hle⟩ := hfirst.least x (c.mem_merged.mpr ⟨idx, hxmem⟩) le_rfl
      obtain ⟨t, ht, hzt⟩ := bind_eq_some_iff.mp hz
      obtain ⟨hzmem, hle'⟩ := (hall t).mem z hzt
      rw [← c.index_eq hzmem hxmem ((h.eq_iff z x).mp (le_antisymm hle hle'))]
      exact ht
    · rw [← hm₁]
      exact if_pos rfl

/-- **`Next` and `Prev`**: the first entry after the one that was shown. -/
theorem Facing.step (std : StdHeap (Fin n))
    (place : List (K × V) → K → Option Nat) (move : List (K × V) → Nat → Option Nat)
    (hok : HeapOk c num m) (htop : m.current = m.heap.head?)
    (hplaced : m.direction = direction → Placed c ord m) (hview : m.view c = some x)
    (hplace : ∀ i, IsFirst ord (c.items i) (fun y => ord x < ord y)
      (Cursor.current (c.items i) (place (c.items i) x.1)))
    (hmove : ∀ i j, (c.items i)[j]? = some x → IsFirst ord (c.items i) (fun y => ord x < ord y)
      (Cursor.current (c.items i) (move (c.items i) j))) :
    ∃ idx m', m.current = some idx ∧ m.childKey c idx = some x.1 ∧
      (m.turn c num std place direction idx x.1).advance c num std move direction = some m' ∧
      HeapOk c num m' ∧ m'.current = m'.heap.head? ∧ m'.direction = direction ∧
      Placed c ord m' ∧ IsFirst ord c.merged (fun y => ord x < ord y) (m'.view c) := by
  obtain ⟨idx, hcurrent, hx⟩ := bind_eq_some_iff.mp hview
  obtain ⟨j, hj, hget⟩ := bind_eq_some_iff.mp hx
  have hxmem := mem_of_getElem? hget
  obtain ⟨m₁, hturn, hok₁, hcurrent₁, htop₁, hdirection₁, hchildren₁, hall₁⟩ :=
    h.turn std hok htop hplaced hcurrent hx hplace
  obtain ⟨m', hadvance, hok', htop', hdirection', hchildren'⟩ :=
    hok₁.advance std move hcurrent₁ htop₁ (hchildren₁.trans hj)
  rw [hdirection₁] at hadvance hdirection'
  have hall : ∀ i, IsFirst ord (c.items i) (fun y => ord x < ord y) (m'.child c i) := by
    intro i
    by_cases hi : i = idx
    · subst hi
      rw [child, hchildren', update_self]
      exact hmove i j hget
    · have hchild : m'.child c i = m₁.child c i := by
        rw [child, child, hchildren', update_of_ne hi]
      rw [hchild]
      exact (hall₁ i).congr fun y hy => h.le_iff_lt hxmem hi hy
  refine ⟨idx, m', hcurrent, ?_, hturn ▸ hadvance, hok', htop', hdirection',
    ⟨_, fun y z hle hlt => hlt.trans_le hle, hall⟩, h.isFirst_view hdirection' hok' htop' hall⟩
  rw [childKey, hx]
  rfl

end

end

variable {c : Children n K V} {num : KeyNum K} {m : MergingIterator n}

structure Ready (c : Children n K V) (num : KeyNum K) (m : MergingIterator n) : Prop where
  heapOk : HeapOk c num m
  top : m.current = m.heap.head?
  forward : m.direction = .kForward → Placed c Prod.fst m
  reverse : m.direction = .kReverse → Placed c (fun x => OrderDual.toDual x.1) m

theorem ready_forward (hok : HeapOk c num m) (htop : m.current = m.heap.head?)
    (hdirection : m.direction = .kForward) (hplaced : Placed c Prod.fst m) : Ready c num m :=
  ⟨hok, htop, fun _ => hplaced, fun hreverse => absurd (hdirection.symm.trans hreverse) (by decide)⟩

theorem ready_reverse (hok : HeapOk c num m) (htop : m.current = m.heap.head?)
    (hdirection : m.direction = .kReverse)
    (hplaced : Placed c (fun x => OrderDual.toDual x.1) m) : Ready c num m :=
  ⟨hok, htop, fun hforward => absurd (hdirection.symm.trans hforward) (by decide), fun _ => hplaced⟩

theorem isFirst_seekAfter (c : Children n K V) (i : Fin n) (k : K) :
    IsFirst Prod.fst (c.items i) (fun y => k < y.1)
      (Cursor.current (c.items i) (seekAfter (c.items i) k)) := by
  have hseek := isFirst_seek (c.sorted i) k
  rw [seekAfter]
  cases hpos : seek Prod.fst (c.items i) k with
  | none =>
    rw [hpos] at hseek
    refine hseek.congr fun y hy => ⟨fun hle => ?_, le_of_lt⟩
    obtain ⟨z, hz, -⟩ := hseek.least y hy hle
    cases hz
  | some j =>
    rw [hpos] at hseek
    obtain ⟨hlt, -, -⟩ := findIdx?_eq_some_iff_getElem.mp hpos
    have hget := getElem?_eq_getElem hlt
    rw [current, bind_some, hget] at hseek
    have hle := (hseek.mem (c.items i)[j] rfl).2
    dsimp only
    split_ifs with heq
    · rw [hget] at heq
      cases heq
      exact isFirst_next (c.sorted i) hget
    · have hne : k ≠ (c.items i)[j].1 := by
        rintro rfl
        exact heq (by rw [hget]; rfl)
      rw [current, bind_some, hget]
      exact hseek.congr fun y hy =>
        ⟨fun hky => (lt_of_le_of_ne hle hne).trans_le (hseek.le hy hky), le_of_lt⟩

theorem isLast_seekBefore (c : Children n K V) (i : Fin n) (k : K) :
    IsLast Prod.fst (c.items i) (fun y => y.1 < k)
      (Cursor.current (c.items i) (seekBefore (c.items i) k)) := by
  have hbefore := isLast_before (c.sorted i) (q := fun y => k ≤ y.1) fun _ _ hle hk => hk.trans hle
  rw [seekBefore, seek]
  refine IsFirst.congr ?_ fun _ _ => not_le
  cases hpos : (c.items i).findIdx? fun x => k ≤ x.1 <;> rwa [hpos] at hbefore

theorem current_eq_none (h : Ready c num m) (hnone : m.view c = none) : m.current = none := by
  cases hcurrent : m.current with
  | none => rfl
  | some idx =>
    have hmem := mem_of_head? (h.top.symm.trans hcurrent)
    obtain ⟨x, hx⟩ := isSome_iff_exists.mp ((h.heapOk.mem idx).mp hmem)
    rw [MergingIterator.view, hcurrent, bind_some, hx] at hnone
    cases hnone

/-- The merging iterator does in each call what a cursor over the merge does. -/
theorem mergingIterator_behaves (c : Children n K V) (num : KeyNum K) (std : StdHeap (Fin n)) :
    Behaves Prod.fst c.merged (MergingIterator.call c num std) (MergingIterator.view c)
      (Ready c num) where
  seekToFirst m _ := by
    obtain ⟨m', hcall, hok, htop, hdirection, hplaced, hfirst⟩ :=
      (facing_forward c num).placeAll std m (fun _ _ _ h => h)
        fun i => isFirst_seekToFirst (c.sorted i)
    exact ⟨m', hcall, ready_forward hok htop hdirection hplaced, hfirst⟩
  seekToLast m _ := by
    obtain ⟨m', hcall, hok, htop, hdirection, hplaced, hlast⟩ :=
      (facing_reverse c num).placeAll std m (fun _ _ _ h => h)
        fun i => isLast_seekToLast (c.sorted i)
    exact ⟨m', hcall, ready_reverse hok htop hdirection hplaced, hlast⟩
  seek m target _ := by
    obtain ⟨m', hcall, hok, htop, hdirection, hplaced, hfirst⟩ :=
      (facing_forward c num).placeAll std m (fun _ _ hle h => h.trans hle)
        fun i => isFirst_seek (c.sorted i) target
    exact ⟨m', hcall, ready_forward hok htop hdirection hplaced, hfirst⟩
  next m x h hx := by
    obtain ⟨idx, m', hcurrent, hkey, hstep, hok, htop, hdirection, hplaced, hfirst⟩ :=
      (facing_forward c num).step std seekAfter next h.heapOk h.top h.forward hx
        (fun i => isFirst_seekAfter c i x.1) fun i j hj => isFirst_next (c.sorted i) hj
    refine ⟨m', ?_, ready_forward hok htop hdirection hplaced, hfirst⟩
    simp only [MergingIterator.call, MergingIterator.next, hcurrent, hkey, bind_eq_bind,
      bind_some, hstep]
  prev m x h hx := by
    obtain ⟨idx, m', hcurrent, hkey, hstep, hok, htop, hdirection, hplaced, hlast⟩ :=
      (facing_reverse c num).step std seekBefore (fun _ => prev) h.heapOk h.top h.reverse hx
        (fun i => isLast_seekBefore c i x.1) fun i j hj => isLast_prev (c.sorted i) hj
    refine ⟨m', ?_, ready_reverse hok htop hdirection hplaced, hlast⟩
    simp only [MergingIterator.call, MergingIterator.prev, hcurrent, hkey, bind_eq_bind,
      bind_some, hstep]
  next_none m h hnone := by
    simp [MergingIterator.call, MergingIterator.next, current_eq_none h hnone]
  prev_none m h hnone := by
    simp [MergingIterator.call, MergingIterator.prev, current_eq_none h hnone]

theorem ready_new (c : Children n K V) (num : KeyNum K) (std : StdHeap (Fin n))
    (junk : Fin n → Nat) : Ready c num (MergingIterator.new c num std junk) := by
  have hok : HeapOk c num (MergingIterator.new c num std junk) :=
    heapOk_reinitializeComparisons c num std _
  have hempty : (MergingIterator.new c num std junk).heap = [] := by
    refine eq_nil_iff_forall_not_mem.mpr fun i hi => ?_
    have := (hok.mem i).mp hi
    cases this
  refine ready_forward hok ?_ rfl
    ⟨fun _ => False, fun _ _ _ h => h, fun i => isFirst_none fun _ _ h => h⟩
  rw [hempty]
  rfl

/-- **Every sequence of calls** of the merging iterator shows what a cursor over the sorted
merge of the children shows.  The child that is shown is the top of the heap, and the
cached numbers are those of the keys. -/
theorem mergingIterator_run
    (c : Children n K V)
    (num : KeyNum K)
    (std : StdHeap (Fin n))
    (junk : Fin n → Nat)
    (calls : List (Call K)) :
    (c.merged.Pairwise (fun a b => a.1 < b.1) ∧ ∀ x, x ∈ c.merged ↔ ∃ i, x ∈ c.items i) ∧
      (calls.foldlM (MergingIterator.call c num std) (MergingIterator.new c num std junk)).map
          (MergingIterator.view c) =
        (calls.foldlM (Cursor.call Prod.fst c.merged) none).map (Cursor.current c.merged) ∧
      ∀ m, calls.foldlM (MergingIterator.call c num std) (MergingIterator.new c num std junk) =
          some m →
        m.current = m.heap.head? ∧ ∀ i x, m.child c i = some x → m.comparisons i = num.num x.1 := by
  have hnew := ready_new c num std junk
  have hinside : Inside c.merged none := fun i hi => by cases hi
  obtain ⟨hrun, hready⟩ :=
    (mergingIterator_behaves c num std).run c.merged_sorted hnew hinside rfl calls
  refine ⟨⟨c.merged_sorted, fun x => c.mem_merged⟩, hrun, ?_⟩
  intro m hm
  exact ⟨(hready m hm).top, (hready m hm).heapOk.cached⟩

/-- Two children whose entries alternate. -/
def sampleChildren : Children 2 Nat Nat where
  items := ![[(1, 10), (4, 40)], [(2, 20), (3, 30)]]
  sorted := by decide
  distinct := by decide

example :
    ([Call.seekToLast, .prev, .prev, .next].foldlM
        (MergingIterator.call sampleChildren ⟨id, fun _ _ h => h⟩ StdHeap.sorting)
        (MergingIterator.new sampleChildren ⟨id, fun _ _ h => h⟩ StdHeap.sorting fun _ => 0)).map
      (MergingIterator.view sampleChildren) = some (some (3, 30)) := by decide +kernel

end HotTLBApps.PebblesDB
