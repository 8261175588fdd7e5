import HotTLBApps.Lib.Cursor
import HotTLBApps.Lib.StdHeap

/-!
# Merging sequences with a heap

Several sequences each stand at an entry or at none, and a heap holds those that stand at
one, ordered by the entries.

* `Compares.strictWeak`: the comparison of the heap is an order;
* `Compares.isFirst_top`: if every sequence stands at its first entry with a property, the
  top of the heap shows the first entry of all with the property.
-/

namespace HotTLBApps.HeapMerge

open Cursor Heap

variable {ι α κ : Type*} [LinearOrder κ]

/-- The comparison puts the sequence with the first entry at the top. -/
def Compares (ord : α → κ) (entry : ι → Option α) (cmp : ι → ι → Bool) : Prop :=
  ∀ a b x y, entry a = some x → entry b = some y → (cmp a b = true ↔ ord y < ord x)

variable {ord : α → κ} {entry : ι → Option α} {cmp : ι → ι → Bool}

theorem Compares.eq_false_iff (h : Compares ord entry cmp) {a b : ι} {x y : α}
    (ha : entry a = some x) (hb : entry b = some y) : cmp a b = false ↔ ord x ≤ ord y := by
  rw [Bool.eq_false_iff, ne_eq, h a b x y ha hb, not_lt]

theorem Compares.strictWeak (h : Compares ord entry cmp) {l : List ι}
    (hl : ∀ i ∈ l, ∃ x, entry i = some x) : StrictWeak cmp l := by
  refine ⟨?_, ?_⟩
  · intro a ha b hb hlt
    obtain ⟨x, hx⟩ := hl a ha
    obtain ⟨y, hy⟩ := hl b hb
    rw [h.eq_false_iff hy hx]
    exact ((h a b x y hx hy).mp hlt).le
  · intro a ha b hb c hc hab hbc
    obtain ⟨x, hx⟩ := hl a ha
    obtain ⟨y, hy⟩ := hl b hb
    obtain ⟨z, hz⟩ := hl c hc
    rw [h.eq_false_iff hx hy] at hab
    rw [h.eq_false_iff hy hz] at hbc
    rw [h.eq_false_iff hx hz]
    exact hab.trans hbc

/-- **The top of the heap** shows the first entry of all. -/
theorem Compares.isFirst_top (h : Compares ord entry cmp) {heap : List ι}
    (hmem : ∀ i, i ∈ heap ↔ ∃ x, entry i = some x) (hheap : IsHeap cmp heap) {p : α → Prop}
    {items : ι → List α} {all : List α} (hall : ∀ x, x ∈ all ↔ ∃ i, x ∈ items i)
    (hfirst : ∀ i, IsFirst ord (items i) p (entry i)) :
    IsFirst ord all p (heap.head?.bind entry) := by
  refine ⟨?_, ?_⟩
  · intro x hx
    obtain ⟨i, -, hentry⟩ := Option.bind_eq_some_iff.mp hx
    obtain ⟨hxi, hp⟩ := (hfirst i).mem x hentry
    exact ⟨(hall x).mpr ⟨i, hxi⟩, hp⟩
  · intro y hy hp
    obtain ⟨i, hi⟩ := (hall y).mp hy
    obtain ⟨z, hz, hle⟩ := (hfirst i).least y hi hp
    have hin : i ∈ heap := (hmem i).mpr ⟨z, hz⟩
    have hweak : StrictWeak cmp heap := h.strictWeak fun j hj => (hmem j).mp hj
    cases hhead : heap.head? with
    | none =>
      rw [List.head?_eq_none_iff.mp hhead] at hin
      cases hin
    | some t =>
      obtain ⟨x, hx⟩ := (hmem t).mp (List.mem_of_head? hhead)
      refine ⟨x, hx, le_trans ?_ hle⟩
      exact (h.eq_false_iff hx hz).mp (hheap.top hweak hhead hin)

end HotTLBApps.HeapMerge
