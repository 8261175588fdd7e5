import Mathlib.Tactic

/-!
# The heap operations of the C++ standard library

`std::make_heap`, `std::pop_heap` and `std::push_heap` by what the standard promises: they
rearrange a range into a heap, when the comparison orders the elements of the range.  The
range is a list; `pop` leaves out the element that `std::pop_heap` moves to the end.

`StdHeap.sorting`: sorting keeps the promises.
-/

namespace HotTLBApps.Heap

open List

variable {α : Type*}

/-- The comparison is a strict weak order on the elements of a list. -/
structure StrictWeak (lt : α → α → Bool) (l : List α) : Prop where
  asymm : ∀ a ∈ l, ∀ b ∈ l, lt a b = true → lt b a = false
  negTrans : ∀ a ∈ l, ∀ b ∈ l, ∀ c ∈ l, lt a b = false → lt b c = false → lt a c = false

def IsHeap (lt : α → α → Bool) (l : List α) : Prop :=
  ∀ i a b, 0 < i → l[(i - 1) / 2]? = some a → l[i]? = some b → lt a b = false

/-- The operations and what they promise. -/
structure StdHeap (α : Type*) where
  make : (α → α → Bool) → List α → List α
  pop : (α → α → Bool) → List α → List α
  push : (α → α → Bool) → List α → α → List α
  make_perm : ∀ lt l, (make lt l).Perm l
  make_isHeap : ∀ lt l, StrictWeak lt l → IsHeap lt (make lt l)
  pop_perm : ∀ lt a l, (pop lt (a :: l)).Perm l
  pop_isHeap : ∀ lt a l, StrictWeak lt (a :: l) → IsHeap lt (a :: l) → IsHeap lt (pop lt (a :: l))
  push_perm : ∀ lt l a, (push lt l a).Perm (a :: l)
  push_isHeap : ∀ lt l a, StrictWeak lt (a :: l) → IsHeap lt l → IsHeap lt (push lt l a)

variable {lt lt' : α → α → Bool} {l l' : List α}

theorem StrictWeak.subset (h : StrictWeak lt l) (hsub : ∀ a ∈ l', a ∈ l) : StrictWeak lt l' :=
  ⟨fun a ha b hb => h.asymm a (hsub a ha) b (hsub b hb),
    fun a ha b hb c hc => h.negTrans a (hsub a ha) b (hsub b hb) c (hsub c hc)⟩

theorem IsHeap.congr (h : IsHeap lt l)
    (heq : ∀ a ∈ l, ∀ b ∈ l, lt a b = lt' a b) : IsHeap lt' l := by
  intro i a b hi ha hb
  rw [← heq a (mem_of_getElem? ha) b (mem_of_getElem? hb)]
  exact h i a b hi ha hb

/-- **The first element of a heap** is not smaller than any other. -/
theorem IsHeap.top (h : IsHeap lt l) (hweak : StrictWeak lt l) {t x : α} (ht : l.head? = some t)
    (hx : x ∈ l) : lt t x = false := by
  have htop : ∀ (i : Nat) (y : α), l[i]? = some y → lt t y = false := by
    intro i
    -- The induction goes from a position to its parent.
    induction i using Nat.strongRecOn with
    | ind i ih =>
      intro y hy
      have htl := mem_of_head? ht
      obtain rfl | hi := Nat.eq_zero_or_pos i
      · rw [← head?_eq_getElem?, ht] at hy
        cases hy
        by_contra hlt
        rw [Bool.not_eq_false] at hlt
        have := hweak.asymm t htl t htl hlt
        rw [hlt] at this
        cases this
      · obtain ⟨hlength, -⟩ := List.getElem?_eq_some_iff.mp hy
        have hparent := getElem?_eq_getElem (by omega : (i - 1) / 2 < l.length)
        have hbelow := h i _ y hi hparent hy
        have habove := ih ((i - 1) / 2) (by omega) _ hparent
        exact hweak.negTrans t htl _ (mem_of_getElem? hparent) y (mem_of_getElem? hy)
          habove hbelow
  obtain ⟨i, hi⟩ := getElem?_of_mem hx
  exact htop i x hi

variable {a : α}

theorem isHeap_of_pairwise (h : l.Pairwise fun a b => lt a b = false) : IsHeap lt l := by
  intro i a b hi ha hb
  obtain ⟨hi', rfl⟩ := List.getElem?_eq_some_iff.mp ha
  obtain ⟨hj', rfl⟩ := List.getElem?_eq_some_iff.mp hb
  exact pairwise_iff_getElem.mp h _ _ hi' hj' (by omega)

/-- Insertion before the first smaller element. -/
def insertTop (lt : α → α → Bool) (a : α) : List α → List α
  | [] => [a]
  | b :: l => if lt b a then a :: b :: l else b :: insertTop lt a l

/-- Insertion of one element after another. -/
def sortTop (lt : α → α → Bool) : List α → List α
  | [] => []
  | a :: l => insertTop lt a (sortTop lt l)

theorem insertTop_perm (lt : α → α → Bool) (a : α)
    (l : List α) : (insertTop lt a l).Perm (a :: l) := by
  induction l with
  | nil => exact Perm.refl _
  | cons b l ih =>
    rw [insertTop]
    split_ifs
    · exact Perm.refl _
    · exact (ih.cons b).trans (Perm.swap a b l)

theorem sortTop_perm (lt : α → α → Bool) (l : List α) : (sortTop lt l).Perm l := by
  induction l with
  | nil => exact Perm.refl _
  | cons a l ih => exact (insertTop_perm lt a _).trans (ih.cons a)

theorem pairwise_insertTop (hweak : StrictWeak lt (a :: l))
    (h : l.Pairwise fun a b => lt a b = false) :
    (insertTop lt a l).Pairwise fun a b => lt a b = false := by
  induction l with
  | nil => exact pairwise_singleton _ _
  | cons b l ih =>
    obtain ⟨hb, hl⟩ := pairwise_cons.mp h
    have hab : a ∈ a :: b :: l := mem_cons_self
    have hbb : b ∈ a :: b :: l := mem_cons_of_mem _ mem_cons_self
    rw [insertTop]
    split_ifs with hlt
    · have hba := hweak.asymm b hbb a hab hlt
      refine pairwise_cons.mpr ⟨?_, h⟩
      intro c hc
      obtain rfl | hcl := mem_cons.mp hc
      · exact hba
      · exact hweak.negTrans a hab b hbb c (mem_cons_of_mem _ hc) hba (hb c hcl)
    · have hsub : ∀ c ∈ a :: l, c ∈ a :: b :: l := by
        intro c hc
        obtain rfl | hc := mem_cons.mp hc
        · exact mem_cons_self
        · exact mem_cons_of_mem _ (mem_cons_of_mem _ hc)
      refine pairwise_cons.mpr ⟨?_, ih (hweak.subset hsub) hl⟩
      intro c hc
      obtain rfl | hcl := mem_cons.mp ((insertTop_perm lt a l).mem_iff.mp hc)
      · exact Bool.eq_false_iff.mpr hlt
      · exact hb c hcl

theorem pairwise_sortTop
    (hweak : StrictWeak lt l) : (sortTop lt l).Pairwise fun a b => lt a b = false := by
  induction l with
  | nil => exact Pairwise.nil
  | cons a l ih =>
    have hsub : ∀ c ∈ a :: sortTop lt l, c ∈ a :: l := by
      intro c hc
      exact ((sortTop_perm lt l).cons a).mem_iff.mp hc
    exact pairwise_insertTop (hweak.subset hsub)
      (ih (hweak.subset fun c hc => mem_cons_of_mem _ hc))

/-- The promises can be kept. -/
def StdHeap.sorting : StdHeap α where
  make := sortTop
  pop lt l := sortTop lt l.tail
  push lt l a := sortTop lt (a :: l)
  make_perm := sortTop_perm
  make_isHeap _ _ hweak := isHeap_of_pairwise (pairwise_sortTop hweak)
  pop_perm lt _ l := sortTop_perm lt l
  pop_isHeap _ _ _ hweak _ := isHeap_of_pairwise (pairwise_sortTop
    (hweak.subset fun _ hc => List.mem_cons_of_mem _ hc))
  push_perm lt l a := sortTop_perm lt (a :: l)
  push_isHeap _ _ _ hweak _ := isHeap_of_pairwise (pairwise_sortTop hweak)

end HotTLBApps.Heap
