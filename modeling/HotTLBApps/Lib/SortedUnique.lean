import Mathlib.Data.List.Destutter
import Mathlib.Tactic

/-!
# Sorting, and removing neighbours that are equal

A list is sorted by a key `k`, and of neighbours with the same coarse key `f` only the
first is kept.  As the order by `k` refines the order by `f`, this keeps for every value
of `f` the element with the least key.
-/

namespace HotTLBApps.SortedUnique

open List Function

universe u v w

variable {α : Type u} {β : Type v} {γ : Type w} [LinearOrder β] [LinearOrder γ]

section Sorting

variable {k : α → γ} {r : α → α → Prop} [DecidableRel r]

theorem pairwise_insertionSort (hr : ∀ a b, r a b ↔ k a ≤ k b)
    (l : List α) : (l.insertionSort r).Pairwise fun a b => k a ≤ k b := by
  have htotal : Std.Total r := ⟨fun a b => by simpa only [hr] using le_total (k a) (k b)⟩
  have htrans : IsTrans α r := ⟨fun a b c => by simpa only [hr] using le_trans⟩
  exact (List.pairwise_insertionSort r l).imp fun h => (hr _ _).mp h

theorem pairwise_lt_insertionSort (hr : ∀ a b, r a b ↔ k a ≤ k b) {l : List α}
    (hne : l.Pairwise fun a b => k a ≠ k b) :
    (l.insertionSort r).Pairwise fun a b => k a < k b := by
  have hne := (perm_insertionSort r l).symm.pairwise hne fun h => h.symm
  exact ((pairwise_insertionSort hr l).and hne).imp fun h => lt_of_le_of_ne h.1 h.2

theorem insertionSort_congr (hr : ∀ a b, r a b ↔ k a ≤ k b) (hk : Injective k)
    {l l' : List α} (h : l.Perm l') : l.insertionSort r = l'.insertionSort r := by
  have hperm : (l.insertionSort r).Perm (l'.insertionSort r) :=
    ((perm_insertionSort r l).trans h).trans (perm_insertionSort r l').symm
  refine hperm.eq_of_pairwise ?_ (pairwise_insertionSort hr l) (pairwise_insertionSort hr l')
  intro a b _ _ hab hba
  exact hk (le_antisymm hab hba)

end Sorting

variable {f : α → β} {k : α → γ}

theorem mem_destutter'_iff (hk : Injective k) (hmono : ∀ a b, k a ≤ k b → f a ≤ f b)
    {a : α} {l : List α} (hsorted : (a :: l).Pairwise fun a b => k a ≤ k b) {x : α} :
    x ∈ l.destutter' (fun a b => f a ≠ f b) a ↔
      x ∈ a :: l ∧ ∀ y ∈ a :: l, f y = f x → k x ≤ k y := by
  induction l generalizing a with
  | nil =>
    simp only [destutter'_nil, mem_singleton, forall_eq]
    exact ⟨fun h => ⟨h, fun _ => h ▸ le_rfl⟩, fun h => h.1⟩
  | cons b l ih =>
    obtain ⟨ha, hl⟩ := pairwise_cons.mp hsorted
    have hab := ha b mem_cons_self
    by_cases hf : f a = f b
    · -- A further element with the coarse key of the one that was kept.
      have hskip : (a :: l).Pairwise fun a b => k a ≤ k b := hsorted.sublist (by simp)
      rw [destutter'_cons_neg l (not_not.mpr hf), ih hskip]
      simp only [mem_cons, forall_eq_or_imp]
      constructor
      · rintro ⟨hmem, hleast, hrest⟩
        exact ⟨hmem.imp_right .inr, hleast, fun h => (hleast (hf.trans h)).trans hab, hrest⟩
      · rintro ⟨rfl | rfl | hmem, hleast, -, hrest⟩
        · exact ⟨.inl rfl, hleast, hrest⟩
        · exact ⟨.inl (hk (le_antisymm (hleast hf) hab)), hleast, hrest⟩
        · exact ⟨.inr hmem, hleast, hrest⟩
    · -- A new coarse key: all that follow have a larger one than the one that was kept.
      have hlt : ∀ x ∈ b :: l, f a < f x := by
        have hlt := lt_of_le_of_ne (hmono a b hab) hf
        refine forall_mem_cons.mpr ⟨hlt, ?_⟩
        intro x hx
        exact hlt.trans_le (hmono b x ((pairwise_cons.mp hl).1 x hx))
      rw [destutter'_cons_pos l hf, mem_cons, ih hl, mem_cons (b := a), forall_mem_cons (a := a)]
      constructor
      · rintro (rfl | ⟨hmem, hleast⟩)
        · exact ⟨.inl rfl, fun _ => le_rfl, fun y hy _ => ha y hy⟩
        · exact ⟨.inr hmem, fun heq => absurd heq (hlt x hmem).ne, hleast⟩
      · rintro ⟨hmem, -, hleast⟩
        exact hmem.imp_right fun hmem => ⟨hmem, hleast⟩

/-- **The elements that are kept.** -/
theorem mem_destutter_iff (hk : Injective k) (hmono : ∀ a b, k a ≤ k b → f a ≤ f b)
    {l : List α} (hsorted : l.Pairwise fun a b => k a ≤ k b) {x : α} :
    x ∈ l.destutter (fun a b => f a ≠ f b) ↔ x ∈ l ∧ ∀ y ∈ l, f y = f x → k x ≤ k y := by
  cases l with
  | nil => simp
  | cons a l => exact mem_destutter'_iff hk hmono hsorted

theorem pairwise_destutter (hmono : ∀ a b, k a ≤ k b → f a ≤ f b) {l : List α}
    (hsorted : l.Pairwise fun a b => k a ≤ k b) :
    (l.destutter fun a b => f a ≠ f b).Pairwise fun a b => f a < f b := by
  have hchain := isChain_destutter (fun a b : α => f a ≠ f b) l
  have hle : (l.destutter fun a b => f a ≠ f b).Pairwise fun a b => f a ≤ f b :=
    (hsorted.sublist (destutter_sublist _ l)).imp fun h => hmono _ _ h
  have hlt : (l.destutter fun a b => f a ≠ f b).IsChain fun a b => f a < f b := by
    rw [isChain_iff_getElem] at hchain ⊢
    intro i hi
    exact lt_of_le_of_ne (pairwise_iff_getElem.mp hle i (i + 1) (by omega) hi (by omega))
      (hchain i hi)
  exact hlt.pairwise

end HotTLBApps.SortedUnique
