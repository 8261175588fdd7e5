import Mathlib.Tactic

/-!
# Parent-pointer forests

A function that sends every element of a well-ordered type to itself or to a smaller
one is a forest: following it ends at a root.  Two updates are studied, which are
those of union-find algorithms:

* a root is hooked to a smaller element: two trees become one (`root_hook`);
* an element is moved to a smaller element of its tree: no root changes
  (`root_compress`).
-/

namespace HotTLBApps.Forest

open Function

universe u

variable {V : Type u} [LinearOrder V]

/-- No parent is greater than its child. -/
def Descending (parent : V → V) : Prop :=
  ∀ x, parent x ≤ x

/-- The end of the chain of parents. -/
def root [WellFoundedLT V] (parent : V → V) (x : V) : V :=
  if parent x < x then root parent (parent x) else x
termination_by WellFounded.wrap (wellFounded_lt : WellFounded ((· < ·) : V → V → Prop)) x

variable [WellFoundedLT V] {parent : V → V}

theorem root_of_lt {x : V} (h : parent x < x) : root parent x = root parent (parent x) := by
  rw [root, if_pos h]

theorem root_of_not_lt {x : V} (h : ¬ parent x < x) : root parent x = x := by
  rw [root, if_neg h]

theorem root_of_fixed {x : V} (h : parent x = x) : root parent x = x := by
  apply root_of_not_lt
  rw [h]
  exact lt_irrefl x

theorem root_le (x : V) : root parent x ≤ x := by
  fun_induction root parent x with
  | case1 x hx ih => exact ih.trans hx.le
  | case2 => exact le_rfl

theorem root_parent (h : Descending parent) (x : V) : root parent (parent x) = root parent x := by
  obtain hlt | heq := (h x).lt_or_eq
  · rw [root_of_lt hlt]
  · rw [heq]

theorem parent_root (h : Descending parent) (x : V) : parent (root parent x) = root parent x := by
  fun_induction root parent x with
  | case1 x hx ih => exact ih
  | case2 x hx => exact le_antisymm (h x) (not_lt.mp hx)

section Hook

variable {high low : V}

omit [WellFoundedLT V] in
theorem descending_update (h : Descending parent) (hlow : low ≤ high) :
    Descending (update parent high low) :=
  (forall_update_iff parent fun x p => p ≤ x).mpr ⟨hlow, fun x _ => h x⟩

section

variable (hroot : parent high = high) (hlow : low < high)
include hroot hlow

/-- **Hooking a root joins its tree to another one.** -/
theorem root_hook (x : V) : root (update parent high low) x =
      if root parent x = high then root parent low else root parent x := by
  induction x using WellFoundedLT.induction with
  | ind x ih =>
    by_cases hx : x = high
    · subst hx
      have hne : root parent low ≠ x := ((root_le low).trans_lt hlow).ne
      rw [root_of_lt (by rwa [update_self]), update_self, ih low hlow,
        if_neg hne, root_of_fixed hroot, if_pos rfl]
    · have hsame : update parent high low x = parent x := update_of_ne hx _ _
      by_cases hlt : parent x < x
      · rw [root_of_lt (by rwa [hsame]), hsame, ih (parent x) hlt, root_of_lt hlt]
      · rw [root_of_not_lt (by rwa [hsame]), root_of_not_lt hlt, if_neg hx]

theorem root_hook_join :
    root (update parent high low) high = root (update parent high low) low := by
  have hne : root parent low ≠ high := ((root_le low).trans_lt hlow).ne
  rw [root_hook hroot hlow, root_hook hroot hlow, root_of_fixed hroot, if_pos rfl, if_neg hne]

end

end Hook

variable {x y : V}

/-- **Moving an element inside its tree changes no root.** -/
theorem root_compress (hlt : y < x) (hroot : root parent y = root parent x) (z : V) :
    root (update parent x y) z = root parent z := by
  induction z using WellFoundedLT.induction with
  | ind z ih =>
    by_cases hz : z = x
    · subst hz
      rw [root_of_lt (by rwa [update_self]), update_self, ih y hlt, hroot]
    · have hsame : update parent x y z = parent z := update_of_ne hz _ _
      by_cases hless : parent z < z
      · rw [root_of_lt (by rwa [hsame]), hsame, ih (parent z) hless, root_of_lt hless]
      · rw [root_of_not_lt (by rwa [hsame]), root_of_not_lt hless]

variable {R : V → V → Prop}

theorem eqvGen_root (h : ∀ x, Relation.EqvGen R x (parent x)) (x : V) :
    Relation.EqvGen R x (root parent x) := by
  fun_induction root parent x with
  | case1 x hx ih => exact (h x).trans _ _ _ ih
  | case2 x => exact Relation.EqvGen.refl x

theorem eqvGen_of_root_eq (h : ∀ x, Relation.EqvGen R x (parent x))
    (hxy : root parent x = root parent y) : Relation.EqvGen R x y := by
  have hy := eqvGen_root h y
  rw [← hxy] at hy
  exact (eqvGen_root h x).trans _ _ _ (hy.symm _ _)

theorem root_eq_of_eqvGen (h : ∀ x y, R x y → root parent x = root parent y)
    (hxy : Relation.EqvGen R x y) : root parent x = root parent y := by
  exact congrArg (Quot.lift (root parent) h) (Quot.eqvGen_sound hxy)

/-- **Two elements are in one tree exactly if following the parents connects
them.** -/
theorem root_eq_iff (h : Descending parent) :
    root parent x = root parent y ↔ Relation.EqvGen (fun a b => parent a = b) x y := by
  constructor
  · exact eqvGen_of_root_eq fun x => Relation.EqvGen.rel _ _ rfl
  · apply root_eq_of_eqvGen
    rintro x _ rfl
    exact (root_parent h x).symm

end HotTLBApps.Forest
