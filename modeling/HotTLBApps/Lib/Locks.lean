import Mathlib.Data.Fintype.Basic

/-!
# Locks and the places of threads

Threads run code in which locks are taken and released at fixed places, so that the places
where a thread holds a lock tell who holds it.  A lock is given by a test on places.

* `Free`: no thread is at a place where it holds the lock;
* `Exclusive.update`: a lock that is taken only when it is free is never held twice.
-/

namespace HotTLBApps.Locks

open Function

variable {ι P : Type*} [DecidableEq ι] {holds : P → Bool} {pc : ι → P}

/-- Nobody holds the lock. -/
def Free (holds : P → Bool) (pc : ι → P) : Prop :=
  ∀ j, holds (pc j) = false

instance [Fintype ι] (holds : P → Bool) (pc : ι → P) : Decidable (Free holds pc) :=
  inferInstanceAs (Decidable (∀ j, holds (pc j) = false))

omit [DecidableEq ι] in
theorem exists_of_not_free (h : ¬ Free holds pc) : ∃ j, holds (pc j) = true := by
  by_contra hnone
  refine h fun j => ?_
  cases hj : holds (pc j) with
  | false => rfl
  | true => exact absurd ⟨j, hj⟩ hnone

/-- At most one thread holds the lock. -/
def Exclusive (holds : P → Bool) (pc : ι → P) : Prop :=
  ∀ i j, holds (pc i) = true → holds (pc j) = true → i = j

omit [DecidableEq ι] in
theorem Free.exclusive (h : Free holds pc) : Exclusive holds pc := by
  intro i j hi
  rw [h i] at hi
  cases hi

/-- **A thread moves**: it does not take the lock, or the lock is free. -/
theorem Exclusive.update (h : Exclusive holds pc) {i : ι} {p : P}
    (hmove : holds p = true → holds (pc i) = true ∨ Free holds pc) :
    Exclusive holds (update pc i p) := by
  -- another holder after the move was one before it
  have hother : ∀ j, j ≠ i → holds p = true → holds (pc j) = true → False := by
    intro j hne hp hj
    obtain hi | hfree := hmove hp
    · exact hne (h j i hj hi)
    · rw [hfree j] at hj
      cases hj
  intro j k hj hk
  by_cases hji : j = i <;> by_cases hki : k = i
  · rw [hji, hki]
  · rw [hji, update_self] at hj
    rw [update_of_ne hki] at hk
    exact (hother k hki hj hk).elim
  · rw [hki, update_self] at hk
    rw [update_of_ne hji] at hj
    exact (hother j hji hk hj).elim
  · rw [update_of_ne hji] at hj
    rw [update_of_ne hki] at hk
    exact h j k hj hk

end HotTLBApps.Locks
