import Mathlib.Algebra.BigOperators.Fin
import Mathlib.Tactic.Ring

/-!
# Counting loops over arrays of a fixed length

An array of length `l` is a function on `Fin l`, and `for (t = a; t < b; t++)` is a
fold over `span a b`.  The rules say what the usual bodies compute: an assignment to
every place of the range, a sum over the range, and a sum of rows.
-/

namespace HotTLBApps.ArrayLoops

open List Function

variable {l : Nat}

/-- The places from `a` up to, not including, `b`. -/
def span (l a b : Nat) : List (Fin l) :=
  (List.finRange l).filter fun t => a ≤ t.val ∧ t.val < b

theorem mem_span {a b : Nat} {t : Fin l} : t ∈ span l a b ↔ a ≤ t.val ∧ t.val < b := by
  simp [span]

theorem nodup_span (a b : Nat) : (span l a b).Nodup :=
  (nodup_finRange l).filter _

/-- An invariant that speaks about the elements already handled. -/
theorem foldl_invariant {α σ : Type*} {f : σ → α → σ} {I : List α → σ → Prop} {s : σ}
    (hnil : I [] s) (hstep : ∀ done x s, I done s → I (done ++ [x]) (f s x))
    (xs : List α) : I xs (xs.foldl f s) := by
  induction xs using reverseRecOn with
  | nil => exact hnil
  | append_singleton xs x ih =>
    rw [foldl_append]
    exact hstep xs x _ ih

theorem foldl_prodMk {α β ι : Type*} (f : α → ι → α) (g : β → ι → β) (xs : List ι) (a : α) (b : β) :
    xs.foldl (fun s i => (f s.1 i, g s.2 i)) (a, b) = (xs.foldl f a, xs.foldl g b) := by
  induction xs generalizing a b with
  | nil => rfl
  | cons x xs ih => exact ih _ _

variable {K ι : Type*}

/-- A loop that assigns to every place of its range. -/
theorem foldl_update [DecidableEq ι] (g : ι → K → K) {xs : List ι} (hxs : xs.Nodup) (f : ι → K)
    (t : ι) :
    xs.foldl (fun f i => update f i (g i (f i))) f t = if t ∈ xs then g t (f t) else f t := by
  induction xs generalizing f with
  | nil => rfl
  | cons x xs ih =>
    obtain ⟨hx, hxs⟩ := nodup_cons.mp hxs
    rw [foldl_cons, ih hxs]
    by_cases htx : t = x
    · subst htx
      simp [hx]
    · simp [htx]

/-- A loop that copies an array through an index that no other place has. -/
theorem foldl_scatter {κ : Type*} [DecidableEq κ] (e : ι → κ) (a : ι → K) (f : κ → K) {xs : List ι}
    {t : ι} (he : ∀ x ∈ xs, e x = e t → x = t) (ht : t ∈ xs) :
    xs.foldl (fun f i => update f (e i) (a i)) f (e t) = a t := by
  induction xs using reverseRecOn with
  | nil => cases ht
  | append_singleton xs x ih =>
    rw [foldl_append, foldl_cons, foldl_nil]
    by_cases htx : e t = e x
    · rw [htx, update_self, he x (by simp) htx.symm]
    · rw [update_of_ne htx]
      refine ih (fun y hy => he y (mem_append_left _ hy)) ?_
      exact (mem_append.mp ht).resolve_right fun hx => htx (congrArg e (mem_singleton.mp hx))

variable [CommRing K]

theorem foldl_add (p : Fin l → Prop) [DecidablePred p] (v : Fin l → K) {xs : List (Fin l)}
    (hxs : xs.Nodup) (a : K) : xs.foldl (fun a i => if p i then a + v i else a) a =
      a + ∑ i, if i ∈ xs ∧ p i then v i else 0 := by
  induction xs generalizing a with
  | nil => simp
  | cons x xs ih =>
    obtain ⟨hx, hxs⟩ := nodup_cons.mp hxs
    have hsplit : (∑ i, if i ∈ x :: xs ∧ p i then v i else 0) =
        (if p x then v x else 0) + ∑ i, if i ∈ xs ∧ p i then v i else 0 := by
      have hpoint : ∀ i, (if i ∈ x :: xs ∧ p i then v i else 0) =
          (if i = x then (if p x then v x else 0) else 0) + if i ∈ xs ∧ p i then v i else 0 := by
        intro i
        by_cases hix : i = x
        · subst hix
          simp [hx]
        · simp [hix]
      rw [Finset.sum_congr rfl fun i _ => hpoint i, Finset.sum_add_distrib]
      simp
    rw [foldl_cons, ih hxs, hsplit]
    split <;> ring

/-- A loop that adds the rows that pass a test, place by place. -/
theorem foldl_addRow (p : Fin l → Prop) [DecidablePred p] (w : Fin l → Fin l → K)
    {g : (Fin l → K) → Fin l → Fin l → K} {t : Fin l} (hg : ∀ f i, p i → g f i t = f t + w i t)
    {xs : List (Fin l)} (hxs : xs.Nodup) (f : Fin l → K) :
    xs.foldl (fun f i => if p i then g f i else f) f t =
      f t + ∑ i, if i ∈ xs ∧ p i then w i t else 0 := by
  rw [← foldl_add p (fun i => w i t) hxs (f t)]
  clear hxs
  induction xs generalizing f with
  | nil => rfl
  | cons x xs ih =>
    rw [foldl_cons, foldl_cons, ih]
    split_ifs with hpx
    · rw [hg f x hpx]
    · rfl

theorem sum_update (a : Fin l → K) (i : Fin l)
    (v : K) : ∑ u, update a i v u = (∑ u, a u) + (v - a i) := by
  rw [Finset.sum_update_of_mem (Finset.mem_univ i), ← Finset.add_sum_erase _ a (Finset.mem_univ i),
    Finset.sdiff_singleton_eq_erase]
  ring

theorem sum_mul_update_update (c a : Fin l → K) {i j : Fin l} (hij : i ≠ j) (v w : K) :
    ∑ u, c u * update (update a i v) j w u =
      (∑ u, c u * a u) + c i * (v - a i) + c j * (w - a j) := by
  have hmul : ∀ u, c u * update (update a i v) j w u =
      update (update (fun u => c u * a u) i (c i * v)) j (c j * w) u := by
    intro u
    by_cases huj : u = j
    · subst huj
      simp
    · by_cases hui : u = i
      · subst hui
        simp [huj]
      · simp [huj, hui]
  rw [Finset.sum_congr rfl fun u _ => hmul u, sum_update, sum_update, update_of_ne hij.symm]
  ring

end HotTLBApps.ArrayLoops
