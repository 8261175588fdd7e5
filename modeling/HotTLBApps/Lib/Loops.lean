import Mathlib.Data.List.Basic
import Mathlib.Data.List.Induction

/-!
# Loops with a result

A loop over a list and a loop with a condition, in `Option`: `none` is a body that
fails or, for the second, fuel that does not suffice.  The rules are for total
correctness: they conclude that the loop has a result.

* `foldlM_zipIdx_total`, `foldlM_done_total`: an invariant that speaks about the elements that
  are done;
* `foldlM_range`, `mapM_range`: loops over the places of a list.
-/

namespace HotTLBApps.Loops

open List

variable {σ : Type*}

/-- A loop with a condition. -/
def whileM (cond : σ → Prop) [DecidablePred cond] (body : σ → Option σ) : Nat → σ → Option σ
  | fuel, s =>
      if cond s then
        match fuel with
        | 0 => none
        | fuel + 1 => (body s).bind (whileM cond body fuel)
      else
        some s

variable {α : Type*} {f : σ → α → Option σ} {I : List α → σ → Prop}

/-- **A loop over a list** has a result that satisfies the invariant. -/
theorem foldlM_total (hstep : ∀ x xs s, I (x :: xs) s → ∃ s', f s x = some s' ∧ I xs s')
    {xs : List α} {s : σ} (h : I xs s) : ∃ s', xs.foldlM f s = some s' ∧ I [] s' := by
  induction xs generalizing s with
  | nil => exact ⟨s, rfl, h⟩
  | cons x xs ih =>
    obtain ⟨s₁, hf, h₁⟩ := hstep x xs s h
    obtain ⟨s', hfold, h'⟩ := ih h₁
    refine ⟨s', ?_, h'⟩
    rw [foldlM_cons, hf]
    exact hfold

/-- **A loop over a list with its places**; the invariant speaks about the elements that are
done. -/
theorem foldlM_zipIdx_total {f : σ → α × Nat → Option σ} {xs : List α}
    (hstep : ∀ done x rest s, done ++ x :: rest = xs → I done s →
      ∃ s', f s (x, done.length) = some s' ∧ I (done ++ [x]) s') {s : σ} (h : I [] s) :
    ∃ s', xs.zipIdx.foldlM f s = some s' ∧ I xs s' := by
  have hall : ∃ s', xs.zipIdx.foldlM f s = some s' ∧
      ∃ done rest, done ++ rest = xs ∧ [] = rest.zipIdx done.length ∧ I done s' := by
    refine foldlM_total
      (I := fun todo s => ∃ done rest, done ++ rest = xs ∧ todo = rest.zipIdx done.length ∧ I done s)
      ?_ ⟨[], xs, rfl, rfl, h⟩
    rintro e todo s ⟨done, rest, hxs, htodo, hI⟩
    cases rest with
    | nil => cases htodo
    | cons x rest =>
      rw [zipIdx_cons] at htodo
      cases htodo
      obtain ⟨s', hf, hI'⟩ := hstep done x rest s hxs hI
      refine ⟨s', hf, done ++ [x], rest, ?_, ?_, hI'⟩
      · rw [← hxs, append_assoc]
        rfl
      · rw [length_append, length_singleton]
  obtain ⟨s', hfold, done, rest, hxs, hnil, hI⟩ := hall
  rw [eq_comm, zipIdx_eq_nil_iff] at hnil
  rw [hnil, append_nil] at hxs
  exact ⟨s', hfold, hxs ▸ hI⟩

/-- **A loop over a list**; the invariant speaks about the elements that are done. -/
theorem foldlM_done_total {xs : List α}
    (hstep : ∀ done x rest s, done ++ x :: rest = xs → I done s →
      ∃ s', f s x = some s' ∧ I (done ++ [x]) s') {s : σ} (h : I [] s) :
    ∃ s', xs.foldlM f s = some s' ∧ I xs s' := by
  obtain ⟨s', hfold, hI⟩ := foldlM_zipIdx_total (f := fun s e => f s e.1) hstep h
  refine ⟨s', hfold ▸ ?_, hI⟩
  have hfst := zipIdx_map_fst 0 xs
  nth_rewrite 1 [← hfst]
  rw [foldlM_map]

/-- **A loop with a condition** has a result when there is fuel for the measure. -/
theorem whileM_total {p : σ → Prop} [DecidablePred p] {f : σ → Option σ} {I : σ → Prop}
    {m : σ → Nat} (hbody : ∀ s, I s → p s → ∃ s', f s = some s' ∧ I s' ∧ m s' < m s) {fuel : Nat}
    {s : σ} (h : I s) (hfuel : m s ≤ fuel) : ∃ s', whileM p f fuel s = some s' ∧ I s' ∧ ¬ p s' := by
  induction fuel generalizing s with
  | zero =>
    by_cases hcond : p s
    · obtain ⟨s', -, -, hlt⟩ := hbody s h hcond
      omega
    · exact ⟨s, by rw [whileM, if_neg hcond], h, hcond⟩
  | succ fuel ih =>
    by_cases hcond : p s
    · obtain ⟨s₁, hbody₁, h₁, hlt⟩ := hbody s h hcond
      obtain ⟨s', hloop, h', hdone⟩ := ih h₁ (by omega)
      refine ⟨s', ?_, h', hdone⟩
      rw [whileM, if_pos hcond, hbody₁]
      exact hloop
    · exact ⟨s, by rw [whileM, if_neg hcond], h, hcond⟩

/-- **A counting loop** has a result that satisfies the invariant for the last count. -/
theorem foldlM_range_total {f : σ → Nat → Option σ} {I : Nat → σ → Prop} {n : Nat}
    (hstep : ∀ k < n, ∀ s, I k s → ∃ s', f s k = some s' ∧ I (k + 1) s') {s : σ}
    (h : I 0 s) : ∃ s', (range n).foldlM f s = some s' ∧ I n s' := by
  induction n with
  | zero => exact ⟨s, rfl, h⟩
  | succ n ih =>
    obtain ⟨s₁, hfold, h₁⟩ := ih fun k hk => hstep k (Nat.lt_succ_of_lt hk)
    obtain ⟨s', hf, h'⟩ := hstep n (Nat.lt_succ_self n) s₁ h₁
    refine ⟨s', ?_, h'⟩
    rw [range_succ, foldlM_append, hfold]
    simp [hf]

/-- A map with a result for every element; the results keep a property. -/
theorem mapM_total {α β : Type} {f : α → Option β} {p : β → Prop} {xs : List α}
    (h : ∀ x ∈ xs, ∃ y, f x = some y ∧ p y) : ∃ ys, xs.mapM f = some ys ∧ ys.length = xs.length ∧
      (∀ x ∈ xs, ∃ y ∈ ys, f x = some y) ∧ ∀ y ∈ ys, p y := by
  induction xs with
  | nil => exact ⟨[], rfl, rfl, nofun, nofun⟩
  | cons x xs ih =>
    obtain ⟨y, hy, hp⟩ := h x mem_cons_self
    obtain ⟨ys, hys, hlen, hmem, hall⟩ := ih fun z hz => h z (mem_cons_of_mem x hz)
    refine ⟨y :: ys, ?_, congrArg Nat.succ hlen, ?_, forall_mem_cons.mpr ⟨hp, hall⟩⟩
    · rw [mapM_cons, hy, hys]
      rfl
    · intro z hz
      obtain rfl | hz := mem_cons.mp hz
      · exact ⟨y, mem_cons_self, hy⟩
      · obtain ⟨w, hw, hzw⟩ := hmem z hz
        exact ⟨w, mem_cons_of_mem y hw, hzw⟩

theorem foldlM_range {l : List α} {g : σ → Nat → Option σ}
    (h : ∀ s k (hk : k < l.length), g s k = f s l[k])
    (s : σ) : (range l.length).foldlM g s = l.foldlM f s := by
  induction l using reverseRecOn generalizing s with
  | nil => rfl
  | append_singleton l a ih =>
    have hinit : (range l.length).foldlM g s = l.foldlM f s := by
      refine ih (fun s k hk => ?_) s
      rw [h s k (by rw [length_append]; omega), getElem_append_left hk]
    have hlast : ∀ s, g s l.length = f s a := by
      intro s
      rw [h s l.length (by simp), getElem_append_right (Nat.le_refl _)]
      simp
    rw [length_append, length_singleton, range_succ, foldlM_append, foldlM_append, hinit]
    simp only [foldlM_cons, foldlM_nil, hlast]

theorem mapM_range {l : List α} {g : Nat → Option α}
    (h : ∀ k (hk : k < l.length), g k = some l[k]) : (range l.length).mapM g = some l := by
  induction l using reverseRecOn with
  | nil => rfl
  | append_singleton l a ih =>
    have hinit : (range l.length).mapM g = some l := by
      refine ih fun k hk => ?_
      rw [h k (by rw [length_append]; omega), getElem_append_left hk]
    have hlast : g l.length = some a := by
      rw [h l.length (by simp), getElem_append_right (Nat.le_refl _)]
      simp
    rw [length_append, length_singleton, range_succ, mapM_append, hinit]
    simp [hlast]

theorem mapM_range_eq {n : Nat} {f : Nat → α} {g : Nat → Option α}
    (h : ∀ k < n, g k = some (f k)) : (range n).mapM g = some ((range n).map f) := by
  have hmap := mapM_range (l := (range n).map f) (g := g) fun k hk => by
    rw [length_map, length_range] at hk
    rw [h k hk, getElem_map, getElem_range]
  rwa [length_map, length_range] at hmap

end HotTLBApps.Loops
