import Mathlib.Data.List.Induction

/-!
# Runs of a machine

A machine makes a step when it is told who moves; `none` means that the step is not
possible.  A run is guarded when every step was made in a state that met a condition.

* `exists_runs`, `exists_runs_imp`: a run that is found by carrying out a list of moves;
* `update_cases`: what a table holds after one of its places was changed.
-/

namespace HotTLBApps

variable {σ ι : Type*}

theorem update_cases [DecidableEq ι] {f : ι → σ} {i j : ι} {x y : σ}
    (h : Function.update f i x j = y) : (j = i ∧ x = y) ∨ (j ≠ i ∧ f j = y) := by
  rw [Function.update_apply] at h
  split_ifs at h with hji
  · exact .inl ⟨hji, h⟩
  · exact .inr ⟨hji, h⟩

/-- The states that are reached from `s` by steps that meet the condition `ok`. -/
inductive Runs (step : σ → ι → Option σ) (ok : σ → ι → Prop) (s : σ) : σ → Prop
  | nil : Runs step ok s s
  | snoc {s₁ s₂ : σ} {i : ι}
      (hrun : Runs step ok s s₁)
      (hok : ok s₁ i)
      (hstep : step s₁ i = some s₂) : Runs step ok s s₂

variable {step : σ → ι → Option σ} {ok : σ → ι → Prop} {s s' : σ}

/-- **What every guarded step keeps** holds after every guarded run. -/
theorem Runs.invariant {I : σ → Prop} (hrun : Runs step ok s s') (hstart : I s)
    (hkeep : ∀ s₁ i s₂, I s₁ → ok s₁ i → step s₁ i = some s₂ → I s₂) : I s' := by
  induction hrun with
  | nil => exact hstart
  | snoc _ hok hstep ih => exact hkeep _ _ _ ih hok hstep

theorem Runs.mono {ok' : σ → ι → Prop} (hrun : Runs step ok s s')
    (h : ∀ s₁ i, ok s₁ i → ok' s₁ i) : Runs step ok' s s' := by
  induction hrun with
  | nil => exact Runs.nil
  | snoc _ hok hstep ih => exact ih.snoc (h _ _ hok) hstep

theorem runs_of_foldlM [∀ s i, Decidable (ok s i)] {is : List ι}
    (h : is.foldlM (fun s i => if ok s i then step s i else none) s = some s') :
    Runs step ok s s' := by
  induction is using List.reverseRecOn generalizing s' with
  | nil =>
    cases h
    exact Runs.nil
  | append_singleton is i ih =>
    rw [List.foldlM_append] at h
    obtain ⟨s₁, hs₁, hlast⟩ := Option.bind_eq_some_iff.mp h
    rw [List.foldlM_cons] at hlast
    obtain ⟨s₂, hs₂, hnil⟩ := Option.bind_eq_some_iff.mp hlast
    cases hnil
    split_ifs at hs₂ with hok
    exact Runs.snoc (ih hs₁) hok hs₂

variable {P Q : σ → Prop} [DecidablePred P] [∀ s i, Decidable (ok s i)]

/-- A run in which a state with a property is reached can be found by calculation. -/
theorem exists_runs (is : List ι) (h : (is.foldlM (fun s i => if ok s i then step s i else none)
    s).any (fun s => decide (P s)) = true) : ∃ s', Runs step ok s s' ∧ P s' := by
  obtain ⟨s', hs', hp⟩ := (Option.any_eq_true _ _).mp h
  exact ⟨s', runs_of_foldlM hs', of_decide_eq_true hp⟩

/-- One part of the property is calculated, the rest is proved of the run. -/
theorem exists_runs_imp (is : List ι) (h : (is.foldlM (fun s i => if ok s i then step s i else none)
    s).any (fun s => decide (P s)) = true) (himp : ∀ s', Runs step ok s s' → P s' → Q s') :
    ∃ s', Runs step ok s s' ∧ Q s' := by
  obtain ⟨s', hrun, hs'⟩ := exists_runs is h
  exact ⟨s', hrun, himp s' hrun hs'⟩

end HotTLBApps
