import HotTLBApps.Libsvm.SolverStep

/-!
# The result of the SMO solver

The problem in the order of the caller, without active sets, permutations or cached
gradients, and what `Solve` does about it: every iterate is feasible with the gradients it
claims to have, `Solve` returns, and when it leaves its loop by the `break` no pair of all
the variables violates optimality by `eps`.
-/

namespace HotTLBApps.Libsvm

open ArrayLoops

variable {K : Type*} [Field K] [LinearOrder K] {l : Nat}

namespace Problem

/-- The upper bound of a variable. -/
def C (P : Problem K l) (t : Fin l) : K :=
  if P.y t = .plus then P.Cp else P.Cn

/-- The gradient of the objective. -/
def gradient (P : Problem K l) (a : Fin l → K) (t : Fin l) : K :=
  ∑ u, P.Q t u * a u + P.p t

/-- `½ αᵀQα + pᵀα`. -/
def objective (P : Problem K l) (a : Fin l → K) : K :=
  (∑ t, ∑ u, a t * P.Q t u * a u) / 2 + ∑ t, P.p t * a t

/-- The constraints, with the value of `yᵀα` that the start has. -/
structure Feasible (P : Problem K l) (a : Fin l → K) : Prop where
  nonneg : ∀ t, 0 ≤ a t
  le : ∀ t, a t ≤ P.C t
  balance : ∑ t, (P.y t).val * a t = ∑ t, (P.y t).val * P.alpha t

/-- The variables that can move up along `y`. -/
def Up (P : Problem K l) (a : Fin l → K) (t : Fin l) : Prop :=
  (P.y t = .plus ∧ a t < P.C t) ∨ (P.y t = .minus ∧ 0 < a t)

/-- The variables that can move down along `y`. -/
def Low (P : Problem K l) (a : Fin l → K) (t : Fin l) : Prop :=
  (P.y t = .plus ∧ 0 < a t) ∨ (P.y t = .minus ∧ a t < P.C t)

/-- The gap of every pair of variables that can move against each other is below `eps`, so
that of the maximal violating pair is. -/
def GapBelow (P : Problem K l) (a : Fin l → K) : Prop :=
  ∀ t u, P.Up a t → P.Low a u →
    -((P.y t).val * P.gradient a t) + (P.y u).val * P.gradient a u < P.eps

end Problem

namespace Solver

/-- What an iterate keeps, in the order of the caller. -/
structure Kept (P : Problem K l) (s : Solver K l) : Prop where
  order : Function.Bijective s.activeSet
  alpha_eq : ∀ t, s.alpha t = s.putBack P (s.activeSet t)
  feasible : P.Feasible (s.putBack P)
  gradient_eq : ∀ t, t.val < s.activeSize →
    s.G t = P.gradient (s.putBack P) (s.activeSet t)
  gBar_eq : ∀ t, s.GBar t =
    ∑ u, if P.C u ≤ s.putBack P u then P.C u * P.Q (s.activeSet t) u else 0

section

variable {P : Problem K l} {s : Solver K l}

section

variable (h : s.Consistent P)
include h

theorem Consistent.putBack_activeSet (t : Fin l) : s.putBack P (s.activeSet t) = s.alpha t :=
  foldl_scatter s.activeSet s.alpha P.alpha (fun _ _ heq => h.bijective.injective heq)
    (mem_span.mpr ⟨Nat.zero_le _, t.isLt⟩)

theorem Consistent.getC_eq (t : Fin l) : s.getC P t = P.C (s.activeSet t) := by
  rw [getC, Problem.C, h.y_eq]

theorem Consistent.feasible : P.Feasible (s.putBack P) where
  nonneg := by
    intro u
    obtain ⟨t, rfl⟩ := h.bijective.surjective u
    rw [h.putBack_activeSet]
    exact h.alpha_nonneg t
  le := by
    intro u
    obtain ⟨t, rfl⟩ := h.bijective.surjective u
    rw [h.putBack_activeSet, ← h.getC_eq]
    exact h.alpha_le t
  balance := by
    rw [← h.balance, ← h.bijective.sum_comp fun u => (P.y u).val * s.putBack P u]
    refine Finset.sum_congr rfl fun t _ => ?_
    rw [h.putBack_activeSet, h.y_eq]

theorem Consistent.kept : s.Kept P where
  order := h.bijective
  alpha_eq := fun t => (h.putBack_activeSet t).symm
  feasible := h.feasible
  gradient_eq := by
    intro t ht
    rw [h.gradient_eq t ht, Problem.gradient, h.p_eq,
      ← h.bijective.sum_comp fun u => P.Q (s.activeSet t) u * s.putBack P u]
    refine congrArg (· + _) (Finset.sum_congr rfl fun u _ => ?_)
    rw [h.putBack_activeSet, h.Q_eq]
  gBar_eq := by
    intro t
    rw [h.gBar_eq, ← h.bijective.sum_comp fun u =>
      if P.C u ≤ s.putBack P u then P.C u * P.Q (s.activeSet t) u else 0]
    refine Finset.sum_congr rfl fun u _ => ?_
    rw [h.putBack_activeSet, ← h.getC_eq, ← h.Q_eq]
    exact if_congr (h.isUpperBound_iff u) rfl rfl

theorem Consistent.canRise_of_up {t : Fin l}
    (ht : P.Up (s.putBack P) (s.activeSet t)) : s.canRise t := by
  rw [Problem.Up, h.putBack_activeSet, ← h.getC_eq, ← h.y_eq] at ht
  unfold canRise
  obtain ⟨hy, hlt⟩ | ⟨hy, hpos⟩ := ht
  · rw [hy]
    exact mt (h.isUpperBound_iff t).mp (not_le_of_gt hlt)
  · rw [hy]
    exact mt (h.isLowerBound_iff t).mp (not_le_of_gt hpos)

theorem Consistent.canFall_of_low {t : Fin l}
    (ht : P.Low (s.putBack P) (s.activeSet t)) : s.canFall t := by
  rw [Problem.Low, h.putBack_activeSet, ← h.getC_eq, ← h.y_eq] at ht
  unfold canFall
  obtain ⟨hy, hpos⟩ | ⟨hy, hlt⟩ := ht
  · rw [hy]
    exact mt (h.isLowerBound_iff t).mp (not_le_of_gt hpos)
  · rw [hy]
    exact mt (h.isUpperBound_iff t).mp (not_le_of_gt hlt)

end

omit [LinearOrder K] in
theorem yG_eq (s : Solver K l) (t : Fin l) : s.yG t = (s.y t).val * s.G t := by
  unfold yG
  cases hy : s.y t <;> simp [Label.val]

/-- The objective that is reported, when every variable is active. -/
theorem Consistent.objective_eq [IsStrictOrderedRing K] (h : s.Consistent P)
    (hall : s.activeSize = l) : s.objective = P.objective (s.putBack P) := by
  have hsum : (span l 0 l).foldl (fun v i => v + s.alpha i * (s.G i + s.p i)) 0 =
      ∑ i, s.alpha i * (s.G i + s.p i) := by
    have hfold := foldl_add (fun _ : Fin l => True) (fun i => s.alpha i * (s.G i + s.p i))
      (nodup_span (l := l) 0 l) 0
    simpa [mem_span] using hfold
  have hterm : ∀ i, s.alpha i * (s.G i + s.p i) =
      (∑ u, s.putBack P (s.activeSet i) * P.Q (s.activeSet i) u * s.putBack P u) +
        2 * (P.p (s.activeSet i) * s.putBack P (s.activeSet i)) := by
    intro i
    rw [h.kept.gradient_eq i (by rw [hall]; exact i.isLt), Problem.gradient, h.p_eq,
      h.putBack_activeSet]
    simp only [mul_assoc, ← Finset.mul_sum]
    ring
  have hreorder := h.bijective.sum_comp fun t =>
    (∑ u, s.putBack P t * P.Q t u * s.putBack P u) + 2 * (P.p t * s.putBack P t)
  rw [objective, hsum, Finset.sum_congr rfl fun i _ => hterm i, hreorder,
    Finset.sum_add_distrib, ← Finset.mul_sum, add_div, mul_div_cancel_left₀ _ two_ne_zero]
  rfl

variable [IsStrictOrderedRing K]

/-- What the end of a turn has to be. -/
def Iteration.Sound (P : Problem K l) : Iteration K l → Prop
  | .next s _ => s.Consistent P
  | .leave s => s.Consistent P ∧ s.activeSize = l ∧ s.selectWorkingSet P = .optimal
  | .fault => False

theorem Consistent.work (h : s.Consistent P) {a b : Option (Fin l)}
    (hpair : s.selectWorkingSet P = .pair a b)
    (counter : Int) : (s.work P counter a b).Sound P := by
  obtain ⟨i, j, rfl, rfl, hij, hi, hj⟩ := selectWorkingSet_pair hpair
  exact h.updatePair hij hi hj

/-- **One turn of the loop.** -/
theorem Consistent.iteration (h : s.Consistent P)
    (counter : Int) : (s.iteration P counter).Sound P := by
  have hshrunk := h.shrinkIfDue counter
  unfold Solver.iteration
  split
  next hpair => exact hshrunk.work hpair _
  next =>
    split
    next hoptimal => exact ⟨hshrunk.unshrinkAll, rfl, hoptimal⟩
    next hpair => exact hshrunk.unshrinkAll.work hpair _

/-- One turn leads to another. -/
def Turn (P : Problem K l) (a b : Solver K l × Int) : Prop :=
  a.1.iteration P a.2 = .next b.1 b.2

/-- The states of `Solve` at the head of its loop. -/
def Iterate (P : Problem K l) (s : Solver K l) : Prop :=
  ∃ counter, Relation.ReflTransGen (Turn P) (initial P, min (l : Int) 1000 + 1) (s, counter)

theorem Iterate.consistent (hs : Iterate P s) : s.Consistent P := by
  obtain ⟨counter, hturns⟩ := hs
  have hall : ∀ b : Solver K l × Int,
      Relation.ReflTransGen (Turn P) (initial P, min (l : Int) 1000 + 1) b → b.1.Consistent P := by
    intro b hturns
    induction hturns with
    | refl => exact Consistent.initial P
    | @tail b _ _ hturn ih =>
      have hsound := ih.iteration b.2
      rw [hturn] at hsound
      exact hsound
  exact hall _ hturns

/-- **The loop of `Solve` ends without an access out of bounds.** -/
theorem Consistent.solveLoop (h : s.Consistent P) (n : Nat) (counter : Int) :
    ∃ s' exit, solveLoop P n s counter = some (s', exit) ∧ s'.Consistent P ∧
      (exit = .converged → s'.activeSize = l ∧ s'.selectWorkingSet P = .optimal) := by
  induction n generalizing s counter with
  | zero => exact ⟨s, .maxIter, rfl, h, nofun⟩
  | succ n ih =>
    have hsound := h.iteration counter
    unfold Solver.solveLoop
    cases hturn : s.iteration P counter with
    | next s' counter' =>
      rw [hturn] at hsound
      exact ih hsound counter'
    | leave s' =>
      rw [hturn] at hsound
      exact ⟨s', .converged, rfl, hsound.1, fun _ => hsound.2⟩
    | fault =>
      rw [hturn] at hsound
      exact hsound.elim

omit [IsStrictOrderedRing K] in
/-- Before the objective is computed every variable is active. -/
theorem Consistent.finish (h : s.Consistent P) {exit : Exit}
    (hexit : exit = .converged → s.activeSize = l) :
    (s.finish exit).Consistent P ∧ (s.finish exit).activeSize = l := by
  cases exit with
  | converged => exact ⟨h, hexit rfl⟩
  | maxIter =>
    change Consistent P (if s.activeSize < l then s.unshrinkAll else s) ∧
      (if s.activeSize < l then s.unshrinkAll else s).activeSize = l
    split_ifs with hlt
    · exact ⟨h.unshrinkAll, rfl⟩
    · exact ⟨h, Nat.le_antisymm s.activeSize_le (Nat.le_of_not_lt hlt)⟩

/-- The stopping test over all variables, in the order of the caller. -/
theorem Consistent.gapBelow (h : s.Consistent P) (hall : s.activeSize = l)
    (hoptimal : s.selectWorkingSet P = .optimal) : P.GapBelow (s.putBack P) := by
  intro t' u' ht' hu'
  obtain ⟨t, rfl⟩ := h.bijective.surjective t'
  obtain ⟨u, rfl⟩ := h.bijective.surjective u'
  have ht : t.val < s.activeSize := by rw [hall]; exact t.isLt
  have hu : u.val < s.activeSize := by rw [hall]; exact u.isLt
  have hgap := selectWorkingSet_optimal hoptimal ht hu (h.canRise_of_up ht') (h.canFall_of_low hu')
  rw [yG_eq, yG_eq, h.kept.gradient_eq t ht, h.kept.gradient_eq u hu, h.y_eq, h.y_eq] at hgap
  exact hgap

end

/-- **The SMO solver.**  Every iterate keeps its conditions; `Solve` returns a feasible point
with its objective value; and after the `break` the maximal violating pair of all variables
is below `eps`. -/
theorem solve_spec
    [IsStrictOrderedRing K]
    (P : Problem K l) : (∀ s, Iterate P s → s.Kept P) ∧
      ∃ r, solve P = some r ∧ P.Feasible r.alpha ∧ r.obj = P.objective r.alpha ∧
        (r.exit = .converged → P.GapBelow r.alpha) := by
  refine ⟨fun s hs => hs.consistent.kept, ?_⟩
  obtain ⟨s, exit, hloop, hs, hexit⟩ :=
    (Consistent.initial P).solveLoop (maxIter l) (min (l : Int) 1000 + 1)
  obtain ⟨hfinish, hall⟩ := hs.finish fun h => (hexit h).1
  refine ⟨_, by rw [solve, hloop]; rfl, hfinish.feasible, hfinish.objective_eq hall, ?_⟩
  rintro rfl
  exact hs.gapBelow (hexit rfl).1 (hexit rfl).2

/-- Two points with opposite labels, from zero. -/
def twoPoints : Problem ℚ 2 where
  Q := fun t u => if t = u then 1 else -1 / 2
  p := fun _ => -1
  y := fun t => if t = 0 then .plus else .minus
  alpha := fun _ => 0
  Cp := 1
  Cn := 2
  eps := 1 / 1000
  shrinking := true
  symmetric := fun t u => by simp only [eq_comm]
  Cp_pos := by decide
  Cn_pos := by decide
  eps_pos := by norm_num
  alpha_nonneg := by decide
  alpha_le := by decide

theorem solve_spec_twoPoints : (∀ s, Iterate twoPoints s → s.Kept twoPoints) ∧
      ∃ r, solve twoPoints = some r ∧ twoPoints.Feasible r.alpha ∧
        r.obj = twoPoints.objective r.alpha ∧
        (r.exit = .converged → twoPoints.GapBelow r.alpha) :=
  solve_spec twoPoints

end Solver
end HotTLBApps.Libsvm
