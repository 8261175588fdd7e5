import HotTLBApps.Libsvm.Solver

/-!
# The gradient that the SMO solver keeps

`Consistent` is what holds between two turns of the solver: the arrays are those of the
problem in a permuted order, the variables are feasible with the statuses their values
give, `G` is the gradient on the active set, `G_bar` is the share of the variables at
their upper bound everywhere, and no variable outside the active set is free.
-/

namespace HotTLBApps.Libsvm
namespace Solver

open ArrayLoops List Function

variable {K : Type*} [Field K] {l : Nat}

theorem resetInactive_apply (s : Solver K l) (t : Fin l) :
    s.resetInactive t = if s.activeSize ≤ t.val then s.GBar t + s.p t else s.G t := by
  rw [resetInactive, foldl_update (fun j _ => s.GBar j + s.p j) (nodup_span _ _)]
  simp [mem_span, t.isLt]

theorem addByInactive_apply (s : Solver K l) (G : Fin l → K) (t : Fin l) : s.addByInactive G t =
      if s.activeSize ≤ t.val then
        G t + ∑ u, if u ∈ span l 0 s.activeSize ∧ s.isFree u then s.alpha u * s.Q t u else 0
      else G t := by
  -- the inner loop only changes the place of its row
  have hinner : ∀ (G : Fin l → K) (i : Fin l) (xs : List (Fin l)), xs.foldl
        (fun G j => if s.isFree j then update G i (G i + s.alpha j * s.Q i j) else G) G =
      update G i
        (xs.foldl (fun a j => if s.isFree j then a + s.alpha j * s.Q i j else a) (G i)) := by
    intro G i xs
    induction xs using reverseRecOn with
    | nil => simp
    | append_singleton xs x ih =>
      rw [foldl_append, foldl_append, ih]
      simp only [foldl_cons, foldl_nil]
      split <;> simp
  unfold addByInactive
  simp only [hinner]
  rw [foldl_update (fun i a => (span l 0 s.activeSize).foldl
      (fun a j => if s.isFree j then a + s.alpha j * s.Q i j else a) a) (nodup_span _ _)]
  simp only [foldl_add s.isFree (fun j => s.alpha j * s.Q t j) (nodup_span _ _), mem_span, t.isLt,
    and_true]

theorem addByFree_apply (s : Solver K l) (G : Fin l → K) (t : Fin l) : s.addByFree G t =
      if s.activeSize ≤ t.val then
        G t + ∑ u, if u ∈ span l 0 s.activeSize ∧ s.isFree u then s.alpha u * s.Q u t else 0
      else G t := by
  have hrow : ∀ (G : Fin l → K) (i : Fin l), s.isFree i → (span l s.activeSize l).foldl
          (fun G j => update G j (G j + s.alpha i * s.Q i j)) G t =
        G t + if s.activeSize ≤ t.val then s.alpha i * s.Q i t else 0 := by
    intro G i _
    rw [foldl_update (fun j a => a + s.alpha i * s.Q i j) (nodup_span _ _)]
    simp only [mem_span, t.isLt, and_true]
    split <;> simp
  rw [addByFree, foldl_addRow s.isFree
    (fun i t => if s.activeSize ≤ t.val then s.alpha i * s.Q i t else 0) hrow (nodup_span _ _)]
  by_cases ht : s.activeSize ≤ t.val
  · simp only [ht, if_true]
  · simp [ht]

theorem reconstructGradient_eq (s : Solver K l) :
    s.reconstructGradient = { s with G := s.reconstructGradient.G } := by
  unfold reconstructGradient
  split
  · rfl
  · split <;> rfl

variable [LinearOrder K]

/-- What holds of the object between two turns. -/
structure Consistent (P : Problem K l) (s : Solver K l) : Prop where
  bijective : Function.Bijective s.activeSet
  y_eq : ∀ t, s.y t = P.y (s.activeSet t)
  p_eq : ∀ t, s.p t = P.p (s.activeSet t)
  Q_eq : ∀ t u, s.Q t u = P.Q (s.activeSet t) (s.activeSet u)
  alpha_nonneg : ∀ t, 0 ≤ s.alpha t
  alpha_le : ∀ t, s.alpha t ≤ s.getC P t
  status_eq : ∀ t, s.alphaStatus t = statusOf (s.alpha t) (s.getC P t)
  balance : ∑ t, (s.y t).val * s.alpha t = ∑ t, (P.y t).val * P.alpha t
  gradient_eq : ∀ t, t.val < s.activeSize → s.G t = ∑ u, s.Q t u * s.alpha u + s.p t
  gBar_eq : ∀ t, s.GBar t = ∑ u, if s.isUpperBound u then s.getC P u * s.Q t u else 0
  not_free : ∀ t, s.activeSize ≤ t.val → ¬ s.isFree t

theorem statusOf_eq_upperBound {a c : K} : statusOf a c = .upperBound ↔ c ≤ a := by
  unfold statusOf
  split
  · simp_all
  · split <;> simp_all

theorem statusOf_eq_lowerBound {a c : K} : statusOf a c = .lowerBound ↔ a < c ∧ a ≤ 0 := by
  unfold statusOf
  split
  · simp_all
  · split <;> simp_all

variable {P : Problem K l} {s : Solver K l}

theorem getC_pos (P : Problem K l) (s : Solver K l) (t : Fin l) : 0 < s.getC P t := by
  unfold getC
  split
  · exact P.Cp_pos
  · exact P.Cn_pos

section

variable (h : s.Consistent P)
include h

variable (t : Fin l)

theorem Consistent.isUpperBound_iff : s.isUpperBound t ↔ s.getC P t ≤ s.alpha t := by
  rw [isUpperBound, h.status_eq, statusOf_eq_upperBound]

theorem Consistent.isLowerBound_iff : s.isLowerBound t ↔ s.alpha t ≤ 0 := by
  rw [isLowerBound, h.status_eq, statusOf_eq_lowerBound]
  exact ⟨fun h => h.2, fun h => ⟨lt_of_le_of_lt h (getC_pos P s t), h⟩⟩

/-- A variable at its upper bound, and one at its lower bound, has that value. -/
theorem Consistent.alpha_eq : s.alpha t =
      (if s.isUpperBound t then s.getC P t else 0) + if s.isFree t then s.alpha t else 0 := by
  cases hstatus : s.alphaStatus t with
  | lowerBound =>
    have hzero : s.alpha t = 0 := le_antisymm ((h.isLowerBound_iff t).mp hstatus) (h.alpha_nonneg t)
    simp [isUpperBound, isFree, hstatus, hzero]
  | upperBound =>
    have hfull : s.alpha t = s.getC P t :=
      le_antisymm (h.alpha_le t) ((h.isUpperBound_iff t).mp hstatus)
    simp [isUpperBound, isFree, hstatus, hfull]
  | free => simp [isUpperBound, isFree, hstatus]

theorem Consistent.symmetric (t u : Fin l) : s.Q t u = s.Q u t := by
  rw [h.Q_eq, h.Q_eq, P.symmetric]

/-- The gradient is `G_bar` and `p` with the share of the free variables. -/
theorem Consistent.sum_eq : ∑ u, s.Q t u * s.alpha u =
      s.GBar t + ∑ u, if u ∈ span l 0 s.activeSize ∧ s.isFree u then s.alpha u * s.Q t u else 0 := by
  rw [h.gBar_eq, ← Finset.sum_add_distrib]
  refine Finset.sum_congr rfl fun u _ => ?_
  -- a free variable is active, so the loops over the active set miss none
  have hactive : u ∈ span l 0 s.activeSize ∧ s.isFree u ↔ s.isFree u := by
    refine and_iff_right_of_imp fun hfree => mem_span.mpr ⟨Nat.zero_le _, ?_⟩
    exact Nat.lt_of_not_le fun hle => h.not_free u hle hfree
  simp only [hactive]
  conv_lhs => rw [h.alpha_eq u]
  split <;> split <;> ring

/-- **Both loops of `reconstruct_gradient` give the gradient of every variable.** -/
theorem Consistent.reconstructGradient_G
    : s.reconstructGradient.G t = ∑ u, s.Q t u * s.alpha u + s.p t := by
  unfold reconstructGradient
  split
  next hall => exact h.gradient_eq t (by rw [hall]; exact t.isLt)
  next =>
    by_cases ht : s.activeSize ≤ t.val
    · rw [h.sum_eq t]
      split
      · simp only [addByInactive_apply, resetInactive_apply, if_pos ht]
        ring
      · simp only [addByFree_apply, resetInactive_apply, if_pos ht, h.symmetric _ t]
        ring
    · rw [← h.gradient_eq t (Nat.lt_of_not_le ht)]
      split
      · simp only [addByInactive_apply, resetInactive_apply, if_neg ht]
      · simp only [addByFree_apply, resetInactive_apply, if_neg ht]

theorem Consistent.unshrinkAll : s.unshrinkAll.Consistent P := by
  have hgradient := h.reconstructGradient_G
  rw [Solver.unshrinkAll, reconstructGradient_eq]
  exact
    { __ := h
      gradient_eq := fun t _ => hgradient t
      not_free := fun t ht => absurd t.isLt (Nat.not_lt.mpr ht) }

end

variable {gmax₁ gmax₂ : Option K}

theorem not_isFree_of_beShrunk {t : Fin l} (h : s.beShrunk gmax₁ gmax₂ t) : ¬ s.isFree t := by
  intro hfree
  rw [beShrunk, hfree] at h
  exact h

variable {n : Nat}

section

variable (h : s.Consistent P)
include h

theorem Consistent.shrinkTo (hn : n ≤ s.activeSize)
    (hfree : ∀ t : Fin l, n ≤ t.val → ¬ s.isFree t) :
    Consistent P { s with activeSize := n, activeSize_le := hn.trans s.activeSize_le } :=
  { __ := h
    gradient_eq := fun t ht => h.gradient_eq t (Nat.lt_of_lt_of_le ht hn)
    not_free := hfree }

/-- A smaller active set after an exchange of two places. -/
theorem Consistent.swapTo (i j : Fin l) (hn : n ≤ l)
    (hactive : ∀ t : Fin l, t.val < n → (Equiv.swap i j t).val < s.activeSize)
    (hfree : ∀ t : Fin l, n ≤ t.val → ¬ s.isFree (Equiv.swap i j t)) :
    Consistent P (swapIndex { s with activeSize := n, activeSize_le := hn } i j) :=
  { bijective := h.bijective.comp (Equiv.swap i j).bijective
    y_eq := fun t => h.y_eq _
    p_eq := fun t => h.p_eq _
    Q_eq := fun t u => h.Q_eq _ _
    alpha_nonneg := fun t => h.alpha_nonneg _
    alpha_le := fun t => h.alpha_le _
    status_eq := fun t => h.status_eq _
    balance := by
      rw [← h.balance]
      exact Equiv.sum_comp (Equiv.swap i j) fun t => (s.y t).val * s.alpha t
    gradient_eq := by
      intro t ht
      refine (h.gradient_eq _ (hactive t ht)).trans ?_
      exact congrArg (· + s.p (Equiv.swap i j t))
        (Equiv.sum_comp (Equiv.swap i j) fun u => s.Q (Equiv.swap i j t) u * s.alpha u).symm
    gBar_eq := by
      intro t
      refine (h.gBar_eq _).trans ?_
      exact (Equiv.sum_comp (Equiv.swap i j) fun u =>
        if s.isUpperBound u then s.getC P u * s.Q (Equiv.swap i j t) u else 0).symm
    not_free := hfree }

/-- The inner loop: `n` comes down over variables that are all at a bound. -/
theorem Consistent.backOff {i : Fin l} (hi : ¬ s.isFree i) (hl : n < l)
    (hin : i.val ≤ n) (hn : n < s.activeSize) (hfree : ∀ t : Fin l, n < t.val → ¬ s.isFree t) :
    (s.backOff gmax₁ gmax₂ i n hl).Consistent P := by
  -- when the loop ends by its condition, `n` is the place `i` itself
  have hend : ∀ {n : Nat}, n = i.val → (∀ t : Fin l, n < t.val → ¬ s.isFree t) →
      ∀ t : Fin l, n ≤ t.val → ¬ s.isFree t := by
    intro n hni hfree t ht
    obtain hlt | heq := Nat.lt_or_eq_of_le ht
    · exact hfree t hlt
    · have hti : t = i := Fin.ext (heq.symm.trans hni)
      rwa [hti]
  induction n with
  | zero => exact h.shrinkTo (Nat.zero_le _) (hend (Nat.le_zero.mp hin).symm hfree)
  | succ n ih =>
    unfold Solver.backOff
    split
    next hlt =>
      split
      next hshrunk =>
        refine ih (Nat.lt_of_succ_lt hl) (Nat.le_of_lt_succ hlt) (Nat.lt_of_succ_lt hn) ?_
        intro t ht
        obtain hgt | heq := Nat.lt_or_eq_of_le (Nat.succ_le_of_lt ht)
        · exact hfree t hgt
        · have htn : t = ⟨n + 1, hl⟩ := Fin.ext heq.symm
          rw [htn]
          exact not_isFree_of_beShrunk hshrunk
      next =>
        refine h.swapTo i ⟨n + 1, hl⟩ (Nat.le_of_lt hl) ?_ ?_
        · intro t ht
          have htn : t ≠ ⟨n + 1, hl⟩ := fun heq => by simp [heq] at ht
          by_cases hti : t = i
          · rw [hti, Equiv.swap_apply_left]
            exact hn
          · rw [Equiv.swap_apply_of_ne_of_ne hti htn]
            omega
        · intro t ht
          have hti : t ≠ i := fun heq => by rw [heq] at ht; omega
          by_cases htn : t = ⟨n + 1, hl⟩
          · rw [htn, Equiv.swap_apply_right]
            exact hi
          · rw [Equiv.swap_apply_of_ne_of_ne hti htn]
            refine hfree t (Nat.lt_of_le_of_ne ht fun heq => htn (Fin.ext heq.symm))
    next hge =>
      exact h.shrinkTo (Nat.le_of_lt hn) (hend (Nat.le_antisymm (Nat.le_of_not_lt hge) hin) hfree)

theorem Consistent.shrinkAt (gmax₁ gmax₂ : Option K)
    (i : Fin l) : (shrinkAt gmax₁ gmax₂ s i).Consistent P := by
  unfold Solver.shrinkAt
  split
  next hi =>
    refine h.backOff (not_isFree_of_beShrunk hi.2) _ (Nat.le_sub_one_of_lt hi.1)
      (Nat.sub_one_lt (Nat.ne_zero_of_lt hi.1)) ?_
    intro t ht
    exact h.not_free t (by omega)
  next => exact h

theorem Consistent.unshrinkOnce
    (gmax₁ gmax₂ : Option K) : (s.unshrinkOnce P gmax₁ gmax₂).Consistent P := by
  unfold Solver.unshrinkOnce
  split
  · exact Consistent.unshrinkAll { __ := h }
  · exact h

/-- **Shrinking keeps the object consistent.** -/
theorem Consistent.doShrinking : (s.doShrinking P).Consistent P := by
  refine foldl_invariant (I := fun _ (s : Solver K l) => s.Consistent P) (h.unshrinkOnce _ _) ?_ _
  intro _ i s hs
  exact hs.shrinkAt _ _ i

theorem Consistent.shrinkIfDue (counter : Int) : (s.shrinkIfDue P counter).Consistent P := by
  unfold Solver.shrinkIfDue
  split
  · exact h.doShrinking
  · exact h

end

theorem initialGradients_apply (P : Problem K l) (status : Fin l → AlphaStatus) (t : Fin l) :
    (initialGradients P status).1 t =
        P.p t + ∑ i, (if status i ≠ .lowerBound then P.alpha i * P.Q i t else 0) ∧
      (initialGradients P status).2 t = ∑ i, if status i = .upperBound then
          (if P.y i = .plus then P.Cp else P.Cn) * P.Q i t else 0 := by
  have hrow : ∀ (c : K) (i : Fin l) (G : Fin l → K),
      (span l 0 l).foldl (fun G j => update G j (G j + c * P.Q i j)) G t = G t + c * P.Q i t := by
    intro c i G
    rw [foldl_update (fun j a => a + c * P.Q i j) (nodup_span _ _)]
    simp [mem_span]
  -- the two arrays do not meet, so the loop is a pair of loops
  have hpair : initialGradients P status = ((span l 0 l).foldl (fun G i =>
          if status i ≠ .lowerBound then
            (span l 0 l).foldl (fun G j => update G j (G j + P.alpha i * P.Q i j)) G
          else G) P.p,
      (span l 0 l).foldl
        (fun G i =>
          if status i = .upperBound then
            (span l 0 l).foldl
              (fun G j => update G j (G j + (if P.y i = .plus then P.Cp else P.Cn) * P.Q i j)) G
          else G) fun _ => 0) := by
    rw [← foldl_prodMk, initialGradients]
    congr 1
    funext G i
    cases hi : status i <;>
      simp only [ne_eq, reduceCtorEq, not_true, not_false_iff, if_true, if_false]
  rw [hpair]
  dsimp only
  constructor
  · rw [foldl_addRow (fun i => status i ≠ .lowerBound) (fun i t => P.alpha i * P.Q i t)
      (fun G i _ => hrow _ i G) (nodup_span _ _)]
    simp [mem_span]
  · rw [foldl_addRow (fun i => status i = .upperBound)
      (fun i t => (if P.y i = .plus then P.Cp else P.Cn) * P.Q i t)
      (fun G i _ => hrow _ i G) (nodup_span _ _)]
    simp [mem_span]

/-- **The object is consistent when the loop of `Solve` starts.** -/
theorem Consistent.initial (P : Problem K l) : (initial P).Consistent P where
  bijective := bijective_id
  y_eq := fun _ => rfl
  p_eq := fun _ => rfl
  Q_eq := fun _ _ => rfl
  alpha_nonneg := P.alpha_nonneg
  alpha_le := P.alpha_le
  status_eq := fun _ => rfl
  balance := rfl
  gradient_eq := by
    intro t _
    refine (initialGradients_apply P _ t).1.trans ?_
    rw [add_comm]
    refine congrArg (· + P.p t) (Finset.sum_congr rfl fun u _ => ?_)
    change _ = P.Q t u * P.alpha u
    rw [P.symmetric t u]
    by_cases hlower :
        statusOf (P.alpha u) (if P.y u = .plus then P.Cp else P.Cn) = .lowerBound
    · have hzero : P.alpha u = 0 :=
        le_antisymm (statusOf_eq_lowerBound.mp hlower).2 (P.alpha_nonneg u)
      rw [hzero]
      simp
    · rw [if_pos hlower]
      ring
  gBar_eq := by
    intro t
    refine (initialGradients_apply P _ t).2.trans (Finset.sum_congr rfl fun u _ => ?_)
    rw [P.symmetric u t]
    rfl
  not_free := fun t ht => absurd t.isLt (Nat.not_lt.mpr ht)

end Solver
end HotTLBApps.Libsvm
