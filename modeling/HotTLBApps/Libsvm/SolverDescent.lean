import HotTLBApps.Libsvm.SolverOptimal

/-!
# Every step of the SMO solver makes progress

The matrix need not be positive semidefinite: a curvature that is not positive is replaced by
`TAU`, so the step may be far too long, and only the clipping makes it end in the box.
-/

namespace HotTLBApps.Libsvm
namespace Solver

open ArrayLoops Function

variable {K : Type*} [Field K] [LinearOrder K] {l : Nat} {P : Problem K l} {s : Solver K l}

/-- `½ αᵀQα + pᵀα`, in the order of the object. -/
def objectiveAt (s : Solver K l) (a : Fin l → K) : K :=
  (∑ t, ∑ u, a t * s.Q t u * a u) / 2 + ∑ t, s.p t * a t

theorem canRise_findMax {g : K} {i : Fin l} (h : s.findMax = some (g, i)) : s.canRise i := by
  refine foldl_invariant (I := fun _ m => ∀ g i, m = some (g, i) → s.canRise i) (s := none)
    nofun ?_ _ g i h
  intro _ x m hm g i heq
  split_ifs at heq with hx
  · cases heq
    exact hx.1
  · exact hm g i heq

theorem canFall_findMin {d : K} {j : Fin l} (h : s.findMin.2 = some (d, j)) : s.canFall j := by
  refine foldl_invariant
    (I := fun _ (m : Option K × Option (K × Fin l)) => ∀ d j, m.2 = some (d, j) → s.canFall j)
    (s := (none, none)) nofun ?_ _ d j h
  intro _ x m hm d j heq
  by_cases hx : s.canFall x
  · obtain ⟨-, hsame | ⟨d', _, _, -, -, hnew⟩, -⟩ := findMinStep_of_canFall hx s.findMax m
    · exact hm d j (hsame.symm.trans heq)
    · cases hnew.symm.trans heq
      exact hx
  · have hsame : s.findMinStep s.findMax m x = m := if_neg hx
    exact hm d j (hsame ▸ heq)

theorem selectWorkingSet_violates {i j : Fin l}
    (h : s.selectWorkingSet P = .pair (some i) (some j)) :
    i ≠ j ∧ s.canRise i ∧ s.canFall j ∧ 0 < -s.yG i + s.yG j := by
  obtain ⟨_, _, hi, hj, hne, -⟩ := selectWorkingSet_pair h
  cases hi
  cases hj
  have hmax := s.isMax_findMax
  unfold selectWorkingSet at h
  split_ifs at h
  obtain ⟨hi, hj⟩ := Selection.pair.inj h
  obtain ⟨⟨g, _⟩, hg, rfl⟩ := Option.map_eq_some_iff.mp hi
  obtain ⟨⟨d, _⟩, hd, rfl⟩ := Option.map_eq_some_iff.mp hj
  rw [hg] at hmax
  refine ⟨hne, canRise_findMax hg, canFall_findMin hd, ?_⟩
  have hpos := (s.isMin_findMin.selected d _ hd).2 g _ hg
  rwa [hmax.2.1] at hpos

variable [IsStrictOrderedRing K]

section

variable {ai aj step ci cj : K} (hi : 0 ≤ ai ∧ ai ≤ ci) (hj : 0 ≤ aj ∧ aj ≤ cj) (hstep : 0 < step)
include hi hj hstep

/-- Clipping shortens a step, but not to nothing if both values can move. -/
theorem clipDifferent_short :
    (ai < ci → aj < cj → 0 < (clipDifferent ai aj step ci cj).1 - ai ∧
        (clipDifferent ai aj step ci cj).1 - ai ≤ step) ∧
      (0 < ai → 0 < aj → 0 < -((clipDifferent ai aj (-step) ci cj).1 - ai) ∧
        -((clipDifferent ai aj (-step) ci cj).1 - ai) ≤ step) := by
  obtain ⟨hi₀, hic⟩ := hi
  obtain ⟨hj₀, hjc⟩ := hj
  unfold clipDifferent
  dsimp only
  constructor <;> intro hi' hj' <;> split_ifs <;> dsimp only at * <;> constructor <;> linarith

theorem clipSame_short :
    (ai < ci → 0 < aj → 0 < (clipSame ai aj (-step) ci cj).1 - ai ∧
        (clipSame ai aj (-step) ci cj).1 - ai ≤ step) ∧
      (0 < ai → aj < cj → 0 < -((clipSame ai aj step ci cj).1 - ai) ∧
        -((clipSame ai aj step ci cj).1 - ai) ≤ step) := by
  obtain ⟨hi₀, hic⟩ := hi
  obtain ⟨hj₀, hjc⟩ := hj
  unfold clipSame
  dsimp only
  constructor <;> intro hi' hj' <;> split_ifs <;> dsimp only at * <;> constructor <;> linarith

end

theorem positiveCoef_spec (q : K) : 0 < positiveCoef q ∧ q ≤ positiveCoef q := by
  unfold positiveCoef
  split_ifs with hq
  · have hpos : (0 : K) < TAU := by
      unfold TAU
      positivity
    exact ⟨hpos, hq.trans hpos.le⟩
  · exact ⟨not_le.mp hq, le_rfl⟩

/-- The step goes down the slope, and not farther than to where a curvature that is not smaller
would have its minimum. -/
theorem Consistent.newAlphas_short (h : s.Consistent P) {i j : Fin l} (hi : s.canRise i)
    (hj : s.canFall j) (hgap : 0 < -s.yG i + s.yG j) : ∃ c, 0 < c ∧
      s.QD i + s.QD j - 2 * ((s.y i).val * (s.y j).val) * s.Q i j ≤ c ∧
      0 < (s.y i).val * ((s.newAlphas P i j).1 - s.alpha i) ∧
      (s.y i).val * ((s.newAlphas P i j).1 - s.alpha i) ≤ (-s.yG i + s.yG j) / c := by
  have hboxI := And.intro (h.alpha_nonneg i) (h.alpha_le i)
  have hboxJ := And.intro (h.alpha_nonneg j) (h.alpha_le j)
  have hsum := positiveCoef_spec (s.QD i + s.QD j + 2 * s.Q i j)
  have hdiff := positiveCoef_spec (s.QD i + s.QD j - 2 * s.Q i j)
  unfold newAlphas
  generalize positiveCoef (s.QD i + s.QD j + 2 * s.Q i j) = c at hsum ⊢
  generalize positiveCoef (s.QD i + s.QD j - 2 * s.Q i j) = c' at hdiff ⊢
  cases hyi : s.y i <;> cases hyj : s.y j <;>
    simp only [canRise, canFall, yG, hyi, hyj, h.isUpperBound_iff, h.isLowerBound_iff, not_le,
      ne_eq, not_true_eq_false, reduceCtorEq, not_false_eq_true, if_true, if_false, Label.val,
      one_mul, mul_one, mul_neg, neg_mul, neg_neg, sub_neg_eq_add] at hi hj hgap ⊢
  · refine ⟨c', hdiff.1, hdiff.2, ?_⟩
    rw [show (s.G i - s.G j) / c' = -((-s.G i + s.G j) / c') by ring]
    exact (clipSame_short hboxI hboxJ (div_pos hgap hdiff.1)).1 hi hj
  · refine ⟨c, hsum.1, hsum.2, ?_⟩
    rw [← sub_eq_add_neg] at hgap ⊢
    exact (clipDifferent_short hboxI hboxJ (div_pos hgap hsum.1)).1 hi hj
  · refine ⟨c, hsum.1, hsum.2, ?_⟩
    rw [show (-s.G i - s.G j) / c = -((s.G i + s.G j) / c) by ring]
    exact (clipDifferent_short hboxI hboxJ (div_pos hgap hsum.1)).2 hi hj
  · refine ⟨c', hdiff.1, hdiff.2, ?_⟩
    rw [← sub_eq_add_neg] at hgap ⊢
    exact (clipSame_short hboxI hboxJ (div_pos hgap hdiff.1)).2 hi hj

/-- The objective after two values have changed, from the gradient before. -/
theorem Consistent.objectiveAt_update (h : s.Consistent P) {i j : Fin l} (hij : i ≠ j) (v w : K) :
    s.objectiveAt (update (update s.alpha i v) j w) = s.objectiveAt s.alpha +
      (∑ u, s.Q i u * s.alpha u + s.p i) * (v - s.alpha i) +
      (∑ u, s.Q j u * s.alpha u + s.p j) * (w - s.alpha j) +
      (s.Q i i * (v - s.alpha i) ^ 2 + 2 * s.Q i j * (v - s.alpha i) * (w - s.alpha j) +
        s.Q j j * (w - s.alpha j) ^ 2) / 2 := by
  have hrow : ∀ a : Fin l → K, ∑ t, ∑ u, a t * s.Q t u * a u = ∑ t, (∑ u, s.Q t u * a u) * a t := by
    intro a
    refine Finset.sum_congr rfl fun t _ => ?_
    rw [Finset.sum_mul]
    exact Finset.sum_congr rfl fun u _ => by ring
  have hcol : ∀ k d, ∑ t, s.Q t k * d * s.alpha t = (∑ u, s.Q k u * s.alpha u) * d := by
    intro k d
    rw [Finset.sum_mul]
    exact Finset.sum_congr rfl fun t _ => by rw [h.symmetric t k]; ring
  rw [objectiveAt, objectiveAt, hrow, hrow, sum_mul_update_update _ _ hij,
    sum_mul_update_update _ _ hij]
  simp only [sum_mul_update_update _ _ hij, add_mul, Finset.sum_add_distrib, hcol,
    h.symmetric j i]
  ring

/-- **The step on the selected pair** stays in the boxes and on the line, and it makes the
objective strictly smaller, whatever the curvature. -/
theorem updatePair_descends
    (h : s.Consistent P)
    (hQD : ∀ t, s.QD t = s.Q t t)
    {i j : Fin l}
    (hselect : s.selectWorkingSet P = .pair (some i) (some j)) :
    (0 ≤ (s.updatePair P i j).alpha i ∧ (s.updatePair P i j).alpha i ≤ s.getC P i) ∧
      (0 ≤ (s.updatePair P i j).alpha j ∧ (s.updatePair P i j).alpha j ≤ s.getC P j) ∧
      (s.y i).val * (s.updatePair P i j).alpha i + (s.y j).val * (s.updatePair P i j).alpha j =
        (s.y i).val * s.alpha i + (s.y j).val * s.alpha j ∧
      s.objectiveAt (s.updatePair P i j).alpha < s.objectiveAt s.alpha := by
  obtain ⟨hij, hrise, hfall, hgap⟩ := selectWorkingSet_violates hselect
  obtain ⟨_, _, ⟨⟩, ⟨⟩, -, hi, hj⟩ := selectWorkingSet_pair hselect
  obtain ⟨⟨hboxI, hboxJ⟩, hline⟩ := h.newAlphas_spec i j
  obtain ⟨c, hc, hcoef, hpos, hshort⟩ := h.newAlphas_short hrise hfall hgap
  have hvi : (s.updatePair P i j).alpha i = (s.newAlphas P i j).1 :=
    (update_of_ne hij _ _).trans (update_self _ _ _)
  have hvj : (s.updatePair P i j).alpha j = (s.newAlphas P i j).2 := update_self _ _ _
  rw [hvi, hvj]
  refine ⟨hboxI, hboxJ, by linarith, ?_⟩
  refine (h.objectiveAt_update hij _ _).trans_lt ?_
  rw [← h.gradient_eq i hi, ← h.gradient_eq j hj]
  have hsquare : ∀ t, (s.y t).val * (s.y t).val = (1 : K) := by
    intro t
    cases s.y t <;> simp [Label.val]
  rw [hQD, hQD] at hcoef
  rw [le_div_iff₀ hc] at hshort
  rw [yG_eq, yG_eq] at hgap hshort
  generalize (s.newAlphas P i j).1 - s.alpha i = di at hline hpos hshort ⊢
  generalize (s.newAlphas P i j).2 - s.alpha j = dj at hline ⊢
  generalize hyi : ((s.y i).val : K) = yi at hline hgap hcoef hpos hshort
  generalize hyj : ((s.y j).val : K) = yj at hline hgap hcoef hshort
  have hi₁ : yi * yi = 1 := hyi ▸ hsquare i
  have hj₁ : yj * yj = 1 := hyj ▸ hsquare j
  obtain ⟨m, rfl⟩ : ∃ m, di = yi * m := ⟨yi * di, by rw [← mul_assoc, hi₁, one_mul]⟩
  obtain rfl : dj = -(yj * m) := by
    linear_combination yj * hline - dj * hj₁ - m * yj * hi₁
  rw [← mul_assoc, hi₁, one_mul] at hpos hshort
  have hbound : (s.Q i i + s.Q j j - 2 * (yi * yj) * s.Q i j) * m * m ≤
      (-(yi * s.G i) + yj * s.G j) * m := by
    refine le_trans ?_ (mul_le_mul_of_nonneg_right hshort hpos.le)
    rw [mul_comm m c]
    exact mul_le_mul_of_nonneg_right (mul_le_mul_of_nonneg_right hcoef hpos.le) hpos.le
  have hquad : s.Q i i * (yi * m) ^ 2 + 2 * s.Q i j * (yi * m) * -(yj * m) +
      s.Q j j * (-(yj * m)) ^ 2 = (s.Q i i + s.Q j j - 2 * (yi * yj) * s.Q i j) * m * m := by
    linear_combination s.Q i i * m ^ 2 * hi₁ + s.Q j j * m ^ 2 * hj₁
  have hdecrease := mul_pos hgap hpos
  rw [hquad]
  linarith

deriving instance DecidableEq for Selection

theorem updatePair_descends_twoPoints : (initial twoPoints).selectWorkingSet twoPoints =
        .pair (some 0) (some 1) ∧
      (initial twoPoints).objectiveAt ((initial twoPoints).updatePair twoPoints 0 1).alpha <
        (initial twoPoints).objectiveAt (initial twoPoints).alpha := by
  have hselect : (initial twoPoints).selectWorkingSet twoPoints = .pair (some 0) (some 1) := by
    decide +kernel
  exact ⟨hselect, (updatePair_descends (.initial twoPoints) (fun _ => rfl) hselect).2.2.2⟩

end Solver
end HotTLBApps.Libsvm
