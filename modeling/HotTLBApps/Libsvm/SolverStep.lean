import HotTLBApps.Libsvm.SolverGradient

/-!
# One turn of the SMO solver

`selectWorkingSet` either reports that no pair of active variables violates optimality by
`eps` or gives two different active variables, and `updatePair` keeps the object consistent:
the two values stay in the box and on the line `yᵀα`, and `G` and `G_bar` follow them.
-/

namespace HotTLBApps.Libsvm
namespace Solver

open ArrayLoops List Function Option

variable {K : Type*} [Field K] [LinearOrder K] {l : Nat}

section

/-- What the first loop knows about the variables it has seen. -/
def IsMax (s : Solver K l) (seen : List (Fin l)) : Option (K × Fin l) → Prop
  | none => ∀ t ∈ seen, ¬ s.canRise t
  | some (g, i) => i ∈ seen ∧ g = -s.yG i ∧ ∀ t ∈ seen, s.canRise t → -s.yG t ≤ g

theorem isMax_findMax (s : Solver K l) : s.IsMax (span l 0 s.activeSize) s.findMax := by
  refine foldl_invariant (I := s.IsMax) (s := none) ?_ ?_ _
  · nofun
  intro seen x m hm
  split
  next hx =>
    refine ⟨mem_append_right _ (mem_singleton_self x), rfl, ?_⟩
    intro t ht hrise
    obtain ht | ht := mem_append.mp ht
    · match m, hm, hx.2 with
      | none, hm, _ => exact absurd hrise (hm t ht)
      | some _, hm, hge => exact (hm.2.2 t ht hrise).trans hge
    · rw [mem_singleton.mp ht]
  next hx =>
    match m, hm, hx with
    | none, hm, hx =>
      intro t ht
      obtain ht | ht := mem_append.mp ht
      · exact hm t ht
      · rw [mem_singleton.mp ht]
        exact fun hrise => hx ⟨hrise, trivial⟩
    | some (g, i), hm, hx =>
      refine ⟨mem_append_left _ hm.1, hm.2.1, ?_⟩
      intro t ht hrise
      obtain ht | ht := mem_append.mp ht
      · exact hm.2.2 t ht hrise
      · rw [mem_singleton.mp ht] at hrise ⊢
        exact le_of_lt (lt_of_not_ge fun hge => hx ⟨hrise, hge⟩)

/-- What the second loop knows about the variables it has seen. -/
structure IsMin (s : Solver K l) (max : Option (K × Fin l)) (seen : List (Fin l))
    (m : Option K × Option (K × Fin l)) : Prop where
  le : ∀ t ∈ seen, s.canFall t → ∃ g, m.1 = some g ∧ s.yG t ≤ g
  attained : ∀ g, m.1 = some g → ∃ t ∈ seen, s.canFall t ∧ s.yG t = g
  selected : ∀ d j, m.2 = some (d, j) → j ∈ seen ∧ ∀ g i, max = some (g, i) → 0 < g + s.yG j
  found : ∀ g i, max = some (g, i) → ∀ t ∈ seen, s.canFall t → 0 < g + s.yG t → m.2 ≠ none

/-- The choice of `Gmin_idx` at a variable that can fall. -/
theorem findMinStep_of_canFall {s : Solver K l} {x : Fin l} (hx : s.canFall x)
    (max : Option (K × Fin l)) (m : Option K × Option (K × Fin l)) :
    (∃ g, (s.findMinStep max m x).1 = some g ∧ s.yG x ≤ g ∧
        (g = s.yG x ∨ m.1 = some g) ∧ ∀ g', m.1 = some g' → g' ≤ g) ∧
      ((s.findMinStep max m x).2 = m.2 ∨ ∃ d g i, max = some (g, i) ∧ 0 < g + s.yG x ∧
          (s.findMinStep max m x).2 = some (d, x)) ∧
      ∀ g i, max = some (g, i) → 0 < g + s.yG x → (s.findMinStep max m x).2 ≠ none := by
  obtain ⟨m₁, m₂⟩ := m
  unfold findMinStep
  rw [if_pos hx]
  refine ⟨?_, ?_, ?_⟩
  · split
    next hge =>
      refine ⟨_, rfl, le_refl _, .inl rfl, ?_⟩
      rintro g' rfl
      exact hge
    next hlt =>
      match m₁, hlt with
      | none, hlt => exact absurd trivial hlt
      | some g, hlt =>
        refine ⟨g, rfl, le_of_lt (lt_of_not_ge hlt), .inr rfl, ?_⟩
        rintro g' heq
        exact le_of_eq (some.inj heq).symm
  · match max with
    | none => exact .inl rfl
    | some (g, i) =>
      dsimp only
      split
      next hpos => exact .inr ⟨_, g, i, rfl, hpos.1, rfl⟩
      next => exact .inl rfl
  · rintro g i rfl hpos
    dsimp only
    split
    next => exact some_ne_none _
    next hnot =>
      rintro rfl
      exact hnot ⟨hpos, trivial⟩

theorem isMin_findMin (s : Solver K l) : s.IsMin s.findMax (span l 0 s.activeSize) s.findMin := by
  refine foldl_invariant (I := s.IsMin s.findMax) ?_ ?_ _
  · exact
      { le := fun _ ht => absurd ht not_mem_nil
        attained := nofun
        selected := nofun
        found := fun _ _ _ _ ht => absurd ht not_mem_nil }
  · intro seen x m hm
    by_cases hx : s.canFall x
    · obtain ⟨⟨g₂, hg₂, hxg, hold, hmax⟩, hsel, hfound⟩ := findMinStep_of_canFall hx s.findMax m
      refine ⟨?_, ?_, ?_, ?_⟩
      · intro t ht hfall
        refine ⟨g₂, hg₂, ?_⟩
        obtain ht | ht := mem_append.mp ht
        · obtain ⟨g, hg, hle⟩ := hm.le t ht hfall
          exact hle.trans (hmax g hg)
        · rwa [mem_singleton.mp ht]
      · intro g hg
        obtain rfl := some.inj (hg₂.symm.trans hg)
        obtain rfl | hold := hold
        · exact ⟨x, mem_append_right _ (mem_singleton_self x), hx, rfl⟩
        · obtain ⟨t, ht, hfall, heq⟩ := hm.attained _ hold
          exact ⟨t, mem_append_left _ ht, hfall, heq⟩
      · intro d j hj
        obtain hsame | ⟨d', g, i, hmaxEq, hpos, hnew⟩ := hsel
        · obtain ⟨hseen, hgap⟩ := hm.selected d j (hsame.symm.trans hj)
          exact ⟨mem_append_left _ hseen, hgap⟩
        · obtain ⟨-, rfl⟩ := Prod.mk.inj (some.inj (hnew.symm.trans hj))
          refine ⟨mem_append_right _ (mem_singleton_self _), ?_⟩
          intro g' i' heq
          obtain ⟨rfl, -⟩ := Prod.mk.inj (some.inj (hmaxEq.symm.trans heq))
          exact hpos
      · intro g i hgi t ht hfall hpos
        obtain ht | ht := mem_append.mp ht
        · obtain hsame | ⟨d', _, _, _, _, hnew⟩ := hsel
          · rw [hsame]
            exact hm.found g i hgi t ht hfall hpos
          · rw [hnew]
            exact some_ne_none _
        · rw [mem_singleton.mp ht] at hpos
          exact hfound g i hgi hpos
    · have hsame : s.findMinStep s.findMax m x = m := if_neg hx
      have hseen : ∀ t ∈ seen ++ [x], s.canFall t → t ∈ seen := by
        intro t ht hfall
        refine (mem_append.mp ht).resolve_right fun htx => hx ?_
        rwa [← mem_singleton.mp htx]
      rw [hsame]
      refine ⟨fun t ht hfall => hm.le t (hseen t ht hfall) hfall, ?_, ?_,
        fun g i hgi t ht hfall => hm.found g i hgi t (hseen t ht hfall) hfall⟩
      · intro g hg
        obtain ⟨t, ht, hfall, heq⟩ := hm.attained g hg
        exact ⟨t, mem_append_left _ ht, hfall, heq⟩
      · intro d j hj
        obtain ⟨hj', hgap⟩ := hm.selected d j hj
        exact ⟨mem_append_left _ hj', hgap⟩

variable {P : Problem K l} {s : Solver K l}

/-- **The answer `1`:** no pair of active variables violates optimality by `eps`. -/
theorem selectWorkingSet_optimal [IsStrictOrderedRing K] (h : s.selectWorkingSet P = .optimal)
    {t u : Fin l} (ht : t.val < s.activeSize) (hu : u.val < s.activeSize) (hrise : s.canRise t)
    (hfall : s.canFall u) : -s.yG t + s.yG u < P.eps := by
  have hmax := s.isMax_findMax
  obtain ⟨g₂, hg₂, hle₂⟩ :=
    s.isMin_findMin.le u (mem_span.mpr ⟨Nat.zero_le _, hu⟩) hfall
  unfold selectWorkingSet at h
  split at h
  next hgap =>
    rw [hg₂] at hgap
    match hm : s.findMax, hmax, hgap with
    | none, hmax, _ => exact absurd hrise (hmax t (mem_span.mpr ⟨Nat.zero_le _, ht⟩))
    | some (g, i), hmax, hgap =>
      have hle := hmax.2.2 t (mem_span.mpr ⟨Nat.zero_le _, ht⟩) hrise
      have hsum : g + g₂ < P.eps := hgap
      linarith
  next => cases h

/-- **The answer `0`:** the two indices are set, to different active variables. -/
theorem selectWorkingSet_pair {a b : Option (Fin l)} (h : s.selectWorkingSet P = .pair a b) :
    ∃ i j, a = some i ∧ b = some j ∧ i ≠ j ∧ i.val < s.activeSize ∧ j.val < s.activeSize := by
  have hmax := s.isMax_findMax
  have hmin := s.isMin_findMin
  unfold selectWorkingSet at h
  split at h
  next => cases h
  next hgap =>
    obtain ⟨rfl, rfl⟩ := Selection.pair.inj h
    match hm : s.findMax, hn : s.findMin.1, hgap with
    | none, _, hgap => exact absurd trivial hgap
    | some _, none, hgap => exact absurd trivial hgap
    | some (g, i), some g₂, hgap =>
      rw [hm] at hmax
      -- the variable that attains `Gmax2` has a positive difference, so some index is set
      have hpos : 0 < g + g₂ := lt_of_lt_of_le P.eps_pos (not_lt.mp hgap)
      obtain ⟨t, ht, hfall, hg₂⟩ := hmin.attained g₂ hn
      have hset := hmin.found g i hm t ht hfall (by rw [hg₂]; exact hpos)
      obtain ⟨⟨d, j⟩, hj⟩ := ne_none_iff_exists'.mp hset
      obtain ⟨hseen, hdiff⟩ := hmin.selected d j hj
      refine ⟨i, j, rfl, by rw [hj]; rfl, ?_, (mem_span.mp hmax.1).2, (mem_span.mp hseen).2⟩
      rintro rfl
      -- at `Gmax_idx` itself the difference is zero
      have hself := hdiff g i hm
      rw [hmax.2.1, neg_add_cancel] at hself
      exact lt_irrefl _ hself

/-- Two values are in their boxes. -/
def InBoxes (ci cj : K) (a : K × K) : Prop :=
  (0 ≤ a.1 ∧ a.1 ≤ ci) ∧ 0 ≤ a.2 ∧ a.2 ≤ cj

variable [IsStrictOrderedRing K] {ai aj ci cj : K}

/-- Two values in their boxes, on the line with the given difference. -/
theorem clipDifferent_spec (h : InBoxes ci cj (ai, aj)) (delta : K) :
    InBoxes ci cj (clipDifferent ai aj delta ci cj) ∧
      (clipDifferent ai aj delta ci cj).1 - (clipDifferent ai aj delta ci cj).2 = ai - aj := by
  obtain ⟨⟨hi₀, hic⟩, hj₀, hjc⟩ := h
  unfold clipDifferent InBoxes
  dsimp only at *
  split_ifs <;> dsimp only at * <;> refine ⟨⟨⟨?_, ?_⟩, ?_, ?_⟩, ?_⟩ <;> linarith

/-- Two values in their boxes, on the line with the given sum. -/
theorem clipSame_spec (h : InBoxes ci cj (ai, aj)) (delta : K) :
    InBoxes ci cj (clipSame ai aj delta ci cj) ∧
      (clipSame ai aj delta ci cj).1 + (clipSame ai aj delta ci cj).2 = ai + aj := by
  obtain ⟨⟨hi₀, hic⟩, hj₀, hjc⟩ := h
  unfold clipSame InBoxes
  dsimp only at *
  split_ifs <;> dsimp only at * <;> refine ⟨⟨⟨?_, ?_⟩, ?_, ?_⟩, ?_⟩ <;> linarith

end

omit [LinearOrder K] in
theorem updateG_apply (s : Solver K l) (i j : Fin l) (deltaI deltaJ : K) {t : Fin l}
    (ht : t.val < s.activeSize) :
    s.updateG i j deltaI deltaJ t = s.G t + (s.Q i t * deltaI + s.Q j t * deltaJ) := by
  rw [updateG, foldl_update (fun k a => a + (s.Q i k * deltaI + s.Q j k * deltaJ)) (nodup_span _ _),
    if_pos (mem_span.mpr ⟨Nat.zero_le _, ht⟩)]

omit [LinearOrder K] in
/-- `G_bar` follows the variables at their upper bound. -/
theorem updateGBar_apply (wasUpper isUpper : Prop) [Decidable wasUpper] [Decidable isUpper] (c : K)
    (row GBar : Fin l → K) (t : Fin l) : updateGBar wasUpper isUpper c row GBar t =
      GBar t + ((if isUpper then c * row t else 0) - if wasUpper then c * row t else 0) := by
  have ht : t ∈ span l 0 l := mem_span.mpr ⟨Nat.zero_le _, t.isLt⟩
  unfold updateGBar
  by_cases hwas : wasUpper <;> by_cases his : isUpper
  · simp [hwas, his]
  · rw [if_neg (by simp [hwas, his]), if_pos hwas, if_neg his, if_pos hwas,
      foldl_update (fun k a => a - c * row k) (nodup_span _ _), if_pos ht]
    ring
  · rw [if_neg (by simp [hwas, his]), if_neg hwas, if_pos his, if_neg hwas,
      foldl_update (fun k a => a + c * row k) (nodup_span _ _), if_pos ht]
    ring
  · simp [hwas, his]

variable {P : Problem K l} {s : Solver K l}

theorem Consistent.updatePair_status (h : s.Consistent P) {i j : Fin l} (t : Fin l) :
    (s.updatePair P i j).alphaStatus t = statusOf ((s.updatePair P i j).alpha t) (s.getC P t) := by
  change update (update s.alphaStatus i _) j _ t = statusOf (update (update s.alpha i _) j _ t) _
  rw [update_apply, update_apply]
  split_ifs with htj hti
  · subst htj
    rfl
  · subst hti
    rfl
  · rw [update_of_ne htj, update_of_ne hti, h.status_eq]

variable [IsStrictOrderedRing K]

theorem Consistent.newAlphas_spec (h : s.Consistent P) (i j : Fin l) :
    InBoxes (s.getC P i) (s.getC P j) (s.newAlphas P i j) ∧
      (s.y i).val * ((s.newAlphas P i j).1 - s.alpha i) +
        (s.y j).val * ((s.newAlphas P i j).2 - s.alpha j) = 0 := by
  have hboxes : InBoxes (s.getC P i) (s.getC P j) (s.alpha i, s.alpha j) :=
    ⟨⟨h.alpha_nonneg i, h.alpha_le i⟩, h.alpha_nonneg j, h.alpha_le j⟩
  unfold newAlphas
  split
  next hne =>
    obtain ⟨hbox, hdiff⟩ := clipDifferent_spec hboxes
      ((-s.G i - s.G j) / positiveCoef (s.QD i + s.QD j + 2 * s.Q i j))
    refine ⟨hbox, ?_⟩
    have hval : ((s.y j).val : K) = -(s.y i).val := by
      cases hyi : s.y i <;> cases hyj : s.y j <;> simp_all [Label.val]
    rw [hval]
    linear_combination (s.y i).val * hdiff
  next heq =>
    obtain ⟨hbox, hsum⟩ := clipSame_spec hboxes
      ((s.G i - s.G j) / positiveCoef (s.QD i + s.QD j - 2 * s.Q i j))
    refine ⟨hbox, ?_⟩
    rw [← not_ne_iff.mp heq]
    linear_combination (s.y i).val * hsum

/-- **The step on a pair keeps the object consistent.** -/
theorem Consistent.updatePair (h : s.Consistent P) {i j : Fin l} (hij : i ≠ j)
    (hi : i.val < s.activeSize)
    (hj : j.val < s.activeSize) : (s.updatePair P i j).Consistent P := by
  obtain ⟨⟨hboxI, hboxJ⟩, hline⟩ := h.newAlphas_spec i j
  have hstatus : ∀ t, t ≠ i → t ≠ j → (s.updatePair P i j).alphaStatus t = s.alphaStatus t := by
    intro t hti htj
    change update (update s.alphaStatus i _) j _ t = _
    rw [update_of_ne htj, update_of_ne hti]
  have hbox : ∀ t, 0 ≤ (s.updatePair P i j).alpha t ∧
      (s.updatePair P i j).alpha t ≤ s.getC P t := by
    have hboxI' := (forall_update_iff s.alpha fun t a => 0 ≤ a ∧ a ≤ s.getC P t).mpr
      ⟨hboxI, fun t _ => ⟨h.alpha_nonneg t, h.alpha_le t⟩⟩
    exact (forall_update_iff _ fun t a => 0 ≤ a ∧ a ≤ s.getC P t).mpr ⟨hboxJ, fun t _ => hboxI' t⟩
  exact
    { __ := h
      alpha_nonneg := fun t => (hbox t).1
      alpha_le := fun t => (hbox t).2
      status_eq := h.updatePair_status
      balance := by
        rw [← h.balance]
        refine (sum_mul_update_update (fun t => (s.y t).val) s.alpha hij _ _).trans ?_
        rw [add_assoc, hline, add_zero]
      gradient_eq := by
        intro t ht
        refine (s.updateG_apply i j _ _ ht).trans ?_
        have hsum := sum_mul_update_update (s.Q t) s.alpha hij
          (s.newAlphas P i j).1 (s.newAlphas P i j).2
        rw [h.gradient_eq t ht, h.symmetric i t, h.symmetric j t]
        refine Eq.trans ?_ (congrArg (· + s.p t) hsum.symm)
        ring
      gBar_eq := by
        intro t
        -- the summands of the two changed variables are the only ones that change
        have hterms : (fun u => if (s.updatePair P i j).isUpperBound u
              then s.getC P u * s.Q t u else 0) =
            update
              (update (fun u => if s.isUpperBound u then s.getC P u * s.Q t u else 0) i
                (if (s.updatePair P i j).isUpperBound i then s.getC P i * s.Q t i else 0)) j
              (if (s.updatePair P i j).isUpperBound j then s.getC P j * s.Q t j else 0) := by
          refine eq_update_iff.mpr ⟨rfl, fun u huj => ?_⟩
          by_cases hui : u = i
          · subst hui
            rw [update_self]
          · rw [update_of_ne hui]
            refine if_congr ?_ rfl rfl
            rw [isUpperBound, isUpperBound, hstatus u hui huj]
        refine Eq.trans ?_ (Finset.sum_congr rfl fun u _ => congrFun hterms u).symm
        rw [sum_update, sum_update, update_of_ne hij.symm, ← h.gBar_eq t]
        refine (updateGBar_apply _ _ _ _ _ t).trans ?_
        rw [updateGBar_apply, h.symmetric i t, h.symmetric j t]
        rfl
      not_free := by
        intro t ht hfree
        have hact : s.activeSize ≤ t.val := ht
        have hti : t ≠ i := fun heq => by rw [heq] at hact; omega
        have htj : t ≠ j := fun heq => by rw [heq] at hact; omega
        exact h.not_free t hact ((hstatus t hti htj).symm.trans hfree) }

end Solver
end HotTLBApps.Libsvm
