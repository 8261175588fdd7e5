import HotTLBApps.Gapbs.Compress

/-!
# GAPBS: connected components (`Afforest` of `src/cc.cc`)

`Afforest` as a transition system: in every phase the iterations of the parallel
loop step in any order, and a barrier ends the phase when all of them have ended.

Two facts about the array carry the proof through all phases: every entry is
connected to its index by edges of the graph, and the pairs that were linked so far
have one root.  An edge whose source is skipped in the last phase is not lost: its
other end is skipped as well, and then both are in the tree of the label, or it
links the edge from its side.
-/

namespace HotTLBApps.Gapbs

open Forest List Function

variable {n : Nat}

/-- The iterations of a sampling round: each vertex links its neighbour at the
offset of the round, if there is one. -/
def roundTasks (g : Graph n) (r : Nat) (u : Fin n) : List (Task n) :=
  (((g.outNeigh u).drop r).take 1).map fun v => Task.call (u, v)

/-- The calls of a vertex in the last phase. -/
def finalCalls (g : Graph n) (neighborRounds : Nat) (u : Fin n) : List (Fin n × Fin n) :=
  ((g.outNeigh u).drop neighborRounds).map (u, ·) ++
    if g.directed then (g.inNeigh u).map (u, ·) else []

/-- The iterations of the last phase. -/
def finalTasks (g : Graph n) (neighborRounds : Nat) (c : Fin n) (u : Fin n) : List (Task n) :=
  [Task.unless u c (finalCalls g neighborRounds u)]

inductive Stage (n : Nat)
  | linking (r : Nat) (threads : Fin n → List (Task n))
  | compressing (r : Nat) (pcs : Fin n → Option (CompressPc n))
  | sampling
  | finishing (c : Fin n) (threads : Fin n → List (Task n))
  | compressingLast (pcs : Fin n → Option (CompressPc n))
  | returned

structure AfforestState (n : Nat) where
  comp : Fin n → Fin n
  stage : Stage n

/-- The head of the loop over the sampling rounds. -/
def startRound
    (g : Graph n) (neighborRounds : Nat) (comp : Fin n → Fin n) (r : Nat) : AfforestState n :=
  if r < neighborRounds then
    ⟨comp, .linking r (roundTasks g r)⟩
  else
    ⟨comp, .sampling⟩

/-- Every vertex is its own tree. -/
def afforestStart (g : Graph n) (neighborRounds : Nat) : AfforestState n :=
  startRound g neighborRounds id 0

/-- The steps of `Afforest`; `SampleFrequentElement` returns any label that is
present. -/
inductive AfforestStep
    (g : Graph n) (neighborRounds : Nat) : AfforestState n → AfforestState n → Prop
  | link {comp r threads} (u : Fin n) (hu : threads u ≠ []) :
      AfforestStep g neighborRounds ⟨comp, .linking r threads⟩
        ⟨(LinkState.step ⟨comp, threads⟩ u).comp,
          .linking r (LinkState.step ⟨comp, threads⟩ u).threads⟩
  | linkBarrier {comp r threads} (hended : ∀ u, threads u = []) :
      AfforestStep g neighborRounds ⟨comp, .linking r threads⟩
        ⟨comp, .compressing r fun _ => some .load⟩
  | compress {comp r pcs} (x : Fin n) (hx : pcs x ≠ none) :
      AfforestStep g neighborRounds ⟨comp, .compressing r pcs⟩
        ⟨(CompressState.step ⟨comp, pcs⟩ x).comp,
          .compressing r (CompressState.step ⟨comp, pcs⟩ x).pcs⟩
  | compressBarrier {comp r pcs} (hended : ∀ x, pcs x = none) :
      AfforestStep g neighborRounds ⟨comp, .compressing r pcs⟩
        (startRound g neighborRounds comp (r + 1))
  | sample {comp} (x : Fin n) :
      AfforestStep g neighborRounds ⟨comp, .sampling⟩
        ⟨comp, .finishing (comp x) (finalTasks g neighborRounds (comp x))⟩
  | finish {comp c threads} (u : Fin n) (hu : threads u ≠ []) :
      AfforestStep g neighborRounds ⟨comp, .finishing c threads⟩
        ⟨(LinkState.step ⟨comp, threads⟩ u).comp,
          .finishing c (LinkState.step ⟨comp, threads⟩ u).threads⟩
  | finishBarrier {comp c threads} (hended : ∀ u, threads u = []) :
      AfforestStep g neighborRounds ⟨comp, .finishing c threads⟩
        ⟨comp, .compressingLast fun _ => some .load⟩
  | compressLast {comp pcs} (x : Fin n) (hx : pcs x ≠ none) :
      AfforestStep g neighborRounds ⟨comp, .compressingLast pcs⟩
        ⟨(CompressState.step ⟨comp, pcs⟩ x).comp,
          .compressingLast (CompressState.step ⟨comp, pcs⟩ x).pcs⟩
  | compressLastBarrier {comp pcs} (hended : ∀ x, pcs x = none) :
      AfforestStep g neighborRounds ⟨comp, .compressingLast pcs⟩ ⟨comp, .returned⟩

def Graph.Edge (g : Graph n) (u v : Fin n) : Prop :=
  v ∈ g.outNeigh u

/-- Two vertices lie in one weakly connected component. -/
def Graph.Connected (g : Graph n) (u v : Fin n) : Prop :=
  Relation.EqvGen g.Edge u v

variable {g : Graph n} {neighborRounds : Nat}

/-- The edges at the first offsets have been linked. -/
def Sampled (g : Graph n) (comp : Fin n → Fin n) (r : Nat) : Prop :=
  ∀ u v i, i < r → (g.outNeigh u)[i]? = some v → root comp u = root comp v

def Linked (g : Graph n) (comp : Fin n → Fin n) : Prop :=
  ∀ u v, g.Edge u v → root comp u = root comp v

/-- What holds in every phase: no entry exceeds its index, and every entry is
connected to its index. -/
structure Base (g : Graph n) (comp : Fin n → Fin n) : Prop where
  descending : Descending comp
  within : ∀ x, g.Connected x (comp x)

def AfforestState.Inv (g : Graph n) (neighborRounds : Nat) (s : AfforestState n) : Prop :=
  Base g s.comp ∧
    match s.stage with
    | .linking r threads =>
        LinkState.Inv ⟨s.comp, threads⟩ ∧ LinkState.Within g.Edge ⟨s.comp, threads⟩ ∧
          Sampled g s.comp r ∧
          ∀ u, ∀ t ∈ roundTasks g r u, LinkState.Accounts ⟨s.comp, threads⟩ u t
    | .compressing r pcs => CompressState.Inv ⟨s.comp, pcs⟩ ∧ Sampled g s.comp (r + 1)
    | .sampling => Sampled g s.comp neighborRounds
    | .finishing c threads =>
        LinkState.Inv ⟨s.comp, threads⟩ ∧ LinkState.Within g.Edge ⟨s.comp, threads⟩ ∧
          Sampled g s.comp neighborRounds ∧
          ∀ u, ∀ t ∈ finalTasks g neighborRounds c u, LinkState.Accounts ⟨s.comp, threads⟩ u t
    | .compressingLast pcs => CompressState.Inv ⟨s.comp, pcs⟩ ∧ Linked g s.comp
    | .returned => Linked g s.comp ∧ ∀ x, s.comp x = root s.comp x

variable {r : Nat} {comp comp' : Fin n → Fin n}

theorem Sampled.grows (h : Sampled g comp r) (hdesc : Descending comp) (hgrows : Grows comp comp') :
    Sampled g comp' r :=
  fun u v i hi hv => hgrows.joined hdesc u v (h u v i hi hv)

theorem Sampled.congr (h : Sampled g comp r) (hroot : ∀ x, root comp' x = root comp x) :
    Sampled g comp' r := by
  intro u v i hi hv
  rw [hroot, hroot]
  exact h u v i hi hv

theorem Base.compress {s : CompressState n} (hbase : Base g s.comp) (h : s.Inv) (x : Fin n) :
    Base g (s.step x).comp := by
  obtain ⟨hinv, hroot⟩ := h.step x
  refine ⟨hinv.descending, ?_⟩
  intro z
  apply eqvGen_of_root_eq hbase.within
  rw [← hroot z, ← hroot, root_parent hinv.descending]

theorem within_finalTasks (hg : g.Inverse) (hbase : Base g comp) (c : Fin n) :
    LinkState.Within g.Edge ⟨comp, finalTasks g neighborRounds c⟩ := by
  refine ⟨hbase.within, ?_⟩
  intro u t ht p hp
  obtain rfl := mem_singleton.mp ht
  obtain hp | hp := mem_append.mp hp
  · obtain ⟨v, hv, rfl⟩ := mem_map.mp hp
    exact Relation.EqvGen.rel _ _ (mem_of_mem_drop hv)
  · split_ifs at hp
    · obtain ⟨v, hv, rfl⟩ := mem_map.mp hp
      exact (Relation.EqvGen.rel _ _ ((hg u v).mp hv)).symm _ _
    · cases hp

variable {threads : Fin n → List (Task n)}

theorem inv_of_fresh (hdesc : Descending comp) (hfresh : ∀ u, ∀ t ∈ threads u, t.Inv comp) :
    LinkState.Inv ⟨comp, threads⟩ :=
  ⟨hdesc, hfresh⟩

/-- The head of the loop over the rounds. -/
theorem inv_startRound (hbase : Base g comp) (hsampled : Sampled g comp r) :
    (startRound g neighborRounds comp r).Inv g neighborRounds := by
  unfold startRound
  split_ifs with hr
  · refine ⟨hbase, inv_of_fresh hbase.descending ?_, ⟨hbase.within, ?_⟩, hsampled, ?_⟩
    · intro u t ht
      obtain ⟨v, -, rfl⟩ := mem_map.mp ht
      exact trivial
    · -- the tasks of a round link vertices that are connected
      intro u t ht p hp
      obtain ⟨v, hv, rfl⟩ := mem_map.mp ht
      obtain rfl := mem_singleton.mp hp
      exact Relation.EqvGen.rel _ _ (mem_of_mem_drop (mem_of_mem_take hv))
    · intro u t ht
      exact accounts_of_mem ht
  · refine ⟨hbase, ?_⟩
    intro u v i hi hv
    exact hsampled u v i (hi.trans_le (not_lt.mp hr)) hv

/-- When a round has ended, the edges at its offset have been linked. -/
theorem sampled_succ (hsampled : Sampled g comp r)
    (haccounts : ∀ u, ∀ t ∈ roundTasks g r u, LinkState.Accounts ⟨comp, threads⟩ u t)
    (hended : ∀ u, threads u = []) : Sampled g comp (r + 1) := by
  intro u v i hi hv
  obtain hi | rfl := Nat.lt_succ_iff_lt_or_eq.mp hi
  · exact hsampled u v i hi hv
  · have ht : Task.call (u, v) ∈ roundTasks g i u := by
      refine mem_map.mpr ⟨v, ?_, rfl⟩
      rw [take_one, head?_drop, hv]
      simp
    apply haccounts u _ ht comp (Grows.refl comp)
    intro t' ht'
    change t' ∈ threads u at ht'
    rw [hended u] at ht'
    cases ht'

/-- **When the last phase has ended, all edges have been linked.**  An edge between a
skipped vertex and another one was linked by the other one. -/
theorem linked_of_finished (hg : g.Inverse) {c : Fin n} (hsampled : Sampled g comp neighborRounds)
    (haccounts : ∀ u, ∀ t ∈ finalTasks g neighborRounds c u, LinkState.Accounts ⟨comp, threads⟩ u t)
    (hended : ∀ u, threads u = []) : Linked g comp := by
  have hdone : ∀ u, root comp u = root comp c ∨
      ∀ p ∈ finalCalls g neighborRounds u, root comp p.1 = root comp p.2 := by
    intro u
    refine haccounts u _ (mem_singleton_self _) comp (Grows.refl comp) ?_
    intro t' ht'
    change t' ∈ threads u at ht'
    rw [hended u] at ht'
    cases ht'
  -- A vertex that was not skipped has linked its outgoing edges.
  have hout : ∀ u v, g.Edge u v →
      (∀ p ∈ finalCalls g neighborRounds u, root comp p.1 = root comp p.2) →
      root comp u = root comp v := by
    intro u v hedge hcalls
    obtain ⟨i, hi⟩ := getElem?_of_mem hedge
    by_cases hlt : i < neighborRounds
    · exact hsampled u v i hlt hi
    · apply hcalls (u, v)
      have hdrop : ((g.outNeigh u).drop neighborRounds)[i - neighborRounds]? = some v := by
        rw [getElem?_drop, Nat.add_sub_cancel' (not_lt.mp hlt), hi]
      exact mem_append_left _ (mem_map.mpr ⟨v, mem_of_getElem? hdrop, rfl⟩)
  intro u v hedge
  obtain hu | hu := hdone u
  · obtain hv | hv := hdone v
    · rw [hu, hv]
    · by_cases hdirected : g.directed = true
      · refine (hv (v, u) ?_).symm
        apply mem_append_right
        rw [if_pos hdirected]
        exact mem_map_of_mem ((hg v u).mpr hedge)
      · refine (hout v u ?_ hv).symm
        have hin : g.inNeigh = g.outNeigh := g.inNeigh_eq (by simpa using hdirected)
        have hmem := (hg v u).mpr hedge
        rwa [hin] at hmem
  · exact hout u v hedge hu

/-- **Every step keeps the invariant of its phase.** -/
theorem AfforestState.Inv.step (hg : g.Inverse) {s s' : AfforestState n}
    (h : s.Inv g neighborRounds) (hstep : AfforestStep g neighborRounds s s') :
    s'.Inv g neighborRounds := by
  cases hstep with
  | link u hu | finish u hu =>
    obtain ⟨hbase, hinv, hwithin, hsampled, haccounts⟩ := h
    have hwithin' := hwithin.step hinv u
    refine ⟨⟨(hinv.step u).descending, hwithin'.comp⟩, hinv.step u, hwithin',
      hsampled.grows hbase.descending (step_grows hinv u), ?_⟩
    intro u' t ht
    exact (haccounts u' t ht).step hinv u
  | linkBarrier hended =>
    obtain ⟨hbase, -, -, hsampled, haccounts⟩ := h
    exact ⟨hbase, inv_compressStart hbase.descending, sampled_succ hsampled haccounts hended⟩
  | compress x hx =>
    obtain ⟨hbase, hinv, hsampled⟩ := h
    exact ⟨hbase.compress hinv x, (hinv.step x).1, hsampled.congr (hinv.step x).2⟩
  | compressBarrier hended =>
    obtain ⟨hbase, -, hsampled⟩ := h
    exact inv_startRound hbase hsampled
  | sample x =>
    obtain ⟨hbase, hsampled⟩ := h
    refine ⟨hbase, inv_of_fresh hbase.descending ?_, within_finalTasks hg hbase _, hsampled, ?_⟩
    · intro u t ht
      obtain rfl := mem_singleton.mp ht
      exact trivial
    · intro u t ht
      exact accounts_of_mem ht
  | finishBarrier hended =>
    obtain ⟨hbase, -, -, hsampled, haccounts⟩ := h
    exact ⟨hbase, inv_compressStart hbase.descending,
      linked_of_finished hg hsampled haccounts hended⟩
  | compressLast x hx =>
    obtain ⟨hbase, hinv, hlinked⟩ := h
    refine ⟨hbase.compress hinv x, (hinv.step x).1, ?_⟩
    intro u v hedge
    rw [(hinv.step x).2, (hinv.step x).2]
    exact hlinked u v hedge
  | compressLastBarrier hended =>
    obtain ⟨hbase, hinv, hlinked⟩ := h
    refine ⟨hbase, hlinked, fun x => ?_⟩
    -- all vertices have ended their loops, so every entry is a root
    have hx := hinv.places x
    dsimp only at hx
    rw [hended x] at hx
    exact (root_of_fixed hx).symm.trans (root_parent hinv.descending x)

theorem inv_afforestStart : (afforestStart g neighborRounds).Inv g neighborRounds := by
  apply inv_startRound
  · exact ⟨fun x => le_refl x, fun x => Relation.EqvGen.refl x⟩
  · intro u v i hi
    exact absurd hi (Nat.not_lt_zero i)

variable {s : AfforestState n}

theorem inv_of_reachable (hg : g.Inverse)
    (hs : Relation.ReflTransGen (AfforestStep g neighborRounds) (afforestStart g neighborRounds)
      s) :
    s.Inv g neighborRounds := by
  induction hs with
  | refl => exact inv_afforestStart
  | tail _ hstep ih => exact ih.step hg hstep

theorem returned_of_stuck (hn : 0 < n) (hstuck : ∀ s', ¬ AfforestStep g neighborRounds s s') :
    s.stage = .returned := by
  obtain ⟨comp, stage⟩ := s
  cases stage with
  | linking r threads =>
    by_cases hended : ∀ u, threads u = []
    · exact absurd (AfforestStep.linkBarrier hended) (hstuck _)
    · obtain ⟨u, hu⟩ := not_forall.mp hended
      exact absurd (AfforestStep.link u hu) (hstuck _)
  | compressing r pcs =>
    by_cases hended : ∀ x, pcs x = none
    · exact absurd (AfforestStep.compressBarrier hended) (hstuck _)
    · obtain ⟨x, hx⟩ := not_forall.mp hended
      exact absurd (AfforestStep.compress x hx) (hstuck _)
  | sampling => exact absurd (AfforestStep.sample ⟨0, hn⟩) (hstuck _)
  | finishing c threads =>
    by_cases hended : ∀ u, threads u = []
    · exact absurd (AfforestStep.finishBarrier hended) (hstuck _)
    · obtain ⟨u, hu⟩ := not_forall.mp hended
      exact absurd (AfforestStep.finish u hu) (hstuck _)
  | compressingLast pcs =>
    by_cases hended : ∀ x, pcs x = none
    · exact absurd (AfforestStep.compressLastBarrier hended) (hstuck _)
    · obtain ⟨x, hx⟩ := not_forall.mp hended
      exact absurd (AfforestStep.compressLast x hx) (hstuck _)
  | returned => rfl

/-- The steps that the threads of a phase have left. -/
def threadsMeasure (threads : Fin n → List (Task n)) : Nat :=
  ∑ u, ((threads u).map Task.measure).sum

/-- The steps that the vertices have left. -/
def pcsMeasure (s : CompressState n) : Nat :=
  ∑ x, s.measure x

/-- The phases that are left, and the steps of the current one. -/
def AfforestState.measure (neighborRounds : Nat) (s : AfforestState n) : Nat ×ₗ Nat :=
  match s.stage with
  | .linking r threads => toLex (5 + 2 * (neighborRounds - r), threadsMeasure threads)
  | .compressing r pcs => toLex (4 + 2 * (neighborRounds - r), pcsMeasure ⟨s.comp, pcs⟩)
  | .sampling => toLex (3, 0)
  | .finishing _ threads => toLex (2, threadsMeasure threads)
  | .compressingLast pcs => toLex (1, pcsMeasure ⟨s.comp, pcs⟩)
  | .returned => toLex (0, 0)

theorem threadsMeasure_step {s : LinkState (Fin n) n} (h : s.Inv) {u : Fin n}
    (hu : s.threads u ≠ []) : threadsMeasure (s.step u).threads < threadsMeasure s.threads := by
  fun_cases LinkState.step s u with
  | case1 hnil => exact absurd hnil hu
  | case2 t rest hcons =>
    have hless := measure_step h.descending (h.tasks u t (by simp [hcons]))
    apply Finset.sum_lt_sum
    · intro u' _
      dsimp only
      by_cases hu' : u' = u
      · subst hu'
        rw [update_self, hcons, map_append, sum_append, map_cons, sum_cons]
        omega
      · rw [update_of_ne hu']
    · refine ⟨u, Finset.mem_univ u, ?_⟩
      dsimp only
      rw [update_self, hcons, map_append, sum_append, map_cons, sum_cons]
      omega

theorem pcsMeasure_step {s : CompressState n} (h : s.Inv) {x : Fin n} (hx : s.pcs x ≠ none) :
    pcsMeasure (s.step x) < pcsMeasure s := by
  obtain ⟨hless, hother⟩ := measure_compressStep h hx
  apply Finset.sum_lt_sum
  · intro y _
    by_cases hy : y = x
    · subst hy
      exact hless.le
    · exact (hother y hy).le
  · exact ⟨x, Finset.mem_univ x, hless⟩

/-- **Every step brings the end closer.** -/
theorem measure_afforestStep {s s' : AfforestState n} (h : s.Inv g neighborRounds)
    (hstep : AfforestStep g neighborRounds s s') :
    s'.measure neighborRounds < s.measure neighborRounds := by
  cases hstep with
  | link u hu | finish u hu =>
    exact Prod.Lex.toLex_lt_toLex.mpr (.inr ⟨rfl, threadsMeasure_step h.2.1 hu⟩)
  | linkBarrier hended =>
    rename_i comp r threads
    refine Prod.Lex.toLex_lt_toLex.mpr (.inl ?_)
    omega
  | compress x hx | compressLast x hx =>
    exact Prod.Lex.toLex_lt_toLex.mpr (.inr ⟨rfl, pcsMeasure_step h.2.1 hx⟩)
  | compressBarrier hended =>
    rename_i comp r pcs
    unfold startRound
    split_ifs with hr
    · refine Prod.Lex.toLex_lt_toLex.mpr (.inl ?_)
      omega
    · refine Prod.Lex.toLex_lt_toLex.mpr (.inl ?_)
      omega
  | sample x => exact Prod.Lex.toLex_lt_toLex.mpr (.inl (Nat.lt_succ_self 2))
  | finishBarrier hended => exact Prod.Lex.toLex_lt_toLex.mpr (.inl (Nat.lt_succ_self 1))
  | compressLastBarrier hended => exact Prod.Lex.toLex_lt_toLex.mpr (.inl (Nat.lt_succ_self 0))

theorem no_infinite_afforest (hg : g.Inverse) (states : Nat → AfforestState n)
    (hstart : states 0 = afforestStart g neighborRounds)
    (hstep : ∀ k, AfforestStep g neighborRounds (states k) (states (k + 1))) : False := by
  have hinv : ∀ k, (states k).Inv g neighborRounds := by
    intro k
    induction k with
    | zero =>
      rw [hstart]
      exact inv_afforestStart
    | succ k ih => exact ih.step hg (hstep k)
  have hanti : StrictAnti fun k => (states k).measure neighborRounds :=
    strictAnti_nat_of_succ_lt fun k => measure_afforestStep (hinv k) (hstep k)
  exact not_strictAnti_of_wellFoundedLT _ hanti

/-- Entries that are roots of trees that are components are the least vertices of
their components. -/
theorem isLeast_of_linked (hbase : Base g comp)
    (hlinked : Linked g comp) (hroot : ∀ x, comp x = root comp x) :
    (∀ u, IsLeast {v | g.Connected u v} (comp u)) ∧ ∀ u v, comp u = comp v ↔ g.Connected u v := by
  have hconnected : ∀ u v, g.Connected u v → root comp u = root comp v :=
    fun u v huv => root_eq_of_eqvGen hlinked huv
  constructor
  · intro u
    refine ⟨hbase.within u, ?_⟩
    intro v huv
    rw [hroot u, hconnected u v huv]
    exact root_le v
  · intro u v
    constructor
    · intro heq
      rw [hroot u, hroot v] at heq
      exact eqvGen_of_root_eq hbase.within heq
    · intro huv
      rw [hroot u, hroot v]
      exact hconnected u v huv

/-- **`Afforest` computes connected components.**  However its threads are scheduled,
whatever the number of sampling rounds and whichever label is sampled, no execution
is infinite, and an execution that cannot go on has returned the least vertex of
each component. -/
theorem afforest_components
    (g : Graph n)
    (hn : 0 < n)
    (hg : g.Inverse)
    (neighborRounds : Nat) :
    (¬ ∃ states : Nat → AfforestState n, states 0 = afforestStart g neighborRounds ∧
        ∀ k, AfforestStep g neighborRounds (states k) (states (k + 1))) ∧
      ∀ s, Relation.ReflTransGen (AfforestStep g neighborRounds)
          (afforestStart g neighborRounds) s →
        (∀ s', ¬ AfforestStep g neighborRounds s s') →
        s.stage = .returned ∧ (∀ u, IsLeast {v | g.Connected u v} (s.comp u)) ∧
          ∀ u v, s.comp u = s.comp v ↔ g.Connected u v := by
  constructor
  · rintro ⟨states, hstart, hstep⟩
    exact no_infinite_afforest hg states hstart hstep
  · intro s hs hstuck
    have hreturned := returned_of_stuck hn hstuck
    obtain ⟨hbase, hstage⟩ := inv_of_reachable hg hs
    rw [hreturned] at hstage
    exact ⟨hreturned, isLeast_of_linked hbase hstage.1 hstage.2⟩

/-- A directed edge and a vertex without neighbours. -/
def exampleDigraph : Graph 3 :=
  { directed := true
    outNeigh := fun u => if u = 2 then [1] else []
    inNeigh := fun u => if u = 1 then [2] else []
    inNeigh_eq := by simp }

theorem afforest_components_exampleDigraph :
    ¬ ∃ states : Nat → AfforestState 3, states 0 = afforestStart exampleDigraph 2 ∧
      ∀ k, AfforestStep exampleDigraph 2 (states k) (states (k + 1)) :=
  (afforest_components exampleDigraph (by decide) (by unfold Graph.Inverse; decide) 2).1

end HotTLBApps.Gapbs
