import HotTLBApps.Gapbs.DeltaStep

/-!
# GAPBS: the verifier of the shortest paths (`src/sssp.cc`)

`SSSPVerifier` computes the distances by Dijkstra's algorithm with a priority queue that
keeps outdated entries, and compares them with those it is given.
-/

namespace HotTLBApps.Gapbs

open Walks Loops List Function Option

variable {n : Nat}

/-- The priority queue `mq`, the smallest entry first. -/
abbrev MinQueue (n : Nat) := List (Int × Fin n)

/-- `mq.push`. -/
def MinQueue.push (mq : MinQueue n) (e : Int × Fin n) : MinQueue n :=
  mq.orderedInsert (fun a b => toLex a ≤ toLex b) e

/-- One turn of the loop: an entry that is outdated is thrown away. -/
def dijkstraTurn
    (g : WGraph n) (s : (Fin n → Int) × MinQueue n) : Option ((Fin n → Int) × MinQueue n) :=
  match s.2 with
  | [] => none
  | (td, u) :: mq =>
      if td = s.1 u then
        (g.outNeigh u).foldlM
          (relaxEdge (fun _ => td) fun (mq : MinQueue n) v d => mq.push (d, v)) (s.1, mq)
      else
        some (s.1, mq)

/-- `oracle_dist`. -/
def dijkstra (g : WGraph n) (source : Fin n) (fuel : Nat) : Option (Fin n → Int) :=
  (whileM (fun s => s.2 ≠ []) (dijkstraTurn g) fuel
    (Function.update (fun _ => kDistInf) source 0, [(0, source)])).map Prod.fst

def ssspVerifier
    (g : WGraph n) (source : Fin n) (distToTest : Fin n → Int) (fuel : Nat) : Option Bool :=
  (dijkstra g source fuel).map fun oracleDist =>
    (List.finRange n).all fun v => distToTest v == oracleDist v

/-- Every finite distance of a vertex other than those of `busy` has been passed on, or
it waits in the queue. -/
structure Queued (g : WGraph n) (source : Fin n) (busy : Fin n → Prop)
    (s : (Fin n → Int) × MinQueue n) : Prop where
  labels : Labels g source s.1
  finite : ∀ e ∈ s.2, e.1 < kDistInf
  waits : ∀ v, ¬ busy v → s.1 v < kDistInf → Relaxed g s.1 v ∨ (s.1 v, v) ∈ s.2

/-- How much work is left at most. -/
def queueWork (s : (Fin n → Int) × MinQueue n) : Nat :=
  totalDist s.1 + s.2.length

variable {g : WGraph n} {source u : Fin n} {busy : Fin n → Prop}
  {s : (Fin n → Int) × MinQueue n}

theorem Queued.push (hweights : g.WeightsOk) (h : Queued g source busy s) {wn : WNode n}
    (hwn : wn ∈ g.outNeigh u) (hlower : s.1 u + wn.w < s.1 wn.v) :
    Queued g source busy (update s.1 wn.v (s.1 u + wn.w), s.2.push (s.1 u + wn.w, wn.v)) := by
  have hinf := h.labels.le_inf wn.v
  have hlabels := h.labels.lower hweights hwn hlower
  generalize s.1 u + wn.w = d at hlower hlabels
  have hmem : ∀ e, e ∈ s.2.push (d, wn.v) ↔ e = (d, wn.v) ∨ e ∈ s.2 := by
    intro e
    rw [MinQueue.push, mem_orderedInsert]
  refine ⟨hlabels, ?_, ?_⟩
  · intro e he
    obtain rfl | he := (hmem e).mp he
    · omega
    · exact h.finite e he
  · intro v hbusy hv
    dsimp only at hv ⊢
    by_cases hvw : v = wn.v
    · subst hvw
      rw [update_self]
      exact .inr ((hmem _).mpr (.inl rfl))
    · have hsame : update s.1 wn.v d v = s.1 v := update_of_ne hvw _ _
      rw [hsame] at hv ⊢
      obtain hrelaxed | hqueue := h.waits v hbusy hv
      · exact .inl (hrelaxed.mono (update_le_self_iff.mpr hlower.le) hsame)
      · exact .inr ((hmem _).mpr (.inr hqueue))

/-- **One turn of Dijkstra's loop.** -/
theorem Queued.turn (hweights : g.WeightsOk) (h : Queued g source (fun _ => False) s)
    (hne : s.2 ≠ []) : ∃ s', dijkstraTurn g s = some s' ∧ Queued g source (fun _ => False) s' ∧
      queueWork s' < queueWork s := by
  obtain ⟨dist, mq⟩ := s
  cases mq with
  | nil => exact absurd rfl hne
  | cons e mq =>
    obtain ⟨td, u⟩ := e
    have hless : queueWork (dist, mq) < queueWork (dist, (td, u) :: mq) := by
      simp only [queueWork, length_cons]
      omega
    rw [dijkstraTurn]
    dsimp only
    split_ifs with htd
    · subst htd
      have hbusy : Queued g source (· = u) (dist, mq) := by
        refine ⟨h.labels, fun e he => h.finite e (mem_cons_of_mem _ he), ?_⟩
        intro v hv hfinite
        obtain hrelaxed | hqueue := h.waits v not_false hfinite
        · exact .inl hrelaxed
        · obtain heq | hqueue := mem_cons.mp hqueue
          · exact absurd (Prod.ext_iff.mp heq).2 hv
          · exact .inr hqueue
      obtain ⟨s', hfold, ⟨hqueued, hwork⟩, -, hrelaxed⟩ := relaxEdges_spec
        (g := g) (u := u) (b := fun _ => dist u)
        (p := fun (mq : MinQueue n) v d => mq.push (d, v))
        (J := fun t => Queued g source (· = u) t ∧ queueWork t ≤ queueWork (dist, mq))
        hweights (h.labels.nonneg u) (h.finite _ mem_cons_self) (fun _ _ => rfl)
        (by
          rintro t wn hwn ⟨hqueued, hwork⟩ htu hlower
          obtain ⟨hw, -⟩ := hweights u wn hwn
          have hnonneg := hqueued.labels.nonneg u
          rw [← htu] at hlower ⊢
          refine ⟨hqueued.push hweights hwn hlower, le_trans ?_ hwork⟩
          -- an improved neighbour costs more distance than it adds to the queue
          have htotal := totalDist_update (by omega) hlower
          have hlength : (t.2.push (t.1 u + wn.2, wn.1)).length = t.2.length + 1 :=
            orderedInsert_length ..
          simp only [queueWork, hlength]
          omega)
        (And.intro hbusy le_rfl) rfl
      refine ⟨s', hfold, ⟨hqueued.labels, hqueued.finite, ?_⟩, by omega⟩
      intro v _ hfinite
      by_cases hv : v = u
      · subst hv
        exact .inl hrelaxed
      · exact hqueued.waits v hv hfinite
    · refine ⟨_, rfl, ⟨h.labels, fun e he => h.finite e (mem_cons_of_mem _ he), ?_⟩, hless⟩
      intro v _ hfinite
      obtain hrelaxed | hqueue := h.waits v not_false hfinite
      · exact .inl hrelaxed
      · obtain heq | hqueue := mem_cons.mp hqueue
        · have hv : v = u := (Prod.ext_iff.mp heq).2
          subst hv
          exact absurd (Prod.ext_iff.mp heq).1.symm htd
        · exact .inr hqueue

/-- **Dijkstra's algorithm ends with labels that no edge can improve.** -/
theorem dijkstra_labels (hweights : g.WeightsOk) (source : Fin n) {fuel : Nat}
    (hfuel : n * kDistInf.toNat < fuel) :
    ∃ dist, dijkstra g source fuel = some dist ∧ Labels g source dist ∧
      ∀ v, dist v < kDistInf → Relaxed g dist v := by
  have hlabels := labels_source g source
  have hstart : Queued g source (fun _ => False)
      (update (fun _ => kDistInf) source 0, [(0, source)]) := by
    refine ⟨hlabels, ?_, ?_⟩
    · intro e he
      rw [mem_singleton.mp he]
      exact (by decide : (0 : Int) < kDistInf)
    · intro v _ hv
      dsimp only at hv ⊢
      by_cases hvs : v = source
      · subst hvs
        rw [update_self]
        exact .inr mem_cons_self
      · rw [update_of_ne hvs] at hv
        exact absurd hv (lt_irrefl _)
  have hwork : queueWork (update (fun _ => kDistInf) source 0, [(0, source)]) ≤ fuel := by
    have htotal := totalDist_le hlabels.le_inf
    simp only [queueWork, length_singleton]
    omega
  obtain ⟨s', hloop, hqueued, hdone⟩ := whileM_total (m := queueWork)
    (I := Queued g source fun _ => False)
    (fun s hs hne => hs.turn hweights hne) hstart hwork
  rw [not_not] at hdone
  refine ⟨s'.1, ?_, hqueued.labels, ?_⟩
  · rw [dijkstra, hloop]
    rfl
  · intro v hv
    obtain hrelaxed | hqueue := hqueued.waits v not_false hv
    · exact hrelaxed
    · rw [hdone] at hqueue
      cases hqueue

theorem Labels.unique {dist dist' : Fin n → Int} (h : Labels g source dist)
    (hrelaxed : ∀ v, dist v < kDistInf → Relaxed g dist v) (h' : Labels g source dist')
    (hrelaxed' : ∀ v, dist' v < kDistInf → Relaxed g dist' v) : dist = dist' := by
  funext v
  obtain ⟨d, hd, heq⟩ | ⟨hnone, heq⟩ := h.eq_min hrelaxed v
  · obtain ⟨d', hd', heq'⟩ | ⟨hnone', -⟩ := h'.eq_min hrelaxed' v
    · rw [heq, heq', hd.unique hd']
    · exact absurd ⟨d, hd.walk⟩ hnone'
  · obtain ⟨d', hd', -⟩ | ⟨-, heq'⟩ := h'.eq_min hrelaxed' v
    · exact absurd ⟨d', hd'.walk⟩ hnone
    · rw [heq, heq']

/-- **`DeltaStep` with one thread ends and returns the distances**, cut off at `kDistInf`;
they are the ones that `SSSPVerifier` computes.  No computation leaves its range: the
result would be `none`. -/
theorem deltaStep_spec
    (hweights : g.WeightsOk)
    (source : Fin n)
    {delta : Int}
    (hdelta : 1 ≤ delta)
    {fuel : Nat}
    (hfuel : n * kDistInf.toNat < fuel) :
    ∃ dist, deltaStep g source delta fuel = some dist ∧
      (∀ v, (∃ d : Nat, IsDist g.WEdge source v d ∧ dist v = min (d : Int) kDistInf) ∨
        ((¬ ∃ k, Walk g.WEdge source v k) ∧ dist v = kDistInf)) ∧
      dijkstra g source fuel = some dist ∧ ssspVerifier g source dist fuel = some true := by
  obtain ⟨dist, hdelta, hlabels, hrelaxed⟩ :=
    deltaStep_labels hweights source hdelta hfuel
  obtain ⟨oracleDist, hdijkstra, hlabels', hrelaxed'⟩ :=
    dijkstra_labels hweights source hfuel
  obtain rfl := hlabels.unique hrelaxed hlabels' hrelaxed'
  refine ⟨dist, hdelta, hlabels.eq_min hrelaxed, hdijkstra, ?_⟩
  rw [ssspVerifier, hdijkstra, map_some]
  simp

/-- A graph in which the direct edge is not the shortest path. -/
def detour : WGraph 4 where
  directed := true
  outNeigh := ![[⟨1, 90⟩, ⟨2, 10⟩], [⟨3, 100⟩], [⟨1, 70⟩], []]
  inNeigh := ![[], [⟨0, 90⟩, ⟨2, 70⟩], [⟨0, 10⟩], [⟨1, 100⟩]]
  inNeigh_eq h := by cases h

theorem detour_weightsOk : detour.WeightsOk := by
  unfold WGraph.WeightsOk
  decide

theorem deltaStep_spec_detour : detour.WeightsOk ∧
      ∃ dist, deltaStep detour 0 100 (2 ^ 32) = some dist ∧
        (∀ v, (∃ d : Nat, IsDist detour.WEdge 0 v d ∧ dist v = min (d : Int) kDistInf) ∨
          ((¬ ∃ k, Walk detour.WEdge 0 v k) ∧ dist v = kDistInf)) ∧
        dijkstra detour 0 (2 ^ 32) = some dist ∧
        ssspVerifier detour 0 dist (2 ^ 32) = some true :=
  ⟨detour_weightsOk, deltaStep_spec detour_weightsOk 0 (by decide) (by decide)⟩

example : (deltaStep detour 0 100 9).map List.ofFn = some [0, 80, 10, 180] := by
  decide +kernel

/-- **`SSSPVerifier` accepts the distances and nothing else.** -/
theorem ssspVerifier_iff
    (hweights : g.WeightsOk)
    (source : Fin n)
    {fuel : Nat}
    (hfuel : n * kDistInf.toNat < fuel)
    (dist : Fin n → Int) :
    ∃ answer, ssspVerifier g source dist fuel = some answer ∧ (answer = true ↔ ∀ v,
      (∃ d : Nat, IsDist g.WEdge source v d ∧ dist v = min (d : Int) kDistInf) ∨
        ((¬ ∃ k, Walk g.WEdge source v k) ∧ dist v = kDistInf)) := by
  rcases dijkstra_labels hweights source hfuel with ⟨oracleDist, hrun, hlabels, hrelaxed⟩
  have horacle := hlabels.eq_min hrelaxed
  refine ⟨_, by rw [ssspVerifier, hrun, map_some], ?_⟩
  simp only [List.all_eq_true, List.mem_finRange, beq_iff_eq, true_imp_iff]
  constructor
  · intro heq v
    rw [heq v]
    exact horacle v
  · intro hright v
    rcases hright v with ⟨d, hd, heq⟩ | ⟨hnone, heq⟩
    · rcases horacle v with ⟨d', hd', heq'⟩ | ⟨hnone', -⟩
      · rw [heq, heq', hd.unique hd']
      · exact absurd ⟨d, hd.walk⟩ hnone'
    · rcases horacle v with ⟨d', hd', -⟩ | ⟨-, heq'⟩
      · exact absurd ⟨d', hd'.walk⟩ hnone
      · rw [heq, heq']

/-- The detour of weight 10 and 70 is shorter than the edge. -/
theorem ssspVerifier_iff_detour :
    ssspVerifier detour 0 ![0, 80, 10, 180] (2 ^ 32) = some true ∧
      ∃ d : Nat, IsDist detour.WEdge 0 1 d ∧ (80 : Int) = min (d : Int) kDistInf := by
  have htrue : ssspVerifier detour 0 ![0, 80, 10, 180] (2 ^ 32) = some true := by decide +kernel
  have hfuel : 4 * kDistInf.toNat < 2 ^ 32 := by decide
  rcases ssspVerifier_iff detour_weightsOk 0 hfuel ![0, 80, 10, 180] with ⟨_, hrun, hiff⟩
  refine ⟨htrue, ((hiff.mp (some.inj (hrun.symm.trans htrue))) 1).resolve_right ?_⟩
  rintro ⟨-, heq⟩
  exact absurd heq (by decide)

end HotTLBApps.Gapbs
