import HotTLBApps.Lib.Loops
import HotTLBApps.Lib.Walks
import HotTLBApps.Gapbs.Graph

/-!
# GAPBS: relaxing edges (`src/sssp.cc`)

What `DeltaStep` and the Dijkstra search of `SSSPVerifier` share: distances that only
decrease, by edges that are relaxed.  Distances and weights are 32-bit integers; an
addition that leaves their range is `none`.
-/

namespace HotTLBApps.Gapbs

open Walks List Function Loops

variable {n : Nat}

/-- `WNode`: a neighbour and the weight of the edge to it. -/
structure WNode (n : Nat) where
  v : Fin n
  w : Int
  deriving DecidableEq

abbrev WGraph (n : Nat) := CSRGraph n (WNode n)

/-- The largest value of `WeightT`. -/
def weightMax : Int :=
  2147483647

def kDistInf : Int :=
  1073741823

/-- A value of type `WeightT`; `none` if it is out of range. -/
def weight32 (x : Int) : Option Int :=
  if -weightMax - 1 ≤ x ∧ x ≤ weightMax then some x else none

/-- The weights that the search is made for. -/
def WGraph.WeightsOk (g : WGraph n) : Prop :=
  ∀ u, ∀ wn ∈ g.outNeigh u, 0 ≤ wn.w ∧ wn.w < kDistInf

def WGraph.WEdge (g : WGraph n) (u v : Fin n) (w : Nat) : Prop :=
  ⟨v, w⟩ ∈ g.outNeigh u

/-- Distances that are lengths of walks from the source, or infinite. -/
structure Labels (g : WGraph n) (source : Fin n) (dist : Fin n → Int) : Prop where
  root : dist source = 0
  le_inf : ∀ v, dist v ≤ kDistInf
  walk : ∀ v, dist v < kDistInf → ∃ k : Nat, dist v = k ∧ Walk g.WEdge source v k

/-- No edge of a vertex can improve a distance. -/
def Relaxed (g : WGraph n) (dist : Fin n → Int) (u : Fin n) : Prop :=
  ∀ wn ∈ g.outNeigh u, dist wn.v ≤ dist u + wn.w

def totalDist (dist : Fin n → Int) : Nat :=
  ∑ v, (dist v).toNat

variable {g : WGraph n} {source u : Fin n} {dist : Fin n → Int}

theorem Labels.nonneg (h : Labels g source dist) (v : Fin n) : 0 ≤ dist v := by
  by_cases hv : dist v < kDistInf
  · obtain ⟨k, hk, -⟩ := h.walk v hv
    omega
  · have : (0 : Int) ≤ kDistInf := by decide
    omega

/-- **An edge that is relaxed** makes a walk longer by the edge. -/
theorem Labels.lower (h : Labels g source dist) (hweights : g.WeightsOk) {wn : WNode n}
    (hwn : wn ∈ g.outNeigh u) (hlower : dist u + wn.w < dist wn.v) :
    Labels g source (update dist wn.v (dist u + wn.w)) := by
  obtain ⟨hw, -⟩ := hweights u wn hwn
  have hu := h.nonneg u
  have hv := h.le_inf wn.v
  have hsource : source ≠ wn.v := by
    rintro rfl
    rw [h.root] at hlower
    omega
  refine ⟨?_, ?_, ?_⟩
  · rw [update_of_ne hsource, h.root]
  · exact (forall_update_iff dist fun _ d => d ≤ kDistInf).mpr
      ⟨by omega, fun x _ => h.le_inf x⟩
  · intro x hx
    by_cases hxv : x = wn.v
    · subst hxv
      rw [update_self] at hx ⊢
      obtain ⟨k, hk, hwalk⟩ := h.walk u (by omega)
      refine ⟨k + wn.w.toNat, by omega, hwalk.snoc ?_⟩
      rw [WGraph.WEdge, Int.toNat_of_nonneg hw]
      exact hwn
    · rw [update_of_ne hxv] at hx ⊢
      exact h.walk x hx

theorem Relaxed.mono {dist' : Fin n → Int} (h : Relaxed g dist u) (hle : ∀ v, dist' v ≤ dist v)
    (hu : dist' u = dist u) : Relaxed g dist' u := by
  intro wn hwn
  have := h wn hwn
  have := hle wn.v
  omega

theorem labels_source (g : WGraph n)
    (source : Fin n) : Labels g source (update (fun _ => kDistInf) source 0) := by
  refine ⟨update_self .., ?_, ?_⟩
  · exact (forall_update_iff _ fun _ d => d ≤ kDistInf).mpr ⟨by decide, fun _ _ => le_rfl⟩
  · intro v hv
    by_cases hvs : v = source
    · subst hvs
      exact ⟨0, update_self .., Walk.nil⟩
    · rw [update_of_ne hvs] at hv
      exact absurd hv (lt_irrefl _)

theorem totalDist_le
    (h : ∀ v, dist v ≤ kDistInf) : totalDist dist ≤ n * kDistInf.toNat := by
  calc totalDist dist ≤ ∑ _v : Fin n, kDistInf.toNat :=
        Finset.sum_le_sum fun v _ => Int.toNat_le_toNat (h v)
    _ = n * kDistInf.toNat := by rw [Finset.sum_const, Finset.card_univ, Fintype.card_fin,
        smul_eq_mul]

theorem totalDist_update {v : Fin n} {d : Int} (hd : 0 ≤ d)
    (hlower : d < dist v) : totalDist (update dist v d) < totalDist dist := by
  apply Finset.sum_lt_sum
  · intro x _
    rw [update_apply]
    split_ifs with hx
    · rw [hx]
      omega
    · rfl
  · refine ⟨v, Finset.mem_univ v, ?_⟩
    rw [update_self]
    omega

/-- **When no edge can be relaxed**, the labels are the distances, up to `kDistInf`. -/
theorem Labels.eq_min (h : Labels g source dist)
    (hrelaxed : ∀ u, dist u < kDistInf → Relaxed g dist u) (v : Fin n) :
    (∃ d : Nat, IsDist g.WEdge source v d ∧ dist v = min (d : Int) kDistInf) ∨
      ((¬ ∃ k, Walk g.WEdge source v k) ∧ dist v = kDistInf) := by
  have hnat : ∀ x, ((dist x).toNat : Int) = dist x := fun x => Int.toNat_of_nonneg (h.nonneg x)
  have hinf : ((kDistInf.toNat : Nat) : Int) = kDistInf := rfl
  have hsource : (dist source).toNat = 0 := by
    rw [h.root]
    rfl
  have hle : ∀ x, (dist x).toNat ≤ kDistInf.toNat := by
    intro x
    have := h.le_inf x
    omega
  have hwalk : ∀ x, (dist x).toNat < kDistInf.toNat → Walk g.WEdge source x (dist x).toNat := by
    intro x hx
    have hx' := hnat x
    obtain ⟨k, hk, hwalk⟩ := h.walk x (by omega)
    rw [hk]
    exact hwalk
  have hedges : ∀ x y w, g.WEdge x y w → (dist x).toNat < kDistInf.toNat →
      (dist y).toNat ≤ (dist x).toNat + w := by
    intro x y w hedge hx
    have := hrelaxed x (by omega) ⟨y, w⟩ hedge
    dsimp only at this
    omega
  have hv := hnat v
  rcases label_eq_min (f := fun x => (dist x).toNat) hsource hle hwalk hedges v with
    ⟨d, hd, heq⟩ | ⟨hnone, heq⟩
  · exact .inl ⟨d, hd, by omega⟩
  · exact .inr ⟨hnone, by omega⟩

/-- One edge of the loop over the neighbours of a vertex; `base` is the distance of the
vertex as the loop reads it, and `push` is what is done with an improved neighbour. -/
def relaxEdge
    {σ : Type} (base : (Fin n → Int) → Int) (push : σ → Fin n → Int → σ) (s : (Fin n → Int) × σ)
    (wn : WNode n) : Option ((Fin n → Int) × σ) := do
  let newDist ← weight32 (base s.1 + wn.w)
  if newDist < s.1 wn.v then
    some (Function.update s.1 wn.v newDist, push s.2 wn.v newDist)
  else
    some s

theorem weight32_add {d w : Int} (hd : 0 ≤ d) (hd' : d < kDistInf) (hw : 0 ≤ w)
    (hw' : w < kDistInf) : weight32 (d + w) = some (d + w) := by
  apply if_pos
  rw [kDistInf] at hd' hw'
  rw [weightMax]
  omega

variable {σ : Type}

/-- **The loop over the edges of a vertex.**  What every improvement keeps holds at the
end, and no edge of the vertex can be relaxed then. -/
theorem relaxEdges_spec {b : (Fin n → Int) → Int} {p : σ → Fin n → Int → σ}
    {J : (Fin n → Int) × σ → Prop} (hweights : g.WeightsOk) {du : Int} (hdu : 0 ≤ du)
    (hdu' : du < kDistInf) (hbase : ∀ dist : Fin n → Int, dist u = du → b dist = du)
    (hstep : ∀ s : (Fin n → Int) × σ, ∀ wn ∈ g.outNeigh u, J s → s.1 u = du → du + wn.w < s.1 wn.v →
        J (update s.1 wn.v (du + wn.w), p s.2 wn.v (du + wn.w))) {s : (Fin n → Int) × σ} (hJ : J s)
    (hu : s.1 u = du) :
    ∃ s', (g.outNeigh u).foldlM (relaxEdge b p) s = some s' ∧ J s' ∧ s'.1 u = du ∧
      Relaxed g s'.1 u := by
  -- Distances only decrease, so an edge that was relaxed stays so.
  have hrun : ∃ s', (g.outNeigh u).foldlM (relaxEdge b p) s = some s' ∧ J s' ∧ s'.1 u = du ∧
      ∀ wn ∈ g.outNeigh u, s'.1 wn.v ≤ du + wn.w := by
    refine foldlM_done_total (I := fun (done : List (WNode n)) s => J s ∧ s.1 u = du ∧
      ∀ wn ∈ done, s.1 wn.v ≤ du + wn.w) ?_ ⟨hJ, hu, nofun⟩
    rintro done wn rest s hsplit ⟨hJ, hu, hdone⟩
    have hmem : wn ∈ g.outNeigh u := hsplit ▸ mem_append_right _ mem_cons_self
    obtain ⟨hw, hw'⟩ := hweights u wn hmem
    obtain ⟨t, hedge, hJt, htu, htle, htv⟩ : ∃ t, relaxEdge b p s wn = some t ∧ J t ∧
        t.1 u = du ∧ t.1 ≤ s.1 ∧ t.1 wn.v ≤ du + wn.w := by
      rw [relaxEdge, hbase s.1 hu, weight32_add hdu hdu' hw hw']
      by_cases hlower : du + wn.w < s.1 wn.v
      · have hne : u ≠ wn.v := by
          rintro rfl
          omega
        exact ⟨_, if_pos hlower, hstep s wn hmem hJ hu hlower, (update_of_ne hne ..).trans hu,
          update_le_self_iff.mpr hlower.le, (update_self ..).le⟩
      · exact ⟨s, if_neg hlower, hJ, hu, le_rfl, not_lt.mp hlower⟩
    refine ⟨t, hedge, hJt, htu, forall_mem_append.mpr ⟨?_, forall_mem_singleton.mpr htv⟩⟩
    exact fun x hx => (htle x.v).trans (hdone x hx)
  obtain ⟨s', hfold, hJ', hu', hdone⟩ := hrun
  refine ⟨s', hfold, hJ', hu', ?_⟩
  intro wn hwn
  rw [hu']
  exact hdone wn hwn

end HotTLBApps.Gapbs
