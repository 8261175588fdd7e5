import HotTLBApps.Gapbs.Relaxation

/-!
# GAPBS: ∆-stepping with one thread (`src/sssp.cc`)

A vertex whose distance improves is put into the bin of its new distance; it is not
removed from older bins.  A turn of the main loop goes through the frontier, which is a
copy of a bin, then through what was put into the same bin meanwhile, and then it
chooses the next bin.  The buffer of the frontier is unbounded here.

The invariant (`Pending`): a vertex with a finite distance has no edge that can be
relaxed, or it waits in the bin of its distance, or it is still to come in the turn that
goes on.  No bin below the current one holds a vertex, so a vertex of the frontier whose
distance fell below the current bin was relaxed already, and it is skipped.
-/

namespace HotTLBApps.Gapbs

open Walks Loops List Function Option

variable {n : Nat}

def kMaxBin : Nat :=
  (2 ^ 64 - 1) / 2

def kBinSizeThreshold : Nat :=
  1000

abbrev Bins (n : Nat) := List (List (Fin n))

def Bins.bin (bins : Bins n) (b : Nat) : List (Fin n) :=
  bins.getD b []

def destBin (delta d : Int) : Nat :=
  (d.tdiv delta).toNat

/-- `local_bins.resize`, when it makes the vector longer. -/
def Bins.grow (bins : Bins n) (size : Nat) : Bins n :=
  bins ++ List.replicate (size - bins.length) []

def Bins.push (bins : Bins n) (b : Nat) (v : Fin n) : Bins n :=
  let bins := if b ≥ bins.length then bins.grow (b + 1) else bins
  bins.set b (bins.bin b ++ [v])

def relaxEdges (g : WGraph n) (delta : Int) (s : (Fin n → Int) × Bins n)
    (u : Fin n) : Option ((Fin n → Int) × Bins n) :=
  (g.outNeigh u).foldlM
    (relaxEdge (fun dist => dist u) fun bins v d => bins.push (destBin delta d) v) s

/-- `static_cast<WeightT>` of the number of a bin, and its product with `delta`. -/
def binStart (delta : Int) (b : Nat) : Option Int := do
  let b ← weight32 b
  weight32 (delta * b)

/-- One vertex of the shared frontier. -/
def visit (g : WGraph n) (delta : Int) (currBin : Nat) (s : (Fin n → Int) × Bins n)
    (u : Fin n) : Option ((Fin n → Int) × Bins n) := do
  let low ← binStart delta currBin
  if s.1 u ≥ low then relaxEdges g delta s u else some s

/-- The condition of the loop below: the current bin holds vertices, but not too many. -/
def Fusible (currBin : Nat) (s : (Fin n → Int) × Bins n) : Prop :=
  currBin < s.2.length ∧ s.2.bin currBin ≠ [] ∧ (s.2.bin currBin).length < kBinSizeThreshold

instance (currBin : Nat) : DecidablePred (Fusible (n := n) currBin) :=
  fun _ => inferInstanceAs (Decidable (_ ∧ _))

/-- The loop that empties the current bin of the thread in the same turn. -/
def fuseBins (g : WGraph n) (delta : Int) (currBin : Nat) :
    Nat → (Fin n → Int) × Bins n → Option ((Fin n → Int) × Bins n) :=
  whileM (Fusible currBin) fun s =>
    (s.2.bin currBin).foldlM (relaxEdges g delta) (s.1, s.2.set currBin [])

/-- The first bin from the current one on that holds a vertex. -/
def firstBin (bins : Bins n) (currBin : Nat) : Option Nat :=
  (List.range' currBin (bins.length - currBin)).find? fun b => bins.bin b ≠ []

/-- The variables of `DeltaStep`.  What `iter & 1` selects is `currBin` and `currTail`;
the roles are exchanged after every turn. -/
structure DeltaState (n : Nat) where
  dist : Fin n → Int
  bins : Bins n
  frontier : List (Fin n)
  currBin : Nat
  nextBin : Nat
  currTail : Nat
  nextTail : Nat

/-- The bin that was chosen is copied to the frontier. -/
def DeltaState.copyBin (s : DeltaState n) : DeltaState n :=
  if s.nextBin < s.bins.length then
    { s with
      frontier := s.frontier.take s.nextTail ++ s.bins.bin s.nextBin ++
        s.frontier.drop (s.nextTail + (s.bins.bin s.nextBin).length)
      nextTail := s.nextTail + (s.bins.bin s.nextBin).length
      bins := s.bins.set s.nextBin [] }
  else
    s

def deltaTurn
    (g : WGraph n) (delta : Int) (fuel : Nat) (s : DeltaState n) : Option (DeltaState n) := do
  let visited ← (s.frontier.take s.currTail).foldlM (visit g delta s.currBin) (s.dist, s.bins)
  let fused ← fuseBins g delta s.currBin fuel visited
  let nextBin := match firstBin fused.2 s.currBin with
    | some b => min s.nextBin b
    | none => s.nextBin
  let s' := { s with
    dist := fused.1, bins := fused.2, nextBin := nextBin
    currBin := kMaxBin, currTail := 0 }.copyBin
  some { s' with
    currBin := s'.nextBin, nextBin := s'.currBin
    currTail := s'.nextTail, nextTail := s'.currTail }

def deltaLoop (g : WGraph n) (delta : Int) (fuel : Nat) : DeltaState n → Option (DeltaState n) :=
  whileM (fun s => s.currBin ≠ kMaxBin) (deltaTurn g delta fuel) fuel

/-- The variables before the main loop. -/
def deltaStart (source : Fin n) : DeltaState n where
  dist := Function.update (fun _ => kDistInf) source 0
  bins := []
  frontier := [source]
  currBin := 0
  nextBin := kMaxBin
  currTail := 1
  nextTail := 0

/-- `DeltaStep` with one thread; `none` when the fuel does not suffice or a computation
leaves the range of its type. -/
def deltaStep (g : WGraph n) (source : Fin n) (delta : Int) (fuel : Nat) : Option (Fin n → Int) :=
  (deltaLoop g delta fuel (deltaStart source)).map DeltaState.dist

variable {bins : Bins n} {b c : Nat} {v : Fin n}

theorem bin_grow (bins : Bins n) (size b : Nat) : (bins.grow size).bin b = bins.bin b := by
  simp only [Bins.grow, Bins.bin, getD_eq_getElem?_getD]
  obtain hb | hb := Nat.lt_or_ge b bins.length
  · rw [getElem?_append_left hb]
  · rw [getElem?_append_right hb, getElem?_eq_none hb, getElem?_replicate]
    split_ifs <;> rfl

theorem bin_set_self (hb : b < bins.length) (l : List (Fin n)) : Bins.bin (bins.set b l) b = l := by
  rw [Bins.bin, getD_eq_getElem?_getD, getElem?_set_self hb]
  rfl

theorem bin_set_of_ne (hne : c ≠ b)
    (l : List (Fin n)) : Bins.bin (bins.set b l) c = bins.bin c := by
  rw [Bins.bin, Bins.bin, getD_eq_getElem?_getD, getElem?_set_ne (Ne.symm hne),
    getD_eq_getElem?_getD]

theorem bin_of_length_le (hb : bins.length ≤ b) : bins.bin b = [] := by
  rw [Bins.bin, getD_eq_getElem?_getD, getElem?_eq_none hb]
  rfl

theorem push_eq (bins : Bins n) (b : Nat) (v : Fin n) :
    ∃ grown : Bins n, bins.push b v = grown.set b (bins.bin b ++ [v]) ∧ b < grown.length ∧
      grown.length = max bins.length (b + 1) ∧ (∀ c, grown.bin c = bins.bin c) ∧
      (grown.map length).sum = (bins.map length).sum := by
  by_cases hb : b ≥ bins.length
  · have hlength : (bins.grow (b + 1)).length = max bins.length (b + 1) := by
      rw [Bins.grow, length_append, length_replicate]
      omega
    refine ⟨bins.grow (b + 1), ?_, by omega, hlength, bin_grow bins _, ?_⟩
    · rw [Bins.push, if_pos hb, bin_grow]
    · rw [Bins.grow, map_append, sum_append, map_replicate]
      simp
  · refine ⟨bins, ?_, by omega, by omega, fun _ => rfl, rfl⟩
    rw [Bins.push, if_neg hb]

theorem bin_push_self (bins : Bins n) (b : Nat)
    (v : Fin n) : (bins.push b v).bin b = bins.bin b ++ [v] := by
  obtain ⟨grown, heq, hlt, -, -, -⟩ := push_eq bins b v
  rw [heq, bin_set_self hlt]

theorem bin_push_of_ne (bins : Bins n) (v : Fin n)
    (hne : c ≠ b) : (bins.push b v).bin c = bins.bin c := by
  obtain ⟨grown, heq, -, -, hbin, -⟩ := push_eq bins b v
  rw [heq, bin_set_of_ne hne, hbin]

theorem length_push (bins : Bins n) (b : Nat)
    (v : Fin n) : (bins.push b v).length = max bins.length (b + 1) := by
  obtain ⟨grown, heq, -, hlength, -, -⟩ := push_eq bins b v
  rw [heq, length_set, hlength]

theorem mem_bin_push {x : Fin n}
    (hx : x ∈ (bins.push b v).bin c) : x ∈ bins.bin c ∨ (c = b ∧ x = v) := by
  by_cases hcb : c = b
  · subst hcb
    rw [bin_push_self, mem_append, mem_singleton] at hx
    exact hx.imp_right fun h => ⟨rfl, h⟩
  · rw [bin_push_of_ne bins v hcb] at hx
    exact .inl hx

theorem mem_bin_push_of_mem {x : Fin n} (hx : x ∈ bins.bin c) : x ∈ (bins.push b v).bin c := by
  by_cases hcb : c = b
  · subst hcb
    rw [bin_push_self]
    exact mem_append_left _ hx
  · rwa [bin_push_of_ne bins v hcb]

/-- The number of vertices in all bins. -/
def binned (bins : Bins n) : Nat :=
  (bins.map List.length).sum

theorem binned_set (hb : b < bins.length) (l : List (Fin n)) :
    binned (bins.set b l) + (bins.bin b).length = binned bins + l.length := by
  induction bins generalizing b with
  | nil => cases hb
  | cons x bins ih =>
    cases b with
    | zero =>
      simp only [binned, Bins.bin, set_cons_zero, map_cons, sum_cons, getD_cons_zero]
      omega
    | succ b =>
      have hrest := ih (Nat.lt_of_succ_lt_succ hb)
      simp only [binned, Bins.bin, set_cons_succ, map_cons, sum_cons, getD_cons_succ] at hrest ⊢
      omega

theorem binned_push (bins : Bins n) (b : Nat)
    (v : Fin n) : binned (bins.push b v) = binned bins + 1 := by
  obtain ⟨grown, heq, hlt, -, hbin, hsum⟩ := push_eq bins b v
  have hset := binned_set hlt (bins.bin b ++ [v])
  rw [hbin, length_append, length_singleton] at hset
  rw [heq]
  simp only [binned] at hset ⊢
  omega

/-- What holds in a turn for the bin `c`, when the vertices `todo` are still to come. -/
structure Pending (g : WGraph n) (source : Fin n) (delta : Int) (c : Nat) (todo : List (Fin n))
    (s : (Fin n → Int) × Bins n) : Prop where
  labels : Labels g source s.1
  low : ∀ b, s.2.bin b ≠ [] → c ≤ b
  fresh : ∀ v ∈ s.2.bin c, delta * c ≤ s.1 v
  finite : ∀ b, ∀ v ∈ s.2.bin b, s.1 v < kDistInf
  range : ∀ b, s.2.bin b ≠ [] → delta * b < kDistInf
  length : (s.2.length : Int) ≤ kDistInf
  todoFinite : ∀ v ∈ todo, s.1 v < kDistInf
  waits : ∀ v, s.1 v < kDistInf → Relaxed g s.1 v ∨ v ∈ s.2.bin (destBin delta (s.1 v)) ∨
    (v ∈ todo ∧ delta * c ≤ s.1 v)

/-- How much work is left at most: every vertex that is put into a bin costs distance. -/
def work (s : (Fin n → Int) × Bins n) : Nat :=
  totalDist s.1 + binned s.2

variable {g : WGraph n} {source u : Fin n} {delta : Int} {todo : List (Fin n)} {s : (Fin n → Int) × Bins n}

/-- The bin of a distance is the last one that does not start after it. -/
theorem destBin_spec (hdelta : 1 ≤ delta) {d : Int} (hd : 0 ≤ d) :
    delta * destBin delta d ≤ d ∧ (destBin delta d : Int) ≤ d ∧
      ∀ c : Nat, delta * c ≤ d → c ≤ destBin delta d := by
  have hdiv : ((destBin delta d : Nat) : Int) = d / delta := by
    rw [destBin, Int.tdiv_eq_ediv_of_nonneg hd, Int.toNat_of_nonneg (Int.ediv_nonneg hd (by omega))]
  refine ⟨?_, ?_, ?_⟩
  · rw [hdiv]
    exact Int.mul_ediv_self_le (by omega)
  · rw [hdiv]
    exact Int.ediv_le_self _ hd
  · intro c hc
    have hle : (c : Int) ≤ d / delta := by
      rw [Int.le_ediv_iff_mul_le (by omega), mul_comm]
      exact hc
    omega

/-- An improved neighbour of a vertex that is not below the current bin is not below the
current bin either, and it waits in the bin of its distance. -/
theorem Pending.push (hweights : g.WeightsOk) (hdelta : 1 ≤ delta)
    (h : Pending g source delta c todo s) {wn : WNode n} (hwn : wn ∈ g.outNeigh u)
    (hu : delta * c ≤ s.1 u) (hlower : s.1 u + wn.w < s.1 wn.v) :
    Pending g source delta c todo (update s.1 wn.v (s.1 u + wn.w),
      s.2.push (destBin delta (s.1 u + wn.w)) wn.v) := by
  obtain ⟨hw, -⟩ := hweights u wn hwn
  have hnonneg := h.labels.nonneg u
  have hinf := h.labels.le_inf wn.v
  generalize hd : s.1 u + wn.w = d at hlower
  obtain ⟨hstart, hle, hlast⟩ := destBin_spec hdelta (by omega : 0 ≤ d)
  have hc : c ≤ destBin delta d := hlast c (by omega)
  -- Every distance stays or becomes `d`.
  have hdist : update s.1 wn.v d ≤ s.1 := update_le_self_iff.mpr hlower.le
  have hfresh : ∀ v, delta * c ≤ s.1 v → delta * c ≤ update s.1 wn.v d v :=
    (forall_update_iff s.1 fun v d => delta * c ≤ s.1 v → delta * c ≤ d).mpr
      ⟨fun _ => by omega, fun _ _ hv => hv⟩
  have hnew : ∀ b, (s.2.push (destBin delta d) wn.v).bin b ≠ [] →
      s.2.bin b ≠ [] ∨ b = destBin delta d := by
    intro b hb
    obtain ⟨x, hx⟩ := exists_mem_of_ne_nil _ hb
    obtain hx | ⟨hb, -⟩ := mem_bin_push hx
    · exact .inl (ne_nil_of_mem hx)
    · exact .inr hb
  refine ⟨?_, ?_, ?_, ?_, ?_, ?_, ?_, ?_⟩
  · rw [← hd]
    exact h.labels.lower hweights hwn (by omega)
  · intro b hb
    obtain hb | rfl := hnew b hb
    · exact h.low b hb
    · exact hc
  · intro v hv
    obtain hv | ⟨-, rfl⟩ := mem_bin_push hv
    · exact hfresh v (h.fresh v hv)
    · dsimp only
      rw [update_self]
      omega
  · intro b v hv
    obtain hv | ⟨-, rfl⟩ := mem_bin_push hv
    · exact (hdist v).trans_lt (h.finite b v hv)
    · dsimp only
      rw [update_self]
      omega
  · intro b hb
    obtain hb | rfl := hnew b hb
    · exact h.range b hb
    · omega
  · have := h.length
    rw [length_push]
    omega
  · intro v hv
    exact (hdist v).trans_lt (h.todoFinite v hv)
  · intro v hv
    dsimp only at hv ⊢
    by_cases hvw : v = wn.v
    · subst hvw
      rw [update_self, bin_push_self]
      exact .inr (.inl (mem_append_right _ mem_cons_self))
    · have hsame : update s.1 wn.v d v = s.1 v := update_of_ne hvw _ _
      rw [hsame] at hv ⊢
      obtain hrelaxed | hbin | htodo := h.waits v hv
      · exact .inl (hrelaxed.mono hdist hsame)
      · exact .inr (.inl (mem_bin_push_of_mem hbin))
      · exact .inr (.inr htodo)

theorem Pending.tail (h : Pending g source delta c (u :: todo) s)
    (hu : delta * c ≤ s.1 u → Relaxed g s.1 u) : Pending g source delta c todo s where
  __ := h
  todoFinite v hv := h.todoFinite v (mem_cons_of_mem _ hv)
  waits := by
    intro v hv
    obtain hv' | hv' | ⟨hmem, hv'⟩ := h.waits v hv
    · exact .inl hv'
    · exact .inr (.inl hv')
    · obtain rfl | hmem := mem_cons.mp hmem
      · exact .inl (hu hv')
      · exact .inr (.inr ⟨hmem, hv'⟩)

/-- **Relaxing the edges of a vertex** that is not below the current bin. -/
theorem Pending.relax (hweights : g.WeightsOk) (hdelta : 1 ≤ delta)
    (h : Pending g source delta c (u :: todo) s) (hu : delta * c ≤ s.1 u) :
    ∃ s', relaxEdges g delta s u = some s' ∧ Pending g source delta c todo s' ∧
      work s' ≤ work s ∧ ∀ v, delta * c ≤ s.1 v → delta * c ≤ s'.1 v := by
  have hfinite := h.todoFinite u mem_cons_self
  have hnonneg := h.labels.nonneg u
  obtain ⟨s', hfold, ⟨hpending, hwork, hlow⟩, -, hrelaxed⟩ := relaxEdges_spec
    (g := g) (u := u) (s := s) (J := fun t => Pending g source delta c (u :: todo) t ∧
      work t ≤ work s ∧ ∀ v, delta * c ≤ s.1 v → delta * c ≤ t.1 v)
    (b := fun dist => dist u) (p := fun bins v d => bins.push (destBin delta d) v)
    hweights hnonneg hfinite (fun _ hdist => hdist)
    (by
      rintro t wn hwn ⟨hpending, hwork, hlow⟩ htu hlower
      obtain ⟨hw, -⟩ := hweights u wn hwn
      rw [← htu] at hu hlower ⊢
      refine ⟨hpending.push hweights hdelta hwn hu hlower, ?_, ?_⟩
      · have htotal : totalDist (update t.1 wn.v (t.1 u + wn.w)) < totalDist t.1 :=
          totalDist_update (by omega) hlower
        simp only [work, binned_push] at hwork ⊢
        omega
      · exact (forall_update_iff t.1 fun v d => delta * c ≤ s.1 v → delta * c ≤ d).mpr
          ⟨fun _ => by omega, fun v _ => hlow v⟩)
    ⟨h, le_rfl, fun _ hv => hv⟩ rfl
  exact ⟨s', hfold, hpending.tail fun _ => hrelaxed, hwork, hlow⟩

/-- The start of a bin that holds a vertex is in the range of a weight. -/
theorem binStart_eq (hdelta : 1 ≤ delta)
    (hc : delta * c < kDistInf) : binStart delta c = some (delta * c) := by
  have hle : (c : Int) ≤ delta * c := by nlinarith
  have hmax : kDistInf ≤ weightMax := by decide
  rw [binStart, weight32, if_pos (by omega)]
  exact if_pos (by omega)

/-- A vertex of the frontier that fell below the current bin was relaxed before. -/
theorem Pending.visit (hweights : g.WeightsOk) (hdelta : 1 ≤ delta) (hc : delta * c < kDistInf)
    (h : Pending g source delta c (u :: todo) s) :
    ∃ s', Gapbs.visit g delta c s u = some s' ∧ Pending g source delta c todo s' ∧
      work s' ≤ work s := by
  have hvisit : Gapbs.visit g delta c s u =
      if s.1 u ≥ delta * c then relaxEdges g delta s u else some s := by
    rw [Gapbs.visit, binStart_eq hdelta hc]
    rfl
  rw [hvisit]
  split_ifs with hu
  · obtain ⟨s', hrelax, hpending, hwork, -⟩ := h.relax hweights hdelta hu
    exact ⟨s', hrelax, hpending, hwork⟩
  · exact ⟨s, rfl, h.tail fun hle => absurd hle hu, le_rfl⟩

/-- A bin that is taken out, when those before it are empty. -/
theorem Pending.take (hdelta : 1 ≤ delta) (h : Pending g source delta c [] s) (hb : b < s.2.length)
    (hfirst : ∀ b', s.2.bin b' ≠ [] → b ≤ b') :
    Pending g source delta b (s.2.bin b) (s.1, s.2.set b []) ∧
      work (s.1, s.2.set b []) + (s.2.bin b).length = work s := by
  have hsub : ∀ b' v, v ∈ Bins.bin (s.2.set b []) b' → v ∈ s.2.bin b' ∧ b' ≠ b := by
    intro b' v hv
    by_cases hne : b' = b
    · subst hne
      rw [bin_set_self hb] at hv
      cases hv
    · rw [bin_set_of_ne hne] at hv
      exact ⟨hv, hne⟩
  have hsub' : ∀ b', Bins.bin (s.2.set b []) b' ≠ [] → s.2.bin b' ≠ [] := by
    intro b' hb'
    obtain ⟨v, hv⟩ := exists_mem_of_ne_nil _ hb'
    exact ne_nil_of_mem (hsub b' v hv).1
  refine ⟨⟨h.labels, ?_, ?_, ?_, ?_, ?_, ?_, ?_⟩, ?_⟩
  · intro b' hb'
    exact hfirst b' (hsub' b' hb')
  · intro v hv
    exact absurd rfl (hsub b v hv).2
  · intro b' v hv
    exact h.finite b' v (hsub b' v hv).1
  · intro b' hb'
    exact h.range b' (hsub' b' hb')
  · rw [length_set]
    exact h.length
  · intro v hv
    exact h.finite b v hv
  · intro v hv
    obtain hv' | hv' | ⟨hmem, -⟩ := h.waits v hv
    · exact .inl hv'
    · by_cases hne : destBin delta (s.1 v) = b
      · subst hne
        exact .inr (.inr ⟨hv', (destBin_spec hdelta (h.labels.nonneg v)).1⟩)
      · rw [bin_set_of_ne hne]
        exact .inr (.inl hv')
    · cases hmem
  · have := binned_set hb ([] : List (Fin n))
    simp only [work, length_nil] at this ⊢
    omega

theorem Pending.visits (hweights : g.WeightsOk) (hdelta : 1 ≤ delta) (hc : delta * c < kDistInf)
    (h : Pending g source delta c todo s) :
    ∃ s', todo.foldlM (Gapbs.visit g delta c) s = some s' ∧ Pending g source delta c [] s' ∧
      work s' ≤ work s := by
  obtain ⟨s', hfold, hpending, hwork⟩ := foldlM_total
    (I := fun todo t => Pending g source delta c todo t ∧ work t ≤ work s)
    (f := Gapbs.visit g delta c)
    (by
      rintro u todo t ⟨hpending, hwork⟩
      obtain ⟨t', hvisit, hpending', hwork'⟩ := hpending.visit hweights hdelta hc
      exact ⟨t', hvisit, hpending', hwork'.trans hwork⟩)
    (And.intro h le_rfl)
  exact ⟨s', hfold, hpending, hwork⟩

theorem Pending.round (hweights : g.WeightsOk) (hdelta : 1 ≤ delta)
    (h : Pending g source delta c [] s) (hfusible : Fusible c s) :
    ∃ s', (s.2.bin c).foldlM (relaxEdges g delta) (s.1, s.2.set c []) = some s' ∧
      Pending g source delta c [] s' ∧ work s' < work s := by
  obtain ⟨hlength, hne, -⟩ := hfusible
  obtain ⟨htaken, hwork⟩ := h.take hdelta hlength h.low
  have hpos := length_pos_of_ne_nil hne
  obtain ⟨s', hfold, hpending, hwork', -⟩ := foldlM_total
    (I := fun todo t => Pending g source delta c todo t ∧
      work t ≤ work (s.1, s.2.set c []) ∧ ∀ v ∈ todo, delta * c ≤ t.1 v)
    (f := relaxEdges g delta)
    (by
      rintro u todo t ⟨hpending, hwork, hlow⟩
      obtain ⟨t', hrelax, hpending', hwork', hlow'⟩ := hpending.relax hweights hdelta
        (hlow u mem_cons_self)
      refine ⟨t', hrelax, hpending', hwork'.trans hwork, ?_⟩
      intro v hv
      exact hlow' v (hlow v (mem_cons_of_mem _ hv)))
    ⟨htaken, le_rfl, h.fresh⟩
  exact ⟨s', hfold, hpending, by omega⟩

variable {fuel : Nat}

/-- The loop that empties the current bin. -/
theorem Pending.fuse (hweights : g.WeightsOk) (hdelta : 1 ≤ delta)
    (h : Pending g source delta c [] s) (hfuel : work s ≤ fuel) :
    ∃ s', fuseBins g delta c fuel s = some s' ∧ Pending g source delta c [] s' ∧
      work s' ≤ work s := by
  obtain ⟨s', hloop, ⟨hpending, hwork⟩, -⟩ := whileM_total (p := Fusible c)
    (I := fun t => Pending g source delta c [] t ∧ work t ≤ work s) (m := work)
    (by
      rintro t ⟨hpending, hwork⟩ hfusible
      obtain ⟨t', hround, hpending', hlt⟩ := hpending.round hweights hdelta hfusible
      exact ⟨t', hround, ⟨hpending', by omega⟩, hlt⟩)
    (And.intro h le_rfl) hfuel
  exact ⟨s', hloop, hpending, hwork⟩

/-- The bin that is chosen is the first one with a vertex. -/
theorem Pending.firstBin_eq_some (h : Pending g source delta c [] s)
    (hfirst : firstBin s.2 c = some b) :
    b < s.2.length ∧ s.2.bin b ≠ [] ∧ ∀ b', s.2.bin b' ≠ [] → b ≤ b' := by
  obtain ⟨hne, before, after, heq, hbefore⟩ := find?_eq_some_iff_append.mp hfirst
  have hmem : b ∈ range' c (s.2.length - c) := by
    rw [heq]
    exact mem_append_right _ mem_cons_self
  obtain ⟨i, hi, rfl⟩ := mem_range'.mp hmem
  refine ⟨by omega, by simpa using hne, ?_⟩
  intro b' hb'
  by_contra hlt
  have hlow := h.low b' hb'
  -- The list of numbers is sorted, so `b'` stands before `b`, where the bins are empty.
  have hmem' : b' ∈ range' c (s.2.length - c) := by
    rw [mem_range']
    exact ⟨b' - c, by omega, by omega⟩
  have hsorted : (range' c (s.2.length - c)).Pairwise (· < ·) := pairwise_lt_range'
  rw [heq] at hmem' hsorted
  obtain hmem' | hmem' := mem_append.mp hmem'
  · have := hbefore b' hmem'
    simp only [ne_eq, decide_not, Bool.not_not, decide_eq_true_eq] at this
    exact hb' this
  · obtain rfl | hmem' := mem_cons.mp hmem'
    · omega
    · have := (pairwise_cons.mp (pairwise_append.mp hsorted).2.1).1 b' hmem'
      omega

/-- When no bin is chosen, no bin holds a vertex, and all edges are relaxed. -/
theorem Pending.firstBin_eq_none (h : Pending g source delta c [] s)
    (hfirst : firstBin s.2 c = none) (hv : s.1 v < kDistInf) : Relaxed g s.1 v := by
  have hempty : ∀ b, s.2.bin b = [] := by
    intro b
    by_contra hb
    have hlow := h.low b hb
    have hlength : b < s.2.length := by
      by_contra hle
      exact hb (bin_of_length_le (by omega))
    have hmem : b ∈ range' c (s.2.length - c) := by
      rw [mem_range']
      exact ⟨b - c, by omega, by omega⟩
    have := find?_eq_none.mp hfirst b hmem
    simp only [ne_eq, decide_not, Bool.not_eq_true', decide_eq_false_iff_not, not_not] at this
    exact hb this
  obtain hv' | hv' | ⟨hmem, -⟩ := h.waits v hv
  · exact hv'
  · rw [hempty] at hv'
    cases hv'
  · cases hmem

/-- What holds whenever the condition of the main loop is tested. -/
structure AtTop (g : WGraph n) (source : Fin n) (delta : Int) (s : DeltaState n) : Prop where
  nextBin : s.nextBin = kMaxBin
  nextTail : s.nextTail = 0
  labels : Labels g source s.dist
  going : s.currBin ≠ kMaxBin → delta * s.currBin < kDistInf ∧
    Pending g source delta s.currBin (s.frontier.take s.currTail) (s.dist, s.bins)
  done : s.currBin = kMaxBin → ∀ v, s.dist v < kDistInf → Relaxed g s.dist v

variable {s : DeltaState n}

/-- **One turn of the main loop.** -/
theorem AtTop.turn (hweights : g.WeightsOk) (hdelta : 1 ≤ delta) (h : AtTop g source delta s)
    (hgoing : s.currBin ≠ kMaxBin) (hfuel : work (s.dist, s.bins) ≤ fuel) :
    ∃ s', deltaTurn g delta fuel s = some s' ∧ AtTop g source delta s' ∧
      (s'.currBin = kMaxBin ∨ work (s'.dist, s'.bins) < work (s.dist, s.bins)) ∧
      work (s'.dist, s'.bins) ≤ work (s.dist, s.bins) := by
  obtain ⟨hc, hpending⟩ := h.going hgoing
  obtain ⟨visited, hvisits, hvisited, hwork₁⟩ := hpending.visits hweights hdelta hc
  obtain ⟨fused, hfuse, hfused, hwork₂⟩ := hvisited.fuse hweights hdelta (hwork₁.trans hfuel)
  have hmax : kDistInf < (kMaxBin : Int) := by decide
  have hlength := hfused.length
  rw [deltaTurn]
  simp only [hvisits, hfuse, bind_eq_bind, bind_some]
  cases hfirst : firstBin fused.2 s.currBin with
  | none =>
    refine ⟨_, rfl, ?_, ?_, ?_⟩
    all_goals
      rw [DeltaState.copyBin, if_neg (by dsimp only; rw [h.nextBin]; omega)]
    · refine ⟨rfl, rfl, hfused.labels, fun hne => absurd h.nextBin hne, ?_⟩
      intro _ v hv
      exact hfused.firstBin_eq_none hfirst hv
    · exact .inl h.nextBin
    · exact hwork₂.trans hwork₁
  | some b =>
    obtain ⟨hb, hne, hlow⟩ := hfused.firstBin_eq_some hfirst
    obtain ⟨htaken, hwork₃⟩ := hfused.take hdelta hb hlow
    have hpos := length_pos_of_ne_nil hne
    have hmin : min s.nextBin b = b := by
      rw [h.nextBin]
      omega
    refine ⟨_, rfl, ?_, ?_, ?_⟩
    all_goals
      dsimp only
      rw [DeltaState.copyBin, hmin, if_pos hb]
      dsimp only
    · refine ⟨rfl, rfl, hfused.labels, ?_, ?_⟩
      · intro _
        refine ⟨hfused.range b hne, ?_⟩
        rw [h.nextTail, take_zero, nil_append, Nat.zero_add, take_left]
        exact htaken
      · intro heq
        dsimp only at heq
        omega
    · right
      omega
    · omega

theorem AtTop.loop (hweights : g.WeightsOk) (hdelta : 1 ≤ delta)
    (h : AtTop g source delta s) (hfuel : work (s.dist, s.bins) < fuel) :
    ∃ s', deltaLoop g delta fuel s = some s' ∧ Labels g source s'.dist ∧
      ∀ v, s'.dist v < kDistInf → Relaxed g s'.dist v := by
  have hmeasure : (if s.currBin = kMaxBin then 0 else work (s.dist, s.bins) + 1) ≤ fuel := by
    split_ifs <;> omega
  obtain ⟨s', hloop, ⟨htop, -⟩, hdone⟩ := whileM_total (p := fun s : DeltaState n =>
      s.currBin ≠ kMaxBin) (f := deltaTurn g delta fuel)
    (I := fun t => AtTop g source delta t ∧ work (t.dist, t.bins) < fuel)
    (m := fun t => if t.currBin = kMaxBin then 0 else work (t.dist, t.bins) + 1)
    (by
      rintro t ⟨htop, hwork⟩ hgoing
      obtain ⟨t', hturn, htop', hless, hle⟩ := htop.turn hweights hdelta hgoing hwork.le
      refine ⟨t', hturn, ⟨htop', by omega⟩, ?_⟩
      rw [if_neg hgoing]
      obtain hend | hless := hless
      · rw [if_pos hend]
        omega
      · split_ifs <;> omega)
    (And.intro h hfuel) hmeasure
  exact ⟨s', hloop, htop.labels, htop.done (by simpa using hdone)⟩

/-- Before the main loop only the source is still to come. -/
theorem atTop_deltaStart (g : WGraph n) (source : Fin n)
    (delta : Int) : AtTop g source delta (deltaStart source) := by
  have hlabels := labels_source g source
  have hempty : ∀ b, Bins.bin ([] : Bins n) b = [] := fun b => bin_of_length_le (Nat.zero_le b)
  have hfar : (0 : Int) < kDistInf := by decide
  have hroot : (deltaStart source).dist source = 0 := hlabels.root
  refine ⟨rfl, rfl, hlabels, ?_, fun heq => absurd heq (by decide : (0 : Nat) ≠ kMaxBin)⟩
  intro _
  refine ⟨(Int.mul_zero delta).trans_lt hfar, hlabels, ?_, ?_, ?_, ?_, hfar.le, ?_, ?_⟩
  · exact fun b hb => absurd (hempty b) hb
  · intro v hv
    exact absurd (hempty _) (ne_nil_of_mem hv)
  · intro b v hv
    exact absurd (hempty b) (ne_nil_of_mem hv)
  · exact fun b hb => absurd (hempty b) hb
  · intro v hv
    rw [mem_singleton.mp hv]
    exact hroot.trans_lt hfar
  · intro v hv
    by_cases hvs : v = source
    · subst hvs
      refine .inr (.inr ⟨mem_singleton_self v, ?_⟩)
      dsimp only
      rw [hroot]
      exact (Int.mul_zero delta).le
    · refine absurd hv ?_
      dsimp only [deltaStart]
      rw [update_of_ne hvs]
      exact lt_irrefl _

/-- **`DeltaStep` ends with labels that no edge can improve.** -/
theorem deltaStep_labels (hweights : g.WeightsOk) (source : Fin n) (hdelta : 1 ≤ delta)
    (hfuel : n * kDistInf.toNat < fuel) :
    ∃ dist, deltaStep g source delta fuel = some dist ∧ Labels g source dist ∧
      ∀ v, dist v < kDistInf → Relaxed g dist v := by
  have hwork : work ((deltaStart source).dist, (deltaStart source).bins) < fuel := by
    have htotal := totalDist_le (labels_source g source).le_inf
    calc work ((deltaStart source).dist, (deltaStart source).bins)
        = totalDist (deltaStart source).dist := rfl
      _ ≤ n * kDistInf.toNat := htotal
      _ < fuel := hfuel
  obtain ⟨s, hloop, hlabels, hrelaxed⟩ :=
    (atTop_deltaStart g source delta).loop hweights hdelta hwork
  refine ⟨s.dist, ?_, hlabels, hrelaxed⟩
  rw [deltaStep, hloop]
  rfl

end HotTLBApps.Gapbs
