import HotTLBApps.Lib.Runs
import HotTLBApps.Lib.Slices
import HotTLBApps.Gapbs.DeltaStep

/-!
# GAPBS: the frontier of ∆-stepping (`src/sssp.cc`)

`DeltaStep` with any number of threads, as a machine in which one thread at a time reads
or writes a shared variable.  The frontier has room for one entry per directed edge.

The same edge can improve a vertex more than once while the vertex waits in the same
bin, and each time the vertex is put into the bin once more, so the bin can become larger
than the frontier (`not_inBounds_fan`).  When no vertex waits in a bin more often than it
has incoming edges, every write is inside the frontier (`inBounds_of_fewWaiting`).
-/

namespace HotTLBApps.Gapbs

open Slices List Function Option Finset

variable {n : Nat} {ι : Type}

section Machine

/-- The variables that the threads share.  What `iter & 1` selects is `currBin` and
`currTail`. -/
structure Shared (n : Nat) where
  dist : Fin n → Int
  frontier : List (Option (Fin n))
  currBin : Nat
  nextBin : Nat
  currTail : Nat
  nextTail : Nat
  /-- The first index of the parallel loop that no thread has taken. -/
  nextIndex : Nat
  /-- Some thread has entered the `single` block of the turn. -/
  singleTaken : Bool

/-- The loop that called `RelaxEdges`, with what is left of it. -/
inductive Rest (n : Nat)
  | chunk (is : List Nat)
  | bin (us : List (Fin n))
  deriving DecidableEq

inductive Pc (n : Nat)
  /-- The condition of the main loop. -/
  | head
  /-- The parallel loop, with the indexes the thread still has of its chunk. -/
  | loop (is : List Nat)
  /-- `RelaxEdges`, before an edge. -/
  | edges (u : Fin n) (wns : List (WNode n)) (rest : Rest n)
  /-- `old_dist` was read. -/
  | sum (u : Fin n) (wn : WNode n) (wns : List (WNode n)) (old : Int) (rest : Rest n)
  /-- `new_dist` was computed. -/
  | swap (u : Fin n) (wn : WNode n) (wns : List (WNode n)) (old new : Int) (rest : Rest n)
  /-- The swap failed. -/
  | retry (u : Fin n) (wn : WNode n) (wns : List (WNode n)) (new : Int) (rest : Rest n)
  /-- The loop that empties the current bin, with what is left of the copy. -/
  | fuse (us : List (Fin n))
  /-- The choice of the next bin. -/
  | vote
  /-- The first barrier. -/
  | voted
  | single
  | copy
  /-- The second barrier. -/
  | copied
  | done
  deriving DecidableEq

/-- A thread: where it is, and its `local_bins`. -/
structure Thread (n : Nat) where
  pc : Pc n
  bins : Bins n

/-- Where a thread goes on after `RelaxEdges`. -/
def Rest.pc : Rest n → Pc n
  | chunk is => .loop is
  | bin us => .fuse us

/-- The chunk size of the parallel loop. -/
def chunkSize : Nat :=
  64

/-- One step of a thread that does not stand at a barrier.  `none` is an undefined
behaviour: an index out of bounds, an entry that was never written, an overflow. -/
def threadStep
    (g : WGraph n) (delta : Int) (s : Shared n) (th : Thread n) : Option (Shared n × Thread n) :=
  match th.pc with
  | .head =>
      some (s, { th with pc := if s.currBin ≠ kMaxBin then .loop [] else .done })
  | .loop [] =>
      if s.nextIndex < s.currTail then
        some ({ s with nextIndex := s.nextIndex + chunkSize },
          { th with
            pc := .loop (List.range' s.nextIndex (min chunkSize (s.currTail - s.nextIndex))) })
      else
        some (s, { th with pc := .fuse [] })
  | .loop (i :: is) => do
      let u ← s.frontier[i]?.join
      let low ← binStart delta s.currBin
      some (s, { th with
        pc := if s.dist u ≥ low then .edges u (g.outNeigh u) (.chunk is) else .loop is })
  | .edges _ [] rest => some (s, { th with pc := rest.pc })
  | .edges u (wn :: wns) rest => some (s, { th with pc := .sum u wn wns (s.dist wn.v) rest })
  | .sum u wn wns old rest => do
      let new ← weight32 (s.dist u + wn.w)
      some (s, { th with pc := .swap u wn wns old new rest })
  | .swap u wn wns old new rest =>
      if new < old then
        if s.dist wn.v = old then
          some ({ s with dist := Function.update s.dist wn.v new },
            { pc := .edges u wns rest, bins := th.bins.push (destBin delta new) wn.v })
        else
          some (s, { th with pc := .retry u wn wns new rest })
      else
        some (s, { th with pc := .edges u wns rest })
  | .retry u wn wns new rest =>
      some (s, { th with pc := .swap u wn wns (s.dist wn.v) new rest })
  | .fuse [] =>
      if Fusible s.currBin (s.dist, th.bins) then
        some (s, { pc := .fuse (th.bins.bin s.currBin), bins := th.bins.set s.currBin [] })
      else
        some (s, { th with pc := .vote })
  | .fuse (u :: us) => some (s, { th with pc := .edges u (g.outNeigh u) (.bin us) })
  | .vote =>
      some ({ s with
        nextBin := match firstBin th.bins s.currBin with
          | some b => min s.nextBin b
          | none => s.nextBin }, { th with pc := .voted })
  | .single =>
      if s.singleTaken then
        some (s, { th with pc := .copy })
      else
        some ({ s with currBin := kMaxBin, currTail := 0, singleTaken := true },
          { th with pc := .copy })
  | .copy =>
      if s.nextBin < th.bins.length then do
        -- The parts that the threads copy to do not overlap, so one step does it all.
        let frontier ← copy? s.frontier s.nextTail ((th.bins.bin s.nextBin).map some)
        some ({ s with
            frontier := frontier, nextTail := s.nextTail + (th.bins.bin s.nextBin).length },
          { pc := .copied, bins := th.bins.set s.nextBin [] })
      else
        some (s, { th with pc := .copied })
  | .voted => none
  | .copied => none
  | .done => none

structure Machine (ι : Type) (n : Nat) where
  shared : Shared n
  thread : ι → Thread n

/-- All threads leave the first barrier. -/
def Machine.releaseVoted (m : Machine ι n) : Machine ι n where
  shared := { m.shared with singleTaken := false }
  thread := fun t => { m.thread t with pc := .single }

/-- All threads leave the second barrier, and the roles of the variables change. -/
def Machine.releaseCopied (m : Machine ι n) : Machine ι n where
  shared := { m.shared with
    currBin := m.shared.nextBin, nextBin := m.shared.currBin
    currTail := m.shared.nextTail, nextTail := m.shared.currTail
    nextIndex := 0 }
  thread := fun t => { m.thread t with pc := .head }

variable [Fintype ι] [DecidableEq ι]

/-- One step of the machine: a thread moves, or all threads leave a barrier. -/
def Machine.step (g : WGraph n) (delta : Int) (m : Machine ι n) (t : ι) : Option (Machine ι n) :=
  if (m.thread t).pc = .voted then
    if ∀ t', (m.thread t').pc = .voted then some m.releaseVoted else none
  else if (m.thread t).pc = .copied then
    if ∀ t', (m.thread t').pc = .copied then some m.releaseCopied else none
  else
    (threadStep g delta m.shared (m.thread t)).map fun (s, th) =>
      { shared := s, thread := Function.update m.thread t th }

/-- The threads at the beginning of the parallel region. -/
def Machine.start (ι : Type) (g : WGraph n) (source : Fin n) : Machine ι n where
  shared := {
    dist := Function.update (fun _ => kDistInf) source 0
    frontier := (List.replicate g.numEdgesDirected none).set 0 (some source)
    currBin := 0
    nextBin := kMaxBin
    currTail := 1
    nextTail := 0
    nextIndex := 0
    singleTaken := false }
  thread := fun _ => { pc := .head, bins := [] }

/-- The next write into the frontier ends inside it. -/
def Machine.InBounds (g : WGraph n) (m : Machine ι n) : Prop :=
  m.shared.nextTail ≤ g.numEdgesDirected ∧
    ∀ t, (m.thread t).pc = .copy →
      m.shared.nextTail + ((m.thread t).bins.bin m.shared.nextBin).length ≤ g.numEdgesDirected

/-- How often a vertex waits in a bin, over all threads. -/
def Machine.waiting (m : Machine ι n) (b : Nat) (v : Fin n) : Nat :=
  ∑ t, ((m.thread t).bins.bin b).count v

def WGraph.inEdges (g : WGraph n) (v : Fin n) : Nat :=
  ∑ u, ((g.outNeigh u).map WNode.v).count v

/-- What the next step of a thread puts into a bin. -/
def threadPushes (delta : Int) (s : Shared n) (th : Thread n) : Option (Nat × Fin n) :=
  match th.pc with
  | .swap _ wn _ old new _ =>
      if new < old ∧ s.dist wn.v = old then some (destBin delta new, wn.v) else none
  | _ => none

/-- A vertex that is put into a bin waits there less often than it has incoming edges. -/
def Machine.FewWaiting (g : WGraph n) (delta : Int) (m : Machine ι n) (t : ι) : Prop :=
  ∀ p ∈ threadPushes delta m.shared (m.thread t), m.waiting p.1 p.2 < g.inEdges p.2

instance (g : WGraph n) (m : Machine ι n) : Decidable (m.InBounds g) :=
  inferInstanceAs (Decidable (_ ∧ _))

instance (g : WGraph n) (delta : Int) (m : Machine ι n) (t : ι) :
    Decidable (m.FewWaiting g delta t) :=
  inferInstanceAs (Decidable (∀ p ∈ _, _))

end Machine

section

/-- The lists of an undirected graph: every edge stands at both of its ends, and no
vertex is its own neighbour. -/
def WGraph.Mirrored (g : WGraph n) : Prop :=
  g.directed = false →
    (∀ u v, ((g.outNeigh u).map WNode.v).count v = ((g.outNeigh v).map WNode.v).count u) ∧
      ∀ u, ((g.outNeigh u).map WNode.v).count u = 0

variable {g : WGraph n}

theorem sum_count (l : List (Fin n)) : ∑ v, l.count v = l.length := by
  have h := Multiset.sum_count_eq_card (s := univ) (m := (l : Multiset (Fin n)))
    fun a _ => mem_univ a
  simpa using h

/-- Every edge is counted once at its end. -/
theorem sum_inEdges (g : WGraph n) : ∑ v, g.inEdges v = ∑ u, g.outDegree u := by
  simp only [WGraph.inEdges]
  rw [sum_comm]
  refine sum_congr rfl fun u _ => ?_
  rw [sum_count, length_map]
  rfl

/-- The number of entries in the lists of an undirected graph is even. -/
theorem WGraph.Mirrored.even (h : g.Mirrored)
    (hdirected : g.directed = false) : Even (∑ u, g.outDegree u) := by
  obtain ⟨hsymm, hloop⟩ := h hdirected
  have hpairs : ∑ u, g.outDegree u =
      ∑ p : Fin n × Fin n, ((g.outNeigh p.1).map WNode.v).count p.2 := by
    rw [Fintype.sum_prod_type]
    refine sum_congr rfl fun u _ => ?_
    dsimp only
    rw [sum_count, length_map]
    rfl
  rw [hpairs, ← ZMod.natCast_eq_zero_iff_even, Nat.cast_sum]
  -- An edge and its mirror image cancel modulo two.
  refine sum_involution (fun p _ => p.swap) ?_ ?_ ?_ ?_
  · intro p _
    rw [Prod.fst_swap, Prod.snd_swap, hsymm p.2 p.1]
    exact CharTwo.add_self_eq_zero _
  · intro p _ hne heq
    have hp : p.1 = p.2 := congrArg Prod.snd heq
    rw [hp, hloop, Nat.cast_zero] at hne
    exact hne rfl
  · intro p _
    exact mem_univ _
  · intro p _
    exact p.swap_swap

/-- The frontier has room for every edge. -/
theorem WGraph.Mirrored.numEdgesDirected_eq
    (h : g.Mirrored) : g.numEdgesDirected = ∑ v, g.inEdges v := by
  rw [sum_inEdges, CSRGraph.numEdgesDirected, CSRGraph.numEdges, ← Fin.sum_univ_def]
  cases hdirected : g.directed with
  | true => rfl
  | false =>
    obtain ⟨k, hk⟩ := h.even hdirected
    simp only [Bool.false_eq_true, if_false]
    omega

/-- A thread between the two barriers. -/
def Pc.late : Pc n → Bool
  | single => true
  | copy => true
  | copied => true
  | _ => false

theorem Rest.late_pc (rest : Rest n) : rest.pc.late = false := by
  cases rest <;> rfl

variable {delta : Int} {s s' : Shared n} {th th' : Thread n}

/-- **A step before the first barrier**: a bin stays, or it is emptied, or a vertex is put
into it. -/
theorem threadStep_early (h : threadStep g delta s th = some (s', th'))
    (hearly : th.pc.late = false) : th'.pc.late = false ∧ s'.nextTail = s.nextTail ∧
      ∀ b, th'.bins.bin b = th.bins.bin b ∨ th'.bins.bin b = [] ∨
        ∃ v, threadPushes delta s th = some (b, v) ∧ th'.bins.bin b = th.bins.bin b ++ [v] := by
  obtain ⟨pc, bins⟩ := th
  cases pc with
  | head =>
    cases h
    refine ⟨?_, rfl, fun _ => .inl rfl⟩
    split_ifs <;> rfl
  | loop is =>
    cases is with
    | nil =>
      rw [threadStep] at h
      split_ifs at h
      all_goals
        cases h
        exact ⟨rfl, rfl, fun _ => .inl rfl⟩
    | cons i is =>
      rw [threadStep] at h
      obtain ⟨u, -, h⟩ := bind_eq_some_iff.mp h
      obtain ⟨low, -, h⟩ := bind_eq_some_iff.mp h
      cases h
      refine ⟨?_, rfl, fun _ => .inl rfl⟩
      split_ifs <;> rfl
  | edges u wns rest =>
    cases wns with
    | nil =>
      cases h
      exact ⟨rest.late_pc, rfl, fun _ => .inl rfl⟩
    | cons wn wns =>
      cases h
      exact ⟨rfl, rfl, fun _ => .inl rfl⟩
  | sum u wn wns old rest =>
    rw [threadStep] at h
    obtain ⟨new, -, h⟩ := bind_eq_some_iff.mp h
    cases h
    exact ⟨rfl, rfl, fun _ => .inl rfl⟩
  | swap u wn wns old new rest =>
    rw [threadStep] at h
    dsimp only at h
    split_ifs at h with hless hsame
    all_goals cases h
    · refine ⟨rfl, rfl, fun b => ?_⟩
      by_cases hb : b = destBin delta new
      · subst hb
        refine .inr (.inr ⟨wn.v, if_pos ⟨hless, hsame⟩, ?_⟩)
        exact bin_push_self bins _ wn.v
      · exact .inl (bin_push_of_ne bins wn.v hb)
    all_goals exact ⟨rfl, rfl, fun _ => .inl rfl⟩
  | retry u wn wns new rest | vote =>
    cases h
    exact ⟨rfl, rfl, fun _ => .inl rfl⟩
  | fuse us =>
    cases us with
    | nil =>
      rw [threadStep] at h
      dsimp only at h
      split_ifs at h with hfusible
      all_goals cases h
      · refine ⟨rfl, rfl, fun b => ?_⟩
        by_cases hb : b = s.currBin
        · subst hb
          exact .inr (.inl (bin_set_self hfusible.1 []))
        · exact .inl (bin_set_of_ne hb [])
      · exact ⟨rfl, rfl, fun _ => .inl rfl⟩
    | cons u us =>
      cases h
      exact ⟨rfl, rfl, fun _ => .inl rfl⟩
  | single | copy | copied => cases hearly
  | voted | done => cases h

/-- **A step between the barriers**: what leaves a bin is added to the tail. -/
theorem threadStep_late (h : threadStep g delta s th = some (s', th')) (hlate : th.pc.late = true) :
    th'.pc.late = true ∧ s'.nextBin = s.nextBin ∧ s'.nextTail + (th'.bins.bin s.nextBin).length =
        s.nextTail + (th.bins.bin s.nextBin).length ∧
      (∀ b, th'.bins.bin b = th.bins.bin b ∨ th'.bins.bin b = []) ∧
      (th.pc ≠ .single → s'.singleTaken = s.singleTaken ∧ s'.currTail = s.currTail) ∧
      (th.pc = .single → s'.singleTaken = true ∧
        ((s.singleTaken = true → s.currTail = 0) → s'.currTail = 0)) := by
  obtain ⟨pc, bins⟩ := th
  cases pc with
  | single =>
    rw [threadStep] at h
    dsimp only at h
    split_ifs at h with htaken
    · cases h
      exact ⟨rfl, rfl, rfl, fun _ => .inl rfl, fun hne => absurd rfl hne,
        fun _ => ⟨htaken, fun hzero => hzero htaken⟩⟩
    · cases h
      exact ⟨rfl, rfl, rfl, fun _ => .inl rfl, fun hne => absurd rfl hne,
        fun _ => ⟨rfl, fun _ => rfl⟩⟩
  | copy =>
    rw [threadStep] at h
    dsimp only at h
    split_ifs at h with hlength
    · obtain ⟨frontier, -, h⟩ := bind_eq_some_iff.mp h
      cases h
      refine ⟨rfl, rfl, ?_, ?_, fun _ => ⟨rfl, rfl⟩, nofun⟩
      · rw [bin_set_self hlength, length_nil, Nat.add_zero]
      · intro b
        by_cases hb : b = s.nextBin
        · subst hb
          exact .inr (bin_set_self hlength [])
        · exact .inl (bin_set_of_ne hb [])
    · cases h
      exact ⟨rfl, rfl, rfl, fun _ => .inl rfl, fun _ => ⟨rfl, rfl⟩, nofun⟩
  | copied => cases h
  | head | loop | edges | sum | swap | retry | fuse | vote | voted | done => cases hlate

variable [Fintype ι]

/-- What holds in every state: no vertex waits more often than it has incoming edges, and
between the barriers everything that is to be copied fits. -/
structure Counted (g : WGraph n) (m : Machine ι n) : Prop where
  few : ∀ b v, m.waiting b v ≤ g.inEdges v
  phase : ((∀ t, (m.thread t).pc.late = false) ∧ m.shared.nextTail = 0) ∨
    ((∀ t, (m.thread t).pc.late = true) ∧
      m.shared.nextTail + ∑ t, ((m.thread t).bins.bin m.shared.nextBin).length ≤
        g.numEdgesDirected ∧
      (∀ t, (m.thread t).pc = .single ∨ m.shared.singleTaken = true) ∧
      (m.shared.singleTaken = true → m.shared.currTail = 0))

variable {m m' : Machine ι n} {t : ι}

/-- All vertices of a bin fit into the frontier. -/
theorem Counted.sum_length_le (hmirrored : g.Mirrored) (h : Counted g m)
    (b : Nat) : ∑ t, ((m.thread t).bins.bin b).length ≤ g.numEdgesDirected := by
  calc ∑ t, ((m.thread t).bins.bin b).length
      = ∑ t, ∑ v, ((m.thread t).bins.bin b).count v :=
        sum_congr rfl fun t _ => (sum_count _).symm
    _ = ∑ v, m.waiting b v := sum_comm
    _ ≤ ∑ v, g.inEdges v := Finset.sum_le_sum fun v _ => h.few b v
    _ = g.numEdgesDirected := hmirrored.numEdgesDirected_eq.symm

theorem Counted.inBounds (h : Counted g m) : m.InBounds g := by
  obtain ⟨hearly, htail⟩ | ⟨-, hfits, -, -⟩ := h.phase
  · refine ⟨htail ▸ Nat.zero_le _, fun t ht => ?_⟩
    have := hearly t
    rw [ht] at this
    cases this
  · refine ⟨by omega, fun t _ => ?_⟩
    have := single_le_sum
      (f := fun t => ((m.thread t).bins.bin m.shared.nextBin).length)
      (fun _ _ => Nat.zero_le _) (mem_univ t)
    omega

theorem counted_start (g : WGraph n) (source : Fin n) : Counted g (Machine.start ι g source) := by
  refine ⟨fun b v => ?_, .inl ⟨fun _ => rfl, rfl⟩⟩
  have hzero : (Machine.start ι g source).waiting b v = 0 :=
    sum_eq_zero fun t _ => by
      rw [bin_of_length_le (Nat.zero_le b), count_nil]
  rw [hzero]
  exact Nat.zero_le _

variable [DecidableEq ι]

theorem sum_update (f : Thread n → Nat) (thread : ι → Thread n) (t : ι) (th : Thread n) :
    (∑ t', f (update thread t th t')) + f (thread t) = (∑ t', f (thread t')) + f th := by
  have hrest : ∑ t' ∈ univ.erase t, f (update thread t th t') =
      ∑ t' ∈ univ.erase t, f (thread t') := by
    refine sum_congr rfl fun t' ht' => ?_
    rw [update_of_ne (ne_of_mem_erase ht')]
  have hnew := add_sum_erase univ
    (fun t' => f (update thread t th t')) (mem_univ t)
  have hold := add_sum_erase univ (fun t' => f (thread t')) (mem_univ t)
  rw [update_self] at hnew
  omega

/-- The step of a thread keeps the first part of the invariant. -/
theorem Counted.few_update (h : Counted g m) (hfew : m.FewWaiting g delta t)
    (hbins : ∀ b, th.bins.bin b = (m.thread t).bins.bin b ∨ th.bins.bin b = [] ∨
      ∃ v, threadPushes delta m.shared (m.thread t) = some (b, v) ∧
        th.bins.bin b = (m.thread t).bins.bin b ++ [v]) (b : Nat) (v : Fin n) :
    Machine.waiting { shared := s, thread := update m.thread t th } b v ≤ g.inEdges v := by
  have hold := h.few b v
  have hsum := sum_update (fun th => (th.bins.bin b).count v) m.thread t th
  simp only [Machine.waiting] at hold ⊢
  obtain heq | heq | ⟨x, hpushes, heq⟩ := hbins b
  · rw [heq] at hsum
    omega
  · rw [heq, count_nil] at hsum
    omega
  · rw [heq, count_append] at hsum
    by_cases hx : x = v
    · subst hx
      have hless := hfew (b, x) hpushes
      rw [count_singleton_self] at hsum
      simp only [Machine.waiting] at hless
      omega
    · have hzero : [x].count v = 0 := count_eq_zero_of_not_mem (by simpa using Ne.symm hx)
      rw [hzero] at hsum
      omega

/-- **One step of the machine.** -/
theorem Counted.step (hmirrored : g.Mirrored) (h : Counted g m) (hfew : m.FewWaiting g delta t)
    (hstep : m.step g delta t = some m') : Counted g m' := by
  rw [Machine.step] at hstep
  split_ifs at hstep with hvoted hall hcopied hall
  · cases hstep
    refine ⟨h.few, .inr ⟨fun _ => rfl, ?_, fun _ => .inl rfl, nofun⟩⟩
    obtain ⟨-, htail⟩ | ⟨hlate, -⟩ := h.phase
    · calc m.shared.nextTail + ∑ t, ((m.thread t).bins.bin m.shared.nextBin).length
          = ∑ t, ((m.thread t).bins.bin m.shared.nextBin).length := by rw [htail, Nat.zero_add]
        _ ≤ g.numEdgesDirected := h.sum_length_le hmirrored _
    · have := hlate t
      rw [hvoted] at this
      cases this
  · cases hstep
    refine ⟨h.few, .inl ⟨fun _ => rfl, ?_⟩⟩
    obtain ⟨hearly, -⟩ | ⟨-, -, hsingle, hzero⟩ := h.phase
    · have := hearly t
      rw [hcopied] at this
      cases this
    · obtain heq | htaken := hsingle t
      · rw [hcopied] at heq
        cases heq
      · exact hzero htaken
  obtain ⟨⟨s, th⟩, hthread, heq⟩ := map_eq_some_iff.mp hstep
  subst heq
  obtain ⟨hearly, htail⟩ | ⟨hlate, hfits, hsingle, hzero⟩ := h.phase
  · obtain ⟨hpc, htail', hbins⟩ := threadStep_early hthread (hearly t)
    refine ⟨h.few_update hfew hbins, .inl ⟨?_, htail'.trans htail⟩⟩
    exact (forall_update_iff m.thread fun _ th => th.pc.late = false).mpr
      ⟨hpc, fun t' _ => hearly t'⟩
  · obtain ⟨hpc, hbin, hmoved, hbins, hother, hfirst⟩ := threadStep_late hthread (hlate t)
    have hsum := sum_update (fun th => (th.bins.bin m.shared.nextBin).length) m.thread t th
    refine ⟨h.few_update hfew fun b => (hbins b).imp_right .inl, .inr ⟨?_, ?_, ?_, ?_⟩⟩
    · exact (forall_update_iff m.thread fun _ th => th.pc.late = true).mpr
        ⟨hpc, fun t' _ => hlate t'⟩
    · dsimp only
      rw [hbin]
      omega
    · intro t'
      by_cases hpcs : (m.thread t).pc = .single
      · exact .inr (hfirst hpcs).1
      · rw [(hother hpcs).1]
        exact .inr ((hsingle t).resolve_left hpcs)
    · by_cases hpcs : (m.thread t).pc = .single
      · exact fun _ => (hfirst hpcs).2 hzero
      · rw [(hother hpcs).1, (hother hpcs).2]
        exact hzero

/-- **When no vertex waits in a bin more often than it has incoming edges**, every write
into the frontier is inside it, for any number of threads and in every interleaving. -/
theorem inBounds_of_fewWaiting
    (hmirrored : g.Mirrored)
    {source : Fin n}
    (hsource : g.outNeigh source ≠ [])
    (delta : Int) : 0 < g.numEdgesDirected ∧
      ∀ m : Machine ι n, Runs (Machine.step g delta) (Machine.FewWaiting g delta)
        (Machine.start ι g source) m → m.InBounds g := by
  refine ⟨?_, ?_⟩
  · rw [hmirrored.numEdgesDirected_eq, sum_inEdges]
    have hpos : 0 < g.outDegree source := length_pos_of_ne_nil hsource
    exact hpos.trans_le (single_le_sum (f := g.outDegree)
      (fun _ _ => Nat.zero_le _) (mem_univ source))
  · intro m hrun
    exact (hrun.invariant (counted_start g source)
      fun _ _ _ h hfew hstep => h.step hmirrored hfew hstep).inBounds

end

/-- The distance of vertex `1` is found twice, and each time its four neighbours are put
into the same bin. -/
def fan : WGraph 7 where
  directed := true
  outNeigh := ![[⟨1, 90⟩, ⟨2, 10⟩], [⟨3, 100⟩, ⟨4, 100⟩, ⟨5, 100⟩, ⟨6, 100⟩], [⟨1, 70⟩],
    [], [], [], []]
  inNeigh := ![[], [⟨0, 90⟩, ⟨2, 70⟩], [⟨0, 10⟩], [⟨1, 100⟩], [⟨1, 100⟩], [⟨1, 100⟩],
    [⟨1, 100⟩]]
  inNeigh_eq h := by cases h

theorem fan_mirrored : fan.Mirrored :=
  nofun

theorem inBounds_of_fewWaiting_fan : fan.Mirrored ∧ fan.outNeigh 0 ≠ [] ∧
      ∃ m : Machine (Fin 1) 7, Runs (Machine.step fan 1) (Machine.FewWaiting fan 1)
        (Machine.start (Fin 1) fan 0) m ∧ (m.thread 0).pc = .copy ∧ m.InBounds fan := by
  have hsource : fan.outNeigh 0 ≠ [] := by decide
  refine ⟨fan_mirrored, hsource, exists_runs_imp (P := fun m => (m.thread 0).pc = .copy)
    (replicate 62 0) (by decide +kernel) fun m hrun hcopy => ⟨hcopy, ?_⟩⟩
  exact (inBounds_of_fewWaiting fan_mirrored hsource 1).2 m hrun

/-- **A bin can be larger than the frontier.**  One thread, seven edges, eight entries. -/
theorem not_inBounds_fan :
    (∀ u, ∀ wn ∈ fan.outNeigh u, 0 < wn.w) ∧ fan.Mirrored ∧ fan.outNeigh 0 ≠ [] ∧
      ∃ m : Machine (Fin 1) 7, Runs (Machine.step fan 100) (fun _ _ => True)
        (Machine.start (Fin 1) fan 0) m ∧ ¬ m.InBounds fan := by
  refine ⟨by decide, fan_mirrored, by decide, ?_⟩
  exact exists_runs (replicate 50 0) (by decide +kernel)

end HotTLBApps.Gapbs
