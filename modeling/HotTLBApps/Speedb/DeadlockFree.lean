import HotTLBApps.Speedb.Publication
import Mathlib

/-!
# Speedb: when the write flow can get stuck

A call that merges waits for the references to all groups while it holds `add_buffer_mutex_`.
The leader of the last group keeps its reference until it has appended a new group, and needs
`add_buffer_mutex_` for that: if the last group has a leader when a call that merges takes the
mutex, the two wait for each other.  Also, `elements_num_` has 16 bits, so after 65536 calls
have entered a group the next one takes itself for the leader, and waits for the leader's lock
while it holds `add_buffer_mutex_`.

Apart from this no state is stuck.

`Blocked`: the places where a call waits, and what it waits for.
-/

namespace HotTLBApps.Speedb

open Locks List Function Option WriterPc

section Guard

variable {ι : Type} {batches : ι → SpdbBatch} {s : FlowState ι} {i : ι}

/-- No call has entered the group. -/
def FlowData.Unentered (d : FlowData ι) (g : Nat) : Prop :=
  ∀ j, d.joined j ≠ some g

instance [Fintype ι] (d : FlowData ι) (g : Nat) : Decidable (d.Unentered g) :=
  inferInstanceAs (Decidable (∀ j, d.joined j ≠ some g))

/-- The group that the call enters next. -/
def WriterPc.enters : WriterPc → Option Nat
  | enlist g => some g
  | _ => none

/-- A call that merges takes `add_buffer_mutex_` only if nobody has entered the last group, and
a group that is entered with `elements_num_` zero has not been entered before. -/
def FlowState.MergesAlone (batches : ι → SpdbBatch) (s : FlowState ι) (i : ι) : Prop :=
  (s.pc i = .lockAdd → (batches i).hasMerge = true → s.data.Unentered (s.data.created - 1)) ∧
    ∀ g ∈ (s.pc i).enters, (s.data.lists g).elementsNum = 0 → s.data.Unentered g

instance [Fintype ι] (batches : ι → SpdbBatch) (s : FlowState ι)
    (i : ι) : Decidable (s.MergesAlone batches i) :=
  inferInstanceAs (Decidable (_ ∧ _))

end Guard

namespace WriterPc

/-- The group that the call has entered, until it has the references of all others. -/
def memberOf : WriterPc → Option Nat
  | lockBuffer g | lockRef g _ | unlockAdd g _ | insert g _ | insertMerge g _ | completeMerge g _
  | lockWal g | switchLockAdd g | switchLockList g | pushList g | switchUnlockAdd g | writeWal g
  | unlockWal g | syncWal g | unlockRef g _ | waitRef g => some g
  | _ => none

/-- The call has its sequence numbers and has not entered a group. -/
def numbered (merge : Bool) : WriterPc → Bool
  | enlist _ => true
  | lockList | waitPending _ | pendingDone _ _ | unlockList _ => merge
  | _ => false

/-- The call waits for references, or is about to. -/
def awaits (merge : Bool) : WriterPc → Bool
  | allocateMerge | waitPending (_ :: _) | pendingDone _ _ => true
  | lockList => merge
  | _ => false

theorem holdsAdd_of_awaits {merge : Bool} {p : WriterPc}
    (h : p.awaits merge = true) : p.holdsAdd = true := by
  unfold awaits at h
  split at h
  all_goals first | rfl | cases h

end WriterPc

section Places

variable {ι : Type} {batches : ι → SpdbBatch} {s : FlowState ι} {i : ι}

/-- What holds of a call at a place in a run that meets the condition. -/
structure FlowData.Steady
    (batches : ι → SpdbBatch) (d : FlowData ι) (i : ι) (p : WriterPc) : Prop where
  member : ∀ g, p.memberOf = some g → d.joined i = some g
  numbered : p.numbered (batches i).hasMerge = true → d.sequence i ≠ none
  awaits : p.awaits (batches i).hasMerge = true → d.Unentered (d.created - 1)
  leader : ∀ g, p = .lockBuffer g → ∀ j, d.joined j = some g → j = i

/-- **What holds in a run that meets the condition.** -/
structure FlowState.Steady (batches : ι → SpdbBatch) (s : FlowState ι) : Prop where
  inv : s.Inv batches
  created : 0 < s.data.created
  elements : ∀ g, (s.data.lists g).elementsNum < 2 ^ 16
  here : ∀ i, s.data.Steady batches i (s.pc i)

theorem FlowData.Steady.move {p p' : WriterPc} (h : s.data.Steady batches i p)
    (hmove : Moves batches s i p p') (hguard : p = .lockAdd → (batches i).hasMerge = true →
      s.data.Unentered (s.data.created - 1)) : s.data.Steady batches i p' := by
  obtain ⟨hmember, hnumbered, hawaits, -⟩ := h
  have hleader : ∀ g, p' ≠ .lockBuffer g := by
    intro g hg
    cases hmove
    case completeMerge leader => cases leader <;> cases hg
    all_goals cases hg
  refine ⟨fun g hg => hmember g ?_, fun hp' => hnumbered ?_, fun hp' => ?_,
    fun g hp' => absurd hp' (hleader g)⟩
  · cases hmove
    case completeMerge leader => cases leader <;> exact hg
    all_goals first | exact hg | cases hg
  · cases hmove
    case completeMerge leader => cases leader <;> cases hp'
    all_goals simp_all [WriterPc.numbered]
  · by_cases hlock : p = .lockAdd
    · refine hguard hlock ?_
      cases hmove <;> simp_all [WriterPc.awaits]
    · refine hawaits ?_
      cases hmove
      case completeMerge leader => cases leader <;> cases hp'
      all_goals simp_all [WriterPc.awaits]

variable {p : WriterPc}

/-- Another call, which holds `add_buffer_mutex_`, changes the data. -/
theorem FlowData.Steady.frame {d d' : FlowData ι} (h : d.Steady batches i p)
    (hadd : p.holdsAdd = false) (hjoined : d'.joined i = d.joined i)
    (hsequence : d'.sequence i = d.sequence i) : d'.Steady batches i p := by
  refine ⟨fun g hg => hjoined.trans (h.member g hg), fun hp => hsequence ▸ h.numbered hp,
    fun hp => ?_, fun g hp => ?_⟩
  · cases hadd.symm.trans (holdsAdd_of_awaits hp)
  · rw [hp] at hadd
    cases hadd

variable [DecidableEq ι] {d : FlowData ι}

theorem FlowState.Steady.goTo (h : s.Steady batches) (hstep : FlowStep batches s i p d)
    (hcreated : 0 < d.created) (helements : ∀ g, (d.lists g).elementsNum < 2 ^ 16)
    (hself : d.Steady batches i p)
    (hother : ∀ j, j ≠ i → d.Steady batches j (s.pc j)) : (s.goTo i p d).Steady batches := by
  refine ⟨h.inv.step hstep, hcreated, helements, fun j => ?_⟩
  by_cases hji : j = i
  · subst hji
    rw [FlowState.pc_goTo_self]
    exact hself
  · rw [FlowState.pc_goTo_of_ne hji]
    exact hother j hji

/-- **Every step that meets the condition** keeps what holds. -/
theorem FlowState.Steady.step (h : s.Steady batches) (hok : s.MergesAlone batches i)
    (hstep : FlowStep batches s i p d) : (s.goTo i p d).Steady batches := by
  have hlocal := h.here i
  have hothers : ∀ {p}, s.pc i = p → p.holdsAdd = true → ∀ {j}, j ≠ i →
      (s.pc j).holdsAdd = false := by
    rintro _ rfl hadd j hji
    exact h.inv.not_holdsAdd hadd hji
  cases hstep with
  | move hmove =>
    exact h.goTo (.move hmove) h.created h.elements (hlocal.move hmove hok.1) fun j _ => h.here j
  | allocateMerge hpc =>
    rw [hpc] at hlocal
    refine h.goTo (.allocateMerge hpc) h.created h.elements ?_ fun j hji => ?_
    · refine ⟨nofun, fun _ => ?_, fun _ => hlocal.awaits rfl, nofun⟩
      rw [FlowData.sequence_allocate_self]
      exact some_ne_none _
    · exact (h.here j).frame (hothers hpc rfl hji) rfl
        (FlowData.sequence_allocate_of_ne hji)
  | allocate hpc =>
    refine h.goTo (.allocate hpc) h.created h.elements ?_ fun j hji => ?_
    · refine ⟨nofun, fun _ => ?_, nofun, nofun⟩
      rw [FlowData.sequence_allocate_self]
      exact some_ne_none _
    · exact (h.here j).frame (hothers hpc rfl hji) rfl
        (FlowData.sequence_allocate_of_ne hji)
  | @enlist g b hpc hb =>
    refine h.goTo (.enlist hpc hb) h.created (fun g' => ?_) ?_ fun j hji => ?_
    · by_cases hg' : g' = g
      · subst hg'
        rw [FlowData.lists_enlist_self]
        exact Nat.mod_lt _ (Nat.two_pow_pos 16)
      · rw [FlowData.lists_enlist_of_ne hg']
        exact h.elements g'
    · unfold afterEnlist
      split
      case isTrue hone =>
        -- the first one of the group: nobody had entered it
        have hzero : (s.data.lists g).elementsNum = 0 := by
          change ((s.data.lists g).elementsNum + 1) % 2 ^ 16 = 1 at hone
          have := h.elements g
          omega
        have hunentered := hok.2 g (by rw [hpc]; rfl) hzero
        refine ⟨fun k hk => ?_, nofun, nofun, fun k hk j hj => ?_⟩
        · cases hk
          exact FlowData.joined_enlist_self
        · cases hk
          by_contra hji
          rw [FlowData.joined_enlist_of_ne hji] at hj
          exact hunentered j hj
      case isFalse =>
        refine ⟨fun k hk => ?_, nofun, nofun, nofun⟩
        cases hk
        exact FlowData.joined_enlist_self
    · exact (h.here j).frame (hothers hpc rfl hji) (FlowData.joined_enlist_of_ne hji) rfl
  | @insert g leader hpc =>
    rw [hpc] at hlocal
    refine h.goTo (.insert hpc) h.created h.elements ?_ fun j _ => { h.here j with }
    cases leader
    all_goals
      exact ⟨hlocal.member, nofun, nofun, nofun⟩
  | @insertMerge g leader hpc =>
    rw [hpc] at hlocal
    exact h.goTo (.insertMerge hpc) h.created h.elements
      ⟨hlocal.member, nofun, nofun, nofun⟩
      fun j _ => { h.here j with }
  | push hpc =>
    rw [hpc] at hlocal
    exact h.goTo (.push hpc) (Nat.succ_pos _) h.elements
      ⟨hlocal.member, nofun, nofun, nofun⟩
      fun j hji => (h.here j).frame (hothers hpc rfl hji) rfl rfl
  | writeWal hpc =>
    rw [hpc] at hlocal
    exact h.goTo (.writeWal hpc) h.created h.elements
      ⟨hlocal.member, nofun, nofun, nofun⟩
      fun j _ => { h.here j with }
  | @setComplete g hpc =>
    refine h.goTo (.setComplete hpc) h.created ?_ ⟨nofun, nofun, nofun, nofun⟩
      fun j _ => { h.here j with }
    exact (forall_update_iff s.data.lists fun _ l => l.elementsNum < 2 ^ 16).mpr
      ⟨h.elements g, fun g' _ => h.elements g'⟩
  | publish hpc =>
    exact h.goTo (.publish hpc) h.created h.elements ⟨nofun, nofun, nofun, nofun⟩
      fun j _ => { h.here j with }

end Places

variable {ι : Type} {batches : ι → SpdbBatch} {s : FlowState ι}

/-- The places where a call can make no step, with what it waits for. -/
inductive Blocked (s : FlowState ι) (i : ι) : WriterPc → Prop
  | lockAdd
      (hheld : ¬ Free holdsAdd s.pc) : Blocked s i .lockAdd
  | lockList
      (hheld : ¬ Free holdsList s.pc) : Blocked s i .lockList
  | back
      (hempty : s.data.wbLists = []) : Blocked s i (.waitPending [])
  | waitPending {g : Nat} {rest : List Nat}
      (hheld : ¬ Free (fun p => p.readsRef = some g || p.writesRef = some g) s.pc) :
      Blocked s i (.waitPending (g :: rest))
  | enlist {g : Nat}
      (hnumber : s.data.sequence i = none) : Blocked s i (.enlist g)
  | lockBuffer {g : Nat}
      (hheld : ¬ Free (fun p => p.readsBuffer = some g || p.writesBuffer = some g) s.pc) :
      Blocked s i (.lockBuffer g)
  | lockRef {g : Nat} {leader : Bool}
      (hheld : ¬ Free (fun p => p.writesRef = some g) s.pc) : Blocked s i (.lockRef g leader)
  | lockWal {g : Nat}
      (hheld : ¬ Free holdsWal s.pc) : Blocked s i (.lockWal g)
  | switchLockAdd {g : Nat}
      (hheld : ¬ Free holdsAdd s.pc) : Blocked s i (.switchLockAdd g)
  | switchLockList {g : Nat}
      (hheld : ¬ Free holdsList s.pc) : Blocked s i (.switchLockList g)
  | waitRef {g : Nat}
      (hheld : ¬ Free (fun p => p.readsRef = some g || p.writesRef = some g) s.pc) :
      Blocked s i (.waitRef g)
  | publishLock
      (hheld : ¬ Free holdsList s.pc) : Blocked s i .publishLock
  | readBuffer {g : Nat}
      (hheld : ¬ Free (fun p => p.writesBuffer = some g) s.pc) : Blocked s i (.readBuffer g)
  | returned : Blocked s i .returned

/-- All calls wait, or have not started. -/
def FlowState.Stuck (s : FlowState ι) : Prop :=
  ∀ i, s.pc i = .start ∨ Blocked s i (s.pc i)

theorem FlowState.Stuck.writesRef (h : s.Stuck) (i : ι) : (s.pc i).writesRef = none := by
  obtain hstart | hblocked := h i
  · rw [hstart]
    rfl
  · generalize s.pc i = p at hblocked
    cases hblocked <;> rfl

variable {i : ι} {g : Nat} {p : WriterPc}

theorem FlowState.Stuck.blocked (h : s.Stuck) (hpc : s.pc i = p) (hp : p ≠ .start) :
    Blocked s i p := by
  subst hpc
  exact (h i).resolve_left hp

theorem FlowState.Stuck.free {holds : WriterPc → Bool} (h : s.Stuck) (hstart : holds .start = false)
    (hblocked : ∀ i p, s.pc i = p → Blocked s i p → holds p = false) : Free holds s.pc := by
  intro i
  obtain hi | hi := h i
  · rwa [hi]
  · exact hblocked i _ rfl hi

/-- A call that waits and has a reference is the leader of the last group. -/
theorem FlowState.Stuck.readsRef (h : s.Stuck)
    (hreads : (s.pc i).readsRef = some g || (s.pc i).writesRef = some g) :
    s.pc i = .lockWal g ∨ s.pc i = .switchLockAdd g ∨ s.pc i = .switchLockList g := by
  rw [h.writesRef i] at hreads
  obtain hstart | hblocked := h i
  · rw [hstart] at hreads
    cases hreads
  · generalize s.pc i = p at hblocked hreads
    cases hblocked <;> simp_all [WriterPc.readsRef]

/-- A call that waits and has the lock of a group has entered it. -/
theorem FlowState.Stuck.writesBuffer (h : s.Stuck)
    (hbuffer : (s.pc i).readsBuffer = some g || (s.pc i).writesBuffer = some g) :
    s.pc i = .lockRef g true ∨ s.pc i = .lockWal g ∨ s.pc i = .switchLockAdd g ∨
      s.pc i = .switchLockList g ∨ s.pc i = .waitRef g := by
  obtain hstart | hblocked := h i
  · rw [hstart] at hbuffer
    cases hbuffer
  · generalize s.pc i = p at hblocked hbuffer
    cases hblocked
    case lockRef leader hheld => cases leader <;> simp_all [WriterPc.readsBuffer, WriterPc.writesBuffer]
    all_goals simp_all [WriterPc.readsBuffer, WriterPc.writesBuffer]

theorem FlowState.Steady.wbLists_ne_nil (h : s.Steady batches) : s.data.wbLists ≠ [] := by
  intro hempty
  have hpopped : s.data.popped = s.data.created := by
    unfold FlowData.popped
    rw [hempty]
    rfl
  have hcreated := h.created
  have hcomplete := h.inv.popped.complete (s.data.created - 1) (by omega)
  have := (h.inv.complete _ hcomplete).1.1
  omega

section Stuck

variable (hstuck : s.Stuck) (h : s.Steady batches)
include hstuck h

/-- Whoever holds `wb_list_mutex_` waits for a reference to the last group, which nobody has
entered. -/
theorem FlowState.Stuck.free_list : Free holdsList s.pc := by
  refine hstuck.free rfl fun i p hpc hblocked => ?_
  have hsteady := h.here i
  rw [hpc] at hsteady
  cases hblocked with
  | back hempty => exact absurd hempty h.wbLists_ne_nil
  | @waitPending g rest hheld =>
    obtain ⟨j, hj⟩ := exists_of_not_free hheld
    have hplace : (s.pc j).lastGroup = some g ∧ (s.pc j).memberOf = some g := by
      obtain hpc | hpc | hpc := hstuck.readsRef hj
      all_goals
        rw [hpc]
        exact ⟨rfl, rfl⟩
    have hlast := (h.inv.here j).last g hplace.1
    have hjoined := (h.here j).member g hplace.2
    rw [Nat.eq_sub_of_add_eq hlast] at hjoined
    exact absurd hjoined (hsteady.awaits rfl j)
  | _ => rfl

/-- Whoever holds `add_buffer_mutex_` waits for the lock of the group that it leads. -/
theorem FlowState.Stuck.free_add : Free holdsAdd s.pc := by
  have hlist := hstuck.free_list h
  refine hstuck.free rfl fun i p hpc hblocked => ?_
  have hsteady := h.here i
  have hnoList := hlist i
  rw [hpc] at hsteady hnoList
  cases hblocked with
  | lockList hheld | switchLockList hheld => exact absurd hlist hheld
  | back _ | waitPending _ => cases hnoList
  | enlist hnumber => exact absurd hnumber (hsteady.numbered rfl)
  | @lockBuffer g hheld =>
    obtain ⟨j, hj⟩ := exists_of_not_free hheld
    have hplace : (s.pc j).memberOf = some g := by
      obtain hpc | hpc | hpc | hpc | hpc := hstuck.writesBuffer hj
      all_goals
        rw [hpc]
        rfl
    have hji := hsteady.leader g rfl j ((h.here j).member g hplace)
    rw [hji, hpc] at hj
    cases hj
  | lockRef hheld =>
    obtain ⟨j, hj⟩ := exists_of_not_free hheld
    rw [hstuck.writesRef j] at hj
    cases hj
  | _ => rfl

theorem FlowState.Stuck.free_wal : Free holdsWal s.pc := by
  refine hstuck.free rfl fun i p _ hblocked => ?_
  cases hblocked with
  | switchLockAdd hheld => exact absurd (hstuck.free_add h) hheld
  | switchLockList hheld => exact absurd (hstuck.free_list h) hheld
  | _ => rfl

theorem FlowState.Stuck.not_switching :
    ¬ (s.pc i = .lockWal g ∨ s.pc i = .switchLockAdd g ∨ s.pc i = .switchLockList g) := by
  rintro (hpc | hpc | hpc)
  · cases hstuck.blocked hpc nofun with
    | lockWal hheld => exact hheld (hstuck.free_wal h)
  · cases hstuck.blocked hpc nofun with
    | switchLockAdd hheld => exact hheld (hstuck.free_add h)
  · cases hstuck.blocked hpc nofun with
    | switchLockList hheld => exact hheld (hstuck.free_list h)

theorem FlowState.Stuck.free_ref (g : Nat) :
    Free (fun p => p.readsRef = some g || p.writesRef = some g) s.pc := by
  intro i
  by_contra hi
  exact hstuck.not_switching h (hstuck.readsRef (Bool.eq_true_of_not_eq_false hi))

theorem FlowState.Stuck.free_buffer (g : Nat) : Free (fun p => p.writesBuffer = some g) s.pc := by
  intro i
  by_contra hi
  have hbuffer : (s.pc i).readsBuffer = some g || (s.pc i).writesBuffer = some g :=
    Bool.or_eq_true_iff.mpr (.inr (Bool.eq_true_of_not_eq_false hi))
  obtain hpc | hpc | hpc | hpc | hpc := hstuck.writesBuffer hbuffer
  · have := hstuck.free_add h i
    rw [hpc] at this
    cases this
  · exact hstuck.not_switching h (.inl hpc)
  · exact hstuck.not_switching h (.inr (.inl hpc))
  · exact hstuck.not_switching h (.inr (.inr hpc))
  · cases hstuck.blocked hpc nofun with
    | waitRef hheld => exact hheld (hstuck.free_ref h g)

/-- **Nobody waits**: all locks are free. -/
theorem FlowState.Stuck.start_or_returned (i : ι) : s.pc i = .start ∨ s.pc i = .returned := by
  have hlist := hstuck.free_list h
  have hadd := hstuck.free_add h
  refine (hstuck i).imp id fun hblocked => ?_
  have hnoAdd := hadd i
  generalize s.pc i = p at hblocked hnoAdd
  cases hblocked with
  | lockAdd hheld | switchLockAdd hheld => exact absurd hadd hheld
  | publishLock hheld => exact absurd hlist hheld
  | lockWal hheld => exact absurd (hstuck.free_wal h) hheld
  | @waitRef g hheld => exact absurd (hstuck.free_ref h g) hheld
  | @readBuffer g hheld => exact absurd (hstuck.free_buffer h g) hheld
  | returned => rfl
  | _ => cases hnoAdd

end Stuck

variable [Fintype ι] [DecidableEq ι]

theorem blocked_of_step_eq_none (h : s.step batches i = none) : Blocked s i (s.pc i) := by
  unfold FlowState.step at h
  cases hpc : s.pc i
  all_goals rw [hpc] at h
  case waitPending rest =>
    cases rest with
    | nil =>
      refine .back ?_
      simpa [FlowState.move] using h
    | cons g rest =>
      refine .waitPending fun hfree => ?_
      simp [FlowState.move, hfree] at h
  all_goals
    simp only [FlowState.move, map_eq_none_iff, reduceCtorEq, ite_eq_right_iff, imp_false] at h
  all_goals constructor <;> assumption

/-- **The write flow does not get stuck** in a run in which a call that merges takes
`add_buffer_mutex_` only if nobody has entered the last group, and no call takes itself for a
second leader: a call that has not returned has not started, or some call that has started can
make a step. -/
theorem deadlock_free
    {lastSequence : Nat}
    (hrun : Runs (FlowState.step batches) (FlowState.MergesAlone batches)
      (FlowState.opened lastSequence) s)
    (hi : s.pc i ≠ .returned) :
    s.pc i = .start ∨ ∃ j, s.pc j ≠ .start ∧ ∃ s', s.step batches j = some s' := by
  have hsteady : s.Steady batches := by
    refine hrun.invariant ⟨FlowState.inv_opened lastSequence, Nat.one_pos,
      fun _ => Nat.two_pow_pos 16, fun _ => ⟨nofun, nofun, nofun, nofun⟩⟩
      fun s₁ j s₂ h hok hstep => ?_
    obtain ⟨p, d, rfl, hmade⟩ := flowStep_of_step hstep
    exact h.step hok hmade
  by_contra hnone
  obtain ⟨hstart, hnone⟩ := not_or.mp hnone
  have hstuck : s.Stuck := by
    intro j
    by_cases hj : s.pc j = .start
    · exact .inl hj
    · have hstep : s.step batches j = none :=
        eq_none_iff_forall_ne_some.mpr fun s' hs' => hnone ⟨j, hj, s', hs'⟩
      exact .inr (blocked_of_step_eq_none hstep)
  exact (hstuck.start_or_returned hsteady i).elim hstart hi

/-- The call that merges waits for references, and the other one for the mutex. -/
theorem deadlock_free_mergeThenWrite :
    ∃ s, Runs (FlowState.step mergeThenWrite) (FlowState.MergesAlone mergeThenWrite)
        (FlowState.opened 0) s ∧
      s.pc 0 = .waitPending [0] ∧ s.pc 1 = .lockAdd ∧
        ∃ j, s.pc j ≠ .start ∧ ∃ s', s.step mergeThenWrite j = some s' := by
  refine exists_runs_imp (P := fun s => s.pc 0 = .waitPending [0] ∧ s.pc 1 = .lockAdd)
    (replicate 4 0 ++ [1]) (by decide +kernel) fun s hrun ⟨hzero, hone⟩ => ?_
  have hwaits : s.pc 1 ≠ .returned ∧ s.pc 1 ≠ .start := by
    rw [hone]
    exact ⟨nofun, nofun⟩
  exact ⟨hzero, hone, (deadlock_free hrun hwaits.1).resolve_left hwaits.2⟩

/-- A call that leads its group, and one that merges. -/
def writeThenMerge : Fin 2 → SpdbBatch
  | 0 => walBatch false
  | 1 => mergeBatch

/-- **The two wait for each other.**  The first call has its reference and needs
`add_buffer_mutex_` to append a new group; the second one holds the mutex, and waits for the
reference. -/
theorem stuck_writeThenMerge :
    ∃ s, Runs (FlowState.step writeThenMerge) (fun _ _ => True) (FlowState.opened 0) s ∧
      s.pc 0 = .switchLockAdd 0 ∧ s.pc 1 = .waitPending [0] ∧ ∀ j, s.step writeThenMerge j = none :=
  exists_runs (replicate 12 0 ++ replicate 4 1) (by decide +kernel)

end HotTLBApps.Speedb
