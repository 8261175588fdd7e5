import HotTLBApps.Lib.Runs

/-!
# The sort thread of the vector container

`SortThread`, the destructor and `MarkReadOnly` of `SpdbVectorContainer`.  The sort thread
waits on its condition variable without a predicate and reads `immutable_` only after it was
woken; `notify_one` has no effect when nobody waits.

The sorting itself, between two waits, is left out: it ends and touches none of these fields.

* `SortState.Joins.step`: if the last notification finds the sort thread at its wait or
  behind it, the thread ends.
-/

namespace HotTLBApps.Speedb

/-- Where the sort thread is: not yet at its mutex, before a call of `wait` with the mutex
held, in `wait`, woken but without the mutex, behind `wait` with the mutex, or at its end. -/
inductive SortPhase
  | created
  | beforeWait
  | waiting
  | woken
  | afterWait
  | finished
  deriving DecidableEq

/-- Where the destructor is: not called, in `MarkReadOnly` before its notification, in `join`,
or behind it. -/
inductive DestructorPhase
  | alive
  | marked
  | joining
  | joined
  deriving DecidableEq

/-- The container after its constructor.  `marking` counts the other calls of `MarkReadOnly`
that have set `immutable_` and not yet notified. -/
structure SortState where
  sortThread : SortPhase
  immutable : Bool
  marking : Nat
  destructor : DestructorPhase

def SortState.new : SortState :=
  ⟨.created, false, 0, .alive⟩

/-- The steps.  `notify` is the notification of an `Insert` or an `InitIterator`, and
`spurious` a wake-up without one. -/
inductive SortEvent
  | lock
  | wait
  | spurious
  | relock
  | check
  | notify
  | markReadOnly
  | markNotify
  | destroy
  | destroyNotify
  | join
  deriving DecidableEq

namespace SortState

/-- `sort_thread_mutex_` is free. -/
def MutexFree (s : SortState) : Prop :=
  s.sortThread ≠ .beforeWait ∧ s.sortThread ≠ .afterWait

instance (s : SortState) : Decidable s.MutexFree :=
  inferInstanceAs (Decidable (_ ∧ _))

/-- `sort_thread_cv_.notify_one()`. -/
def notifyOne (s : SortState) : SortState :=
  if s.sortThread = .waiting then { s with sortThread := .woken } else s

/-- One step; `none` if it is not possible.  Once the destructor runs there are no other
calls on the container. -/
def step (s : SortState) : SortEvent → Option SortState
  | .lock =>
      if s.sortThread = .created then some { s with sortThread := .beforeWait } else none
  | .wait =>
      if s.sortThread = .beforeWait then some { s with sortThread := .waiting } else none
  | .spurious =>
      if s.sortThread = .waiting then some { s with sortThread := .woken } else none
  | .relock =>
      if s.sortThread = .woken then some { s with sortThread := .afterWait } else none
  | .check =>
      if s.sortThread = .afterWait then
        some { s with sortThread := if s.immutable then .finished else .beforeWait }
      else none
  | .notify => if s.destructor = .alive then some s.notifyOne else none
  | .markReadOnly =>
      if s.destructor = .alive ∧ s.MutexFree then
        some { s with immutable := true, marking := s.marking + 1 }
      else none
  | .markNotify =>
      if 0 < s.marking then some { s.notifyOne with marking := s.marking - 1 } else none
  | .destroy =>
      if s.destructor = .alive ∧ s.marking = 0 ∧ s.MutexFree then
        some { s with immutable := true, destructor := .marked }
      else none
  | .destroyNotify =>
      if s.destructor = .marked then some { s.notifyOne with destructor := .joining } else none
  | .join =>
      if s.destructor = .joining ∧ s.sortThread = .finished then
        some { s with destructor := .joined }
      else none

/-- The destructor waits for a thread that nobody will wake. -/
def Stranded (s : SortState) : Prop :=
  s.destructor = .joining ∧ s.sortThread = .waiting

/-- The notification of the destructor finds the sort thread in its wait or behind it. -/
def NotifiedInTime (s : SortState) : SortEvent → Prop
  | .destroyNotify => s.sortThread ≠ .created ∧ s.sortThread ≠ .beforeWait
  | _ => True

instance (s : SortState) : (e : SortEvent) → Decidable (s.NotifiedInTime e)
  | .destroyNotify => inferInstanceAs (Decidable (_ ∧ _))
  | .lock | .wait | .spurious | .relock | .check | .notify | .markReadOnly | .markNotify
  | .destroy | .join => isTrue trivial

/-- The sort thread of a container whose destructor has notified will read `immutable_`. -/
structure Joins (s : SortState) : Prop where
  immutable : s.destructor ≠ .alive → s.immutable = true
  quiet : s.destructor ≠ .alive → s.marking = 0
  ends : s.destructor = .joining ∨ s.destructor = .joined →
    s.sortThread = .woken ∨ s.sortThread = .afterWait ∨ s.sortThread = .finished

variable (s : SortState)

theorem Joins.step {s s' : SortState} {e : SortEvent} (h : s.Joins) (hok : s.NotifiedInTime e)
    (hstep : s.step e = some s') : s'.Joins := by
  obtain ⟨himmutable, hquiet, hends⟩ := h
  cases e <;> simp only [SortState.step, Option.ite_none_right_eq_some, Option.some_inj] at hstep <;>
    obtain ⟨hguard, rfl⟩ := hstep
  case destroyNotify =>
    -- the sort thread is in its wait, where the notification reaches it, or behind it
    obtain ⟨hcreated, hbefore⟩ := hok
    refine ⟨by grind [notifyOne], by grind [notifyOne], fun _ => ?_⟩
    cases hphase : s.sortThread <;> simp_all [notifyOne]
  case check =>
    refine ⟨himmutable, hquiet, fun hjoining => ?_⟩
    have himm := himmutable fun halive => by simp [halive] at hjoining
    simp [himm]
  all_goals
    refine ⟨?_, ?_, ?_⟩ <;> grind [notifyOne]

/-- **The destructor is not left waiting** in any run in which its notification is in time. -/
theorem not_stranded
    {s : SortState}
    (hrun : Runs step NotifiedInTime new s) : ¬ s.Stranded := by
  have hjoins : s.Joins := hrun.invariant ⟨by simp [new], by simp [new], by simp [new]⟩
    fun _ _ _ h hok hstep => h.step hok hstep
  rintro ⟨hjoining, hwaiting⟩
  simpa [hwaiting] using hjoins.ends (.inl hjoining)

/-- A container that is filled and destroyed while its sort thread waits. -/
theorem not_stranded_destroyed :
    ∃ s, Runs step NotifiedInTime new s ∧ s.destructor = .joined ∧ ¬ s.Stranded := by
  refine exists_runs_imp (P := fun s => s.destructor = .joined)
    [.lock, .wait, .notify, .relock, .check, .wait, .destroy, .destroyNotify, .relock, .check,
      .join] (by decide) fun s hrun hs => ?_
  exact ⟨hs, not_stranded hrun⟩

/-- A container that is destroyed before its sort thread has come to its wait. -/
theorem stranded_before_wait : ∃ s, Runs step (fun _ _ => True) new s ∧ s.Stranded :=
  exists_runs_imp (P := fun s : SortState => s.destructor = .joining ∧ s.sortThread = .waiting)
    [.destroy, .destroyNotify, .lock, .wait] (by decide) fun _ _ hs => hs

end SortState

end HotTLBApps.Speedb
