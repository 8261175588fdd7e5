import Mathlib.Data.List.Basic

/-!
# The threads of asynchronous range compactions

`compact_range_threads_mngr.cc`.  `CleanupCompletedThreads` is to join and remove the
threads whose callback has been called.  Its iterator moves only when an element is erased.

* `cleanupLoop_of_called`: the loop ends if every callback has been called;
* `cleanupLoop_of_not_called`: it never ends if one has not.
-/

namespace HotTLBApps.Speedb

open List

variable {T : Type}

/-- An element of `threads_infos_`; `wasCbCalled` is the answer of its callback object. -/
structure ThreadInfo (T : Type) where
  thread : T
  wasCbCalled : Bool

/-- The list, the iterator, and the threads that were joined. -/
structure CleanupState (T : Type) where
  threadsInfos : List (ThreadInfo T)
  iter : Nat
  joined : List T

/-- The loop of `CleanupCompletedThreads`; `none` if the turns do not suffice. -/
def cleanupLoop : (turns : Nat) → CleanupState T → Option (CleanupState T)
  | 0, _ => none
  | turns + 1, s =>
      match s.threadsInfos[s.iter]? with
      | none => some s
      | some info =>
          if info.wasCbCalled then
            cleanupLoop turns { s with
              threadsInfos := s.threadsInfos.eraseIdx s.iter
              joined := s.joined ++ [info.thread] }
          else cleanupLoop turns s

def cleanupCompletedThreads
    (turns : Nat) (threadsInfos : List (ThreadInfo T)) : Option (CleanupState T) :=
  cleanupLoop turns ⟨threadsInfos, 0, []⟩

variable {infos : List (ThreadInfo T)}

theorem cleanupLoop_of_called (h : ∀ info ∈ infos, info.wasCbCalled = true) (joined : List T) :
    cleanupLoop (infos.length + 1) ⟨infos, 0, joined⟩ =
      some ⟨[], 0, joined ++ infos.map ThreadInfo.thread⟩ := by
  induction infos generalizing joined with
  | nil => simp [cleanupLoop]
  | cons info infos ih =>
    simp only [forall_mem_cons] at h
    simp [cleanupLoop, h.1, ih h.2]

/-- The iterator stays before the first thread whose callback has not been called. -/
theorem cleanupLoop_of_not_called (h : ∃ info ∈ infos, info.wasCbCalled = false)
    (turns : Nat) (joined : List T) : cleanupLoop turns ⟨infos, 0, joined⟩ = none := by
  induction turns generalizing infos joined with
  | zero => rfl
  | succ turns ih =>
    cases infos with
    | nil => simp at h
    | cons info infos =>
      cases hcalled : info.wasCbCalled with
      | false => simpa [cleanupLoop, hcalled] using ih h joined
      | true =>
        have hrest : ∃ info ∈ infos, info.wasCbCalled = false := by simpa [hcalled] using h
        simpa [cleanupLoop, hcalled] using ih hrest (joined ++ [info.thread])

/-- **The cleanup ends, joins and removes the completed threads and keeps the others, exactly
if there are no others.** -/
theorem cleanupCompletedThreads_ends_iff (infos : List (ThreadInfo T)) :
    (∃ turns s, cleanupCompletedThreads turns infos = some s ∧
        s.joined = (infos.filter ThreadInfo.wasCbCalled).map ThreadInfo.thread ∧
        s.threadsInfos = infos.filter fun info => !info.wasCbCalled) ↔
      ∀ info ∈ infos, info.wasCbCalled = true := by
  constructor
  · rintro ⟨turns, s, hs, -, -⟩
    by_contra! hnot
    simp only [ne_eq, Bool.not_eq_true] at hnot
    rw [cleanupCompletedThreads, cleanupLoop_of_not_called hnot] at hs
    cases hs
  · intro hcalled
    refine ⟨_, _, cleanupLoop_of_called hcalled [], ?_, ?_⟩
    · rw [nil_append, filter_eq_self.mpr hcalled]
    · exact (filter_eq_nil_iff.mpr (by simpa using hcalled)).symm

/-- One thread that has not finished: the cleanup does not end. -/
theorem cleanupCompletedThreads_unfinished :
    ¬ ∃ turns s, cleanupCompletedThreads turns [⟨(), false⟩] = some s := by
  rintro ⟨turns, s, hs⟩
  rw [cleanupCompletedThreads, cleanupLoop_of_not_called ⟨_, mem_singleton_self _, rfl⟩] at hs
  cases hs

end HotTLBApps.Speedb
