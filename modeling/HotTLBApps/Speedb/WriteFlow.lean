import HotTLBApps.Lib.Locks
import HotTLBApps.Lib.Runs
import HotTLBApps.Speedb.GroupDurability

/-!
# Speedb: concurrent calls of `SpdbWrite` (`db/db_impl/db_spdb_impl_write.cc`)

Any number of calls, each with its batch, as a machine whose steps are the lock and unlock
operations of the calls and the work between them.

* A call that does not merge gets the last group and its sequence numbers while it holds
  `add_buffer_mutex_`, enters the group, and inserts its batch after it has released the mutex.
* A call that merges keeps the mutex until its batch is inserted, and before it enters the
  last group it waits, in all groups, for the calls that have not inserted their batches.
* The first call of a group is its leader.  It holds the group's `buffer_write_rw_lock_` until
  the group is done: it appends a new group, writes the log, waits for the insertions of the
  others, marks the group as complete and publishes.  The others wait for this lock.

A read or write lock that is taken through `ReadLock` and `WriteLock` of `util/mutexlock.h` is
that of the base class of `RWMutexWr`, which knows nothing of waiting writers: a read lock is
granted when nobody has the write lock.  `flush_rwlock_` has no writer here, and
`log_write_mutex_` is only held during an append.  Appends and insertions succeed.

`joined` is not in the source: it tells the group that a call has entered.
-/

namespace HotTLBApps.Speedb

open Locks List Function Option

/-- A place in `SpdbWrite`; the names are those of the step that comes next. -/
inductive WriterPc
  | start
  /-- `add_buffer_mutex_` of `Add` and `AddMerge`. -/
  | lockAdd
  /-- The sequence number in `AddMerge`. -/
  | allocateMerge
  /-- `wb_list_mutex_` of `Add` and `AddMerge`. -/
  | lockList
  /-- `WaitForPendingWrites` for some groups; without any, `wb_lists_.back()`. -/
  | waitPending (rest : List Nat)
  /-- The end of `WaitForPendingWrites` for a group. -/
  | pendingDone (g : Nat) (rest : List Nat)
  | unlockList (g : Nat)
  /-- The sequence number in `Add`. -/
  | allocate (g : Nat)
  /-- `WritesBatchList::Add`. -/
  | enlist (g : Nat)
  /-- `buffer_write_rw_lock_` of the leader. -/
  | lockBuffer (g : Nat)
  /-- `write_ref_rwlock_`. -/
  | lockRef (g : Nat) (leader : Bool)
  /-- The end of `Add`. -/
  | unlockAdd (g : Nat) (leader : Bool)
  | insert (g : Nat) (leader : Bool)
  /-- The insertion of a call that merges, which still holds `add_buffer_mutex_`. -/
  | insertMerge (g : Nat) (leader : Bool)
  | completeMerge (g : Nat) (leader : Bool)
  /-- `wal_write_mutex_` of `SwitchAndWriteBatchGroup`. -/
  | lockWal (g : Nat)
  | switchLockAdd (g : Nat)
  | switchLockList (g : Nat)
  /-- `SwitchBatchGroupIfNeeded` with the end of `wb_list_mutex_`. -/
  | pushList (g : Nat)
  | switchUnlockAdd (g : Nat)
  | writeWal (g : Nat)
  | unlockWal (g : Nat)
  | syncWal (g : Nat)
  /-- The start of `WritesBatchList::WriteBatchComplete`. -/
  | unlockRef (g : Nat) (leader : Bool)
  /-- The leader's wait for the insertions of the group. -/
  | waitRef (g : Nat)
  | refDone (g : Nat)
  | setComplete (g : Nat)
  | unlockBuffer (g : Nat)
  | publishLock
  /-- `PublishedSeq`. -/
  | publish
  /-- The wait of a call that is not a leader. -/
  | readBuffer (g : Nat)
  | bufferRead (g : Nat)
  | returned
deriving DecidableEq, Repr

namespace WriterPc

/-- `add_buffer_mutex_` is held. -/
def holdsAdd : WriterPc → Bool
  | allocateMerge | lockList | waitPending _ | pendingDone _ _ | unlockList _ | allocate _
  | enlist _ | lockBuffer _ | lockRef _ _ | unlockAdd _ _ | insertMerge _ _ | completeMerge _ _
  | switchLockList _ | pushList _ | switchUnlockAdd _ => true
  | _ => false

/-- `wb_list_mutex_` is held. -/
def holdsList : WriterPc → Bool
  | waitPending _ | pendingDone _ _ | unlockList _ | pushList _ | publish => true
  | _ => false

/-- `wal_write_mutex_` is held. -/
def holdsWal : WriterPc → Bool
  | switchLockAdd _ | switchLockList _ | pushList _ | switchUnlockAdd _ | writeWal _
  | unlockWal _ => true
  | _ => false

/-- The group whose `write_ref_rwlock_` is held for reading. -/
def readsRef : WriterPc → Option Nat
  | unlockAdd g _ | insert g _ | insertMerge g _ | completeMerge g _ | lockWal g
  | switchLockAdd g | switchLockList g | pushList g | switchUnlockAdd g | writeWal g
  | unlockWal g | syncWal g | unlockRef g _ => some g
  | _ => none

/-- The group whose `write_ref_rwlock_` is held for writing. -/
def writesRef : WriterPc → Option Nat
  | pendingDone g _ | refDone g => some g
  | _ => none

/-- The group whose `buffer_write_rw_lock_` is held for writing. -/
def writesBuffer : WriterPc → Option Nat
  | lockRef g true | unlockAdd g true | insert g true | insertMerge g true
  | completeMerge g true | lockWal g | switchLockAdd g | switchLockList g | pushList g
  | switchUnlockAdd g | writeWal g | unlockWal g | syncWal g | unlockRef g true | waitRef g
  | refDone g | setComplete g | unlockBuffer g => some g
  | _ => none

/-- The group whose `buffer_write_rw_lock_` is held for reading. -/
def readsBuffer : WriterPc → Option Nat
  | bufferRead g => some g
  | _ => none

end WriterPc

open WriterPc

/-- What the calls share, and what they know of their batches. -/
structure FlowData (ι : Type) where
  /-- The first sequence numbers of batches. -/
  sequence : ι → Option Nat
  joined : ι → Option Nat
  /-- The batches that are in the memtable. -/
  inserted : ι → Bool
  lists : Nat → WritesBatchList
  /-- How many groups there have been. -/
  created : Nat
  wbLists : List Nat
  lastAllocated : Nat
  lastSequence : Nat
  wal : List (List PlacedBatch)

structure FlowState (ι : Type) where
  pc : ι → WriterPc
  data : FlowData ι

variable {ι : Type} [DecidableEq ι] (batches : ι → SpdbBatch) (d : FlowData ι) (i : ι)

/-- The batch gets its sequence numbers (`FetchAddLastAllocatedSequence`). -/
def FlowData.allocate : FlowData ι :=
  { d with
    sequence := update d.sequence i (some (d.lastAllocated + 1))
    lastAllocated := d.lastAllocated + (batches i).count }

/-- `WritesBatchList::Add`. -/
def FlowData.enlist (g sequence : Nat) : FlowData ι :=
  { d with
    joined := update d.joined i (some g)
    lists := update d.lists g ((d.lists g).add ⟨sequence, batches i⟩) }

/-- `InsertInto`, unless the memtable is disabled. -/
def FlowData.insert : FlowData ι :=
  { d with inserted := update d.inserted i (!(batches i).disableMemtable) }

def FlowData.push : FlowData ι :=
  { d with
    created := d.created + 1
    wbLists := d.wbLists ++ [d.created] }

/-- The records of a group are appended to the log.  Other groups cannot come between them,
as `wal_write_mutex_` is held. -/
def FlowData.writeWal (g : Nat) : FlowData ι :=
  { d with wal := d.wal ++ walRecords (d.lists g).walWrites }

def FlowData.setComplete (g : Nat) : FlowData ι :=
  { d with lists := update d.lists g { d.lists g with completeBatch := true } }

/-- The loop of `PublishedSeq` over the groups: those that are left, and `published_seq`. -/
def popComplete (lists : Nat → WritesBatchList) : List Nat → Nat → List Nat × Nat
  | [], published => ([], published)
  | g :: rest, published =>
      if (lists g).completeBatch then
        popComplete lists rest (lists g).maxSeq
      else
        (g :: rest, published)

/-- `PublishedSeq`. -/
def FlowData.publish : FlowData ι :=
  { d with
    wbLists := (popComplete d.lists d.wbLists 0).1
    lastSequence :=
      if (popComplete d.lists d.wbLists 0).2 ≠ 0 then
        (popComplete d.lists d.wbLists 0).2
      else
        d.lastSequence }

variable {batches : ι → SpdbBatch} {d : FlowData ι} {i j : ι} {g g' b : Nat}

theorem FlowData.sequence_allocate_self :
    (d.allocate batches i).sequence i = some (d.lastAllocated + 1) :=
  update_self _ _ _

theorem FlowData.sequence_allocate_of_ne
    (h : j ≠ i) : (d.allocate batches i).sequence j = d.sequence j :=
  update_of_ne h _ _

theorem FlowData.joined_enlist_self : (d.enlist batches i g b).joined i = some g :=
  update_self _ _ _

theorem FlowData.joined_enlist_of_ne (h : j ≠ i) : (d.enlist batches i g b).joined j = d.joined j :=
  update_of_ne h _ _

theorem FlowData.lists_enlist_self :
    (d.enlist batches i g b).lists g = (d.lists g).add ⟨b, batches i⟩ :=
  update_self _ _ _

theorem FlowData.lists_enlist_of_ne (h : g' ≠ g) : (d.enlist batches i g b).lists g' = d.lists g' :=
  update_of_ne h _ _

theorem FlowData.inserted_insert_self :
    (d.insert batches i).inserted i = !(batches i).disableMemtable :=
  update_self _ _ _

variable [Fintype ι] (batches : ι → SpdbBatch) (s : FlowState ι) (i : ι)

/-- A call moves on, and the data change. -/
def FlowState.goTo (p : WriterPc) (d : FlowData ι) : FlowState ι :=
  { pc := update s.pc i p
    data := d }

omit [Fintype ι] in
variable {s i} in
theorem FlowState.pc_goTo_self {p : WriterPc} : (s.goTo i p d).pc i = p :=
  update_self _ _ _

omit [Fintype ι] in
variable {s i} in
theorem FlowState.pc_goTo_of_ne {p : WriterPc}
    (h : j ≠ i) : (s.goTo i p d).pc j = s.pc j :=
  update_of_ne h _ _

/-- Where a call goes after its insertion. -/
def afterInsert (g : Nat) (leader : Bool) : WriterPc :=
  if leader then .lockWal g else .unlockRef g false

/-- Where a call goes from `WritesBatchList::Add`: the first one of a group leads it. -/
def afterEnlist (l : WritesBatchList) (g : Nat) : WriterPc :=
  if l.elementsNum = 1 then .lockBuffer g else .lockRef g false

/-- The steps that only take or release locks; `none` if the lock is not free. -/
def FlowState.move : WriterPc → Option WriterPc
  | .start => some .lockAdd
  | .lockAdd =>
      if Free holdsAdd s.pc then
        some (if (batches i).hasMerge then .allocateMerge else .lockList)
      else
        none
  | .lockList =>
      if Free holdsList s.pc then
        some (.waitPending (if (batches i).hasMerge then s.data.wbLists else []))
      else
        none
  | .waitPending [] => s.data.wbLists.getLast?.map .unlockList
  | .waitPending (g :: rest) =>
      if Free (fun p => p.readsRef = some g || p.writesRef = some g) s.pc then
        some (.pendingDone g rest)
      else
        none
  | .pendingDone _ rest => some (.waitPending rest)
  | .unlockList g => some (if (batches i).hasMerge then .enlist g else .allocate g)
  | .lockBuffer g =>
      if Free (fun p => p.readsBuffer = some g || p.writesBuffer = some g) s.pc then
        some (.lockRef g true)
      else
        none
  | .lockRef g leader =>
      if Free (fun p => p.writesRef = some g) s.pc then
        some (if (batches i).hasMerge then .insertMerge g leader else .unlockAdd g leader)
      else
        none
  | .unlockAdd g leader => some (.insert g leader)
  | .completeMerge g leader => some (afterInsert g leader)
  | .lockWal g => if Free holdsWal s.pc then some (.switchLockAdd g) else none
  | .switchLockAdd g => if Free holdsAdd s.pc then some (.switchLockList g) else none
  | .switchLockList g => if Free holdsList s.pc then some (.pushList g) else none
  | .switchUnlockAdd g => some (.writeWal g)
  | .unlockWal g => some (.syncWal g)
  | .syncWal g => some (.unlockRef g true)
  | .unlockRef g leader => some (if leader then .waitRef g else .readBuffer g)
  | .waitRef g =>
      if Free (fun p => p.readsRef = some g || p.writesRef = some g) s.pc then
        some (.refDone g)
      else
        none
  | .refDone g => some (.setComplete g)
  | .unlockBuffer _ => some .publishLock
  | .publishLock => if Free holdsList s.pc then some .publish else none
  | .readBuffer g =>
      if Free (fun p => p.writesBuffer = some g) s.pc then some (.bufferRead g) else none
  | .bufferRead _ => some .returned
  | _ => none

/-- One step of a call; `none` if it has to wait or has returned. -/
def FlowState.step : Option (FlowState ι) :=
  match s.pc i with
  | .allocateMerge => some (s.goTo i .lockList (s.data.allocate batches i))
  | .allocate g => some (s.goTo i (.enlist g) (s.data.allocate batches i))
  | .enlist g =>
      (s.data.sequence i).map fun sequence =>
        s.goTo i (afterEnlist ((s.data.lists g).add ⟨sequence, batches i⟩) g)
          (s.data.enlist batches i g sequence)
  | .insert g leader => some (s.goTo i (afterInsert g leader) (s.data.insert batches i))
  | .insertMerge g leader => some (s.goTo i (.completeMerge g leader) (s.data.insert batches i))
  | .pushList g => some (s.goTo i (.switchUnlockAdd g) s.data.push)
  | .writeWal g => some (s.goTo i (.unlockWal g) (s.data.writeWal g))
  | .setComplete g => some (s.goTo i (.unlockBuffer g) (s.data.setComplete g))
  | .publish => some (s.goTo i .returned s.data.publish)
  | p => (s.move batches i p).map fun p' => s.goTo i p' s.data

/-- Calls that have not started, in a database that has used some sequence numbers. -/
def FlowState.opened (lastSequence : Nat) : FlowState ι :=
  { pc := fun _ => .start
    data :=
      { sequence := fun _ => none
        joined := fun _ => none
        inserted := fun _ => false
        lists := fun _ => .empty
        created := 1
        wbLists := [0]
        lastAllocated := lastSequence
        lastSequence := lastSequence
        wal := [] } }

variable {batches : ι → SpdbBatch} {s s' : FlowState ι} {i : ι}

/-- The steps that only take or release locks, each with what it has waited for. -/
inductive Moves (batches : ι → SpdbBatch) (s : FlowState ι) (i : ι) : WriterPc → WriterPc → Prop
  | start : Moves batches s i .start .lockAdd
  | lockAddMerge
      (hfree : Free holdsAdd s.pc)
      (hmerge : (batches i).hasMerge = true) : Moves batches s i .lockAdd .allocateMerge
  | lockAdd
      (hfree : Free holdsAdd s.pc)
      (hmerge : (batches i).hasMerge = false) : Moves batches s i .lockAdd .lockList
  | lockListMerge
      (hfree : Free holdsList s.pc)
      (hmerge : (batches i).hasMerge = true) :
      Moves batches s i .lockList (.waitPending s.data.wbLists)
  | lockList
      (hfree : Free holdsList s.pc)
      (hmerge : (batches i).hasMerge = false) : Moves batches s i .lockList (.waitPending [])
  | back {g : Nat}
      (hlast : s.data.wbLists.getLast? = some g) :
      Moves batches s i (.waitPending []) (.unlockList g)
  | waitPending {g : Nat} {rest : List Nat}
      (hfree : Free (fun p => p.readsRef = some g || p.writesRef = some g) s.pc) :
      Moves batches s i (.waitPending (g :: rest)) (.pendingDone g rest)
  | pendingDone {g : Nat} {rest : List Nat} :
      Moves batches s i (.pendingDone g rest) (.waitPending rest)
  | unlockListMerge {g : Nat}
      (hmerge : (batches i).hasMerge = true) : Moves batches s i (.unlockList g) (.enlist g)
  | unlockList {g : Nat}
      (hmerge : (batches i).hasMerge = false) : Moves batches s i (.unlockList g) (.allocate g)
  | lockBuffer {g : Nat}
      (hfree : Free (fun p => p.readsBuffer = some g || p.writesBuffer = some g) s.pc) :
      Moves batches s i (.lockBuffer g) (.lockRef g true)
  | lockRefMerge {g : Nat} {leader : Bool}
      (hfree : Free (fun p => p.writesRef = some g) s.pc)
      (hmerge : (batches i).hasMerge = true) :
      Moves batches s i (.lockRef g leader) (.insertMerge g leader)
  | lockRef {g : Nat} {leader : Bool}
      (hfree : Free (fun p => p.writesRef = some g) s.pc)
      (hmerge : (batches i).hasMerge = false) :
      Moves batches s i (.lockRef g leader) (.unlockAdd g leader)
  | unlockAdd {g : Nat} {leader : Bool} :
      Moves batches s i (.unlockAdd g leader) (.insert g leader)
  | completeMerge {g : Nat} {leader : Bool} :
      Moves batches s i (.completeMerge g leader) (afterInsert g leader)
  | lockWal {g : Nat}
      (hfree : Free holdsWal s.pc) : Moves batches s i (.lockWal g) (.switchLockAdd g)
  | switchLockAdd {g : Nat}
      (hfree : Free holdsAdd s.pc) :
      Moves batches s i (.switchLockAdd g) (.switchLockList g)
  | switchLockList {g : Nat}
      (hfree : Free holdsList s.pc) :
      Moves batches s i (.switchLockList g) (.pushList g)
  | switchUnlockAdd {g : Nat} : Moves batches s i (.switchUnlockAdd g) (.writeWal g)
  | unlockWal {g : Nat} : Moves batches s i (.unlockWal g) (.syncWal g)
  | syncWal {g : Nat} : Moves batches s i (.syncWal g) (.unlockRef g true)
  | unlockRefLeader {g : Nat} : Moves batches s i (.unlockRef g true) (.waitRef g)
  | unlockRef {g : Nat} : Moves batches s i (.unlockRef g false) (.readBuffer g)
  | waitRef {g : Nat}
      (hfree : Free (fun p => p.readsRef = some g || p.writesRef = some g) s.pc) :
      Moves batches s i (.waitRef g) (.refDone g)
  | refDone {g : Nat} : Moves batches s i (.refDone g) (.setComplete g)
  | unlockBuffer {g : Nat} : Moves batches s i (.unlockBuffer g) .publishLock
  | publishLock
      (hfree : Free holdsList s.pc) : Moves batches s i .publishLock .publish
  | readBuffer {g : Nat}
      (hfree : Free (fun p => p.writesBuffer = some g) s.pc) :
      Moves batches s i (.readBuffer g) (.bufferRead g)
  | bufferRead {g : Nat} : Moves batches s i (.bufferRead g) .returned

omit [DecidableEq ι] in
theorem moves_of_move {p p' : WriterPc}
    (h : s.move batches i p = some p') : Moves batches s i p p' := by
  unfold FlowState.move at h
  split at h
  all_goals
    simp only [ite_none_right_eq_some, some.injEq, map_eq_some_iff, reduceCtorEq] at h
  case h_4 =>
    obtain ⟨g, hlast, rfl⟩ := h
    exact .back hlast
  case h_18 g leader =>
    subst h
    cases leader with
    | false => exact .unlockRef
    | true => exact .unlockRefLeader
  -- what comes next may depend on whether the batch merges
  case' h_2 | h_3 | h_7 | h_9 =>
    cases hmerge : (batches i).hasMerge <;>
      simp only [hmerge, Bool.false_eq_true, if_false, if_true] at h
  all_goals
    first
    | subst h
    | obtain ⟨hfree, rfl⟩ := h
  all_goals constructor <;> assumption

/-- The places and data that a step can lead to. -/
inductive FlowStep
    (batches : ι → SpdbBatch) (s : FlowState ι) (i : ι) : WriterPc → FlowData ι → Prop
  | move {p : WriterPc}
      (hmove : Moves batches s i (s.pc i) p) : FlowStep batches s i p s.data
  | allocateMerge
      (hpc : s.pc i = .allocateMerge) :
      FlowStep batches s i .lockList (s.data.allocate batches i)
  | allocate {g : Nat}
      (hpc : s.pc i = .allocate g) :
      FlowStep batches s i (.enlist g) (s.data.allocate batches i)
  | enlist {g sequence : Nat}
      (hpc : s.pc i = .enlist g)
      (hsequence : s.data.sequence i = some sequence) :
      FlowStep batches s i (afterEnlist ((s.data.lists g).add ⟨sequence, batches i⟩) g)
        (s.data.enlist batches i g sequence)
  | insert {g : Nat} {leader : Bool}
      (hpc : s.pc i = .insert g leader) :
      FlowStep batches s i (afterInsert g leader) (s.data.insert batches i)
  | insertMerge {g : Nat} {leader : Bool}
      (hpc : s.pc i = .insertMerge g leader) :
      FlowStep batches s i (.completeMerge g leader) (s.data.insert batches i)
  | push {g : Nat}
      (hpc : s.pc i = .pushList g) : FlowStep batches s i (.switchUnlockAdd g) s.data.push
  | writeWal {g : Nat}
      (hpc : s.pc i = .writeWal g) : FlowStep batches s i (.unlockWal g) (s.data.writeWal g)
  | setComplete {g : Nat}
      (hpc : s.pc i = .setComplete g) :
      FlowStep batches s i (.unlockBuffer g) (s.data.setComplete g)
  | publish
      (hpc : s.pc i = .publish) : FlowStep batches s i .returned s.data.publish

/-- **What a step can do.** -/
theorem flowStep_of_step (h : s.step batches i = some s') :
    ∃ p d, s' = s.goTo i p d ∧ FlowStep batches s i p d := by
  unfold FlowState.step at h
  split at h
  · next hpc => exact ⟨_, _, (some.inj h).symm, .allocateMerge hpc⟩
  · next hpc => exact ⟨_, _, (some.inj h).symm, .allocate hpc⟩
  · next hpc =>
      obtain ⟨sequence, hsequence, hs'⟩ := map_eq_some_iff.mp h
      exact ⟨_, _, hs'.symm, .enlist hpc hsequence⟩
  · next hpc => exact ⟨_, _, (some.inj h).symm, .insert hpc⟩
  · next hpc => exact ⟨_, _, (some.inj h).symm, .insertMerge hpc⟩
  · next hpc => exact ⟨_, _, (some.inj h).symm, .push hpc⟩
  · next hpc => exact ⟨_, _, (some.inj h).symm, .writeWal hpc⟩
  · next hpc => exact ⟨_, _, (some.inj h).symm, .setComplete hpc⟩
  · next hpc => exact ⟨_, _, (some.inj h).symm, .publish hpc⟩
  · obtain ⟨p, hmove, hs'⟩ := map_eq_some_iff.mp h
    exact ⟨p, _, hs'.symm, .move (moves_of_move hmove)⟩

end HotTLBApps.Speedb
