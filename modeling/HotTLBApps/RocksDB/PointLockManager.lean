import Mathlib.Data.Finset.Dedup

/-!
# RocksDB: point locks (`utilities/transactions/lock/point/point_lock_manager.cc`)

Transactions ask for shared and exclusive locks on keys.  A transaction that has to wait is
entered in `wait_txn_map_` with the holders of the lock, and `rev_wait_txn_map_` counts for
each transaction how many wait for it.  Before a transaction waits, a breadth-first search
in `wait_txn_map_` looks whether it would wait for itself.

A step of the machine is what a thread does under one mutex.  Each transaction is run by one
thread.  Whether a lock has expired and can be stolen, whether the limit of locks is reached,
and when a waiting thread wakes is left to the environment.  The buffer of deadlock paths is
left out; the column family is part of the key.
-/

namespace HotTLBApps.RocksDB

open Function

section Locks

/-- `LockInfo`, without its expiration time. -/
structure LockInfo (T : Type) where
  exclusive : Bool
  txnIds : List T
deriving DecidableEq, Repr

variable {T K : Type} [DecidableEq T] [DecidableEq K]

/-- What `AcquireLocked` returns. -/
inductive Acquired (T K : Type)
  | ok (keys : K → Option (LockInfo T))
  | lockTimeout (txnIds : List T)
  | lockLimit

/-- `AcquireLocked` for transaction `t`; `expired` is the answer of `IsLockExpired` and
`limit` whether `lock_cnt` has reached `max_num_locks_`. -/
def acquireLocked (keys : K → Option (LockInfo T)) (t : T) (key : K)
    (exclusive expired limit : Bool) : Acquired T K :=
  match keys key with
  | some info =>
      if info.exclusive || exclusive then
        if info.txnIds = [t] then
          .ok (update keys key (some ⟨exclusive, [t]⟩))
        else if expired then
          .ok (update keys key (some ⟨exclusive, [t]⟩))
        else
          .lockTimeout info.txnIds
      else
        .ok (update keys key (some { info with txnIds := info.txnIds ++ [t] }))
  | none =>
      if limit then
        .lockLimit
      else
        .ok (update keys key (some ⟨exclusive, [t]⟩))

/-- The holder is overwritten by the last one, which is popped. -/
def removeHolder (t : T) (txnIds : List T) : List T :=
  match txnIds.getLast? with
  | some last => (txnIds.set (txnIds.idxOf t) last).dropLast
  | none => []

def unLockKey (keys : K → Option (LockInfo T)) (t : T) (key : K) : K → Option (LockInfo T) :=
  match keys key with
  | some info =>
      if t ∈ info.txnIds then
        if info.txnIds.length = 1 then
          update keys key none
        else
          update keys key (some { info with txnIds := removeHolder t info.txnIds })
      else
        keys
  | none => keys

end Locks

section Waiters

variable {T : Type} [DecidableEq T]

/-- `wait_txn_map_` and `rev_wait_txn_map_`. -/
structure WaitMaps (T : Type) where
  waitTxnMap : T → Option (List T)
  revWaitTxnMap : T → Option Nat

/-- The count of a transaction goes up; it is inserted with 1. -/
def countUp (rev : T → Option Nat) (waitId : T) : T → Option Nat :=
  update rev waitId (some ((rev waitId).elim 1 (· + 1)))

/-- The count of a transaction goes down; it is deleted at 0. -/
def countDown (rev : T → Option Nat) (waitId : T) : T → Option Nat :=
  update rev waitId
    ((rev waitId).bind fun count => if count - 1 = 0 then none else some (count - 1))

/-- The entries that `IncrementWaiters` makes. -/
def WaitMaps.enter (maps : WaitMaps T) (id : T) (waitIds : List T) : WaitMaps T where
  waitTxnMap := update maps.waitTxnMap id (some waitIds)
  revWaitTxnMap := waitIds.foldl countUp maps.revWaitTxnMap

/-- `DecrementWaitersImpl`. -/
def WaitMaps.decrementWaiters (maps : WaitMaps T) (id : T) (waitIds : List T) : WaitMaps T where
  waitTxnMap := update maps.waitTxnMap id none
  revWaitTxnMap := waitIds.foldl countDown maps.revWaitTxnMap

/-- How the search ends: the queue runs out, the requester is found, or the queue is longer
than the depth limit. -/
inductive SearchResult
  | noDeadlock
  | found
  | tooBig
deriving DecidableEq, Repr

/-- The loop of `IncrementWaiters` from `head` on, with `fuel` turns left; `queue` are the
entries of `queue_values` up to `tail`. -/
def search (waitTxnMap : T → Option (List T)) (id : T) (depth : Nat) :
    (fuel : Nat) → (queue : List T) → (head : Nat) → (nextIds : List T) → SearchResult
  | 0, _, _, _ => .tooBig
  | fuel + 1, queue, head, nextIds =>
      let queue := queue ++ nextIds.take (depth - queue.length)
      match queue[head]? with
      | none => .noDeadlock
      | some next =>
          if next = id then
            .found
          else
            search waitTxnMap id depth fuel queue (head + 1) ((waitTxnMap next).getD [])

/-- `IncrementWaiters`; the result tells whether it returns true. -/
def WaitMaps.incrementWaiters
    (maps : WaitMaps T) (id : T) (waitIds : List T) (depth : Nat) : Bool × WaitMaps T :=
  let entered := maps.enter id waitIds
  if entered.revWaitTxnMap id = none then
    (false, entered)
  else
    match search entered.waitTxnMap id depth depth [] 0 waitIds with
    | .noDeadlock => (false, entered)
    | .found => (true, entered.decrementWaiters id waitIds)
    | .tooBig => (true, entered.decrementWaiters id waitIds)

end Waiters

/-- What a call of `TryLock` asks for. -/
structure Request (K : Type) where
  key : K
  exclusive : Bool
deriving DecidableEq, Repr

/-- Where the thread of a transaction is in `AcquireWithTimeout`: `blocked` after
`AcquireLocked` failed, `waiting` in the wait on the condition variable, `woken` after it,
and `retrying` after `DecrementWaiters`.  `waitIds` is the local variable of that name. -/
inductive Phase (T K : Type)
  | idle
  | blocked (req : Request K) (waitIds : List T)
  | waiting (req : Request K) (waitIds : List T)
  | woken (req : Request K) (waitIds : List T) (timedOut : Bool)
  | retrying (req : Request K) (waitIds : List T) (timedOut : Bool)

/-- What `AcquireWithTimeout` returns. -/
inductive Status
  | ok
  | lockTimeout
  | lockLimit
  | deadlock
deriving DecidableEq, Repr

/-- The lock manager and the threads.  `stripes` are the owners of the stripe mutexes,
`tracked` are the `tracked_locks_` of the transactions, with whether the lock is exclusive,
and `returned` is what a call returned in the last step. -/
structure LockState (T K : Type) where
  keys : K → Option (LockInfo T)
  maps : WaitMaps T
  phase : T → Phase T K
  stripes : Nat → Option T
  tracked : T → K → Option Bool
  returned : Option (T × Status)

/-- The lock manager before the first request. -/
def LockState.new {T K : Type} : LockState T K where
  keys := fun _ => none
  maps := ⟨fun _ => none, fun _ => none⟩
  phase := fun _ => .idle
  stripes := fun _ => none
  tracked := fun _ _ => none
  returned := none

/-- The stripe of a key and the depth limit of a transaction. -/
structure LockConfig (T K : Type) where
  stripe : K → Nat
  depth : T → Nat

inductive LockEvent (T K : Type)
  | tryLock (t : T) (req : Request K) (expired limit noWait : Bool)
  | startWaiting (t : T)
  | wake (t : T) (timedOut : Bool)
  | stopWaiting (t : T)
  | retry (t : T) (expired limit : Bool)
  | unLock (t : T) (key : K)

variable {T K : Type} [DecidableEq T] [DecidableEq K] (cfg : LockConfig T K)

namespace LockState

/-- The thread goes on to another phase, with or without the mutex of its stripe. -/
def goTo
    (s : LockState T K) (t : T) (key : K) (phase : Phase T K) (owner : Option T) : LockState T K :=
  { s with
    phase := update s.phase t phase
    stripes := update s.stripes (cfg.stripe key) owner
    returned := none }

/-- The call returns; the mutex of the stripe is released. -/
def finish (s : LockState T K) (t : T) (key : K) (status : Status) : LockState T K :=
  { s.goTo cfg t key .idle none with returned := some (t, status) }

/-- The lock is taken and tracked. -/
def granted (s : LockState T K) (t : T) (req : Request K)
    (keys : K → Option (LockInfo T)) : LockState T K :=
  { s.finish cfg t req.key .ok with
    keys := keys
    tracked := update s.tracked t
      (update (s.tracked t) req.key (some req.exclusive)) }

/-- `AcquireLocked` and what follows: the call returns if the lock was taken or there is no
time left (`last`).  At the lock limit `wait_ids` keeps what it had. -/
def acquire (s : LockState T K) (t : T) (req : Request K) (waitIds : List T)
    (expired limit last : Bool) : LockState T K :=
  match acquireLocked s.keys t req.key req.exclusive expired limit with
  | .ok keys => s.granted cfg t req keys
  | .lockTimeout txnIds =>
      if last then s.finish cfg t req.key .lockTimeout
      else s.goTo cfg t req.key (.blocked req txnIds) (some t)
  | .lockLimit =>
      if last then s.finish cfg t req.key .lockLimit
      else s.goTo cfg t req.key (.blocked req waitIds) (some t)

/-- `PessimisticTransaction::TryLock` calls the lock manager if the key is not locked yet or
has to be upgraded. -/
def asksFor (s : LockState T K) (t : T) (req : Request K) : Bool :=
  s.tracked t req.key = none || (s.tracked t req.key = some false && req.exclusive)

/-- One step; `none` if it is not possible. -/
def step (s : LockState T K) : LockEvent T K → Option (LockState T K)
  | .tryLock t req expired limit noWait =>
      match s.phase t, s.stripes (cfg.stripe req.key) with
      | .idle, none =>
          if s.asksFor t req then some (s.acquire cfg t req [] expired limit noWait) else none
      | _, _ => none
  | .startWaiting t =>
      match s.phase t with
      | .blocked req waitIds =>
          if waitIds = [] then
            some (s.goTo cfg t req.key (.waiting req []) none)
          else
            match s.maps.incrementWaiters t waitIds (cfg.depth t) with
            | (true, maps) => some { s.finish cfg t req.key .deadlock with maps := maps }
            | (false, maps) =>
                some { s.goTo cfg t req.key (.waiting req waitIds) none with maps := maps }
      | _ => none
  | .wake t timedOut =>
      match s.phase t with
      | .waiting req waitIds =>
          if s.stripes (cfg.stripe req.key) = none then
            some (s.goTo cfg t req.key (.woken req waitIds timedOut) (some t))
          else none
      | _ => none
  | .stopWaiting t =>
      match s.phase t with
      | .woken req waitIds timedOut =>
          some { s.goTo cfg t req.key (.retrying req waitIds timedOut) (some t) with
            maps := if waitIds = [] then s.maps else s.maps.decrementWaiters t waitIds }
      | _ => none
  | .retry t expired limit =>
      match s.phase t with
      | .retrying req waitIds timedOut =>
          some (s.acquire cfg t req waitIds expired limit timedOut)
      | _ => none
  | .unLock t key =>
      match s.phase t, s.stripes (cfg.stripe key) with
      | .idle, none =>
          if s.tracked t key = none then none
          else
            some { s with
              keys := unLockKey s.keys t key
              tracked := update s.tracked t (update (s.tracked t) key none)
              returned := none }
      | _, _ => none

end LockState

end HotTLBApps.RocksDB
