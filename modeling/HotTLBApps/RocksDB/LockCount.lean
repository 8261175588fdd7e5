import HotTLBApps.Lib.Runs
import HotTLBApps.RocksDB.PointLockManager
import Mathlib.Data.Set.Card

/-!
# RocksDB: the number of locks (`utilities/transactions/lock/point/point_lock_manager.cc`)

With a positive `max_num_locks_` the lock manager counts the keys that are locked.  The count
goes up when a key is locked that was not, and down whenever a holder leaves
(`step`): also when other holders stay and the key remains locked.

The keys are spread over stripes with a mutex each, but `lock_cnt` is shared: while a request
for a new key is between its check of the limit and its increment, calls in other stripes read
and change the count.  The two are steps of their own; any other call is one step, since only
its stripe sees what it does.  Locks do not expire here.
-/

namespace HotTLBApps.RocksDB

open Function List Option

variable {T K S : Type} [DecidableEq T] [DecidableEq K] [DecidableEq S]

structure LockRequest (T K : Type) where
  t : T
  key : K
  exclusive : Bool
deriving DecidableEq

/-- The keys of all stripes and `lock_cnt`, with the requests that were granted and not yet
released, and those that have passed the check of the limit and hold their stripe's mutex. -/
structure LockMap (T K : Type) where
  keys : K → Option (LockInfo T)
  lockCnt : Int
  granted : Finset (T × K)
  admitted : List (LockRequest T K)

/-- `emplace` is the end of a `tryLock` for a new key. -/
inductive LockCall (T K : Type)
  | tryLock (r : LockRequest T K)
  | emplace (r : LockRequest T K)
  | unLock (t : T) (key : K)

namespace LockMap

def new : LockMap T K :=
  ⟨fun _ => none, 0, ∅, []⟩

/-- `AcquireLocked`, with the check of the limit. -/
def acquire (maxNumLocks : Int) (m : LockMap T K) (r : LockRequest T K) : Acquired T K :=
  acquireLocked m.keys r.t r.key r.exclusive false (0 < maxNumLocks && maxNumLocks ≤ m.lockCnt)

/-- A request that is not granted changes nothing; a call waits for the mutex of its stripe. -/
def step (stripeOf : K → S) (maxNumLocks : Int) (m : LockMap T K) :
    LockCall T K → Option (LockMap T K)
  | .tryLock r =>
      if ∀ a ∈ m.admitted, stripeOf a.key ≠ stripeOf r.key then
        match m.acquire maxNumLocks r with
        | .ok keys =>
            if m.keys r.key = none then
              some { m with admitted := r :: m.admitted }
            else
              some { m with keys := keys, granted := insert (r.t, r.key) m.granted }
        | _ => some m
      else
        none
  | .emplace r =>
      if r ∈ m.admitted then some
        { keys := update m.keys r.key (some ⟨r.exclusive, [r.t]⟩)
          lockCnt := if maxNumLocks ≠ 0 then m.lockCnt + 1 else m.lockCnt
          granted := insert (r.t, r.key) m.granted
          admitted := m.admitted.erase r }
      else
        none
  | .unLock t key =>
      if ∀ a ∈ m.admitted, stripeOf a.key ≠ stripeOf key then some
        { m with
          keys := unLockKey m.keys t key
          lockCnt :=
            if (∃ info ∈ m.keys key, t ∈ info.txnIds) ∧ 0 < maxNumLocks then m.lockCnt - 1
            else m.lockCnt
          granted := m.granted.erase (t, key) }
      else
        none

def lockedKeys (keys : K → Option (LockInfo T)) : Set K :=
  {key | keys key ≠ none}

/-- Locks are exclusive for one holder or shared, whoever was granted a lock holds it, and the
locks are counted. -/
structure Accounted (m : LockMap T K) : Prop where
  finite : (lockedKeys m.keys).Finite
  holders : ∀ key info, m.keys key = some info →
    info.txnIds ≠ [] ∧ (info.exclusive = true → info.txnIds.length = 1)
  granted : ∀ t key, (t, key) ∈ m.granted → ∃ info, m.keys key = some info ∧ t ∈ info.txnIds
  count : m.lockCnt = (lockedKeys m.keys).ncard

/-- The keys of the admitted requests are new and different, and there is room for them. -/
structure Inv (maxNumLocks : Int) (m : LockMap T K) : Prop extends Accounted m where
  free : ∀ a ∈ m.admitted, m.keys a.key = none
  distinct : m.admitted.Pairwise fun a b => a.key ≠ b.key
  limit : m.lockCnt + m.admitted.length ≤ maxNumLocks

/-- A request for a new key that finds `lock_cnt` below the limit finds it below with the
admitted requests too, and a holder that unlocks a key is the only one. -/
def Orderly (maxNumLocks : Int) (m : LockMap T K) : LockCall T K → Prop
  | .tryLock r => m.keys r.key = none → m.lockCnt < maxNumLocks →
      m.lockCnt + m.admitted.length < maxNumLocks
  | .emplace _ => True
  | .unLock t key => ∀ info, m.keys key = some info → t ∈ info.txnIds → info.txnIds.length = 1

variable {m m' : LockMap T K} {t : T} {key : K} {info : LockInfo T} {maxNumLocks : Int}
  {stripeOf : K → S} {l : List (LockRequest T K)}

/-- A lock is taken: the holders that were there stay. -/
theorem Accounted.lock (h : Accounted m) (ht : t ∈ info.txnIds)
    (hexclusive : info.exclusive = true → info.txnIds.length = 1)
    (hstay : ∀ old, m.keys key = some old → ∀ u ∈ old.txnIds, u ∈ info.txnIds) :
    Accounted ⟨update m.keys key (some info),
      if m.keys key = none then m.lockCnt + 1 else m.lockCnt, insert (t, key) m.granted, l⟩ := by
  have hlocked : lockedKeys (update m.keys key (some info)) =
      insert key (lockedKeys m.keys) := by
    ext k
    by_cases hk : k = key <;> simp [hk, lockedKeys]
  refine ⟨hlocked ▸ h.finite.insert key, ?_, ?_, ?_⟩
  · intro k i hi
    obtain ⟨rfl, heq⟩ | ⟨-, heq⟩ := update_cases hi
    · cases heq
      exact ⟨ne_nil_of_mem ht, hexclusive⟩
    · exact h.holders k i heq
  · intro u k hu
    by_cases hk : k = key
    · subst hk
      refine ⟨info, update_self .., ?_⟩
      obtain heq | hu := Finset.mem_insert.mp hu
      · cases heq
        exact ht
      · obtain ⟨old, hold, hmem⟩ := h.granted u k hu
        exact hstay old hold u hmem
    · have hu : (u, k) ∈ m.granted := by simpa [hk] using hu
      simpa [hk] using h.granted u k hu
  · dsimp only
    rw [hlocked, h.count]
    split_ifs with hkey
    · rw [Set.ncard_insert_of_notMem (not_not.mpr hkey) h.finite]
      rfl
    · rw [Set.insert_eq_of_mem hkey]

theorem Accounted.unlock (h : Accounted m) (hkey : m.keys key = some info)
    (hinfo : info.txnIds = [t]) :
    Accounted ⟨update m.keys key none, m.lockCnt - 1, m.granted.erase (t, key), l⟩ := by
  have hlocked : lockedKeys (update m.keys key none) = lockedKeys m.keys \ {key} := by
    ext k
    by_cases hk : k = key <;> simp [hk, lockedKeys]
  have hmem : key ∈ lockedKeys m.keys := by simp [lockedKeys, hkey]
  refine ⟨hlocked ▸ h.finite.sdiff, ?_, ?_, ?_⟩
  · intro k i hi
    obtain ⟨-, heq⟩ | ⟨-, heq⟩ := update_cases hi
    · cases heq
    · exact h.holders k i heq
  · intro u k hu
    obtain ⟨hne, hu⟩ := Finset.mem_erase.mp hu
    obtain ⟨old, hold, hin⟩ := h.granted u k hu
    have hk : k ≠ key := by
      rintro rfl
      cases hkey.symm.trans hold
      rw [hinfo, mem_singleton] at hin
      exact hne (by rw [hin])
    exact ⟨old, (update_of_ne hk ..).trans hold, hin⟩
  · dsimp only
    rw [hlocked, h.count, ← Set.ncard_sdiff_singleton_add_one hmem h.finite]
    simp

/-- A request is granted to the only holder, behind sharers, or for a key without holder. -/
theorem acquireLocked_info {keys keys' : K → Option (LockInfo T)} {exclusive limit : Bool}
    (h : acquireLocked keys t key exclusive false limit = .ok keys') :
    ∃ info, keys' = update keys key (some info) ∧ t ∈ info.txnIds ∧
      (info.exclusive = true → info.txnIds.length = 1) ∧
      ∀ old, keys key = some old → ∀ u ∈ old.txnIds, u ∈ info.txnIds := by
  unfold acquireLocked at h
  cases hkey : keys key with
  | none =>
    rw [hkey] at h
    dsimp only at h
    split_ifs at h
    cases h
    exact ⟨_, rfl, by simp⟩
  | some old =>
    simp only [hkey, Bool.false_eq_true, if_false] at h
    split_ifs at h with hshared hown
    · cases h
      exact ⟨_, rfl, by simp [hown]⟩
    · cases h
      rw [Bool.or_eq_true, not_or] at hshared
      exact ⟨_, rfl, by simp, fun h => absurd h hshared.1, by simp +contextual⟩

theorem Inv.step {call : LockCall T K} (hpos : 0 < maxNumLocks) (h : Inv maxNumLocks m)
    (hcall : Orderly maxNumLocks m call) (hstep : m.step stripeOf maxNumLocks call = some m') :
    Inv maxNumLocks m' := by
  have hlimit := h.limit
  cases call with
  | tryLock r =>
    rcases (ite_none_right_eq_some ..).mp hstep with ⟨hfree, hstep⟩
    cases hresult : m.acquire maxNumLocks r with
    | ok keys =>
      rcases acquireLocked_info hresult with ⟨info, rfl, ht, hexclusive, hstay⟩
      by_cases hkey : m.keys r.key = none
      · have hroom : m.lockCnt < maxNumLocks := by
          simp only [acquire, acquireLocked, hkey] at hresult
          split_ifs at hresult with hlimit
          simpa [hpos] using hlimit
        have hall := hcall hkey hroom
        simp only [hresult, if_pos hkey] at hstep
        cases hstep
        refine ⟨⟨h.finite, h.holders, h.granted, h.count⟩, by simpa [hkey] using h.free,
          pairwise_cons.mpr ⟨fun a ha heq => ?_, h.distinct⟩, ?_⟩
        · exact hfree a ha (congrArg stripeOf heq.symm)
        · simp only [length_cons]
          omega
      · simp only [hresult, if_neg hkey] at hstep
        cases hstep
        have hlock := h.lock (l := m.admitted) ht hexclusive hstay
        rw [if_neg hkey] at hlock
        refine ⟨hlock, fun a ha => ?_, h.distinct, hlimit⟩
        have hne : a.key ≠ r.key := fun heq => hkey (heq ▸ h.free a ha)
        exact (update_of_ne hne ..).trans (h.free a ha)
    | lockTimeout txnIds | lockLimit =>
      simp only [hresult] at hstep
      cases hstep
      exact h
  | emplace r =>
    rcases (ite_none_right_eq_some ..).mp hstep with ⟨hmem, hstep⟩
    cases hstep
    have hlock := @Accounted.lock T K _ _ m r.t r.key ⟨r.exclusive, [r.t]⟩ (m.admitted.erase r)
      h.toAccounted (mem_singleton_self r.t) (fun _ => rfl) (by simp [h.free r hmem])
    rw [if_pos (h.free r hmem)] at hlock
    rw [if_pos hpos.ne']
    have hdistinct := (perm_cons_erase hmem).pairwise h.distinct fun hab => hab.symm
    rcases pairwise_cons.mp hdistinct with ⟨hothers, hrest⟩
    refine ⟨hlock, fun a ha => ?_, hrest, ?_⟩
    · exact (update_of_ne (hothers a ha).symm ..).trans
        (h.free a (mem_of_mem_erase ha))
    · have hlength := length_erase_add_one hmem
      dsimp only
      omega
  | unLock t key =>
    rcases (ite_none_right_eq_some ..).mp hstep with ⟨-, hstep⟩
    cases hstep
    by_cases hin : ∃ info ∈ m.keys key, t ∈ info.txnIds
    · rcases hin with ⟨info, hkey, ht⟩
      have hone := hcall info hkey ht
      rcases length_eq_one_iff.mp hone with ⟨u, hu⟩
      have hinfo : info.txnIds = [t] := by
        rw [hu, mem_singleton] at ht
        rw [hu, ht]
      have hkeys : unLockKey m.keys t key = update m.keys key none := by
        simp only [unLockKey, mem_def.mp hkey, if_pos ht, if_pos hone]
      rw [if_pos ⟨⟨info, hkey, ht⟩, hpos⟩, hkeys]
      refine ⟨h.unlock hkey hinfo, fun a ha => ?_, h.distinct, by dsimp only; omega⟩
      by_cases hk : a.key = key <;> simp [hk, h.free a ha]
    · have hkeys : unLockKey m.keys t key = m.keys := by
        unfold unLockKey
        cases hkey : m.keys key with
        | none => rfl
        | some info => exact if_neg fun ht => hin ⟨info, hkey, ht⟩
      rw [if_neg fun hand => hin hand.1, hkeys]
      exact { h with granted := fun u k hu => h.granted u k (Finset.mem_of_mem_erase hu) }

/-- **The locks are accounted for and limited** in every state of a run whose calls are
`Orderly`. -/
theorem accounted
    (hpos : 0 < maxNumLocks)
    (hrun : Runs (step stripeOf maxNumLocks) (Orderly maxNumLocks) new m) :
    Accounted m ∧ (lockedKeys m.keys).ncard ≤ maxNumLocks ∧
      ∀ r, m.keys r.key = none →
        (m.acquire maxNumLocks r = .lockLimit ↔ maxNumLocks ≤ (lockedKeys m.keys).ncard) := by
  have hinv : Inv maxNumLocks m := by
    refine hrun.invariant ?_ fun m₁ call m₂ h hcall hstep => h.step hpos hcall hstep
    have hnone : lockedKeys (fun _ : K => (none : Option (LockInfo T))) = ∅ := by simp [lockedKeys]
    exact ⟨⟨hnone ▸ Set.finite_empty, nofun, by simp [new], by simp [new, hnone]⟩,
      nofun, List.Pairwise.nil, by simpa [new] using hpos.le⟩
  have hlimit := hinv.limit
  refine ⟨hinv.toAccounted, by rw [← hinv.count]; omega, ?_⟩
  intro r hkey
  rw [acquire, acquireLocked, hkey, ← hinv.count]
  simp [hpos]

/-- Two requests in different stripes overlap; a lock is then shared, and left. -/
theorem accounted_stripes : ∃ m : LockMap Nat Nat,
    Runs (step (· % 2) 2) (Orderly 2) new m ∧ m.keys 6 = some ⟨false, [2, 3]⟩ ∧
      m.keys 5 = none ∧ m.lockCnt = 1 ∧ Accounted m := by
  have hrun : Runs (step (· % 2) 2) (Orderly 2) new _ :=
    (((((Runs.nil.snoc (i := LockCall.tryLock (T := Nat) (K := Nat) ⟨1, 5, true⟩)
      (fun _ _ => by decide) rfl).snoc (i := .tryLock ⟨2, 6, false⟩) (fun _ _ => by decide) rfl).snoc
      (i := .emplace ⟨1, 5, true⟩) trivial rfl).snoc (i := .emplace ⟨2, 6, false⟩) trivial rfl).snoc
      (i := .tryLock ⟨3, 6, false⟩) nofun rfl).snoc (i := .unLock 1 5)
      (fun _ h _ => by cases h; rfl) rfl
  exact ⟨_, hrun, rfl, rfl, rfl, (accounted (by decide) hrun).1⟩

/-- Two transactions share a key and one of them leaves: the key is not counted any more, and
a second key is locked although the limit is one. -/
theorem not_accounted_shared : ∃ m : LockMap Nat Nat,
    Runs (step (· % 2) 1) (fun _ _ => True) new m ∧ ¬ Accounted m ∧
      ∃ keys, m.acquire 1 ⟨3, 6, true⟩ = .ok keys ∧ keys 5 ≠ none ∧ keys 6 ≠ none := by
  have hrun : Runs (step (· % 2) 1) (fun _ _ => True) new _ :=
    (((Runs.nil.snoc (i := LockCall.tryLock (T := Nat) (K := Nat) ⟨1, 5, false⟩) trivial rfl).snoc
      (i := .emplace ⟨1, 5, false⟩) trivial rfl).snoc (i := .tryLock ⟨2, 5, false⟩) trivial rfl).snoc
      (i := .unLock 1 5) trivial rfl
  refine ⟨_, hrun, ?_, _, rfl, nofun, nofun⟩
  intro h
  have hzero := (Set.ncard_eq_zero h.finite).mp (Int.ofNat_eq_zero.mp h.count.symm)
  exact Set.eq_empty_iff_forall_notMem.mp hzero 5 nofun

end LockMap
end HotTLBApps.RocksDB
