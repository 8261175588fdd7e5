import HotTLBApps.RocksDB.WaitGraph
import HotTLBApps.Lib.Runs

/-!
# RocksDB: deadlock detection over whole histories

* `Tracking`: a holder of a lock tracks it, and no lock list or wait list has repetitions;
* `Entered`: the wait maps hold the waiting threads, agree, and have no cycle.
-/

namespace HotTLBApps.RocksDB

open Relation List Function Option LockState

variable {T K : Type} [DecidableEq T] [DecidableEq K]

omit [DecidableEq K] in
theorem removeHolder_perm {t : T} {txnIds : List T}
    (ht : t ∈ txnIds) : (removeHolder t txnIds).Perm (txnIds.erase t) := by
  obtain ⟨init, last, rfl⟩ : ∃ init last, txnIds = init ++ [last] :=
    ⟨_, _, (dropLast_concat_getLast (ne_nil_of_mem ht)).symm⟩
  rw [removeHolder, getLast?_concat]
  dsimp only
  by_cases hinit : t ∈ init
  · have hidx := idxOf_lt_length_of_mem hinit
    rw [idxOf_append_of_mem hinit, set_append_left _ _ hidx, dropLast_concat,
      erase_append_left _ hinit, erase_eq_eraseIdx_of_idxOf rfl]
    exact (set_perm_cons_eraseIdx hidx last).trans
      (perm_append_singleton last _).symm
  · have hlast : t = last := by
      obtain h | h := mem_append.mp ht
      · exact absurd h hinit
      · exact mem_singleton.mp h
    subst hlast
    rw [idxOf_append_of_notMem hinit, erase_append_right _ hinit]
    simp

/-- The request of a thread that is in `AcquireWithTimeout`. -/
def Phase.request : Phase T K → Option (Request K)
  | .idle => none
  | .blocked req _ => some req
  | .waiting req _ => some req
  | .woken req _ _ => some req
  | .retrying req _ _ => some req

/-- The local `wait_ids` of a thread. -/
def Phase.waitIds : Phase T K → List T
  | .idle => []
  | .blocked _ waitIds => waitIds
  | .waiting _ waitIds => waitIds
  | .woken _ waitIds _ => waitIds
  | .retrying _ waitIds _ => waitIds

/-- What `wait_txn_map_` holds for a thread: its wait list between `IncrementWaiters` and
`DecrementWaiters`. -/
def Phase.entered : Phase T K → Option (List T)
  | .waiting _ waitIds => if waitIds = [] then none else some waitIds
  | .woken _ waitIds _ => if waitIds = [] then none else some waitIds
  | _ => none

variable {s s' : LockState T K} {t : T} {phase : Phase T K}

/-- **What the threads know about the locks.** -/
structure LockState.Tracking (s : LockState T K) : Prop where
  holders_nodup : ∀ k info, s.keys k = some info → info.txnIds.Nodup
  tracked_of_mem : ∀ k info t, s.keys k = some info → t ∈ info.txnIds → s.tracked t k ≠ none
  asksFor_of_request : ∀ t req, (s.phase t).request = some req → s.asksFor t req = true
  waitIds_nodup : ∀ t, (s.phase t).waitIds.Nodup

/-- **What the wait maps hold.** -/
structure LockState.Entered (s : LockState T K) : Prop where
  agree : s.maps.Agree
  acyclic : s.maps.Acyclic
  waitTxnMap_eq : ∀ t, s.maps.waitTxnMap t = (s.phase t).entered

omit [DecidableEq K] in
theorem LockState.Tracking.of_phase (h : s.Tracking) (hkeys : s'.keys = s.keys)
    (htracked : s'.tracked = s.tracked) (hphase : s'.phase = update s.phase t phase)
    (hrequest : ∀ req, phase.request = some req → s.asksFor t req = true)
    (hnodup : phase.waitIds.Nodup) : s'.Tracking where
  holders_nodup := by
    rw [hkeys]
    exact h.holders_nodup
  tracked_of_mem := by
    rw [hkeys, htracked]
    exact h.tracked_of_mem
  asksFor_of_request := by
    have hasks : ∀ u req, s'.asksFor u req = s.asksFor u req := fun u req => by
      rw [asksFor, asksFor, htracked]
    simp only [hasks, hphase]
    exact (forall_update_iff s.phase fun u p =>
      ∀ req, p.request = some req → s.asksFor u req = true).mpr
      ⟨hrequest, fun u _ => h.asksFor_of_request u⟩
  waitIds_nodup := by
    rw [hphase]
    exact (forall_update_iff s.phase fun _ p => p.waitIds.Nodup).mpr
      ⟨hnodup, fun u _ => h.waitIds_nodup u⟩

/-- A thread takes or gives back the lock of a key. -/
theorem LockState.Tracking.of_key {key : K} {entry : Option (LockInfo T)} {held : Option Bool}
    (h : s.Tracking) (hkeys : s'.keys = update s.keys key entry)
    (htracked : s'.tracked = update s.tracked t (update (s.tracked t) key held))
    (hphase : s'.phase = update s.phase t .idle)
    (hentry : ∀ info, entry = some info → info.txnIds.Nodup ∧
      ∀ u ∈ info.txnIds, (u = t ∧ held ≠ none) ∨ (u ≠ t ∧ s.tracked u key ≠ none)) :
    s'.Tracking where
  holders_nodup := by
    rw [hkeys]
    exact (forall_update_iff s.keys fun _ e =>
      ∀ info, e = some info → info.txnIds.Nodup).mpr
      ⟨fun info hinfo => (hentry info hinfo).1, fun k _ => h.holders_nodup k⟩
  tracked_of_mem := by
    intro k info u hk hu
    rw [hkeys] at hk
    rw [htracked]
    obtain ⟨rfl, hinfo⟩ | ⟨hkey, hold⟩ := update_cases hk
    · obtain ⟨rfl, hheld⟩ | ⟨hne, hother⟩ := (hentry info hinfo).2 u hu
      · rw [update_self, update_self]
        exact hheld
      · rw [update_of_ne hne]
        exact hother
    · have hold := h.tracked_of_mem k info u hold hu
      by_cases hut : u = t
      · subst hut
        rw [update_self, update_of_ne hkey]
        exact hold
      · rw [update_of_ne hut]
        exact hold
  asksFor_of_request := by
    intro u req hreq
    rw [hphase] at hreq
    rw [update_apply] at hreq
    split_ifs at hreq with hu
    · cases hreq
    · rw [asksFor, htracked, update_of_ne hu]
      exact h.asksFor_of_request u req hreq
  waitIds_nodup := by
    rw [hphase]
    exact (forall_update_iff s.phase fun _ p => p.waitIds.Nodup).mpr
      ⟨nodup_nil, fun u _ => h.waitIds_nodup u⟩

omit [DecidableEq K] in
/-- A thread that goes on to another phase, with its entry brought up to date. -/
theorem LockState.Entered.of_phase (h : s.Entered) (hagree : s'.maps.Agree)
    (hacyclic : s'.maps.Acyclic)
    (hmap : s'.maps.waitTxnMap = update s.maps.waitTxnMap t phase.entered)
    (hphase : s'.phase = update s.phase t phase) : s'.Entered where
  agree := hagree
  acyclic := hacyclic
  waitTxnMap_eq := by
    rw [hmap, hphase]
    refine (forall_update_iff _ fun u e => e = (update s.phase t phase u).entered).mpr ⟨?_, ?_⟩
    · rw [update_self]
    · intro u hu
      rw [update_of_ne hu, h.waitTxnMap_eq u]

omit [DecidableEq K] in
theorem LockState.Entered.of_maps_eq (h : s.Entered) (hmaps : s'.maps = s.maps)
    (hphase : s'.phase = update s.phase t phase)
    (hsame : phase.entered = (s.phase t).entered) : s'.Entered := by
  refine h.of_phase (hmaps ▸ h.agree) (hmaps ▸ h.acyclic) ?_ hphase
  rw [hmaps, hsame, ← h.waitTxnMap_eq t, update_eq_self]

variable {cfg : LockConfig T K} {req : Request K} {key : K} {exclusive expired limit : Bool}

/-- The locks after `AcquireLocked` took one: the requester holds it, alone or behind
sharers. -/
theorem acquireLocked_ok {keys keys' : K → Option (LockInfo T)}
    (h : acquireLocked keys t key exclusive expired limit = .ok keys') :
    ∃ info, keys' = update keys key (some info) ∧ (info.txnIds = [t] ∨
        exclusive = false ∧ ∃ old, keys key = some old ∧ info.txnIds = old.txnIds ++ [t]) := by
  rw [acquireLocked] at h
  cases hold : keys key with
  | none =>
    rw [hold] at h
    dsimp only at h
    split_ifs at h
    cases h
    exact ⟨_, rfl, .inl rfl⟩
  | some old =>
    rw [hold] at h
    dsimp only at h
    split_ifs at h with hshared hown hexpired
    · cases h
      exact ⟨_, rfl, .inl rfl⟩
    · cases h
      exact ⟨_, rfl, .inl rfl⟩
    · cases h
      refine ⟨_, rfl, .inr ⟨?_, old, rfl, rfl⟩⟩
      rw [Bool.or_eq_true, not_or] at hshared
      exact Bool.eq_false_iff.mpr hshared.2

variable {keys : K → Option (LockInfo T)}

theorem acquireLocked_lockTimeout {txnIds : List T}
    (h : acquireLocked keys t key exclusive expired limit = .lockTimeout txnIds) :
    ∃ info, keys key = some info ∧ txnIds = info.txnIds := by
  rw [acquireLocked] at h
  cases hold : keys key with
  | none =>
    rw [hold] at h
    split_ifs at h
  | some old =>
    rw [hold] at h
    dsimp only at h
    split_ifs at h
    cases h
    exact ⟨old, rfl, rfl⟩

/-- A lock is granted to a transaction that asked for it. -/
theorem LockState.Tracking.granted (h : s.Tracking)
    (hasks : s.asksFor t req = true)
    (hok : acquireLocked s.keys t req.key req.exclusive expired limit = .ok keys) :
    (s.granted cfg t req keys).Tracking := by
  obtain ⟨info, rfl, hinfo⟩ := acquireLocked_ok hok
  refine h.of_key rfl rfl rfl ?_
  rintro _ ⟨⟩
  obtain hone | ⟨hshared, old, hold, hmore⟩ := hinfo
  · rw [hone]
    refine ⟨nodup_singleton t, fun u hu => .inl ⟨mem_singleton.mp hu, ?_⟩⟩
    exact some_ne_none _
  · -- a sharer that is added did not hold the lock
    have hnone : s.tracked t req.key = none := by
      rw [asksFor, hshared] at hasks
      simpa using hasks
    have hfresh : t ∉ old.txnIds := fun ht => h.tracked_of_mem _ _ _ hold ht hnone
    rw [hmore]
    have hnodup : (old.txnIds ++ [t]).Nodup := (h.holders_nodup _ _ hold).append
      (nodup_singleton t) (disjoint_singleton.mpr hfresh)
    refine ⟨hnodup, fun u hu => ?_⟩
    obtain hu | hu := mem_append.mp hu
    · exact .inr ⟨fun heq => hfresh (heq ▸ hu), h.tracked_of_mem _ _ _ hold hu⟩
    · exact .inl ⟨mem_singleton.mp hu, some_ne_none _⟩

theorem unLockKey_eq (keys : K → Option (LockInfo T)) (t : T) (key : K) :
    ∃ entry, unLockKey keys t key = update keys key entry ∧
      ∀ info, entry = some info → ∃ old, keys key = some old ∧
        (info.txnIds = old.txnIds ∧ t ∉ old.txnIds ∨
          info.txnIds = removeHolder t old.txnIds ∧ t ∈ old.txnIds) := by
  rw [unLockKey]
  cases hold : keys key with
  | none =>
    have hsame : update keys key none = keys := by rw [← hold, update_eq_self]
    exact ⟨none, hsame.symm, nofun⟩
  | some old =>
    dsimp only
    split_ifs with ht hone
    · exact ⟨none, rfl, nofun⟩
    · refine ⟨_, rfl, ?_⟩
      rintro _ ⟨⟩
      exact ⟨old, rfl, .inr ⟨rfl, ht⟩⟩
    · have hsame : update keys key (some old) = keys := by
        rw [← hold, update_eq_self]
      refine ⟨some old, hsame.symm, ?_⟩
      rintro _ ⟨⟩
      exact ⟨old, rfl, .inl ⟨rfl, ht⟩⟩

theorem LockState.Tracking.unLock (h : s.Tracking) (hidle : s.phase t = .idle)
    (hkeys : s'.keys = unLockKey s.keys t key)
    (htracked : s'.tracked = update s.tracked t (update (s.tracked t) key none))
    (hphase : s'.phase = s.phase) : s'.Tracking := by
  obtain ⟨entry, hentry, hinfo⟩ := unLockKey_eq s.keys t key
  have hsame : s'.phase = update s.phase t .idle := by rw [hphase, ← hidle, update_eq_self]
  refine h.of_key (hkeys.trans hentry) htracked hsame ?_
  intro info heq
  obtain ⟨old, hold, ⟨hids, ht⟩ | ⟨hids, ht⟩⟩ := hinfo info heq
  · rw [hids]
    refine ⟨h.holders_nodup _ _ hold, fun u hu => .inr ⟨fun heq => ht (heq ▸ hu), ?_⟩⟩
    exact h.tracked_of_mem _ _ _ hold hu
  · have hperm := removeHolder_perm ht
    have hnodup := h.holders_nodup _ _ hold
    rw [hids]
    refine ⟨hperm.nodup_iff.mpr (hnodup.erase t), fun u hu => ?_⟩
    obtain ⟨hne, hmem⟩ := hnodup.mem_erase_iff.mp (hperm.mem_iff.mp hu)
    exact .inr ⟨hne, h.tracked_of_mem _ _ _ hold hmem⟩

/-- `AcquireLocked` and what follows keep what the threads know. -/
theorem LockState.Tracking.acquire {waitIds : List T} {expired limit last : Bool} (h : s.Tracking)
    (hasks : s.asksFor t req = true)
    (hnodup : waitIds.Nodup) : (s.acquire cfg t req waitIds expired limit last).Tracking := by
  have hidle : ∀ status, (s.finish cfg t req.key status).Tracking := fun status =>
    h.of_phase rfl rfl rfl nofun nodup_nil
  have hblocked : ∀ ids : List T, ids.Nodup →
      (s.goTo cfg t req.key (.blocked req ids) (some t)).Tracking := fun ids hids =>
    h.of_phase rfl rfl rfl (fun _ hreq => some.inj hreq ▸ hasks) hids
  rw [LockState.acquire]
  cases hresult : acquireLocked s.keys t req.key req.exclusive expired limit with
  | ok keys => exact h.granted hasks hresult
  | lockTimeout txnIds =>
    obtain ⟨info, hinfo, rfl⟩ := acquireLocked_lockTimeout hresult
    split_ifs
    · exact hidle _
    · exact hblocked _ (h.holders_nodup _ _ hinfo)
  | lockLimit =>
    split_ifs
    · exact hidle _
    · exact hblocked _ hnodup

/-- `AcquireLocked` and what follows leave the wait maps alone; no deadlock is reported. -/
theorem acquire_spec (cfg : LockConfig T K) (s : LockState T K) (t : T) (req : Request K)
    (waitIds : List T) (expired limit last : Bool) :
    (s.acquire cfg t req waitIds expired limit last).maps = s.maps ∧
      (∃ phase, (s.acquire cfg t req waitIds expired limit last).phase =
        update s.phase t phase ∧ phase.entered = none) ∧
      ∀ u, (s.acquire cfg t req waitIds expired limit last).returned ≠ some (u, .deadlock) := by
  rw [acquire]
  cases acquireLocked s.keys t req.key req.exclusive expired limit with
  | ok keys => exact ⟨rfl, ⟨_, rfl, rfl⟩, nofun⟩
  | lockTimeout txnIds | lockLimit => split_ifs <;> exact ⟨rfl, ⟨_, rfl, rfl⟩, nofun⟩

variable {event : LockEvent T K}

/-- **The steps that are possible**, by what they do. -/
theorem step_cases (hstep : s.step cfg event = some s') : (∃ t req expired limit last,
      s' = s.acquire cfg t req (s.phase t).waitIds expired limit last ∧ (s.phase t).entered = none ∧
        (s.asksFor t req = true ∨ (s.phase t).request = some req)) ∨
    (∃ t req ids, event = .startWaiting t ∧ s.phase t = .blocked req ids ∧ ids ≠ [] ∧
      ∃ r, s.maps.incrementWaiters t ids (cfg.depth t) = r ∧
        (r.1 = true ∧ s' = { s.finish cfg t req.key .deadlock with maps := r.2 } ∨
          r.1 = false ∧ s' = { s.goTo cfg t req.key (.waiting req ids) none with maps := r.2 })) ∨
    (∃ t key phase owner, s' = s.goTo cfg t key phase owner ∧
      phase.request = (s.phase t).request ∧ phase.waitIds = (s.phase t).waitIds ∧
      phase.entered = (s.phase t).entered) ∨
    (∃ t req ids timedOut, s.phase t = .woken req ids timedOut ∧ ids ≠ [] ∧
      s' = { s.goTo cfg t req.key (.retrying req ids timedOut) (some t) with
        maps := s.maps.decrementWaiters t ids }) ∨
    ∃ t key, s.phase t = .idle ∧ s' = { s with
        keys := unLockKey s.keys t key
        tracked := update s.tracked t (update (s.tracked t) key none)
        returned := none } := by
  cases event with
  | tryLock t req expired limit noWait =>
    rw [step] at hstep
    split at hstep
    next hidle _ =>
      split_ifs at hstep with hasks
      cases hstep
      refine .inl ⟨t, req, expired, limit, noWait, ?_⟩
      rw [hidle]
      exact ⟨rfl, rfl, .inl hasks⟩
    next => cases hstep
  | startWaiting t =>
    rw [step] at hstep
    split at hstep
    next req ids hblocked =>
      split_ifs at hstep with hnil
      · cases hstep
        subst hnil
        refine .inr (.inr (.inl ⟨t, _, _, _, rfl, ?_⟩))
        rw [hblocked]
        exact ⟨rfl, rfl, rfl⟩
      · refine .inr (.inl ⟨t, req, ids, rfl, hblocked, hnil, ?_⟩)
        split at hstep
        next maps heq =>
          cases hstep
          exact ⟨_, heq, .inl ⟨rfl, rfl⟩⟩
        next maps heq =>
          cases hstep
          exact ⟨_, heq, .inr ⟨rfl, rfl⟩⟩
    next => cases hstep
  | wake t timedOut =>
    rw [step] at hstep
    split at hstep
    next req ids hwaiting =>
      split_ifs at hstep
      cases hstep
      refine .inr (.inr (.inl ⟨t, _, _, _, rfl, ?_⟩))
      rw [hwaiting]
      exact ⟨rfl, rfl, rfl⟩
    next => cases hstep
  | stopWaiting t =>
    rw [step] at hstep
    split at hstep
    next req ids timedOut hwoken =>
      cases hstep
      by_cases hnil : ids = []
      · subst hnil
        refine .inr (.inr (.inl ⟨t, _, _, _, rfl, ?_⟩))
        rw [hwoken]
        exact ⟨rfl, rfl, rfl⟩
      · refine .inr (.inr (.inr (.inl ⟨t, req, ids, timedOut, hwoken, hnil, ?_⟩)))
        rw [if_neg hnil]
    next => cases hstep
  | retry t expired limit =>
    rw [step] at hstep
    split at hstep
    next req ids timedOut hretrying =>
      cases hstep
      refine .inl ⟨t, req, expired, limit, timedOut, ?_⟩
      rw [hretrying]
      exact ⟨rfl, rfl, .inr rfl⟩
    next => cases hstep
  | unLock t key =>
    rw [step] at hstep
    split at hstep
    next hidle _ =>
      split_ifs at hstep
      cases hstep
      exact .inr (.inr (.inr (.inr ⟨t, key, hidle, rfl⟩)))
    next => cases hstep

theorem tracking_step (h : s.Tracking) (hstep : s.step cfg event = some s') : s'.Tracking := by
  rcases step_cases hstep with ⟨t, req, expired, limit, last, rfl, -, hasks⟩ |
    ⟨t, req, ids, -, hblocked, -, _, -, ⟨-, rfl⟩ | ⟨-, rfl⟩⟩ |
    ⟨t, key, phase, owner, rfl, hrequest, hids, -⟩ | ⟨t, req, ids, timedOut, hwoken, -, rfl⟩ |
    ⟨t, key, hidle, rfl⟩
  · exact h.acquire (hasks.elim (fun hasks => hasks) (h.asksFor_of_request t req))
      (h.waitIds_nodup t)
  · exact h.of_phase rfl rfl rfl nofun nodup_nil
  · have hask := h.asksFor_of_request t
    have hnodup := h.waitIds_nodup t
    rw [hblocked] at hask hnodup
    exact h.of_phase rfl rfl rfl hask hnodup
  · refine h.of_phase rfl rfl rfl ?_ (hids ▸ h.waitIds_nodup t)
    rw [hrequest]
    exact h.asksFor_of_request t
  · have hask := h.asksFor_of_request t
    have hnodup := h.waitIds_nodup t
    rw [hwoken] at hask hnodup
    exact h.of_phase rfl rfl rfl hask hnodup
  · exact h.unLock hidle rfl rfl rfl

omit [DecidableEq T] [DecidableEq K] in
theorem LockState.Entered.blocked (h : s.Entered) (htracking : s.Tracking) {ids : List T}
    (hblocked : s.phase t = .blocked req ids) : s.maps.waitTxnMap t = none ∧ ids.Nodup := by
  have hnodup := htracking.waitIds_nodup t
  rw [hblocked] at hnodup
  exact ⟨by rw [h.waitTxnMap_eq t, hblocked]; rfl, hnodup⟩

theorem entered_step (htracking : s.Tracking) (h : s.Entered)
    (hstep : s.step cfg event = some s') : s'.Entered := by
  rcases step_cases hstep with ⟨t, req, expired, limit, last, rfl, hnone, -⟩ |
    ⟨t, req, ids, -, hblocked, hids, _, rfl, hresult⟩ |
    ⟨t, key, phase, owner, rfl, -, -, hsame⟩ | ⟨t, req, ids, timedOut, hwoken, hids, rfl⟩ |
    ⟨t, key, hidle, rfl⟩
  · obtain ⟨hmaps, ⟨phase, hphase, hentered⟩, -⟩ :=
      acquire_spec cfg s t req (s.phase t).waitIds expired limit last
    exact h.of_maps_eq hmaps hphase (hentered.trans hnone.symm)
  · obtain ⟨hnew, hnodup⟩ := h.blocked htracking hblocked
    have hagree : (s.maps.incrementWaiters t ids (cfg.depth t)).2.Agree :=
      h.agree.incrementWaiters hnew hnodup
    have hacyclic : (s.maps.incrementWaiters t ids (cfg.depth t)).2.Acyclic :=
      acyclic_incrementWaiters h.agree h.acyclic hnew hnodup
    have hcases := incrementWaiters_cases s.maps t ids (cfg.depth t)
    obtain ⟨htrue, rfl⟩ | ⟨hfalse, rfl⟩ := hresult
    · refine h.of_phase hagree hacyclic ?_ rfl
      obtain ⟨heq, -⟩ | ⟨heq, -⟩ := hcases
      · rw [heq] at htrue
        cases htrue
      · rw [heq, waitTxnMap_decrementWaiters_enter hnew]
        exact (update_eq_self_iff.mpr hnew.symm).symm
    · refine h.of_phase hagree hacyclic ?_ rfl
      obtain ⟨heq, -⟩ | ⟨heq, -⟩ := hcases
      · rw [heq, Phase.entered, if_neg hids]
        rfl
      · rw [heq] at hfalse
        cases hfalse
  · exact h.of_maps_eq rfl rfl hsame
  · have hold : s.maps.waitTxnMap t = some ids := by
      rw [h.waitTxnMap_eq t, hwoken, Phase.entered, if_neg hids]
    exact h.of_phase (h.agree.decrementWaiters hold) (acyclic_decrementWaiters h.acyclic) rfl rfl
  · exact ⟨h.agree, h.acyclic, h.waitTxnMap_eq⟩

/-- A transaction that is about to wait is not among those it waits for: it does not upgrade
a lock that it shares with others. -/
def NotInOwnWaitList (s : LockState T K) : LockEvent T K → Prop
  | .startWaiting t => t ∉ (s.phase t).waitIds
  | _ => True

instance (s : LockState T K) : (event : LockEvent T K) → Decidable (NotInOwnWaitList s event)
  | .startWaiting t => inferInstanceAs (Decidable (t ∉ (s.phase t).waitIds))
  | .tryLock .. => .isTrue trivial
  | .wake .. => .isTrue trivial
  | .stopWaiting .. => .isTrue trivial
  | .retry .. => .isTrue trivial
  | .unLock .. => .isTrue trivial

omit [DecidableEq T] [DecidableEq K] in
theorem not_waits_new (t u : T) : ¬ (LockState.new : LockState T K).maps.Waits t u := by
  rintro ⟨ids, hids, -⟩
  cases hids

omit [DecidableEq T] [DecidableEq K] in
theorem entered_new : (LockState.new : LockState T K).Entered where
  agree := by
    refine ⟨?_, nofun, fun u => ?_⟩
    · exact Set.finite_empty.subset nofun
    · have hempty : {t | (LockState.new : LockState T K).maps.Waits t u} = ∅ :=
        Set.eq_empty_of_forall_notMem fun t => not_waits_new t u
      rw [hempty, Set.ncard_empty]
      rfl
  acyclic := by
    intro t ht
    obtain ⟨u, hu, -⟩ := TransGen.head'_iff.mp ht
    exact not_waits_new t u hu
  waitTxnMap_eq := fun _ => rfl

/-- **The locks and the wait maps are right in every state that is reached.** -/
theorem tracking_and_entered_of_runs {ok : LockState T K → LockEvent T K → Prop}
    (hrun : Runs (LockState.step cfg) ok LockState.new s) : s.Tracking ∧ s.Entered := by
  induction hrun with
  | nil => exact ⟨⟨nofun, nofun, nofun, fun _ => nodup_nil⟩, entered_new⟩
  | snoc _ _ hstep ih => exact ⟨tracking_step ih.1 hstep, entered_step ih.1 ih.2 hstep⟩

/-- A deadlock is reported by a step of the requester that keeps the waiters. -/
theorem waits_of_deadlock (htracking : s.Tracking) (h : s.Entered)
    (hok : NotInOwnWaitList s event) (hstep : s.step cfg event = some s')
    (hreturned : s'.returned = some (t, .deadlock)) : ∃ u, u ≠ t ∧ s'.maps.Waits u t := by
  rcases step_cases hstep with ⟨t', req, expired, limit, last, rfl, -, -⟩ |
    ⟨t', req, ids, rfl, hblocked, -, _, rfl, ⟨htrue, rfl⟩ | ⟨-, rfl⟩⟩ |
    ⟨t', key, phase, owner, rfl, -⟩ | ⟨t', req, ids, timedOut, -, -, rfl⟩ | ⟨t', key, -, rfl⟩
  · exact absurd hreturned ((acquire_spec cfg s t' req _ expired limit last).2.2 t)
  · cases hreturned
    obtain ⟨hnew, hnodup⟩ := h.blocked htracking hblocked
    change t ∉ (s.phase t).waitIds at hok
    rw [hblocked] at hok
    obtain ⟨u, ids', hu, ht⟩ := exists_waits_of_incrementWaiters h.agree hok hnodup htrue
    have hback : (s.maps.incrementWaiters t ids (cfg.depth t)).2.waitTxnMap =
        s.maps.waitTxnMap := by
      obtain ⟨heq, -⟩ | ⟨heq, -⟩ := incrementWaiters_cases s.maps t ids (cfg.depth t)
      · rw [heq] at htrue
        cases htrue
      · rw [heq, waitTxnMap_decrementWaiters_enter hnew]
    refine ⟨u, ?_, ids', ?_, ht⟩
    · rintro rfl
      cases hnew.symm.trans hu
    · rw [hback]
      exact hu
  · cases hreturned
  · cases hreturned
  · cases hreturned
  · cases hreturned

/-- **The detection is right in every history** in which nobody is put in their own wait list:
the maps agree, `IncrementWaiters` returns false only if the new edges close no cycle through
the requester, and a deadlock is reported only if another transaction waits for it. -/
theorem detection_sound (hrun : Runs (LockState.step cfg) NotInOwnWaitList LockState.new s) :
    s.maps.Agree ∧
    (∀ t req ids, s.phase t = .blocked req ids →
      (s.maps.incrementWaiters t ids (cfg.depth t)).1 = false →
      ¬ TransGen (s.maps.incrementWaiters t ids (cfg.depth t)).2.Waits t t) ∧
    ∀ t, s.returned = some (t, .deadlock) → ∃ u, u ≠ t ∧ TransGen s.maps.Waits u t := by
  obtain ⟨htracking, hentered⟩ := tracking_and_entered_of_runs hrun
  refine ⟨hentered.agree, ?_, ?_⟩
  · intro t req ids hblocked _
    obtain ⟨hnew, hnodup⟩ := hentered.blocked htracking hblocked
    exact acyclic_incrementWaiters hentered.agree hentered.acyclic hnew hnodup t
  · intro t hreturned
    cases hrun with
    | nil => cases hreturned
    | snoc hbefore hok hstep =>
      obtain ⟨htracking, hentered⟩ := tracking_and_entered_of_runs hbefore
      obtain ⟨u, hne, hu⟩ := waits_of_deadlock htracking hentered hok hstep hreturned
      exact ⟨u, hne, TransGen.single hu⟩

/-- One stripe, and the default depth of 50. -/
def oneStripe : LockConfig Nat Nat where
  stripe := fun _ => 0
  depth := fun _ => 50

/-- Two transactions lock a key each and ask for the other's. -/
def crossing : List (LockEvent Nat Nat) :=
  [.tryLock 1 ⟨7, true⟩ false false false, .tryLock 2 ⟨8, true⟩ false false false,
    .tryLock 1 ⟨8, true⟩ false false false, .startWaiting 1,
    .tryLock 2 ⟨7, true⟩ false false false, .startWaiting 2]

/-- A deadlock of two transactions is reported. -/
theorem detection_sound_crossing :
    ∃ s, Runs (LockState.step oneStripe) NotInOwnWaitList LockState.new s ∧
      s.returned = some (2, .deadlock) ∧ ∃ u, u ≠ 2 ∧ TransGen s.maps.Waits u 2 := by
  refine exists_runs_imp (P := fun s => s.returned = some (2, .deadlock)) crossing (by decide)
    fun s hrun hreturned => ?_
  exact ⟨hreturned, (detection_sound hrun).2.2 2 hreturned⟩

/-- Two transactions share a key, and one of them asks for it alone.  The upgrade is reported
as a deadlock although nobody waits, and the search did not reach its limit. -/
theorem sharedUpgrade_reports_deadlock :
    ∃ s s', Runs (LockState.step oneStripe) (fun _ _ => True) LockState.new s ∧
      (∃ req, s.phase 1 = .blocked req [1, 2]) ∧
      (∀ t u, ¬ s.maps.Waits t u) ∧
      search (s.maps.enter 1 [1, 2]).waitTxnMap 1 50 50 [] 0 [1, 2] = .found ∧
      s.step oneStripe (.startWaiting 1) = some s' ∧
      s'.returned = some (1, .deadlock) ∧
      ∀ t u, ¬ s'.maps.Waits t u := by
  have hrun : Runs (LockState.step oneStripe) (fun _ _ => True) LockState.new _ :=
    ((Runs.nil.snoc (i := .tryLock 1 ⟨7, false⟩ false false false) trivial rfl).snoc
      (i := .tryLock 2 ⟨7, false⟩ false false false) trivial rfl).snoc
      (i := .tryLock 1 ⟨7, true⟩ false false false) trivial rfl
  -- the requester is entered and taken out again
  have hback : (((LockState.new : LockState Nat Nat).maps.enter 1 [1, 2]).decrementWaiters 1
      [1, 2]).waitTxnMap = (LockState.new : LockState Nat Nat).maps.waitTxnMap :=
    waitTxnMap_decrementWaiters_enter rfl
  refine ⟨_, _, hrun, ⟨_, rfl⟩, not_waits_new (K := Nat), by decide, rfl, rfl, ?_⟩
  rintro t u ⟨ids, hids, hu⟩
  exact not_waits_new (K := Nat) t u ⟨ids, (congrFun hback t).symm.trans hids, hu⟩

end HotTLBApps.RocksDB
