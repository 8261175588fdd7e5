import HotTLBApps.Lib.ArrayLoops
import HotTLBApps.RocksDB.PointLockManager
import Mathlib.Data.Set.Card

/-!
# RocksDB: the wait-for graph

The relation `Waits` holds the edges of `wait_txn_map_`.

* `Acyclic`: no transaction waits for itself, directly or through others;
* `Agree`: the counts of `rev_wait_txn_map_` are the numbers of waiters.
-/

namespace HotTLBApps.RocksDB

open Relation List Function Option Set

variable {T : Type} [DecidableEq T]

variable {waitTxnMap : T → Option (List T)} {id : T} {depth : Nat}
  {fuel head : Nat} {queue nextIds : List T}

/-- A full queue is searched to the limit. -/
theorem search_ne_of_full (hfull : queue.length = depth) (hfuel : fuel + head = depth) :
    search waitTxnMap id depth fuel queue head nextIds ≠ .noDeadlock := by
  induction fuel generalizing head nextIds with
  | zero => exact nofun
  | succ fuel ih =>
    have hsame : queue ++ nextIds.take (depth - queue.length) = queue := by
      rw [hfull, Nat.sub_self, take_zero, append_nil]
    obtain ⟨next, hnext⟩ : ∃ next, queue[head]? = some next :=
      ⟨_, getElem?_eq_getElem (by omega)⟩
    rw [search, hsame, hnext]
    dsimp only
    split_ifs
    · exact nofun
    · exact ih (by omega)

/-- **A search that runs out of transactions has seen everything** that can be reached, and
the requester is not among it. -/
theorem search_closed (hlength : queue.length ≤ depth) (hhead : head ≤ queue.length)
    (hfuel : fuel + head = depth) (hseen : ∀ i x, i < head → queue[i]? = some x →
      x ≠ id ∧ ∀ y ∈ (waitTxnMap x).getD [], y ∈ queue ∨ y ∈ nextIds)
    (h : search waitTxnMap id depth fuel queue head nextIds = .noDeadlock) :
    ∃ seen : List T, (∀ x ∈ queue, x ∈ seen) ∧ (∀ x ∈ nextIds, x ∈ seen) ∧ id ∉ seen ∧
      ∀ x ∈ seen, ∀ y ∈ (waitTxnMap x).getD [], y ∈ seen := by
  induction fuel generalizing queue head nextIds with
  | zero => cases h
  | succ fuel ih =>
    rw [search] at h
    by_cases hfit : nextIds.length ≤ depth - queue.length
    · rw [take_of_length_le hfit] at h
      cases hnext : (queue ++ nextIds)[head]? with
      | none =>
        -- all of the queue was seen
        have hend := getElem?_eq_none_iff.mp hnext
        rw [length_append] at hend
        have hnil : nextIds = [] := length_eq_zero_iff.mp (by omega)
        subst hnil
        refine ⟨queue, fun x hx => hx, nofun, ?_, ?_⟩
        · intro hid
          obtain ⟨i, hi⟩ := List.getElem?_of_mem hid
          have hlt := (List.getElem?_eq_some_iff.mp hi).1
          exact (hseen i id (by omega) hi).1 rfl
        · intro x hx y hy
          obtain ⟨i, hi⟩ := List.getElem?_of_mem hx
          have hlt := (List.getElem?_eq_some_iff.mp hi).1
          rcases (hseen i x (by omega) hi).2 y hy with hy | hy
          · exact hy
          · cases hy
      | some next =>
        rw [hnext] at h
        dsimp only at h
        have hlt := (List.getElem?_eq_some_iff.mp hnext).1
        split_ifs at h with hid
        have hseen' : ∀ i x, i < head + 1 → (queue ++ nextIds)[i]? = some x →
            x ≠ id ∧ ∀ y ∈ (waitTxnMap x).getD [],
              y ∈ queue ++ nextIds ∨ y ∈ (waitTxnMap next).getD [] := by
          intro i x hi hx
          obtain hi | rfl := Nat.lt_succ_iff_lt_or_eq.mp hi
          · rw [getElem?_append_left (by omega)] at hx
            obtain ⟨hne, hnbrs⟩ := hseen i x hi hx
            exact ⟨hne, fun y hy => .inl (mem_append.mpr (hnbrs y hy))⟩
          · obtain rfl := some.inj (hx.symm.trans hnext)
            exact ⟨hid, fun y hy => .inr hy⟩
        have hlength' : (queue ++ nextIds).length ≤ depth := by
          rw [length_append]
          omega
        obtain ⟨seen, hqueue, -, hnot, hclosed⟩ :=
          ih hlength' hlt (by omega) hseen' h
        exact ⟨seen, fun x hx => hqueue x (mem_append_left _ hx),
          fun x hx => hqueue x (mem_append_right _ hx), hnot, hclosed⟩
    · -- what does not fit is dropped, but then the queue is full
      exfalso
      have hfull : (queue ++ nextIds.take (depth - queue.length)).length = depth := by
        rw [length_append, length_take]
        omega
      obtain ⟨next, hnext⟩ :
          ∃ next, (queue ++ nextIds.take (depth - queue.length))[head]? = some next :=
        ⟨_, getElem?_eq_getElem (by omega)⟩
      rw [hnext] at h
      dsimp only at h
      split_ifs at h
      exact search_ne_of_full hfull (by omega) h

/-- `t` waits for `u`. -/
def WaitMaps.Waits (maps : WaitMaps T) (t u : T) : Prop :=
  ∃ ids, maps.waitTxnMap t = some ids ∧ u ∈ ids

variable {maps : WaitMaps T} {ids : List T} {t u : T}

omit [DecidableEq T] in
theorem WaitMaps.waits_iff : maps.Waits t u ↔ u ∈ (maps.waitTxnMap t).getD [] := by
  cases h : maps.waitTxnMap t with
  | none => simp [WaitMaps.Waits, h]
  | some ids => simp [WaitMaps.Waits, h]

theorem waits_enter :
    (maps.enter id ids).Waits t u ↔ (t = id ∧ u ∈ ids) ∨ (t ≠ id ∧ maps.Waits t u) := by
  rw [WaitMaps.waits_iff, WaitMaps.waits_iff, WaitMaps.enter]
  by_cases ht : t = id
  · subst ht
    simp
  · simp [ht]

theorem waits_decrementWaiters :
    (maps.decrementWaiters id ids).Waits t u ↔ t ≠ id ∧ maps.Waits t u := by
  rw [WaitMaps.waits_iff, WaitMaps.waits_iff, WaitMaps.decrementWaiters]
  by_cases ht : t = id
  · subst ht
    simp
  · simp [ht]

/-- A path after the entry is one from before, or goes over the new edges. -/
theorem transGen_enter (h : TransGen (maps.enter id ids).Waits t u) : TransGen maps.Waits t u ∨
      ReflTransGen (maps.enter id ids).Waits t id ∧
        ∃ x ∈ ids, ReflTransGen (maps.enter id ids).Waits x u := by
  induction h with
  | single hstep =>
    obtain ⟨rfl, hu⟩ | ⟨-, hold⟩ := waits_enter.mp hstep
    · exact .inr ⟨ReflTransGen.refl, _, hu, ReflTransGen.refl⟩
    · exact .inl (TransGen.single hold)
  | tail hpath hstep ih =>
    obtain ⟨rfl, hu⟩ | ⟨-, hold⟩ := waits_enter.mp hstep
    · exact .inr ⟨hpath.to_reflTransGen, _, hu, ReflTransGen.refl⟩
    · obtain ih | ⟨hid, x, hx, hxb⟩ := ih
      · exact .inl (ih.tail hold)
      · exact .inr ⟨hid, x, hx, hxb.tail hstep⟩

/-- No transaction waits for itself, directly or through others. -/
def WaitMaps.Acyclic (maps : WaitMaps T) : Prop :=
  ∀ t, ¬ TransGen maps.Waits t t

/-- **If the search finds no deadlock, the new edges do not close a cycle.** -/
theorem acyclic_enter (hacyclic : maps.Acyclic)
    (hsearch : search (maps.enter id ids).waitTxnMap id depth depth [] 0 ids = .noDeadlock) :
    (maps.enter id ids).Acyclic := by
  obtain ⟨seen, -, hids, hnot, hclosed⟩ := search_closed (Nat.zero_le depth)
    (Nat.zero_le _) (Nat.add_zero depth) (fun i x hi => absurd hi (Nat.not_lt_zero i)) hsearch
  -- what is reached from the wait list was seen
  have hreach : ∀ x ∈ ids, ∀ y, ReflTransGen (maps.enter id ids).Waits x y → y ∈ seen := by
    intro x hx y hxy
    induction hxy with
    | refl => exact hids x hx
    | tail _ hstep ih => exact hclosed _ ih _ (WaitMaps.waits_iff.mp hstep)
  intro t ht
  obtain hold | ⟨hid, x, hx, hxt⟩ := transGen_enter ht
  · exact hacyclic t hold
  · exact hnot (hreach x hx id (hxt.trans hid))

/-- Nobody waits for the requester, so the new edges do not close a cycle. -/
theorem acyclic_enter_of_not_waited (hacyclic : maps.Acyclic)
    (hnobody : ∀ t, ¬ (maps.enter id ids).Waits t id) : (maps.enter id ids).Acyclic := by
  intro t ht
  obtain hold | ⟨hid, x, hx, hxt⟩ := transGen_enter ht
  · exact hacyclic t hold
  · obtain heq | ⟨y, -, hy⟩ := ReflTransGen.cases_tail (hxt.trans hid)
    · exact hnobody id (waits_enter.mpr (.inl ⟨rfl, heq ▸ hx⟩))
    · exact hnobody y hy

theorem acyclic_decrementWaiters
    (hacyclic : maps.Acyclic) : (maps.decrementWaiters id ids).Acyclic := by
  intro t ht
  have hsub : (maps.decrementWaiters id ids).Waits ≤ maps.Waits :=
    fun _ _ h => (waits_decrementWaiters.mp h).2
  exact hacyclic t (TransGen.mono hsub t t ht)

/-- A count as it is kept: none for 0. -/
def kept (count : Nat) : Option Nat :=
  if count = 0 then none else some count

/-- **The two maps agree**: the count of a transaction is the number of its waiters. -/
structure WaitMaps.Agree (maps : WaitMaps T) : Prop where
  finite : {t | (maps.waitTxnMap t).isSome = true}.Finite
  nodup : ∀ t ids, maps.waitTxnMap t = some ids → ids.Nodup
  count_eq : ∀ u, maps.revWaitTxnMap u = kept {t | maps.Waits t u}.ncard

theorem foldl_countUp (rev : T → Option Nat) (hnodup : ids.Nodup) (u : T) :
    ids.foldl countUp rev u = if u ∈ ids then some ((rev u).elim 1 (· + 1)) else rev u :=
  ArrayLoops.foldl_update (fun _ o => some (o.elim 1 (· + 1))) hnodup rev u

theorem foldl_countDown (rev : T → Option Nat) (hnodup : ids.Nodup) (u : T) :
    ids.foldl countDown rev u =
      if u ∈ ids then (rev u).bind fun count => kept (count - 1) else rev u :=
  ArrayLoops.foldl_update (fun _ (o : Option Nat) => o.bind fun count => kept (count - 1)) hnodup rev u

omit [DecidableEq T] in
theorem WaitMaps.Agree.finite_waiters (h : maps.Agree) (u : T) : {t | maps.Waits t u}.Finite := by
  refine h.finite.subset ?_
  rintro t ⟨ids, hids, -⟩
  rw [mem_ofPred_eq, hids]
  rfl

theorem WaitMaps.Agree.update_waitTxnMap (h : maps.Agree) {o : Option (List T)}
    (ho : ∀ ids, o = some ids → ids.Nodup) :
    {t | (update maps.waitTxnMap id o t).isSome = true}.Finite ∧
      ∀ t ids, update maps.waitTxnMap id o t = some ids → ids.Nodup := by
  constructor
  · refine (h.finite.insert id).subset ?_
    intro t ht
    by_cases heq : t = id
    · exact .inl heq
    · refine .inr ?_
      simpa [update_of_ne heq] using ht
  · exact (forall_update_iff _ fun _ o => ∀ ids, o = some ids → Nodup ids).mpr
      ⟨ho, fun t _ => h.nodup t⟩

theorem WaitMaps.Agree.enter (h : maps.Agree) (hnew : maps.waitTxnMap id = none)
    (hnodup : ids.Nodup) : (maps.enter id ids).Agree where
  finite := (h.update_waitTxnMap (by simpa using hnodup)).1
  nodup := (h.update_waitTxnMap (by simpa using hnodup)).2
  count_eq := by
    intro u
    have hnot : id ∉ {t | maps.Waits t u} := by
      rintro ⟨ids', hids', -⟩
      cases hnew.symm.trans hids'
    have hold : maps.revWaitTxnMap u = kept {t | maps.Waits t u}.ncard := h.count_eq u
    rw [show (maps.enter id ids).revWaitTxnMap = ids.foldl countUp maps.revWaitTxnMap from rfl,
      foldl_countUp _ hnodup]
    by_cases hu : u ∈ ids
    · have hset : {t | (maps.enter id ids).Waits t u} = insert id {t | maps.Waits t u} := by
        ext t
        rw [mem_ofPred_eq, waits_enter, mem_insert_iff, mem_ofPred_eq]
        constructor
        · rintro (⟨ht, -⟩ | ⟨-, ht⟩)
          · exact .inl ht
          · exact .inr ht
        · rintro (rfl | ht)
          · exact .inl ⟨rfl, hu⟩
          · exact .inr ⟨fun heq => hnot (heq ▸ ht), ht⟩
      rw [if_pos hu, hold, hset, ncard_insert_of_notMem hnot (h.finite_waiters u)]
      unfold kept
      by_cases hzero : {t | maps.Waits t u}.ncard = 0 <;> simp [hzero]
    · have hset : {t | (maps.enter id ids).Waits t u} = {t | maps.Waits t u} := by
        ext t
        rw [mem_ofPred_eq, waits_enter, mem_ofPred_eq]
        constructor
        · rintro (⟨-, ht⟩ | ⟨-, ht⟩)
          · exact absurd ht hu
          · exact ht
        · exact fun ht => .inr ⟨fun heq => hnot (heq ▸ ht), ht⟩
      rw [if_neg hu, hold, hset]

/-- A waiting transaction is taken out. -/
theorem WaitMaps.Agree.decrementWaiters (h : maps.Agree)
    (hold : maps.waitTxnMap id = some ids) : (maps.decrementWaiters id ids).Agree where
  finite := (h.update_waitTxnMap (o := none) nofun).1
  nodup := (h.update_waitTxnMap (o := none) nofun).2
  count_eq := by
    intro u
    have hset : {t | (maps.decrementWaiters id ids).Waits t u} =
        {t | maps.Waits t u} \ {id} := by
      ext t
      rw [mem_ofPred_eq, waits_decrementWaiters, mem_sdiff, mem_singleton_iff,
        mem_ofPred_eq, and_comm]
    rw [show (maps.decrementWaiters id ids).revWaitTxnMap =
        ids.foldl countDown maps.revWaitTxnMap from rfl,
      foldl_countDown _ (h.nodup id ids hold), h.count_eq u, hset]
    by_cases hu : u ∈ ids
    · have hmem : id ∈ {t | maps.Waits t u} := ⟨ids, hold, hu⟩
      have hpos := (ncard_pos (h.finite_waiters u)).mpr ⟨id, hmem⟩
      rw [if_pos hu, ncard_sdiff_singleton_of_mem hmem, kept, if_neg (by omega)]
      rfl
    · have hnot : id ∉ {t | maps.Waits t u} := by
        rintro ⟨ids', hids', hu'⟩
        rw [hold] at hids'
        exact hu (some.inj hids' ▸ hu')
      rw [if_neg hu, sdiff_singleton_eq_self hnot]

theorem incrementWaiters_cases (maps : WaitMaps T) (id : T) (ids : List T) (depth : Nat) :
    (maps.incrementWaiters id ids depth = (false, maps.enter id ids) ∧
      ((maps.enter id ids).revWaitTxnMap id = none ∨
        search (maps.enter id ids).waitTxnMap id depth depth [] 0 ids = .noDeadlock)) ∨
    (maps.incrementWaiters id ids depth = (true, (maps.enter id ids).decrementWaiters id ids) ∧
      (maps.enter id ids).revWaitTxnMap id ≠ none) := by
  rw [WaitMaps.incrementWaiters]
  split_ifs with hrev
  · exact .inl ⟨rfl, .inl hrev⟩
  · cases hsearch : search (maps.enter id ids).waitTxnMap id depth depth [] 0 ids with
    | noDeadlock => exact .inl ⟨rfl, .inr rfl⟩
    | found => exact .inr ⟨rfl, hrev⟩
    | tooBig => exact .inr ⟨rfl, hrev⟩

/-- Entered and taken out again, the requester leaves the edges as they were. -/
theorem waitTxnMap_decrementWaiters_enter (hnew : maps.waitTxnMap id = none) :
    ((maps.enter id ids).decrementWaiters id ids).waitTxnMap = maps.waitTxnMap := by
  change update (update maps.waitTxnMap id (some ids)) id none = _
  rw [update_idem, ← hnew, update_eq_self]

theorem WaitMaps.Agree.incrementWaiters (h : maps.Agree) (hnew : maps.waitTxnMap id = none)
    (hnodup : ids.Nodup) : (maps.incrementWaiters id ids depth).2.Agree := by
  have hentered := h.enter hnew hnodup
  obtain ⟨heq, -⟩ | ⟨heq, -⟩ := incrementWaiters_cases maps id ids depth
  · rw [heq]
    exact hentered
  · rw [heq]
    exact hentered.decrementWaiters (update_self ..)

/-- **`IncrementWaiters` misses nothing**: no cycle is left behind. -/
theorem acyclic_incrementWaiters (h : maps.Agree) (hacyclic : maps.Acyclic)
    (hnew : maps.waitTxnMap id = none)
    (hnodup : ids.Nodup) : (maps.incrementWaiters id ids depth).2.Acyclic := by
  obtain ⟨heq, hrev | hsearch⟩ | ⟨heq, -⟩ := incrementWaiters_cases maps id ids depth
  · rw [heq]
    refine acyclic_enter_of_not_waited hacyclic fun t ht => ?_
    -- a count of none means that nobody waits
    have hentered := h.enter hnew hnodup
    have hpos := (ncard_pos (hentered.finite_waiters id)).mpr ⟨t, ht⟩
    rw [hentered.count_eq id, kept, if_neg (by omega)] at hrev
    cases hrev
  · rw [heq]
    exact acyclic_enter hacyclic hsearch
  · rw [heq]
    intro t ht
    refine hacyclic t (TransGen.mono ?_ t t ht)
    rintro a b ⟨ids', ha, hb⟩
    rw [waitTxnMap_decrementWaiters_enter hnew] at ha
    exact ⟨ids', ha, hb⟩

/-- **`IncrementWaiters` gives no false alarm** to a requester that is not in its own wait
list. -/
theorem exists_waits_of_incrementWaiters (h : maps.Agree) (hself : id ∉ ids) (hnodup : ids.Nodup)
    (htrue : (maps.incrementWaiters id ids depth).1 = true) : ∃ t, maps.Waits t id := by
  obtain ⟨heq, -⟩ | ⟨-, hrev⟩ := incrementWaiters_cases maps id ids depth
  · rw [heq] at htrue
    cases htrue
  · have hsame : (maps.enter id ids).revWaitTxnMap id = maps.revWaitTxnMap id :=
      (foldl_countUp _ hnodup id).trans (if_neg hself)
    by_contra hnobody
    have hempty : {t | maps.Waits t id} = ∅ :=
      eq_empty_of_forall_notMem fun t ht => hnobody ⟨t, ht⟩
    refine hrev ?_
    rw [hsame, h.count_eq id, hempty, ncard_empty]
    rfl

end HotTLBApps.RocksDB
