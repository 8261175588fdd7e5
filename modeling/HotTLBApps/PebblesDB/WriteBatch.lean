import HotTLBApps.PebblesDB.Coding
import HotTLBApps.PebblesDB.Table

/-!
# PebblesDB: write batches (`db/write_batch.cc`)

A batch is a string: a sequence number, a count, and the records.  `Write` appends the guards
of the keys to a copy of the batch and logs the copy; the copy, or what is read from the log,
is inserted by `InsertIntoVersion`.  The hash of the keys is a parameter.
-/

namespace HotTLBApps.PebblesDB

open Bytes List

/-- A record, which is a call of a handler. -/
inductive BatchOp
  | put (key value : List UInt8)
  | delete (key : List UInt8)
  | guard (key : List UInt8) (level : Nat)
deriving DecidableEq, Repr

/-- Lengths and levels are read back. -/
def BatchOp.Ok : BatchOp → Prop
  | .put key value => key.length < 2 ^ 32 ∧ value.length < 2 ^ 32
  | .delete key => key.length < 2 ^ 32
  | .guard key level => key.length < 2 ^ 32 ∧ level < kNumLevels

def BatchOp.isGuard : BatchOp → Bool
  | .guard _ _ => true
  | _ => false

namespace WriteBatch

def clear : List UInt8 := replicate 12 0

def count (rep : List UInt8) : Nat := ofLE ((rep.drop 8).take 4)

def setCount (rep : List UInt8) (n : Nat) : List UInt8 := rep.take 8 ++ toLE 4 n ++ rep.drop 12

def sequence (rep : List UInt8) : Nat := ofLE (rep.take 8)

def setSequence (rep : List UInt8) (seq : Nat) : List UInt8 := toLE 8 seq ++ rep.drop 8

def record : BatchOp → List UInt8
  | .put key value => 1 :: (putLengthPrefixedSlice key ++ putLengthPrefixedSlice value)
  | .delete key => 0 :: putLengthPrefixedSlice key
  | .guard key level => 2 :: (putLengthPrefixedSlice key ++ putVarint32 level)

/-- `Put`, `Delete` and `PutGuard`. -/
def add (rep : List UInt8) (op : BatchOp) : List UInt8 :=
  setCount rep (count rep + 1) ++ record op

/-- The `switch` of `Iterate`. -/
def readRecord (tag : UInt8) (input : List UInt8) : Except String (BatchOp × List UInt8) :=
  if tag = 1 then
    ((getLengthPrefixedSlice input).bind fun (key, input) =>
      (getLengthPrefixedSlice input).map fun (value, input) =>
        (BatchOp.put key value, input)).elim (.error "bad WriteBatch Put") .ok
  else if tag = 0 then
    ((getLengthPrefixedSlice input).map fun (key, input) =>
      (BatchOp.delete key, input)).elim (.error "bad WriteBatch Delete") .ok
  else if tag = 2 then
    ((getLengthPrefixedSlice input).bind fun (key, input) =>
      (getVarint32 input).map fun (level, input) =>
        (BatchOp.guard key level, input)).elim (.error "bad WriteBatch Guard") .ok
  else
    .error "unknown WriteBatch tag"

/-- The loop of `Iterate`: the calls of the handler, and an error; each turn takes a byte. -/
def handled : Nat → List UInt8 → List BatchOp × Option String
  | fuel + 1, tag :: input =>
      match readRecord tag input with
      | .error message => ([], some message)
      | .ok (op, input) => (op :: (handled fuel input).1, (handled fuel input).2)
  | _, _ => ([], none)

def iterate (rep : List UInt8) : List BatchOp × Option String :=
  if rep.length < 12 then
    ([], some "malformed WriteBatch (too small)")
  else
    match handled rep.length (rep.drop 12) with
    | (ops, none) =>
        (ops, if ops.length = count rep then none else some "WriteBatch has wrong count")
    | result => result

/-- `GuardInserter::Put`: from the first level on whose bits of the hash are all ones. -/
def guardsOf (hash : List UInt8 → Nat) : BatchOp → List BatchOp
  | .put key _ =>
      ((range kNumLevels).dropWhile fun i =>
        hash key &&& (1 <<< (27 - 2 * i) - 1) ≠ 1 <<< (27 - 2 * i) - 1).map (.guard key)
  | _ => []

/-- `SetGuards`; `none` is the assertion of `GuardInserter::HandleGuard`. -/
def setGuards (hash : List UInt8 → Nat) (rep new : List UInt8) : Option (List UInt8) :=
  if (iterate rep).1.any BatchOp.isGuard then
    none
  else
    some (((iterate rep).1.flatMap (guardsOf hash)).foldl add new)

/-- What `Write` logs. -/
def logged (hash : List UInt8 → Nat) (updates : List UInt8) (start : Nat) : Option (List UInt8) :=
  setGuards hash (setSequence updates start) (setSequence updates start)

/-- What is inserted: an entry of the memtable, or a complete guard of a level. -/
inductive Insertion
  | mem (e : Entry (List UInt8) (List UInt8))
  | guard (level : Nat) (key : InternalKey (List UInt8))

/-- The calls of `MemTableInserter`, with the sequence number. -/
def insertion : BatchOp × Nat → Insertion
  | (.put key value, sequence) => .mem ⟨⟨key, sequence, .kTypeValue⟩, value⟩
  | (.delete key, sequence) => .mem ⟨⟨key, sequence, .kTypeDeletion⟩, []⟩
  | (.guard key level, sequence) => .guard level ⟨key, sequence, .kTypeValue⟩

/-- One call; `none` is the assertion of `HandleGuard`. -/
def handle (s : Nat × List Insertion) (op : BatchOp) : Option (Nat × List Insertion) :=
  match op with
  | .guard _ level =>
      if level < kNumLevels then some (s.1 + 1, s.2 ++ [insertion (op, s.1)]) else none
  | _ => some (s.1 + 1, s.2 ++ [insertion (op, s.1)])

def insertIntoVersion (rep : List UInt8) : Option (List Insertion × Option String) :=
  ((iterate rep).1.foldlM handle (sequence rep, [])).map fun s => (s.2, (iterate rep).2)

variable {seq : Nat} {ops : List BatchOp}

/-- The batch of some records. -/
def batchOf (seq : Nat) (ops : List BatchOp) : List UInt8 :=
  toLE 8 seq ++ (toLE 4 ops.length ++ ops.flatMap record)

theorem drop_batchOf : (batchOf seq ops).drop 12 = ops.flatMap record := by
  rw [batchOf, ← append_assoc, drop_left' (by simp)]

theorem count_batchOf (hlen : ops.length < 2 ^ 32) : count (batchOf seq ops) = ops.length := by
  rw [count, batchOf, drop_left' (length_toLE 8 seq), take_left' (length_toLE 4 _), ofLE_toLE]
  exact Nat.mod_eq_of_lt hlen

theorem foldl_add_batchOf (new : List BatchOp) (hlen : ops.length + new.length < 2 ^ 32) :
    new.foldl add (batchOf seq ops) = batchOf seq (ops ++ new) := by
  induction new generalizing ops with
  | nil => rw [append_nil, foldl_nil]
  | cons op new ih =>
    have hadd : add (batchOf seq ops) op = batchOf seq (ops ++ [op]) := by
      rw [add, count_batchOf (by omega), setCount, drop_batchOf, batchOf,
        take_left' (length_toLE 8 seq), batchOf]
      simp
    rw [foldl_cons, hadd, ih (by simp at hlen ⊢; omega), append_assoc, singleton_append]

theorem readRecord_record {op : BatchOp} (hop : op.Ok) (rest : List UInt8) :
    ∃ tag body, record op = tag :: body ∧ readRecord tag (body ++ rest) = .ok (op, rest) := by
  cases op with
  | put key value =>
    refine ⟨1, _, rfl, ?_⟩
    simp [readRecord, getLengthPrefixedSlice_put hop.1, getLengthPrefixedSlice_put hop.2]
  | delete key =>
    refine ⟨0, _, rfl, ?_⟩
    simp [readRecord, getLengthPrefixedSlice_put hop]
  | guard key level =>
    have hlevel : level < 2 ^ 32 := hop.2.trans (by decide)
    refine ⟨2, _, rfl, ?_⟩
    simp [readRecord, getLengthPrefixedSlice_put hop.1, getVarint32_putVarint32 hlevel]

theorem handled_records (hops : ∀ op ∈ ops, op.Ok) {fuel : Nat}
    (hfuel : (ops.flatMap record).length ≤ fuel) :
    handled fuel (ops.flatMap record) = (ops, none) := by
  induction ops generalizing fuel with
  | nil => cases fuel <;> rfl
  | cons op ops ih =>
    rcases forall_mem_cons.mp hops with ⟨hop, hops⟩
    rcases readRecord_record hop (ops.flatMap record) with ⟨tag, body, hrecord, hread⟩
    rw [flatMap_cons, hrecord, cons_append, length_cons, length_append] at hfuel
    rw [flatMap_cons, hrecord, cons_append]
    cases fuel with
    | zero => omega
    | succ fuel => simp only [handled, hread, ih hops (show _ ≤ fuel by omega)]

theorem iterate_batchOf (hops : ∀ op ∈ ops, op.Ok) (hlen : ops.length < 2 ^ 32) :
    iterate (batchOf seq ops) = (ops, none) := by
  have hlength : (batchOf seq ops).length = 12 + (ops.flatMap record).length := by
    rw [batchOf, length_append, length_append, length_toLE, length_toLE]
    omega
  rw [iterate, if_neg (by omega), drop_batchOf, handled_records hops (by omega)]
  simp [count_batchOf hlen]

theorem mem_guardsOf (hash : List UInt8 → Nat) {op g : BatchOp} (hop : op.Ok)
    (hg : g ∈ guardsOf hash op) : g.Ok := by
  cases op with
  | put key value =>
    rcases mem_map.mp hg with ⟨level, hlevel, rfl⟩
    exact ⟨hop.1, mem_range.mp ((dropWhile_suffix _).mem hlevel)⟩
  | delete key => cases hg
  | guard key level => cases hg

theorem length_flatMap_guardsOf_le (hash : List UInt8 → Nat) (ops : List BatchOp) :
    (ops.flatMap (guardsOf hash)).length ≤ 7 * ops.length := by
  induction ops with
  | nil => simp
  | cons op ops ih =>
    have hseven : (guardsOf hash op).length ≤ 7 := by
      cases op with
      | put key value =>
        rw [guardsOf, length_map]
        exact (dropWhile_suffix _).length_le
      | _ => exact Nat.zero_le _
    rw [flatMap_cons, length_append, length_cons]
    omega

theorem foldlM_handle (hops : ∀ op ∈ ops, op.Ok) (s : Nat × List Insertion) :
    ops.foldlM handle s = some (s.1 + ops.length, s.2 ++ (ops.zipIdx s.1).map insertion) := by
  induction ops generalizing s with
  | nil => simp
  | cons op ops ih =>
    rcases forall_mem_cons.mp hops with ⟨hop, hops⟩
    have hstep : handle s op = some (s.1 + 1, s.2 ++ [insertion (op, s.1)]) := by
      cases op with
      | guard key level => exact if_pos hop.2
      | _ => rfl
    rw [foldlM_cons, hstep, Option.bind_eq_bind, Option.bind_some, ih hops, zipIdx_cons, map_cons,
      append_assoc, singleton_append, length_cons, Nat.add_right_comm, Nat.add_assoc]

/-- **What is logged inserts the batch**: its updates, with consecutive sequence numbers from
the one of the call on, and behind them the guards of its keys. -/
theorem insertIntoVersion_logged
    (hash : List UInt8 → Nat)
    (hseq : seq + (ops ++ ops.flatMap (guardsOf hash)).length ≤ kMaxSequenceNumber)
    (hlen : 8 * ops.length < 2 ^ 31)
    (hops : ∀ op ∈ ops, op.Ok ∧ op.isGuard = false) :
    ∃ rep, logged hash (ops.foldl add clear) seq = some rep ∧ insertIntoVersion rep =
      some (((ops ++ ops.flatMap (guardsOf hash)).zipIdx seq).map insertion, none) := by
  have hseven := length_flatMap_guardsOf_le hash ops
  have hok := fun op hop => (hops op hop).1
  have hall : ∀ op ∈ ops ++ ops.flatMap (guardsOf hash), op.Ok := by
    refine forall_mem_append.mpr ⟨hok, fun g hg => ?_⟩
    rcases mem_flatMap.mp hg with ⟨op, hop, hg⟩
    exact mem_guardsOf hash (hok op hop) hg
  have hupdates : setSequence (ops.foldl add clear) seq = batchOf seq ops := by
    have hadds : ops.foldl add (batchOf 0 []) = batchOf 0 ([] ++ ops) :=
      foldl_add_batchOf ops (by rw [length_nil]; omega)
    rw [show clear = batchOf 0 [] from rfl, hadds, setSequence, batchOf,
      drop_left' (length_toLE 8 0), nil_append, batchOf]
  have hplain : ops.any BatchOp.isGuard = false := by
    simpa using fun op hop => (hops op hop).2
  refine ⟨batchOf seq (ops ++ ops.flatMap (guardsOf hash)), ?_, ?_⟩
  · rw [logged, hupdates, setGuards, iterate_batchOf hok (by omega), if_neg (by simp [hplain])]
    exact congrArg some (foldl_add_batchOf (ops.flatMap (guardsOf hash)) (by omega))
  · have hsequence : sequence (batchOf seq (ops ++ ops.flatMap (guardsOf hash))) = seq := by
      rw [sequence, batchOf, take_left' (length_toLE 8 seq), ofLE_toLE]
      exact Nat.mod_eq_of_lt ((Nat.le_of_add_right_le hseq).trans_lt (by decide))
    rw [insertIntoVersion, iterate_batchOf hall (by rw [length_append]; omega), hsequence,
      foldlM_handle hall]
    rfl

theorem insertIntoVersion_logged_put : ∃ rep,
    logged (fun _ => 2 ^ 15 - 1) (add clear (.put [7] [1])) 5 = some rep ∧ insertIntoVersion rep =
      some ([.mem ⟨⟨[7], 5, .kTypeValue⟩, [1]⟩, .guard 6 ⟨[7], 6, .kTypeValue⟩], none) :=
  @insertIntoVersion_logged 5 [.put [7] [1]] (fun _ => 2 ^ 15 - 1) (by decide) (by decide)
    (by simp [BatchOp.Ok, BatchOp.isGuard])

end WriteBatch
end HotTLBApps.PebblesDB
