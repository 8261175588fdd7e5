import Mathlib.Tactic

/-!
# Speedb: a group of batches and its log records (`db/db_impl/db_spdb_impl_write.cc`)

Concurrent writes form a group.  The leader of the group appends the batches of the group to
the log: consecutive batches are merged to one record, and a new record starts where a batch
without logging has left a gap in the sequence numbers.

Records are known by their batches and by the bytes of the file that they take up; how long
they are follows `AddRecord` of `db/log_writer.cc`, and what is in them is left out.  A
compressor, if there is one, tells the sizes of its pieces.
-/

namespace HotTLBApps.Speedb

open List

/-- A batch with its `WriteOptions`.  `SpdbWrite` is called with batches that are not empty,
and not with `sync` when the log is disabled. -/
structure SpdbBatch where
  count : Nat
  /-- The bytes of the batch that go to the log, without its header. -/
  walSize : Nat
  hasMerge : Bool
  disableWAL : Bool
  sync : Bool
  disableMemtable : Bool
  count_pos : 0 < count
  wal_of_sync : sync = true → disableWAL = false
deriving DecidableEq

structure PlacedBatch where
  sequence : Nat
  batch : SpdbBatch
deriving DecidableEq

/-- The sequence number after those of a batch. -/
def PlacedBatch.next (b : PlacedBatch) : Nat :=
  b.sequence + b.batch.count

/-- `WritesBatchList` without its locks; `elementsNum` has 16 bits. -/
structure WritesBatchList where
  walWrites : List PlacedBatch
  elementsNum : Nat
  maxSeq : Nat
  needSync : Bool
  switchWb : Bool
  completeBatch : Bool
deriving DecidableEq

def WritesBatchList.empty : WritesBatchList :=
  { walWrites := []
    elementsNum := 0
    maxSeq := 0
    needSync := false
    switchWb := false
    completeBatch := false }

def maxElementsInBatchGroup : Nat := 16

/-- The log batches of a group after a batch is added. -/
def WritesBatchList.addWal (l : WritesBatchList) (b : PlacedBatch) : List PlacedBatch :=
  if b.batch.disableWAL then l.walWrites else l.walWrites ++ [b]

/-- `WritesBatchList::Add` up to its locks. -/
def WritesBatchList.add (l : WritesBatchList) (b : PlacedBatch) : WritesBatchList :=
  { walWrites := l.addWal b
    elementsNum := (l.elementsNum + 1) % 2 ^ 16
    maxSeq := b.sequence + b.batch.count - 1
    needSync := l.needSync || (b.batch.sync && !(l.addWal b).isEmpty)
    switchWb := l.switchWb || decide ((l.elementsNum + 1) % 2 ^ 16 = maxElementsInBatchGroup)
    completeBatch := l.completeBatch }

/-- Batches get consecutive sequence numbers. -/
def place : Nat → List SpdbBatch → List PlacedBatch
  | _, [] => []
  | first, b :: batches => ⟨first, b⟩ :: place (first + b.count) batches

def groupOf (first : Nat) (batches : List SpdbBatch) : WritesBatchList :=
  (place first batches).foldl WritesBatchList.add .empty

theorem foldl_add_walWrites (bs : List PlacedBatch) (l : WritesBatchList) :
    (bs.foldl WritesBatchList.add l).walWrites =
      l.walWrites ++ bs.filter fun b => !b.batch.disableWAL := by
  induction bs generalizing l with
  | nil => simp
  | cons b bs ih =>
    rw [foldl_cons, ih]
    change l.addWal b ++ _ = _
    unfold WritesBatchList.addWal
    cases hwal : b.batch.disableWAL <;> simp [hwal]

theorem walWrites_groupOf (first : Nat) (batches : List SpdbBatch) :
    (groupOf first batches).walWrites =
      (place first batches).filter fun b => !b.batch.disableWAL := by
  rw [groupOf, foldl_add_walWrites]
  rfl

theorem pairwise_place (first : Nat) (batches : List SpdbBatch) :
    (∀ b ∈ place first batches, first ≤ b.sequence) ∧
      (place first batches).Pairwise fun b b' => b.next ≤ b'.sequence := by
  induction batches generalizing first with
  | nil => simp [place]
  | cons b batches ih =>
    obtain ⟨hfirst, hpairwise⟩ := ih (first + b.count)
    refine ⟨?_, pairwise_cons.mpr ⟨hfirst, hpairwise⟩⟩
    intro b' hb'
    obtain rfl | hb' := mem_cons.mp hb'
    · exact Nat.le_refl first
    · exact (Nat.le_add_right _ _).trans (hfirst b' hb')

def kBlockSize : Nat := 32768

/-- `kHeaderSize` and `kRecyclableHeaderSize`. -/
def headerSize (recycle : Bool) : Nat :=
  if recycle then 11 else 7

/-- The size of the file of a `log::Writer`, and the place in its last block. -/
structure LogFile where
  fileSize : Nat
  blockOffset : Nat
deriving DecidableEq

/-- A block with too little space for a header is filled up. -/
def LogFile.fillBlock (log : LogFile) (header : Nat) : LogFile :=
  if kBlockSize - log.blockOffset < header then
    { fileSize := log.fileSize + (kBlockSize - log.blockOffset)
      blockOffset := 0 }
  else
    log

/-- The space for data after the next header. -/
def LogFile.available (log : LogFile) (header : Nat) : Nat :=
  kBlockSize - (log.fillBlock header).blockOffset - header

/-- `EmitPhysicalRecord`. -/
def LogFile.emit (log : LogFile) (header length : Nat) : LogFile :=
  { fileSize := (log.fillBlock header).fileSize + header + length
    blockOffset := (log.fillBlock header).blockOffset + header + length }

variable (recycle : Bool)

theorem headerSize_bounds
    : 0 < headerSize recycle ∧ headerSize recycle < kBlockSize := by
  cases recycle <;> decide

/-- After a fragment without data the block is full. -/
theorem available_emit_zero {log : LogFile} {recycle : Bool}
    (h : log.available (headerSize recycle) = 0) :
    0 < (log.emit (headerSize recycle) 0).available (headerSize recycle) := by
  have hheader := headerSize_bounds recycle
  have hfull : kBlockSize - (log.emit (headerSize recycle) 0).blockOffset < headerSize recycle := by
    change kBlockSize - ((log.fillBlock _).blockOffset + headerSize recycle + 0) < _
    unfold LogFile.available at h
    omega
  unfold LogFile.available
  rw [LogFile.fillBlock, if_pos hfull]
  change 0 < kBlockSize - 0 - headerSize recycle
  omega

/-- The loop of `AddRecord` over the fragments of a piece of data. -/
def LogFile.addPiece (recycle : Bool) (log : LogFile) (left : Nat) : LogFile :=
  if 0 < left - min left (log.available (headerSize recycle)) then
    addPiece recycle
      (log.emit (headerSize recycle) (min left (log.available (headerSize recycle))))
      (left - min left (log.available (headerSize recycle)))
  else
    log.emit (headerSize recycle) (min left (log.available (headerSize recycle)))
termination_by 2 * left + if log.available (headerSize recycle) = 0 then 1 else 0
decreasing_by
  rename_i hleft
  by_cases hzero : log.available (headerSize recycle) = 0
  · have hnext := available_emit_zero hzero
    rw [hzero, Nat.min_zero, if_pos rfl, if_neg (by omega)]
    omega
  · rw [if_neg hzero]
    split_ifs <;> omega

/-- `AddRecord` for data in some pieces; only the first one may be empty. -/
def LogFile.addRecord (recycle : Bool) (log : LogFile) (pieces : List Nat) : LogFile :=
  (pieces.tail.takeWhile fun piece => decide (0 < piece)).foldl (LogFile.addPiece recycle)
    (log.addPiece recycle (pieces.headD 0))

theorem fileSize_fillBlock (log : LogFile)
    (header : Nat) : log.fileSize ≤ (log.fillBlock header).fileSize := by
  unfold LogFile.fillBlock
  split_ifs
  · exact Nat.le_add_right _ _
  · exact le_rfl

theorem fileSize_lt_addPiece (log : LogFile)
    (left : Nat) : log.fileSize < (log.addPiece recycle left).fileSize := by
  have hemit : ∀ (log : LogFile) (length : Nat),
      log.fileSize < (log.emit (headerSize recycle) length).fileSize := by
    intro log length
    have hheader : 0 < headerSize recycle := by cases recycle <;> decide
    have hfill := fileSize_fillBlock log (headerSize recycle)
    change log.fileSize < (log.fillBlock _).fileSize + headerSize recycle + length
    omega
  fun_induction LogFile.addPiece recycle log left with
  | case1 log left hmore ih => exact (hemit log _).trans ih
  | case2 log left hdone => exact hemit log _

/-- **A record takes up at least one byte.** -/
theorem fileSize_lt_addRecord (log : LogFile)
    (pieces : List Nat) : log.fileSize < (log.addRecord recycle pieces).fileSize := by
  have hfold : ∀ (l : List Nat) (log : LogFile),
      log.fileSize ≤ (l.foldl (LogFile.addPiece recycle) log).fileSize := by
    intro l
    induction l with
    | nil => exact fun log => le_rfl
    | cons piece l ih => exact fun log => (fileSize_lt_addPiece recycle log piece).le.trans (ih _)
  exact (fileSize_lt_addPiece recycle log _).trans_le (hfold _ _)

/-- What the log does: the options of its writer, its compressor, the appends that fail, each
with the bytes it leaves behind and its place in the last block, and whether the sync
succeeds. -/
structure WalEnv where
  recycle : Bool
  manualFlush : Bool
  compress : Option (List PlacedBatch → List Nat)
  failure : Nat → Option (Nat × Nat)
  syncOk : Bool

/-- The pieces of a record: the merged batch with its header, or what the compressor makes
of it. -/
def WalEnv.pieces (env : WalEnv) (record : List PlacedBatch) : List Nat :=
  match env.compress with
  | none => [12 + (record.map fun b => b.batch.walSize).sum]
  | some compress => compress record

/-- An append to the log: the batches of the record, the bytes it takes up, and whether it
succeeded. -/
structure Append where
  record : List PlacedBatch
  start : Nat
  stop : Nat
  ok : Bool

/-- The log while a leader writes: `offset` and `size` are the variables of the leader. -/
structure WalPhase where
  log : LogFile
  offset : Nat
  size : Nat
  appends : List Append

def WalPhase.start (log : LogFile) : WalPhase :=
  { log := log
    offset := 0
    size := 0
    appends := [] }

variable (env : WalEnv)

/-- The log after the next append. -/
def WalPhase.nextLog (p : WalPhase) (record : List PlacedBatch) : LogFile :=
  match env.failure p.appends.length with
  | none => p.log.addRecord env.recycle (env.pieces record)
  | some (bytes, blockOffset) =>
      { fileSize := p.log.fileSize + bytes
        blockOffset := blockOffset }

/-- `SpdbWriteToWAL` with `AddRecordWithStartOffsetAndSize`. -/
def WalPhase.write (p : WalPhase) (record : List PlacedBatch) : WalPhase :=
  { log := p.nextLog env record
    offset := p.log.fileSize
    size := (p.nextLog env record).fileSize - p.log.fileSize + 1
    appends := p.appends ++
      [{ record := record
         start := p.log.fileSize
         stop := (p.nextLog env record).fileSize
         ok := (env.failure p.appends.length).isNone }] }

/-- The loop over the log batches of a group: `merged` is the batch that is being put
together, and `progress` the sequence number that it can be continued with. -/
def writeLoop
    (p : WalPhase) (merged : List PlacedBatch) (progress : Nat) : List PlacedBatch → WalPhase
  | [] => if merged = [] then p else p.write env merged
  | b :: batches =>
      if merged ≠ [] ∧ progress ≠ b.sequence then
        if env.failure p.appends.length = none then
          writeLoop (p.write env merged) [b] b.next batches
        else
          p.write env merged
      else
        writeLoop p (merged ++ [b]) b.next batches

/-- The log part of `SwitchAndWriteBatchGroup`.  A group with one batch is written without
merging, with the same record. -/
def writeGroup (log : LogFile) (group : WritesBatchList) : WalPhase :=
  writeLoop env (.start log) [] 0 group.walWrites

/-- The records, without what happens to them. -/
def splitLoop
    (merged : List PlacedBatch) (progress : Nat) : List PlacedBatch → List (List PlacedBatch)
  | [] => if merged = [] then [] else [merged]
  | b :: batches =>
      if merged ≠ [] ∧ progress ≠ b.sequence then
        merged :: splitLoop [b] b.next batches
      else
        splitLoop (merged ++ [b]) b.next batches

def walRecords (batches : List PlacedBatch) : List (List PlacedBatch) :=
  splitLoop [] 0 batches

def writeAll (p : WalPhase) : List (List PlacedBatch) → WalPhase
  | [] => p
  | record :: records =>
      if env.failure p.appends.length = none then
        writeAll (p.write env record) records
      else
        p.write env record

variable (p : WalPhase)

/-- **The loop of the leader writes the records one after another.** -/
theorem writeLoop_eq (merged : List PlacedBatch) (progress : Nat)
    (batches : List PlacedBatch) : writeLoop env p merged progress batches =
      writeAll env p (splitLoop merged progress batches) := by
  induction batches generalizing p merged progress with
  | nil =>
    rw [writeLoop, splitLoop]
    split_ifs
    · rfl
    · rw [writeAll, writeAll, ite_self]
  | cons b batches ih =>
    rw [writeLoop, splitLoop]
    split_ifs with hgap hok
    · rw [writeAll, if_pos hok, ih]
    · rw [writeAll, if_neg hok]
    · exact ih _ _ _

theorem writeGroup_eq (log : LogFile) (group : WritesBatchList) :
    writeGroup env log group = writeAll env (.start log) (walRecords group.walWrites) :=
  writeLoop_eq env _ _ _ _

/-- Batches without a gap. -/
def Consecutive (batches : List PlacedBatch) : Prop :=
  batches.IsChain fun b b' => b.next = b'.sequence

theorem flatten_splitLoop (merged : List PlacedBatch) (progress : Nat)
    (batches : List PlacedBatch) :
    (splitLoop merged progress batches).flatten = merged ++ batches := by
  induction batches generalizing merged progress with
  | nil =>
    rw [splitLoop]
    split_ifs with hnil
    · simp [hnil]
    · simp
  | cons b batches ih =>
    rw [splitLoop]
    split_ifs
    · rw [flatten_cons, ih]
      rfl
    · rw [ih]
      simp

/-- Every log batch is in one record, in order. -/
theorem flatten_walRecords (batches : List PlacedBatch) : (walRecords batches).flatten = batches :=
  flatten_splitLoop [] 0 batches

variable {merged : List PlacedBatch}

/-- What is left to be split is one record exactly if it has no gap. -/
theorem length_splitLoop_le_one_iff (hne : merged ≠ []) (progress : Nat)
    (batches : List PlacedBatch) : (splitLoop merged progress batches).length ≤ 1 ↔
      (∀ b ∈ batches.head?, progress = b.sequence) ∧ Consecutive batches := by
  induction batches generalizing merged progress with
  | nil =>
    rw [splitLoop, if_neg hne]
    simp [Consecutive]
  | cons b batches ih =>
    have hne' : (merged ++ [b]) ≠ [] := by simp
    rw [splitLoop]
    split_ifs with hgap
    · -- after a gap comes another record
      have hmore : splitLoop [b] b.next batches ≠ [] := by
        intro hnil
        have hflat := flatten_splitLoop [b] b.next batches
        rw [hnil] at hflat
        cases hflat
      have hlength := length_pos_of_ne_nil hmore
      constructor
      · intro hle
        rw [length_cons] at hle
        omega
      · rintro ⟨hhead, -⟩
        exact absurd (hhead b rfl) hgap.2
    · have hprogress : progress = b.sequence := by
        by_contra h
        exact hgap ⟨hne, h⟩
      rw [ih hne']
      cases batches with
      | nil => simp [Consecutive, hprogress]
      | cons b' batches => simp [Consecutive, hprogress, isChain_cons_cons]

/-- **There is at most one record exactly if there is no gap.** -/
theorem length_walRecords_le_one_iff (batches : List PlacedBatch) :
    (walRecords batches).length ≤ 1 ↔ Consecutive batches := by
  cases batches with
  | nil => simp [walRecords, splitLoop, Consecutive]
  | cons b batches =>
    have hstart : walRecords (b :: batches) = splitLoop [b] b.next batches := by
      rw [walRecords, splitLoop, if_neg (by simp)]
      rfl
    rw [hstart, length_splitLoop_le_one_iff (by simp)]
    cases batches with
    | nil => simp [Consecutive]
    | cons b' batches => simp [Consecutive, isChain_cons_cons]

theorem ne_nil_of_mem_splitLoop {progress : Nat} {batches record : List PlacedBatch}
    (h : record ∈ splitLoop merged progress batches) : record ≠ [] := by
  induction batches generalizing merged progress with
  | nil =>
    rw [splitLoop] at h
    split_ifs at h with hnil
    · cases h
    · rw [mem_singleton.mp h]
      exact hnil
  | cons b batches ih =>
    rw [splitLoop] at h
    split_ifs at h with hgap
    · obtain rfl | h := mem_cons.mp h
      · exact hgap.1
      · exact ih h
    · exact ih h

theorem fileSize_lt_write {p : WalPhase} (hok : env.failure p.appends.length = none)
    (record : List PlacedBatch) : p.log.fileSize < (p.write env record).log.fileSize := by
  change _ < (p.nextLog env record).fileSize
  unfold WalPhase.nextLog
  rw [hok]
  exact fileSize_lt_addRecord _ _ _

/-- **What a leader has done**: earlier appends are kept, and what is written after them starts
behind them. -/
theorem writeAll_spec (records : List (List PlacedBatch)) :
    p.appends <+: (writeAll env p records).appends ∧
      p.log.fileSize ≤ (writeAll env p records).log.fileSize ∧
      (records ≠ [] → p.log.fileSize ≤ (writeAll env p records).offset) := by
  induction records generalizing p with
  | nil => exact ⟨prefix_refl _, le_rfl, fun h => absurd rfl h⟩
  | cons record records ih =>
    have hkept : p.appends <+: (p.write env record).appends := prefix_append _ _
    -- an append that is made takes up the bytes after those before it
    have hsize : p.log.fileSize ≤ (p.write env record).log.fileSize := by
      change _ ≤ (p.nextLog env record).fileSize
      unfold WalPhase.nextLog
      split
      · exact (fileSize_lt_addRecord _ _ _).le
      · exact Nat.le_add_right _ _
    rw [writeAll]
    split_ifs with hok
    · obtain ⟨happends, hlog, hoffset⟩ := ih (p.write env record)
      refine ⟨hkept.trans happends, hsize.trans hlog, fun _ => ?_⟩
      cases records with
      | nil => exact le_rfl
      | cons record' records => exact hsize.trans (hoffset (by simp))
    · exact ⟨hkept, hsize, fun _ => le_rfl⟩

end HotTLBApps.Speedb
