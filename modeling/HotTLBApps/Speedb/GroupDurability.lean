import HotTLBApps.Speedb.WriteGroup

/-!
# Speedb: what a leader syncs, and what it reports (`db/db_impl/db_spdb_impl_write.cc`)

When a batch of the group has asked for it, the leader syncs the range of the file that
`offset` and `size` tell.  They are set by every append, so that they tell the place of the
last record of the group.  The status of an append is logged and not handed on, and the one
of the sync is not looked at: every call returns the status of its own insertion into the
memtable, and the sequence numbers of the group are published.
-/

namespace HotTLBApps.Speedb

open List Option WalPhase

/-- What `Writer::SyncRange` syncs. -/
inductive SyncCall
  | range (offset size : Nat)
  | whole
deriving DecidableEq

/-- `Writer::SyncRange` at the end of the log part. -/
def syncRange (env : WalEnv) (p : WalPhase) : SyncCall :=
  if env.manualFlush then .whole else .range p.offset p.size

/-- A byte is synced. -/
def SyncCall.Covers : SyncCall → Nat → Prop
  | .range offset size, x => offset ≤ x ∧ x < offset + size
  | .whole, _ => True

/-- Every byte of a record is synced. -/
def SyncCall.CoversAppend (call : SyncCall) (a : Append) : Prop :=
  ∀ x, a.start ≤ x → x < a.stop → call.Covers x

/-- The loop of `PublishedSeq`: the groups at the front that are complete are popped. -/
def publishedSeqLoop : List WritesBatchList → Nat → List WritesBatchList × Nat
  | [], published => ([], published)
  | l :: lists, published =>
      if l.completeBatch then publishedSeqLoop lists l.maxSeq else (l :: lists, published)

/-- The last sequence that is published after `PublishedSeq`. -/
def publishedSeq (lastSequence : Nat) (lists : List WritesBatchList) : Nat :=
  if (publishedSeqLoop lists 0).2 ≠ 0 then (publishedSeqLoop lists 0).2 else lastSequence

/-- The last sequence that is published when the leader of the first group is done. -/
def publishedAfter (lastSequence : Nat) (group : WritesBatchList) : Nat :=
  publishedSeq lastSequence [{ group with completeBatch := true }, .empty]

inductive Status
  | ok
  | error
deriving DecidableEq

/-- What `SpdbWrite` returns: the status of the insertion into the memtable. -/
def spdbWriteStatus (insertInto : PlacedBatch → Status) (b : PlacedBatch) : Status :=
  if b.batch.disableMemtable then .ok else insertInto b

/-- What a call asks for: the batch is in the log unless it is not to be logged, and it is
synced if the call says so. -/
structure Durable (env : WalEnv) (p : WalPhase) (b : PlacedBatch) : Prop where
  appended : b.batch.disableWAL = false → ∃ a ∈ p.appends, a.ok = true ∧ b ∈ a.record
  synced : b.batch.sync = true → env.syncOk = true ∧
    ∃ a ∈ p.appends, a.ok = true ∧ b ∈ a.record ∧ (syncRange env p).CoversAppend a

/-- Every call of the group that is not durable returns an error, and its sequence number is
not published. -/
def ErrorsReported
    (env : WalEnv) (log : LogFile) (insertInto : PlacedBatch → Status) (lastSequence first : Nat)
    (batches : List SpdbBatch) : Prop :=
  ∀ b ∈ place first batches, ¬ Durable env (writeGroup env log (groupOf first batches)) b →
    spdbWriteStatus insertInto b ≠ .ok ∧
      ¬ b.sequence ≤ publishedAfter lastSequence (groupOf first batches)

variable (env : WalEnv)

/-- **The synced range covers all records of the group exactly if there is one record**, or if
not even the first one was written. -/
theorem syncRange_covers_iff
    (hmanual : env.manualFlush = false)
    (log : LogFile)
    (first : Nat)
    (batches : List SpdbBatch) :
    (∀ a ∈ (writeGroup env log (groupOf first batches)).appends, a.ok = true →
        (syncRange env (writeGroup env log (groupOf first batches))).CoversAppend a) ↔
      Consecutive (groupOf first batches).walWrites ∨ env.failure 0 ≠ none := by
  rw [← length_walRecords_le_one_iff, writeGroup_eq]
  generalize walRecords (groupOf first batches).walWrites = records
  unfold syncRange
  rw [if_neg (by simp [hmanual])]
  cases records with
  | nil => simp [writeAll, start]
  | cons record records =>
    rw [writeAll]
    by_cases hok : env.failure (start log).appends.length = none
    · have hok' : env.failure 0 = none := hok
      rw [if_pos hok]
      have hlog := fileSize_lt_write env hok record
      cases records with
      | nil =>
        -- the range goes one byte beyond the record
        simp only [hok', ne_eq, not_true_eq_false, or_false, length_cons, length_nil,
          Nat.zero_add, Nat.le_refl, iff_true]
        intro a ha _ x hstart hstop
        obtain rfl := mem_singleton.mp ha
        refine ⟨hstart, ?_⟩
        change x < log.fileSize + ((nextLog env _ record).fileSize - log.fileSize + 1)
        change x < (nextLog env _ record).fileSize at hstop
        omega
      | cons record' records =>
        -- the first record lies before the range
        obtain ⟨⟨later, hlater⟩, -, hoffset⟩ := writeAll_spec env
          ((start log).write env record) (record' :: records)
        have hafter := hoffset (by simp)
        simp only [hok', ne_eq, not_true_eq_false, or_false, length_cons]
        refine iff_of_false ?_ (by omega)
        intro hcovers
        have hfirst := hcovers
          ⟨record, log.fileSize, ((start log).nextLog env record).fileSize,
            (env.failure 0).isNone⟩ (hlater ▸ mem_append_left _ mem_cons_self)
          (by simp [hok']) log.fileSize le_rfl hlog
        exact absurd hfirst.1 (not_le.mpr (hlog.trans_le hafter))
    · rw [if_neg hok]
      refine iff_of_true ?_ (.inr hok)
      intro a ha hfine
      obtain rfl := mem_singleton.mp ha
      have hnone : (env.failure 0).isNone = true := hfine
      exact absurd (isNone_iff_eq_none.mp hnone) hok

def walBatch (sync : Bool) : SpdbBatch :=
  { count := 1
    walSize := 20
    hasMerge := false
    disableWAL := false
    sync := sync
    disableMemtable := false
    count_pos := Nat.zero_lt_one
    wal_of_sync := fun _ => rfl }

def memoryBatch : SpdbBatch :=
  { walBatch false with
    disableWAL := true
    wal_of_sync := nofun }

def plainWal : WalEnv :=
  { recycle := false
    manualFlush := false
    compress := none
    failure := fun _ => none
    syncOk := true }

/-- A group without a gap. -/
theorem syncRange_covers_iff_noGap :
    Consecutive (groupOf 1 [walBatch true, walBatch false, memoryBatch]).walWrites ∧
      ∀ a ∈ (writeGroup plainWal ⟨0, 0⟩
          (groupOf 1 [walBatch true, walBatch false, memoryBatch])).appends, a.ok = true →
        (syncRange plainWal (writeGroup plainWal ⟨0, 0⟩
          (groupOf 1 [walBatch true, walBatch false, memoryBatch]))).CoversAppend a := by
  have hgap : Consecutive (groupOf 1 [walBatch true, walBatch false, memoryBatch]).walWrites := by
    unfold Consecutive
    decide
  exact ⟨hgap, (syncRange_covers_iff plainWal rfl ⟨0, 0⟩ 1 _).mpr (.inl hgap)⟩

/-- **The first record of a group is not synced.**  A batch that is not logged lies between
two that are, and one of these asks for a sync. -/
theorem not_syncRange_covers_gap :
    (groupOf 1 [walBatch true, memoryBatch, walBatch false]).needSync = true ∧
      ∃ a ∈ (writeGroup plainWal ⟨0, 0⟩
          (groupOf 1 [walBatch true, memoryBatch, walBatch false])).appends, a.ok = true ∧
        ¬ (syncRange plainWal (writeGroup plainWal ⟨0, 0⟩
          (groupOf 1 [walBatch true, memoryBatch, walBatch false]))).CoversAppend a := by
  have hrecords : walRecords (groupOf 1 [walBatch true, memoryBatch, walBatch false]).walWrites =
      [[⟨1, walBatch true⟩], [⟨3, walBatch false⟩]] := by decide
  refine ⟨by decide, ?_⟩
  rw [writeGroup_eq, hrecords]
  obtain ⟨⟨later, hlater⟩, -, hoffset⟩ := writeAll_spec plainWal
    ((start ⟨0, 0⟩).write plainWal [⟨1, walBatch true⟩]) [[⟨3, walBatch false⟩]]
  have hlog : (start ⟨0, 0⟩).log.fileSize <
      ((start ⟨0, 0⟩).write plainWal [⟨1, walBatch true⟩]).log.fileSize :=
    fileSize_lt_write plainWal rfl _
  refine ⟨_, hlater ▸ mem_append_left _ mem_cons_self, rfl, ?_⟩
  intro hcovers
  have hfirst := hcovers 0 le_rfl hlog
  exact absurd hfirst.1 (not_le.mpr (hlog.trans_le (hoffset (by simp))))

/-- The records that were written. -/
def WalPhase.written (p : WalPhase) : List (List PlacedBatch) :=
  (p.appends.filter (·.ok)).map (·.record)

variable {p : WalPhase} {b : PlacedBatch}

theorem mem_written : (∃ a ∈ p.appends, a.ok = true ∧ b ∈ a.record) ↔ b ∈ p.written.flatten := by
  simp only [written, List.mem_flatten, List.mem_map, List.mem_filter]
  constructor
  · rintro ⟨a, ha, hok, hb⟩
    exact ⟨a.record, ⟨a, ⟨ha, hok⟩, rfl⟩, hb⟩
  · rintro ⟨_, ⟨a, ⟨ha, hok⟩, rfl⟩, hb⟩
    exact ⟨a, ha, hok, hb⟩

theorem written_write (p : WalPhase) (record : List PlacedBatch) : (p.write env record).written =
      if env.failure p.appends.length = none then p.written ++ [record] else p.written := by
  change ((p.appends ++ [_]).filter _).map _ = _
  rw [filter_append, map_append]
  cases hfailure : env.failure p.appends.length <;> simp [written]

/-- **Records are written up to the first failure.** -/
theorem written_writeAll (p : WalPhase) (records : List (List PlacedBatch)) :
    ∃ m, (writeAll env p records).written = p.written ++ records.take m ∧
      ((∀ k < records.length, env.failure (p.appends.length + k) = none) ↔ records.length ≤ m) := by
  induction records generalizing p with
  | nil => exact ⟨0, by simp [writeAll], by simp⟩
  | cons record records ih =>
    have hlength : (p.write env record).appends.length = p.appends.length + 1 := by
      simp [write]
    rw [writeAll]
    split_ifs with hok
    · obtain ⟨m, hwritten, hiff⟩ := ih (p.write env record)
      refine ⟨m + 1, ?_, ?_⟩
      · rw [hwritten, written_write, if_pos hok]
        simp
      · rw [length_cons, Nat.add_le_add_iff_right, ← hiff, hlength]
        constructor
        · intro h k hk
          have := h (k + 1) (by omega)
          rwa [← Nat.add_assoc, Nat.add_right_comm] at this
        · intro h k hk
          cases k with
          | zero => exact hok
          | succ k =>
            have := h k (by omega)
            rwa [Nat.add_right_comm, Nat.add_assoc] at this
    · refine ⟨0, ?_, ?_⟩
      · rw [written_write, if_neg hok]
        simp
      · refine iff_of_false (fun h => hok ?_) (by simp)
        exact h 0 (by simp)

variable {records : List (List PlacedBatch)}

/-- **A leader whose appends succeed** syncs the place of the last record; the records before
it lie before the range. -/
theorem writeAll_of_ok (hne : records ≠ [])
    (hok : ∀ k < records.length, env.failure (p.appends.length + k) = none) :
    ∃ front last, (writeAll env p records).appends = p.appends ++ front ++ [last] ∧
      front.map (·.record) ++ [last.record] = records ∧
      (∀ a ∈ front, a.start < a.stop ∧ a.start < (writeAll env p records).offset) ∧
      last.ok = true ∧ last.start = (writeAll env p records).offset ∧
      last.stop < (writeAll env p records).offset + (writeAll env p records).size := by
  induction records generalizing p with
  | nil => exact absurd rfl hne
  | cons record records ih =>
    have hfirst : env.failure p.appends.length = none := hok 0 (by simp)
    have hgrows := fileSize_lt_write env hfirst record
    rw [writeAll, if_pos hfirst]
    cases records with
    | nil =>
      refine ⟨[], ⟨record, p.log.fileSize, (p.nextLog env record).fileSize, true⟩, ?_, rfl,
        by simp, rfl, rfl, ?_⟩
      · simp [writeAll, write, hfirst]
      · change (p.nextLog env record).fileSize < p.log.fileSize + (_ - p.log.fileSize + 1)
        omega
    | cons record' records =>
      have hlength : (p.write env record).appends.length = p.appends.length + 1 := by
        simp [write]
      have hrest : ∀ k < (record' :: records).length,
          env.failure ((p.write env record).appends.length + k) = none := by
        intro k hk
        have := hok (k + 1) (by simpa using hk)
        rwa [hlength, Nat.add_right_comm, Nat.add_assoc]
      obtain ⟨front, last, happends, hrecords, hfront, hlast⟩ := ih (by simp) hrest
      refine ⟨⟨record, p.log.fileSize, (p.nextLog env record).fileSize, true⟩ :: front, last,
        ?_, ?_, ?_, hlast⟩
      · rw [happends]
        simp [write, hfirst]
      · rw [← hrecords]
        rfl
      · intro a ha
        obtain rfl | ha := mem_cons.mp ha
        · refine ⟨hgrows, hgrows.trans_le ?_⟩
          exact (writeAll_spec env (p.write env record) _).2.2 (by simp)
        · exact hfront a ha

variable {batches : List SpdbBatch}

/-- The sequence numbers of a group are published, whatever has happened to its records. -/
theorem le_publishedAfter {lastAllocated lastSequence : Nat}
    (hb : b ∈ place (lastAllocated + 1) batches) :
    b.sequence ≤ publishedAfter lastSequence (groupOf (lastAllocated + 1) batches) := by
  have hmax : ∀ (bs : List PlacedBatch) (l : WritesBatchList),
      bs.Pairwise (fun b b' => b.next ≤ b'.sequence) → ∀ b ∈ bs,
        b.sequence ≤ (bs.foldl WritesBatchList.add l).maxSeq := by
    intro bs l hpairwise
    induction bs using reverseRecOn with
    | nil => simp
    | append_singleton bs b' ih =>
      obtain ⟨hfront, -, hlast⟩ := pairwise_append.mp hpairwise
      have hcount := b'.batch.count_pos
      intro b hb
      rw [foldl_append]
      change b.sequence ≤ b'.sequence + b'.batch.count - 1
      obtain hb | hb := mem_append.mp hb
      · have hle := hlast b hb b' (mem_singleton_self b')
        have hpos := b.batch.count_pos
        unfold PlacedBatch.next at hle
        omega
      · rw [mem_singleton.mp hb]
        omega
  obtain ⟨hfirst, hpairwise⟩ := pairwise_place (lastAllocated + 1) batches
  have hle : b.sequence ≤ (groupOf (lastAllocated + 1) batches).maxSeq :=
    hmax _ _ hpairwise b hb
  have hpos := hfirst b hb
  have hne : (groupOf (lastAllocated + 1) batches).maxSeq ≠ 0 := by omega
  exact hle.trans_eq (if_pos hne).symm

theorem mem_walWrites_groupOf {first : Nat} : b ∈ (groupOf first batches).walWrites ↔
      b ∈ place first batches ∧ b.batch.disableWAL = false := by
  rw [walWrites_groupOf, mem_filter]
  simp

/-- **All log batches are in the log exactly if no append fails.** -/
theorem written_iff (log : LogFile) (first : Nat) (batches : List SpdbBatch) :
    (∀ b ∈ (groupOf first batches).walWrites,
        b ∈ (writeGroup env log (groupOf first batches)).written.flatten) ↔
      ∀ k < (walRecords (groupOf first batches).walWrites).length, env.failure k = none := by
  have hnodup : (groupOf first batches).walWrites.Nodup := by
    rw [walWrites_groupOf]
    refine Nodup.filter _ ((pairwise_place first batches).2.imp ?_)
    rintro b _ hle rfl
    have := b.batch.count_pos
    unfold PlacedBatch.next at hle
    omega
  rw [writeGroup_eq]
  generalize (groupOf first batches).walWrites = wal at hnodup ⊢
  have hflat := flatten_walRecords wal
  have hrecord : ∀ record ∈ walRecords wal, record ≠ [] := fun _ h => ne_nil_of_mem_splitLoop h
  generalize walRecords wal = records at hflat hrecord ⊢
  obtain ⟨m, hwritten, hiff⟩ := written_writeAll env (.start log) records
  have hstart : (start log).written = [] := rfl
  rw [hstart, nil_append] at hwritten
  have hiff' : (∀ k < records.length, env.failure k = none) ↔ records.length ≤ m := by
    rw [← hiff]
    simp [start]
  rw [hwritten, hiff']
  constructor
  · intro hall
    by_contra hlt
    -- a batch of the record that failed is in no other record
    have hm : m < records.length := not_le.mp hlt
    have hget : records.drop m = records[m] :: records.drop (m + 1) :=
      drop_eq_getElem_cons hm
    obtain ⟨b, hb⟩ := exists_mem_of_ne_nil _ (hrecord _ (getElem_mem hm))
    have hlate : b ∈ (records.drop m).flatten := by
      rw [hget]
      exact mem_append_left _ hb
    have hsplit : (records.take m).flatten ++ (records.drop m).flatten = wal := by
      rw [← flatten_append, take_append_drop, hflat]
    have hearly := hall b (hsplit ▸ mem_append_right _ hlate)
    rw [← hsplit] at hnodup
    exact (nodup_append.mp hnodup).2.2 b hearly b hlate rfl
  · intro hle b hb
    rw [take_of_length_le hle, hflat]
    exact hb

/-- A range that starts with the last record covers this record only. -/
theorem coversAppend_iff (hmanual : env.manualFlush = false) {log : LogFile} (hne : records ≠ [])
    (hok : ∀ k < records.length, env.failure k = none) :
    (∃ a ∈ (writeAll env (.start log) records).appends, a.ok = true ∧ b ∈ a.record ∧
        (syncRange env (writeAll env (.start log) records)).CoversAppend a) ↔
      ∃ record ∈ records.getLast?, b ∈ record := by
  obtain ⟨front, last, happends, hrecords, hfront, hlastok, hstart, hstop⟩ :=
    writeAll_of_ok env (p := .start log) hne (by simpa [start] using hok)
  have hlast : records.getLast? = some last.record := by rw [← hrecords, getLast?_concat]
  have hrange : syncRange env (writeAll env (.start log) records) =
      .range (writeAll env (.start log) records).offset
        (writeAll env (.start log) records).size := by
    rw [syncRange, if_neg (by simp [hmanual])]
  rw [hrange, hlast]
  constructor
  · rintro ⟨a, ha, -, hb, hcovers⟩
    rw [happends, append_assoc] at ha
    obtain ha | ha := mem_append.mp (mem_append.mp ha |>.resolve_left not_mem_nil)
    · -- a record before the last one starts before the range
      obtain ⟨hpos, hbefore⟩ := hfront a ha
      exact absurd (hcovers a.start le_rfl hpos).1 (not_le.mpr hbefore)
    · rw [mem_singleton.mp ha] at hb
      exact ⟨last.record, rfl, hb⟩
  · rintro ⟨_, ⟨rfl⟩, hb⟩
    refine ⟨last, ?_, hlastok, hb, ?_⟩
    · rw [happends]
      exact mem_append_right _ (mem_singleton_self last)
    · intro x hlow hhigh
      exact ⟨hstart ▸ hlow, hhigh.trans hstop⟩

/-- All calls of a group are durable exactly if no append fails, and a sync that was asked for
succeeds and covers the batches that asked for it. -/
theorem durable_iff (log : LogFile) (first : Nat) (batches : List SpdbBatch) :
    (∀ b ∈ place first batches, Durable env (writeGroup env log (groupOf first batches)) b) ↔
      (∀ k < (walRecords (groupOf first batches).walWrites).length, env.failure k = none) ∧
        ∀ b ∈ (groupOf first batches).walWrites, b.batch.sync = true → env.syncOk = true ∧
          (env.manualFlush = true ∨
            ∃ record ∈ (walRecords (groupOf first batches).walWrites).getLast?, b ∈ record) := by
  -- the records of a group with a log batch
  have hrecords : ∀ b ∈ (groupOf first batches).walWrites,
      walRecords (groupOf first batches).walWrites ≠ [] := by
    intro b hb hnil
    have hflat := flatten_walRecords (groupOf first batches).walWrites
    rw [hnil] at hflat
    rw [← hflat] at hb
    cases hb
  constructor
  · intro hall
    have hok := (written_iff env log first batches).mp fun b hb => mem_written.mp <|
      (hall b (mem_walWrites_groupOf.mp hb).1).appended (mem_walWrites_groupOf.mp hb).2
    refine ⟨hok, ?_⟩
    intro b hb hsync
    obtain ⟨hsyncOk, hcovered⟩ := (hall b (mem_walWrites_groupOf.mp hb).1).synced hsync
    refine ⟨hsyncOk, ?_⟩
    cases hmanual : env.manualFlush with
    | true => exact .inl rfl
    | false =>
      rw [writeGroup_eq] at hcovered
      exact .inr ((coversAppend_iff env hmanual (hrecords b hb) hok).mp hcovered)
  · rintro ⟨hok, hsynced⟩ b hb
    have happended : b.batch.disableWAL = false →
        ∃ a ∈ (writeGroup env log (groupOf first batches)).appends, a.ok = true ∧ b ∈ a.record :=
      fun hwal => mem_written.mpr
        ((written_iff env log first batches).mpr hok b (mem_walWrites_groupOf.mpr ⟨hb, hwal⟩))
    refine ⟨happended, ?_⟩
    intro hsync
    have hwal := b.batch.wal_of_sync hsync
    have hbwal := mem_walWrites_groupOf.mpr ⟨hb, hwal⟩
    obtain ⟨hsyncOk, hcase⟩ := hsynced b hbwal hsync
    refine ⟨hsyncOk, ?_⟩
    cases hmanual : env.manualFlush with
    | true =>
      obtain ⟨a, ha, haok, hba⟩ := happended hwal
      refine ⟨a, ha, haok, hba, ?_⟩
      unfold syncRange
      rw [if_pos hmanual]
      exact fun _ _ _ => trivial
    | false =>
      rw [writeGroup_eq]
      refine (coversAppend_iff env hmanual (hrecords b hbwal) hok).mpr ?_
      exact hcase.resolve_left (by simp [hmanual])

/-- **Every call that is not durable reports it exactly if all of them are durable**: when no
append of the group fails, and a sync that was asked for succeeds and the batches that asked
for it are in the last record of the group. -/
theorem errors_reported_iff
    (log : LogFile)
    (insertInto : PlacedBatch → Status)
    (lastSequence lastAllocated : Nat)
    (batches : List SpdbBatch) :
    ErrorsReported env log insertInto lastSequence (lastAllocated + 1) batches ↔
      (∀ k < (walRecords (groupOf (lastAllocated + 1) batches).walWrites).length,
          env.failure k = none) ∧
        ∀ b ∈ (groupOf (lastAllocated + 1) batches).walWrites, b.batch.sync = true →
          env.syncOk = true ∧ (env.manualFlush = true ∨ ∃ record ∈
            (walRecords (groupOf (lastAllocated + 1) batches).walWrites).getLast?, b ∈ record) := by
  rw [← durable_iff env log]
  constructor
  · intro hreported b hb
    by_contra hnot
    exact (hreported b hb hnot).2 (le_publishedAfter hb)
  · intro hall b hb hnot
    exact absurd (hall b hb) hnot

def brokenWal : WalEnv :=
  { plainWal with failure := fun _ => some (0, 0) }

/-- **A failed append is not reported.**  The call returns the status of its insertion into the
memtable, and its sequence number is published. -/
theorem not_errors_reported_brokenWal :
    ¬ ErrorsReported brokenWal ⟨0, 0⟩ (fun _ => .ok) 0 1 [walBatch false] := by
  intro hreported
  have hmem : (⟨1, walBatch false⟩ : PlacedBatch) ∈ place 1 [walBatch false] :=
    mem_cons_self
  refine (hreported _ hmem ?_).2 (le_publishedAfter hmem)
  intro hdurable
  have hall : ∀ b ∈ (groupOf 1 [walBatch false]).walWrites,
      b ∈ (writeGroup brokenWal ⟨0, 0⟩ (groupOf 1 [walBatch false])).written.flatten := by
    intro b hb
    have hwrites : (groupOf 1 [walBatch false]).walWrites = [⟨1, walBatch false⟩] := by decide
    rw [hwrites] at hb
    rw [mem_singleton.mp hb]
    exact mem_written.mp (hdurable.appended rfl)
  have hnone := (written_iff brokenWal ⟨0, 0⟩ 1 [walBatch false]).mp hall 0 (by decide)
  cases hnone

end HotTLBApps.Speedb
