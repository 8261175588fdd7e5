import HotTLBApps.PebblesDB.LogLayout

/-!
# PebblesDB: what the log writer puts into the file

`addRecord` reserves a byte range in closed form and then writes the fragments
of the record on its own account.  This module computes both sides; the reserved range ends
seven bytes too late whenever the last fragment of a fragmented record fills its block exactly
(`GapAfter`).
-/

namespace HotTLBApps.PebblesDB
namespace Log

open List Option

/-- The offset after a record of `n` bytes placed at `offset`. -/
def recordEnd (offset n : Nat) : Nat :=
  let start := startOf offset
  let left := room start
  if kHeaderSize + n ≤ left then
    start + kHeaderSize + n
  else
    let rest := kHeaderSize + n - left
    start + left + (rest - 1) / perBlock * kBlockSize + kHeaderSize + (rest - 1) % perBlock + 1

/-- The last fragment of the record is not its first one and fills its block. -/
def GapAfter (offset n : Nat) : Prop :=
  room (startOf offset) < kHeaderSize + n ∧
    (kHeaderSize + n - room (startOf offset)) % perBlock = 0

instance (offset n : Nat) : Decidable (GapAfter offset n) := by
  unfold GapAfter
  infer_instance

/-- The bytes between the end of a record and the end of its reserved range. -/
def gapSize (offset n : Nat) : Nat :=
  if GapAfter offset n then kHeaderSize else 0

/-- The offset of the next record, as long as no offset is truncated. -/
def nextOffset (offset n : Nat) : Nat :=
  recordEnd offset n + gapSize offset n

/-- The start of the record is rounded up to a block boundary that has more than
32 bits, so that the mask of `roundupStart` truncates it. -/
def Truncates (offset : Nat) : Prop :=
  room offset < kHeaderSize ∧ 2 ^ 32 ≤ offset + room offset

/-- The assertion of `computeRecordSize` holds or is not reached. -/
def AssertionHolds (ndebug : Bool) (offset n : Nat) : Prop :=
  ndebug = true ∨ kHeaderSize + n ≤ room (roundupStart offset) ∨
    roundupStart offset + room (roundupStart offset) < 2 ^ 32

theorem le_startOf (offset : Nat) : offset ≤ startOf offset := by
  unfold startOf
  split <;> omega

theorem lt_recordEnd (offset n : Nat) : startOf offset + kHeaderSize ≤ recordEnd offset n := by
  simp only [recordEnd]
  split <;> omega

theorem size_recordChunks (offset : Nat) (data : List UInt8) :
    offset + size (recordChunks offset data) = recordEnd offset data.length := by
  have hroom := kHeaderSize_le_room_startOf offset
  rw [recordChunks, size_append, ← Nat.add_assoc, size_trailerChunks]
  simp only [startedChunks, recordEnd]
  split
  · simp only [size_cons, size_nil, Chunk.size]
    omega
  · have hlen : (data.drop (room (startOf offset) - kHeaderSize)).length =
        kHeaderSize + data.length - room (startOf offset) := by
      rw [length_drop]
      omega
    rw [size_cons, size_restChunks _ (ne_nil_of_length_pos (by omega)), hlen]
    simp only [Chunk.size, length_take, perBlock, kBlockSize, kHeaderSize] at *
    omega

variable {offset n : Nat}

theorem blockOffset_room (offset : Nat) : kBlockSize - blockOffset offset = room offset := by
  rw [blockOffset_eq, room_eq]
  rfl

/-- Without a truncation the record starts where its first header goes. -/
theorem roundupStart_eq (h : ¬ Truncates offset) : roundupStart offset = startOf offset := by
  unfold roundupStart startOf
  rw [blockOffset_room]
  split
  · rename_i hlt
    have hsmall : offset + room offset < 2 ^ 32 := by
      by_contra hge
      exact h ⟨hlt, by omega⟩
    rw [u64_of_lt (by simp only [kHeaderSize] at *; omega), and_blockMask]
    simp only [room_eq, kHeaderSize] at *
    omega
  · rfl

theorem le_recordEnd (offset n : Nat) : kHeaderSize + n ≤ recordEnd offset n := by
  rw [recordEnd]
  split_ifs with hfits
  · omega
  · simp only [perBlock, kBlockSize, kHeaderSize] at *
    omega

/-- The closed form of `computeRecordSize` counts a header for every block that
is begun, and one more when the last block is full. -/
theorem nextOffset_of_fragmented (h : ¬ kHeaderSize + n ≤ room (startOf offset)) :
    nextOffset offset n = startOf offset + room (startOf offset) +
        (kHeaderSize + n - room (startOf offset)) / perBlock * kBlockSize + kHeaderSize +
          (kHeaderSize + n - room (startOf offset)) % perBlock := by
  simp only [nextOffset, recordEnd, gapSize, if_neg h]
  generalize hrest : kHeaderSize + n - room (startOf offset) = rest
  by_cases hgap : rest % perBlock = 0
  · rw [if_pos ⟨by omega, by rw [hrest]; exact hgap⟩]
    simp only [perBlock, kBlockSize, kHeaderSize] at *
    omega
  · rw [if_neg (fun hg => hgap (by rw [← hrest]; exact hg.2))]
    simp only [perBlock, kBlockSize, kHeaderSize] at *
    omega

theorem roundupStart_of_truncates (h : offset + kHeaderSize < 2 ^ 64) (htrunc : Truncates offset) :
    roundupStart offset = (offset + kHeaderSize) % 2 ^ 32 / 32768 * 32768 ∧
      startOf offset = offset + room offset := by
  rw [roundupStart, startOf, blockOffset_room, if_pos htrunc.1, u64_of_lt h, and_blockMask]
  exact ⟨rfl, if_pos htrunc.1⟩

/-- A truncated start is still a block boundary, at or below the real one. -/
theorem roundupStart_le (h : offset + kHeaderSize < 2 ^ 64) : roundupStart offset ≤ startOf offset ∧
      room (roundupStart offset) = room (startOf offset) := by
  by_cases htrunc : Truncates offset
  · obtain ⟨hround, hstart⟩ := roundupStart_of_truncates h htrunc
    rw [hround, hstart]
    simp only [room_eq, kHeaderSize] at *
    omega
  · rw [roundupStart_eq htrunc]
    exact ⟨le_rfl, rfl⟩

variable {ndebug : Bool}

/-- The range is reserved unless the assertion fails. -/
theorem reserve_isSome_iff (hend : recordEnd offset n < 2 ^ 64) :
    (reserve ndebug offset n).isSome ↔ AssertionHolds ndebug offset n := by
  have hn := le_recordEnd offset n
  have hheader := lt_recordEnd offset n
  have hle := le_startOf offset
  obtain ⟨hround, hroom⟩ :=
    roundupStart_le (show offset + kHeaderSize < 2 ^ 64 by omega)
  simp only [reserve, AssertionHolds, blockOffset_room, Nat.add_comm n kHeaderSize,
    u64_of_lt (show kHeaderSize + n < 2 ^ 64 by omega)]
  by_cases hfits : kHeaderSize + n ≤ room (roundupStart offset)
  · simp [hfits]
  · have hlong : roundupStart offset + room (roundupStart offset) < 2 ^ 64 := by
      rw [hroom] at hfits ⊢
      simp only [recordEnd, if_neg hfits] at hend
      omega
    have haligned : (roundupStart offset + room (roundupStart offset)) % 32768 = 0 := by
      rw [room_eq]
      omega
    rw [if_neg hfits, u64_of_lt hlong]
    generalize roundupStart offset + room (roundupStart offset) = start at *
    have hmask : start &&& blockMask = start ↔ start < 2 ^ 32 := by
      rw [and_blockMask]
      omega
    simp only [computeRecordSize, hfits, false_or]
    cases ndebug with
    | true => simp
    | false => split <;> simp_all

/-- **The reserved range is as long as the record, or seven bytes longer**; it is
shifted with the start of the record when that is truncated. -/
theorem add_startOf_of_reserve {next : Nat} (hend : nextOffset offset n < 2 ^ 64)
    (h : reserve ndebug offset n = some next) :
    next + startOf offset = nextOffset offset n + roundupStart offset := by
  have hn := le_recordEnd offset n
  have hheader := lt_recordEnd offset n
  have hle := le_startOf offset
  have hrecord : recordEnd offset n ≤ nextOffset offset n := Nat.le_add_right _ _
  obtain ⟨hround, hroom⟩ :=
    roundupStart_le (show offset + kHeaderSize < 2 ^ 64 by omega)
  simp only [reserve, blockOffset_room, Nat.add_comm n kHeaderSize,
    u64_of_lt (show kHeaderSize + n < 2 ^ 64 by omega), hroom] at h
  by_cases hfits : kHeaderSize + n ≤ room (startOf offset)
  · have hnext : nextOffset offset n = startOf offset + kHeaderSize + n := by
      simp only [nextOffset, recordEnd, gapSize, if_pos hfits]
      rw [if_neg (fun hg => by have := hg.1; omega), Nat.add_zero]
    rw [if_pos hfits, u64_of_lt (by omega)] at h
    have := some.inj h
    omega
  · have hnext := nextOffset_of_fragmented hfits
    rw [if_neg hfits, u64_of_lt (by omega), computeRecordSize] at h
    rw [perBlock] at hnext
    split at h
    · rw [u64_of_lt (by omega)] at h
      have := some.inj h
      omega
    · exact absurd h (by simp)

/-- Without a truncation the next record starts at `nextOffset`. -/
theorem reserve_eq (htrunc : ¬ Truncates offset) (hend : nextOffset offset n < 2 ^ 64)
    (hassert : AssertionHolds ndebug offset n) :
    reserve ndebug offset n = some (nextOffset offset n) := by
  have hrecord : recordEnd offset n ≤ nextOffset offset n := Nat.le_add_right _ _
  obtain ⟨next, hnext⟩ := isSome_iff_exists.mp
    ((reserve_isSome_iff (by omega)).mpr hassert)
  have hvalue := add_startOf_of_reserve hend hnext
  rw [roundupStart_eq htrunc] at hvalue
  rw [hnext]
  congr 1
  omega

/-- How far a truncated start is shifted. -/
theorem startOf_sub_roundupStart (h : offset + kHeaderSize < 2 ^ 64) :
    ∃ k, startOf offset = roundupStart offset + 2 ^ 32 * k ∧ (Truncates offset → 0 < k) := by
  by_cases htrunc : Truncates offset
  · obtain ⟨hround, hstart⟩ := roundupStart_of_truncates h htrunc
    obtain ⟨hlt, hbig⟩ := htrunc
    refine ⟨(offset + kHeaderSize) / 2 ^ 32, ?_, fun _ => ?_⟩
    · rw [hround, hstart]
      simp only [room_eq, kHeaderSize] at *
      omega
    · omega
  · exact ⟨0, by rw [roundupStart_eq htrunc]; rfl, fun ht => absurd ht htrunc⟩

variable (crc : Crc32c)

/-- A file with the given contents and no write errors. -/
def fileOf (contents : List UInt8) : ConcurrentWritableFile :=
  { contents := contents, broken := false }

theorem writeAt_fileOf (contents : List UInt8) (offset : Nat) (data : List UInt8) :
    (fileOf contents).writeAt offset data =
      (.ok, fileOf (Bytes.overwrite 0 contents offset data)) := by
  rw [ConcurrentWritableFile.writeAt, if_neg (by simp [fileOf])]
  rfl

/-- A physical record is written as a fragment chunk. -/
theorem emitPhysicalRecordAt_fileOf {t : RecordType} {ptr contents : List UInt8}
    (hend : offset + kHeaderSize < 2 ^ 64) :
    emitPhysicalRecordAt crc t ptr offset (fileOf contents) =
      (.ok, fileOf (Bytes.overwrite 0 contents offset ((Chunk.fragment t ptr).bytes crc))) := by
  simp only [emitPhysicalRecordAt, writeAt_fileOf, if_true, u64_of_lt hend]
  rw [← length_header crc t ptr, Bytes.overwrite_overwrite]
  rfl

theorem switchOffset_eq (h : startOf offset < 2 ^ 64) : switchOffset offset = startOf offset := by
  unfold startOf at h ⊢
  simp only [switchOffset, blockOffset_room]
  split
  · rename_i hlt
    rw [if_pos hlt] at h
    exact u64_of_lt h
  · rfl

theorem avail_eq (offset : Nat) : avail offset = room offset - kHeaderSize := by
  rw [avail, blockOffset_room]

theorem fillTrailer_of_room (file : ConcurrentWritableFile) (h : kHeaderSize ≤ room offset) :
    fillTrailer file offset = file := by
  simp only [fillTrailer, blockOffset_room]
  rw [if_neg (by omega)]

theorem overwrite_fillTrailer (contents : List UInt8) (offset : Nat) :
    ∃ filled, fillTrailer (fileOf contents) offset = fileOf filled ∧
      ∀ data, Bytes.overwrite 0 filled (startOf offset) data =
        Bytes.overwrite 0 contents offset (bytes crc (trailerChunks offset) ++ data) := by
  by_cases h : room offset < kHeaderSize
  · have hchunks : bytes crc (trailerChunks offset) = replicate (room offset) 0 := by
      simp [trailerChunks, h, Chunk.bytes]
    refine ⟨Bytes.overwrite 0 contents offset (replicate (room offset) 0), ?_, ?_⟩
    · simp only [fillTrailer, blockOffset_room, if_pos h, writeAt_fileOf]
    · intro data
      have hover := Bytes.overwrite_overwrite 0 contents offset
        (replicate (room offset) 0) data
      rw [length_replicate] at hover
      rw [startOf, if_pos h, hchunks, hover]
  · refine ⟨contents, fillTrailer_of_room _ (by omega), ?_⟩
    intro data
    rw [startOf, if_neg h, trailerChunks, if_neg h, bytes_nil, nil_append]

section Step

variable {file : ConcurrentWritableFile} {contents : List UInt8}

section

variable (data : List UInt8)
  (begin_ : Bool)
  (hfile : fillTrailer file offset = fileOf contents)
  (hend : switchOffset offset + kHeaderSize < 2 ^ 64)
include data begin_ hfile hend

/-- The loop ends with a fragment that holds the rest of the record. -/
theorem emitFragments_whole (hfits : data.length ≤ avail (switchOffset offset)) :
    emitFragments crc file offset begin_ data =
      (.ok, fileOf (Bytes.overwrite 0 contents (switchOffset offset)
        ((Chunk.fragment (fragmentType begin_ true) data).bytes crc))) := by
  rw [emitFragments]
  simp only [hfile, Nat.min_eq_left hfits, beq_self_eq_true, take_length,
    emitPhysicalRecordAt_fileOf crc hend, Nat.sub_self, Nat.lt_irrefl, and_false,
    if_false]

/-- A fragment that fills its block is followed by the rest of the record. -/
theorem emitFragments_split (hlong : avail (switchOffset offset) < data.length) :
    emitFragments crc file offset begin_ data = emitFragments crc
        (fileOf (Bytes.overwrite 0 contents (switchOffset offset)
          ((Chunk.fragment (fragmentType begin_ false)
            (data.take (avail (switchOffset offset)))).bytes crc)))
        (u64 (switchOffset offset + kHeaderSize + avail (switchOffset offset))) false
        (data.drop (avail (switchOffset offset))) := by
  have hne : (data.length == avail (switchOffset offset)) = false := by
    rw [beq_eq_false_iff_ne]
    omega
  have hmore : 0 < data.length - avail (switchOffset offset) := by omega
  rw [emitFragments]
  simp only [hfile, Nat.min_eq_right hlong.le, hne,
    emitPhysicalRecordAt_fileOf crc hend, hmore, and_self, if_true]

end

end Step

theorem aligned_offsets (h : offset % kBlockSize = 0) :
    startOf offset = offset ∧ room offset = kBlockSize := by
  have hroom : room offset = kBlockSize := by
    rw [room, h]
    rfl
  refine ⟨?_, hroom⟩
  rw [startOf, hroom, if_neg (by decide)]

variable (data contents : List UInt8)

/-- The fragments of a record after its first one. -/
theorem emitFragments_restChunks (haligned : offset % kBlockSize = 0)
    (hend : offset + size (restChunks data) < 2 ^ 64) :
    emitFragments crc (fileOf contents) offset false data =
      (.ok, fileOf (Bytes.overwrite 0 contents offset (bytes crc (restChunks data)))) := by
  fun_induction restChunks data generalizing contents offset with
  | case1 data hlen =>
    obtain ⟨hstart, hroom⟩ := aligned_offsets haligned
    rw [size_cons, Chunk.size] at hend
    have hswitch : switchOffset offset = offset := by rw [switchOffset_eq (by omega), hstart]
    have hfill : fillTrailer (fileOf contents) offset = fileOf contents :=
      fillTrailer_of_room _ (by rw [hroom]; decide)
    rw [emitFragments_whole crc data false hfill (by omega)
      (by rw [hswitch, avail_eq, hroom, ← perBlock]; exact hlen), hswitch]
    simp [fragmentType]
  | case2 data hlen ih =>
    obtain ⟨hstart, hroom⟩ := aligned_offsets haligned
    have htake : (data.take perBlock).length = perBlock := by
      rw [length_take]
      omega
    rw [size_cons, Chunk.size, htake] at hend
    have hswitch : switchOffset offset = offset := by rw [switchOffset_eq (by omega), hstart]
    have hfill : fillTrailer (fileOf contents) offset = fileOf contents :=
      fillTrailer_of_room _ (by rw [hroom]; decide)
    have hsplit := emitFragments_split crc data false hfill (by omega)
      (by rw [hswitch, avail_eq, hroom, ← perBlock]; omega)
    rw [hswitch, avail_eq, hroom, ← perBlock, u64_of_lt (by omega)] at hsplit
    have hnext : (offset + kHeaderSize + perBlock) % kBlockSize = 0 := by
      simp only [perBlock, kBlockSize, kHeaderSize] at *
      omega
    have hover := Bytes.overwrite_overwrite 0 contents offset
      ((Chunk.fragment .kMiddleType (data.take perBlock)).bytes crc)
      (bytes crc (restChunks (data.drop perBlock)))
    rw [length_chunk_bytes, Chunk.size, htake, ← Nat.add_assoc] at hover
    rw [hsplit, fragmentType, ih _ hnext (by omega), bytes_cons, hover]

/-- **The bytes written for a record are those of its layout.** -/
theorem emitFragments_recordChunks
    (hend : recordEnd offset data.length < 2 ^ 64) :
    emitFragments crc (fileOf contents) offset true data = (.ok, fileOf
        (Bytes.overwrite 0 contents offset (bytes crc (recordChunks offset data)))) := by
  have hheader := lt_recordEnd offset data.length
  have hroom := kHeaderSize_le_room_startOf offset
  have htotal := size_recordChunks offset data
  have hswitch : switchOffset offset = startOf offset :=
    switchOffset_eq (by omega)
  obtain ⟨filled, hfill, hover⟩ := overwrite_fillTrailer crc contents offset
  rw [recordChunks, bytes_append, ← hover]
  rw [recordChunks, size_append, ← Nat.add_assoc, size_trailerChunks] at htotal
  unfold startedChunks at htotal ⊢
  split
  · rw [emitFragments_whole crc data true hfill (by omega)
      (by rw [hswitch, avail_eq]; omega), hswitch]
    simp [fragmentType]
  · rename_i hfits
    have htake : (data.take (room (startOf offset) - kHeaderSize)).length =
        room (startOf offset) - kHeaderSize := by
      rw [length_take]
      omega
    rw [if_neg hfits, size_cons, Chunk.size, htake] at htotal
    have hsplit := emitFragments_split crc data true hfill (by omega)
      (by rw [hswitch, avail_eq]; omega)
    rw [hswitch, avail_eq, u64_of_lt (by omega)] at hsplit
    have hnext : (startOf offset + kHeaderSize + (room (startOf offset) - kHeaderSize)) %
        kBlockSize = 0 := by
      simp only [room_eq, kBlockSize, kHeaderSize] at *
      omega
    have hover' := Bytes.overwrite_overwrite 0 filled (startOf offset)
      ((Chunk.fragment .kFirstType (data.take (room (startOf offset) - kHeaderSize))).bytes crc)
      (bytes crc (restChunks (data.drop (room (startOf offset) - kHeaderSize))))
    rw [length_chunk_bytes, Chunk.size, htake, ← Nat.add_assoc] at hover'
    rw [hsplit, fragmentType, emitFragments_restChunks crc _ _ hnext (by omega), bytes_cons, hover']

/-- **Adding a record writes its layout, unless the assertion fails.** -/
theorem addRecord_fileOf
    (hend : recordEnd offset data.length < 2 ^ 64) :
    addRecord ndebug crc { dest := fileOf contents, offset := offset } data =
      (reserve ndebug offset data.length).map fun next =>
        (.ok,
          { dest := fileOf
              (Bytes.overwrite 0 contents offset (bytes crc (recordChunks offset data)))
            offset := next }) := by
  simp only [addRecord, emitFragments_recordChunks crc data contents hend]
  cases reserve ndebug offset data.length <;> rfl

end Log
end HotTLBApps.PebblesDB
