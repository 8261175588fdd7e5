import HotTLBApps.PebblesDB.Crc32c
import HotTLBApps.PebblesDB.Env

/-!
# PebblesDB: the log writer (`db/log_format.h`, `db/log_writer.cc`)

A log file is a sequence of blocks of `kBlockSize` bytes.  `addRecord` first
reserves the byte range of a record with a closed form (`reserve`) and then
writes the record fragment by fragment (`emitFragments`); the two computations
are independent of each other.

Offsets are `uint64_t`, so every addition is taken through `u64`.  The
constants of the format are `unsigned`, hence 32 bits wide: the complement
`~(kBlockSize - 1)` is the number `0xffff8000`, and masking an offset with it
also clears the upper half of the offset.

`ndebug` says whether the code was compiled with `NDEBUG`.  Without it a failed
`assert` ends the process, which is the result `none` here.  The only assertion
of the writer that can fail is the one in `computeRecordSize`.
-/

namespace HotTLBApps.PebblesDB
namespace Log

def kBlockSize : Nat := 32768

/-- `kHeaderSize`: checksum (4 bytes), type (1 byte), length (2 bytes). -/
def kHeaderSize : Nat := 7

inductive RecordType
  | kZeroType
  | kFullType
  | kFirstType
  | kMiddleType
  | kLastType
deriving DecidableEq, Repr

/-- The value stored in the type byte. -/
def RecordType.toByte : RecordType → UInt8
  | .kZeroType => 0
  | .kFullType => 1
  | .kFirstType => 2
  | .kMiddleType => 3
  | .kLastType => 4

/-- `offset & (kBlockSize - 1)`. -/
def blockOffset (offset : Nat) : Nat :=
  offset &&& (kBlockSize - 1)

/-- `~(kBlockSize - 1)` in 32-bit arithmetic. -/
def blockMask : Nat := 0xffff8000

variable (offset : Nat)

theorem blockOffset_eq : blockOffset offset = offset % 32768 :=
  Nat.and_two_pow_sub_one_eq_mod offset 15

/-- Masking with `~(kBlockSize - 1)` rounds the low 32 bits down to a block. -/
theorem and_blockMask : offset &&& blockMask = offset % 2 ^ 32 / 32768 * 32768 := by
  have hmask : blockMask = (2 ^ 17 - 1) <<< 15 := by rfl
  apply Nat.eq_of_testBit_eq
  intro i
  have hdiv : offset % 2 ^ 32 / 32768 * 32768 = (offset % 2 ^ 32) >>> 15 <<< 15 := by
    rw [Nat.shiftRight_eq_div_pow, Nat.shiftLeft_eq]
  rw [hdiv, hmask, Nat.testBit_and, Nat.testBit_shiftLeft,
    Nat.testBit_shiftLeft, Nat.testBit_shiftRight,
    Nat.testBit_two_pow_sub_one, Nat.testBit_mod_two_pow]
  by_cases h : 15 ≤ i
  · have e : 15 + (i - 15) = i := by
      omega
    have hlt : i - 15 < 17 ↔ i < 32 := by omega
    simp [h, e, hlt, Bool.and_comm]
  · simp [h]

/-- The writer: its file and `offset_`. -/
structure Writer where
  dest : ConcurrentWritableFile
  offset : Nat
deriving DecidableEq, Repr

def Writer.new : Writer :=
  { dest := .empty, offset := 0 }

/-- The header of a physical record: checksum, length, type. -/
def header (crc : Crc32c) (t : RecordType) (ptr : List UInt8) : List UInt8 :=
  Bytes.toLE 4
      (Crc32c.mask (crc.extend (crc.value [t.toByte]) ptr)).toNat ++
    [UInt8.ofNat ptr.length, UInt8.ofNat (ptr.length >>> 8), t.toByte]

def emitPhysicalRecordAt (crc : Crc32c) (t : RecordType) (ptr : List UInt8) (offset : Nat)
    (dest : ConcurrentWritableFile) : Status × ConcurrentWritableFile :=
  let (s, dest) := dest.writeAt offset (header crc t ptr)
  if s = .ok then
    dest.writeAt (u64 (offset + kHeaderSize)) ptr
  else
    (s, dest)

/-- Where the record starts once a trailer too short for a header is skipped. -/
def roundupStart (startOffset : Nat) : Nat :=
  if kBlockSize - blockOffset startOffset < kHeaderSize then
    u64 (startOffset + kHeaderSize) &&& blockMask
  else
    startOffset

/-- `ComputeRecordSize`: the end of a record that continues at block `start`. -/
def computeRecordSize (ndebug : Bool) (start remain : Nat) : Option Nat :=
  let perBlock := kBlockSize - kHeaderSize
  let wholeBlocks := remain / perBlock
  let leftover := remain % perBlock
  if ndebug || start &&& blockMask == start then
    some (u64 (start + wholeBlocks * kBlockSize + kHeaderSize + leftover))
  else
    none

/-- The `end_offset` that `AddRecord` stores in `offset_`. -/
def reserve (ndebug : Bool) (startOffset size : Nat) : Option Nat :=
  let roundup := roundupStart startOffset
  let left := kBlockSize - blockOffset roundup
  if u64 (kHeaderSize + size) ≤ left then
    some (u64 (roundup + kHeaderSize + size))
  else
    computeRecordSize ndebug (u64 (roundup + left)) (u64 (size + kHeaderSize) - left)

/-- The type of a fragment, from its place in the record. -/
def fragmentType : Bool → Bool → RecordType
  | true, true => .kFullType
  | true, false => .kFirstType
  | false, true => .kLastType
  | false, false => .kMiddleType

/-- The offset after a trailer too short for a header, if there is one. -/
def switchOffset (offset : Nat) : Nat :=
  let leftover := kBlockSize - blockOffset offset
  if leftover < kHeaderSize then u64 (offset + leftover) else offset

/-- The file after a trailer too short for a header is filled with zeros. -/
def fillTrailer (dest : ConcurrentWritableFile) (offset : Nat) : ConcurrentWritableFile :=
  let leftover := kBlockSize - blockOffset offset
  if leftover < kHeaderSize then
    (dest.writeAt offset (List.replicate leftover 0)).2
  else
    dest

/-- Room for payload in the block of `offset`, after a header at `offset`. -/
def avail (offset : Nat) : Nat :=
  kBlockSize - blockOffset offset - kHeaderSize

/-- Is the next fragment of a record at `offset` a header without payload? -/
def emptyFragment (offset : Nat) : Nat :=
  if avail (switchOffset offset) = 0 then 1 else 0

/-- After `switchOffset` a whole header fits in the block. -/
theorem blockOffset_switchOffset : blockOffset (switchOffset offset) ≤ 32761 := by
  simp only [switchOffset, u64, blockOffset_eq, kBlockSize, kHeaderSize]
  split <;> omega

/-- Every fragment but the last one brings the end of the record nearer. -/
theorem fragment_decreases {offset size : Nat}
    (h : 0 < size - min size (avail (switchOffset offset))) :
    2 * (size - min size (avail (switchOffset offset))) +
        emptyFragment (u64 (switchOffset offset + kHeaderSize +
          min size (avail (switchOffset offset)))) <
      2 * size + emptyFragment offset := by
  by_cases h0 : avail (switchOffset offset) = 0
  · -- a header that ends its block is followed by a block with room for payload
    have hnext : emptyFragment (u64 (switchOffset offset + kHeaderSize)) = 0 := by
      have hle := blockOffset_switchOffset offset
      generalize switchOffset offset = b at h0 hle
      simp only [emptyFragment, avail, switchOffset, u64, blockOffset_eq, kBlockSize,
        kHeaderSize] at *
      split <;> split <;> omega
    have hhere : emptyFragment offset = 1 := by simp [emptyFragment, h0]
    simp only [h0, Nat.min_zero, Nat.add_zero, hnext, hhere]
    omega
  · have hbound : ∀ o, emptyFragment o ≤ 1 := by
      intro o
      simp only [emptyFragment]
      split <;> omega
    have := hbound (u64 (switchOffset offset + kHeaderSize +
      min size (avail (switchOffset offset))))
    omega

/-- The fragment loop of `AddRecord`, from its current `offset` and `ptr`. -/
def emitFragments (crc : Crc32c) (dest : ConcurrentWritableFile) (offset : Nat) (begin_ : Bool)
    (ptr : List UInt8) : Status × ConcurrentWritableFile :=
  let start := switchOffset offset
  let fragmentLength := min ptr.length (avail start)
  let t := fragmentType begin_ (ptr.length == fragmentLength)
  let emitted :=
    emitPhysicalRecordAt crc t (ptr.take fragmentLength) start (fillTrailer dest offset)
  if emitted.1 = .ok ∧ 0 < ptr.length - fragmentLength then
    emitFragments crc emitted.2
      (u64 (start + kHeaderSize + fragmentLength)) false (ptr.drop fragmentLength)
  else
    emitted
termination_by 2 * ptr.length + emptyFragment offset
decreasing_by
  rename_i h
  rw [List.length_drop]
  exact fragment_decreases h.2

/-- `AddRecord`; `none` when an assertion ends the process. -/
def addRecord
    (ndebug : Bool) (crc : Crc32c) (w : Writer) (slice : List UInt8) : Option (Status × Writer) :=
  match reserve ndebug w.offset slice.length with
  | none => none
  | some endOffset =>
      let emitted := emitFragments crc w.dest w.offset true slice
      some (emitted.1, { dest := emitted.2, offset := endOffset })

end Log
end HotTLBApps.PebblesDB
