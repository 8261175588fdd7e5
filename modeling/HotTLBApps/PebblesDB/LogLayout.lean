import HotTLBApps.PebblesDB.LogReader

/-!
# PebblesDB: the layout of a log file

The log format as a data type, independent of the code that writes and reads
it.  A log is a list of chunks: fragments with their headers, the zeros that
fill a trailer too short for a header, and gaps, which are seven zero bytes
between two records.  `Laid o cs` says that the chunks `cs`, placed from offset
`o` on, respect the block structure.

`recordChunks o data` is the record `data` placed at offset `o`: the first
fragment takes what is left of the block, the others start at block boundaries.
-/

namespace HotTLBApps.PebblesDB
namespace Log

open List

/-- The bytes from `offset` to the end of its block. -/
def room (offset : Nat) : Nat :=
  kBlockSize - offset % kBlockSize

/-- The largest payload of a fragment. -/
def perBlock : Nat := kBlockSize - kHeaderSize

variable (offset : Nat)

theorem room_eq : room offset = 32768 - offset % 32768 :=
  rfl

/-- The pieces a log file is made of. -/
inductive Chunk
  | trailer (n : Nat)
  | gap
  | fragment (t : RecordType) (payload : List UInt8)
deriving DecidableEq, Repr

namespace Chunk

def bytes (crc : Crc32c) : Chunk → List UInt8
  | trailer n => replicate n 0
  | gap => replicate kHeaderSize 0
  | fragment t payload => header crc t payload ++ payload

def size : Chunk → Nat
  | trailer n => n
  | gap => kHeaderSize
  | fragment _ payload => kHeaderSize + payload.length

/-- Does the chunk begin a record? -/
def isHead : Chunk → Bool
  | fragment .kFullType _ => true
  | fragment .kFirstType _ => true
  | _ => false

end Chunk

theorem length_header (crc : Crc32c) (t : RecordType) (payload : List UInt8) :
    (header crc t payload).length = kHeaderSize := by
  simp [header, kHeaderSize]

@[simp]
theorem length_chunk_bytes (crc : Crc32c) (c : Chunk) : (c.bytes crc).length = c.size := by
  cases c with
  | trailer n | gap => simp [Chunk.bytes, Chunk.size]
  | fragment t payload => simp [Chunk.bytes, Chunk.size, length_header]

/-- The bytes of a list of chunks. -/
def bytes (crc : Crc32c) (cs : List Chunk) : List UInt8 :=
  cs.flatMap (Chunk.bytes crc)

def size (cs : List Chunk) : Nat :=
  (cs.map Chunk.size).sum

/-- The number of chunks that begin a record. -/
def heads (cs : List Chunk) : Nat :=
  cs.countP Chunk.isHead

section Lists

variable (crc : Crc32c) (c : Chunk) (cs ds : List Chunk)

@[simp]
theorem bytes_nil : bytes crc [] = [] :=
  rfl

@[simp]
theorem bytes_cons : bytes crc (c :: cs) = c.bytes crc ++ bytes crc cs :=
  rfl

@[simp]
theorem bytes_append : bytes crc (cs ++ ds) = bytes crc cs ++ bytes crc ds := by
  simp [bytes]

@[simp]
theorem size_nil : size [] = 0 :=
  rfl

@[simp]
theorem size_cons : size (c :: cs) = c.size + size cs := by
  simp [size]

@[simp]
theorem size_append : size (cs ++ ds) = size cs + size ds := by
  simp [size]

@[simp]
theorem length_bytes : (bytes crc cs).length = size cs := by
  induction cs with
  | nil => rfl
  | cons c cs ih => simp [ih]

@[simp]
theorem heads_nil : heads [] = 0 :=
  rfl

theorem heads_cons : heads (c :: cs) = heads cs + if c.isHead then 1 else 0 := by
  simp [heads, countP_cons]

@[simp]
theorem heads_append : heads (cs ++ ds) = heads cs + heads ds := by
  simp [heads]

end Lists

/-- The chunks, placed from `offset` on, respect the block structure. -/
def Laid : Nat → List Chunk → Prop
  | _, [] => True
  | offset, .trailer n :: cs =>
      n = room offset ∧ n < kHeaderSize ∧ Laid (offset + n) cs
  | offset, .gap :: cs =>
      kHeaderSize ≤ room offset ∧ Laid (offset + kHeaderSize) cs
  | offset, .fragment t payload :: cs =>
      t ≠ .kZeroType ∧ kHeaderSize + payload.length ≤ room offset ∧
        Laid (offset + (kHeaderSize + payload.length)) cs

/-- The continuation of a record from a block boundary on. -/
def restChunks (data : List UInt8) : List Chunk :=
  if data.length ≤ perBlock then
    [.fragment .kLastType data]
  else
    .fragment .kMiddleType (data.take perBlock) :: restChunks (data.drop perBlock)
termination_by data.length
decreasing_by
  simp only [perBlock, kBlockSize, kHeaderSize, length_drop] at *
  omega

/-- The trailer before a record at `offset`, if there is one. -/
def trailerChunks (offset : Nat) : List Chunk :=
  if room offset < kHeaderSize then [.trailer (room offset)] else []

/-- The offset of the first header of a record placed at `offset`. -/
def startOf (offset : Nat) : Nat :=
  if room offset < kHeaderSize then offset + room offset else offset

/-- The record `data` whose first header is at `start`. -/
def startedChunks (start : Nat) (data : List UInt8) : List Chunk :=
  if kHeaderSize + data.length ≤ room start then
    [.fragment .kFullType data]
  else
    .fragment .kFirstType (data.take (room start - kHeaderSize)) ::
      restChunks (data.drop (room start - kHeaderSize))

/-- The record `data` placed at `offset`. -/
def recordChunks (offset : Nat) (data : List UInt8) : List Chunk :=
  trailerChunks offset ++ startedChunks (startOf offset) data

theorem kHeaderSize_le_room_startOf : kHeaderSize ≤ room (startOf offset) := by
  unfold startOf
  split <;> simp only [room_eq, kHeaderSize] at * <;> omega

theorem size_trailerChunks :
    offset + size (trailerChunks offset) = startOf offset := by
  unfold trailerChunks startOf
  split <;> simp [Chunk.size]

theorem laid_append {offset : Nat} {cs ds : List Chunk} (hcs : Laid offset cs)
    (hds : Laid (offset + size cs) ds) : Laid offset (cs ++ ds) := by
  induction cs generalizing offset with
  | nil => simpa using hds
  | cons c cs ih =>
    rw [size_cons, ← Nat.add_assoc] at hds
    cases c with
    | trailer n | fragment t payload => exact ⟨hcs.1, hcs.2.1, ih hcs.2.2 hds⟩
    | gap => exact ⟨hcs.1, ih hcs.2 hds⟩

theorem laid_trailerChunks : Laid offset (trailerChunks offset) := by
  unfold trailerChunks
  split
  · exact ⟨rfl, by assumption, trivial⟩
  · trivial

variable (data : List UInt8)

theorem laid_restChunks {offset : Nat} (h : offset % kBlockSize = 0) :
    Laid offset (restChunks data) := by
  fun_induction restChunks data generalizing offset with
  | case1 data hlen =>
    refine ⟨by decide, ?_, trivial⟩
    simp only [room_eq, perBlock, kBlockSize, kHeaderSize] at *
    omega
  | case2 data hlen ih =>
    have htake : (data.take perBlock).length = perBlock := by
      rw [length_take]
      omega
    refine ⟨by decide, ?_, ih ?_⟩
    · rw [htake]
      simp only [room_eq, perBlock, kBlockSize, kHeaderSize] at *
      omega
    · rw [htake]
      simp only [perBlock, kBlockSize, kHeaderSize] at *
      omega

theorem laid_startedChunks {start : Nat} (h : kHeaderSize ≤ room start) :
    Laid start (startedChunks start data) := by
  unfold startedChunks
  split
  · exact ⟨by decide, by assumption, trivial⟩
  · have htake : (data.take (room start - kHeaderSize)).length = room start - kHeaderSize := by
      rw [length_take]
      omega
    refine ⟨by decide, ?_, laid_restChunks _ ?_⟩
    · rw [htake]
      omega
    · rw [htake]
      simp only [room_eq, kBlockSize, kHeaderSize] at *
      omega

/-- **A record placed at any offset respects the block structure.** -/
theorem laid_recordChunks :
    Laid offset (recordChunks offset data) := by
  apply laid_append (laid_trailerChunks offset)
  rw [size_trailerChunks]
  exact laid_startedChunks data (kHeaderSize_le_room_startOf offset)

@[simp]
theorem heads_restChunks : heads (restChunks data) = 0 := by
  fun_induction restChunks data with
  | case1 data hlen => rfl
  | case2 data hlen ih =>
    rw [heads_cons, ih]
    rfl

@[simp]
theorem heads_startedChunks (start : Nat) (data : List UInt8) :
    heads (startedChunks start data) = 1 := by
  unfold startedChunks
  split
  · rfl
  · rw [heads_cons, heads_restChunks]
    rfl

/-- **A record has exactly one chunk that begins a record.** -/
@[simp]
theorem heads_recordChunks :
    heads (recordChunks offset data) = 1 := by
  have htrailer : heads (trailerChunks offset) = 0 := by
    unfold trailerChunks
    split <;> rfl
  rw [recordChunks, heads_append, htrailer, heads_startedChunks]

/-- The size of a nonempty continuation: a block for every full fragment, and a
header with the payload that is left. -/
theorem size_restChunks (h : data ≠ []) : size (restChunks data) =
      (data.length - 1) / 32761 * 32768 + kHeaderSize + (data.length - 1) % 32761 + 1 := by
  have hpos : 0 < data.length := length_pos_of_ne_nil h
  fun_induction restChunks data with
  | case1 data hlen =>
    simp only [size_cons, size_nil, Chunk.size, perBlock, kBlockSize, kHeaderSize] at *
    omega
  | case2 data hlen ih =>
    have hlong : 32761 < data.length := by simpa [perBlock, kBlockSize, kHeaderSize] using hlen
    have hdrop : (data.drop perBlock).length = data.length - 32761 := by
      simp [perBlock, kBlockSize, kHeaderSize]
    have hrest := ih (ne_nil_of_length_pos (by omega)) (by omega)
    rw [size_cons, hrest, hdrop]
    simp only [Chunk.size, length_take, perBlock, kBlockSize, kHeaderSize]
    omega

end Log
end HotTLBApps.PebblesDB
