import HotTLBApps.PebblesDB.LogWriter

/-!
# PebblesDB: the log reader (`db/log_reader.cc`)

`readPhysicalRecord` takes one physical record from the buffer, refilling the
buffer block by block; `readRecord` puts the fragments of a logical record
together.  Everything the code passes to its `Reporter` is collected in
`reports`, oldest first.

A record type is the `unsigned int` that the code makes of a (signed) type
byte.  The values `kEof` and `kBadRecord` share that number range, so a type
byte 5 in the file is taken for the end of the file.
-/

namespace HotTLBApps.PebblesDB
namespace Log

def kMaxRecordType : Nat := 4

def kEof : Nat := kMaxRecordType + 1

def kBadRecord : Nat := kMaxRecordType + 2

/-- `const unsigned int type = header[6]` for a signed `char`. -/
def typeOfByte (b : UInt8) : Nat :=
  if b.toNat < 128 then b.toNat else 2 ^ 32 - 256 + b.toNat

/-- The reader; its reporter is the list of reported drops. -/
structure Reader where
  file : SequentialFile
  checksum : Bool
  buffer : List UInt8
  eof : Bool
  lastRecordOffset : Nat
  endOfBufferOffset : Nat
  initialOffset : Nat
  reports : List (Nat × Status)
deriving DecidableEq, Repr

/-- The constructor of `Reader`. -/
def Reader.new (file : SequentialFile) (checksum : Bool) (initialOffset : Nat) : Reader :=
  { file := file
    checksum := checksum
    buffer := []
    eof := false
    lastRecordOffset := 0
    endOfBufferOffset := 0
    initialOffset := initialOffset
    reports := [] }

/-- `uint64_t` subtraction. -/
@[irreducible]
def sub64 (a b : Nat) : Nat :=
  u64 (a + 2 ^ 64 - u64 b)

def reportDrop (r : Reader) (bytes : Nat) (reason : Status) : Reader :=
  if sub64 (sub64 r.endOfBufferOffset r.buffer.length) bytes ≥ r.initialOffset then
    { r with reports := r.reports ++ [(bytes, reason)] }
  else
    r

def reportCorruption (r : Reader) (bytes : Nat) (reason : String) : Reader :=
  reportDrop r bytes (.corruption reason)

/-- What `ReadPhysicalRecord` returns, with the reader after the call. -/
structure PhysicalRecord where
  type : Nat
  fragment : List UInt8
  reader : Reader
deriving DecidableEq, Repr

/-- `length`, from bytes 4 and 5 of the header. -/
def headerLength (buffer : List UInt8) : Nat :=
  (buffer.getD 4 0).toNat ||| (buffer.getD 5 0).toNat <<< 8

/-- Does the checksum of the first record of the buffer match? -/
def checksumMatches (crc : Crc32c) (buffer : List UInt8) : Bool :=
  crc.value ((buffer.drop 6).take (1 + headerLength buffer)) ==
    Crc32c.unmask (UInt32.ofNat (Bytes.ofLE (buffer.take 4)))

/-- `ReadPhysicalRecord` once the buffer holds a header. -/
def parseRecord (crc : Crc32c) (r : Reader) : PhysicalRecord :=
  let length := headerLength r.buffer
  let type := typeOfByte (r.buffer.getD 6 0)
  let cleared := { r with buffer := [] }
  if kHeaderSize + length > r.buffer.length then
    if r.eof then
      { type := kEof, fragment := [], reader := cleared }
    else
      { type := kBadRecord, fragment := []
        reader := reportCorruption cleared r.buffer.length "bad record length" }
  else if type = RecordType.kZeroType.toByte.toNat ∧ length = 0 then
    { type := kBadRecord, fragment := [], reader := cleared }
  else if r.checksum && !checksumMatches crc r.buffer then
    { type := kBadRecord, fragment := []
      reader := reportCorruption cleared r.buffer.length "checksum mismatch" }
  else
    let r' := { r with buffer := r.buffer.drop (kHeaderSize + length) }
    if sub64 (sub64 (sub64 r'.endOfBufferOffset r'.buffer.length) kHeaderSize) length <
        r'.initialOffset then
      { type := kBadRecord, fragment := [], reader := r' }
    else
      { type := type
        fragment := (r.buffer.drop kHeaderSize).take length
        reader := r' }

/-- The refill of `ReadPhysicalRecord`: the status of the read and the reader after it. -/
def refill (r : Reader) : Status × Reader :=
  let (status, bytes, file) := r.file.read kBlockSize
  let r' :=
    { r with
      file := file
      buffer := bytes
      endOfBufferOffset := u64 (r.endOfBufferOffset + bytes.length) }
  if status = .ok then
    (status, { r' with eof := decide (bytes.length < kBlockSize) })
  else
    let r'' := { r' with buffer := [] }
    (status, { reportDrop r'' kBlockSize status with eof := true })

def readPhysicalRecord (crc : Crc32c) (r : Reader) : PhysicalRecord :=
  if r.buffer.length < kHeaderSize then
    if r.eof then
      { type := kEof, fragment := [], reader := { r with buffer := [] } }
    else
      match refill { r with buffer := [] } with
      | (.ok, r') =>
          -- The loop starts over: after a refill the buffer has a header, is
          -- short of one at the end of the file, or is a whole block.
          if r'.buffer.length < kHeaderSize then
            { type := kEof, fragment := [], reader := { r' with buffer := [] } }
          else
            parseRecord crc r'
      | (_, r') => { type := kEof, fragment := [], reader := r' }
  else
    parseRecord crc r

/-- The bytes a reader has not consumed yet. -/
def Reader.remaining (r : Reader) : Nat :=
  r.buffer.length + r.file.rest.length

variable (r : Reader)

@[simp]
theorem remaining_reportCorruption (bytes : Nat) (reason : String) :
    (reportCorruption r bytes reason).remaining = r.remaining := by
  unfold reportCorruption reportDrop
  split <;> rfl

/-- The assignment to `last_record_offset_`. -/
def Reader.setLastRecordOffset (r : Reader) (offset : Nat) : Reader :=
  { r with lastRecordOffset := offset }

@[simp]
theorem remaining_setLastRecordOffset (offset : Nat) :
    (r.setLastRecordOffset offset).remaining = r.remaining := by
  cases r
  rfl

variable (crc : Crc32c)

theorem remaining_parseRecord (r : Reader) (h : kHeaderSize ≤ r.buffer.length) :
    (parseRecord crc r).reader.remaining + kHeaderSize ≤ r.remaining := by
  simp only [parseRecord]
  split_ifs <;>
    try rw [remaining_reportCorruption]
  all_goals
    simp only [Reader.remaining, List.length_nil, List.length_drop]
    omega

theorem remaining_refill (h : r.buffer = []) :
    (refill r).2.remaining ≤ r.remaining := by
  by_cases hb : r.file.broken
  · simp only [refill, SequentialFile.read, reportDrop, hb]
    simp only [if_true, reduceCtorEq, if_false]
    split <;> simp [Reader.remaining]
  · simp [refill, SequentialFile.read, Reader.remaining, hb, h]
    omega

/-- Every physical record but the end of the file consumes at least a header. -/
theorem remaining_readPhysicalRecord (r : Reader)
    (h : (readPhysicalRecord crc r).type ≠ kEof) :
    (readPhysicalRecord crc r).reader.remaining < r.remaining := by
  unfold readPhysicalRecord at h ⊢
  by_cases hbuf : r.buffer.length < kHeaderSize
  · rw [if_pos hbuf] at h ⊢
    by_cases heof : r.eof
    · simp [heof] at h
    · have hle := remaining_refill { r with buffer := [] } rfl
      have hle' : ({ r with buffer := [] } : Reader).remaining ≤ r.remaining := by
        simp [Reader.remaining]
      rw [if_neg heof] at h ⊢
      generalize refill { r with buffer := [] } = filled at h hle ⊢
      obtain ⟨status, r'⟩ := filled
      cases status with
      | ok =>
        by_cases hshort : r'.buffer.length < kHeaderSize
        · simp [hshort] at h
        · have hparse := remaining_parseRecord crc r' (by omega)
          simp only [if_neg hshort]
          simp only [kHeaderSize] at hparse hle
          omega
      | notFound msg | corruption msg | invalidArgument msg | ioError msg => simp at h
  · rw [if_neg hbuf]
    have hparse := remaining_parseRecord crc r (by omega)
    simp only [kHeaderSize] at hparse
    omega

/-- A record that begins inside another one; an empty first fragment is not
reported, since an earlier version of the writer left such fragments. -/
def reportPartial
    (r : Reader) (inFragmentedRecord : Bool) (scratch : List UInt8) (reason : String) : Reader :=
  if inFragmentedRecord && !scratch.isEmpty then
    reportCorruption r scratch.length reason
  else
    r

@[simp]
theorem remaining_reportPartial (inFragmentedRecord : Bool) (scratch : List UInt8)
    (reason : String) :
    (reportPartial r inFragmentedRecord scratch reason).remaining = r.remaining := by
  unfold reportPartial
  split
  · exact remaining_reportCorruption r scratch.length reason
  · rfl

/-- The loop of `ReadRecord`; `none` is the result `false`. -/
def readRecordLoop (crc : Crc32c) (r : Reader) (inFragmentedRecord : Bool) (scratch : List UInt8)
    (prospectiveRecordOffset : Nat) : Option (List UInt8) × Reader :=
  let physicalRecordOffset := sub64 r.endOfBufferOffset r.buffer.length
  let p := readPhysicalRecord crc r
  let next := p.reader
  if p.type = kEof then
    (none, next)
  else if p.type = RecordType.kFullType.toByte.toNat then
    (some p.fragment,
      (reportPartial next inFragmentedRecord scratch
        "partial record without end(1)").setLastRecordOffset physicalRecordOffset)
  else if p.type = RecordType.kFirstType.toByte.toNat then
    readRecordLoop crc
      (reportPartial next inFragmentedRecord scratch "partial record without end(2)")
      true p.fragment physicalRecordOffset
  else if p.type = RecordType.kMiddleType.toByte.toNat then
    if inFragmentedRecord then
      readRecordLoop crc next true (scratch ++ p.fragment) prospectiveRecordOffset
    else
      readRecordLoop crc
        (reportCorruption next p.fragment.length "missing start of fragmented record(1)")
        false scratch prospectiveRecordOffset
  else if p.type = RecordType.kLastType.toByte.toNat then
    if inFragmentedRecord then
      (some (scratch ++ p.fragment), next.setLastRecordOffset prospectiveRecordOffset)
    else
      readRecordLoop crc
        (reportCorruption next p.fragment.length "missing start of fragmented record(2)")
        false scratch prospectiveRecordOffset
  else if p.type = kBadRecord then
    if inFragmentedRecord then
      readRecordLoop crc
        (reportCorruption next scratch.length "error in middle of record")
        false [] prospectiveRecordOffset
    else
      readRecordLoop crc next false scratch prospectiveRecordOffset
  else
    readRecordLoop crc
      (reportCorruption next
        (p.fragment.length + if inFragmentedRecord then scratch.length else 0)
        ("unknown record type " ++ toString p.type))
      false [] prospectiveRecordOffset
termination_by r.remaining
decreasing_by
  all_goals
    have hlt := remaining_readPhysicalRecord crc r (by assumption)
    simpa only [remaining_reportCorruption, remaining_reportPartial] using hlt

def skipToInitialBlock (r : Reader) : Bool × Reader :=
  let offsetInBlock := r.initialOffset % kBlockSize
  let blockStartLocation :=
    if offsetInBlock > kBlockSize - 6 then
      u64 (r.initialOffset - offsetInBlock + kBlockSize)
    else
      r.initialOffset - offsetInBlock
  let r' := { r with endOfBufferOffset := blockStartLocation }
  if blockStartLocation > 0 then
    let (status, file) := r'.file.skip blockStartLocation
    let r'' := { r' with file := file }
    if status = .ok then
      (true, r'')
    else
      (false, reportDrop r'' blockStartLocation status)
  else
    (true, r')

/-- `ReadRecord`; `none` is the result `false`. -/
def readRecord (crc : Crc32c) (r : Reader) : Option (List UInt8) × Reader :=
  if r.lastRecordOffset < r.initialOffset then
    match skipToInitialBlock r with
    | (true, r') => readRecordLoop crc r' false [] 0
    | (false, r') => (none, r')
  else
    readRecordLoop crc r false [] 0

theorem remaining_readRecordLoop (r : Reader) (inFragmentedRecord : Bool)
    (scratch : List UInt8) (prospectiveRecordOffset : Nat)
    (h : (readRecordLoop crc r inFragmentedRecord scratch prospectiveRecordOffset).1.isSome) :
    (readRecordLoop crc r inFragmentedRecord scratch
      prospectiveRecordOffset).2.remaining < r.remaining := by
  fun_induction readRecordLoop crc r inFragmentedRecord scratch prospectiveRecordOffset
  case case1 => simp at h
  case case2 r _ _ _ _ _ _ heof _ =>
    have hlt := remaining_readPhysicalRecord crc r heof
    simpa only [remaining_setLastRecordOffset, remaining_reportPartial] using hlt
  case case6 r _ _ _ _ heof _ _ _ _ =>
    have hlt := remaining_readPhysicalRecord crc r heof
    simpa only [remaining_setLastRecordOffset] using hlt
  all_goals
    rename_i ih
    have hlt := remaining_readPhysicalRecord crc _ (by assumption)
    have hrec := ih h
    try simp only [remaining_reportPartial, remaining_reportCorruption] at hrec
    exact hrec.trans hlt

theorem remaining_skipToInitialBlock :
    (skipToInitialBlock r).2.remaining ≤ r.remaining := by
  simp only [skipToInitialBlock, SequentialFile.skip, reportDrop]
  split_ifs <;> simp [Reader.remaining]

theorem remaining_readRecord (r : Reader) (h : (readRecord crc r).1.isSome) :
    (readRecord crc r).2.remaining < r.remaining := by
  unfold readRecord at h ⊢
  split at h
  · have hskip := remaining_skipToInitialBlock r
    generalize skipToInitialBlock r = skipped at h hskip ⊢
    obtain ⟨ok, r'⟩ := skipped
    cases ok with
    | true =>
      rw [if_pos (by assumption)]
      exact (remaining_readRecordLoop crc r' false [] 0 h).trans_le hskip
    | false => simp at h
  · rw [if_neg (by assumption)]
    exact remaining_readRecordLoop crc r false [] 0 h

/-- All the records of a reader, up to the first `false`, and the reader after it. -/
def readAll (crc : Crc32c) (r : Reader) : List (List UInt8) × Reader :=
  match hread : readRecord crc r with
  | (none, r') => ([], r')
  | (some record, r') =>
      let rest := readAll crc r'
      (record :: rest.1, rest.2)
termination_by r.remaining
decreasing_by
  have hlt := remaining_readRecord crc r (by simp [hread])
  rwa [hread] at hlt

end Log
end HotTLBApps.PebblesDB
