import HotTLBApps.PebblesDB.LogLayout

/-!
# PebblesDB: reading a laid-out log

What the reader does on the chunks of a log file.  `At r o s` says that the
reader `r` stands at file offset `o` with the bytes `s` still to come: its
buffer holds what is left of the block of `o` and its file the bytes after that
block.  In a trailer the contents of the buffer do not matter, since fewer bytes
than a header are thrown away on the next read.

One lemma per kind of chunk says what `readPhysicalRecord` returns.
-/

namespace HotTLBApps.PebblesDB
namespace Log

open List

variable {n : Nat}

theorem length_of_bytes (h : n < 65536) :
    (UInt8.ofNat n).toNat ||| (UInt8.ofNat (n >>> 8)).toNat <<< 8 = n := by
  have hlow : (UInt8.ofNat n).toNat = n % 256 := by simp [UInt8.toNat_ofNat']
  have hhigh : (UInt8.ofNat (n >>> 8)).toNat = n / 256 := by
    rw [Nat.shiftRight_eq_div_pow]
    simp only [UInt8.toNat_ofNat']
    omega
  rw [hlow, hhigh, Nat.or_comm,
    ← Nat.shiftLeft_add_eq_or_of_lt (show n % 256 < 2 ^ 8 by omega), Nat.shiftLeft_eq]
  omega

section Fragment

variable (crc : Crc32c) (t : RecordType) (payload s : List UInt8)

theorem header_fields : (header crc t payload ++ s).getD 4 0 = UInt8.ofNat payload.length ∧
      (header crc t payload ++ s).getD 5 0 = UInt8.ofNat (payload.length >>> 8) ∧
      (header crc t payload ++ s).getD 6 0 = t.toByte ∧
      (header crc t payload ++ s).take 4 =
        Bytes.toLE 4 (Crc32c.mask (crc.extend (crc.value [t.toByte]) payload)).toNat ∧
      (header crc t payload ++ s).drop 6 = t.toByte :: s := by
  unfold header
  generalize hc4 : Bytes.toLE 4
    (Crc32c.mask (crc.extend (crc.value [t.toByte]) payload)).toNat = c4
  have hlen : c4.length = 4 := by rw [← hc4, Bytes.length_toLE]
  match c4, hlen with
  | [_, _, _, _], _ => simp

theorem headerLength_header (h : payload.length < 65536) :
    headerLength (header crc t payload ++ s) = payload.length := by
  obtain ⟨h4, h5, -⟩ := header_fields crc t payload s
  rw [headerLength, h4, h5, length_of_bytes h]

theorem type_header : typeOfByte ((header crc t payload ++ s).getD 6 0) = t.toByte.toNat := by
  obtain ⟨-, -, h6, -⟩ := header_fields crc t payload s
  rw [h6]
  cases t <;> rfl

theorem checksumMatches_header (h : payload.length < 65536) :
    checksumMatches crc (header crc t payload ++ (payload ++ s)) = true := by
  have hlen := headerLength_header crc t payload (payload ++ s) h
  obtain ⟨-, -, -, h4, h6⟩ := header_fields crc t payload (payload ++ s)
  rw [checksumMatches, hlen, h4, h6, Bytes.ofLE_toLE]
  have hmask : UInt32.ofNat
      ((Crc32c.mask (crc.extend (crc.value [t.toByte]) payload)).toNat % 256 ^ 4) =
        Crc32c.mask (crc.extend (crc.value [t.toByte]) payload) := by
    have hlt := (Crc32c.mask (crc.extend (crc.value [t.toByte]) payload)).toNat_lt
    rw [Nat.mod_eq_of_lt (by omega), UInt32.ofNat_toNat]
  have htake : (t.toByte :: (payload ++ s)).take (1 + payload.length) = [t.toByte] ++ payload := by
    rw [Nat.add_comm, take_succ_cons, take_left]
    rfl
  rw [hmask, Crc32c.unmask_mask, htake, Crc32c.value, Crc32c.value, crc.extend_append]
  simp

end Fragment

/-- The bytes of the block of `offset` that the reader has buffered when it
stands at `offset`; none at a block boundary. -/
def ahead (offset : Nat) : Nat :=
  room offset % kBlockSize

theorem ahead_eq (offset : Nat) : ahead offset = (32768 - offset % 32768) % 32768 :=
  rfl

/-- The reader stands at `offset` with the bytes `s` to come. -/
structure At (r : Reader) (offset : Nat) (s : List UInt8) : Prop where
  unbroken : r.file.broken = false
  checksum : r.checksum = true
  initialOffset : r.initialOffset = 0
  short : ahead offset < kHeaderSize → r.buffer.length < kHeaderSize
  buffer : kHeaderSize ≤ ahead offset → r.buffer = s.take (ahead offset)
  rest : r.file.rest = s.drop (ahead offset)
  eof : r.file.rest ≠ [] → r.eof = false

theorem at_new (s : List UInt8) : At (Reader.new { rest := s, broken := false } true 0) 0 s where
  unbroken := rfl
  checksum := rfl
  initialOffset := rfl
  short _ := by simp [Reader.new, kHeaderSize]
  buffer h := absurd h (by decide)
  rest := rfl
  eof _ := rfl

variable {r : Reader} {offset : Nat} {s : List UInt8}

/-- Standing in a trailer is standing at the next block boundary. -/
theorem At.skipTrailer (h : At r offset s) (htrailer : room offset < kHeaderSize) :
    At r (offset + room offset) (s.drop (room offset)) := by
  have hahead : ahead offset = room offset := by
    simp only [ahead_eq, room_eq, kHeaderSize] at *
    omega
  have hzero : ahead (offset + room offset) = 0 := by
    simp only [ahead_eq, room_eq]
    omega
  refine ⟨h.unbroken, h.checksum, h.initialOffset, ?_, ?_, ?_, h.eof⟩
  · intro _
    exact h.short (by omega)
  · intro hle
    rw [hzero] at hle
    exact absurd hle (by decide)
  · rw [hzero, drop_zero, h.rest, hahead]

/-- The buffer holds all that is left of the block of `offset`. -/
structure Filled (r : Reader) (offset : Nat) (s : List UInt8) : Prop where
  unbroken : r.file.broken = false
  checksum : r.checksum = true
  initialOffset : r.initialOffset = 0
  buffer : r.buffer = s.take (room offset)
  rest : r.file.rest = s.drop (room offset)
  eof : r.file.rest ≠ [] → r.eof = false

/-- The reader after a refill from an unbroken file. -/
def refilled (r : Reader) : Reader :=
  { r with
    file := { r.file with rest := r.file.rest.drop kBlockSize }
    buffer := r.file.rest.take kBlockSize
    endOfBufferOffset :=
      u64 (r.endOfBufferOffset + (r.file.rest.take kBlockSize).length)
    eof := decide ((r.file.rest.take kBlockSize).length < kBlockSize) }

/-- Short of a header, the next physical record comes from the next block. -/
theorem readPhysicalRecord_refill (crc : Crc32c) (hunbroken : r.file.broken = false)
    (hshort : r.buffer.length < kHeaderSize) (heof : r.eof = false) : readPhysicalRecord crc r =
      if (refilled r).buffer.length < kHeaderSize then
        { type := kEof, fragment := [], reader := { refilled r with buffer := [] } }
      else
        parseRecord crc (refilled r) := by
  unfold readPhysicalRecord
  rw [if_pos hshort, if_neg (by simp [heof])]
  simp [refill, refilled, SequentialFile.read, hunbroken]

theorem room_of_aligned (hroom : kHeaderSize ≤ room offset) (h : ahead offset < kHeaderSize) :
    room offset = kBlockSize ∧ ahead offset = 0 := by
  simp only [ahead_eq, room_eq, kHeaderSize, kBlockSize] at *
  omega

theorem room_of_not_aligned (h : ¬ ahead offset < kHeaderSize) : room offset = ahead offset := by
  simp only [ahead_eq, room_eq, kHeaderSize] at *
  omega

/-- A reader that stands before at least a header parses it from a filled buffer. -/
theorem At.fill (crc : Crc32c) (h : At r offset s) (hroom : kHeaderSize ≤ room offset)
    (hlen : kHeaderSize ≤ s.length) : ∃ r', Filled r' offset s ∧ r'.reports = r.reports ∧
      readPhysicalRecord crc r = parseRecord crc r' := by
  by_cases hahead : ahead offset < kHeaderSize
  · obtain ⟨hblock, hzero⟩ := room_of_aligned hroom hahead
    have hrest : r.file.rest = s := by rw [h.rest, hzero, drop_zero]
    have heof : r.eof = false := by
      apply h.eof
      rw [hrest]
      rintro rfl
      simp [kHeaderSize] at hlen
    refine ⟨refilled r, ⟨h.unbroken, h.checksum, h.initialOffset, ?_, ?_, ?_⟩, rfl, ?_⟩
    · rw [refilled, hrest, hblock]
    · rw [refilled, hrest, hblock]
    · intro hne
      have hlong : kBlockSize < s.length := by
        rw [refilled, hrest] at hne
        by_contra hle
        exact hne (drop_eq_nil_of_le (by omega))
      simp only [refilled, hrest, length_take]
      simp only [decide_eq_false_iff_not]
      omega
    · rw [readPhysicalRecord_refill crc h.unbroken (h.short hahead) heof, if_neg]
      simp only [refilled, hrest, length_take, kBlockSize, kHeaderSize] at *
      omega
  · have hsame := room_of_not_aligned hahead
    have hbuffer := h.buffer (by omega)
    refine ⟨r, ⟨h.unbroken, h.checksum, h.initialOffset, ?_, ?_, h.eof⟩, rfl, ?_⟩
    · rw [hbuffer, hsame]
    · rw [h.rest, hsame]
    · unfold readPhysicalRecord
      rw [if_neg]
      rw [hbuffer, length_take]
      omega

theorem Filled.consume (h : Filled r offset s) (hn : n ≤ room offset) (hpos : 0 < n) :
    At { r with buffer := r.buffer.drop n } (offset + n) (s.drop n) := by
  have hahead : ahead (offset + n) = room offset - n := by
    simp only [ahead_eq, room_eq] at *
    omega
  have hbuffer : r.buffer.drop n = (s.drop n).take (room offset - n) := by rw [h.buffer, drop_take]
  refine ⟨h.unbroken, h.checksum, h.initialOffset, ?_, ?_, ?_, h.eof⟩
  · intro hlt
    rw [hahead] at hlt
    rw [hbuffer, length_take]
    omega
  · intro _
    rw [hahead]
    exact hbuffer
  · rw [hahead, drop_drop]
    rw [h.rest]
    congr 1
    omega

theorem Filled.clear (h : Filled r offset s) :
    At { r with buffer := [] } (offset + room offset) (s.drop (room offset)) := by
  have hall : r.buffer.drop (room offset) = [] := by
    apply drop_eq_nil_of_le
    rw [h.buffer, length_take]
    omega
  have hat := h.consume le_rfl (by rw [room_eq]; omega)
  rwa [hall] at hat

variable {t : RecordType} {payload s : List UInt8}

/-- A fragment at the front of the buffer is returned as it was written. -/
theorem parseRecord_fragment (crc : Crc32c) (hinitial : r.initialOffset = 0) (ht : t ≠ .kZeroType)
    (hpayload : payload.length < 65536)
    (hbuffer : r.buffer = header crc t payload ++ (payload ++ s)) : parseRecord crc r =
      { type := t.toByte.toNat
        fragment := payload
        reader := { r with buffer := r.buffer.drop (kHeaderSize + payload.length) } } := by
  have hlength : headerLength r.buffer = payload.length := by
    rw [hbuffer, headerLength_header crc t payload _ hpayload]
  have htype : typeOfByte (r.buffer.getD 6 0) = t.toByte.toNat := by rw [hbuffer, type_header]
  have hmatches : checksumMatches crc r.buffer = true := by
    rw [hbuffer, checksumMatches_header crc t payload s hpayload]
  have hfits : ¬ kHeaderSize + payload.length > r.buffer.length := by
    rw [hbuffer]
    simp only [length_append, length_header]
    omega
  have hzero : ¬ (t.toByte.toNat = RecordType.kZeroType.toByte.toNat ∧ payload.length = 0) := by
    rintro ⟨hbyte, -⟩
    cases t <;> first | exact ht rfl | exact absurd hbyte (by decide)
  have hfragment : (r.buffer.drop kHeaderSize).take payload.length = payload := by
    rw [hbuffer, ← length_header crc t payload, drop_left, take_left]
  simp only [parseRecord]
  rw [hlength, htype, if_neg hfits, if_neg hzero, if_neg (by simp [hmatches]),
    if_neg (by simp [hinitial]), hfragment]

/-- **A fragment is returned as it was written.** -/
theorem readPhysicalRecord_fragment (crc : Crc32c)
    (h : At r offset ((Chunk.fragment t payload).bytes crc ++ s)) (ht : t ≠ .kZeroType)
    (hfits : kHeaderSize + payload.length ≤ room offset) : ∃ r', readPhysicalRecord crc r =
        { type := t.toByte.toNat, fragment := payload, reader := r' } ∧
      At r' (offset + (kHeaderSize + payload.length)) s ∧ r'.reports = r.reports := by
  have hlen : ((Chunk.fragment t payload).bytes crc).length = kHeaderSize + payload.length := by
    simp [Chunk.size]
  obtain ⟨r', hfilled, hreports, hread⟩ :=
    h.fill crc (by omega) (by rw [length_append, hlen]; omega)
  have hbuffer : r'.buffer = header crc t payload ++
      (payload ++ s.take (room offset - (kHeaderSize + payload.length))) := by
    rw [hfilled.buffer, take_append, hlen, take_of_length_le (by omega)]
    simp [Chunk.bytes]
  have hpayload : payload.length < 65536 := by
    simp only [room_eq, kHeaderSize] at hfits
    omega
  have hat := hfilled.consume hfits (by simp only [kHeaderSize]; omega)
  rw [← hlen, drop_left, hlen] at hat
  refine ⟨_, ?_, hat, hreports⟩
  rw [hread]
  exact parseRecord_fragment crc hfilled.initialOffset ht hpayload hbuffer

/-- **A zero header skips the rest of its block, without a report.** -/
theorem readPhysicalRecord_zeros (crc : Crc32c) (h : At r offset (replicate kHeaderSize 0 ++ s))
    (hroom : kHeaderSize ≤ room offset) : ∃ r', readPhysicalRecord crc r =
        { type := kBadRecord, fragment := [], reader := r' } ∧
      At r' (offset + room offset)
        ((replicate kHeaderSize 0 ++ s).drop (room offset)) ∧
      r'.reports = r.reports := by
  obtain ⟨r', hfilled, hreports, hread⟩ := h.fill crc hroom (by simp)
  have hbuffer : r'.buffer = replicate kHeaderSize 0 ++ s.take (room offset - kHeaderSize) := by
    rw [hfilled.buffer, take_append, length_replicate,
      take_of_length_le (by rw [length_replicate]; exact hroom)]
  have hlength : headerLength r'.buffer = 0 := by
    simp [hbuffer, headerLength, kHeaderSize, replicate]
  have htype : typeOfByte (r'.buffer.getD 6 0) = 0 := by
    simp [hbuffer, typeOfByte, kHeaderSize, replicate]
  have hfits : ¬ kHeaderSize + 0 > r'.buffer.length := by
    rw [hbuffer, length_append, length_replicate]
    omega
  refine ⟨_, ?_, hfilled.clear, hreports⟩
  rw [hread]
  simp only [parseRecord]
  rw [hlength, htype, if_neg hfits, if_pos ⟨rfl, rfl⟩]

/-- **Fewer bytes than a header are the end of the file.** -/
theorem readPhysicalRecord_short (crc : Crc32c) (h : At r offset s)
    (hlen : s.length < kHeaderSize) :
    ∃ r', readPhysicalRecord crc r =
        { type := kEof, fragment := [], reader := r' } ∧
      r'.eof = true ∧ r'.reports = r.reports := by
  have hshort : r.buffer.length < kHeaderSize := by
    by_cases hahead : ahead offset < kHeaderSize
    · exact h.short hahead
    · rw [h.buffer (by omega), length_take]
      omega
  cases heof : r.eof with
  | true =>
    refine ⟨{ r with buffer := [] }, ?_, heof, rfl⟩
    unfold readPhysicalRecord
    rw [if_pos hshort, if_pos heof]
  | false =>
    have hrest : r.file.rest.length < kHeaderSize := by
      rw [h.rest, length_drop]
      omega
    have htake : (refilled r).buffer.length < kHeaderSize := by
      rw [refilled, length_take]
      omega
    refine ⟨{ refilled r with buffer := [] }, ?_, ?_, rfl⟩
    · rw [readPhysicalRecord_refill crc h.unbroken hshort heof, if_pos htake]
    · apply decide_eq_true
      simp only [refilled, kHeaderSize, kBlockSize] at htake ⊢
      omega

section

variable {crc : Crc32c} {r r' : Reader}
variable (inFragmentedRecord : Bool) (scratch : List UInt8) (offset : Nat)

theorem readRecordLoop_bad (h : readPhysicalRecord crc r =
      { type := kBadRecord, fragment := payload, reader := r' }) :
    readRecordLoop crc r inFragmentedRecord scratch offset = if inFragmentedRecord then
        readRecordLoop crc
          (reportCorruption r' scratch.length "error in middle of record") false [] offset
      else
        readRecordLoop crc r' false scratch offset := by
  rw [readRecordLoop]
  simp [h, kBadRecord, kEof, kMaxRecordType, RecordType.toByte]

theorem readRecordLoop_fragment {t : RecordType} (h : readPhysicalRecord crc r =
      { type := t.toByte.toNat, fragment := payload, reader := r' }) :
    readRecordLoop crc r inFragmentedRecord scratch offset =
      match t with
      | .kZeroType => readRecordLoop crc r inFragmentedRecord scratch offset
      | .kFullType =>
          (some payload, (reportPartial r' inFragmentedRecord scratch
            "partial record without end(1)").setLastRecordOffset
              (sub64 r.endOfBufferOffset r.buffer.length))
      | .kFirstType =>
          readRecordLoop crc
            (reportPartial r' inFragmentedRecord scratch "partial record without end(2)")
            true payload (sub64 r.endOfBufferOffset r.buffer.length)
      | .kMiddleType =>
          if inFragmentedRecord then
            readRecordLoop crc r' true (scratch ++ payload) offset
          else
            readRecordLoop crc
              (reportCorruption r' payload.length "missing start of fragmented record(1)")
              false scratch offset
      | .kLastType =>
          if inFragmentedRecord then
            (some (scratch ++ payload), r'.setLastRecordOffset offset)
          else
            readRecordLoop crc
              (reportCorruption r' payload.length "missing start of fragmented record(2)")
              false scratch offset := by
  cases t with
  | kZeroType => rfl
  | _ =>
    rw [readRecordLoop]
    simp [h, kEof, kMaxRecordType, RecordType.toByte]

variable {offset : Nat}

theorem At.reportCorruption (h : At r offset s) (n : Nat) (reason : String) :
    At (reportCorruption r n reason) offset s := by
  unfold Log.reportCorruption reportDrop
  split
  · exact ⟨h.unbroken, h.checksum, h.initialOffset, h.short, h.buffer, h.rest, h.eof⟩
  · exact h

theorem At.reportPartial (h : At r offset s) (inFragmentedRecord : Bool) (scratch : List UInt8)
    (reason : String) : At (reportPartial r inFragmentedRecord scratch reason) offset s := by
  unfold Log.reportPartial
  split
  · exact h.reportCorruption scratch.length reason
  · exact h

theorem At.setLastRecordOffset (h : At r offset s) (o : Nat) :
    At (r.setLastRecordOffset o) offset s :=
  ⟨h.unbroken, h.checksum, h.initialOffset, h.short, h.buffer, h.rest, h.eof⟩

@[simp]
theorem reports_setLastRecordOffset (r : Reader) (o : Nat) :
    (r.setLastRecordOffset o).reports = r.reports := by
  cases r
  rfl

@[simp]
theorem reportPartial_false (r : Reader) (scratch : List UInt8) (reason : String) :
    Log.reportPartial r false scratch reason = r := by
  simp [Log.reportPartial]

theorem At.start (h : At r offset s) :
    At r (startOf offset) (s.drop (startOf offset - offset)) := by
  unfold startOf
  split
  · rw [Nat.add_sub_cancel_left]
    exact h.skipTrailer (by assumption)
  · rw [Nat.sub_self, drop_zero]
    exact h

end

variable (crc : Crc32c)

/-- **Zeros up to the end of the file are the end of the log**; they are
reported only in the middle of a record. -/
theorem readRecordLoop_tail (z : Nat) (h : At r offset (replicate z 0))
    (inFragmentedRecord : Bool) (scratch : List UInt8) (o : Nat) :
    ∃ r', readRecordLoop crc r inFragmentedRecord scratch o = (none, r') ∧
      (inFragmentedRecord = false → r'.eof = true ∧ r'.reports = r.reports) := by
  induction z using Nat.strong_induction_on
    generalizing r offset inFragmentedRecord scratch with
  | _ z ih =>
    have hstart := h.start
    rw [drop_replicate] at hstart
    have hroom := kHeaderSize_le_room_startOf offset
    by_cases hshort : z - (startOf offset - offset) < kHeaderSize
    · obtain ⟨r', hread, heof, hreports⟩ :=
        readPhysicalRecord_short crc hstart (by simpa using hshort)
      refine ⟨r', ?_, fun _ => ⟨heof, hreports⟩⟩
      rw [readRecordLoop]
      simp [hread]
    · -- A zero header: the reader goes on with the zeros of the next block.
      have hsplit : replicate (z - (startOf offset - offset)) (0 : UInt8) =
          replicate kHeaderSize 0 ++ replicate (z - (startOf offset - offset) - kHeaderSize) 0 := by
        rw [replicate_append_replicate]
        congr 1
        omega
      rw [hsplit] at hstart
      obtain ⟨r', hread, hat, hreports⟩ := readPhysicalRecord_zeros crc hstart hroom
      rw [← hsplit, drop_replicate] at hat
      have hlt : z - (startOf offset - offset) - room (startOf offset) < z := by
        simp only [kHeaderSize] at hroom hshort
        omega
      rw [readRecordLoop_bad _ _ _ hread]
      cases inFragmentedRecord with
      | true =>
        obtain ⟨r'', hloop, -⟩ := ih _ hlt
          (hat.reportCorruption scratch.length "error in middle of record") false []
        refine ⟨r'', ?_, by simp⟩
        rw [if_pos rfl, hloop]
      | false =>
        obtain ⟨r'', hloop, hfinal⟩ := ih _ hlt hat false scratch
        refine ⟨r'', ?_, fun _ => ?_⟩
        · rw [if_neg (by decide), hloop]
        · rw [← hreports]
          exact hfinal rfl

/-- The continuation of a record is appended to what was read before. -/
theorem readRecordLoop_restChunks (data : List UInt8)
    (haligned : offset % kBlockSize = 0) (h : At r offset (bytes crc (restChunks data) ++ s))
    (scratch : List UInt8) (o : Nat) :
    ∃ r', readRecordLoop crc r true scratch o = (some (scratch ++ data), r') ∧
      At r' (offset + size (restChunks data)) s ∧ r'.reports = r.reports := by
  have hlaid := laid_restChunks data haligned
  fun_induction restChunks data generalizing r offset scratch with
  | case1 data hlen =>
    rw [bytes_cons, bytes_nil, append_nil] at h
    obtain ⟨r', hread, hat, hreports⟩ :=
      readPhysicalRecord_fragment crc h hlaid.1 hlaid.2.1
    refine ⟨r'.setLastRecordOffset o, ?_, ?_, ?_⟩
    · exact readRecordLoop_fragment _ _ _ hread
    · exact hat.setLastRecordOffset o
    · rw [reports_setLastRecordOffset, hreports]
  | case2 data hlen ih =>
    rw [bytes_cons, append_assoc] at h
    obtain ⟨r', hread, hat, hreports⟩ :=
      readPhysicalRecord_fragment crc h hlaid.1 hlaid.2.1
    have hnext : (offset + (kHeaderSize + (data.take perBlock).length)) %
        kBlockSize = 0 := by
      simp only [length_take, perBlock, kHeaderSize, kBlockSize] at *
      omega
    obtain ⟨r'', hloop, hat', hreports'⟩ :=
      ih hnext hat (scratch ++ data.take perBlock) hlaid.2.2
    refine ⟨r'', ?_, ?_, hreports'.trans hreports⟩
    · rw [append_assoc, take_append_drop] at hloop
      exact (readRecordLoop_fragment _ _ _ hread).trans hloop
    · rw [size_cons, ← Nat.add_assoc]
      exact hat'

theorem At.readRecord_eq (h : At r offset s) :
    readRecord crc r = readRecordLoop crc r false [] 0 := by
  rw [readRecord, h.initialOffset, if_neg (Nat.not_lt_zero _)]

/-- **A record that was placed where the reader stands is returned.** -/
theorem readRecord_recordChunks (data : List UInt8)
    (h : At r offset (bytes crc (recordChunks offset data) ++ s)) :
    ∃ r', readRecord crc r = (some data, r') ∧
      At r' (offset + size (recordChunks offset data)) s ∧ r'.reports = r.reports := by
  have hroom := kHeaderSize_le_room_startOf offset
  have hsize := size_trailerChunks offset
  have hstart := h.start
  have hdrop : (bytes crc (recordChunks offset data) ++ s).drop (startOf offset - offset) =
      bytes crc (startedChunks (startOf offset) data) ++ s := by
    have hlen : startOf offset - offset = (bytes crc (trailerChunks offset)).length := by
      rw [length_bytes]
      omega
    rw [recordChunks, bytes_append, append_assoc, hlen, drop_left]
  have hend : offset + size (recordChunks offset data) =
      startOf offset + size (startedChunks (startOf offset) data) := by
    rw [recordChunks, size_append, ← Nat.add_assoc, hsize]
  rw [hdrop] at hstart
  rw [h.readRecord_eq, hend]
  generalize startOf offset = start at hroom hstart
  have hlaid := laid_startedChunks data hroom
  unfold startedChunks at hstart hlaid ⊢
  split_ifs at hstart hlaid ⊢ with hfits
  · rw [bytes_cons, bytes_nil, append_nil] at hstart
    obtain ⟨r', hread, hat, hreports⟩ :=
      readPhysicalRecord_fragment crc hstart hlaid.1 hlaid.2.1
    have hloop := readRecordLoop_fragment false [] 0 hread
    rw [reportPartial_false] at hloop
    refine ⟨_, hloop, hat.setLastRecordOffset _, ?_⟩
    rw [reports_setLastRecordOffset, hreports]
  · rw [bytes_cons, append_assoc] at hstart
    obtain ⟨r', hread, hat, hreports⟩ :=
      readPhysicalRecord_fragment crc hstart hlaid.1 hlaid.2.1
    have haligned : (start + (kHeaderSize +
        (data.take (room start - kHeaderSize)).length)) % kBlockSize = 0 := by
      simp only [length_take, room_eq, kHeaderSize, kBlockSize] at *
      omega
    obtain ⟨r'', hloop, hat', hreports'⟩ :=
      readRecordLoop_restChunks crc _ haligned hat (data.take (room start - kHeaderSize))
        (sub64 r.endOfBufferOffset r.buffer.length)
    refine ⟨r'', ?_, ?_, hreports'.trans hreports⟩
    · have hfirst := readRecordLoop_fragment false [] 0 hread
      rw [reportPartial_false] at hfirst
      rw [take_append_drop] at hloop
      exact hfirst.trans hloop
    · rw [size_cons, ← Nat.add_assoc]
      exact hat'

section SkippedBlock

variable {c : Chunk} {cs : List Chunk}

theorem laid_cons (h : Laid offset (c :: cs)) :
    c.size ≤ room offset ∧ 0 < c.size ∧ Laid (offset + c.size) cs := by
  cases c with
  | trailer n =>
    refine ⟨h.1.le, ?_, h.2.2⟩
    rw [Chunk.size, h.1, room_eq]
    omega
  | gap => exact ⟨h.1, by decide, h.2⟩
  | fragment t payload =>
    refine ⟨h.2.1, ?_, h.2.2⟩
    simp only [Chunk.size, kHeaderSize]
    omega

theorem room_after (hlt : c.size < room offset) :
    room offset = c.size + room (offset + c.size) := by
  simp only [room_eq] at *
  omega

/-- Skipping the rest of a block leaves a layout that starts at the next one,
with no more records than there are after the chunk where the skip began. -/
theorem drop_block (z : Nat) (h : Laid offset (c :: cs)) :
    ∃ ds z', Laid (offset + room offset) ds ∧
      (bytes crc (c :: cs) ++ replicate z 0).drop (room offset) = bytes crc ds ++ replicate z' 0 ∧
      heads ds ≤ heads cs ∧ ds.length ≤ cs.length := by
  induction cs generalizing offset c with
  | nil =>
    obtain ⟨hle, -, -⟩ := laid_cons h
    refine ⟨[], z - (room offset - c.size), trivial, ?_, le_rfl, le_rfl⟩
    rw [bytes_cons, bytes_nil, append_nil, drop_append, length_chunk_bytes,
      drop_eq_nil_of_le (by simpa using hle), drop_replicate]
  | cons d cs ih =>
    obtain ⟨hle, -, hlaid⟩ := laid_cons h
    obtain heq | hlt := Nat.eq_or_lt_of_le hle
    · refine ⟨d :: cs, z, by rwa [← heq], ?_, le_rfl, le_rfl⟩
      rw [bytes_cons, append_assoc, ← heq, ← length_chunk_bytes crc c, drop_left]
    · obtain ⟨ds, z', hds, hdrop, hheads, hlen⟩ := ih hlaid
      have hroom := room_after hlt
      refine ⟨ds, z', ?_, ?_, ?_, ?_⟩
      · rwa [hroom, ← Nat.add_assoc]
      · rw [bytes_cons, append_assoc, hroom, ← drop_drop,
          ← length_chunk_bytes crc c, drop_left, length_chunk_bytes]
        exact hdrop
      · rw [heads_cons]
        omega
      · rw [length_cons]
        omega

end SkippedBlock

/-- A layout followed by zeros, at which the reader stands. -/
def OnLayout (crc : Crc32c) (r : Reader) (cs : List Chunk) : Prop :=
  ∃ offset z, Laid offset cs ∧ At r offset (bytes crc cs ++ List.replicate z 0)

/-- A record that is begun counts as a head already read. -/
def pending (inFragmentedRecord : Bool) : Nat :=
  if inFragmentedRecord then 1 else 0

@[simp]
theorem pending_true : pending true = 1 :=
  rfl

@[simp]
theorem pending_false : pending false = 0 :=
  rfl

variable {cs : List Chunk}

/-- Every record that is returned uses up a chunk that begins a record. -/
theorem readRecordLoop_heads (n : Nat) {r r' : Reader} (hn : cs.length < n)
    (h : OnLayout crc r cs) {inFragmentedRecord : Bool} {scratch data : List UInt8} {o : Nat}
    (hloop : readRecordLoop crc r inFragmentedRecord scratch o = (some data, r')) :
    ∃ ds, OnLayout crc r' ds ∧ heads ds + 1 ≤ heads cs + pending inFragmentedRecord := by
  induction n generalizing r cs inFragmentedRecord scratch o with
  | zero => exact absurd hn (Nat.not_lt_zero _)
  | succ n ih =>
    obtain ⟨offset, z, hlaid, hat⟩ := h
    cases cs with
    | nil =>
      obtain ⟨r'', hnone, -⟩ :=
        readRecordLoop_tail crc z (by simpa using hat) inFragmentedRecord scratch o
      simp [hnone] at hloop
    | cons c cs =>
      rw [length_cons] at hn
      cases c with
      | trailer k =>
        have hskip := hat.skipTrailer (by rw [← hlaid.1]; exact hlaid.2.1)
        rw [← hlaid.1, bytes_cons, append_assoc, drop_left' (by simp [Chunk.bytes])] at hskip
        exact ih (by omega) ⟨_, z, hlaid.2.2, hskip⟩ hloop
      | gap =>
        have hblock := drop_block crc z hlaid
        rw [bytes_cons, append_assoc] at hat hblock
        obtain ⟨r1, hread, hat1, -⟩ := readPhysicalRecord_zeros crc hat hlaid.1
        obtain ⟨ds, z', hds, hdrop, hheads, hlen⟩ := hblock
        rw [Chunk.bytes] at hdrop
        rw [hdrop] at hat1
        rw [readRecordLoop_bad _ _ _ hread] at hloop
        have hcons : heads (Chunk.gap :: cs) = heads cs := by simp [heads_cons, Chunk.isHead]
        cases inFragmentedRecord with
        | true =>
          rw [if_pos rfl] at hloop
          obtain ⟨es, hes, hbound⟩ := ih (by omega)
            ⟨_, z', hds, hat1.reportCorruption scratch.length "error in middle of record"⟩ hloop
          rw [pending_false] at hbound
          exact ⟨es, hes, by omega⟩
        | false =>
          rw [if_neg (by decide)] at hloop
          obtain ⟨es, hes, hbound⟩ := ih (by omega)
            ⟨_, z', hds, hat1⟩ hloop
          exact ⟨es, hes, by omega⟩
      | fragment t payload =>
        rw [bytes_cons, append_assoc] at hat
        obtain ⟨r1, hread, hat1, -⟩ :=
          readPhysicalRecord_fragment crc hat hlaid.1 hlaid.2.1
        have hnext : OnLayout crc r1 cs := ⟨_, z, hlaid.2.2, hat1⟩
        rw [readRecordLoop_fragment _ _ _ hread] at hloop
        cases t with
        | kZeroType => exact absurd rfl hlaid.1
        | kFullType =>
          obtain ⟨-, rfl⟩ := Prod.mk.inj hloop
          refine ⟨cs, ⟨_, z, hlaid.2.2, (hat1.reportPartial _ _ _).setLastRecordOffset _⟩, ?_⟩
          simp [heads_cons, Chunk.isHead]
        | kFirstType =>
          obtain ⟨ds, hds, hbound⟩ := ih (by omega)
            ⟨_, z, hlaid.2.2, hat1.reportPartial _ _ _⟩ hloop
          refine ⟨ds, hds, ?_⟩
          simp only [heads_cons, Chunk.isHead, if_true]
          rw [pending_true] at hbound
          omega
        | kMiddleType =>
          cases inFragmentedRecord with
          | true => exact ih (by omega) hnext hloop
          | false => exact ih (by omega) ⟨_, z, hlaid.2.2, hat1.reportCorruption _ _⟩ hloop
        | kLastType =>
          cases inFragmentedRecord with
          | true =>
            obtain ⟨-, rfl⟩ := Prod.mk.inj hloop
            refine ⟨cs, ⟨_, z, hlaid.2.2, hat1.setLastRecordOffset _⟩, ?_⟩
            simp [heads_cons, Chunk.isHead]
          | false => exact ih (by omega) ⟨_, z, hlaid.2.2, hat1.reportCorruption _ _⟩ hloop

/-- **The reader returns at most as many records as the layout begins.** -/
theorem length_readAll_le_heads (r : Reader) (h : OnLayout crc r cs) :
    (readAll crc r).1.length ≤ heads cs := by
  fun_induction readAll crc r generalizing cs with
  | case1 r r' hread => exact Nat.zero_le _
  | case2 r data r' hread rest =>
    rename_i ih
    obtain ⟨offset, z, -, hat⟩ := id h
    rw [hat.readRecord_eq] at hread
    obtain ⟨ds, hds, hbound⟩ := readRecordLoop_heads crc _ (Nat.lt_succ_self _) h hread
    have hrest := ih hds
    rw [pending_false] at hbound
    change (readAll crc r').1.length + 1 ≤ heads cs
    omega

end Log
end HotTLBApps.PebblesDB
