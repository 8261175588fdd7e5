import HotTLBApps.PebblesDB.LogReading
import HotTLBApps.PebblesDB.LogWriting

/-!
# PebblesDB: writing a log and reading it back

A sequence of records is added one after another to a fresh file, and the file,
followed by any number of zero bytes, is read from its start.

`logChunks o rs` is the layout of the records `rs` from offset `o` on.  It has a
gap wherever `AddRecord` reserves seven bytes more than it writes.  The reader
takes a gap for the end of the block and goes on with the next block, so the
record after the gap is lost.
-/

namespace HotTLBApps.PebblesDB
namespace Log

open List Option

/-- `AddRecord` for one record after another: their statuses and the writer
after them, or `none` when an assertion ends the process. -/
def addRecords
    (ndebug : Bool) (crc : Crc32c) : Writer → List (List UInt8) → Option (List Status × Writer)
  | w, [] => some ([], w)
  | w, x :: xs =>
      match addRecord ndebug crc w x with
      | none => none
      | some (s, w') => (addRecords ndebug crc w' xs).map fun p => (s :: p.1, p.2)

/-- The records are added without an error, and what is read back from the file
and any zeros after it are exactly these records, up to the end of the file and
without a report. -/
def RoundTrips (ndebug : Bool) (crc : Crc32c) (records : List (List UInt8)) : Prop :=
  ∃ statuses w, addRecords ndebug crc Writer.new records = some (statuses, w) ∧
    (∀ s ∈ statuses, s = .ok) ∧
    ∀ z, ∃ r, readAll crc
        (Reader.new
          { rest := w.dest.contents ++ List.replicate z 0, broken := false } true 0) =
          (records, r) ∧
      r.eof = true ∧ r.reports = []

/-- No record but the last one is followed by a gap. -/
def NoGap : Nat → List (List UInt8) → Prop
  | _, [] => True
  | offset, x :: xs =>
      (xs ≠ [] → ¬ GapAfter offset x.length) ∧ NoGap (nextOffset offset x.length) xs

/-- No record but the last one starts at a truncated offset. -/
def NoTruncation : Nat → List (List UInt8) → Prop
  | _, [] => True
  | offset, x :: xs =>
      (xs ≠ [] → ¬ Truncates offset) ∧ NoTruncation (nextOffset offset x.length) xs

/-- The assertion of `computeRecordSize` holds for every record. -/
def AssertionsHold (ndebug : Bool) : Nat → List (List UInt8) → Prop
  | _, [] => True
  | offset, x :: xs =>
      AssertionHolds ndebug offset x.length ∧
        AssertionsHold ndebug (nextOffset offset x.length) xs

/-- The end of the range reserved for the last record. -/
def endOffset : Nat → List (List UInt8) → Nat
  | offset, [] => offset
  | offset, x :: xs => endOffset (nextOffset offset x.length) xs

/-- The gap between a record and the records after it. -/
def gapChunks (offset n : Nat) (xs : List (List UInt8)) : List Chunk :=
  if xs ≠ [] ∧ GapAfter offset n then [.gap] else []

/-- The layout of records from `offset` on. -/
def logChunks : Nat → List (List UInt8) → List Chunk
  | _, [] => []
  | offset, x :: xs =>
      recordChunks offset x ++
        (gapChunks offset x.length xs ++ logChunks (nextOffset offset x.length) xs)

theorem le_nextOffset (offset n : Nat) :
    offset ≤ nextOffset offset n ∧ recordEnd offset n ≤ nextOffset offset n := by
  have hle := le_startOf offset
  have hlt := lt_recordEnd offset n
  rw [nextOffset]
  omega

theorem le_endOffset (offset : Nat) (rs : List (List UInt8)) : offset ≤ endOffset offset rs := by
  induction rs generalizing offset with
  | nil => exact le_rfl
  | cons x xs ih => exact (le_nextOffset offset x.length).1.trans (ih _)

variable {offset n : Nat}

theorem recordEnd_of_gapAfter (h : GapAfter offset n) : recordEnd offset n % kBlockSize = 0 := by
  obtain ⟨hlong, hfull⟩ := h
  have hnot : ¬ kHeaderSize + n ≤ room (startOf offset) := by omega
  simp only [recordEnd, if_neg hnot]
  simp only [room_eq, perBlock, kBlockSize, kHeaderSize] at *
  omega

theorem nextOffset_of_gapAfter (h : GapAfter offset n) :
    nextOffset offset n = recordEnd offset n + kHeaderSize := by
  rw [nextOffset, gapSize, if_pos h]

theorem nextOffset_of_not_gapAfter (h : ¬ GapAfter offset n) :
    nextOffset offset n = recordEnd offset n := by
  rw [nextOffset, gapSize, if_neg h, Nat.add_zero]

theorem heads_logChunks (offset : Nat) (rs : List (List UInt8)) :
    heads (logChunks offset rs) = rs.length := by
  induction rs generalizing offset with
  | nil => rfl
  | cons x xs ih =>
    have hgap : heads (gapChunks offset x.length xs) = 0 := by
      unfold gapChunks
      split <;> rfl
    rw [logChunks, heads_append, heads_append, heads_recordChunks, hgap, ih, length_cons]
    omega

/-- **The layout of a log respects the block structure.** -/
theorem laid_logChunks (offset : Nat) (rs : List (List UInt8)) :
    Laid offset (logChunks offset rs) := by
  induction rs generalizing offset with
  | nil => trivial
  | cons x xs ih =>
    apply laid_append (laid_recordChunks offset x)
    rw [size_recordChunks]
    have htail := ih (nextOffset offset x.length)
    unfold gapChunks
    split
    · rename_i hgap
      have haligned := recordEnd_of_gapAfter hgap.2
      have hnext := nextOffset_of_gapAfter hgap.2
      refine ⟨?_, ?_⟩
      · simp only [room_eq, kBlockSize, kHeaderSize] at *
        omega
      · rw [← hnext]
        exact htail
    · rename_i hgap
      cases xs with
      | nil => trivial
      | cons y ys =>
        have hnot : ¬ GapAfter offset x.length := by
          intro h
          exact hgap ⟨by simp, h⟩
        rw [← nextOffset_of_not_gapAfter hnot]
        exact htail

variable (crc : Crc32c) {r r' : Reader}

/-- `readAll` looks at the reader only through `readRecord`. -/
theorem readAll_cons {x : List UInt8} (h : readRecord crc r = (some x, r')) :
    readAll crc r = (x :: (readAll crc r').1, (readAll crc r').2) := by
  rw [readAll]
  split
  · rename_i hread
    simp [h] at hread
  · rename_i hread
    rw [h] at hread
    obtain ⟨hx, rfl⟩ := Prod.mk.inj hread
    obtain rfl := some.inj hx
    rfl

theorem readAll_nil (h : readRecord crc r = (none, r')) : readAll crc r = ([], r') := by
  rw [readAll]
  split
  · rename_i hread
    rw [h] at hread
    obtain ⟨-, rfl⟩ := Prod.mk.inj hread
    rfl
  · rename_i hread
    simp [h] at hread

theorem readAll_congr (h : readRecord crc r = readRecord crc r') :
    readAll crc r = readAll crc r' := by
  rcases hread : readRecord crc r' with ⟨_ | x, r1⟩
  · rw [readAll_nil crc (h.trans hread), readAll_nil crc hread]
  · rw [readAll_cons crc (h.trans hread), readAll_cons crc hread]

variable {z : Nat}

theorem readAll_tail (h : At r offset (replicate z 0)) :
    ∃ r', readAll crc r = ([], r') ∧ r'.eof = true ∧ r'.reports = r.reports := by
  obtain ⟨r', hloop, hfinal⟩ := readRecordLoop_tail crc z h false [] 0
  rw [← h.readRecord_eq crc] at hloop
  exact ⟨r', readAll_nil crc hloop, hfinal rfl⟩

variable (rs : List (List UInt8))

/-- **Without a gap exactly the records are read back.** -/
theorem readAll_logChunks (hgap : NoGap offset rs)
    (h : At r offset (bytes crc (logChunks offset rs) ++ replicate z 0)) :
    ∃ r', readAll crc r = (rs, r') ∧ r'.eof = true ∧ r'.reports = r.reports := by
  induction rs generalizing r offset with
  | nil => exact readAll_tail crc h
  | cons x xs ih =>
    obtain ⟨hfirst, hrest⟩ := hgap
    rw [logChunks, bytes_append, append_assoc] at h
    obtain ⟨r1, hread, hat, hreports⟩ := readRecord_recordChunks crc x h
    rw [size_recordChunks] at hat
    have hnone : gapChunks offset x.length xs = [] := by
      rw [gapChunks, if_neg]
      rintro ⟨hne, hg⟩
      exact hfirst hne hg
    rw [hnone, nil_append] at hat
    obtain ⟨r2, hall, heof, hreports'⟩ :
        ∃ r2, readAll crc r1 = (xs, r2) ∧ r2.eof = true ∧ r2.reports = r1.reports := by
      cases xs with
      | nil => exact readAll_tail crc hat
      | cons y ys =>
        rw [← nextOffset_of_not_gapAfter (hfirst (by simp))] at hat
        exact ih hrest hat
    refine ⟨r2, ?_, heof, hreports'.trans hreports⟩
    rw [readAll_cons crc hread, hall]

/-- The record after a gap is not read. -/
theorem length_readAll_gap {c : Chunk} {cs : List Chunk}
    (haligned : offset % kBlockSize = 0) (hlaid : Laid offset (.gap :: c :: cs))
    (h : At r offset (bytes crc (.gap :: c :: cs) ++ replicate z 0)) :
    (readAll crc r).1.length ≤ heads cs := by
  have hlt : Chunk.gap.size < room offset := by
    simp only [Chunk.size, room_eq, kBlockSize, kHeaderSize] at *
    omega
  have hroom := room_after hlt
  have hdropped : (bytes crc (.gap :: c :: cs) ++ replicate z 0).drop (room offset) =
      (bytes crc (c :: cs) ++ replicate z 0).drop (room (offset + Chunk.gap.size)) := by
    rw [bytes_cons, append_assoc, hroom, ← drop_drop, ← length_chunk_bytes crc .gap, drop_left]
  obtain ⟨ds, z', hds, hdrop, hheads, -⟩ := drop_block crc z hlaid.2
  obtain ⟨r1, hread, hat, -⟩ : ∃ r1, readPhysicalRecord crc r =
        { type := kBadRecord, fragment := [], reader := r1 } ∧
      At r1 (offset + room offset)
        ((bytes crc (.gap :: c :: cs) ++ replicate z 0).drop (room offset)) ∧
      r1.reports = r.reports := by
    rw [bytes_cons, append_assoc] at h ⊢
    exact readPhysicalRecord_zeros crc h hlaid.1
  have hsame : readRecord crc r = readRecord crc r1 := by
    rw [h.readRecord_eq crc, hat.readRecord_eq crc, readRecordLoop_bad _ _ _ hread,
      if_neg (by decide)]
  have hlayout : OnLayout crc r1 ds := by
    refine ⟨offset + room offset, z', ?_, ?_⟩
    · rw [hroom, ← Nat.add_assoc]
      exact hds
    · rw [hdropped] at hat
      exact hdrop ▸ hat
  rw [readAll_congr crc hsame]
  exact (length_readAll_le_heads crc r1 hlayout).trans hheads

/-- The layout of a log begins with a chunk that begins a record, unless it
starts in a trailer. -/
theorem logChunks_of_room (x : List UInt8) (xs : List (List UInt8))
    (h : kHeaderSize ≤ room offset) :
    ∃ c cs, logChunks offset (x :: xs) = c :: cs ∧ heads cs = xs.length := by
  have hheads := heads_logChunks offset (x :: xs)
  have htrailer : trailerChunks offset = [] := by rw [trailerChunks, if_neg (by omega)]
  rw [logChunks, recordChunks, htrailer, nil_append, startedChunks] at hheads ⊢
  split_ifs at hheads ⊢
  all_goals
    refine ⟨_, _, rfl, ?_⟩
    rw [cons_append, heads_cons, length_cons] at hheads
    simpa [Chunk.isHead] using hheads

/-- **Records that are read back have no gap between them.** -/
theorem noGap_of_readAll
    (h : At r offset (bytes crc (logChunks offset rs) ++ replicate z 0))
    (hall : (readAll crc r).1 = rs) : NoGap offset rs := by
  induction rs generalizing r offset with
  | nil => trivial
  | cons x xs ih =>
    have hlaid := laid_logChunks (nextOffset offset x.length) xs
    rw [logChunks, bytes_append, append_assoc] at h
    obtain ⟨r1, hread, hat, -⟩ := readRecord_recordChunks crc x h
    rw [size_recordChunks] at hat
    rw [readAll_cons crc hread] at hall
    obtain ⟨-, hxs⟩ := cons.inj hall
    cases xs with
    | nil => exact ⟨by simp, trivial⟩
    | cons y ys =>
      have hnot : ¬ GapAfter offset x.length := by
        intro hgap
        have haligned := recordEnd_of_gapAfter hgap
        have hnext := nextOffset_of_gapAfter hgap
        have hroom : kHeaderSize ≤ room (nextOffset offset x.length) ∧
            kHeaderSize ≤ room (recordEnd offset x.length) := by
          rw [hnext]
          simp only [room_eq, kBlockSize, kHeaderSize] at *
          omega
        obtain ⟨c, cs, hchunks, hheads⟩ := logChunks_of_room y ys hroom.1
        rw [gapChunks, if_pos ⟨by simp, hgap⟩, hchunks] at hat
        rw [hchunks, hnext] at hlaid
        have hfew := length_readAll_gap crc haligned ⟨hroom.2, hlaid⟩ hat
        rw [hxs, hheads, length_cons] at hfew
        omega
      rw [gapChunks, if_neg (fun hg => hnot hg.2), nil_append] at hat
      rw [← nextOffset_of_not_gapAfter hnot] at hat
      exact ⟨fun _ => hnot, ih hat hxs⟩

variable {ndebug : Bool}

/-- The records after a gap follow zeros. -/
theorem overwrite_gapChunks {contents data : List UInt8} {xs : List (List UInt8)}
    (h : contents.length ≤ offset) (hxs : xs ≠ []) (hn : offset + data.length = recordEnd offset n)
    (rest : List UInt8) :
    Bytes.overwrite 0 (Bytes.overwrite 0 contents offset data) (nextOffset offset n) rest =
      Bytes.overwrite 0 contents offset
        (data ++ (bytes crc (gapChunks offset n xs) ++ rest)) := by
  have hgaps : bytes crc (gapChunks offset n xs) = replicate (gapSize offset n) 0 := by
    by_cases hgap : GapAfter offset n
    · simp [gapChunks, gapSize, hgap, hxs, Chunk.bytes]
    · simp [gapChunks, gapSize, hgap]
  rw [hgaps, nextOffset, ← hn, Bytes.overwrite_overwrite_gap 0 data rest _ h]

/-- One record of several, at an offset that is not truncated. -/
theorem addRecord_next {contents x : List UInt8} (htrunc : ¬ Truncates offset)
    (hassert : AssertionHolds ndebug offset x.length) (hend : nextOffset offset x.length < 2 ^ 64) :
    addRecord ndebug crc { dest := fileOf contents, offset := offset } x = some (.ok,
        { dest := fileOf
            (Bytes.overwrite 0 contents offset (bytes crc (recordChunks offset x)))
          offset := nextOffset offset x.length }) := by
  have hrecord := (le_nextOffset offset x.length).2
  rw [addRecord_fileOf crc x contents (by omega), reserve_eq htrunc hend hassert]
  rfl

variable {contents : List UInt8}

theorem length_overwrite_recordChunks (x : List UInt8) (h : contents.length ≤ offset) :
    (Bytes.overwrite 0 contents offset (bytes crc (recordChunks offset x))).length =
      recordEnd offset x.length := by
  rw [Bytes.length_overwrite, length_bytes, size_recordChunks]
  have hle := le_startOf offset
  have hlt := lt_recordEnd offset x.length
  omega

/-- **The file holds the layout of the records.** -/
theorem addRecords_logChunks (hne : rs ≠ []) (h : contents.length ≤ offset)
    (htrunc : NoTruncation offset rs) (hassert : AssertionsHold ndebug offset rs)
    (hend : endOffset offset rs < 2 ^ 64) :
    ∃ next, addRecords ndebug crc { dest := fileOf contents, offset := offset } rs =
      some (replicate rs.length .ok,
        { dest := fileOf (Bytes.overwrite 0 contents offset (bytes crc (logChunks offset rs)))
          offset := next }) := by
  induction rs generalizing contents offset with
  | nil => exact absurd rfl hne
  | cons x xs ih =>
    have hle := le_endOffset (nextOffset offset x.length) xs
    have hrecord := (le_nextOffset offset x.length).2
    rw [endOffset] at hend
    cases xs with
    | nil =>
      obtain ⟨next, hnext⟩ := isSome_iff_exists.mp
        ((reserve_isSome_iff (by omega)).mpr hassert.1)
      refine ⟨next, ?_⟩
      rw [addRecords, addRecord_fileOf crc x contents (by omega), hnext]
      simp [addRecords, logChunks, gapChunks]
    | cons y ys =>
      have hsize : offset + (bytes crc (recordChunks offset x)).length =
          recordEnd offset x.length := by
        rw [length_bytes, size_recordChunks]
      have hlen := length_overwrite_recordChunks crc x h
      obtain ⟨last, hrest⟩ :=
        ih (by simp) (by rw [hlen]; exact hrecord) htrunc.2 hassert.2 hend
      have hbytes := overwrite_gapChunks crc h (cons_ne_nil y ys) hsize
        (bytes crc (logChunks (nextOffset offset x.length) (y :: ys)))
      rw [← bytes_append, ← bytes_append, ← logChunks] at hbytes
      refine ⟨last, ?_⟩
      rw [addRecords, addRecord_next crc (htrunc.1 (by simp)) hassert.1 (by omega), ← hbytes]
      simp only [hrest, map_some, length_cons, replicate_succ]

theorem addRecords_new (htrunc : NoTruncation 0 rs)
    (hassert : AssertionsHold ndebug 0 rs) (hend : endOffset 0 rs < 2 ^ 64) :
    ∃ next, addRecords ndebug crc Writer.new rs = some (replicate rs.length .ok,
        { dest := fileOf (bytes crc (logChunks 0 rs)), offset := next }) := by
  cases rs with
  | nil => exact ⟨0, rfl⟩
  | cons x xs =>
    have hempty : ([] : List UInt8).length ≤ 0 := Nat.le_refl 0
    obtain ⟨next, hadd⟩ :=
      addRecords_logChunks crc (x :: xs) (by simp) hempty htrunc hassert hend
    rw [Bytes.overwrite_of_length_le 0 _ hempty] at hadd
    exact ⟨next, hadd⟩

theorem assertionsHold_of_addRecords (htrunc : NoTruncation offset rs)
    (hend : endOffset offset rs < 2 ^ 64)
    (hadd : (addRecords ndebug crc { dest := fileOf contents, offset := offset } rs).isSome) :
    AssertionsHold ndebug offset rs := by
  induction rs generalizing contents offset with
  | nil => trivial
  | cons x xs ih =>
    have hle := le_endOffset (nextOffset offset x.length) xs
    have hrecord := (le_nextOffset offset x.length).2
    rw [endOffset] at hend
    have hfirst : AssertionHolds ndebug offset x.length := by
      rw [← reserve_isSome_iff (by omega)]
      by_contra hnone
      rw [Bool.not_eq_true, isSome_eq_false_iff, isNone_iff_eq_none] at hnone
      simp [addRecords, addRecord, hnone] at hadd
    refine ⟨hfirst, ?_⟩
    cases xs with
    | nil => trivial
    | cons y ys =>
      rw [addRecords, addRecord_next crc (htrunc.1 (by simp)) hfirst (by omega)] at hadd
      rw [isSome_map] at hadd
      exact ih htrunc.2 hend hadd

end Log
end HotTLBApps.PebblesDB
