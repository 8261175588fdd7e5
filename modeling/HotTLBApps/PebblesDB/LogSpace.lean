import HotTLBApps.PebblesDB.LogRoundTrip

/-!
# PebblesDB: how many bytes a log needs

A lower bound on the files from which given records can be read, whatever wrote
them, and an upper bound on the file that `AddRecord` leaves behind when it
truncates an offset.  Together they show that a truncated offset loses records.

`fileEnd o rs` is the end of the records `rs` placed from offset `o` on with
nothing between them.
-/

namespace HotTLBApps.PebblesDB
namespace Log

open List Option

variable (offset n k : Nat)

section RecordEnd

/-- `recordEnd` by the payload position `u` in the block of the first header. -/
theorem recordEnd_eq (offset n : Nat) : recordEnd offset n = if startOf offset % 32768 + n = 0 then
        startOf offset + 7
      else
        startOf offset / 32768 * 32768 + (startOf offset % 32768 + n - 1) / 32761 * 32768 + 8 +
          (startOf offset % 32768 + n - 1) % 32761 := by
  by_cases hfits : kHeaderSize + n ≤ room (startOf offset)
  · simp only [recordEnd, if_pos hfits]
    simp only [room_eq, kHeaderSize] at *
    split <;> omega
  · simp only [recordEnd, if_neg hfits]
    simp only [room_eq, perBlock, kBlockSize, kHeaderSize] at *
    split <;> omega

variable {a b : Nat}

theorem startOf_mono (h : a ≤ b) : startOf a ≤ startOf b := by
  unfold startOf
  split <;> split <;> simp only [room_eq, kHeaderSize] at * <;> omega

theorem recordEnd_mono (n : Nat) (h : a ≤ b) : recordEnd a n ≤ recordEnd b n := by
  have hstart := startOf_mono h
  have ha := kHeaderSize_le_room_startOf a
  rw [recordEnd_eq, recordEnd_eq]
  generalize startOf a = s at *
  generalize startOf b = t at *
  simp only [room_eq, kHeaderSize] at *
  split <;> split <;> omega

theorem recordEnd_shift :
    recordEnd (offset + 32768 * k) n = recordEnd offset n + 32768 * k := by
  have hstart : startOf (offset + 32768 * k) = startOf offset + 32768 * k := by
    unfold startOf
    split <;> split <;> simp only [room_eq, kHeaderSize] at * <;> omega
  rw [recordEnd_eq, recordEnd_eq, hstart]
  generalize startOf offset = s
  split <;> split <;> omega

end RecordEnd

/-- The end of records placed from `offset` on with nothing between them. -/
def fileEnd : Nat → List (List UInt8) → Nat
  | offset, [] => offset
  | offset, x :: xs => fileEnd (recordEnd offset x.length) xs

theorem fileEnd_mono {a b : Nat} (rs : List (List UInt8)) (h : a ≤ b) :
    fileEnd a rs ≤ fileEnd b rs := by
  induction rs generalizing a b with
  | nil => exact h
  | cons x xs ih => exact ih (recordEnd_mono x.length h)

variable (offset k : Nat)

theorem fileEnd_shift (rs : List (List UInt8)) :
    fileEnd (offset + 32768 * k) rs = fileEnd offset rs + 32768 * k := by
  induction rs generalizing offset with
  | nil => rfl
  | cons x xs ih => rw [fileEnd, recordEnd_shift, ih, fileEnd]

theorem le_fileEnd (offset : Nat) (rs : List (List UInt8)) :
    offset + kHeaderSize * rs.length ≤ fileEnd offset rs := by
  induction rs generalizing offset with
  | nil => exact le_rfl
  | cons x xs ih =>
    have hrest := ih (recordEnd offset x.length)
    have hle := le_startOf offset
    have hlt := lt_recordEnd offset x.length
    rw [fileEnd, length_cons, Nat.mul_succ]
    omega

section ReaderSpace

variable (crc : Crc32c) {r : Reader}

/-- Parsing ends the file, drops the rest of the buffer or takes a fragment. -/
theorem parseRecord_cases (hinitial : r.initialOffset = 0) : (parseRecord crc r).type = kEof ∨
      (∃ r', parseRecord crc r = { type := kBadRecord, fragment := [], reader := r' } ∧
        (r' = { r with buffer := [] } ∨
          ∃ n reason, r' = reportCorruption { r with buffer := [] } n reason)) ∨
      ∃ t payload, kHeaderSize + payload.length ≤ r.buffer.length ∧ parseRecord crc r =
          { type := t
            fragment := payload
            reader := { r with buffer := r.buffer.drop (kHeaderSize + payload.length) } } := by
  simp only [parseRecord]
  split_ifs with hlong heof hzero hmatch hinit
  · exact .inl rfl
  · exact .inr (.inl ⟨_, rfl, .inr ⟨_, _, rfl⟩⟩)
  · exact .inr (.inl ⟨_, rfl, .inl rfl⟩)
  · exact .inr (.inl ⟨_, rfl, .inr ⟨_, _, rfl⟩⟩)
  · rw [hinitial] at hinit
    exact absurd hinit (Nat.not_lt_zero _)
  · have hlen : ((r.buffer.drop kHeaderSize).take (headerLength r.buffer)).length =
        headerLength r.buffer := by
      rw [length_take, length_drop]
      omega
    refine .inr (.inr ⟨_, _, ?_, by rw [hlen]⟩)
    rw [hlen]
    omega

variable {s : List UInt8}

/-- Where the reader can stand after a physical record of any file: after a
fragment that lies within a block and within the file, or further on. -/
theorem readPhysicalRecord_any {offset : Nat} (h : At r offset s) :
    (readPhysicalRecord crc r).type = kEof ∨ ∃ next, offset ≤ next ∧
        At (readPhysicalRecord crc r).reader next (s.drop (next - offset)) ∧
        ((readPhysicalRecord crc r).type = kBadRecord ∨ next = startOf offset +
              (kHeaderSize + (readPhysicalRecord crc r).fragment.length) ∧
            kHeaderSize + (readPhysicalRecord crc r).fragment.length ≤ room (startOf offset) ∧
            next ≤ offset + s.length) := by
  have hle := le_startOf offset
  have hroom := kHeaderSize_le_room_startOf offset
  have hstart := h.start
  by_cases hshort : (s.drop (startOf offset - offset)).length < kHeaderSize
  · obtain ⟨r', hread, -⟩ := readPhysicalRecord_short crc hstart hshort
    left
    rw [hread]
  · obtain ⟨r', hfilled, -, hread⟩ := hstart.fill crc hroom (by omega)
    have hclear := hfilled.clear
    have hskip : s.drop (startOf offset + room (startOf offset) - offset) =
        (s.drop (startOf offset - offset)).drop (room (startOf offset)) := by
      rw [drop_drop]
      congr 1
      omega
    rw [← hskip] at hclear
    rcases parseRecord_cases crc hfilled.initialOffset with
      heof | ⟨r1, hparse, hr1⟩ | ⟨t, payload, hfits, hparse⟩
    · left
      rw [hread, heof]
    · right
      refine ⟨startOf offset + room (startOf offset), by omega, ?_, .inl ?_⟩
      · rw [hread, hparse]
        obtain rfl | ⟨n, reason, rfl⟩ := hr1
        · exact hclear
        · exact hclear.reportCorruption n reason
      · rw [hread, hparse]
    · right
      rw [hfilled.buffer, length_take, length_drop] at hfits
      obtain ⟨hblock, hfile⟩ := Nat.le_min.mp hfits
      have hpos : 0 < kHeaderSize + payload.length := by
        simp only [kHeaderSize]
        omega
      have hat := hfilled.consume hblock hpos
      rw [drop_drop] at hat
      refine ⟨startOf offset + (kHeaderSize + payload.length), by omega, ?_, .inr ?_⟩
      · rw [hread, hparse]
        rwa [show startOf offset + (kHeaderSize + payload.length) - offset =
          startOf offset - offset + (kHeaderSize + payload.length) by omega]
      · rw [hread, hparse]
        refine ⟨rfl, hblock, ?_⟩
        omega

/-- Reading a record of `n` bytes, `read` of which are read already, from
`offset` on takes no fewer bytes than placing it at `first`. -/
def Costs (first read offset : Nat) : Prop :=
  ∀ k, recordEnd first (read + k) ≤ recordEnd offset k

variable {first offset : Nat}

theorem costs_zero (h : first ≤ offset) : Costs first 0 offset := by
  intro k
  rw [Nat.zero_add]
  exact recordEnd_mono k h

variable {first read offset p : Nat}

theorem Costs.fragment (h : Costs first read offset)
    (hfits : kHeaderSize + p ≤ room (startOf offset)) :
    Costs first (read + p) (startOf offset + (kHeaderSize + p)) := by
  intro k
  rw [Nat.add_assoc]
  refine (h (p + k)).trans ?_
  -- `p` bytes and then the rest take no fewer bytes than the layout of the whole record
  rw [recordEnd_eq, recordEnd_eq]
  generalize startOf offset = s at *
  have hle := le_startOf (s + (kHeaderSize + p))
  generalize startOf (s + (kHeaderSize + p)) = t at *
  simp only [room_eq, kHeaderSize] at *
  split <;> split <;> omega

theorem Costs.last (h : Costs first read offset) (hfits : kHeaderSize + p ≤ room (startOf offset)) :
    recordEnd first (read + p) ≤ startOf offset + (kHeaderSize + p) := by
  refine (h p).trans ?_
  simp only [recordEnd, if_pos hfits]
  omega

/-- The reader took a record from the bytes `s` at `offset` and stands within
them, at `bound` or after it. -/
def ReadTo (r : Reader) (bound offset : Nat) (s : List UInt8) : Prop :=
  ∃ next, bound ≤ next ∧ offset + kHeaderSize ≤ next ∧ next ≤ offset + s.length ∧
    At r next (s.drop (next - offset))

theorem ReadTo.of_drop {bound offset later : Nat} (hle : offset ≤ later)
    (h : ReadTo r bound later (s.drop (later - offset))) : ReadTo r bound offset s := by
  obtain ⟨next, hbound, hpos, hend, hat⟩ := h
  rw [length_drop] at hend
  rw [drop_drop] at hat
  refine ⟨next, hbound, by omega, ?_, ?_⟩
  · simp only [kHeaderSize] at hpos
    omega
  · rwa [show next - offset = later - offset + (next - later) by omega]

section Step

theorem readPhysicalRecord_moves (h : At r offset s)
    (heof : ¬ (readPhysicalRecord crc r).type = kEof) : ∃ next, offset ≤ next ∧
      At (readPhysicalRecord crc r).reader next (s.drop (next - offset)) := by
  obtain hend | ⟨next, hle, hat, -⟩ := readPhysicalRecord_any crc h
  · exact absurd hend heof
  · exact ⟨next, hle, hat⟩

/-- A fragment lies within its block and within the file. -/
theorem readPhysicalRecord_within (h : At r offset s) {t : RecordType}
    (htype : (readPhysicalRecord crc r).type = t.toByte.toNat) :
    ∃ p, p = (readPhysicalRecord crc r).fragment.length ∧ kHeaderSize + p ≤ room (startOf offset) ∧
      startOf offset + (kHeaderSize + p) ≤ offset + s.length ∧
      At (readPhysicalRecord crc r).reader (startOf offset + (kHeaderSize + p))
        (s.drop (startOf offset + (kHeaderSize + p) - offset)) := by
  obtain hend | ⟨next, -, hat, hb | ⟨rfl, hfits, hend⟩⟩ := readPhysicalRecord_any crc h
  · exact absurd (htype.symm.trans hend) (by cases t <;> decide)
  · exact absurd (htype.symm.trans hb) (by cases t <;> decide)
  · exact ⟨_, rfl, hfits, hend, hat⟩

end Step

variable {r r' : Reader}

/-- A record that is returned took up at least its layout. -/
theorem readRecordLoop_costs {s scratch data : List UInt8} {inFragmentedRecord : Bool} {o : Nat}
    (h : At r offset s) (hfirst : first ≤ offset)
    (hcosts : inFragmentedRecord = true → Costs first scratch.length offset)
    (hloop : readRecordLoop crc r inFragmentedRecord scratch o = (some data, r')) :
    ReadTo r' (recordEnd first data.length) offset s := by
  have hstart := le_startOf offset
  fun_induction readRecordLoop crc r inFragmentedRecord scratch o generalizing offset s
  case case1 => simp at hloop
  case case2 r inF scratch o off p next heof htype =>
    obtain ⟨n, rfl, hfits, hend, hat⟩ := readPhysicalRecord_within crc h htype
    obtain ⟨hdata, rfl⟩ := Prod.mk.inj hloop
    obtain rfl := some.inj hdata
    have hlast := (costs_zero hfirst).last hfits
    rw [Nat.zero_add] at hlast
    exact ⟨_, hlast, by omega, hend, (hat.reportPartial _ _ _).setLastRecordOffset _⟩
  case case3 r inF scratch o off p next heof _ htype ih =>
    obtain ⟨n, rfl, hfits, hend, hat⟩ := readPhysicalRecord_within crc h htype
    have hnext := (costs_zero hfirst).fragment hfits
    rw [Nat.zero_add] at hnext
    exact .of_drop (by omega) (ih (hat.reportPartial _ _ _) (by omega) (fun _ => hnext)
      hloop (le_startOf _))
  case case4 r scratch o p next heof _ _ htype ih =>
    obtain ⟨n, rfl, hfits, hend, hat⟩ := readPhysicalRecord_within crc h htype
    have hnext := (hcosts rfl).fragment hfits
    rw [← length_append] at hnext
    exact .of_drop (by omega) (ih hat (by omega) (fun _ => hnext) hloop (le_startOf _))
  case case6 r scratch o p next heof _ _ _ htype =>
    obtain ⟨n, rfl, hfits, hend, hat⟩ := readPhysicalRecord_within crc h htype
    obtain ⟨hdata, rfl⟩ := Prod.mk.inj hloop
    obtain rfl := some.inj hdata
    have hlast := (hcosts rfl).last hfits
    rw [← length_append] at hlast
    exact ⟨_, hlast, by omega, hend, hat.setLastRecordOffset _⟩
  case case9 r _ _ _ _ _ heof _ _ _ _ _ _ ih =>
    obtain ⟨next, hle, hat⟩ := readPhysicalRecord_moves crc h heof
    exact .of_drop hle (ih hat (by omega) (by simp) hloop (le_startOf _))
  all_goals
    -- The fragments that belong to no record are dropped with a report.
    rename_i ih
    obtain ⟨next, hle, hat⟩ := readPhysicalRecord_moves crc h (by assumption)
    exact .of_drop hle
      (ih (hat.reportCorruption _ _) (by omega) (by simp) hloop (le_startOf _))

/-- **Records read from a file take up at least their layout.** -/
theorem fileEnd_le_of_readAll (rs : List (List UInt8)) (h : At r offset s) (hfirst : first ≤ offset)
    (hne : rs ≠ []) (hall : readAll crc r = (rs, r')) : fileEnd first rs ≤ offset + s.length := by
  induction rs generalizing r first offset s with
  | nil => exact absurd rfl hne
  | cons x xs ih =>
    rcases hread : readRecord crc r with ⟨_ | y, r1⟩
    · rw [readAll_nil crc hread] at hall
      simp at hall
    · rw [readAll_cons crc hread] at hall
      obtain ⟨hlist, hlast⟩ := Prod.mk.inj hall
      obtain ⟨rfl, hxs⟩ := cons.inj hlist
      rw [h.readRecord_eq crc] at hread
      obtain ⟨next, hbound, -, hend, hat⟩ :=
        readRecordLoop_costs crc h hfirst (by simp) hread
      rw [fileEnd]
      cases xs with
      | nil => exact hbound.trans hend
      | cons z zs =>
        have hrest := ih hat hbound (by simp) (Prod.ext hxs hlast)
        rw [length_drop] at hrest
        omega

end ReaderSpace

section WriterSpace

variable (crc : Crc32c) {ndebug : Bool}

theorem gapAfter_shift :
    GapAfter (offset + 32768 * k) n ↔ GapAfter offset n := by
  have hroom : room (startOf (offset + 32768 * k)) = room (startOf offset) := by
    unfold startOf
    split <;> split <;> simp only [room_eq, kHeaderSize] at * <;> omega
  rw [GapAfter, GapAfter, hroom]

theorem nextOffset_shift :
    nextOffset (offset + 32768 * k) n = nextOffset offset n + 32768 * k := by
  simp only [nextOffset, gapSize, gapAfter_shift, recordEnd_shift]
  omega

theorem noGap_shift (rs : List (List UInt8)) :
    NoGap (offset + 32768 * k) rs ↔ NoGap offset rs := by
  induction rs generalizing offset with
  | nil => exact Iff.rfl
  | cons x xs ih => rw [NoGap, NoGap, gapAfter_shift, nextOffset_shift, ih]

theorem endOffset_shift (rs : List (List UInt8)) :
    endOffset (offset + 32768 * k) rs = endOffset offset rs + 32768 * k := by
  induction rs generalizing offset with
  | nil => rfl
  | cons x xs ih => rw [endOffset, nextOffset_shift, ih, endOffset]

variable {offset : Nat} {statuses : List Status} {w : Writer}

/-- One record of several: the file after it, and how far the offset is shifted. -/
theorem addRecords_cons {contents x : List UInt8} {xs : List (List UInt8)}
    (hend : nextOffset offset x.length < 2 ^ 64)
    (hadd : addRecords ndebug crc { dest := fileOf contents, offset := offset } (x :: xs) =
      some (statuses, w)) :
    ∃ next k tail, nextOffset offset x.length = next + 32768 * (131072 * k) ∧
      (Truncates offset ↔ 0 < k) ∧
      addRecords ndebug crc
        { dest := fileOf
            (Bytes.overwrite 0 contents offset (bytes crc (recordChunks offset x)))
          offset := next } xs = some (tail, w) := by
  have hrecord := (le_nextOffset offset x.length).2
  have hheader := lt_recordEnd offset x.length
  have hle := le_startOf offset
  rw [addRecords, addRecord_fileOf crc x contents (by omega)] at hadd
  rcases hreserve : reserve ndebug offset x.length with _ | next
  · simp [hreserve] at hadd
  · rw [hreserve] at hadd
    have hvalue := add_startOf_of_reserve hend hreserve
    obtain ⟨k, hk, hpos⟩ :=
      startOf_sub_roundupStart (show offset + kHeaderSize < 2 ^ 64 by omega)
    obtain ⟨p, hp, hw⟩ := map_eq_some_iff.mp hadd
    obtain ⟨-, rfl⟩ := Prod.mk.inj hw
    refine ⟨next, k, p.1, by omega, ⟨hpos, ?_⟩, hp⟩
    intro hk0
    by_contra htrunc
    rw [roundupStart_eq htrunc] at hk
    omega

variable {contents : List UInt8}

/-- The file ends where the records would end, or before. -/
theorem length_addRecords_le (rs : List (List UInt8)) (hgap : NoGap offset rs)
    (hend : endOffset offset rs < 2 ^ 64)
    (hadd : addRecords ndebug crc { dest := fileOf contents, offset := offset } rs =
      some (statuses, w)) :
    w.dest.contents.length ≤ max contents.length (fileEnd offset rs) := by
  induction rs generalizing contents offset statuses with
  | nil =>
    obtain ⟨-, rfl⟩ := Prod.mk.inj (some.inj hadd)
    exact Nat.le_max_left _ _
  | cons x xs ih =>
    have hle := le_endOffset (nextOffset offset x.length) xs
    rw [endOffset] at hend
    obtain ⟨next, k, tail, hshift, -, hrest⟩ := addRecords_cons crc (by omega) hadd
    have hgap' := hgap.2
    rw [hshift, noGap_shift] at hgap'
    rw [hshift, endOffset_shift] at hend
    have hlen := ih hgap' (by omega) hrest
    rw [Bytes.length_overwrite, length_bytes, size_recordChunks] at hlen
    rw [fileEnd]
    cases xs with
    | nil =>
      obtain ⟨-, rfl⟩ := Prod.mk.inj (some.inj hrest)
      simp only [fileOf, fileEnd, Bytes.length_overwrite, length_bytes, size_recordChunks]
      exact le_rfl
    | cons y ys =>
      rw [nextOffset_of_not_gapAfter (hgap.1 (by simp))] at hshift
      have hmono := fileEnd_mono (y :: ys)
        (show next ≤ recordEnd offset x.length by omega)
      have hgrow := le_fileEnd (recordEnd offset x.length) (y :: ys)
      omega

/-- **A truncated offset leaves the file too short for its records.** -/
theorem length_addRecords_lt (rs : List (List UInt8)) (h : contents.length ≤ offset)
    (htrunc : ¬ NoTruncation offset rs) (hgap : NoGap offset rs)
    (hend : endOffset offset rs < 2 ^ 64)
    (hadd : addRecords ndebug crc { dest := fileOf contents, offset := offset } rs =
      some (statuses, w)) :
    w.dest.contents.length < fileEnd offset rs := by
  induction rs generalizing contents offset statuses with
  | nil => exact absurd trivial htrunc
  | cons x xs ih =>
    have hle := le_endOffset (nextOffset offset x.length) xs
    rw [endOffset] at hend
    obtain ⟨next, k, tail, hshift, hk, hrest⟩ := addRecords_cons crc (by omega) hadd
    have hlen := length_overwrite_recordChunks crc x h
    cases xs with
    | nil => exact absurd ⟨by simp, trivial⟩ htrunc
    | cons y ys =>
      have hsame := nextOffset_of_not_gapAfter (hgap.1 (by simp))
      have hgap' := hgap.2
      rw [fileEnd]
      by_cases hhere : Truncates offset
      · -- The remaining records end at least `2 ^ 32` bytes too early.
        rw [hshift, noGap_shift] at hgap'
        rw [hshift, endOffset_shift] at hend
        have hbound := length_addRecords_le crc _ hgap' (by omega) hrest
        have hgrow := le_fileEnd (recordEnd offset x.length) (y :: ys)
        have hsplit := fileEnd_shift next (131072 * k) (y :: ys)
        have hpos := hk.mp hhere
        rw [← hshift, hsame] at hsplit
        rw [hlen] at hbound
        simp only [kHeaderSize, length_cons] at hgrow
        omega
      · have hzero : k = 0 := by
          by_contra hne
          exact hhere (hk.mpr (by omega))
        obtain rfl : next = recordEnd offset x.length := by omega
        rw [hsame] at hgap' hend
        refine ih hlen.le ?_ hgap' hend hrest
        intro hrestTrunc
        exact htrunc ⟨fun _ => hhere, by rwa [hsame]⟩

end WriterSpace

section RoundTrip

variable (ndebug : Bool) (crc : Crc32c) (records : List (List UInt8))

/-- Records that are read back, with no offset truncated, have no gap between
them, and every assertion held. -/
theorem noGap_of_roundTrips (hend : endOffset 0 records < 2 ^ 64) (htrunc : NoTruncation 0 records)
    (h : RoundTrips ndebug crc records) : NoGap 0 records ∧ AssertionsHold ndebug 0 records := by
  obtain ⟨statuses, w, hadd, -, hread⟩ := h
  have hassert : AssertionsHold ndebug 0 records := by
    apply assertionsHold_of_addRecords crc records htrunc hend
    · change (addRecords ndebug crc Writer.new records).isSome
      rw [hadd]
      rfl
  obtain ⟨next, hlog⟩ := addRecords_new crc records htrunc hassert hend
  obtain ⟨-, rfl⟩ := Prod.mk.inj (some.inj (hadd.symm.trans hlog))
  obtain ⟨r, hall, -⟩ := hread 0
  have hrecords := congrArg Prod.fst hall
  exact ⟨noGap_of_readAll crc records (z := 0) (at_new _) hrecords, hassert⟩

/-- Records that are read back, with no gap between them, have no offset
truncated. -/
theorem noTruncation_of_roundTrips (hend : endOffset 0 records < 2 ^ 64) (hgap : NoGap 0 records)
    (h : RoundTrips ndebug crc records) : NoTruncation 0 records := by
  obtain ⟨statuses, w, hadd, -, hread⟩ := h
  by_contra htrunc
  have hshort := length_addRecords_lt crc records
    (Nat.le_refl 0 : ([] : List UInt8).length ≤ 0) htrunc hgap hend hadd
  obtain ⟨r, hall, -⟩ := hread 0
  have hne : records ≠ [] := by
    rintro rfl
    exact htrunc trivial
  have hlong := fileEnd_le_of_readAll crc records (at_new _) (Nat.le_refl 0) hne hall
  simp only [length_append, length_replicate] at hlong
  omega

/-- **Records are read back exactly when there is no gap between them, no offset
is truncated and no assertion fails.**  The case of a gap and a truncation in
one log is left open. -/
theorem roundTrips_iff
    (hend : endOffset 0 records < 2 ^ 64)
    (hone : NoGap 0 records ∨ NoTruncation 0 records) : RoundTrips ndebug crc records
      ↔
    NoGap 0 records ∧ NoTruncation 0 records ∧ AssertionsHold ndebug 0 records := by
  constructor
  · intro h
    have htrunc : NoTruncation 0 records := by
      obtain hgap | htrunc := hone
      · exact noTruncation_of_roundTrips ndebug crc records hend hgap h
      · exact htrunc
    obtain ⟨hgap, hassert⟩ := noGap_of_roundTrips ndebug crc records hend htrunc h
    exact ⟨hgap, htrunc, hassert⟩
  · rintro ⟨hgap, htrunc, hassert⟩
    obtain ⟨next, hadd⟩ := addRecords_new crc records htrunc hassert hend
    refine ⟨_, _, hadd, ?_, fun z => ?_⟩
    · intro s hs
      exact eq_of_mem_replicate hs
    · exact readAll_logChunks crc records hgap (at_new _)

/-- Two records, one of them empty, are read back. -/
theorem roundTrips_two_records : RoundTrips false crc32c [[1, 2, 3], []] := by
  have hgap : NoGap 0 [[1, 2, 3], ([] : List UInt8)] :=
    ⟨fun _ => by decide, fun h => absurd rfl h, trivial⟩
  apply (roundTrips_iff false crc32c [[1, 2, 3], []] (by decide) (.inl hgap)).mpr
  refine ⟨hgap, ⟨fun _ h => absurd h.1 (by decide), fun h => absurd rfl h, trivial⟩, ?_⟩
  exact ⟨.inr (.inl (by decide)), .inr (.inl (by decide)), trivial⟩

/-- A record whose last fragment fills its block hides the record after it. -/
theorem not_roundTrips_of_full_last_block :
    ¬ RoundTrips false crc32c [List.replicate 65522 0, [97]] := by
  intro h
  have hnext : nextOffset 0 65522 = 65543 := by decide
  have hend : endOffset 0 [replicate 65522 (0 : UInt8), [97]] < 2 ^ 64 := by
    simp only [endOffset, length_replicate, hnext]
    decide
  have htrunc : NoTruncation 0 [replicate 65522 (0 : UInt8), [97]] :=
    ⟨fun _ ht => absurd ht.1 (by decide), fun hne => absurd rfl hne, trivial⟩
  obtain ⟨⟨hgap, -⟩, -⟩ := noGap_of_roundTrips false crc32c _ hend htrunc h
  apply hgap (by simp)
  rw [length_replicate]
  decide

end RoundTrip

end Log
end HotTLBApps.PebblesDB
