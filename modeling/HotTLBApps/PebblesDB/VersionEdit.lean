import HotTLBApps.PebblesDB.Coding
import HotTLBApps.PebblesDB.VersionBuilder

/-!
# PebblesDB: version edits and their encoding (`db/version_edit.cc`)

An edit is written as a sequence of tagged entries.  `entries` lists them in the
order of `EncodeTo`, `decodeField` is the `switch` of `DecodeFrom`.

The main result is the round trip: what `encodeTo` writes for an edit whose
numbers and keys fit their machine types is decoded to the same edit.

An edit holds its keys as byte strings.  The rest of the development has them taken
apart, so edits are over any kind of keys; a `KeyFormat` writes and reads them.

Left out are the fields of an edit that are neither written nor read by anything
modelled here (`sentinel_files_`, `sentinel_file_nos_`), and of a guard all but
its level and key.
-/

namespace HotTLBApps.PebblesDB

open List Function

abbrev Level := Fin kNumLevels

/-- The tags of a serialized edit. -/
inductive Tag
  | kComparator
  | kLogNumber
  | kNextFileNumber
  | kLastSequence
  | kCompactPointer
  | kDeletedFile
  | kNewFile
  | kPrevLogNumber
  | kDeletedGuard
  | kNewGuard
  | kFileInsideGuard
  | kNewSentinelFile
  | kDeletedSentinelFile
  | kNewCompleteGuard
  | kNewSentinelFileNo
deriving DecidableEq, Repr

/-- The number of a tag; 8 is not used any more. -/
def Tag.toNat : Tag → Nat
  | .kComparator => 1
  | .kLogNumber => 2
  | .kNextFileNumber => 3
  | .kLastSequence => 4
  | .kCompactPointer => 5
  | .kDeletedFile => 6
  | .kNewFile => 7
  | .kPrevLogNumber => 9
  | .kDeletedGuard => 10
  | .kNewGuard => 11
  | .kFileInsideGuard => 12
  | .kNewSentinelFile => 13
  | .kDeletedSentinelFile => 14
  | .kNewCompleteGuard => 15
  | .kNewSentinelFileNo => 16

/-- The tag with a given number. -/
def Tag.ofNumber : Nat → Option Tag
  | 1 => some .kComparator
  | 2 => some .kLogNumber
  | 3 => some .kNextFileNumber
  | 4 => some .kLastSequence
  | 5 => some .kCompactPointer
  | 6 => some .kDeletedFile
  | 7 => some .kNewFile
  | 9 => some .kPrevLogNumber
  | 10 => some .kDeletedGuard
  | 11 => some .kNewGuard
  | 12 => some .kFileInsideGuard
  | 13 => some .kNewSentinelFile
  | 14 => some .kDeletedSentinelFile
  | 15 => some .kNewCompleteGuard
  | 16 => some .kNewSentinelFileNo
  | _ => none

theorem Tag.ofNumber_toNat (tag : Tag) : Tag.ofNumber tag.toNat = some tag := by
  cases tag <;> rfl

theorem Tag.toNat_lt (tag : Tag) : tag.toNat < 2 ^ 32 := by
  cases tag <;> decide

/-- An edit.  A level has at most one deleted guard: the comparator of `deleted_guards_` is
never set, and a second one would be compared by it. -/
@[ext]
structure VersionEdit (κ : Type) where
  comparator : Option (List UInt8)
  logNumber : Option Nat
  prevLogNumber : Option Nat
  nextFileNumber : Option Nat
  lastSequence : Option Nat
  compactPointers : List (Level × κ)
  deletedFiles : Finset (Level ×ₗ Nat)
  newFiles : List (Level × FileOf κ)
  deletedGuards : Level → Option κ
  newGuards : Level → List κ
  newCompleteGuards : Level → List κ
  deletedSentinelFiles : Finset (Level ×ₗ Nat)

/-- An edit whose keys are taken apart. -/
abbrev Edit (K : Type) := VersionEdit (InternalKey K)

/-- `VersionEdit::Clear`, on an edit that was just created. -/
def VersionEdit.clear {κ : Type} : VersionEdit κ :=
  { comparator := none
    logNumber := none
    prevLogNumber := none
    nextFileNumber := none
    lastSequence := none
    compactPointers := []
    deletedFiles := ∅
    newFiles := []
    deletedGuards := fun _ => none
    newGuards := fun _ => []
    newCompleteGuards := fun _ => []
    deletedSentinelFiles := ∅ }

/-- How keys are written and read; a vector can hold `maxSize` numbers. -/
structure KeyFormat (κ : Type) where
  encode : κ → List UInt8
  decodeFrom : List UInt8 → κ
  Valid : κ → Prop
  maxSize : Nat
  length_encode_lt : ∀ key, Valid key → (encode key).length < 2 ^ 32
  decodeFrom_encode : ∀ key, Valid key → decodeFrom (encode key) = key
  valid_decodeFrom : ∀ str, str.length < 2 ^ 32 → Valid (decodeFrom str)

/-- Keys that are taken apart; whatever is read has a sequence number of 56 bits. -/
def KeyCodec.format {K : Type} (codec : KeyCodec K) : KeyFormat (InternalKey K) where
  encode := InternalKey.encode codec
  decodeFrom := InternalKey.decodeFrom codec
  Valid := InternalKey.Valid
  maxSize := codec.maxSize
  length_encode_lt key _ := key.length_encode_lt codec
  decodeFrom_encode _ := InternalKey.decodeFrom_encode codec
  valid_decodeFrom str _ := by
    have hlt := Bytes.ofLE_lt (str.drop (str.length - 8))
    have hpow : 256 ^ (str.drop (str.length - 8)).length ≤ 256 ^ 8 :=
      Nat.pow_le_pow_right (by norm_num) (by rw [length_drop]; omega)
    simp only [InternalKey.Valid, InternalKey.decodeFrom, kMaxSequenceNumber]
    omega

section

/-- What `EncodeTo` writes after one tag. -/
inductive EditEntry (κ : Type)
  | comparator (name : List UInt8)
  | logNumber (number : Nat)
  | prevLogNumber (number : Nat)
  | nextFileNumber (number : Nat)
  | lastSequence (sequence : Nat)
  | compactPointer (level : Level) (key : κ)
  | deletedFile (level : Level) (number : Nat)
  | newFile (level : Level) (file : FileOf κ)
  | deletedGuard (level : Level) (key : κ)
  | newGuard (level : Level) (key : κ)
  | newCompleteGuard (level : Level) (key : κ)
  | deletedSentinelFile (level : Level) (number : Nat)

variable {κ : Type}

def EditEntry.tag : EditEntry κ → Tag
  | .comparator _ => .kComparator
  | .logNumber _ => .kLogNumber
  | .prevLogNumber _ => .kPrevLogNumber
  | .nextFileNumber _ => .kNextFileNumber
  | .lastSequence _ => .kLastSequence
  | .compactPointer _ _ => .kCompactPointer
  | .deletedFile _ _ => .kDeletedFile
  | .newFile _ _ => .kNewFile
  | .deletedGuard _ _ => .kDeletedGuard
  | .newGuard _ _ => .kNewGuard
  | .newCompleteGuard _ _ => .kNewCompleteGuard
  | .deletedSentinelFile _ _ => .kDeletedSentinelFile

def putLevelAndKey (format : KeyFormat κ) (level : Level) (key : κ) : List UInt8 :=
  putVarint32 level ++ putLengthPrefixedSlice (format.encode key)

/-- A level, the number of segments, which is always written as zero, and the key
of a guard. -/
def putGuard (format : KeyFormat κ) (level : Level) (key : κ) : List UInt8 :=
  putVarint32 level ++ (putVarint64 0 ++ putLengthPrefixedSlice (format.encode key))

/-- The bytes of an entry after its tag. -/
def EditEntry.body (format : KeyFormat κ) : EditEntry κ → List UInt8
  | .comparator name => putLengthPrefixedSlice name
  | .logNumber number => putVarint64 number
  | .prevLogNumber number => putVarint64 number
  | .nextFileNumber number => putVarint64 number
  | .lastSequence sequence => putVarint64 sequence
  | .compactPointer level key => putLevelAndKey format level key
  | .deletedFile level number => putVarint32 level ++ putVarint64 number
  | .newFile level f =>
      putVarint32 level ++ (putVarint64 f.number ++ (putVarint64 f.fileSize ++
        (putLengthPrefixedSlice (format.encode f.smallest) ++
          putLengthPrefixedSlice (format.encode f.largest))))
  | .deletedGuard level key => putLevelAndKey format level key
  | .newGuard level key => putGuard format level key
  | .newCompleteGuard level key => putGuard format level key
  | .deletedSentinelFile level number => putVarint32 level ++ putVarint64 number

def EditEntry.encode (format : KeyFormat κ) (entry : EditEntry κ) : List UInt8 :=
  putVarint32 entry.tag.toNat ++ entry.body format

/-- What is listed for each level, level by level. -/
def byLevel {α : Type} (table : Level → List α) : List (Level × α) :=
  (List.finRange kNumLevels).flatMap fun level => (table level).map (Prod.mk level)

/-- The entries of an edit in the order in which they are written. -/
def VersionEdit.entries (edit : VersionEdit κ) : List (EditEntry κ) :=
  edit.comparator.toList.map EditEntry.comparator ++
    (edit.logNumber.toList.map EditEntry.logNumber ++
    (edit.prevLogNumber.toList.map EditEntry.prevLogNumber ++
    (edit.nextFileNumber.toList.map EditEntry.nextFileNumber ++
    (edit.lastSequence.toList.map EditEntry.lastSequence ++
    (edit.compactPointers.map (fun p => EditEntry.compactPointer p.1 p.2) ++
    ((edit.deletedFiles.sort (· ≤ ·)).map
      (fun p => EditEntry.deletedFile (ofLex p).1 (ofLex p).2) ++
    (edit.newFiles.map (fun p => EditEntry.newFile p.1 p.2) ++
    ((byLevel fun level => (edit.deletedGuards level).toList).map
      (fun p => EditEntry.deletedGuard p.1 p.2) ++
    ((byLevel edit.newGuards).map (fun p => EditEntry.newGuard p.1 p.2) ++
    ((byLevel edit.newCompleteGuards).map (fun p => EditEntry.newCompleteGuard p.1 p.2) ++
    (edit.deletedSentinelFiles.sort (· ≤ ·)).map
      (fun p => EditEntry.deletedSentinelFile (ofLex p).1 (ofLex p).2)))))))))))

def VersionEdit.encodeTo (format : KeyFormat κ) (edit : VersionEdit κ) : List UInt8 :=
  edit.entries.flatMap (EditEntry.encode format)

/-- `push_back` at a level. -/
def pushAt {α : Type} (table : Level → List α) (p : Level × α) : Level → List α :=
  Function.update table p.1 (table p.1 ++ [p.2])

/-- What `DecodeFrom` stores for an entry that it has read. -/
def VersionEdit.push (edit : VersionEdit κ) : EditEntry κ → VersionEdit κ
  | .comparator name => { edit with comparator := some name }
  | .logNumber number => { edit with logNumber := some number }
  | .prevLogNumber number => { edit with prevLogNumber := some number }
  | .nextFileNumber number => { edit with nextFileNumber := some number }
  | .lastSequence sequence => { edit with lastSequence := some sequence }
  | .compactPointer level key =>
      { edit with compactPointers := edit.compactPointers ++ [(level, key)] }
  | .deletedFile level number =>
      { edit with deletedFiles := insert (toLex (level, number)) edit.deletedFiles }
  | .newFile level f => { edit with newFiles := edit.newFiles ++ [(level, f)] }
  | .deletedGuard level key =>
      { edit with deletedGuards := update edit.deletedGuards level (some key) }
  | .newGuard level key =>
      { edit with newGuards := pushAt edit.newGuards (level, key) }
  | .newCompleteGuard level key =>
      { edit with newCompleteGuards := pushAt edit.newCompleteGuards (level, key) }
  | .deletedSentinelFile level number =>
      { edit with
        deletedSentinelFiles := insert (toLex (level, number)) edit.deletedSentinelFiles }

/-- Why decoding ends early: `Status::Corruption("VersionEdit", msg)`, or the process
ends: an assertion does not hold, a vector takes all memory, or two guards are
compared by the comparator of `deleted_guards_`. -/
inductive DecodeError
  | corruption (msg : String)
  | assertion
  | badAlloc
  | nullComparator
deriving DecidableEq, Repr

/-- The value of a reader, or the message of the field that was not read. -/
def orCorruption {α : Type} (msg : String) : Option α → Except DecodeError α
  | some a => .ok a
  | none => .error (.corruption msg)

def getInternalKey
    (format : KeyFormat κ) (input : List UInt8) : Option (κ × List UInt8) := do
  let (str, input) ← getLengthPrefixedSlice input
  some (format.decodeFrom str, input)

def getLevel (input : List UInt8) : Option (Level × List UInt8) := do
  let (v, input) ← getVarint32 input
  if h : v < kNumLevels then some (⟨v, h⟩, input) else none

def getLevelAndKey
    (format : KeyFormat κ) (input : List UInt8) : Option (Level × κ × List UInt8) := do
  let (level, input) ← getLevel input
  let (key, input) ← getInternalKey format input
  some (level, key, input)

def getLevelAndNumber (input : List UInt8) : Option (Level × Nat × List UInt8) := do
  let (level, input) ← getLevel input
  let (number, input) ← getVarint64 input
  some (level, number, input)

def getLevelAndFile
    (format : KeyFormat κ) (input : List UInt8) : Option (Level × FileOf κ × List UInt8) := do
  let (level, input) ← getLevel input
  let (number, input) ← getVarint64 input
  let (fileSize, input) ← getVarint64 input
  let (smallest, input) ← getInternalKey format input
  let (largest, input) ← getInternalKey format input
  some (level, ⟨number, fileSize, smallest, largest⟩, input)

/-- The level, the number of segments and the key of a guard. -/
def getGuard (format : KeyFormat κ)
    (input : List UInt8) : Option (Level × Nat × κ × List UInt8) := do
  let (level, input) ← getLevel input
  let (numberSegments, input) ← getVarint64 input
  let (key, input) ← getInternalKey format input
  some (level, numberSegments, key, input)

/-- The bounds of a guard with segments, which are read inside an assertion. -/
def getGuardBounds (format : KeyFormat κ) (input : List UInt8) : Except DecodeError (List UInt8) :=
  match getInternalKey format input with
  | none => .error .assertion
  | some (_, input) =>
      match getInternalKey format input with
      | none => .error .assertion
      | some (_, input) => .ok input

/-- The files of a guard, of which `room` fit into the vector.  A read that fails
leaves the variable and the input as they are; `tag2` has no value before the first
read, and keeps its value from one guard to the next. -/
def skipGuardFiles (room : Nat) :
    Nat → Option Nat → List UInt8 → Except DecodeError (Option Nat × List UInt8)
  | 0, tag2, input => .ok (tag2, input)
  | j + 1, tag2, input =>
      let (tag2, input) :=
        match getVarint32 input with
        | some (tag2, input) => (some tag2, input)
        | none => (tag2, input)
      if tag2 = some Tag.kFileInsideGuard.toNat then
        match room, getVarint64 input with
        | 0, _ => .error .badAlloc
        | room + 1, some (_, input) => skipGuardFiles room j tag2 input
        | room + 1, none => skipGuardFiles room j tag2 input
      else
        .error .assertion

/-- The `switch` of `DecodeFrom`: what is stored for one entry, and `tag2` and the
input after it. -/
def decodeField (format : KeyFormat κ) (tag2 : Option Nat) (input : List UInt8) :
    Option Tag → Except DecodeError (Option (EditEntry κ) × Option Nat × List UInt8)
  | some .kComparator => do
      let (str, input) ← orCorruption "comparator name" (getLengthPrefixedSlice input)
      .ok (some (.comparator str), tag2, input)
  | some .kLogNumber => do
      let (number, input) ← orCorruption "log number" (getVarint64 input)
      .ok (some (.logNumber number), tag2, input)
  | some .kPrevLogNumber => do
      let (number, input) ← orCorruption "previous log number" (getVarint64 input)
      .ok (some (.prevLogNumber number), tag2, input)
  | some .kNextFileNumber => do
      let (number, input) ← orCorruption "next file number" (getVarint64 input)
      .ok (some (.nextFileNumber number), tag2, input)
  | some .kLastSequence => do
      let (sequence, input) ← orCorruption "last sequence number" (getVarint64 input)
      .ok (some (.lastSequence sequence), tag2, input)
  | some .kCompactPointer => do
      let (level, key, input) ← orCorruption "compaction pointer" (getLevelAndKey format input)
      .ok (some (.compactPointer level key), tag2, input)
  | some .kDeletedFile => do
      let (level, number, input) ← orCorruption "deleted file" (getLevelAndNumber input)
      .ok (some (.deletedFile level number), tag2, input)
  | some .kDeletedGuard => do
      let (level, key, input) ← orCorruption "deleted guard" (getLevelAndKey format input)
      .ok (some (.deletedGuard level key), tag2, input)
  | some .kDeletedSentinelFile => do
      let (level, number, input) ← orCorruption "deleted sentinel file" (getLevelAndNumber input)
      .ok (some (.deletedSentinelFile level number), tag2, input)
  | some .kNewFile => do
      let (level, f, input) ← orCorruption "new-file entry" (getLevelAndFile format input)
      .ok (some (.newFile level f), tag2, input)
  | some .kNewSentinelFile => do
      let (_, _, input) ← orCorruption "new-sentinel-file entry" (getLevelAndNumber input)
      .ok (none, tag2, input)
  | some .kNewSentinelFileNo => do
      let (level, f, input) ← orCorruption "new-sentinel-file entry" (getLevelAndFile format input)
      .ok (some (.newFile level f), tag2, input)
  | some .kNewGuard => do
      let (level, numberSegments, key, input) ← orCorruption "new-guard entry"
        (getGuard format input)
      if numberSegments = 0 then
        .ok (some (.newGuard level key), tag2, input)
      else
        let input ← getGuardBounds format input
        let (tag2, input) ← skipGuardFiles format.maxSize numberSegments tag2 input
        .ok (some (.newGuard level key), tag2, input)
  | some .kNewCompleteGuard => do
      let (level, numberSegments, key, input) ← orCorruption "new-complete-guard entry"
        (getGuard format input)
      if numberSegments = 0 then
        .ok (some (.newCompleteGuard level key), tag2, input)
      else
        let input ← getGuardBounds format input
        .ok (some (.newCompleteGuard level key), tag2, input)
  | some .kFileInsideGuard => .error (.corruption "unknown tag")
  | none => .error (.corruption "unknown tag")

/-- The status at the end of the loop of `DecodeFrom`. -/
def endOfInput (input : List UInt8) : Option DecodeError :=
  if input = [] then none else some (.corruption "invalid tag")

/-- The loop of `DecodeFrom`: the entries that it reads, which do not depend on
what is stored already, and the error it ends with.  Every round reads at least
the byte of a tag, so the length of the input bounds their number. -/
def decodeEntries (format : KeyFormat κ) :
    Nat → Option Nat → List UInt8 → List (EditEntry κ) × Option DecodeError
  | 0, _, input => ([], endOfInput input)
  | fuel + 1, tag2, input =>
      match getVarint32 input with
      | some (tag, rest) =>
          match decodeField format tag2 rest (Tag.ofNumber tag) with
          | .ok (entry, tag2, rest) =>
              let (entries, error) := decodeEntries format fuel tag2 rest
              (entry.toList ++ entries, error)
          | .error error => ([], some error)
      | none => ([], endOfInput input)

def EditEntry.deletedLevel : EditEntry κ → Option Level
  | .deletedGuard level _ => some level
  | _ => none

/-- `DecodeFrom` on a new edit.  The second deleted guard of a level is compared with the
first when it is stored. -/
def VersionEdit.decodeFrom
    (format : KeyFormat κ) (src : List UInt8) : Except DecodeError (VersionEdit κ) :=
  let (entries, error) := decodeEntries format src.length none src
  if (entries.filterMap EditEntry.deletedLevel).Nodup then
    match error with
    | none => .ok (entries.foldl VersionEdit.push VersionEdit.clear)
    | some error => .error error
  else
    .error .nullComparator

end

variable {κ : Type}

/-- The numbers and keys of a file fit their machine types. -/
def FileOf.Representable (Valid : κ → Prop) (f : FileOf κ) : Prop :=
  f.number < 2 ^ 64 ∧ f.fileSize < 2 ^ 64 ∧ Valid f.smallest ∧ Valid f.largest

abbrev FileMetaData.Representable {K : Type} (f : FileMetaData K) : Prop :=
  FileOf.Representable InternalKey.Valid f

/-- The numbers and keys of an entry fit their machine types. -/
def EditEntry.Representable (Valid : κ → Prop) : EditEntry κ → Prop
  | .comparator name => name.length < 2 ^ 32
  | .logNumber number => number < 2 ^ 64
  | .prevLogNumber number => number < 2 ^ 64
  | .nextFileNumber number => number < 2 ^ 64
  | .lastSequence sequence => sequence < 2 ^ 64
  | .compactPointer _ key => Valid key
  | .deletedFile _ number => number < 2 ^ 64
  | .newFile _ f => f.Representable Valid
  | .deletedGuard _ key => Valid key
  | .newGuard _ key => Valid key
  | .newCompleteGuard _ key => Valid key
  | .deletedSentinelFile _ number => number < 2 ^ 64

variable (format : KeyFormat κ) {key : κ}

@[simp]
theorem getInternalKey_put (h : format.Valid key) (rest : List UInt8) :
    getInternalKey format (putLengthPrefixedSlice (format.encode key) ++ rest) =
      some (key, rest) := by
  rw [getInternalKey, getLengthPrefixedSlice_put (format.length_encode_lt key h)]
  simp [format.decodeFrom_encode key h]

variable (level : Level)

@[simp]
theorem getLevel_put (rest : List UInt8) :
    getLevel (putVarint32 level ++ rest) = some (level, rest) := by
  have hlt : (level : Nat) < kNumLevels := level.isLt
  rw [getLevel, getVarint32_putVarint32 (hlt.trans (by decide))]
  simp

open EditEntry

theorem length_entries_le (entries : List (EditEntry κ)) :
    entries.length ≤ (entries.flatMap (EditEntry.encode format)).length := by
  induction entries with
  | nil => simp
  | cons entry entries ih =>
    have htag : putVarint32 entry.tag.toNat ≠ [] := by
      rw [putVarint32, encodeVarint32_eq (Nat.mod_lt _ (by norm_num))]
      exact Varint.encode_ne_nil _
    have hpos := length_pos_of_ne_nil htag
    rw [flatMap_cons, length_append, encode, length_append, length_cons]
    omega

theorem decodeField_body {entry : EditEntry κ} (h : entry.Representable format.Valid) (tag2 : Option Nat)
    (rest : List UInt8) : decodeField format tag2 (entry.body format ++ rest) (some entry.tag) =
      .ok (some entry, tag2, rest) := by
  cases entry with
  | comparator name =>
    simp only [tag, body, decodeField, getLengthPrefixedSlice_put h]
    rfl
  | logNumber number | prevLogNumber number | nextFileNumber number | lastSequence sequence =>
    simp only [tag, body, decodeField, getVarint64_putVarint64 h]
    rfl
  | compactPointer level key | deletedGuard level key =>
    simp [tag, body, decodeField, getLevelAndKey, putLevelAndKey,
      getInternalKey_put format h]
    rfl
  | deletedFile level number | deletedSentinelFile level number =>
    simp [tag, body, decodeField, getLevelAndNumber, getVarint64_putVarint64 h]
    rfl
  | newFile level f =>
    obtain ⟨hnumber, hsize, hsmallest, hlargest⟩ := h
    simp [tag, body, decodeField, getLevelAndFile,
      getVarint64_putVarint64 hnumber, getVarint64_putVarint64 hsize,
      getInternalKey_put format hsmallest, getInternalKey_put format hlargest]
    rfl
  | newGuard level key | newCompleteGuard level key =>
    simp [tag, body, decodeField, getGuard, putGuard,
      getVarint64_putVarint64 (show 0 < 2 ^ 64 by norm_num), getInternalKey_put format h]
    rfl

theorem decodeEntries_encode (entries : List (EditEntry κ))
    (h : ∀ entry ∈ entries, entry.Representable format.Valid) {fuel : Nat}
    (hfuel : entries.length ≤ fuel) (tag2 : Option Nat) :
    decodeEntries format fuel tag2 (entries.flatMap (EditEntry.encode format)) = (entries, none) := by
  induction entries generalizing fuel with
  | nil =>
    cases fuel with
    | zero => rfl
    | succ fuel => rfl
  | cons entry entries ih =>
    cases fuel with
    | zero => simp at hfuel
    | succ fuel =>
      have hrest := ih (fun e he => h e (mem_cons_of_mem _ he))
        (Nat.le_of_succ_le_succ hfuel)
      rw [flatMap_cons, encode, append_assoc, decodeEntries,
        getVarint32_putVarint32 entry.tag.toNat_lt]
      simp only [Tag.ofNumber_toNat, decodeField_body format (h entry mem_cons_self), hrest]
      rfl

variable {α : Type}

/-- What is listed for each level is added level by level. -/
theorem foldl_byLevel {β : Type} (add : β → α → β) (b : β) (table : Level → List α) :
    (byLevel table).foldl (fun t p => update t p.1 (add (t p.1) p.2)) (fun _ => b) =
      fun level => (table level).foldl add b := by
  have hlevel : ∀ (level : Level) (l : List α) (t : Level → β),
      (l.map (Prod.mk level)).foldl (fun t p => update t p.1 (add (t p.1) p.2)) t =
        update t level (l.foldl add (t level)) := by
    intro level l
    induction l with
    | nil =>
      intro t
      simp
    | cons a l ih =>
      intro t
      rw [map_cons, foldl_cons, ih]
      simp
  have hlevels : ∀ (levels : List Level), levels.Nodup → ∀ t : Level → β,
      (levels.flatMap fun level => (table level).map (Prod.mk level)).foldl
          (fun t p => update t p.1 (add (t p.1) p.2)) t =
        fun level => if level ∈ levels then (table level).foldl add (t level) else t level := by
    intro levels
    induction levels with
    | nil =>
      intro _ t
      simp
    | cons level levels ih =>
      intro hnodup t
      obtain ⟨hnew, hrest⟩ := nodup_cons.mp hnodup
      rw [flatMap_cons, foldl_append, hlevel, ih hrest]
      funext level'
      by_cases heq : level' = level
      · subst heq
        simp [hnew]
      · simp [heq]
  rw [byLevel, hlevels _ (nodup_finRange _)]
  simp

theorem foldl_concat (l l' : List α) : l.foldl (fun l a => l ++ [a]) l' = l' ++ l := by
  induction l generalizing l' with
  | nil => simp
  | cons a l ih =>
    rw [foldl_cons, ih]
    simp

/-- Pushing what is listed for each level rebuilds the table. -/
theorem foldl_pushAt (table : Level → List α) :
    (byLevel table).foldl pushAt (fun _ => []) = table :=
  (foldl_byLevel (fun l a => l ++ [a]) [] table).trans (by simp only [foldl_concat, nil_append])

/-- Storing entries of one kind changes one field of the edit. -/
theorem foldl_push_map {β : Type} (entry : α → EditEntry κ) (get : VersionEdit κ → β)
    (set : VersionEdit κ → β → VersionEdit κ) (add : β → α → β)
    (hpush : ∀ edit a, edit.push (entry a) = set edit (add (get edit) a) := by intros; rfl)
    (hself : ∀ edit, set edit (get edit) = edit := by intros; rfl)
    (hget : ∀ edit b, get (set edit b) = b := by intros; rfl)
    (hset : ∀ edit b b', set (set edit b) b' = set edit b' := by intros; rfl)
    (l : List α) (edit : VersionEdit κ) :
    (l.map entry).foldl VersionEdit.push edit = set edit (l.foldl add (get edit)) := by
  induction l generalizing edit with
  | nil => exact (hself edit).symm
  | cons a l ih => rw [map_cons, foldl_cons, ih, hpush, hget, hset, foldl_cons]

theorem foldl_insert [DecidableEq α] (l : List α) (s : Finset α) :
    l.foldl (fun s a => insert a s) s = s ∪ l.toFinset := by
  induction l generalizing s with
  | nil => simp
  | cons a l ih => rw [foldl_cons, ih, toFinset_cons, Finset.insert_union, Finset.union_insert]

theorem foldl_some (o : Option α) : o.toList.foldl (fun _ a => some a) none = o := by
  cases o with
  | none => rfl
  | some a => rfl

/-- The entries of an edit, stored in a new edit, give the edit. -/
theorem foldl_push_entries (edit : VersionEdit κ) :
    edit.entries.foldl VersionEdit.push VersionEdit.clear = edit := by
  simp only [VersionEdit.entries, foldl_append]
  rw [foldl_push_map comparator (·.comparator) (fun e b => { e with comparator := b })
      fun _ a => some a,
    foldl_push_map logNumber (·.logNumber) (fun e b => { e with logNumber := b })
      fun _ a => some a,
    foldl_push_map prevLogNumber (·.prevLogNumber)
      (fun e b => { e with prevLogNumber := b }) fun _ a => some a,
    foldl_push_map nextFileNumber (·.nextFileNumber)
      (fun e b => { e with nextFileNumber := b }) fun _ a => some a,
    foldl_push_map lastSequence (·.lastSequence)
      (fun e b => { e with lastSequence := b }) fun _ a => some a,
    foldl_push_map (fun p : Level × κ => .compactPointer p.1 p.2) (·.compactPointers)
      (fun e b => { e with compactPointers := b }) fun l a => l ++ [a],
    foldl_push_map (fun p : Level ×ₗ Nat => .deletedFile (ofLex p).1 (ofLex p).2) (·.deletedFiles)
      (fun e b => { e with deletedFiles := b }) fun s a => insert a s,
    foldl_push_map (fun p : Level × FileOf κ => .newFile p.1 p.2) (·.newFiles)
      (fun e b => { e with newFiles := b }) fun l a => l ++ [a],
    foldl_push_map (fun p : Level × κ => .deletedGuard p.1 p.2) (·.deletedGuards)
      (fun e b => { e with deletedGuards := b }) fun t p => update t p.1 (some p.2),
    foldl_push_map (fun p : Level × κ => .newGuard p.1 p.2) (·.newGuards)
      (fun e b => { e with newGuards := b }) pushAt,
    foldl_push_map (fun p : Level × κ => .newCompleteGuard p.1 p.2)
      (·.newCompleteGuards) (fun e b => { e with newCompleteGuards := b }) pushAt,
    foldl_push_map (fun p : Level ×ₗ Nat => .deletedSentinelFile (ofLex p).1 (ofLex p).2)
      (·.deletedSentinelFiles) (fun e b => { e with deletedSentinelFiles := b })
      fun s a => insert a s]
  simp only [VersionEdit.clear, foldl_some, foldl_concat, nil_append, foldl_insert,
    Finset.sort_toFinset, Finset.empty_union, foldl_pushAt, foldl_byLevel fun _ a => some a]

/-- The numbers and keys of an edit fit their machine types. -/
structure VersionEdit.Representable (Valid : κ → Prop) (edit : VersionEdit κ) : Prop where
  comparator : ∀ name ∈ edit.comparator, name.length < 2 ^ 32
  logNumber : ∀ number ∈ edit.logNumber, number < 2 ^ 64
  prevLogNumber : ∀ number ∈ edit.prevLogNumber, number < 2 ^ 64
  nextFileNumber : ∀ number ∈ edit.nextFileNumber, number < 2 ^ 64
  lastSequence : ∀ sequence ∈ edit.lastSequence, sequence < 2 ^ 64
  compactPointers : ∀ p ∈ edit.compactPointers, Valid p.2
  deletedFiles : ∀ p ∈ edit.deletedFiles, (ofLex p).2 < 2 ^ 64
  newFiles : ∀ p ∈ edit.newFiles, p.2.Representable Valid
  deletedGuards : ∀ level, ∀ key ∈ edit.deletedGuards level, Valid key
  newGuards : ∀ level, ∀ key ∈ edit.newGuards level, Valid key
  newCompleteGuards : ∀ level, ∀ key ∈ edit.newCompleteGuards level, Valid key
  deletedSentinelFiles : ∀ p ∈ edit.deletedSentinelFiles, (ofLex p).2 < 2 ^ 64

abbrev Edit.Representable {K : Type} (edit : Edit K) : Prop :=
  VersionEdit.Representable InternalKey.Valid edit

variable {Valid : κ → Prop}

theorem representable_clear : (VersionEdit.clear : VersionEdit κ).Representable Valid := by
  constructor <;> simp [VersionEdit.clear]

theorem mem_byLevel {table : Level → List α} {p : Level × α} :
    p ∈ byLevel table ↔ p.2 ∈ table p.1 := by
  simp only [byLevel, mem_flatMap, mem_finRange, true_and, mem_map]
  constructor
  · rintro ⟨level, a, ha, rfl⟩
    exact ha
  · intro h
    exact ⟨p.1, p.2, h, rfl⟩

theorem VersionEdit.Representable.entries {edit : VersionEdit κ}
    (h : edit.Representable Valid) : ∀ entry ∈ edit.entries, entry.Representable Valid := by
  intro entry hentry
  simp only [VersionEdit.entries, mem_append, mem_map, Option.mem_toList, Finset.mem_sort] at hentry
  rcases hentry with ⟨a, ha, rfl⟩ | ⟨a, ha, rfl⟩ | ⟨a, ha, rfl⟩ | ⟨a, ha, rfl⟩ | ⟨a, ha, rfl⟩ |
    ⟨p, hp, rfl⟩ | ⟨p, hp, rfl⟩ | ⟨p, hp, rfl⟩ | ⟨p, hp, rfl⟩ | ⟨p, hp, rfl⟩ | ⟨p, hp, rfl⟩ |
    ⟨p, hp, rfl⟩
  · exact h.comparator a ha
  · exact h.logNumber a ha
  · exact h.prevLogNumber a ha
  · exact h.nextFileNumber a ha
  · exact h.lastSequence a ha
  · exact h.compactPointers p hp
  · exact h.deletedFiles p hp
  · exact h.newFiles p hp
  · exact h.deletedGuards p.1 p.2 (Option.mem_toList.mp (mem_byLevel.mp hp))
  · exact h.newGuards p.1 p.2 (mem_byLevel.mp hp)
  · exact h.newCompleteGuards p.1 p.2 (mem_byLevel.mp hp)
  · exact h.deletedSentinelFiles p hp

theorem nodup_deletedLevel (edit : VersionEdit κ) :
    (edit.entries.filterMap EditEntry.deletedLevel).Nodup := by
  have hlevels : edit.entries.filterMap EditEntry.deletedLevel =
      (byLevel fun level => (edit.deletedGuards level).toList).map Prod.fst := by
    simp [VersionEdit.entries, deletedLevel, Function.comp_def]
  rw [hlevels, byLevel, map_flatMap, nodup_flatMap]
  have hlevel : ∀ level level', level' ∈ ((edit.deletedGuards level).toList.map
      (Prod.mk level)).map Prod.fst → level' = level := by simp
  refine ⟨fun level _ => ?_, (nodup_finRange _).imp fun hne l hl hl' => ?_⟩
  · cases edit.deletedGuards level <;> simp
  · exact hne ((hlevel _ _ hl).symm.trans (hlevel _ _ hl'))

/-- **An edit is decoded from what was encoded for it.** -/
theorem decodeFrom_encodeTo {edit : VersionEdit κ} (h : edit.Representable format.Valid) :
    VersionEdit.decodeFrom format (edit.encodeTo format) = .ok edit := by
  rw [VersionEdit.decodeFrom, VersionEdit.encodeTo,
    decodeEntries_encode format edit.entries h.entries (length_entries_le format edit.entries) none]
  simp only [if_pos (nodup_deletedLevel edit), foldl_push_entries]

end HotTLBApps.PebblesDB
