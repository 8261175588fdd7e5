import HotTLBApps.PebblesDB.VersionEdit

/-!
# PebblesDB: what `DecodeFrom` does with any byte string (`db/version_edit.cc`)

The round trip of `VersionEdit` is about byte strings that `EncodeTo` has written.  Here the
input is arbitrary, and so is what the edit held before.  What is read as a key is any byte
string (`rawKeys`), also one that cannot be written again because it is empty.
-/

namespace HotTLBApps.PebblesDB

open List Function Option

variable {κ : Type} (format : KeyFormat κ)

variable {α β : Type} {msg : String} {o : Option α} {x : Except DecodeError α}
  {f : α → Except DecodeError β}

theorem bind_eq_ok {b : β} : (x >>= f) = .ok b ↔ ∃ a, x = .ok a ∧ f a = .ok b := by
  cases x <;> simp [bind, Except.bind]

theorem orCorruption_eq_ok {a : α} : orCorruption msg o = .ok a ↔ o = some a := by
  cases o <;> simp [orCorruption]

/-- The process does not end: an error is a `Corruption`. -/
def Survives (x : Except DecodeError α) : Prop :=
  ∀ e, x = .error e → ∃ msg, e = .corruption msg

theorem survives_ok {a : α} : Survives (.ok a) :=
  nofun

theorem survives_orCorruption_bind :
    Survives (orCorruption msg o >>= f) ↔ ∀ a, o = some a → Survives (f a) := by
  cases o <;> simp [Survives, orCorruption, bind, Except.bind]

/-- After a step whose errors all end the process. -/
theorem survives_bind (hx : ∀ msg, x ≠ .error (.corruption msg)) :
    Survives (x >>= f) ↔ ∃ a, x = .ok a ∧ Survives (f a) := by
  cases x with
  | ok a => simp [Survives, bind, Except.bind]
  | error e =>
    refine iff_of_false (fun h => ?_) (by simp)
    rcases h e rfl with ⟨msg, rfl⟩
    exact hx msg rfl

/-- A number that is read fits the register, and what follows it is shorter than the input. -/
theorem decodeLoop_some {width shift result v : Nat} {input rest : List UInt8}
    (h : Varint.decodeLoop width shift result input = some (v, rest))
    (hresult : result < 2 ^ width) :
    v < 2 ^ width ∧ rest.length < input.length := by
  have hor : ∀ {r} n, r < 2 ^ width → r ||| n % 2 ^ width < 2 ^ width := fun n hr =>
    Nat.or_lt_two_pow hr (Nat.mod_lt _ (Nat.two_pow_pos width))
  fun_induction Varint.decodeLoop width shift result input with
  | case1 => cases h
  | case2 => cases h
  | case3 shift result b bs _ _ ih =>
    obtain ⟨hv, hlt⟩ := ih h (hor _ hresult)
    exact ⟨hv, hlt.trans (Nat.lt_succ_self _)⟩
  | case4 shift result b bs =>
    obtain ⟨rfl, rfl⟩ := by simpa using h
    exact ⟨hor _ hresult, Nat.lt_succ_self _⟩

variable {input rest : List UInt8} {number : Nat} {level : Level} {key : κ}

@[grind →]
theorem getVarint32_some (h : getVarint32 input = some (number, rest)) :
    number < 2 ^ 32 ∧ rest.length < input.length :=
  decodeLoop_some h (by norm_num)

@[grind →]
theorem getVarint64_some (h : getVarint64 input = some (number, rest)) :
    number < 2 ^ 64 ∧ rest.length < input.length :=
  decodeLoop_some h (by norm_num)

@[grind →]
theorem getLengthPrefixedSlice_some {str : List UInt8}
    (h : getLengthPrefixedSlice input = some (str, rest)) :
    str.length < 2 ^ 32 ∧ rest.length < input.length := by
  unfold getLengthPrefixedSlice at h
  grind

@[grind →]
theorem getInternalKey_some (h : getInternalKey format input = some (key, rest)) :
    format.Valid key ∧ rest.length < input.length := by
  simp only [getInternalKey, bind_eq_bind, bind_eq_some_iff, some.injEq,
    Prod.mk.injEq, Prod.exists] at h
  rcases h with ⟨str, tail, hstr, rfl, rfl⟩
  have hread := getLengthPrefixedSlice_some hstr
  exact ⟨format.valid_decodeFrom str hread.1, hread.2⟩

@[grind →]
theorem getLevel_some (h : getLevel input = some (level, rest)) : rest.length < input.length := by
  simp only [getLevel, bind_eq_bind, bind_eq_some_iff] at h
  grind

@[grind →]
theorem getGuardBounds_ok (h : getGuardBounds format input = .ok rest) :
    rest.length ≤ input.length := by
  unfold getGuardBounds at h
  grind

variable {tag2 tag2' : Option Nat}

@[grind →]
theorem skipGuardFiles_ok {room j : Nat}
    (h : skipGuardFiles room j tag2 input = .ok (tag2', rest)) : rest.length ≤ input.length := by
  induction j generalizing room tag2 input with
  | zero => grind [skipGuardFiles]
  | succ j ih =>
    rw [skipGuardFiles] at h
    grind

/-- Every entry that is read fits its machine types. -/
theorem decodeField_ok {tag : Option Tag} {entry : Option (EditEntry κ)}
    (h : decodeField format tag2 input tag = .ok (entry, tag2', rest)) :
    (∀ e ∈ entry, e.Representable format.Valid) ∧ rest.length ≤ input.length := by
  obtain _ | tag := tag
  · cases h
  cases tag <;>
    simp only [decodeField, getLevelAndKey, getLevelAndNumber, getLevelAndFile, getGuard,
      bind_eq_ok, orCorruption_eq_ok, bind_eq_bind, bind_eq_some_iff,
      ite_eq_iff] at h <;>
    grind [EditEntry.Representable, FileOf.Representable]

theorem representable_decodeEntries (fuel : Nat) (tag2 : Option Nat) (input : List UInt8) :
    ∀ e ∈ (decodeEntries format fuel tag2 input).1, e.Representable format.Valid := by
  induction fuel generalizing tag2 input with
  | zero => simp [decodeEntries]
  | succ fuel ih =>
    rw [decodeEntries]
    split
    · split
      · next hfield =>
          simp only [forall_mem_append, mem_toList]
          exact ⟨(decodeField_ok format hfield).1, ih _ _⟩
      · simp
    · simp

/-- In front of a guard with segments stand the bounds of the guard and, for `kNewGuard`, its
files, which fit into memory. -/
def SegmentsFollow (tag2 : Option Nat) (input : List UInt8) : Option Tag → Prop
  | some .kNewGuard => ∀ level n key rest,
      getGuard format input = some (level, n, key, rest) → n ≠ 0 →
        ∃ rest', getGuardBounds format rest = .ok rest' ∧
          ∃ after, skipGuardFiles format.maxSize n tag2 rest' = .ok after
  | some .kNewCompleteGuard => ∀ level n key rest,
      getGuard format input = some (level, n, key, rest) → n ≠ 0 →
        ∃ rest', getGuardBounds format rest = .ok rest'
  | _ => True

theorem getGuardBounds_ne_corruption (input : List UInt8) (msg : String) :
    getGuardBounds format input ≠ .error (.corruption msg) := by
  unfold getGuardBounds
  grind

theorem skipGuardFiles_ne_corruption (room j : Nat) (tag2 : Option Nat) (input : List UInt8)
    (msg : String) : skipGuardFiles room j tag2 input ≠ .error (.corruption msg) := by
  induction j generalizing room tag2 input with
  | zero => simp [skipGuardFiles]
  | succ j ih =>
    rw [skipGuardFiles]
    grind

theorem survives_decodeField_iff {tag : Option Tag} :
    Survives (decodeField format tag2 input tag) ↔ SegmentsFollow format tag2 input tag := by
  have hbounds := getGuardBounds_ne_corruption format
  have hfiles := skipGuardFiles_ne_corruption format.maxSize
  cases tag with
  | none => simp [decodeField, Survives, SegmentsFollow]
  | some tag =>
    cases tag with
    | kNewGuard =>
      simp only [decodeField, survives_orCorruption_bind, Prod.forall, SegmentsFollow]
      refine forall₄_congr fun level n key rest => imp_congr_right fun _ => ?_
      split_ifs with hzero
      · simp [hzero, survives_ok]
      · simp [hzero, survives_bind (hbounds rest), survives_bind (hfiles n tag2 _), survives_ok]
    | kNewCompleteGuard =>
      simp only [decodeField, survives_orCorruption_bind, Prod.forall, SegmentsFollow]
      refine forall₄_congr fun level n key rest => imp_congr_right fun _ => ?_
      split_ifs with hzero
      · simp [hzero, survives_ok]
      · simp [hzero, survives_bind (hbounds rest), survives_ok]
    | kFileInsideGuard => simp [decodeField, Survives, SegmentsFollow]
    | _ => simp [decodeField, survives_orCorruption_bind, SegmentsFollow, survives_ok]

/-- One round of the loop, on `tag2` and the input. -/
def NextEntry (s s' : Option Nat × List UInt8) : Prop :=
  ∃ tag body entry, getVarint32 s.2 = some (tag, body) ∧
    decodeField format s.1 body (Tag.ofNumber tag) = .ok (entry, s')

/-- No round that is reached ends the process. -/
def ReadsOn (s : Option Nat × List UInt8) : Prop :=
  ∀ s', Relation.ReflTransGen (NextEntry format) s s' →
    ∀ tag body, getVarint32 s'.2 = some (tag, body) →
      SegmentsFollow format s'.1 body (Tag.ofNumber tag)

theorem readsOn_iff {s : Option Nat × List UInt8} : ReadsOn format s ↔
      (∀ tag body, getVarint32 s.2 = some (tag, body) →
        SegmentsFollow format s.1 body (Tag.ofNumber tag)) ∧
      ∀ s', NextEntry format s s' → ReadsOn format s' := by
  constructor
  · intro h
    exact ⟨h s .refl, fun s' hs' s'' hs'' => h s'' (.head hs' hs'')⟩
  · rintro ⟨h, hnext⟩ s' hs'
    obtain rfl | ⟨s'', hs'', hrest⟩ := hs'.cases_head
    · exact h
    · exact hnext s'' hs'' s' hrest

theorem decodeEntries_survives_iff {fuel : Nat} (hfuel : input.length ≤ fuel) :
    (∀ e ∈ (decodeEntries format fuel tag2 input).2, ∃ msg, e = .corruption msg) ↔
      ReadsOn format (tag2, input) := by
  have hend : ∀ input, ∀ e ∈ endOfInput input, ∃ msg, e = .corruption msg := by
    intro input
    unfold endOfInput
    split <;> simp
  induction fuel generalizing tag2 input with
  | zero =>
    obtain rfl : input = [] := by simpa using hfuel
    rw [decodeEntries, readsOn_iff]
    simp [endOfInput, NextEntry, getVarint32, Varint.decodeLoop]
  | succ fuel ih =>
    rw [decodeEntries, readsOn_iff]
    cases hread : getVarint32 input with
    | none => simpa [NextEntry, hread] using hend input
    | some p =>
      rcases p with ⟨tag, body⟩
      have hbody := (getVarint32_some hread).2
      simp only [NextEntry, hread, some.injEq, Prod.mk.injEq, forall_and_index,
        forall_eq', forall_apply_eq_imp_iff, ← survives_decodeField_iff]
      cases hfield : decodeField format tag2 body (Tag.ofNumber tag) with
      | error e => simp [hfield, Survives]
      | ok r =>
        rcases r with ⟨entry, tag2', rest⟩
        have hrest := (decodeField_ok format hfield).2
        simpa [hfield, survives_ok] using ih (show rest.length ≤ fuel by omega)

/-- No two deleted guards of one level are read. -/
def DeletesOnce (src : List UInt8) : Prop :=
  ((decodeEntries format src.length none src).1.filterMap EditEntry.deletedLevel).Nodup

/-- User keys without any bytes. -/
def emptyCodec : KeyCodec Unit where
  encode _ := []
  decode _ := ()
  maxSize := 0
  decode_encode _ := rfl
  length_encode_lt _ := by simp

open VersionEdit

/-- `VersionEdit::Clear` on an edit that was used before: `compact_pointers_` and
`new_complete_guards_` are not reset. -/
def VersionEdit.cleared (edit : VersionEdit κ) : VersionEdit κ :=
  { VersionEdit.clear with
    compactPointers := edit.compactPointers
    newCompleteGuards := edit.newCompleteGuards }

/-- What an edit holds after `DecodeFrom`, whatever status that returns, or when the process
ends in it. -/
def VersionEdit.decodeInto (edit : VersionEdit κ) (src : List UInt8) : VersionEdit κ :=
  (decodeEntries format src.length none src).1.foldl push edit.cleared

/-- An edit behind the compaction pointers and complete guards of an old one. -/
def VersionEdit.behind (edit old : VersionEdit κ) : VersionEdit κ :=
  { edit with
    compactPointers := old.compactPointers ++ edit.compactPointers
    newCompleteGuards := fun level => old.newCompleteGuards level ++ edit.newCompleteGuards level }

theorem push_behind (edit old : VersionEdit κ) (entry : EditEntry κ) :
    (edit.behind old).push entry = (edit.push entry).behind old := by
  cases entry with
  | compactPointer => simp [push, behind]
  | newCompleteGuard level key =>
    simp only [push, behind, VersionEdit.mk.injEq, true_and, and_true]
    funext l
    by_cases hl : l = level <;> simp [pushAt, hl]
  | _ => rfl

/-- **What is read comes behind what `Clear` has left.** -/
theorem decodeInto_eq (edit : VersionEdit κ) (src : List UInt8) :
    edit.decodeInto format src = (VersionEdit.clear.decodeInto format src).behind edit := by
  have hfold : ∀ (entries : List (EditEntry κ)) (e : VersionEdit κ),
      entries.foldl push (e.behind edit) = (entries.foldl push e).behind edit := by
    intro entries
    induction entries with
    | nil => exact fun _ => rfl
    | cons entry entries ih => exact fun e => by simp [push_behind, ih]
  rw [decodeInto, decodeInto, ← hfold]
  simp [behind, cleared, clear]

theorem forall_mem_pushAt {P : α → Prop} {table : Level → List α}
    {a : α} (h : ∀ l, ∀ b ∈ table l, P b) (ha : P a) : ∀ l, ∀ b ∈ pushAt table (level, a) l, P b := by
  rw [pushAt, forall_update_iff table fun _ bs => ∀ b ∈ bs, P b]
  exact ⟨forall_mem_append.mpr ⟨h level, forall_mem_singleton.mpr ha⟩, fun l _ => h l⟩

theorem VersionEdit.Representable.push {Valid : κ → Prop} {edit : VersionEdit κ}
    (h : edit.Representable Valid) {entry : EditEntry κ} (hentry : entry.Representable Valid) :
    (edit.push entry).Representable Valid := by
  cases entry with
  | comparator => exact { h with comparator := by rintro _ ⟨⟩; exact hentry }
  | logNumber => exact { h with logNumber := by rintro _ ⟨⟩; exact hentry }
  | prevLogNumber => exact { h with prevLogNumber := by rintro _ ⟨⟩; exact hentry }
  | nextFileNumber => exact { h with nextFileNumber := by rintro _ ⟨⟩; exact hentry }
  | lastSequence => exact { h with lastSequence := by rintro _ ⟨⟩; exact hentry }
  | compactPointer =>
    refine { h with compactPointers := forall_mem_append.mpr ⟨h.compactPointers, ?_⟩ }
    exact forall_mem_singleton.mpr hentry
  | newFile =>
    refine { h with newFiles := forall_mem_append.mpr ⟨h.newFiles, ?_⟩ }
    exact forall_mem_singleton.mpr hentry
  | deletedFile =>
    exact { h with deletedFiles := Finset.forall_mem_insert .. |>.mpr ⟨hentry, h.deletedFiles⟩ }
  | deletedGuard =>
    refine { h with deletedGuards := (forall_update_iff _ fun _ o => ∀ key ∈ o, Valid key).mpr ?_ }
    exact ⟨by rintro _ ⟨⟩; exact hentry, fun l _ => h.deletedGuards l⟩
  | deletedSentinelFile =>
    refine { h with deletedSentinelFiles := Finset.forall_mem_insert .. |>.mpr ⟨hentry, ?_⟩ }
    exact h.deletedSentinelFiles
  | newGuard => exact { h with newGuards := forall_mem_pushAt h.newGuards hentry }
  | newCompleteGuard =>
    exact { h with newCompleteGuards := forall_mem_pushAt h.newCompleteGuards hentry }

theorem representable_decodeInto {edit : VersionEdit κ} (h : edit.Representable format.Valid)
    (src : List UInt8) : (edit.decodeInto format src).Representable format.Valid := by
  have hcleared : edit.cleared.Representable format.Valid := { representable_clear with
    compactPointers := h.compactPointers
    newCompleteGuards := h.newCompleteGuards }
  refine foldlRecOn _ _ hcleared fun e he entry hentry => he.push ?_
  exact representable_decodeEntries format _ _ _ entry hentry

/-- What `Clear` has left can be read off the encoding. -/
theorem kept_eq_of_encodeTo_eq {edit edit' : VersionEdit κ} (h : edit.Representable format.Valid)
    (h' : edit'.Representable format.Valid) {src : List UInt8}
    (heq : (edit.decodeInto format src).encodeTo format =
      (edit'.decodeInto format src).encodeTo format) :
    edit.compactPointers = edit'.compactPointers ∧
      edit.newCompleteGuards = edit'.newCompleteGuards := by
  have hread : ∀ {e : VersionEdit κ}, e.Representable format.Valid →
      decodeEntries format (e.encodeTo format).length none (e.encodeTo format) = (e.entries, none) :=
    fun he => decodeEntries_encode format _ he.entries (length_entries_le format _) none
  have hentries := hread (representable_decodeInto format h src)
  rw [heq, hread (representable_decodeInto format h' src), Prod.mk.injEq] at hentries
  have hsame := congrArg (foldl push clear) hentries.1
  rw [foldl_push_entries, foldl_push_entries, decodeInto_eq, decodeInto_eq format edit] at hsame
  refine ⟨(append_cancel_right (congrArg (·.compactPointers) hsame)).symm, ?_⟩
  funext level
  exact (append_cancel_right (congrFun (congrArg (·.newCompleteGuards) hsame) level)).symm

/-- Keys as an edit holds them. -/
def rawKeys (maxSize : Nat) : KeyFormat (List UInt8) where
  encode := id
  decodeFrom := id
  Valid key := key.length < 2 ^ 32
  maxSize := maxSize
  length_encode_lt _ h := h
  decodeFrom_encode _ _ := rfl
  valid_decodeFrom _ h := h

def EditEntry.keys : EditEntry κ → List κ
  | .compactPointer _ key => [key]
  | .newFile _ f => [f.smallest, f.largest]
  | .deletedGuard _ key => [key]
  | .newGuard _ key => [key]
  | .newCompleteGuard _ key => [key]
  | _ => []

def VersionEdit.HasEmptyKey (edit : VersionEdit (List UInt8)) : Prop :=
  ∃ entry ∈ edit.entries, [] ∈ entry.keys

instance (edit : VersionEdit (List UInt8)) : Decidable edit.HasEmptyKey :=
  inferInstanceAs (Decidable (∃ entry ∈ edit.entries, [] ∈ entry.keys))

/-- What `EncodeTo` writes after `DecodeFrom`; `none` if the process ends in one of them, in
the second at a key that is empty (`InternalKey::Encode`). -/
def VersionEdit.recode
    (maxSize : Nat) (edit : VersionEdit (List UInt8)) (src : List UInt8) : Option (List UInt8) :=
  match decodeFrom (rawKeys maxSize) src with
  | .ok _ | .error (.corruption _) =>
      if (edit.decodeInto (rawKeys maxSize) src).HasEmptyKey then none
      else some ((edit.decodeInto (rawKeys maxSize) src).encodeTo (rawKeys maxSize))
  | .error _ => none

theorem encodeTo_of_recode {maxSize : Nat} {edit : VersionEdit (List UInt8)}
    {src bytes : List UInt8} (h : edit.recode maxSize src = some bytes) :
    (edit.decodeInto (rawKeys maxSize) src).encodeTo (rawKeys maxSize) = bytes := by
  unfold recode at h
  split at h
  case h_3 => cases h
  all_goals
    split_ifs at h
    exact some.inj h

/-- **`DecodeFrom` does not depend on what the edit held before if and only if the fields that
`Clear` leaves were the same**: the same fields give the same result for every input, and two
edits with one encoding had the same fields. -/
theorem encodeTo_decodeInto_eq_iff
    {maxSize : Nat}
    {edit edit' : VersionEdit (List UInt8)}
    (h : edit.Representable (rawKeys maxSize).Valid)
    (h' : edit'.Representable (rawKeys maxSize).Valid)
    (src : List UInt8) :
    (edit.compactPointers = edit'.compactPointers ∧
        edit.newCompleteGuards = edit'.newCompleteGuards →
      edit.recode maxSize src = edit'.recode maxSize src) ∧
    ∀ bytes, edit.recode maxSize src = some bytes → edit'.recode maxSize src = some bytes →
      edit.compactPointers = edit'.compactPointers ∧
        edit.newCompleteGuards = edit'.newCompleteGuards := by
  constructor
  · rintro ⟨hpointers, hguards⟩
    have hcleared : edit.cleared = edit'.cleared := by
      rw [cleared, cleared, hpointers, hguards]
    unfold recode decodeInto
    rw [hcleared]
  · intro bytes hbytes hbytes'
    refine kept_eq_of_encodeTo_eq _ h h' ((encodeTo_of_recode hbytes).trans ?_)
    exact (encodeTo_of_recode hbytes').symm

/-- An edit with a compaction pointer. -/
def staleEdit : VersionEdit (List UInt8) :=
  { VersionEdit.clear with compactPointers := [(0, [65])] }

/-- An edit with the pointer, a log number and a file. -/
def usedEdit : VersionEdit (List UInt8) :=
  { staleEdit with logNumber := some 3, newFiles := [(1, ⟨4, 100, [65], [66]⟩)] }

theorem representable_staleEdit : staleEdit.Representable (rawKeys 0).Valid :=
  { representable_clear with compactPointers := by simp [staleEdit, rawKeys] }

theorem representable_usedEdit : usedEdit.Representable (rawKeys 0).Valid :=
  { representable_staleEdit with
    logNumber := by simp [usedEdit]
    newFiles := by simp [usedEdit, FileOf.Representable, rawKeys] }

/-- A log number and a compaction pointer of one byte are read. -/
theorem encodeTo_decodeInto_eq_iff_stale :
    staleEdit.logNumber ≠ usedEdit.logNumber ∧ staleEdit.newFiles ≠ usedEdit.newFiles ∧
      usedEdit.recode 0 [2, 7, 5, 0, 1, 65] = some [2, 7, 5, 0, 1, 65, 5, 0, 1, 65] :=
  ⟨nofun, nofun, ((encodeTo_decodeInto_eq_iff representable_usedEdit representable_staleEdit _).1
    ⟨rfl, rfl⟩).trans (by decide +kernel)⟩

/-- Decoding the empty string leaves the old compaction pointer. -/
theorem clear_keeps_compactPointer :
    staleEdit.recode 0 [] = some [5, 0, 1, 65] ∧ VersionEdit.clear.recode 0 [] = some [] := by
  have hpointer : EditEntry.encode (rawKeys 0) (.compactPointer 0 [65]) = [5, 0, 1, 65] := rfl
  have hkey : [] ∉ (EditEntry.compactPointer 0 [(65 : UInt8)]).keys := by decide
  have hnone : (finRange kNumLevels).flatMap (fun _ => ([] : List (Level × List UInt8))) = [] := rfl
  simp [recode, decodeFrom, decodeInto, decodeEntries, endOfInput, cleared, staleEdit, clear,
    HasEmptyKey, encodeTo, entries, byLevel, hpointer, hkey, hnone]

end HotTLBApps.PebblesDB
