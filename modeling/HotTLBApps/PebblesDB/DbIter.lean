import HotTLBApps.Lib.Cursor
import HotTLBApps.PebblesDB.DbFormat

/-!
# PebblesDB: the iterator of a database (`db/db_iter.cc`)

`DBIter` shows the user keys at a snapshot, on top of an iterator over all internal
entries.  Moving forward, the inner iterator stands at the entry that is shown.  Moving
backward, it stands before the entries of the key that is shown, and the key and the
value are saved.
-/

namespace HotTLBApps.PebblesDB

open Cursor List Option

universe u v

variable {K : Type u} {V : Type v}

abbrev IterEntry (K : Type u) (V : Type v) := InternalKey K × V

section Entries

variable [LinearOrder K]

/-- What an internal iterator goes through: entries in the internal order, with no two
writes of one user key under one sequence number, and with types that
`PackSequenceAndType` accepts. -/
structure Entries (K : Type u) (V : Type v) [LinearOrder K] where
  list : List (IterEntry K V)
  sorted : list.Pairwise fun a b => a.1 < b.1
  distinct : list.Pairwise fun a b => ¬ (a.1.userKey = b.1.userKey ∧ a.1.sequence = b.1.sequence)
  parses : ∀ e ∈ list, e.1.type ≠ .kTypeGuard

/-- The newest entry of its user key at a snapshot. -/
def IsNewest (entries : List (IterEntry K V)) (s : Nat) (e : IterEntry K V) : Prop :=
  e.1.sequence ≤ s ∧ ∀ e' ∈ entries, e'.1.userKey = e.1.userKey → e'.1.sequence ≤ s →
    e'.1.sequence ≤ e.1.sequence

instance (entries : List (IterEntry K V)) (s : Nat) (e : IterEntry K V) :
    Decidable (IsNewest entries s e) :=
  inferInstanceAs (Decidable (_ ∧ _))

/-- The map at a snapshot: the user keys whose newest entry is a value. -/
def view (entries : List (IterEntry K V)) (s : Nat) : List (K × V) :=
  (entries.filter fun e => IsNewest entries s e ∧ e.1.type = .kTypeValue).map fun e =>
    (e.1.userKey, e.2)

end Entries

inductive Direction
  | kForward
  | kReverse
  deriving DecidableEq

/-- `saved_key_`, which holds a user key, or the internal key of `Seek`. -/
inductive SavedKey (K : Type u)
  | cleared
  | user (k : K)
  | internal (k : InternalKey K)

/-- `DBIter`.  The counters that sample the reads are left out. -/
structure DBIter (K : Type u) (V : Type v) where
  iter : Option Nat
  savedKey : SavedKey K
  savedValue : Option V
  direction : Direction
  valid : Bool

/-- The constructor; the inner iterator may stand anywhere. -/
def DBIter.new (iter : Option Nat) : DBIter K V where
  iter := iter
  savedKey := .cleared
  savedValue := none
  direction := .kForward
  valid := false

variable [LinearOrder K]

/-- `ParseKey(&ikey) && ikey.sequence <= sequence_`. -/
def visible (s : Nat) (ikey : InternalKey K) : Bool :=
  ikey.type.toNat ≤ ValueType.kTypeValue.toNat ∧ ikey.sequence ≤ s

/-- The loop of `FindNextUserEntry` over the entries from number `i` on.  `none` is a
comparison with a saved key that is not a user key. -/
def findNextFrom (s : Nat) : List (IterEntry K V) → Nat → Bool → DBIter K V → Option (DBIter K V)
  | [], _, _, it => some { it with iter := none, savedKey := .cleared, valid := false }
  | (ikey, _) :: rest, i, skipping, it =>
      if visible s ikey then
        match ikey.type with
        | .kTypeDeletion =>
            findNextFrom s rest (i + 1) true { it with savedKey := .user ikey.userKey }
        | .kTypeValue =>
            if skipping then
              match it.savedKey with
              | .user skip =>
                  if ikey.userKey ≤ skip then
                    findNextFrom s rest (i + 1) skipping it
                  else
                    some { it with iter := some i, savedKey := .cleared, valid := true }
              | _ => none
            else
              some { it with iter := some i, savedKey := .cleared, valid := true }
        | .kTypeGuard => findNextFrom s rest (i + 1) skipping it
      else
        findNextFrom s rest (i + 1) skipping it

/-- `FindNextUserEntry`; `none` is an assertion that fails. -/
def findNextUserEntry (entries : List (IterEntry K V)) (s : Nat) (skipping : Bool)
    (it : DBIter K V) : Option (DBIter K V) :=
  match it.iter with
  | none => none
  | some i =>
      if it.direction = .kForward then findNextFrom s (entries.drop i) i skipping it else none

def DBIter.next
    (entries : List (IterEntry K V)) (s : Nat) (it : DBIter K V) : Option (DBIter K V) :=
  if it.valid = false then
    none
  else if it.direction = .kReverse then
    match it.iter.elim (seekToFirst entries) (Cursor.next entries) with
    | none =>
        some { it with
          iter := none, direction := .kForward, valid := false, savedKey := .cleared }
    | some i => findNextUserEntry entries s true { it with iter := some i, direction := .kForward }
  else
    (current entries it.iter).bind fun e =>
      findNextUserEntry entries s true { it with savedKey := .user e.1.userKey }

/-- The loop of `Prev` that goes back from entry number `i` until the key changes. -/
def scanBack (entries : List (IterEntry K V)) (k : K) : Nat → Option Nat
  | 0 => none
  | i + 1 =>
      match entries[i]? with
      | none => none
      | some e => if e.1.userKey < k then some i else scanBack entries k i

/-- One entry in the loop of `FindPrevUserEntry`: whether the loop ends there, `value_type`
and the iterator. -/
def prevEntry (s : Nat) (e : IterEntry K V) (valueType : ValueType)
    (it : DBIter K V) : Option (Bool × ValueType × DBIter K V) :=
  if visible s e.1 then
    match valueType, it.savedKey with
    | .kTypeDeletion, _ => some (false, save)
    | _, .user saved =>
        if e.1.userKey < saved then some (true, valueType, it) else some (false, save)
    | _, _ => none
  else
    some (false, valueType, it)
where
  save : ValueType × DBIter K V :=
    (e.1.type,
      if e.1.type = .kTypeDeletion then
        { it with savedKey := .cleared, savedValue := none }
      else
        { it with savedKey := .user e.1.userKey, savedValue := some e.2 })

/-- The loop of `FindPrevUserEntry` from entry number `i` down. -/
def findPrevFrom (entries : List (IterEntry K V))
    (s : Nat) : Nat → ValueType → DBIter K V → Option (ValueType × DBIter K V)
  | i, valueType, it => do
      let e ← entries[i]?
      let (stop, valueType, it) ← prevEntry s e valueType it
      if stop then
        some (valueType, { it with iter := some i })
      else
        match i with
        | 0 => some (valueType, { it with iter := none })
        | i + 1 => findPrevFrom entries s i valueType it

/-- What `FindPrevUserEntry` does after its loop. -/
def endPrev (valueType : ValueType) (it : DBIter K V) : DBIter K V :=
  if valueType = .kTypeDeletion then
    { it with
      valid := false, savedKey := .cleared, savedValue := none, direction := .kForward }
  else
    { it with valid := true }

def findPrevUserEntry
    (entries : List (IterEntry K V)) (s : Nat) (it : DBIter K V) : Option (DBIter K V) :=
  if it.direction = .kReverse then
    (it.iter.elim (some (.kTypeDeletion, it)) fun i =>
      findPrevFrom entries s i .kTypeDeletion it).map fun (valueType, it) => endPrev valueType it
  else
    none

def DBIter.prev
    (entries : List (IterEntry K V)) (s : Nat) (it : DBIter K V) : Option (DBIter K V) :=
  if it.valid = false then
    none
  else if it.direction = .kForward then
    it.iter.bind fun i => entries[i]?.bind fun e =>
      match scanBack entries e.1.userKey i with
      | none =>
          some { it with iter := none, valid := false, savedKey := .cleared, savedValue := none }
      | some j =>
          findPrevUserEntry entries s { it with
            iter := some j, savedKey := .user e.1.userKey, direction := .kReverse }
  else
    findPrevUserEntry entries s it

/-- What the seeks in the forward direction share: the inner iterator has been placed. -/
def DBIter.placed
    (entries : List (IterEntry K V)) (s : Nat) (it : DBIter K V) : Option (DBIter K V) :=
  match it.iter with
  | some _ => findNextUserEntry entries s false it
  | none => some { it with valid := false }

def DBIter.seek (entries : List (IterEntry K V)) (s : Nat) (it : DBIter K V)
    (target : K) : Option (DBIter K V) :=
  DBIter.placed entries s { it with
    direction := .kForward
    savedValue := none
    savedKey := .internal ⟨target, s, kValueTypeForSeek⟩
    iter := Cursor.seek Prod.fst entries ⟨target, s, kValueTypeForSeek⟩ }

def DBIter.seekToFirst
    (entries : List (IterEntry K V)) (s : Nat) (it : DBIter K V) : Option (DBIter K V) :=
  DBIter.placed entries s { it with
    direction := .kForward, savedValue := none, iter := Cursor.seekToFirst entries }

def DBIter.seekToLast
    (entries : List (IterEntry K V)) (s : Nat) (it : DBIter K V) : Option (DBIter K V) :=
  findPrevUserEntry entries s { it with
    direction := .kReverse, savedValue := none, iter := Cursor.seekToLast entries }

/-- One call; `none` is an assertion that fails. -/
def DBIter.call
    (entries : List (IterEntry K V)) (s : Nat) (it : DBIter K V) : Call K → Option (DBIter K V)
  | .seekToFirst => it.seekToFirst entries s
  | .seekToLast => it.seekToLast entries s
  | .seek target => it.seek entries s target
  | .next => it.next entries s
  | .prev => it.prev entries s

/-- `Valid`, `key` and `value`. -/
def DBIter.current (entries : List (IterEntry K V)) (it : DBIter K V) : Option (K × V) :=
  if it.valid = false then
    none
  else if it.direction = .kForward then
    (Cursor.current entries it.iter).map fun e => (e.1.userKey, e.2)
  else
    match it.savedKey, it.savedValue with
    | .user k, some v => some (k, v)
    | _, _ => none

variable (es : Entries K V) {s : Nat} {i j : Nat} {e e' : IterEntry K V}

theorem Entries.toNat_type_le (h : e ∈ es.list) : e.1.type.toNat ≤ 1 := by
  have hparses := es.parses e h
  cases htype : e.1.type with
  | kTypeDeletion | kTypeValue => decide
  | kTypeGuard => exact absurd htype hparses

theorem Entries.visible_iff (h : e ∈ es.list) : visible s e.1 = true ↔ e.1.sequence ≤ s := by
  rw [visible, decide_eq_true_iff]
  exact and_iff_right (es.toNat_type_le h)

/-- Entries further on have greater user keys, or the same one and are older. -/
theorem Entries.lt_of_lt (hi : es.list[i]? = some e) (hj : es.list[j]? = some e') (hij : i < j) :
    e.1.userKey < e'.1.userKey ∨ (e.1.userKey = e'.1.userKey ∧ e'.1.sequence < e.1.sequence) := by
  obtain ⟨hi', rfl⟩ := List.getElem?_eq_some_iff.mp hi
  obtain ⟨hj', rfl⟩ := List.getElem?_eq_some_iff.mp hj
  have hlt := pairwise_iff_getElem.mp es.sorted i j hi' hj' hij
  have hne := pairwise_iff_getElem.mp es.distinct i j hi' hj' hij
  obtain huser | ⟨heq, htag⟩ := InternalKey.lt_iff.mp hlt
  · exact .inl huser
  · refine .inr ⟨heq, lt_of_le_of_ne ?_ fun h => hne ⟨heq, h.symm⟩⟩
    have := es.toNat_type_le (getElem_mem hi')
    simp only [InternalKey.tag, packSequenceAndType] at htag
    omega

theorem Entries.userKey_le (hi : es.list[i]? = some e) (hj : es.list[j]? = some e')
    (hij : i ≤ j) : e.1.userKey ≤ e'.1.userKey := by
  rcases hij.lt_or_eq with hij | rfl
  · rcases es.lt_of_lt hi hj hij with h | ⟨h, -⟩ <;> exact h.le
  · rw [hi] at hj
    cases hj
    exact le_rfl

/-- An entry is the newest one when no entry before it has the same user key and is
visible. -/
theorem Entries.isNewest_iff (hi : es.list[i]? = some e) (hvisible : visible s e.1 = true) :
    IsNewest es.list s e ↔ ∀ j e', j < i → es.list[j]? = some e' → visible s e'.1 = true →
        e'.1.userKey ≠ e.1.userKey := by
  refine ⟨?_, ?_⟩
  · rintro ⟨-, hnewest⟩ j e' hji hj hvisible' heq
    have hmem := mem_of_getElem? hj
    have hle := hnewest e' hmem heq ((es.visible_iff hmem).mp hvisible')
    obtain hlt | ⟨-, hlt⟩ := es.lt_of_lt hj hi hji
    · exact hlt.ne heq
    · omega
  · intro hbefore
    refine ⟨(es.visible_iff (mem_of_getElem? hi)).mp hvisible, ?_⟩
    intro e' hmem heq hle
    obtain ⟨j, hj⟩ := getElem?_of_mem hmem
    obtain hji | rfl | hij := lt_trichotomy j i
    · exact absurd heq (hbefore j e' hji hj ((es.visible_iff hmem).mpr hle))
    · rw [hi] at hj
      cases hj
      exact le_rfl
    · obtain hlt | ⟨-, hlt⟩ := es.lt_of_lt hi hj hij
      · exact absurd heq.symm hlt.ne
      · exact hlt.le

theorem mem_view {entries : List (IterEntry K V)} {x : K × V} : x ∈ view entries s ↔
      ∃ e ∈ entries, IsNewest entries s e ∧ e.1.type = .kTypeValue ∧ (e.1.userKey, e.2) = x := by
  simp only [view, List.mem_map, List.mem_filter, decide_eq_true_eq, and_assoc]

theorem Entries.view_sorted (s : Nat) : (view es.list s).Pairwise fun a b => a.1 < b.1 := by
  rw [view, pairwise_map, pairwise_filter]
  rw [pairwise_iff_getElem]
  intro i j hi hj hij hx hy
  have hget := getElem?_eq_getElem hi
  have hget' := getElem?_eq_getElem hj
  simp only [decide_eq_true_eq] at hx hy
  obtain hlt | ⟨heq, hlt⟩ := es.lt_of_lt hget hget' hij
  · exact hlt
  · have := hy.1.2 _ (getElem_mem hi) heq hx.1.1
    omega

variable {es : Entries K V}

/-- A visible entry from number `i` on. -/
def VisibleFrom (es : Entries K V) (s : Nat) (i : Nat) (e : IterEntry K V) : Prop :=
  ∃ j, i ≤ j ∧ es.list[j]? = some e ∧ visible s e.1 = true

/-- A visible entry before number `i`. -/
def VisibleBefore (es : Entries K V) (s : Nat) (i : Nat) (e : IterEntry K V) : Prop :=
  ∃ j, j < i ∧ es.list[j]? = some e ∧ visible s e.1 = true

/-- The loop of `FindNextUserEntry` when the keys of `D` are to be skipped. -/
structure Skips (es : Entries K V) (s : Nat) (D : K → Prop) (i : Nat) (skipping : Bool)
    (it : DBIter K V) : Prop where
  lower : ∀ k k', k ≤ k' → D k' → D k
  before : ∀ e, VisibleBefore es s i e → D e.1.userKey
  saved : skipping = true → ∃ skip, it.savedKey = .user skip ∧
    ∀ e, VisibleFrom es s i e → skip ≤ e.1.userKey ∧ (D e.1.userKey ↔ e.1.userKey ≤ skip)
  fresh : skipping = false → ∀ e, VisibleFrom es s i e → ¬ D e.1.userKey

/-- The iterator stands at an entry that is shown. -/
def StandsAtShown (es : Entries K V) (s : Nat) (it : DBIter K V) : Prop :=
  it.valid = true → ∃ i e, it.iter = some i ∧ es.list[i]? = some e ∧
    IsNewest es.list s e ∧ e.1.type = .kTypeValue

variable {D : K → Prop} {skipping : Bool} {it : DBIter K V}

theorem VisibleFrom.of_succ (h : VisibleFrom es s (i + 1) e) : VisibleFrom es s i e := by
  obtain ⟨j, hj, hget, hvisible⟩ := h
  exact ⟨j, by omega, hget, hvisible⟩

variable {x : K × V}

/-- A pair of the map comes from entry number `j`. -/
def ShownBy (es : Entries K V) (s : Nat) (x : K × V) (j : Nat) (e : IterEntry K V) : Prop :=
  es.list[j]? = some e ∧ visible s e.1 = true ∧ IsNewest es.list s e ∧ e.1.type = .kTypeValue ∧
    (e.1.userKey, e.2) = x

theorem exists_newest (hx : x ∈ view es.list s) : ∃ j e, ShownBy es s x j e := by
  obtain ⟨e, hmem, hnewest, htype, heq⟩ := mem_view.mp hx
  obtain ⟨j, hj⟩ := getElem?_of_mem hmem
  exact ⟨j, e, hj, (es.visible_iff hmem).mpr hnewest.1, hnewest, htype, heq⟩

theorem Skips.ahead (h : Skips es s D i skipping it) (hx : x ∈ view es.list s) (hD : ¬ D x.1) :
    ∃ e j, i ≤ j ∧ ShownBy es s x j e := by
  obtain ⟨j, e, hj, hvisible, hnewest, htype, rfl⟩ := exists_newest hx
  refine ⟨e, j, ?_, hj, hvisible, hnewest, htype, rfl⟩
  by_contra hlt
  exact hD (h.before e ⟨j, by omega, hj, hvisible⟩)

/-- An entry is passed if it is not visible or its key is skipped. -/
theorem Skips.passed (h : Skips es s D i skipping it) (hi : es.list[i]? = some e)
    (hpassed : visible s e.1 = true → D e.1.userKey) : Skips es s D (i + 1) skipping it := by
  refine ⟨h.lower, ?_, ?_, ?_⟩
  · rintro e' ⟨j, hj, hget, hvisible'⟩
    obtain hj | rfl := Nat.lt_succ_iff_lt_or_eq.mp hj
    · exact h.before e' ⟨j, hj, hget, hvisible'⟩
    · rw [hi] at hget
      cases hget
      exact hpassed hvisible'
  · intro hskipping
    obtain ⟨skip, heq, hsaved⟩ := h.saved hskipping
    exact ⟨skip, heq, fun e' he' => hsaved e' he'.of_succ⟩
  · exact fun hskipping e' he' => h.fresh hskipping e' he'.of_succ

theorem skips_upTo {k : K} (hkey : it.savedKey = .user k)
    (hbefore : ∀ e, VisibleBefore es s i e → e.1.userKey ≤ k)
    (hfrom : ∀ e, VisibleFrom es s i e → k ≤ e.1.userKey) : Skips es s (· ≤ k) i true it :=
  ⟨fun _ _ => le_trans, hbefore, fun _ => ⟨k, hkey, fun e he => ⟨hfrom e he, Iff.rfl⟩⟩, nofun⟩

theorem skips_entry (it : DBIter K V) (hi : es.list[i]? = some e) (hj : j = i ∨ j = i + 1) :
    Skips es s (· ≤ e.1.userKey) j true { it with savedKey := .user e.1.userKey } := by
  refine skips_upTo rfl ?_ ?_
  · rintro e' ⟨m, hm, hget, -⟩
    exact es.userKey_le hget hi (by omega)
  · rintro e' ⟨m, hm, hget, -⟩
    exact es.userKey_le hi hget (by omega)

/-- A deletion hides its user key and nothing else. -/
theorem Skips.deletion_iff (h : Skips es s D i skipping it) (hi : es.list[i]? = some e)
    (hvisible : visible s e.1 = true) (htype : e.1.type = .kTypeDeletion)
    (hx : x ∈ view es.list s) : ¬ x.1 ≤ e.1.userKey ↔ ¬ D x.1 := by
  have hhere : VisibleFrom es s i e := ⟨i, le_rfl, hi, hvisible⟩
  constructor
  · intro hnot hDx
    rw [not_le] at hnot
    have hD := h.lower _ _ hnot.le hDx
    cases skipping with
    | false => exact h.fresh rfl e hhere hD
    | true =>
      -- A skipped visible entry ahead has the saved key itself.
      obtain ⟨skip, -, hsaved⟩ := h.saved rfl
      obtain ⟨hle, hiff⟩ := hsaved e hhere
      have heq := le_antisymm hle (hiff.mp hD)
      obtain ⟨j, e', hj, hvisible', -, -, rfl⟩ := exists_newest hx
      obtain hji | hij := Nat.lt_or_ge j i
      · exact absurd (es.userKey_le hj hi hji.le) (not_le.mpr hnot)
      · have hle' := ((hsaved e' ⟨j, hij, hj, hvisible'⟩).2).mp hDx
        rw [heq] at hle'
        exact absurd hle' (not_le.mpr hnot)
  · intro hDx hle
    obtain ⟨e', j, hij, hj, hvisible', hnewest, htype', rfl⟩ := h.ahead hx hDx
    have heq : e'.1.userKey = e.1.userKey := le_antisymm hle (es.userKey_le hi hj hij)
    obtain hlt | rfl := hij.lt_or_eq
    · exact (es.isNewest_iff hj hvisible').mp hnewest i e hlt hi hvisible heq.symm
    · rw [hi] at hj
      cases hj
      rw [htype] at htype'
      cases htype'

/-- **The loop of `FindNextUserEntry`** stops at the first key that is shown and not
skipped. -/
theorem findNextFrom_spec (h : Skips es s D i skipping it) (hforward : it.direction = .kForward) :
    ∃ it', findNextFrom s (es.list.drop i) i skipping it = some it' ∧
      it'.direction = .kForward ∧ StandsAtShown es s it' ∧
      IsFirst Prod.fst (view es.list s) (fun x => ¬ D x.1) (it'.current es.list) := by
  generalize hrest : es.list.drop i = rest
  induction rest generalizing i skipping it D with
  | nil =>
    have hlength : es.list.length ≤ i := drop_eq_nil_iff.mp hrest
    refine ⟨_, rfl, hforward, nofun, isFirst_none fun x hx hD => ?_⟩
    obtain ⟨e, j, hij, hj, -⟩ := h.ahead hx hD
    obtain ⟨hlt, -⟩ := List.getElem?_eq_some_iff.mp hj
    omega
  | cons e rest ih =>
    obtain ⟨ikey, v⟩ := e
    have hi : es.list[i]? = some (ikey, v) := by
      rw [← head?_drop, hrest]
      rfl
    have hrest' : es.list.drop (i + 1) = rest := by
      rw [← tail_drop, hrest]
      rfl
    -- The entry is yielded when its key is not skipped.
    have hyield : visible s ikey = true → ikey.type = .kTypeValue → ¬ D ikey.userKey →
        ∃ it', some { it with iter := some i, savedKey := SavedKey.cleared, valid := true } =
            some it' ∧ it'.direction = .kForward ∧ StandsAtShown es s it' ∧
          IsFirst Prod.fst (view es.list s) (fun x => ¬ D x.1) (it'.current es.list) := by
      intro hvisible htype hD
      have hnewest : IsNewest es.list s (ikey, v) := by
        refine (es.isNewest_iff hi hvisible).mpr ?_
        intro j e' hji hj hvisible' heq
        have := h.before e' ⟨j, hji, hj, hvisible'⟩
        rw [heq] at this
        exact hD this
      have hcurrent : DBIter.current es.list { it with
          iter := some i, savedKey := SavedKey.cleared, valid := true } =
          some (ikey.userKey, v) := by
        simp [DBIter.current, hforward, current, hi]
      refine ⟨_, rfl, hforward, fun _ => ⟨i, _, rfl, hi, hnewest, htype⟩, ?_⟩
      rw [hcurrent]
      refine isFirst_some (mem_view.mpr ⟨_, mem_of_getElem? hi, hnewest, htype, rfl⟩) hD ?_
      intro x hx hDx
      obtain ⟨e', j, hij, hj, -, -, -, rfl⟩ := h.ahead hx hDx
      exact es.userKey_le hi hj hij
    rw [findNextFrom]
    by_cases hvisible : visible s ikey = true
    · rw [if_pos hvisible]
      have hhere : VisibleFrom es s i (ikey, v) := ⟨i, le_rfl, hi, hvisible⟩
      cases htype : ikey.type with
      | kTypeDeletion =>
        obtain ⟨it', hloop, hdirection, hstands, hfirst⟩ :=
          ih (skips_entry it hi (.inr rfl)) hforward hrest'
        refine ⟨it', hloop, hdirection, hstands, hfirst.congr ?_⟩
        exact fun x hx => h.deletion_iff hi hvisible htype hx
      | kTypeValue =>
        cases skipping with
        | false =>
          rw [if_neg Bool.false_ne_true]
          exact hyield hvisible htype (h.fresh rfl _ hhere)
        | true =>
          obtain ⟨skip, heq, hsaved⟩ := h.saved rfl
          obtain ⟨-, hiff⟩ := hsaved _ hhere
          rw [if_pos rfl, heq]
          dsimp only
          split_ifs with hle
          · exact ih (h.passed hi fun _ => hiff.mpr hle) hforward hrest'
          · exact hyield hvisible htype fun hD => hle (hiff.mp hD)
      | kTypeGuard => exact absurd htype (es.parses _ (mem_of_getElem? hi))
    · rw [if_neg hvisible]
      exact ih (h.passed hi fun hv => absurd hv hvisible) hforward hrest'

/-- The loop of `FindPrevUserEntry` before the last `b` entries: the keys of `U` are not
looked for.  Every other key that is shown has a visible entry still to come, or it is
the one that is saved. -/
def Saves (es : Entries K V) (s : Nat) (U : K → Prop) (b : Nat) (it : DBIter K V) : ValueType → Prop
  | .kTypeDeletion =>
      ∀ x ∈ view es.list s, ¬ U x.1 → ∃ e, VisibleBefore es s b e ∧ e.1.userKey = x.1
  | .kTypeValue =>
      ∃ m e, b ≤ m ∧ es.list[m]? = some e ∧ visible s e.1 = true ∧ e.1.type = .kTypeValue ∧
        it.savedKey = .user e.1.userKey ∧ it.savedValue = some e.2 ∧ ¬ U e.1.userKey ∧
        (∀ j e', b ≤ j → j < m → es.list[j]? = some e' → visible s e'.1 = false) ∧
        ∀ x ∈ view es.list s, ¬ U x.1 →
          x.1 = e.1.userKey ∨ ∃ e', VisibleBefore es s b e' ∧ e'.1.userKey = x.1
  | .kTypeGuard => False

/-- The first `b` entries are those before a key. -/
structure Splits (es : Entries K V) (s : Nat) (k : K) (b : Nat) : Prop where
  less : ∀ j e, j < b → es.list[j]? = some e → e.1.userKey < k
  more : ∀ e, VisibleFrom es s b e → k ≤ e.1.userKey

/-- The inner iterator stands before the entries of the saved key. -/
def StandsBehind (es : Entries K V) (s : Nat) (k : K) (it : DBIter K V) : Prop :=
  ∃ b, b ≤ es.list.length ∧ it.iter = Cursor.prev b ∧ Splits es s k b

/-- The saved key is the last one that is shown and looked for. -/
def SavedLast (es : Entries K V) (s : Nat) (U : K → Prop) (b : Nat) (it : DBIter K V) : Prop :=
  ∃ k v, it.savedKey = .user k ∧ it.savedValue = some v ∧ (k, v) ∈ view es.list s ∧ ¬ U k ∧
    (∀ x ∈ view es.list s, ¬ U x.1 → x.1 ≤ k) ∧ Splits es s k b

variable {U : K → Prop} {b i : Nat} {valueType : ValueType}

theorem VisibleBefore.of_succ (h : VisibleBefore es s (i + 1) e')
    (hi : es.list[i]? = some e) : VisibleBefore es s i e' ∨ e' = e := by
  obtain ⟨j, hj, hget, hvisible⟩ := h
  obtain hj | rfl := Nat.lt_succ_iff_lt_or_eq.mp hj
  · exact .inl ⟨j, hj, hget, hvisible⟩
  · rw [hi] at hget
    cases hget
    exact .inr rfl

/-- When only smaller keys are left, the saved key is shown. -/
theorem Saves.savedLast (h : Saves es s U b it .kTypeValue) {k : K} (hk : it.savedKey = .user k)
    (hless : ∀ j e, j < b → es.list[j]? = some e → e.1.userKey < k) : SavedLast es s U b it := by
  obtain ⟨m, e, hbm, hm, hvisible, htype, hkey, hvalue, hU, hbetween, hview⟩ := h
  rw [hk] at hkey
  cases hkey
  have hnewest : IsNewest es.list s e := by
    refine (es.isNewest_iff hm hvisible).mpr ?_
    intro j e' hjm hj hvisible' heq
    obtain hjb | hbj := Nat.lt_or_ge j b
    · exact (hless j e' hjb hj).ne heq
    · rw [hbetween j e' hbj hjm hj] at hvisible'
      cases hvisible'
  refine ⟨_, e.2, hk, hvalue, ?_, hU, ?_, ⟨hless, ?_⟩⟩
  · exact mem_view.mpr ⟨e, mem_of_getElem? hm, hnewest, htype, rfl⟩
  · intro x hx hUx
    obtain heq | ⟨e', ⟨j, hjb, hj, -⟩, heq⟩ := hview x hx hUx
    · exact heq.le
    · exact heq ▸ (hless j e' hjb hj).le
  · rintro e' ⟨j, hbj, hj, hvisible'⟩
    obtain hjm | hmj := Nat.lt_or_ge j m
    · rw [hbetween j e' hbj hjm hj] at hvisible'
      cases hvisible'
    · exact es.userKey_le hm hj hmj

theorem Saves.none (h : Saves es s U 0 it .kTypeDeletion) (x : K × V) (hx : x ∈ view es.list s) :
    U x.1 := by
  by_contra hU
  obtain ⟨e, ⟨j, hj, -⟩, -⟩ := h x hx hU
  omega

/-- A visible entry becomes the saved one, or it clears what was saved. -/
theorem saves_save (hi : es.list[i]? = some e) (hvisible : visible s e.1 = true)
    (hU : ¬ U e.1.userKey) (hview : ∀ x ∈ view es.list s, ¬ U x.1 →
      ∃ e', VisibleBefore es s (i + 1) e' ∧ e'.1.userKey = x.1) :
    Saves es s U i (prevEntry.save e it).2 (prevEntry.save e it).1 := by
  rw [prevEntry.save]
  cases htype : e.1.type with
  | kTypeDeletion =>
    intro x hx hUx
    obtain ⟨e', hbefore, heq⟩ := hview x hx hUx
    obtain hbefore | rfl := hbefore.of_succ hi
    · exact ⟨e', hbefore, heq⟩
    · -- The newest entry of a key that is shown is not this deletion, so it is before it.
      obtain ⟨j, e'', hj, hvisible'', hnewest, htype'', rfl⟩ := exists_newest hx
      refine ⟨e'', ⟨j, ?_, hj, hvisible''⟩, rfl⟩
      obtain hji | rfl | hij := lt_trichotomy j i
      · exact hji
      · rw [hi] at hj
        cases hj
        rw [htype] at htype''
        cases htype''
      · exact absurd heq ((es.isNewest_iff hj hvisible'').mp hnewest i e' hij hi hvisible)
  | kTypeValue =>
    refine ⟨i, e, le_rfl, hi, hvisible, htype, rfl, rfl, hU, ?_, ?_⟩
    · intro j e' hij hji
      omega
    · intro x hx hUx
      obtain ⟨e', hbefore, heq⟩ := hview x hx hUx
      obtain hbefore | rfl := hbefore.of_succ hi
      · exact .inr ⟨e', hbefore, heq⟩
      · exact .inl heq.symm
  | kTypeGuard => exact absurd htype (es.parses e (mem_of_getElem? hi))

omit [LinearOrder K] in
theorem direction_save (e : IterEntry K V)
    (it : DBIter K V) : (prevEntry.save e it).2.direction = it.direction := by
  rw [prevEntry.save]
  split_ifs <;> rfl

/-- **One entry in the loop of `FindPrevUserEntry`.** -/
theorem prevEntry_spec (hi : es.list[i]? = some e)
    (hU : ∀ e, VisibleBefore es s (i + 1) e → ¬ U e.1.userKey)
    (h : Saves es s U (i + 1) it valueType) :
    ∃ stop valueType' it', prevEntry s e valueType it = some (stop, valueType', it') ∧
      it'.direction = it.direction ∧
      ((stop = false ∧ Saves es s U i it' valueType') ∨
        (stop = true ∧ valueType' = .kTypeValue ∧ SavedLast es s U (i + 1) it')) := by
  unfold prevEntry
  split_ifs with hvisible
  · have hUe : ¬ U e.1.userKey := hU e ⟨i, Nat.lt_succ_self i, hi, hvisible⟩
    cases valueType with
    | kTypeDeletion =>
      exact ⟨false, _, _, rfl, direction_save e it, .inl ⟨rfl, saves_save hi hvisible hUe h⟩⟩
    | kTypeValue =>
      have hsaves := h
      obtain ⟨m, e₀, hbm, hm, -, -, hkey, -, -, -, hview⟩ := h
      rw [hkey]
      dsimp only
      split_ifs with hless
      · refine ⟨true, _, _, rfl, rfl, .inr ⟨rfl, rfl, hsaves.savedLast hkey ?_⟩⟩
        intro j e' hj hget
        exact (es.userKey_le hget hi (by omega)).trans_lt hless
      · refine ⟨false, _, _, rfl, direction_save e it, .inl ⟨rfl, ?_⟩⟩
        have heq : e.1.userKey = e₀.1.userKey :=
          le_antisymm (es.userKey_le hi hm (by omega)) (not_lt.mp hless)
        refine saves_save hi hvisible hUe ?_
        intro x hx hUx
        obtain hx' | hx' := hview x hx hUx
        · exact ⟨e, ⟨i, Nat.lt_succ_self i, hi, hvisible⟩, heq.trans hx'.symm⟩
        · exact hx'
    | kTypeGuard => exact h.elim
  · refine ⟨false, valueType, it, rfl, rfl, .inl ⟨rfl, ?_⟩⟩
    have hbefore : ∀ e', VisibleBefore es s (i + 1) e' → VisibleBefore es s i e' := by
      intro e' he'
      obtain hbefore | rfl := he'.of_succ hi
      · exact hbefore
      · obtain ⟨-, -, -, hvisible'⟩ := he'
        exact absurd hvisible' hvisible
    cases valueType with
    | kTypeDeletion =>
      intro x hx hUx
      obtain ⟨e', he', heq⟩ := h x hx hUx
      exact ⟨e', hbefore e' he', heq⟩
    | kTypeValue =>
      obtain ⟨m, e₀, hbm, hm, hvis, htype, hkey, hvalue, hU₀, hbetween, hview⟩ := h
      refine ⟨m, e₀, by omega, hm, hvis, htype, hkey, hvalue, hU₀, ?_, ?_⟩
      · intro j e' hij hjm hj
        obtain hlt | rfl := hij.lt_or_eq
        · exact hbetween j e' hlt hjm hj
        · rw [hi] at hj
          cases hj
          exact Bool.eq_false_iff.mpr hvisible
      · intro x hx hUx
        refine (hview x hx hUx).imp_right ?_
        rintro ⟨e', he', heq⟩
        exact ⟨e', hbefore e' he', heq⟩
    | kTypeGuard => exact h.elim

/-- **The loop of `FindPrevUserEntry`** saves the last key that is shown and looked for. -/
theorem findPrevFrom_spec (hlength : i < es.list.length)
    (hU : ∀ e, VisibleBefore es s (i + 1) e → ¬ U e.1.userKey)
    (h : Saves es s U (i + 1) it valueType) :
    ∃ valueType' it', findPrevFrom es.list s i valueType it = some (valueType', it') ∧
      it'.direction = it.direction ∧
      ((valueType' = .kTypeDeletion ∧ ∀ x ∈ view es.list s, U x.1) ∨
        (valueType' = .kTypeValue ∧ ∃ b, b ≤ es.list.length ∧ it'.iter = Cursor.prev b ∧
          SavedLast es s U b it')) := by
  induction i using Nat.strongRecOn generalizing valueType it with
  | ind i ih =>
    have hi := getElem?_eq_getElem hlength
    obtain ⟨stop, vt, it', hentry, hdirection, hcases⟩ := prevEntry_spec hi hU h
    rw [findPrevFrom, hi]
    simp only [bind_eq_bind, bind_some, hentry]
    obtain ⟨rfl, hsaves⟩ | ⟨rfl, rfl, hlast⟩ := hcases
    · cases i with
      | zero =>
        refine ⟨vt, _, rfl, hdirection, ?_⟩
        cases vt with
        | kTypeDeletion => exact .inl ⟨rfl, hsaves.none⟩
        | kTypeValue =>
          refine .inr ⟨rfl, 0, Nat.zero_le _, rfl, ?_⟩
          obtain ⟨m, e, -, -, -, -, hkey, -⟩ := id hsaves
          exact hsaves.savedLast hkey fun j e hj => by omega
        | kTypeGuard => exact hsaves.elim
      | succ i =>
        have hU' : ∀ e, VisibleBefore es s (i + 1) e → ¬ U e.1.userKey := by
          rintro e ⟨j, hj, hget, hvisible⟩
          exact hU e ⟨j, by omega, hget, hvisible⟩
        obtain ⟨vt', it'', hloop, hdirection', hdone⟩ := ih i i.lt_succ_self (by omega) hU' hsaves
        exact ⟨vt', it'', hloop, hdirection'.trans hdirection, hdone⟩
    · exact ⟨.kTypeValue, _, rfl, hdirection, .inr ⟨rfl, i + 1, hlength, rfl, hlast⟩⟩

def DBIter.Inv (es : Entries K V) (s : Nat) (it : DBIter K V) : Prop :=
  (it.direction = .kForward → StandsAtShown es s it) ∧
    (it.direction = .kReverse → it.valid = true →
      ∃ k v, it.savedKey = .user k ∧ it.savedValue = some v ∧ StandsBehind es s k it)

variable {ω : Type*} [LinearOrder ω]

theorem inv_of_not_valid (h : it.valid = false) : it.Inv es s := by
  simp [DBIter.Inv, StandsAtShown, h]

/-- A call succeeds and shows the first pair of the map with a property, in an order. -/
def Shows (es : Entries K V) (s : Nat) (ord : K × V → ω) (q : K × V → Prop)
    (result : Option (DBIter K V)) : Prop :=
  ∃ it', result = some it' ∧ it'.Inv es s ∧ IsFirst ord (view es.list s) q (it'.current es.list)

theorem Shows.congr {ord : K × V → ω} {q q' : K × V → Prop} {result : Option (DBIter K V)}
    (h : Shows es s ord q result) (hiff : ∀ x ∈ view es.list s, q x ↔ q' x) :
    Shows es s ord q' result := by
  obtain ⟨it', hresult, hinv, hfirst⟩ := h
  exact ⟨it', hresult, hinv, hfirst.congr hiff⟩

/-- The order in which the first pair is the last one. -/
def backward (x : K × V) : Kᵒᵈ :=
  OrderDual.toDual x.1

theorem findNextUserEntry_spec (h : Skips es s D i skipping it)
    (hiter : it.iter = some i) (hforward : it.direction = .kForward) :
    Shows es s Prod.fst (fun x => ¬ D x.1) (findNextUserEntry es.list s skipping it) := by
  obtain ⟨it', hloop, hdirection, hstands, hfirst⟩ := findNextFrom_spec h hforward
  refine ⟨it', ?_, ⟨fun _ => hstands, fun hreverse => ?_⟩, hfirst⟩
  · rw [findNextUserEntry, hiter]
    dsimp only
    rw [if_pos hforward, hloop]
  · rw [hdirection] at hreverse
    cases hreverse

/-- `FindPrevUserEntry`, when the first `b` entries are those that are looked at. -/
theorem findPrevUserEntry_spec (hreverse : it.direction = .kReverse) (hlength : b ≤ es.list.length)
    (hiter : it.iter = Cursor.prev b) (hU : ∀ e, VisibleBefore es s b e → ¬ U e.1.userKey)
    (hview : Saves es s U b it .kTypeDeletion) :
    Shows es s backward (fun x => ¬ U x.1) (findPrevUserEntry es.list s it) := by
  have hrun : ∃ valueType it', (it.iter.elim (some (.kTypeDeletion, it)) fun i =>
        findPrevFrom es.list s i .kTypeDeletion it) = some (valueType, it') ∧
      it'.direction = .kReverse ∧
      ((valueType = .kTypeDeletion ∧ ∀ x ∈ view es.list s, U x.1) ∨
        (valueType = .kTypeValue ∧ ∃ b, b ≤ es.list.length ∧ it'.iter = prev b ∧
          SavedLast es s U b it')) := by
    cases b with
    | zero =>
      rw [hiter]
      exact ⟨_, _, rfl, hreverse, .inl ⟨rfl, hview.none⟩⟩
    | succ i =>
      rw [hiter]
      obtain ⟨vt, it', hloop, hdirection, hdone⟩ := findPrevFrom_spec hlength hU hview
      exact ⟨vt, it', hloop, hdirection.trans hreverse, hdone⟩
  obtain ⟨valueType, it', hloop, hdirection, hdone⟩ := hrun
  rw [findPrevUserEntry, if_pos hreverse, hloop, map_some]
  rcases hdone with ⟨rfl, hnone⟩ | ⟨rfl, b, hb, hiter', k, v, hkey, hvalue, hmem, hUk, hmax, hsplits⟩
  · exact ⟨_, rfl, inv_of_not_valid rfl, isFirst_none fun x hx => not_not.mpr (hnone x hx)⟩
  · have hcurrent : DBIter.current es.list (endPrev .kTypeValue it') = some (k, v) := by
      simp [DBIter.current, endPrev, hdirection, hkey, hvalue]
    refine ⟨_, rfl, ⟨fun hforward => ?_, fun _ _ => ?_⟩, ?_⟩
    · dsimp only [endPrev] at hforward
      rw [if_neg (by decide)] at hforward
      rw [hdirection] at hforward
      cases hforward
    · exact ⟨k, v, hkey, hvalue, b, hb, hiter', hsplits⟩
    · rw [hcurrent]
      exact isFirst_some hmem hUk hmax

theorem placed_spec (hforward : it.direction = .kForward)
    (hsome : ∀ i, it.iter = some i → Skips es s D i false it)
    (hnone : it.iter = none → ∀ x ∈ view es.list s, D x.1) :
    Shows es s Prod.fst (fun x => ¬ D x.1) (DBIter.placed es.list s it) := by
  rw [DBIter.placed]
  cases hiter : it.iter with
  | none =>
    exact ⟨_, rfl, inv_of_not_valid rfl, isFirst_none fun x hx => not_not.mpr (hnone hiter x hx)⟩
  | some i => exact findNextUserEntry_spec (hsome i hiter) hiter hforward

theorem seekToFirst_spec (it : DBIter K V) :
    Shows es s Prod.fst (fun _ => True) (it.seekToFirst es.list s) := by
  have hplaced : Shows es s Prod.fst (fun _ => ¬ False) (it.seekToFirst es.list s) := by
    refine placed_spec (D := fun _ => False) rfl ?_ ?_
    · intro i hi
      simp only [seekToFirst] at hi
      split_ifs at hi
      cases hi
      refine ⟨fun _ _ _ h => h, ?_, ?_, fun _ _ _ h => h⟩
      · rintro e ⟨j, hj, -⟩
        omega
      · intro h
        cases h
    · intro hnone x hx
      simp only [seekToFirst] at hnone
      split_ifs at hnone with hlength
      obtain ⟨j, e, hj, -⟩ := exists_newest hx
      obtain ⟨hlt, -⟩ := List.getElem?_eq_some_iff.mp hj
      omega
  simpa only [not_false_eq_true] using hplaced

theorem Entries.userKey_lt_of_lt_seek (es : Entries K V) {target : K}
    (hmem : e ∈ es.list) (hvisible : visible s e.1 = true)
    (hlt : e.1 < ⟨target, s, kValueTypeForSeek⟩) : e.1.userKey < target := by
  obtain huser | ⟨-, htag⟩ := InternalKey.lt_iff.mp hlt
  · exact huser
  · have hle := (es.visible_iff hmem).mp hvisible
    have hbound := es.toNat_type_le hmem
    have hseek : kValueTypeForSeek.toNat = 1 := rfl
    simp only [InternalKey.tag, packSequenceAndType, hseek] at htag
    omega

theorem seek_spec (it : DBIter K V) (target : K) :
    Shows es s Prod.fst (fun x => target ≤ x.1) (it.seek es.list s target) := by
  have hplaced : Shows es s Prod.fst (fun x => ¬ x.1 < target) (it.seek es.list s target) := by
    refine placed_spec (D := (· < target)) rfl ?_ ?_
    · intro i hi
      obtain ⟨hlt, hge, hbefore⟩ := findIdx?_eq_some_iff_getElem.mp hi
      refine ⟨fun _ _ => lt_of_le_of_lt, ?_, nofun, ?_⟩
      · rintro e ⟨j, hj, hget, hvisible⟩
        obtain ⟨hjlt, rfl⟩ := List.getElem?_eq_some_iff.mp hget
        have hless := hbefore j hj
        rw [decide_eq_true_eq, not_le] at hless
        exact es.userKey_lt_of_lt_seek (getElem_mem hjlt) hvisible hless
      · rintro - e ⟨j, hj, hget, -⟩
        have hge' := InternalKey.userKey_le_of_le (of_decide_eq_true hge)
        exact not_lt.mpr (hge'.trans (es.userKey_le (getElem?_eq_getElem hlt) hget hj))
    · intro hnone x hx
      obtain ⟨j, e, hj, hvisible, -, -, rfl⟩ := exists_newest hx
      have hmem := mem_of_getElem? hj
      have hless := findIdx?_eq_none_iff.mp hnone e hmem
      rw [decide_eq_false_iff_not, not_le] at hless
      exact es.userKey_lt_of_lt_seek hmem hvisible hless
  simpa only [not_lt] using hplaced

theorem seekToLast_spec (it : DBIter K V) :
    Shows es s backward (fun _ => True) (it.seekToLast es.list s) := by
  have hiter : seekToLast es.list = prev es.list.length := by
    rw [seekToLast]
    cases es.list.length with
    | zero => rfl
    | succ n => rfl
  have hview : Saves es s (fun _ => False) es.list.length { it with
      direction := .kReverse, savedValue := none, iter := seekToLast es.list }
      .kTypeDeletion := by
    intro x hx _
    obtain ⟨j, e, hj, hvisible, -, -, rfl⟩ := exists_newest hx
    obtain ⟨hlt, -⟩ := List.getElem?_eq_some_iff.mp hj
    exact ⟨e, ⟨j, hlt, hj, hvisible⟩, rfl⟩
  exact (findPrevUserEntry_spec rfl le_rfl hiter (fun _ _ h => h) hview).congr fun _ _ => by simp

theorem current_eq_some (hinv : it.Inv es s) (hx : it.current es.list = some x) : it.valid = true ∧
      ((it.direction = .kForward ∧ ∃ i e, it.iter = some i ∧ es.list[i]? = some e ∧
          e.1.userKey = x.1) ∨
        (it.direction = .kReverse ∧ it.savedKey = .user x.1 ∧ StandsBehind es s x.1 it)) := by
  rw [DBIter.current] at hx
  cases hvalid : it.valid with
  | false =>
    rw [if_pos hvalid] at hx
    cases hx
  | true =>
    rw [if_neg (by simp [hvalid])] at hx
    refine ⟨rfl, ?_⟩
    cases hdirection : it.direction with
    | kForward =>
      obtain ⟨i, e, hiter, hi, -, -⟩ := hinv.1 hdirection hvalid
      simp only [hdirection, if_true, hiter, current, bind_some, hi, map_some, some.injEq] at hx
      exact .inl ⟨rfl, i, e, hiter, hi, congrArg Prod.fst hx⟩
    | kReverse =>
      obtain ⟨k, v, hkey, hvalue, hbehind⟩ := hinv.2 hdirection hvalid
      rw [hdirection, if_neg (by decide), hkey, hvalue] at hx
      cases hx
      exact .inr ⟨rfl, hkey, hbehind⟩

theorem valid_of_current_eq_none (hinv : it.Inv es s)
    (hnone : it.current es.list = none) : it.valid = false := by
  by_contra hvalid
  rw [Bool.not_eq_false] at hvalid
  rw [DBIter.current, if_neg (by simp [hvalid])] at hnone
  cases hdirection : it.direction with
  | kForward =>
    obtain ⟨i, e, hiter, hi, -, -⟩ := hinv.1 hdirection hvalid
    simp [hdirection, hiter, current, hi] at hnone
  | kReverse =>
    obtain ⟨k, v, hkey, hvalue, -⟩ := hinv.2 hdirection hvalid
    simp [hdirection, hkey, hvalue] at hnone

theorem next_spec (hinv : it.Inv es s) (hx : it.current es.list = some x) :
    Shows es s Prod.fst (fun y => x.1 < y.1) (it.next es.list s) := by
  obtain ⟨hvalid, hcases⟩ := current_eq_some hinv hx
  have hiff : ∀ y ∈ view es.list s, ¬ y.1 ≤ x.1 ↔ x.1 < y.1 := fun _ _ => not_le
  rw [DBIter.next, if_neg (by simp [hvalid])]
  rcases hcases with ⟨hdirection, i, e, hiter, hi, hkey⟩ | ⟨hdirection, hkey, b, hb, hiter, hsplits⟩
  · have hcurrent : Cursor.current es.list it.iter = some e := by
      rw [hiter]
      exact hi
    rw [if_neg (by simp [hdirection]), hcurrent, bind_some]
    have hskips := skips_entry (s := s) it hi (.inl rfl)
    rw [hkey] at hskips ⊢
    exact (findNextUserEntry_spec hskips hiter hdirection).congr hiff
  · rw [if_pos hdirection]
    -- The inner iterator moves to entry number `b`, if there is one.
    have hplace : it.iter.elim (seekToFirst es.list) (next es.list) =
        if b < es.list.length then some b else none := by
      rw [hiter]
      cases b with
      | zero =>
        rw [seekToFirst]
        split_ifs <;> first | rfl | omega
      | succ b => rfl
    rw [hplace]
    split_ifs with hlt
    · have hskips : Skips es s (· ≤ x.1) b true
          { it with iter := some b, direction := .kForward } := by
        refine skips_upTo hkey ?_ hsplits.more
        rintro e' ⟨j, hj, hget, -⟩
        exact (hsplits.less j e' hj hget).le
      exact (findNextUserEntry_spec hskips rfl rfl).congr hiff
    · refine ⟨_, rfl, inv_of_not_valid rfl, isFirst_none fun y hy => ?_⟩
      obtain ⟨j, e, hj, -, -, -, rfl⟩ := exists_newest hy
      obtain ⟨hjlt, -⟩ := List.getElem?_eq_some_iff.mp hj
      exact lt_asymm (hsplits.less j e (by omega) hj)

/-- The loop of `Prev` goes back to the entries with smaller user keys. -/
theorem scanBack_spec (k : K) (hi : i ≤ es.list.length) :
    ∃ b, b ≤ i ∧ scanBack es.list k i = Cursor.prev b ∧
      (∀ j e, j < b → es.list[j]? = some e → e.1.userKey < k) ∧
      ∀ j e, b ≤ j → j < i → es.list[j]? = some e → k ≤ e.1.userKey := by
  induction i with
  | zero => exact ⟨0, le_rfl, rfl, by omega, by omega⟩
  | succ i ih =>
    have hlt : i < es.list.length := hi
    have hget := getElem?_eq_getElem hlt
    rw [scanBack, hget]
    dsimp only
    split_ifs with hless
    · refine ⟨i + 1, le_rfl, rfl, ?_, by omega⟩
      intro j e hj hget'
      exact (es.userKey_le hget' hget (by omega)).trans_lt hless
    · obtain ⟨b, hb, hscan, hbefore, hafter⟩ := ih hlt.le
      refine ⟨b, by omega, hscan, hbefore, ?_⟩
      intro j e hbj hj hget'
      obtain hji | rfl := Nat.lt_succ_iff_lt_or_eq.mp hj
      · exact hafter j e hbj hji hget'
      · rw [hget] at hget'
        cases hget'
        exact not_lt.mp hless

theorem prev_spec (hinv : it.Inv es s) (hx : it.current es.list = some x) :
    Shows es s backward (fun y => y.1 < x.1) (it.prev es.list s) := by
  obtain ⟨hvalid, hcases⟩ := current_eq_some hinv hx
  have hiff : ∀ y ∈ view es.list s, ¬ x.1 ≤ y.1 ↔ y.1 < x.1 := fun _ _ => not_le
  -- Both directions look at the first `b` entries, whose user keys are smaller.
  have hback : ∀ (it : DBIter K V) (b : Nat), it.direction = .kReverse → b ≤ es.list.length →
      it.iter = prev b → Splits es s x.1 b →
      Shows es s backward (fun y => y.1 < x.1) (findPrevUserEntry es.list s it) := by
    intro it b hdirection hb hiter hsplits
    have hU : ∀ e, VisibleBefore es s b e → ¬ x.1 ≤ e.1.userKey := by
      rintro e ⟨j, hj, hget, -⟩
      exact not_le.mpr (hsplits.less j e hj hget)
    have hview : Saves es s (x.1 ≤ ·) b it .kTypeDeletion := by
      intro y hy hU
      obtain ⟨j, e, hj, hvisible, -, -, rfl⟩ := exists_newest hy
      refine ⟨e, ⟨j, ?_, hj, hvisible⟩, rfl⟩
      by_contra hbj
      exact hU (hsplits.more e ⟨j, by omega, hj, hvisible⟩)
    exact (findPrevUserEntry_spec hdirection hb hiter hU hview).congr hiff
  rw [DBIter.prev, if_neg (by simp [hvalid])]
  rcases hcases with ⟨hdirection, i, e, hiter, hi, hkey⟩ | ⟨hdirection, hkey, b, hb, hiter, hsplits⟩
  · obtain ⟨hlt, -⟩ := List.getElem?_eq_some_iff.mp hi
    rw [if_pos hdirection, hiter, bind_some, hi, bind_some]
    obtain ⟨b, hb, hscan, hbefore, hafter⟩ := scanBack_spec e.1.userKey hlt.le
    rw [hkey] at hbefore hafter
    have hmore : ∀ e', VisibleFrom es s b e' → x.1 ≤ e'.1.userKey := by
      rintro e' ⟨j, hj, hget, -⟩
      obtain hji | hij := Nat.lt_or_ge j i
      · exact hafter j e' hj hji hget
      · exact hkey ▸ es.userKey_le hi hget hij
    rw [hscan]
    cases b with
    | zero =>
      refine ⟨_, rfl, inv_of_not_valid rfl, isFirst_none fun y hy => ?_⟩
      obtain ⟨j, e', hj, hvisible, -, -, rfl⟩ := exists_newest hy
      exact not_lt.mpr (hmore e' ⟨j, Nat.zero_le j, hj, hvisible⟩)
    | succ b => exact hback _ (b + 1) rfl (by omega) rfl ⟨hbefore, hmore⟩
  · rw [if_neg (by simp [hdirection])]
    exact hback it b hdirection hb hiter hsplits

/-- `DBIter` does in each call what a cursor over the map does. -/
theorem dbIter_behaves (es : Entries K V) (s : Nat) :
    Behaves Prod.fst (view es.list s) (DBIter.call es.list s) (DBIter.current es.list)
      (DBIter.Inv es s) where
  seekToFirst it _ := seekToFirst_spec it
  seekToLast it _ := seekToLast_spec it
  seek it target _ := seek_spec it target
  next _ _ hinv hx := next_spec hinv hx
  prev _ _ hinv hx := prev_spec hinv hx
  next_none _ hinv hnone := if_pos (valid_of_current_eq_none hinv hnone)
  prev_none _ hinv hnone := if_pos (valid_of_current_eq_none hinv hnone)

/-- **Every sequence of calls** of the iterator shows what a cursor over the map at the
snapshot shows; the calls that are not allowed are the same. -/
theorem dbIter_run
    (es : Entries K V)
    (s : Nat)
    (iter : Option Nat)
    (calls : List (Call K)) :
    ((view es.list s).Pairwise (fun a b => a.1 < b.1) ∧ ∀ k v, (k, v) ∈ view es.list s ↔
          ∃ e ∈ es.list, IsNewest es.list s e ∧ e.1.type = .kTypeValue ∧
            (e.1.userKey, e.2) = (k, v)) ∧
      (calls.foldlM (DBIter.call es.list s) (DBIter.new iter)).map (DBIter.current es.list) =
        (calls.foldlM (Cursor.call Prod.fst (view es.list s)) none).map
          (Cursor.current (view es.list s)) := by
  refine ⟨⟨es.view_sorted s, fun k v => mem_view⟩, ?_⟩
  exact ((dbIter_behaves es s).run (es.view_sorted s) (inv_of_not_valid rfl)
    (fun i hi => by cases hi) rfl calls).1

/-- An entry that is too new, one that is overwritten, and a key that was deleted. -/
def sampleEntries : Entries Nat Nat where
  list :=
    [(⟨1, 3, .kTypeValue⟩, 11), (⟨1, 1, .kTypeValue⟩, 10), (⟨2, 2, .kTypeDeletion⟩, 0),
      (⟨2, 1, .kTypeValue⟩, 20), (⟨3, 1, .kTypeValue⟩, 30)]
  sorted := by decide
  distinct := by decide
  parses := by decide

example : view sampleEntries.list 2 = [(1, 10), (3, 30)] := by decide

theorem dbIter_run_sampleEntries :
    ([Call.seekToFirst, .next, .prev].foldlM (DBIter.call sampleEntries.list 2)
      (DBIter.new none)).map (DBIter.current sampleEntries.list) = some (some (1, 10)) :=
  (dbIter_run sampleEntries 2 none _).2.trans (by decide)

end HotTLBApps.PebblesDB
