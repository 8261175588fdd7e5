import HotTLBApps.PebblesDB.Flush

/-!
# PebblesDB: looking a key up in a version (`Version::Get` of `db/version_set.cc`)

`Version::Get` goes through the levels and, in each level, through the files of the guard
that the user key leads to, the one with the largest number first.  It stops at the first
file that has an entry of the user key that is visible at the lookup sequence.
-/

namespace HotTLBApps.PebblesDB

open OrderedSet Intervals List

variable {K V : Type} [LinearOrder K]

/-- The states of a `Saver`; a lookup ends with the one of the last file. -/
inductive Saver (V : Type)
  | notFound
  | found (value : V)
  | deleted
  | corrupt
deriving DecidableEq, Repr

def saveValue (userKey : K) (e : Entry K V) : Saver V :=
  if e.key.type = .kTypeGuard then
    .corrupt
  else if e.userKey = userKey then
    if e.key.type = .kTypeValue then .found e.value else .deleted
  else
    .notFound

def lookupKey (userKey : K) (sequence : Nat) : InternalKey K :=
  { userKey := userKey
    sequence := sequence
    type := kValueTypeForSeek }

/-- `Table::InternalGet`: the first entry at or after the lookup key is saved. -/
def internalGet (entries : List (Entry K V)) (userKey : K) (sequence : Nat) : Saver V :=
  match entries.find? fun e => decide (lookupKey userKey sequence ≤ e.key) with
  | none => .notFound
  | some e => saveValue userKey e

/-- An entry of the user key that is visible at the lookup sequence. -/
def Entry.VisibleAt (e : Entry K V) (userKey : K) (sequence : Nat) : Prop :=
  e.userKey = userKey ∧ e.key.sequence ≤ sequence

/-- A table as a memtable or a compaction leaves it: sorted, and without guards. -/
structure SortedTable (entries : List (Entry K V)) : Prop where
  sorted : Nondecreasing Entry.key entries
  plain : ∀ e ∈ entries, e.key.type ≠ .kTypeGuard

variable {userKey : K} {sequence : Nat} {e : Entry K V}

theorem lookupKey_le_iff (hplain : e.key.type ≠ .kTypeGuard) (huser : e.userKey = userKey) :
    lookupKey userKey sequence ≤ e.key ↔ e.key.sequence ≤ sequence := by
  have htype : e.key.type.toNat ≤ 1 := by
    cases htype : e.key.type with
    | kTypeDeletion => decide
    | kTypeValue => decide
    | kTypeGuard => exact absurd htype hplain
  have hseek : kValueTypeForSeek.toNat = 1 := rfl
  have huser' : e.key.userKey = userKey := huser
  rw [← not_lt, InternalKey.lt_iff]
  simp only [lookupKey, huser', lt_irrefl, true_and, false_or, not_lt, InternalKey.tag,
    packSequenceAndType, hseek]
  omega

theorem sequence_le_of_key_le {e' : Entry K V} (huser : e.userKey = e'.userKey)
    (hle : e.key ≤ e'.key) : e'.key.sequence ≤ e.key.sequence := by
  have huser' : e.key.userKey = e'.key.userKey := huser
  have htype : ∀ t : ValueType, t.toNat < 256 := by
    intro t
    cases t <;> decide
  have h := htype e.key.type
  rw [← not_lt, InternalKey.lt_iff] at hle
  simp only [huser', lt_irrefl, true_and, false_or, not_lt, InternalKey.tag,
    packSequenceAndType] at hle
  omega

/-- **A lookup in a table** finds the newest visible entry, if there is one. -/
theorem internalGet_spec {entries : List (Entry K V)} (h : SortedTable entries) (userKey : K)
    (sequence : Nat) : (∃ e ∈ entries, e.VisibleAt userKey sequence ∧
        (∀ e' ∈ entries, e'.VisibleAt userKey sequence → e'.key.sequence ≤ e.key.sequence) ∧
        internalGet entries userKey sequence = saveValue userKey e) ∨
      (∀ e ∈ entries, ¬ e.VisibleAt userKey sequence) ∧
        internalGet entries userKey sequence = .notFound := by
  unfold internalGet
  cases hfind : entries.find? fun e => decide (lookupKey userKey sequence ≤ e.key) with
  | none =>
    refine .inr ⟨?_, rfl⟩
    rintro e he ⟨huser, hsequence⟩
    have hnot := find?_eq_none.mp hfind e he
    rw [decide_eq_true_eq, lookupKey_le_iff (h.plain e he) huser] at hnot
    exact hnot hsequence
  | some e =>
    have he : e ∈ entries := mem_of_find?_eq_some hfind
    have hle : lookupKey userKey sequence ≤ e.key := by simpa using find?_some hfind
    -- what comes before the first hit is before the lookup key
    have hfirst : ∀ e' ∈ entries, e'.VisibleAt userKey sequence → e.key ≤ e'.key := by
      rintro e' he' ⟨huser, hsequence⟩
      obtain ⟨_, before, after, hsplit, hbefore⟩ := find?_eq_some_iff_append.mp hfind
      rw [hsplit] at he'
      obtain hmem | hmem := mem_append.mp he'
      · have hnot := hbefore e' hmem
        rw [Bool.not_eq_true', decide_eq_false_iff_not,
          lookupKey_le_iff (h.plain e' (hsplit ▸ mem_append_left _ hmem)) huser] at hnot
        exact absurd hsequence hnot
      · obtain rfl | hmem := mem_cons.mp hmem
        · exact le_refl _
        · have hsorted := h.sorted
          rw [hsplit] at hsorted
          exact (pairwise_cons.mp (pairwise_append.mp hsorted).2.1).1 e' hmem
    by_cases huser : e.userKey = userKey
    · left
      refine ⟨e, he, ⟨huser, (lookupKey_le_iff (h.plain e he) huser).mp hle⟩, ?_, rfl⟩
      intro e' he' hvisible
      exact sequence_le_of_key_le (huser.trans hvisible.1.symm) (hfirst e' he' hvisible)
    · right
      constructor
      · intro e' he' hvisible
        have hlow : userKey ≤ e.userKey := InternalKey.userKey_le_of_le hle
        have hhigh : e.userKey ≤ e'.userKey :=
          InternalKey.userKey_le_of_le (hfirst e' he' hvisible)
        rw [hvisible.1] at hhigh
        exact huser (le_antisymm hhigh hlow)
      · change saveValue userKey e = _
        unfold saveValue
        rw [if_neg (h.plain e he), if_neg huser]

theorem internalGet_cons {entries : List (Entry K V)} : internalGet (e :: entries) userKey sequence =
    if lookupKey userKey sequence ≤ e.key then saveValue userKey e
    else internalGet entries userKey sequence := by
  by_cases hle : lookupKey userKey sequence ≤ e.key <;> simp [internalGet, hle]

theorem internalGet_eq_notFound {entries : List (Entry K V)} (sequence : Nat)
    (hplain : ∀ e ∈ entries, e.key.type ≠ .kTypeGuard) (hother : ∀ e ∈ entries, e.userKey ≠ userKey) :
    internalGet entries userKey sequence = .notFound := by
  induction entries with
  | nil => rfl
  | cons e entries ih =>
    obtain ⟨hguard, hplain⟩ := forall_mem_cons.mp hplain
    obtain ⟨huser, hother⟩ := forall_mem_cons.mp hother
    rw [internalGet_cons, saveValue, if_neg hguard, if_neg huser, ih hplain hother, ite_self]

/-- The filters of the files.  A filter that was made from the keys of a file lets all of
them pass, and a file without a filter lets every key pass. -/
structure FileFilters (tables : Tables K V) where
  keyMayMatch : Nat → K → Bool
  sound : ∀ number, ∀ e ∈ tables number, keyMayMatch number e.userKey = true

variable {tables : Tables K V} (filters : FileFilters tables)

def searchFiles (userKey : K) (sequence : Nat) : List (FileMetaData K) → Saver V
  | [] => .notFound
  | f :: files =>
      if filters.keyMayMatch f.number userKey then
        match internalGet (tables f.number) userKey sequence with
        | .notFound => searchFiles userKey sequence files
        | saver => saver
      else
        searchFiles userKey sequence files

/-- The files of a level in which the user key is searched, the newest one first. -/
def LevelVersion.searched (v : LevelVersion K) (userKey : K) : List (FileMetaData K) :=
  if v.files = [] then
    []
  else
    ((v.candidates userKey).filter fun f =>
      decide (f.smallest.userKey ≤ userKey) &&
        decide (userKey ≤ f.largest.userKey)).insertionSort fun f f' => f'.number ≤ f.number

def Version.get (v : Version K) (userKey : K) (sequence : Nat) : Saver V :=
  searchFiles filters userKey sequence
    ((List.finRange kNumLevels).flatMap fun l => (v l).searched userKey)

/-- Every entry of a user key in one file is newer than every one in another file. -/
def Newer (tables : Tables K V) (f f' : FileMetaData K) : Prop :=
  ∀ e ∈ tables f.number, ∀ e' ∈ tables f'.number, e.userKey = e'.userKey →
    e'.key.sequence < e.key.sequence

/-- The newest one of the visible entries in some files. -/
structure NewestIn
    (tables : Tables K V) (files : List (FileMetaData K)) (userKey : K) (sequence : Nat)
    (e : Entry K V) : Prop where
  mem : ∃ f ∈ files, e ∈ tables f.number
  visible : e.VisibleAt userKey sequence
  newest : ∀ f ∈ files, ∀ e' ∈ tables f.number, e'.VisibleAt userKey sequence →
    e'.key.sequence ≤ e.key.sequence

/-- **The search stops at the newest visible entry**, when earlier files are newer. -/
theorem searchFiles_spec {files : List (FileMetaData K)}
    (hsorted : ∀ f ∈ files, SortedTable (tables f.number)) (hnewer : files.Pairwise (Newer tables))
    (userKey : K) (sequence : Nat) : (∃ e, NewestIn tables files userKey sequence e ∧
        searchFiles filters userKey sequence files = saveValue userKey e) ∨
      (∀ f ∈ files, ∀ e ∈ tables f.number, ¬ e.VisibleAt userKey sequence) ∧
        searchFiles filters userKey sequence files = .notFound := by
  induction files with
  | nil => exact .inr ⟨by simp, rfl⟩
  | cons f files ih =>
    obtain ⟨hhead, htail⟩ := pairwise_cons.mp hnewer
    have hrest := ih (fun f' hf' => hsorted f' (mem_cons_of_mem _ hf')) htail
    -- a file in which nothing is visible is passed
    have hpass : (∀ e ∈ tables f.number, ¬ e.VisibleAt userKey sequence) →
        searchFiles filters userKey sequence (f :: files) =
          searchFiles filters userKey sequence files := by
      intro hnone
      have hget : internalGet (tables f.number) userKey sequence = .notFound := by
        obtain ⟨e, he, hvisible, _⟩ | ⟨_, hget⟩ :=
          internalGet_spec (hsorted f mem_cons_self) userKey sequence
        · exact absurd hvisible (hnone e he)
        · exact hget
      rw [searchFiles, hget]
      simp
    obtain ⟨e, he, hvisible, hnewest, hget⟩ | ⟨hnone, _⟩ :=
      internalGet_spec (hsorted f mem_cons_self) userKey sequence
    · refine .inl ⟨e, ⟨⟨f, mem_cons_self, he⟩, hvisible, ?_⟩, ?_⟩
      · intro f' hf' e' he' hvisible'
        obtain rfl | hf' := mem_cons.mp hf'
        · exact hnewest e' he' hvisible'
        · exact (hhead f' hf' e he e' he' (hvisible.1.trans hvisible'.1.symm)).le
      · have hmatch : filters.keyMayMatch f.number userKey = true := by
          have := filters.sound f.number e he
          rwa [hvisible.1] at this
        have hfound : saveValue userKey e ≠ .notFound := by
          unfold saveValue
          rw [if_neg ((hsorted f mem_cons_self).plain e he), if_pos hvisible.1]
          split_ifs <;> simp
        rw [searchFiles, if_pos hmatch, hget]
        cases hsaver : saveValue userKey e with
        | notFound => exact absurd hsaver hfound
        | found value => rfl
        | deleted => rfl
        | corrupt => rfl
    · rw [hpass hnone]
      obtain ⟨e, hbest, hsearch⟩ | ⟨hrest, hsearch⟩ := hrest
      · obtain ⟨⟨f', hf', he⟩, hvisible, hnewest⟩ := hbest
        refine .inl ⟨e, ⟨⟨f', mem_cons_of_mem _ hf', he⟩, hvisible, ?_⟩, hsearch⟩
        intro f'' hf'' e' he' hvisible'
        obtain rfl | hf'' := mem_cons.mp hf''
        · exact absurd hvisible' (hnone e' he')
        · exact hnewest f'' hf'' e' he' hvisible'
      · refine .inr ⟨?_, hsearch⟩
        intro f' hf'
        obtain rfl | hf' := mem_cons.mp hf'
        · exact hnone
        · exact hrest f' hf'

end HotTLBApps.PebblesDB
