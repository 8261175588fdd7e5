import HotTLBApps.Lib.BitBuffer
import HotTLBApps.PebblesDB.VersionGet

/-!
# PebblesDB: the Bloom filters of the files (`util/bloom.cc`, `PopulateBloomFilterForFile`)

`BloomFilterPolicy` over any hash of the user keys; `none` is an access outside the filter.
The number of bits is exact, and `0.69` is the rational number.

`get_bloomFilters`: the filters made from the keys of the files change no lookup.
-/

namespace HotTLBApps.PebblesDB

open BitBuffer List Option

namespace BloomFilterPolicy

/-- The constructor's `k_`. -/
def k (bitsPerKey : Nat) : Nat :=
  min 30 (max 1 (bitsPerKey * 69 / 100))

def delta (h : UInt32) : UInt32 :=
  h >>> 17 ||| h <<< 15

/-- The probes of one key in `CreateFilter`. -/
def setBits (bits : Nat) (delta : UInt32) : Nat → UInt32 → List UInt8 → Option (List UInt8)
  | 0, _, array => some array
  | j + 1, h, array => do
      let bitpos := h.toNat % bits
      let array ← modify? array (bitpos / 8) fun byte => byte ||| UInt8.ofNat (1 <<< (bitpos % 8))
      setBits bits delta j (h + delta) array

def createFilter (bitsPerKey : Nat) (hashes : List UInt32) : Option (List UInt8) :=
  let bytes := (max (hashes.length * bitsPerKey) 64 + 7) / 8
  hashes.foldlM (fun array h => setBits (bytes * 8) (delta h) (k bitsPerKey) h array)
    (replicate bytes 0 ++ [UInt8.ofNat (k bitsPerKey)])

/-- The probes in `KeyMayMatch`. -/
def testBits (bits : Nat) (delta : UInt32) (array : List UInt8) : Nat → UInt32 → Option Bool
  | 0, _ => some true
  | j + 1, h => do
      let bitpos := h.toNat % bits
      let byte ← array[bitpos / 8]?
      if byte &&& UInt8.ofNat (1 <<< (bitpos % 8)) = 0 then
        some false
      else
        testBits bits delta array j (h + delta)

def keyMayMatch (h : UInt32) (filter : List UInt8) : Option Bool :=
  if filter.length < 2 then
    some false
  else do
    let k ← filter[filter.length - 1]?
    if 30 < k then
      some true
    else
      testBits ((filter.length - 1) * 8) (delta h) filter k.toNat h

variable {bits bytes j : Nat} {d h : UInt32} {array array' : List UInt8}

theorem testBits_succ : testBits bits d array (j + 1) h = some true ↔
    BitAt array (h.toNat % bits / 8) (h.toNat % bits % 8) ∧
      testBits bits d array j (h + d) = some true := by
  rw [testBits, bind_eq_bind]
  cases hbyte : array[h.toNat % bits / 8]? with
  | none => simp [BitAt, hbyte]
  | some byte =>
    simp only [bitAt_iff hbyte, bind_some, and_bit_eq_zero_iff (Nat.mod_lt _ (by decide))]
    cases byte.toNat.testBit (h.toNat % bits % 8) <;> simp

/-- Bits are set in a filter; its last byte is the number of probes. -/
structure Extends (bytes : Nat) (array array' : List UInt8) : Prop where
  length : array'.length = array.length
  last : array'[bytes]? = array[bytes]?
  bits : ∀ i b, BitAt array i b → BitAt array' i b

theorem Extends.testBits (hext : Extends bytes array array')
    (htest : testBits bits d array j h = some true) : testBits bits d array' j h = some true := by
  induction j generalizing h with
  | zero => rfl
  | succ j ih =>
    obtain ⟨hbit, hrest⟩ := testBits_succ.mp htest
    exact testBits_succ.mpr ⟨hext.bits _ _ hbit, ih hrest⟩

theorem Extends.trans {array'' : List UInt8} (h : Extends bytes array array')
    (h' : Extends bytes array' array'') : Extends bytes array array'' :=
  ⟨h'.length.trans h.length, h'.last.trans h.last, fun i b hb => h'.bits i b (h.bits i b hb)⟩

theorem byte_lt (hpos : 0 < bytes) (h : UInt32) : h.toNat % (bytes * 8) / 8 < bytes :=
  Nat.div_lt_of_lt_mul (Nat.mul_comm bytes 8 ▸ Nat.mod_lt _ (by omega))

theorem setBits_spec (hpos : 0 < bytes) (hlen : bytes ≤ array.length) :
    ∃ array', setBits (bytes * 8) d j h array = some array' ∧ Extends bytes array array' ∧
      testBits (bytes * 8) d array' j h = some true := by
  induction j generalizing h array with
  | zero => exact ⟨array, rfl, ⟨rfl, rfl, fun _ _ hb => hb⟩, rfl⟩
  | succ j ih =>
    have hbit : h.toNat % (bytes * 8) % 8 < 8 := Nat.mod_lt _ (by decide)
    have hbyte := byte_lt hpos h
    have hset := bitAt_modify_or (hbyte.trans_le hlen) hbit
    obtain ⟨array', hrun, hext, htest⟩ := @ih (h + d) (array.modify _ _) (by simpa using hlen)
    refine ⟨array', ?_, .trans ⟨by simp, ?_, fun _ _ hb => hb.modify_or hbit⟩ hext,
      testBits_succ.mpr ⟨hext.bits _ _ hset, htest⟩⟩
    · rw [setBits, modify?_of_lt (hbyte.trans_le hlen)]
      exact hrun
    · exact getElem?_modify_ne _ _ hbyte.ne

theorem foldlM_setBits_spec (hpos : 0 < bytes) (hashes : List UInt32) (array : List UInt8)
    (hlen : bytes ≤ array.length) :
    ∃ array', hashes.foldlM (fun array h => setBits (bytes * 8) (delta h) j h array) array =
        some array' ∧ Extends bytes array array' ∧
      ∀ h ∈ hashes, testBits (bytes * 8) (delta h) array' j h = some true := by
  induction hashes generalizing array with
  | nil => exact ⟨array, rfl, ⟨rfl, rfl, fun _ _ hb => hb⟩, nofun⟩
  | cons h hashes ih =>
    obtain ⟨first, hfirst, hext, htest⟩ := setBits_spec (d := delta h) (j := j) (h := h) hpos hlen
    obtain ⟨array', hrun, hext', hall⟩ := ih first (hlen.trans_eq hext.length.symm)
    refine ⟨array', ?_, hext.trans hext', forall_mem_cons.mpr ⟨hext'.testBits htest, hall⟩⟩
    rw [foldlM_cons, hfirst]
    exact hrun

theorem exists_testBits (hpos : 0 < bytes) (hlen : bytes ≤ array.length) (j : Nat) (h : UInt32) :
    ∃ answer, testBits (bytes * 8) d array j h = some answer := by
  induction j generalizing h with
  | zero => exact ⟨true, rfl⟩
  | succ j ih =>
    rw [testBits, getElem?_eq_getElem ((byte_lt hpos h).trans_le hlen), bind_eq_bind,
      bind_some]
    split_ifs
    · exact ⟨false, rfl⟩
    · exact ih (h + d)

/-- **No probe leaves the filter**, whatever bytes it has and whatever key is looked up. -/
theorem exists_keyMayMatch (h : UInt32) (filter : List UInt8) :
    ∃ answer, keyMayMatch h filter = some answer := by
  rw [keyMayMatch]
  split_ifs with hshort
  · exact ⟨false, rfl⟩
  · rw [getElem?_eq_getElem (by omega), bind_eq_bind, bind_some]
    split_ifs
    · exact ⟨true, rfl⟩
    · exact exists_testBits (by omega) (by omega) _ h

/-- **No false negatives**: the filter of some keys lets each of them pass. -/
theorem createFilter_spec (bitsPerKey : Nat) (hashes : List UInt32) :
    ∃ filter, createFilter bitsPerKey hashes = some filter ∧
      ∀ h ∈ hashes, keyMayMatch h filter = some true := by
  have hk : k bitsPerKey ≤ 30 := min_le_left _ _
  rw [createFilter]
  generalize hbytes : (max (hashes.length * bitsPerKey) 64 + 7) / 8 = bytes
  have hpos : 0 < bytes := by
    have := le_max_right (hashes.length * bitsPerKey) 64
    omega
  obtain ⟨filter, hrun, hext, hall⟩ := foldlM_setBits_spec (j := k bitsPerKey) hpos hashes
    (replicate bytes 0 ++ [UInt8.ofNat (k bitsPerKey)]) (by simp)
  have hlength : filter.length = bytes + 1 := by simpa using hext.length
  have hlast : filter[bytes]? = some (UInt8.ofNat (k bitsPerKey)) := by simpa using hext.last
  have hprobes : (UInt8.ofNat (k bitsPerKey)).toNat = k bitsPerKey := by
    rw [UInt8.toNat_ofNat', Nat.mod_eq_of_lt (by omega)]
  have hknown : ¬ 30 < UInt8.ofNat (k bitsPerKey) := by
    rw [UInt8.lt_iff_toNat_lt, hprobes]
    exact not_lt.mpr hk
  refine ⟨filter, hrun, fun h hh => ?_⟩
  rw [keyMayMatch, hlength, if_neg (by omega), Nat.add_sub_cancel, hlast, bind_eq_bind,
    bind_some, if_neg hknown, hprobes]
  exact hall h hh

end BloomFilterPolicy

open BloomFilterPolicy

variable {K V : Type}

/-- The filters of `PopulateBloomFilterForFile`; a file without keys gets none. -/
def bloomFilters (bitsPerKey : Nat) (bloomHash : K → UInt32) (tables : Tables K V) :
    FileFilters tables where
  keyMayMatch number userKey := (tables number).isEmpty ||
    (createFilter bitsPerKey ((tables number).map fun e => bloomHash e.userKey)).bind
      (keyMayMatch (bloomHash userKey)) = some true
  sound number e he := by
    obtain ⟨filter, hfilter, hall⟩ := createFilter_spec bitsPerKey
      ((tables number).map fun e => bloomHash e.userKey)
    simp [hfilter, hall _ (mem_map_of_mem he)]

variable [LinearOrder K] {tables : Tables K V} {userKey : K} {sequence : Nat}

/-- A file that its filter rules out has no entry of the user key. -/
theorem searchFiles_cons (hplain : ∀ number, ∀ e ∈ tables number, e.key.type ≠ .kTypeGuard)
    (filters : FileFilters tables) (f : FileMetaData K) (files : List (FileMetaData K)) :
    searchFiles filters userKey sequence (f :: files) =
      match internalGet (tables f.number) userKey sequence with
      | .notFound => searchFiles filters userKey sequence files
      | saver => saver := by
  rw [searchFiles]
  split_ifs with hmatch
  · rfl
  · rw [internalGet_eq_notFound sequence (hplain f.number) fun e he huser => hmatch ?_]
    exact huser ▸ filters.sound f.number e he

/-- **Bloom filters change no lookup**: the filters of all files are made, their probes stay inside
for every key and rule out no key of the file, and `Get` returns what it returns with any others. -/
theorem get_bloomFilters
    (hplain : ∀ number, ∀ e ∈ tables number, e.key.type ≠ .kTypeGuard)
    (v : Version K)
    (bitsPerKey : Nat)
    (bloomHash : K → UInt32)
    (filters : FileFilters tables) :
    (∀ number, ∃ filter,
      createFilter bitsPerKey ((tables number).map fun e => bloomHash e.userKey) = some filter ∧
      (∀ userKey, ∃ answer, keyMayMatch (bloomHash userKey) filter = some answer) ∧
      ∀ e ∈ tables number, keyMayMatch (bloomHash e.userKey) filter = some true) ∧
    v.get (bloomFilters bitsPerKey bloomHash tables) userKey sequence =
      v.get filters userKey sequence := by
  constructor
  · intro number
    obtain ⟨filter, hfilter, hall⟩ := createFilter_spec bitsPerKey
      ((tables number).map fun e => bloomHash e.userKey)
    exact ⟨filter, hfilter, fun _ => exists_keyMayMatch _ _, forall_mem_map.mp hall⟩
  · unfold Version.get
    induction (finRange kNumLevels).flatMap fun l => (v l).searched userKey with
    | nil => rfl
    | cons f files ih => rw [searchFiles_cons hplain, searchFiles_cons hplain, ih]

/-- A version with one file, and its table. -/
def oneFile : Version Nat := fun _ =>
  { LevelVersion.empty with
    files := [⟨1, 100, ⟨3, 5, .kTypeValue⟩, ⟨3, 5, .kTypeValue⟩⟩]
    sentinelFiles := [⟨1, 100, ⟨3, 5, .kTypeValue⟩, ⟨3, 5, .kTypeValue⟩⟩] }

theorem get_bloomFilters_oneFile : oneFile.get (bloomFilters 10 UInt32.ofNat
    (fun _ => [⟨⟨3, 5, .kTypeValue⟩, 30⟩])) 3 7 = .found 30 :=
  (get_bloomFilters (by simp) oneFile 10 UInt32.ofNat ⟨fun _ _ => true, fun _ _ _ => rfl⟩).2.trans
    (by decide)

end HotTLBApps.PebblesDB
