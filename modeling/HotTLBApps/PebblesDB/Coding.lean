import HotTLBApps.Lib.Bytes
import HotTLBApps.Lib.Varint
import HotTLBApps.PebblesDB.DbFormat

/-!
# PebblesDB: encodings (`util/coding.cc`, `db/dbformat.cc`)

Variable length numbers, byte strings with their length in front, and internal
keys as bytes.  Every reader returns what it read together with the input that is
left; each one reads back what its writer wrote, whatever follows it.

How user keys are represented as bytes is left to a `KeyCodec`.
-/

namespace HotTLBApps.PebblesDB

universe u

def encodeVarint32 (v : Nat) : List UInt8 :=
  if v < 2 ^ 7 then
    [UInt8.ofNat v]
  else if v < 2 ^ 14 then
    [UInt8.ofNat (v ||| 128), UInt8.ofNat (v >>> 7)]
  else if v < 2 ^ 21 then
    [UInt8.ofNat (v ||| 128), UInt8.ofNat ((v >>> 7) ||| 128), UInt8.ofNat (v >>> 14)]
  else if v < 2 ^ 28 then
    [UInt8.ofNat (v ||| 128), UInt8.ofNat ((v >>> 7) ||| 128),
      UInt8.ofNat ((v >>> 14) ||| 128), UInt8.ofNat (v >>> 21)]
  else
    [UInt8.ofNat (v ||| 128), UInt8.ofNat ((v >>> 7) ||| 128),
      UInt8.ofNat ((v >>> 14) ||| 128), UInt8.ofNat ((v >>> 21) ||| 128),
      UInt8.ofNat (v >>> 28)]

/-- `PutVarint32`; the argument is a `uint32_t`. -/
def putVarint32 (v : Nat) : List UInt8 :=
  encodeVarint32 (v % 2 ^ 32)

/-- `PutVarint64`; the argument is a `uint64_t`. -/
def putVarint64 (v : Nat) : List UInt8 :=
  Varint.encode (v % 2 ^ 64)

def getVarint32 (input : List UInt8) : Option (Nat × List UInt8) :=
  Varint.decodeLoop 32 0 0 input

def getVarint64 (input : List UInt8) : Option (Nat × List UInt8) :=
  Varint.decodeLoop 64 0 0 input

theorem ofNat_or_128 (v : Nat) : UInt8.ofNat (v ||| 128) = UInt8.ofNat ((v &&& 127) ||| 128) := by
  apply UInt8.toNat_inj.mp
  rw [UInt8.toNat_ofNat', UInt8.toNat_ofNat', Varint.and_127]
  apply Nat.eq_of_testBit_eq
  intro i
  rw [Nat.testBit_mod_two_pow, Nat.testBit_mod_two_pow, Nat.testBit_or, Nat.testBit_or,
    show v % 128 = v % 2 ^ 7 by rfl, Nat.testBit_mod_two_pow,
    show (128 : Nat) = 2 ^ 7 by rfl, Nat.testBit_two_pow]
  by_cases h7 : 7 = i
  · simp [h7]
  · by_cases hlt : i < 8
    · simp [h7, show i < 7 by omega]
    · simp [hlt]

/-- The unrolled encoder writes the same bytes as the loop. -/
theorem encodeVarint32_eq {v : Nat} (h : v < 2 ^ 32) : encodeVarint32 v = Varint.encode v := by
  have hstop : ∀ w, w < 128 → Varint.encode w = [UInt8.ofNat w] := by
    intro w hw
    rw [Varint.encode, if_pos hw]
  have hmore : ∀ w, ¬ w < 128 →
      Varint.encode w = UInt8.ofNat (w ||| 128) :: Varint.encode (w >>> 7) := by
    intro w hw
    rw [Varint.encode, if_neg hw, ← ofNat_or_128]
  have hshift : ∀ i, v >>> i = v / 2 ^ i := Nat.shiftRight_eq_div_pow v
  unfold encodeVarint32
  split_ifs with h7 h14 h21 h28
  · rw [hstop v (by omega)]
  · rw [hmore v (by omega), hstop _ (by rw [hshift]; omega)]
  · rw [hmore v (by omega), hmore _ (by rw [hshift]; omega), ← Nat.shiftRight_add,
      hstop _ (by rw [hshift]; omega)]
  · rw [hmore v (by omega), hmore _ (by rw [hshift]; omega), ← Nat.shiftRight_add,
      hmore _ (by rw [hshift]; omega), ← Nat.shiftRight_add,
      hstop _ (by rw [hshift]; omega)]
  · rw [hmore v (by omega), hmore _ (by rw [hshift]; omega), ← Nat.shiftRight_add,
      hmore _ (by rw [hshift]; omega), ← Nat.shiftRight_add,
      hmore _ (by rw [hshift]; omega), ← Nat.shiftRight_add,
      hstop _ (by rw [hshift]; omega)]

@[simp]
theorem getVarint32_putVarint32 {v : Nat} (h : v < 2 ^ 32) (rest : List UInt8) :
    getVarint32 (putVarint32 v ++ rest) = some (v, rest) := by
  rw [getVarint32, putVarint32, Nat.mod_eq_of_lt h, encodeVarint32_eq h,
    Varint.decodeLoop_encode v 0 0 rest (by norm_num) (by norm_num) (by omega)]
  simp

@[simp]
theorem getVarint64_putVarint64 {v : Nat} (h : v < 2 ^ 64) (rest : List UInt8) :
    getVarint64 (putVarint64 v ++ rest) = some (v, rest) := by
  rw [getVarint64, putVarint64, Nat.mod_eq_of_lt h,
    Varint.decodeLoop_encode v 0 0 rest (by norm_num) (by norm_num) (by omega)]
  simp

def putLengthPrefixedSlice (value : List UInt8) : List UInt8 :=
  putVarint32 value.length ++ value

def getLengthPrefixedSlice (input : List UInt8) : Option (List UInt8 × List UInt8) :=
  match getVarint32 input with
  | some (len, rest) =>
      if len ≤ rest.length then some (rest.take len, rest.drop len) else none
  | none => none

@[simp]
theorem getLengthPrefixedSlice_put {value : List UInt8} (h : value.length < 2 ^ 32)
    (rest : List UInt8) :
    getLengthPrefixedSlice (putLengthPrefixedSlice value ++ rest) = some (value, rest) := by
  rw [getLengthPrefixedSlice, putLengthPrefixedSlice, List.append_assoc, getVarint32_putVarint32 h]
  simp

/-- The bytes of user keys; with the eight bytes that an internal key adds, the
length of a key is a `uint32_t`.  A vector can hold `maxSize` numbers. -/
structure KeyCodec (K : Type u) where
  encode : K → List UInt8
  decode : List UInt8 → K
  maxSize : Nat
  decode_encode : ∀ k, decode (encode k) = k
  length_encode_lt : ∀ k, (encode k).length + 8 < 2 ^ 32

/-- The value type of a byte; other bytes are not written. -/
def ValueType.ofByte : Nat → ValueType
  | 0 => .kTypeDeletion
  | 1 => .kTypeValue
  | _ => .kTypeGuard

theorem ValueType.ofByte_toNat (t : ValueType) : ValueType.ofByte t.toNat = t := by
  cases t <;> rfl

namespace InternalKey

variable {K : Type u}

/-- A key whose sequence number is at most `kMaxSequenceNumber`. -/
def Valid (k : InternalKey K) : Prop :=
  k.sequence ≤ kMaxSequenceNumber

/-- `InternalKey::Encode`, as `AppendInternalKey` writes it. -/
def encode (codec : KeyCodec K) (k : InternalKey K) : List UInt8 :=
  codec.encode k.userKey ++ Bytes.toLE 8 k.tag

/-- `InternalKey::DecodeFrom`, with the parts of the key taken apart. -/
def decodeFrom (codec : KeyCodec K) (s : List UInt8) : InternalKey K :=
  { userKey := codec.decode (s.take (s.length - 8))
    sequence := Bytes.ofLE (s.drop (s.length - 8)) / 256
    type := ValueType.ofByte (Bytes.ofLE (s.drop (s.length - 8)) % 256) }

theorem length_encode_lt (codec : KeyCodec K) (k : InternalKey K) :
    (k.encode codec).length < 2 ^ 32 := by
  have := codec.length_encode_lt k.userKey
  simpa [encode] using this

theorem decodeFrom_encode (codec : KeyCodec K) {k : InternalKey K} (h : k.Valid) :
    decodeFrom codec (k.encode codec) = k := by
  have hlen : (k.encode codec).length - 8 = (codec.encode k.userKey).length := by simp [encode]
  have htype : k.type.toNat < 256 := by cases k.type <;> decide
  have hseq : k.sequence ≤ 2 ^ 56 - 1 := h
  have htag : Bytes.ofLE (Bytes.toLE 8 k.tag) = k.sequence * 256 + k.type.toNat := by
    rw [Bytes.ofLE_toLE, tag, packSequenceAndType, Nat.mod_eq_of_lt (by omega)]
  unfold decodeFrom
  rw [hlen, encode, List.take_left, List.drop_left, codec.decode_encode, htag]
  ext
  · rfl
  · show (k.sequence * 256 + k.type.toNat) / 256 = k.sequence
    omega
  · show ValueType.ofByte ((k.sequence * 256 + k.type.toNat) % 256) = k.type
    rw [show (k.sequence * 256 + k.type.toNat) % 256 = k.type.toNat by omega,
      ValueType.ofByte_toNat]

end InternalKey

end HotTLBApps.PebblesDB
