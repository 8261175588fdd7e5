import Mathlib.Data.BitVec
import Mathlib.Data.Finite.Prod
import Mathlib.Tactic.Ring

/-!
# RocksDB: an invertible 128-bit hash (`util/hash.cc`)

`BijectiveHash2x64` mixes the two words of a unique id and `BijectiveUnhash2x64` takes the
steps back in reverse order: exclusive ors with a shift of more than half a word undo
themselves, odd factors have an inverse modulo a power of two, and what one word adds to the
other is taken off again, since that word is known by then.
-/

namespace HotTLBApps.RocksDB
namespace BijectiveHash

open BitVec

def multiply64to128 (a b : BitVec 64) : BitVec 128 :=
  a.setWidth 128 * b.setWidth 128

def lower64of128 (v : BitVec 128) : BitVec 64 :=
  v.setWidth 64

def upper64of128 (v : BitVec 128) : BitVec 64 :=
  (v >>> 64).setWidth 64

def endianSwapValue (v : BitVec 64) : BitVec 64 :=
  (List.range 8).foldl (fun ret i => ret ||| (((v >>> (8 * i)) &&& 0xff) <<< (8 * (7 - i)))) 0

def xxh3Avalanche (h64 : BitVec 64) : BitVec 64 :=
  let h64 := h64 ^^^ (h64 >>> 37)
  let h64 := h64 * 0x165667919E3779F9
  h64 ^^^ (h64 >>> 32)

def xxh3Unavalanche (h64 : BitVec 64) : BitVec 64 :=
  let h64 := h64 ^^^ (h64 >>> 32)
  let h64 := h64 * 0x8da8ee41d6df849
  h64 ^^^ (h64 >>> 37)

/-- `BijectiveHash2x64`; pairs of words have the high word first. -/
def bijectiveHash2x64 (seed : BitVec 64) (id : BitVec 64 × BitVec 64) : BitVec 64 × BitVec 64 :=
  let bitflipl := 0x59973f0033362349 - seed
  let bitfliph := 0xc202797692d63d58 + seed
  let tmp128 := multiply64to128 (id.2 ^^^ id.1 ^^^ bitflipl) 0x9E3779B185EBCA87
  let lo := lower64of128 tmp128 + 0x3c0000000000000
  let inHigh64 := id.1 ^^^ bitfliph
  let hi := upper64of128 tmp128 +
    (inHigh64 + (inHigh64.setWidth 32).setWidth 64 * 0x85EBCA76)
  let lo := lo ^^^ endianSwapValue hi
  let tmp128 := multiply64to128 lo 0xC2B2AE3D27D4EB4F
  let hi := upper64of128 tmp128 + hi * 0xC2B2AE3D27D4EB4F
  (xxh3Avalanche hi, xxh3Avalanche (lower64of128 tmp128))

def bijectiveUnhash2x64 (seed : BitVec 64) (hash : BitVec 64 × BitVec 64) : BitVec 64 × BitVec 64 :=
  let bitflipl := 0x59973f0033362349 - seed
  let bitfliph := 0xc202797692d63d58 + seed
  let lo := xxh3Unavalanche hash.2
  let hi := xxh3Unavalanche hash.1
  let lo := lo * 0xba79078168d4baf
  let hi := hi - upper64of128 (multiply64to128 lo 0xC2B2AE3D27D4EB4F)
  let hi := hi * 0xba79078168d4baf
  let lo := lo ^^^ endianSwapValue hi
  let lo := lo - 0x3c0000000000000
  let lo := lo * 0x887493432badb37
  let hi := hi - upper64of128 (multiply64to128 lo 0x9E3779B185EBCA87)
  let tmp32 := hi.setWidth 32 * 0xb6c92f47
  let hi := hi - tmp32.setWidth 64
  let hi := (hi &&& 0xFFFFFFFF00000000) -
    ((tmp32.setWidth 64 * 0x85EBCA76) &&& 0xFFFFFFFF00000000) + tmp32.setWidth 64
  let hi := hi ^^^ bitfliph
  (hi, lo ^^^ (hi ^^^ bitflipl))

theorem lower64of128_multiply64to128 (a b : BitVec 64) :
    lower64of128 (multiply64to128 a b) = a * b := by
  simp [lower64of128, multiply64to128, setWidth_mul]

variable (v : BitVec 64)

/-- An exclusive or with a shift of at least half a word undoes itself. -/
theorem xor_shift_twice {n : Nat} (hn : 32 ≤ n) :
    v ^^^ v >>> n ^^^ (v ^^^ v >>> n) >>> n = v := by
  have hout : v >>> n >>> n = 0#64 := by
    rw [← shiftRight_add]
    exact ushiftRight_eq_zero (by omega)
  rw [ushiftRight_xor_distrib, hout, xor_zero, xor_assoc, BitVec.xor_self, xor_zero]

theorem mul_mul_inverse {w : Nat} {c d : BitVec w} (hcd : c * d = 1) (v : BitVec w) :
    v * c * d = v := by
  rw [mul_assoc, hcd, mul_one]

theorem xxh3Unavalanche_xxh3Avalanche (h64 : BitVec 64) :
    xxh3Unavalanche (xxh3Avalanche h64) = h64 := by
  simp only [xxh3Unavalanche, xxh3Avalanche]
  rw [xor_shift_twice _ le_rfl, mul_mul_inverse (by decide), xor_shift_twice _ (by decide)]

/-- The lower half of a word. -/
def lower (v : BitVec 64) : BitVec 64 :=
  (v.setWidth 32).setWidth 64

theorem and_upper : v &&& 0xFFFFFFFF00000000 = v - lower v := by
  have hlower : lower v = v &&& 0xFFFFFFFF := by
    apply eq_of_toNat_eq
    rw [toNat_and, lower, toNat_setWidth, toNat_setWidth]
    exact (Nat.mod_eq_of_lt (by omega)).trans (Nat.and_two_pow_sub_one_eq_mod v.toNat 32).symm
  have hdisjoint : (v &&& ~~~0xFFFFFFFF) &&& (v &&& 0xFFFFFFFF) = 0#64 := by
    rw [BitVec.and_assoc, and_comm v 0xFFFFFFFF, ← BitVec.and_assoc (~~~0xFFFFFFFF)]
    simp
  have hsplit : (v &&& ~~~0xFFFFFFFF) + (v &&& 0xFFFFFFFF) = v := by
    rw [add_eq_or_of_and_eq_zero _ _ hdisjoint, ← and_or_distrib_left]
    exact and_allOnes
  rw [eq_sub_iff_add_eq, hlower]
  exact hsplit

theorem lower_upper_add (v w : BitVec 64) : lower (v - lower v + w) = lower w := by
  rw [← and_upper, lower, setWidth_add _ _ (by decide), setWidth_and]
  simp [lower]

/-- The lower half is found from the sum of a word with a multiple of its lower half. -/
theorem unmix_lower :
    (v + lower v * 0x85EBCA76).setWidth 32 * 0xb6c92f47 = v.setWidth 32 := by
  have hsum : (v + lower v * 0x85EBCA76).setWidth 32 = v.setWidth 32 * (1 + 0x85EBCA76) := by
    rw [setWidth_add _ _ (by decide), setWidth_mul _ _ (by decide), lower,
      setWidth_setWidth_of_le _ (by decide), setWidth_eq, mul_add, mul_one]
    rfl
  rw [hsum, mul_mul_inverse (by decide)]

theorem unmix_upper :
    ((v + lower v * 0x85EBCA76 - lower v) &&& 0xFFFFFFFF00000000) -
      ((lower v * 0x85EBCA76) &&& 0xFFFFFFFF00000000) + lower v = v := by
  rw [add_sub_right_comm, and_upper, and_upper, lower_upper_add]
  ring

/-- Unhashing takes the steps of the hash back. -/
theorem bijectiveUnhash2x64_bijectiveHash2x64 (seed : BitVec 64) :
    Function.LeftInverse (bijectiveUnhash2x64 seed) (bijectiveHash2x64 seed) := by
  rintro ⟨hi, lo⟩
  simp only [bijectiveUnhash2x64, bijectiveHash2x64, xxh3Unavalanche_xxh3Avalanche,
    lower64of128_multiply64to128]
  have hfactor₁ := @mul_mul_inverse 64 0xC2B2AE3D27D4EB4F 0xba79078168d4baf (by decide)
  have hfactor₂ := @mul_mul_inverse 64 0x9E3779B185EBCA87 0x887493432badb37 (by decide)
  have hlower := unmix_lower (hi ^^^ (0xc202797692d63d58 + seed))
  have hupper := unmix_upper (hi ^^^ (0xc202797692d63d58 + seed))
  unfold lower at hlower hupper
  simp only [hfactor₁, hfactor₂, add_sub_cancel_left, add_sub_cancel_right, BitVec.xor_assoc,
    BitVec.xor_self, BitVec.xor_zero, hlower, hupper]

/-- **The hash loses no information**: hashing and unhashing are inverse to each other. -/
theorem inverses
    (seed : BitVec 64)
    (id : BitVec 64 × BitVec 64) :
    bijectiveUnhash2x64 seed (bijectiveHash2x64 seed id) = id ∧
      bijectiveHash2x64 seed (bijectiveUnhash2x64 seed id) = id := by
  have hleft := bijectiveUnhash2x64_bijectiveHash2x64 seed
  have : Finite (BitVec 64) := Finite.of_injective _ toFin_injective
  have hsurjective := Finite.injective_iff_surjective.mp hleft.injective
  exact ⟨hleft id, hleft.rightInverse_of_surjective hsurjective id⟩

end BijectiveHash
end HotTLBApps.RocksDB
