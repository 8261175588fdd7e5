import HotTLBApps.Lib.Bytes
import Mathlib.Data.Nat.Bitwise

/-!
# Bits of a byte buffer

A buffer whose bytes are changed in place, seen as an array of bits.

* `modify?`: a byte is read, changed and written back; `none` is outside the buffer;
* `BitAt`: a bit is set;
* `modify?_or`: setting a bit keeps the others;
* `testBit_ofLE`: the bits of a little-endian word.
-/

namespace HotTLBApps.BitBuffer

/-- An element is read, changed and written back. -/
def modify? {α : Type*} (buffer : List α) (i : Nat) (f : α → α) : Option (List α) :=
  if i < buffer.length then some (buffer.modify i f) else none

/-- Bit `b` of byte `i` is set. -/
def BitAt (buffer : List UInt8) (i b : Nat) : Prop :=
  ∃ byte, buffer[i]? = some byte ∧ byte.toNat.testBit b = true

variable {i : Nat}

theorem modify?_of_lt {α : Type*} {buffer : List α} (hi : i < buffer.length)
    (f : α → α) : modify? buffer i f = some (buffer.modify i f) :=
  if_pos hi

variable {b : Nat}

theorem toNat_bit (hb : b < 8) : (UInt8.ofNat (1 <<< b)).toNat = 2 ^ b := by
  rw [UInt8.toNat_ofNat', Nat.one_shiftLeft, Nat.mod_eq_of_lt]
  exact Nat.pow_lt_pow_right (by decide) hb

theorem testBit_or_bit (byte : UInt8) (hb : b < 8) (c : Nat) :
    (byte ||| UInt8.ofNat (1 <<< b)).toNat.testBit c = (byte.toNat.testBit c || decide (b = c)) := by
  rw [UInt8.toNat_or, Nat.testBit_or, toNat_bit hb, Nat.testBit_two_pow]

variable {buffer : List UInt8}

theorem bitAt_modify_or (hi : i < buffer.length) (hb : b < 8) :
    BitAt (buffer.modify i fun byte => byte ||| UInt8.ofNat (1 <<< b)) i b := by
  refine ⟨buffer[i] ||| UInt8.ofNat (1 <<< b), ?_, ?_⟩
  · rw [List.getElem?_modify, List.getElem?_eq_getElem hi]
    simp
  · rw [testBit_or_bit _ hb]
    simp

theorem BitAt.modify_or {i b j c : Nat} (h : BitAt buffer j c) (hb : b < 8) :
    BitAt (buffer.modify i fun byte => byte ||| UInt8.ofNat (1 <<< b)) j c := by
  obtain ⟨byte, hbyte, hbit⟩ := h
  by_cases hij : i = j
  · refine ⟨byte ||| UInt8.ofNat (1 <<< b), ?_, ?_⟩
    · rw [List.getElem?_modify, hbyte]
      simp [hij]
    · rw [testBit_or_bit _ hb, hbit, Bool.true_or]
  · refine ⟨byte, ?_, hbit⟩
    rw [List.getElem?_modify, hbyte]
    simp [hij]

variable {byte : UInt8}

theorem bitAt_iff (h : buffer[i]? = some byte) :
    BitAt buffer i b ↔ byte.toNat.testBit b = true := by
  simp [BitAt, h]

theorem and_bit_eq_zero_iff (hb : b < 8) :
    byte &&& UInt8.ofNat (1 <<< b) = 0 ↔ byte.toNat.testBit b = false := by
  rw [← UInt8.toNat_inj, UInt8.toNat_and, toNat_bit hb, Nat.and_two_pow]
  cases byte.toNat.testBit b <;> simp

theorem testBit_ofLE {bytes : List UInt8} (h : bytes[i / 8]? = some byte) :
    (Bytes.ofLE bytes).testBit i = byte.toNat.testBit (i % 8) := by
  induction bytes generalizing i with
  | nil => simp at h
  | cons b bytes ih =>
    rw [Bytes.ofLE, Nat.add_comm, show (256 : Nat) = 2 ^ 8 from rfl,
      Nat.testBit_two_pow_mul_add _ b.toNat_lt]
    split_ifs with hi
    · rw [Nat.mod_eq_of_lt hi]
      rw [Nat.div_eq_of_lt hi, List.getElem?_cons_zero] at h
      rw [Option.some.inj h]
    · have hdiv : i / 8 = (i - 8) / 8 + 1 := by omega
      have hmod : i % 8 = (i - 8) % 8 := by omega
      rw [hdiv, List.getElem?_cons_succ] at h
      rw [hmod]
      exact ih h

end HotTLBApps.BitBuffer
