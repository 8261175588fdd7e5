import Mathlib.Data.Nat.Bitwise
import Mathlib.Tactic

/-!
# Variable length numbers

A number is written as groups of seven bits, least significant first; the high
bit of a byte says that another one follows.  The reader collects the groups in a
register of `width` bits and gives up when the shift leaves the register.
-/

namespace HotTLBApps.Varint

/-- The bytes of a number. -/
def encode (v : Nat) : List UInt8 :=
  if v < 128 then
    [UInt8.ofNat v]
  else
    UInt8.ofNat ((v &&& 127) ||| 128) :: encode (v >>> 7)
termination_by v
decreasing_by
  rw [Nat.shiftRight_eq_div_pow]
  exact Nat.div_lt_self (by omega) (by norm_num)

/-- Reading a number into a register of `width` bits. -/
def decodeLoop (width : Nat) :
    Nat → Nat → List UInt8 → Option (Nat × List UInt8)
  | _, _, [] => none
  | shift, result, b :: bs =>
      if width ≤ shift then
        none
      else if b.toNat &&& 128 ≠ 0 then
        decodeLoop width (shift + 7)
          (result ||| ((b.toNat &&& 127) <<< shift) % 2 ^ width) bs
      else
        some (result ||| (b.toNat <<< shift) % 2 ^ width, bs)

theorem and_127 (v : Nat) : v &&& 127 = v % 128 :=
  Nat.and_two_pow_sub_one_eq_mod v 7

theorem or_128 {g : Nat} (h : g < 128) : g ||| 128 = g + 128 := by
  have := Nat.two_pow_add_eq_or_of_lt (i := 7) h 1
  rw [Nat.or_comm, Nat.add_comm]
  simpa using this.symm

theorem and_128_eq_zero_iff {b : Nat} (h : b < 256) : b &&& 128 = 0 ↔ b < 128 := by
  have hbit : b.testBit 7 = decide (128 ≤ b) := by
    rw [Nat.testBit_eq_decide_div_mod_eq]
    apply decide_eq_decide.mpr
    omega
  rw [show (128 : Nat) = 2 ^ 7 by norm_num, Nat.and_two_pow, hbit]
  by_cases hle : 128 ≤ b
  · simp [hle]
  · simp only [hle, decide_false, Bool.toNat_false, Nat.zero_mul, true_iff]
    omega

/-- A group is added above the bits that were read. -/
theorem or_shiftLeft {result shift group width : Nat} (hresult : result < 2 ^ shift)
    (hfits : result + group * 2 ^ shift < 2 ^ width) :
    result ||| (group <<< shift) % 2 ^ width = result + group * 2 ^ shift := by
  have hmod : (group <<< shift) % 2 ^ width = group <<< shift := by
    apply Nat.mod_eq_of_lt
    rw [Nat.shiftLeft_eq]
    omega
  rw [hmod, Nat.or_comm, ← Nat.shiftLeft_add_eq_or_of_lt hresult, Nat.shiftLeft_eq, Nat.add_comm]

/-- **A number that fits the register is read back.** -/
theorem decodeLoop_encode {width : Nat} (v shift result : Nat) (rest : List UInt8)
    (hshift : shift < width) (hresult : result < 2 ^ shift)
    (hfits : result + v * 2 ^ shift < 2 ^ width) :
    decodeLoop width shift result (encode v ++ rest) = some (result + v * 2 ^ shift, rest) := by
  induction v using Nat.strong_induction_on generalizing shift result with
  | _ v ih =>
    rw [encode]
    split_ifs with hv
    · have hbyte : (UInt8.ofNat v).toNat = v := by
        simp only [UInt8.toNat_ofNat']
        omega
      have hlast : ¬ v &&& 128 ≠ 0 :=
        not_not.mpr ((and_128_eq_zero_iff (by omega)).mpr hv)
      rw [List.singleton_append, decodeLoop, hbyte, if_neg (by omega), if_neg hlast,
        or_shiftLeft hresult hfits]
    · have hgroup : v % 128 < 128 := Nat.mod_lt v (by norm_num)
      have hbyte : (UInt8.ofNat ((v &&& 127) ||| 128)).toNat = v % 128 + 128 := by
        rw [and_127, or_128 hgroup]
        simp only [UInt8.toNat_ofNat']
        omega
      have hmore : (v % 128 + 128) &&& 128 ≠ 0 := by
        intro hzero
        have := (and_128_eq_zero_iff (by omega)).mp hzero
        omega
      have hsplit : v % 128 * 2 ^ shift + v / 128 * 2 ^ (shift + 7) = v * 2 ^ shift := by
        have hpow : 2 ^ (shift + 7) = 128 * 2 ^ shift := by
          rw [Nat.pow_add]
          ring
        have hdiv := Nat.mod_add_div v 128
        calc v % 128 * 2 ^ shift + v / 128 * 2 ^ (shift + 7)
            = (v % 128 + 128 * (v / 128)) * 2 ^ shift := by rw [hpow]; ring
          _ = v * 2 ^ shift := by rw [hdiv]
      have hlow : (v % 128 + 128) &&& 127 = v % 128 := by
        rw [and_127]
        omega
      have hstep : result + v % 128 * 2 ^ shift < 2 ^ (shift + 7) := by
        have hpow : 2 ^ (shift + 7) = 128 * 2 ^ shift := by
          rw [Nat.pow_add]
          ring
        have hle : v % 128 * 2 ^ shift ≤ 127 * 2 ^ shift :=
          Nat.mul_le_mul_right _ (by omega)
        omega
      have hnext : shift + 7 < width := by
        by_contra hge
        have hpow : 2 ^ width ≤ 2 ^ (shift + 7) := Nat.pow_le_pow_right (by norm_num) (by omega)
        have hone : 1 * 2 ^ (shift + 7) ≤ v / 128 * 2 ^ (shift + 7) :=
          Nat.mul_le_mul_right _ (by omega)
        omega
      have hshiftRight : v >>> 7 = v / 128 :=
        Nat.shiftRight_eq_div_pow v 7
      rw [List.cons_append, decodeLoop, hbyte, if_neg (by omega), if_pos hmore, hlow,
        or_shiftLeft hresult (by omega), hshiftRight,
        ih (v / 128) (by omega) (shift + 7) _ hnext hstep (by omega)]
      congr 2
      omega

theorem encode_ne_nil (v : Nat) : encode v ≠ [] := by
  rw [encode]
  split_ifs <;> simp

end HotTLBApps.Varint
