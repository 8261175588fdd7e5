import Mathlib.Tactic

/-!
# Byte strings: little-endian numbers and positioned writes

Two facts about byte strings that every on-disk format of the development
rests on.

* `toLE k n` / `ofLE`: a number as its `k` low bytes, least significant first,
  and back.
* `overwrite`: a positioned write into a byte string.  Positions between the
  old end of the string and the write read as the fill byte, as they do in a
  file that is written past its end.
-/

namespace HotTLBApps.Bytes

open List

universe u

/-- The `k` low bytes of `n`, least significant first. -/
def toLE : Nat → Nat → List UInt8
  | 0, _ => []
  | k + 1, n => UInt8.ofNat n :: toLE k (n / 256)

/-- The number whose bytes, least significant first, are given. -/
def ofLE : List UInt8 → Nat
  | [] => 0
  | b :: bs => b.toNat + 256 * ofLE bs

@[simp] theorem length_toLE (k n : Nat) : (toLE k n).length = k := by
  induction k generalizing n with
  | zero => rfl
  | succ k ih => simp [toLE, ih]

theorem ofLE_toLE (k n : Nat) : ofLE (toLE k n) = n % 256 ^ k := by
  induction k generalizing n with
  | zero => simp [toLE, ofLE, Nat.mod_one]
  | succ k ih =>
    have hb : (UInt8.ofNat n).toNat = n % 256 := by simp [UInt8.toNat_ofNat']
    rw [toLE, ofLE, ih, hb, Nat.pow_succ, Nat.mul_comm (256 ^ k) 256, Nat.mod_mul]

theorem ofLE_lt (bs : List UInt8) : ofLE bs < 256 ^ bs.length := by
  induction bs with
  | nil => simp [ofLE]
  | cons b bs ih =>
    have hb := b.toNat_lt
    rw [ofLE, length_cons, Nat.pow_succ]
    omega

variable {α : Type u}

/-- Write `data` at position `offset`; a gap before it is filled with `fill`. -/
def overwrite (fill : α) (contents : List α) (offset : Nat) (data : List α) : List α :=
  (contents ++ List.replicate (offset - contents.length) fill).take offset ++
    data ++ contents.drop (offset + data.length)

variable (fill : α)

/-- A write grows the string to the end of the write, and never shrinks it. -/
@[simp] theorem length_overwrite (contents : List α) (offset : Nat) (data : List α) :
    (overwrite fill contents offset data).length = max contents.length (offset + data.length) := by
  simp only [overwrite, length_append, length_take, length_replicate, length_drop]
  omega

variable {contents : List α} {offset : Nat}

/-- A write at or past the end appends the gap and the data. -/
theorem overwrite_of_length_le (data : List α) (h : contents.length ≤ offset) :
    overwrite fill contents offset data =
      contents ++ replicate (offset - contents.length) fill ++ data := by
  have htake :
      (contents ++ replicate (offset - contents.length) fill).take offset =
        contents ++ replicate (offset - contents.length) fill := by
    apply take_of_length_le
    simp only [length_append, length_replicate]
    omega
  have hdrop : contents.drop (offset + data.length) = [] := by
    apply drop_eq_nil_of_le
    omega
  rw [overwrite, htake, hdrop, append_nil]

/-- Two writes, the second one where the first one ended. -/
theorem overwrite_overwrite (contents : List α) (offset : Nat) (data data' : List α) :
    overwrite fill (overwrite fill contents offset data) (offset + data.length) data' =
      overwrite fill contents offset (data ++ data') := by
  have hpad :
      ((contents ++ replicate (offset - contents.length) fill).take offset).length = offset := by
    simp only [length_take, length_append, length_replicate]
    omega
  have hlen := length_overwrite fill contents offset data
  rw [overwrite, hlen]
  have hzero : offset + data.length - max contents.length (offset + data.length) = 0 := by omega
  rw [hzero, replicate_zero, append_nil, overwrite, overwrite,
    take_left' (by rw [length_append, hpad]), drop_append,
    length_append, hpad, drop_eq_nil_of_le (by rw [length_append, hpad]; omega),
    nil_append, drop_drop, length_append]
  simp only [append_assoc]
  congr 4
  omega

/-- A write that leaves a gap after the end of the string. -/
theorem overwrite_overwrite_gap (data data' : List α) (k : Nat)
    (h : contents.length ≤ offset) :
    overwrite fill (overwrite fill contents offset data) (offset + data.length + k) data' =
      overwrite fill contents offset (data ++ (replicate k fill ++ data')) := by
  have hlen := length_overwrite fill contents offset data
  rw [overwrite_of_length_le fill data' (by omega), hlen,
    overwrite_of_length_le fill data h, overwrite_of_length_le fill _ h]
  have hk : offset + data.length + k - max contents.length (offset + data.length) = k := by omega
  simp only [hk, append_assoc]

end HotTLBApps.Bytes
