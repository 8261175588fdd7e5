import HotTLBApps.Lib.Bytes

/-!
# PebblesDB: checksums (`util/crc32c.h`)

The log format stores a masked crc32c with every physical record.  Only two
facts about the checksum matter to the log: it can be computed in pieces
(`extend` over a concatenation), and masking is undone by unmasking.

The checksum routine itself is a parameter of the log model, given by the
structure `Crc32c`; the field `extend_append` is the contract stated for
`Extend` in the header.  `crc32c` is the routine of the source, one bit at a
time over the reflected polynomial that its lookup tables are generated from.
-/

namespace HotTLBApps.PebblesDB

/-- A checksum routine with the contract of `crc32c::Extend`. -/
structure Crc32c where
  /-- `Extend(init_crc, data, n)`. -/
  extend : UInt32 → List UInt8 → UInt32
  /-- The checksum of a concatenation is the checksum of its parts in turn. -/
  extend_append :
    ∀ (crc : UInt32) (xs ys : List UInt8),
      extend (extend crc xs) ys = extend crc (xs ++ ys)

namespace Crc32c

/-- `Value(data, n)`. -/
def value (c : Crc32c) (data : List UInt8) : UInt32 :=
  c.extend 0 data

def kMaskDelta : UInt32 := 0xa282ead8

/-- `Mask`: rotate right by 15 bits and add a constant. -/
def mask (crc : UInt32) : UInt32 :=
  ((crc >>> 15) ||| (crc <<< 17)) + kMaskDelta

/-- `Unmask`: the inverse of `mask`. -/
def unmask (maskedCrc : UInt32) : UInt32 :=
  let rot := maskedCrc - kMaskDelta
  (rot >>> 17) ||| (rot <<< 15)

theorem rotate_rotate (b : BitVec 32) :
    (b >>> 15 ||| b <<< 17) >>> 17 ||| (b >>> 15 ||| b <<< 17) <<< 15 = b := by
  ext i hi
  simp only [BitVec.getElem_or, BitVec.getElem_ushiftRight,
    BitVec.getElem_shiftLeft, BitVec.getLsbD_or,
    BitVec.getLsbD_ushiftRight, BitVec.getLsbD_shiftLeft]
  have hout : 15 + (17 + i) ≥ 32 := by omega
  by_cases h : i < 15
  · have e : 17 + i - 17 = i := by
      omega
    have hlow : 17 + i < 32 := by omega
    simp [h, hi, e, BitVec.getLsbD_of_ge _ _ hout, hlow]
  · have e : 15 + (i - 15) = i := by
      omega
    have hlow : ¬ 17 + i < 32 := by omega
    have hhigh : i - 15 < 17 := by omega
    simp [h, hi, e, BitVec.getLsbD_of_ge _ _ hout, hlow, hhigh]

/-- Unmasking recovers the checksum that was masked. -/
@[simp] theorem unmask_mask (crc : UInt32) : unmask (mask crc) = crc := by
  have hrot :
      mask crc - kMaskDelta = (crc >>> 15) ||| (crc <<< 17) := by
    simp [mask]
  simp only [unmask, hrot]
  apply UInt32.toBitVec_inj.mp
  simpa using rotate_rotate crc.toBitVec

/-- Eight shift steps of the reflected polynomial. -/
def shiftByte : Nat → UInt32 → UInt32
  | 0, crc => crc
  | k + 1, crc =>
      shiftByte k
        (if crc &&& 1 = 1 then (crc >>> 1) ^^^ 0x82f63b78 else crc >>> 1)

/-- One byte of the running (complemented) checksum. -/
def extendByte (crc : UInt32) (b : UInt8) : UInt32 :=
  shiftByte 8 (crc ^^^ b.toUInt32)

end Crc32c

/-- The checksum routine of the source. -/
def crc32c : Crc32c where
  extend crc data := data.foldl Crc32c.extendByte (crc ^^^ 0xffffffff) ^^^ 0xffffffff
  extend_append crc xs ys := by
    rw [List.foldl_append, UInt32.xor_assoc, UInt32.xor_self, UInt32.xor_zero]

example : crc32c.value (List.replicate 32 0) = 0x8a9136aa := by decide +kernel

end HotTLBApps.PebblesDB
