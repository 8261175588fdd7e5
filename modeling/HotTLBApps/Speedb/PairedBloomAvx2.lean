import HotTLBApps.Speedb.PairedBloomBits

/-!
# The test of the Bloom bits with AVX2

The lanes of `AreAllBlockBloomBitsSetAvx2` carry the positions of eight probes, and the words
that `CheckBitsPositionsInBloomBlock` gathers for them have the bits at these positions.  So the
test finds whether the bits are set, as the portable one does.
-/

namespace HotTLBApps.Speedb
namespace PairedBloom
namespace Avx2

open BitBuffer List Option
open BitVec hiding and_assoc and_self

theorem blendv_apply {a b mask : M256i} {k : Fin 8} {c : Bool}
    (h : mask k = if c then allOnes 32 else 0) :
    blendv a b mask k = if c then b k else a k := by
  rw [blendv, h]
  cases c with
  | false =>
    rw [show spread (if false = true then allOnes 32 else 0) = 0#32 from rfl,
      not_zero, and_allOnes]
    simp
  | true =>
    rw [show spread (if true = true then allOnes 32 else 0) = allOnes 32 by decide,
      and_allOnes]
    simp

variable (x : BitVec 32)

theorem sshiftRight_sign :
    x.sshiftRight 31 = if x.msb then allOnes 32 else 0 := by
  ext i hi
  rw [getElem_sshiftRight]
  have hmsb : (if h : 31 + i < 32 then x[31 + i] else x.msb) = x.msb := by
    split_ifs with h
    · obtain rfl : i = 0 := by omega
      rw [msb_eq_getLsbD_last, getLsbD_eq_getElem (by decide)]
    · rfl
  rw [hmsb]
  cases x.msb with
  | false => simp
  | true => exact (getElem_allOnes _ hi).symm

theorem msb_eq_true_iff : x.msb = true ↔ x.toNat / 2 ^ 31 = 1 := by
  rw [msb_eq_decide, decide_eq_true_iff]
  omega

theorem not_and_eq_zero_iff (a b : BitVec 32) : ~~~a &&& b = 0 ↔ a.toNat &&& b.toNat = b.toNat := by
  rw [← toNat_and, toNat_inj]
  constructor
  · intro h
    have hsplit : (a &&& b) ||| (~~~a &&& b) = b := by
      rw [← and_or_distrib_right, or_not_self, allOnes_and]
    rw [h] at hsplit
    simpa using hsplit
  · intro h
    rw [← h, ← BitVec.and_assoc]
    simp

/-- The mask of a lane; a lane beyond the probes has none. -/
theorem bitMask_toNat {n : Nat} (hn : n < 2 ^ 31) (v : M256i) (k : Fin 8) : (bitMask n v k).toNat =
      (if k.val < n then 1 else 0) * 2 ^ ((v k).toNat * 2 ^ 4 % 2 ^ 32 / 2 ^ 27) := by
  have hlane : (![0, 1, 2, 3, 4, 5, 6, 7] : M256i) k = BitVec.ofNat 32 k := by
    revert k
    decide
  have hselected : (srli (sub ![0, 1, 2, 3, 4, 5, 6, 7] (set1 (BitVec.ofNat 32 n))) 31 k).toNat =
      if k.val < n then 1 else 0 := by
    simp only [srli, sub, set1, hlane, toNat_ushiftRight, toNat_sub,
      toNat_ofNat, Nat.shiftRight_eq_div_pow]
    split_ifs <;> omega
  have haddress : (srli (slli v 4) 27 k).toNat = (v k).toNat * 2 ^ 4 % 2 ^ 32 / 2 ^ 27 := by
    simp only [srli, slli, toNat_ushiftRight, toNat_shiftLeft,
      Nat.shiftRight_eq_div_pow, Nat.shiftLeft_eq]
  have hlt : 2 ^ ((v k).toNat * 2 ^ 4 % 2 ^ 32 / 2 ^ 27) < 2 ^ 32 :=
    Nat.pow_lt_pow_right (by decide) (by omega)
  rw [bitMask, sllv, toNat_shiftLeft, hselected, haddress, Nat.shiftLeft_eq,
    Nat.mod_eq_of_lt]
  split_ifs <;> omega

variable {data : List UInt8} {v lower upper : M256i} {k : Fin 8} {pos : Nat}

/-- The permuted halves, blended by the high bit, are the words of the lanes. -/
theorem valueVector_eq {address : Nat} (hlower : loadu data address = some lower)
    (hupper : loadu data (address + 32) = some upper) (hpos : pos < 512)
    (hv : (v k).toNat = pos * 2 ^ 23) : valueVector lower upper v k =
      BitVec.ofNat 32 (Bytes.ofLE ((data.drop (address + 4 * (pos / 32))).take 4)) := by
  simp only [loadu, ite_none_right_eq_some] at hlower hupper
  obtain ⟨-, ⟨⟩⟩ := hlower
  obtain ⟨-, ⟨⟩⟩ := hupper
  have hsign : srai v 31 k = if (v k).msb then allOnes 32 else 0 := sshiftRight_sign (v k)
  have hword : (Fin.ofNat 8 (srli v 28 k).toNat).val = pos / 32 % 8 := by
    rw [srli, toNat_ushiftRight, Nat.shiftRight_eq_div_pow, hv]
    change pos * 2 ^ 23 / 2 ^ 28 % 8 = _
    omega
  rw [valueVector, blendv_apply hsign]
  by_cases htop : 256 ≤ pos
  · rw [if_pos ((msb_eq_true_iff _).mpr (by omega))]
    refine congrArg (fun i => BitVec.ofNat 32 (Bytes.ofLE ((data.drop i).take 4))) ?_
    rw [hword]
    omega
  · rw [if_neg (mt (msb_eq_true_iff _).mp (by omega))]
    refine congrArg (fun i => BitVec.ofNat 32 (Bytes.ofLE ((data.drop i).take 4))) ?_
    rw [hword]
    omega

variable {g n : Nat}

/-- A lane tests the bit of its position; a lane beyond the probes tests nothing. -/
theorem lane_iff (hg : getBlockAddress g + 64 ≤ data.length) (hn : n < 2 ^ 31)
    (hlower : loadu data (getBlockAddress g) = some lower)
    (hupper : loadu data (getBlockAddress g + 32) = some upper) (hpos : pos < 512)
    (hv : (v k).toNat = pos * 2 ^ 23) :
    ~~~valueVector lower upper v k &&& bitMask n v k = 0 ↔ (k.val < n → PosAt data g pos) := by
  have hshift : pos * 2 ^ 23 * 2 ^ 4 % 2 ^ 32 / 2 ^ 27 = pos % 32 := by omega
  rw [not_and_eq_zero_iff, bitMask_toNat hn, hv, hshift, valueVector_eq hlower hupper hpos hv,
    toNat_ofNat, ← testBit_word hg hpos]
  generalize Bytes.ofLE _ = value
  have hbit : (value % 2 ^ 32).testBit (pos % 32) = value.testBit (pos % 32) := by
    rw [Nat.testBit_mod_two_pow, decide_eq_true (Nat.mod_lt _ (by decide)), Bool.true_and]
  by_cases hk : k.val < n
  · have hmask := Nat.two_pow_pos (pos % 32)
    simp only [hk, if_true, Nat.one_mul, Nat.and_two_pow, hbit, true_imp_iff]
    cases value.testBit (pos % 32) <;> simp [hmask.ne]
  · simp [hk]

theorem blendv_testz {a b mask : M256i} {k : Fin 8} {c : Bool}
    (h : mask k = if c then allOnes 32 else 0) :
    (if testz mask mask = false then blendv a b mask else a) k = if c then b k else a k := by
  by_cases htest : testz mask mask = false
  · rw [if_pos htest, blendv_apply h]
  · have hzero := of_decide_eq_true (Bool.eq_true_of_not_eq_false htest) k
    rw [BitVec.and_self, h] at hzero
    rw [if_neg htest]
    cases c with
    | false => rfl
    | true => exact absurd hzero (by decide)

/-- The signed comparison of positions is that of numbers. -/
theorem cmpgt_apply {v : M256i} {k : Fin 8} (h : (v k).toNat < 512) :
    cmpgt (set1 (BitVec.ofNat 32 kInBatchIdxNumBits)) v k =
      if decide (kInBatchIdxNumBits > (v k).toNat) then allOnes 32 else 0 := by
  have hlt : ((v k).slt (BitVec.ofNat 32 kInBatchIdxNumBits)) =
      decide (kInBatchIdxNumBits > (v k).toNat) := by
    rw [slt_eq_decide, toInt_eq_toNat_of_lt (by omega),
      toInt_eq_toNat_of_lt (by decide)]
    simp [kInBatchIdxNumBits]
  rw [cmpgt, set1, hlt]

theorem fastRange_toNat :
    ((x >>> kBlockSizeNumBits * BitVec.ofNat 32 kNumBitsInBlockBloom) >>>
        kNumBlockSizeBitsShiftBits + BitVec.ofNat 32 kInBatchIdxNumBits).toNat =
      kInBatchIdxNumBits + x.toNat / 2 ^ kBlockSizeNumBits * kNumBitsInBlockBloom % 2 ^ 32 /
        2 ^ kNumBlockSizeBitsShiftBits := by
  simp only [kInBatchIdxNumBits, kBlockSizeNumBits, kNumBitsInBlockBloom,
    kNumBlockSizeBitsShiftBits, toNat_add, toNat_ushiftRight, toNat_mul,
    toNat_ofNat, Nat.shiftRight_eq_div_pow, Nat.reducePow, Nat.reduceMod]
  omega

/-- **The lanes carry the positions of the probes**, in their nine high bits. -/
theorem hashVector_toNat (hash : BitVec 32) (setIdx : Nat) (k : Fin 8) :
    (hashVector hash setIdx k).toNat =
      getBitPosInBlockForHash (probe hash.toNat k) setIdx * 2 ^ 23 := by
  have hmul : (hash * multipliers k).toNat = probe hash.toNat k := by
    have hmultiplier : (multipliers k).toNat = 0x9e3779b9 ^ k.val % 2 ^ 32 := by
      revert k
      decide +kernel
    rw [toNat_mul, hmultiplier, probe, Nat.mul_mod_mod]
  have hbounds := getBitPosInBlockForHash_bounds (probe_lt hash.toNat k) setIdx
  have hmask : (probe hash.toNat k &&& 0x007FC000) ≤ 0x007FC000 := Nat.and_le_right
  have hpos : ((if setIdx = 0 then srli (mullo (set1 hash) multipliers) 23
      else srli (and (mullo (set1 hash) multipliers) (set1 0x007FC000#32)) 14) k).toNat =
        if setIdx = 0 then probe hash.toNat k / 2 ^ 23
        else (probe hash.toNat k &&& 0x007FC000) / 2 ^ 14 := by
    rw [← hmul]
    split_ifs <;>
      simp [srli, and, set1, mullo, toNat_ushiftRight, Nat.shiftRight_eq_div_pow]
  have horig : ((if setIdx = 0 then slli (mullo (set1 hash) multipliers) 9
      else mullo (set1 hash) multipliers) k).toNat =
        if setIdx = 0 then probe hash.toNat k * 2 ^ 9 % 2 ^ 32 else probe hash.toNat k := by
    rw [← hmul]
    split_ifs
    · rw [← Nat.shiftLeft_eq, ← toNat_shiftLeft]
      rfl
    · rfl
  have hlane : (hashVector hash setIdx k).toNat =
      getBitPosInBlockForHash (probe hash.toNat k) setIdx * 2 ^ 23 % 2 ^ 32 := by
    unfold hashVector
    rw [slli, blendv_testz (cmpgt_apply ?_), toNat_shiftLeft, Nat.shiftLeft_eq,
      apply_ite BitVec.toNat, hpos]
    · refine congrArg (· * 2 ^ 23 % 2 ^ 32) ?_
      refine (if_congr (by rw [decide_eq_true_iff]) (fastRange_toNat _) rfl).trans ?_
      rw [horig, getBitPosInBlockForHash, fastRangeBitPos, fastRangeBitPos,
        Nat.mul_comm kNumBitsInBlockBloom, Nat.mul_comm kNumBitsInBlockBloom]
      have hbits : kInBatchIdxNumBits = 5 := rfl
      by_cases hset : setIdx = 0
      · simp only [hset, if_true]
        by_cases hlarge : probe hash.toNat k / 2 ^ 23 > kInBatchIdxNumBits - 1
        · rw [if_pos hlarge, if_neg (by omega)]
        · rw [if_neg hlarge, if_pos (by omega)]
      · simp only [hset, if_false]
        by_cases hlarge : (probe hash.toNat k &&& 0x007FC000) / 2 ^ 14 > kInBatchIdxNumBits - 1
        · rw [if_pos hlarge, if_neg (by omega)]
        · rw [if_neg hlarge, if_pos (by omega)]
    · rw [hpos]
      split_ifs <;> omega
  rw [hlane, Nat.mod_eq_of_lt (by omega)]

/-- **The vectors test the next eight probes.** -/
theorem checkBitsPositionsInBloomBlock_spec (hg : getBlockAddress g + 64 ≤ data.length)
    (setIdx : Nat) (hash : BitVec 32) (hn : n < 2 ^ 31) :
    ∃ b, checkBitsPositionsInBloomBlock n (hashVector hash setIdx) data (getBlockAddress g) =
      some (if n ≤ 8 then (true, b) else if ¬ b = true then (true, false) else (false, false)) ∧
      (b = true ↔ Probed data g setIdx (min 8 n) hash.toNat) := by
  obtain ⟨lower, hlower⟩ : ∃ lower, loadu data (getBlockAddress g) = some lower :=
    ⟨_, if_pos (by omega)⟩
  obtain ⟨upper, hupper⟩ : ∃ upper, loadu data (getBlockAddress g + 32) = some upper :=
    ⟨_, if_pos (by omega)⟩
  refine ⟨_, by rw [checkBitsPositionsInBloomBlock, hlower, hupper]; rfl, ?_⟩
  rw [testc, decide_eq_true_iff]
  simp only [lane_iff hg hn hlower hupper
    (getBitPosInBlockForHash_bounds (probe_lt hash.toNat _) setIdx).2 (hashVector_toNat hash setIdx _)]
  constructor
  · intro h i hi
    obtain ⟨hlane, hprobe⟩ := lt_min_iff.mp hi
    exact h ⟨i, hlane⟩ hprobe
  · intro h k hk
    exact h k (lt_min k.isLt hk)

/-- The test with AVX2 finds whether the bits are set. -/
theorem areAllBlockBloomBitsSetAvx2_spec (hg : getBlockAddress g + 64 ≤ data.length)
    (setIdx : Nat) {fuel : Nat} (hash : BitVec 32) (hn : n < 2 ^ 31) (hfuel : n < fuel) :
    ∃ b, areAllBlockBloomBitsSetAvx2 data g setIdx fuel hash n = some b ∧
      (b = true ↔ Probed data g setIdx n hash.toNat) := by
  induction fuel generalizing hash n with
  | zero => exact absurd hfuel (Nat.not_lt_zero _)
  | succ fuel ih =>
    obtain ⟨b, hcheck, hiff⟩ := checkBitsPositionsInBloomBlock_spec hg setIdx hash hn
    rw [areAllBlockBloomBitsSetAvx2, hcheck, bind_some]
    by_cases hlast : n ≤ 8
    · rw [min_eq_right hlast] at hiff
      exact ⟨b, by simp [hlast], hiff⟩
    · rw [min_eq_left (by omega)] at hiff
      rw [probed_jump (by omega), ← hiff]
      cases b with
      | false => exact ⟨false, by simp [hlast], by simp⟩
      | true =>
        obtain ⟨b, hrest, hb⟩ := ih (hash * 0xab25f4c1#32) (show n - 8 < 2 ^ 31 by omega) (by omega)
        rw [toNat_mul] at hb
        exact ⟨b, by simpa [hlast] using hrest, by simpa using hb⟩

/-- **The test with AVX2 gives the answer of the portable test**, for every block and every
hash. -/
theorem avx2_eq_nonAvx2
    {g : Nat}
    (hg : getBlockAddress g + 64 ≤ data.length)
    (setIdx : Nat)
    (hash : BitVec 32)
    {n : Nat}
    (hn : n ≤ 15) :
    ∃ answer, areAllBlockBloomBitsSetAvx2 data g setIdx (n + 1) hash n = some answer ∧
      areAllBlockBloomBitsSetNonAvx2 data g setIdx n hash.toNat = some answer := by
  obtain ⟨b, hb, hiff⟩ := areAllBlockBloomBitsSetAvx2_spec hg setIdx hash
    (show n < 2 ^ 31 by omega) (Nat.lt_succ_self n)
  obtain ⟨b', hb', hiff'⟩ := areAllBlockBloomBitsSetNonAvx2_spec hg hash.isLt
  obtain rfl : b = b' := Bool.eq_iff_iff.mpr (hiff.trans hiff'.symm)
  exact ⟨b, hb, hb'⟩

/-- A block with all bits set, with the hash 1: all fifteen probes are made. -/
theorem avx2_eq_nonAvx2_full :
    areAllBlockBloomBitsSetAvx2 (replicate 64 255) 0 1 16 1 15 = some true ∧
      areAllBlockBloomBitsSetNonAvx2 (replicate 64 255) 0 1 15 1 = some true := by
  have hportable : areAllBlockBloomBitsSetNonAvx2 (replicate 64 255) 0 1 15 1 = some true := by
    decide +kernel
  obtain ⟨answer, hanswer, hsame⟩ :=
    @avx2_eq_nonAvx2 (replicate 64 255) 0 (by decide) 1 1 15 (by decide)
  exact ⟨hanswer.trans (hsame.symm.trans hportable), hportable⟩

end Avx2

/-- **Both builds of the reader** find whether the bits are set. -/
theorem areAllBlockBloomBitsSet_spec (avx2 : Bool) {data : List UInt8} {g hash n : Nat}
    (hg : getBlockAddress g + 64 ≤ data.length) (hhash : hash < 2 ^ 32) (hn : n < 2 ^ 31)
    (setIdx : Nat) : ∃ b, areAllBlockBloomBitsSet avx2 data g hash setIdx n = some b ∧
      (b = true ↔ Probed data g setIdx n hash) := by
  cases avx2 with
  | false => exact areAllBlockBloomBitsSetNonAvx2_spec hg hhash
  | true =>
    have hspec := Avx2.areAllBlockBloomBitsSetAvx2_spec hg setIdx (BitVec.ofNat 32 hash)
      hn (Nat.lt_succ_self n)
    rwa [BitVec.toNat_ofNat, Nat.mod_eq_of_lt hhash] at hspec

theorem areAllBlockBloomBitsSet_of_probed (avx2 : Bool) {data : List UInt8} {g setIdx n hash : Nat}
    (hg : getBlockAddress g + 64 ≤ data.length) (hhash : hash < 2 ^ 32) (hn : n < 2 ^ 31)
    (h : Probed data g setIdx n hash) :
    areAllBlockBloomBitsSet avx2 data g hash setIdx n = some true := by
  obtain ⟨b, hb, hiff⟩ := areAllBlockBloomBitsSet_spec avx2 hg hhash hn setIdx
  exact hb.trans (congrArg some (hiff.mpr h))

end PairedBloom
end HotTLBApps.Speedb
