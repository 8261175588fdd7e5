import HotTLBApps.Speedb.PairedBloom

/-!
# The bits of a block of the paired Bloom filter

The positions of the probes never fall on the index of the partner, so setting Bloom bits
only adds bits (`Grows`), and the portable test of the reader finds all probes of a key whose
bits were set.
-/

namespace HotTLBApps.Speedb
namespace PairedBloom

open BitBuffer List Option

section

variable {hash : Nat}

theorem fastRangeBitPos_bounds
    (h : hash < 2 ^ 32) : 5 ≤ fastRangeBitPos hash ∧ fastRangeBitPos hash < 512 := by
  unfold fastRangeBitPos kInBatchIdxNumBits kNumBitsInBlockBloom kBlockSizeNumBits
    kNumBlockSizeBitsShiftBits
  rw [Nat.mod_eq_of_lt (by omega)]
  omega

/-- **A probe never falls on the bits of the index.** -/
theorem getBitPosInBlockForHash_bounds (h : hash < 2 ^ 32) (setIdx : Nat) :
    5 ≤ getBitPosInBlockForHash hash setIdx ∧ getBitPosInBlockForHash hash setIdx < 512 := by
  have hmask : (hash &&& 0x007FC000) ≤ 0x007FC000 := Nat.and_le_right
  unfold getBitPosInBlockForHash kInBatchIdxNumBits
  split
  · split
    · omega
    · exact fastRangeBitPos_bounds (Nat.mod_lt _ (by decide))
  · split
    · omega
    · exact fastRangeBitPos_bounds h

def probe (hash i : Nat) : Nat :=
  hash * 0x9e3779b9 ^ i % 2 ^ 32

theorem probe_lt (hash i : Nat) : probe hash i < 2 ^ 32 :=
  Nat.mod_lt _ (by decide)

theorem probe_zero (h : hash < 2 ^ 32) : probe hash 0 = hash := by
  rw [probe, Nat.pow_zero, Nat.mul_one, Nat.mod_eq_of_lt h]

theorem probe_mul_pow (hash k i : Nat) :
    probe (hash * (0x9e3779b9 ^ k % 2 ^ 32) % 2 ^ 32) i = probe hash (k + i) := by
  rw [probe, probe, Nat.mul_mod_mod, Nat.mod_mul_mod, Nat.mul_assoc, ← Nat.pow_add]

theorem probe_nextHash (hash i : Nat) : probe (nextHash hash) i = probe hash (i + 1) := by
  have hjump := probe_mul_pow hash 1 i
  rwa [Nat.add_comm 1 i] at hjump

theorem nextHash_lt (hash : Nat) : nextHash hash < 2 ^ 32 :=
  Nat.mod_lt _ (by decide)

/-- The byte of a position of a block, and the bit in it. -/
def PosAt (data : List UInt8) (globalBlockIdx pos : Nat) : Prop :=
  BitAt data (getBlockAddress globalBlockIdx + pos / 8) (pos % 8)

/-- The bits of the probes of a hash are set in a block. -/
def Probed (data : List UInt8) (globalBlockIdx setIdx n hash : Nat) : Prop :=
  ∀ i < n, PosAt data globalBlockIdx (getBitPosInBlockForHash (probe hash i) setIdx)

/-- Bits are only added, and the indices of the partners stay. -/
structure Grows (data data' : List UInt8) : Prop where
  length_eq : data'.length = data.length
  bits : ∀ i b, BitAt data i b → BitAt data' i b
  pairs : ∀ g, getInBatchBlockIdxOfPair data' g = getInBatchBlockIdxOfPair data g

theorem Grows.refl (data : List UInt8) : Grows data data :=
  ⟨rfl, fun _ _ h => h, fun _ => rfl⟩

theorem Grows.trans {data₁ data₂ data₃ : List UInt8} (h₁ : Grows data₁ data₂)
    (h₂ : Grows data₂ data₃) : Grows data₁ data₃ :=
  ⟨h₂.length_eq.trans h₁.length_eq, fun i b h => h₂.bits i b (h₁.bits i b h),
    fun g => (h₂.pairs g).trans (h₁.pairs g)⟩

variable {g setIdx n hash : Nat}

theorem Probed.mono {data data' : List UInt8}
    (h : Probed data g setIdx n hash) (hgrows : Grows data data') : Probed data' g setIdx n hash :=
  fun i hi => hgrows.bits _ _ (h i hi)

theorem or_bit_and_mask (byte : UInt8) {b : Nat} (hlow : 5 ≤ b) (hb : b < 8) :
    (byte ||| UInt8.ofNat (1 <<< b)) &&& kInBatchIdxMask = byte &&& kInBatchIdxMask := by
  have hzero : 2 ^ b &&& kInBatchIdxMask.toNat = 0 := by interval_cases b <;> rfl
  rw [← UInt8.toNat_inj, UInt8.toNat_and, UInt8.toNat_or, UInt8.toNat_and, toNat_bit hb,
    Nat.and_or_distrib_right, hzero, Nat.or_zero]

theorem grows_modify (data : List UInt8) (g : Nat) {pos : Nat} (hlow : 5 ≤ pos) (hpos : pos < 512) :
    Grows data
      (data.modify (getBlockAddress g + pos / 8)
        fun byte => byte ||| UInt8.ofNat (1 <<< (pos % 8))) where
  length_eq := length_modify _ _ _
  bits := fun i b h => h.modify_or (Nat.mod_lt _ (by decide))
  pairs := by
    intro g'
    unfold getInBatchBlockIdxOfPair
    rw [getElem?_modify]
    cases hbyte : data[getBlockAddress g']? with
    | none => rfl
    | some byte =>
      by_cases haddr : getBlockAddress g + pos / 8 = getBlockAddress g'
      · -- only the first byte of a block has an index, and there the position is above it
        have hfirst : pos < 8 := by
          unfold getBlockAddress kBlockSizeInBytes at haddr
          omega
        rw [Nat.mod_eq_of_lt hfirst]
        simp only [haddr, if_true, Option.map_eq_map, Option.map_some,
          or_bit_and_mask byte hlow hfirst]
      · simp [haddr]

variable {data : List UInt8}

/-- **Setting the bits of a key in one block.** -/
theorem setBlockBloomBits_spec (hg : getBlockAddress g + 64 ≤ data.length)
    (setIdx n : Nat) (hhash : hash < 2 ^ 32) :
    ∃ data', setBlockBloomBits g setIdx n hash data = some data' ∧ Grows data data' ∧
      Probed data' g setIdx n hash := by
  induction n generalizing data hash with
  | zero => exact ⟨data, rfl, Grows.refl data, fun i hi => absurd hi (Nat.not_lt_zero i)⟩
  | succ n ih =>
    obtain ⟨hlow, hpos⟩ := getBitPosInBlockForHash_bounds hhash setIdx
    have hbyte : getBlockAddress g + getBitPosInBlockForHash hash setIdx / 8 < data.length := by
      omega
    have hstep := grows_modify data g hlow hpos
    have hset : PosAt _ g (getBitPosInBlockForHash hash setIdx) :=
      bitAt_modify_or hbyte (Nat.mod_lt _ (by decide))
    obtain ⟨data', hrest, hgrows, hprobed⟩ :=
      ih (by rw [hstep.length_eq]; exact hg) (nextHash_lt hash)
    refine ⟨data', ?_, hstep.trans hgrows, ?_⟩
    · rw [setBlockBloomBits, modify?_of_lt hbyte]
      exact hrest
    · intro i hi
      cases i with
      | zero =>
        rw [probe_zero hhash]
        exact hgrows.bits _ _ hset
      | succ i =>
        rw [← probe_nextHash]
        exact hprobed i (Nat.lt_of_succ_lt_succ hi)

/-- The portable test finds whether the bits are set. -/
theorem areAllBlockBloomBitsSetNonAvx2_spec (hg : getBlockAddress g + 64 ≤ data.length)
    (hhash : hash < 2 ^ 32) : ∃ b, areAllBlockBloomBitsSetNonAvx2 data g setIdx n hash = some b ∧
      (b = true ↔ Probed data g setIdx n hash) := by
  induction n generalizing hash with
  | zero => exact ⟨true, rfl, iff_of_true rfl nofun⟩
  | succ n ih =>
    obtain ⟨b, hrest, hiff⟩ := ih (nextHash_lt hash)
    have hpos := (getBitPosInBlockForHash_bounds hhash setIdx).2
    have hbyte := getElem?_eq_getElem (l := data)
      (show getBlockAddress g + getBitPosInBlockForHash hash setIdx / 8 < data.length by omega)
    have hbit := bitAt_iff (b := getBitPosInBlockForHash hash setIdx % 8) hbyte
    simp only [Probed, probe_nextHash] at hiff
    simp only [Probed, Nat.forall_lt_succ_left, probe_zero hhash]
    rw [areAllBlockBloomBitsSetNonAvx2, hbyte, PosAt, hbit, ← hiff]
    dsimp only [bind_some]
    split_ifs with hzero <;> rw [and_bit_eq_zero_iff (Nat.mod_lt _ (by decide))] at hzero
    · exact ⟨false, rfl, by simp [hzero]⟩
    · exact ⟨b, hrest, (and_iff_right (Bool.eq_true_of_not_eq_false hzero)).symm⟩

/-- The bits of the words of a block. -/
theorem testBit_word {pos : Nat} (hg : getBlockAddress g + 64 ≤ data.length) (hpos : pos < 512) :
    (Bytes.ofLE ((data.drop (getBlockAddress g + 4 * (pos / 32))).take 4)).testBit (pos % 32) =
      true ↔ PosAt data g pos := by
  have hbyte := getElem?_eq_getElem (l := data)
    (show getBlockAddress g + pos / 8 < data.length by omega)
  have hindex : getBlockAddress g + pos / 8 =
      getBlockAddress g + 4 * (pos / 32) + pos % 32 / 8 := by
    omega
  have hword : ((data.drop (getBlockAddress g + 4 * (pos / 32))).take 4)[pos % 32 / 8]? =
      some data[getBlockAddress g + pos / 8] := by
    rw [getElem?_take, if_pos (by omega), getElem?_drop, ← hindex, hbyte]
  rw [testBit_ofLE hword, Nat.mod_mod_of_dvd _ (by decide), PosAt, bitAt_iff hbyte]

/-- The probes of a hash are the first eight and those of the hash eight probes later. -/
theorem probed_jump (hn : 8 ≤ n) : Probed data g setIdx n hash ↔ Probed data g setIdx 8 hash ∧
      Probed data g setIdx (n - 8) (hash * 0xab25f4c1 % 2 ^ 32) := by
  have hjump : ∀ i, probe (hash * 0xab25f4c1 % 2 ^ 32) i = probe hash (8 + i) :=
    fun i => probe_mul_pow hash 8 i
  simp only [Probed, hjump]
  refine ⟨fun h => ⟨fun i hi => h i (by omega), fun i hi => h (8 + i) (by omega)⟩, ?_⟩
  intro h i hi
  obtain hlt | hge := Nat.lt_or_ge i 8
  · exact h.1 i hlt
  · have hlate := h.2 (i - 8) (by omega)
    rwa [Nat.add_sub_cancel' hge] at hlate

end

end PairedBloom
end HotTLBApps.Speedb
