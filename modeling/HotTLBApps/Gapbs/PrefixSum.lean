import HotTLBApps.Lib.ArrayLoops
import Mathlib.Tactic

/-!
# GAPBS: the prefix sums of the builder (`src/builder.h`)

`ParallelPrefixSum` adds up every block of the degrees, takes the prefix sums of these sums, and
then goes through the blocks once more.  The turns of its two parallel loops may run in any order.
The offsets are of any type with a sum: integers, or words that wrap around.
-/

namespace HotTLBApps.Gapbs
namespace PrefixSum

open List Function

variable {S : Type*} [AddMonoid S]

/-- `PrefixSum`: the loop on `sums` and `total`. -/
def prefixSum (degrees : List S) : List S :=
  let s := degrees.foldl (fun (s : List S × S) degree => (s.1 ++ [s.2], s.2 + degree)) ([], 0)
  s.1 ++ [s.2]

/-- The degrees from `block * block_size` to `block_end`. -/
def degreesOf (blockSize : Nat) (degrees : List S) (block : Nat) : List S :=
  (degrees.drop (block * blockSize)).take blockSize

/-- One turn of the first loop of `ParallelPrefixSum`. -/
def sumBlock (blockSize : Nat) (degrees : List S) (sums : Nat → S) (block : Nat) : Nat → S :=
  update sums block ((degreesOf blockSize degrees block).foldl (· + ·) 0)

/-- One turn of the last loop, on `prefix` and `local_total`. -/
def fillBlock
    (blockSize : Nat) (degrees bulk : List S) (sums : Nat → S) (block : Nat) : Nat → S :=
  (((degreesOf blockSize degrees block).zipIdx (block * blockSize)).foldl
    (fun (s : (Nat → S) × S) e => (update s.1 e.2 s.2, s.2 + e.1)) (sums, bulk.getD block 0)).1

/-- `ParallelPrefixSum`: its parallel loops run through the blocks in the orders that are given,
on arrays with any contents.  The loop between them is that of `PrefixSum`. -/
def parallelPrefixSum (blockSize : Nat) (degrees : List S) (order order' : List Nat)
    (junk junk' : Nat → S) : List S :=
  let numBlocks := (degrees.length + blockSize - 1) / blockSize
  let localSums := order.foldl (sumBlock blockSize degrees) junk
  let bulk := prefixSum ((range numBlocks).map localSums)
  let sums := order'.foldl (fillBlock blockSize degrees bulk) junk'
  (range (degrees.length + 1)).map (update sums degrees.length (bulk.getD numBlocks 0))

theorem prefixSum_eq (degrees : List S) : prefixSum degrees =
      (range (degrees.length + 1)).map fun i => (degrees.take i).sum := by
  have hloop : degrees.foldl (fun (s : List S × S) degree => (s.1 ++ [s.2], s.2 + degree)) ([], 0) =
      ((range degrees.length).map fun i => (degrees.take i).sum, degrees.sum) := by
    induction degrees using reverseRecOn with
    | nil => rfl
    | append_singleton degrees degree ih =>
      rw [foldl_append, ih, length_append, length_singleton, range_succ, map_append]
      simp only [foldl_cons, foldl_nil, map_singleton, take_left', sum_append, sum_singleton]
      refine Prod.ext (congrArg₂ _ (map_congr_left fun i hi => ?_) rfl) rfl
      rw [take_append_of_le_length (Nat.le_of_lt (mem_range.mp hi))]
  simp only [prefixSum, hloop, range_succ, map_append, map_singleton, take_length]

variable (blockSize : Nat) (degrees : List S)

/-- In whatever order the first loop runs, each block has its sum afterwards. -/
theorem foldl_sumBlock {order : List Nat} {block : Nat} (h : block ∈ order) (junk : Nat → S) :
    order.foldl (sumBlock blockSize degrees) junk block =
      (degreesOf blockSize degrees block).sum := by
  rw [sum_eq_foldl]
  exact ArrayLoops.foldl_scatter id (fun b => (degreesOf blockSize degrees b).foldl (· + ·) 0) junk
    (fun _ _ heq => heq) h

theorem sum_blocks (k : Nat) :
    ((range k).map fun block => (degreesOf blockSize degrees block).sum).sum =
      (degrees.take (k * blockSize)).sum := by
  induction k with
  | zero => simp
  | succ k ih =>
    rw [range_succ, map_append, sum_append, ih, Nat.succ_mul, take_add, sum_append]
    simp [degreesOf]

theorem foldl_fill (ds rest : List S) (sums : Nat → S) (k i : Nat) (h : degrees.drop k = ds ++ rest) :
    ((ds.zipIdx k).foldl (fun (s : (Nat → S) × S) e => (update s.1 e.2 s.2, s.2 + e.1))
        (sums, (degrees.take k).sum)).1 i =
      if k ≤ i ∧ i < k + ds.length then (degrees.take i).sum else sums i := by
  induction ds generalizing k sums with
  | nil => rw [if_neg (by simp)]; rfl
  | cons d ds ih =>
    have htake : degrees.take (k + 1) = degrees.take k ++ [d] := by
      rw [take_add, h]
      rfl
    have hsum : (degrees.take k).sum + d = (degrees.take (k + 1)).sum := by
      rw [htake, sum_append, sum_singleton]
    rw [zipIdx_cons, foldl_cons, hsum, ih _ _ (by rw [← drop_drop, h]; rfl), length_cons]
    by_cases hik : i = k
    · subst hik
      rw [if_neg (by omega), if_pos (by omega), update_self]
    · rw [update_of_ne hik]
      refine if_congr ?_ rfl rfl
      omega

variable {blockSize degrees}

/-- In whatever order the last loop runs: a place gets its sum in the turn of its block, and every
turn that writes there writes it. -/
theorem foldl_fillBlock (hpos : 0 < blockSize) {bulk : List S} {blocks : List Nat}
    (hbulk : ∀ block ∈ blocks, bulk.getD block 0 = (degrees.take (block * blockSize)).sum)
    {i : Nat} (hi : i < degrees.length) (hmem : i / blockSize ∈ blocks) (junk : Nat → S) :
    blocks.foldl (fillBlock blockSize degrees bulk) junk i = (degrees.take i).sum := by
  induction blocks using reverseRecOn with
  | nil => cases hmem
  | append_singleton blocks block ih =>
    rw [foldl_append, foldl_cons, foldl_nil, fillBlock, hbulk block (by simp),
      foldl_fill degrees (degreesOf blockSize degrees block) _ _ _ _ (take_append_drop _ _).symm]
    split_ifs with hblock
    · rfl
    · refine ih (fun b hb => hbulk b (mem_append_left _ hb)) ?_
      refine (mem_append.mp hmem).resolve_right fun hlast => hblock ?_
      have hle := Nat.div_mul_le_self i blockSize
      have hlt := Nat.lt_div_mul_add hpos (a := i)
      rw [mem_singleton.mp hlast] at hle hlt
      rw [degreesOf, length_take, length_drop]
      omega

variable {order order' : List Nat}

/-- Every place holds the sum of the degrees before it. -/
theorem parallelPrefixSum_sums (hpos : 0 < blockSize)
    (horder : order.Perm (range ((degrees.length + blockSize - 1) / blockSize)))
    (horder' : order'.Perm (range ((degrees.length + blockSize - 1) / blockSize)))
    (junk junk' : Nat → S) :
    parallelPrefixSum blockSize degrees order order' junk junk' =
      (range (degrees.length + 1)).map fun i => (degrees.take i).sum := by
  have hlast := Nat.lt_div_mul_add hpos (a := degrees.length + blockSize - 1)
  have hcover : ∀ i < degrees.length, i / blockSize < (degrees.length + blockSize - 1) / blockSize := by
    intro i hi
    rw [Nat.div_lt_iff_lt_mul hpos]
    omega
  simp only [parallelPrefixSum]
  generalize (degrees.length + blockSize - 1) / blockSize = numBlocks at horder horder' hlast hcover ⊢
  have hbulk : ∀ block ≤ numBlocks, (prefixSum ((range numBlocks).map
      (order.foldl (sumBlock blockSize degrees) junk))).getD block 0 =
        (degrees.take (block * blockSize)).sum := by
    intro block hblock
    rw [prefixSum_eq, getD_eq_getElem?_getD, getElem?_map, getElem?_range (by simp; omega),
      Option.map_some, Option.getD_some, ← map_take, take_range, Nat.min_eq_left hblock,
      ← sum_blocks]
    refine congrArg sum (map_congr_left fun b hb => foldl_sumBlock blockSize degrees ?_ junk)
    rw [horder.mem_iff, mem_range]
    exact Nat.lt_of_lt_of_le (mem_range.mp hb) hblock
  refine map_congr_left fun i hi => ?_
  obtain hi | rfl := Nat.lt_succ_iff_lt_or_eq.mp (mem_range.mp hi)
  · rw [update_of_ne (Nat.ne_of_lt hi)]
    refine foldl_fillBlock hpos (fun block hblock => hbulk block ?_) hi ?_ junk'
    · exact Nat.le_of_lt (mem_range.mp (horder'.mem_iff.mp hblock))
    · exact horder'.mem_iff.mpr (mem_range.mpr (hcover i hi))
  · rw [update_self, hbulk numBlocks (Nat.le_refl _), take_length, take_of_length_le (by omega)]

/-- **`ParallelPrefixSum` is `PrefixSum`**, for every size of the blocks and in whatever orders
they run. -/
theorem parallelPrefixSum_eq_prefixSum
    (hpos : 0 < blockSize)
    (horder : order.Perm (range ((degrees.length + blockSize - 1) / blockSize)))
    (horder' : order'.Perm (range ((degrees.length + blockSize - 1) / blockSize)))
    (junk junk' : Nat → S) :
    parallelPrefixSum blockSize degrees order order' junk junk' = prefixSum degrees :=
  (parallelPrefixSum_sums hpos horder horder' junk junk').trans (prefixSum_eq degrees).symm

theorem parallelPrefixSum_eq_prefixSum_two : [1, 0].Perm (range ((3 + 2 - 1) / 2)) ∧
      parallelPrefixSum 2 [4, -1, 3] [1, 0] [0, 1] (fun _ => 7) (fun _ => 9) =
        prefixSum ([4, -1, 3] : List Int) :=
  ⟨by decide, parallelPrefixSum_eq_prefixSum (by decide) (by decide) (by decide) _ _⟩

end PrefixSum
end HotTLBApps.Gapbs
