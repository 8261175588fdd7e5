import HotTLBApps.Lib.Loops
import HotTLBApps.Speedb.PairedBloomAvx2

/-!
# No false negatives in the paired Bloom filter

The builder stores a partner for every block before it sets any Bloom bit, and the Bloom
bits leave it there; so the reader finds for every key the block and the partner that the
builder worked on.

`hashMayMatch_inside_iff`: the reader takes any string with a known trailer for a filter,
but stays inside only if the last batch does.
-/

namespace HotTLBApps.Speedb
namespace PairedBloom

open BitBuffer List Option

section

/-- The bytes for the keys are below 4 GiB, also when they are rounded up. -/
def SpaceFits (config : Config) (numEntries : Nat) : Prop :=
  numEntries * config.millibitsPerKey % 2 ^ 64 / kNumMillibitsInByte +
    (if config.isBottommost then 0 else kBatchSizeInBytes - 1) < 2 ^ 32

/-- The data are below the largest size. -/
abbrev Below (batches : Nat) : Prop :=
  batches * 2048 < kMaxSupportedSizeNoMetadata

variable (config : Config)

/-- The size of the data is a number of whole batches, down or up, or the largest size. -/
theorem calculateSpace_eq (numEntries : Nat) : ∃ batches, 0 < batches ∧
      calculateSpace config numEntries =
        min (batches * 2048) kMaxSupportedSizeNoMetadata + kMetadataLen ∧
      (Below batches ↔ SpaceFits config numEntries) := by
  unfold calculateSpace roundDownUsableSpace SpaceFits Below
    kMaxSupportedSizeNoMetadata kBatchSizeInBytes
  dsimp only
  rw [Nat.add_sub_cancel]
  generalize numEntries * config.millibitsPerKey % 2 ^ 64 / kNumMillibitsInByte = bytes
  cases config.isBottommost with
  | true =>
    simp only [if_true]
    refine ⟨max bytes 2048 / 2048, by omega, ?_, by omega⟩
    split <;> omega
  | false =>
    simp only [Bool.false_eq_true, if_false]
    refine ⟨(max bytes 2048 + 2048 - 1) / 2048, by omega, ?_, by omega⟩
    split <;> omega

variable {batches : Nat}

theorem hashToGlobalBlockIdx_lt (hpos : 0 < batches) (hash : UInt64) :
    hashToGlobalBlockIdx (lower32of64 hash) (batches * 2048) < batches * 32 := by
  have hrange : batches * 2048 / 2 ^ kNumBitsForBlockSize = batches * 32 := by
    unfold kNumBitsForBlockSize
    omega
  rw [hashToGlobalBlockIdx, hrange, fastRange32]
  refine Nat.div_lt_of_lt_mul ?_
  exact Nat.mul_lt_mul_of_pos_right (Nat.mod_lt _ (by decide)) (by omega)

theorem getBlockAddress_eq (hlen : Below batches) {g : Nat} (hg : g < batches * 32) :
    getBlockAddress g = g * 64 ∧ getBlockAddress g + 64 ≤ batches * 2048 := by
  unfold getBlockAddress kBlockSizeInBytes
  unfold Below kMaxSupportedSizeNoMetadata at hlen
  omega

theorem add_four_lt (hlen : Below batches) : batches * 2048 + 4 < 2 ^ 32 :=
  calc batches * 2048 + 4 < kMaxSupportedSizeNoMetadata + 4 := Nat.add_lt_add_right hlen 4
    _ < 2 ^ 32 := by decide

theorem upper32of64_lt (hash : UInt64) : upper32of64 hash < 2 ^ 32 := by
  have h := hash.toNat_lt
  unfold upper32of64
  omega

/-- The histogram has all batches, and every batch its blocks in their order. -/
def Histogram (batches : Nat) (histogram : List (List BlockHistogramInfo)) : Prop :=
  histogram.length = batches ∧
    ∀ batch ∈ histogram,
      batch.map BlockHistogramInfo.originalInBatchBlockIdx = List.range 32

/-- Every block of the table has a partner in its batch. -/
def Table (batches : Nat) (table : List (List PairingInfo)) : Prop :=
  table.length = batches ∧
    ∀ batchIdx < batches, ∀ idx < 32, ∃ pair < 32, pairOf table batchIdx idx = some pair

theorem histogram_init (batches : Nat) : Histogram batches (initBlockHistogram batches) := by
  refine ⟨List.length_replicate, ?_⟩
  intro batch hbatch
  rw [List.eq_of_mem_replicate hbatch, List.map_map]
  exact List.map_id _

variable {histogram : List (List BlockHistogramInfo)}

theorem countKey_spec (hpos : 0 < batches) (h : Histogram batches histogram) (hash : UInt64) :
    ∃ histogram', countKey (batches * 2048) histogram hash = some histogram' ∧
      Histogram batches histogram' := by
  have hblock := hashToGlobalBlockIdx_lt hpos hash
  generalize hg : hashToGlobalBlockIdx (lower32of64 hash) (batches * 2048) = g at hblock
  have hbatchIdx : getContainingBatchIdx g < histogram.length := by
    rw [h.1]
    unfold getContainingBatchIdx kPairedBloomBatchSizeInBlocks
    omega
  obtain ⟨batch, hbatch⟩ : ∃ batch, histogram[getContainingBatchIdx g]? = some batch :=
    ⟨_, getElem?_eq_getElem hbatchIdx⟩
  have horder := h.2 batch (mem_of_getElem? hbatch)
  have hidx : getInBatchBlockIdx g < batch.length := by
    have hlen : batch.length = 32 := by simpa using congrArg length horder
    rw [hlen]
    exact Nat.mod_lt _ (by decide)
  refine ⟨histogram.set (getContainingBatchIdx g) (batch.modify (getInBatchBlockIdx g)
      fun info => { info with numKeys := (info.numKeys + 1) % 2 ^ 16 }), ?_, ?_, ?_⟩
  · unfold countKey
    dsimp only
    rw [hg, hbatch, bind_some, modify?_of_lt hidx, bind_some, Slices.write?_of_lt hbatchIdx]
  · rw [length_set]
    exact h.1
  · intro batch' hmem
    obtain hmem | rfl := mem_or_eq_of_mem_set hmem
    · exact h.2 batch' hmem
    · rw [← horder]
      refine ext_getElem? fun i => ?_
      rw [getElem?_map, getElem?_map, getElem?_modify]
      cases batch[i]? with
      | none => rfl
      | some info => split <;> rfl

/-- One batch of the pairing table: the sort only changes the order of the blocks. -/
theorem pairBatchBlocks_spec {batch : List BlockHistogramInfo}
    (h : batch.map BlockHistogramInfo.originalInBatchBlockIdx = range 32) :
    ∃ pairing, pairBatchBlocks (sortBatchBlocks batch) = some pairing ∧ pairing.length = 32 ∧
      ∀ info ∈ pairing, info.pairInBatchBlockIdx < 32 := by
  have hperm : (sortBatchBlocks batch).Perm batch := mergeSort_perm _ _
  have hlen : (sortBatchBlocks batch).length = 32 :=
    hperm.length_eq.trans (by simpa using congrArg length h)
  have horig : ∀ info ∈ sortBatchBlocks batch, info.originalInBatchBlockIdx < 32 := by
    intro info hinfo
    have hmem := mem_map_of_mem (f := BlockHistogramInfo.originalInBatchBlockIdx)
      (hperm.mem_iff.mp hinfo)
    rw [h] at hmem
    exact mem_range.mp hmem
  refine Loops.foldlM_range_total
    (I := fun _ (pairing : List PairingInfo) =>
      pairing.length = 32 ∧ ∀ info ∈ pairing, info.pairInBatchBlockIdx < 32) ?_ ?_
  · rintro idx hidx pairing ⟨hlength, hpairs⟩
    have hfst : idx < (sortBatchBlocks batch).length := hlen.symm ▸ hidx
    obtain ⟨info, hinfo⟩ : ∃ info, (sortBatchBlocks batch)[idx]? = some info :=
      ⟨_, getElem?_eq_getElem hfst⟩
    obtain ⟨pair, hpair⟩ : ∃ pair,
        (sortBatchBlocks batch)[(sortBatchBlocks batch).length - idx - 1]? = some pair :=
      ⟨_, getElem?_eq_getElem (by omega)⟩
    have hwrite : info.originalInBatchBlockIdx < pairing.length := by
      rw [hlength]
      exact horig info (mem_of_getElem? hinfo)
    refine ⟨pairing.set info.originalInBatchBlockIdx
      { pairInBatchBlockIdx := pair.originalInBatchBlockIdx
        hashSetSelector :=
          getHashSetSelector info.originalInBatchBlockIdx pair.originalInBatchBlockIdx },
      ?_, ?_, ?_⟩
    · rw [hinfo, bind_some, hpair, bind_some, Slices.write?_of_lt hwrite]
    · rw [length_set, hlength]
    · intro info' hmem
      obtain hmem | rfl := mem_or_eq_of_mem_set hmem
      · exact hpairs info' hmem
      · exact horig pair (mem_of_getElem? hpair)
  · refine ⟨length_replicate, ?_⟩
    intro info hinfo
    rw [eq_of_mem_replicate hinfo]
    decide

theorem pairBlocks_spec (h : Histogram batches histogram) :
    ∃ table, pairBlocks histogram = some table ∧ Table batches table := by
  obtain ⟨table, htable, hlen, -, hrows⟩ := Loops.mapM_total fun batch hbatch =>
    pairBatchBlocks_spec (h.2 batch hbatch)
  refine ⟨table, htable, hlen.trans h.1, ?_⟩
  intro batchIdx hbatchIdx idx hidx
  have hrow : batchIdx < table.length := by rw [hlen, h.1]; exact hbatchIdx
  obtain ⟨hlength, hbound⟩ := hrows _ (getElem_mem hrow)
  have hcol : idx < table[batchIdx].length := by rw [hlength]; exact hidx
  refine ⟨_, hbound _ (getElem_mem hcol), ?_⟩
  rw [pairOf, getElem?_eq_getElem hrow, bind_some, getElem?_eq_getElem hcol, map_some]

theorem stored_and_mask (byte : UInt8) {pair : Nat} (hpair : pair < 32) :
    ((UInt8.ofNat pair ||| (byte &&& kFirstByteBitsMask)) &&& kInBatchIdxMask).toNat = pair := by
  have hhigh : kFirstByteBitsMask.toNat &&& kInBatchIdxMask.toNat = 0 := rfl
  have hlow : pair &&& kInBatchIdxMask.toNat = pair := by interval_cases pair <;> rfl
  rw [UInt8.toNat_and, UInt8.toNat_or, UInt8.toNat_and, UInt8.toNat_ofNat',
    Nat.mod_eq_of_lt (by omega), Nat.and_or_distrib_right, Nat.and_assoc, hhigh, Nat.and_zero,
    Nat.or_zero, hlow]

variable {data : List UInt8}

theorem setInBatchBlockIdxOfPair_spec {g pair : Nat} (hg : getBlockAddress g < data.length)
    (hpair : pair < 32) : ∃ data', setInBatchBlockIdxOfPair data g pair = some data' ∧
      data'.length = data.length ∧
      getInBatchBlockIdxOfPair data' g = some pair ∧
      ∀ g', getBlockAddress g' ≠ getBlockAddress g →
        getInBatchBlockIdxOfPair data' g' = getInBatchBlockIdxOfPair data g' := by
  refine ⟨_, modify?_of_lt hg _, List.length_modify _ _ _, ?_, ?_⟩
  · rw [getInBatchBlockIdxOfPair, List.getElem?_modify, List.getElem?_eq_getElem hg]
    simp only [Option.map_eq_map, Option.map_some, if_true, stored_and_mask _ hpair]
  · intro g' hne
    rw [getInBatchBlockIdxOfPair, getInBatchBlockIdxOfPair, List.getElem?_modify]
    simp only [hne.symm, if_false, Option.map_eq_map, Option.map_id']

/-- The blocks below `n` have the partners of the table. -/
def PairsBelow (table : List (List PairingInfo)) (size n : Nat) (data : List UInt8) : Prop :=
  data.length = size ∧
    ∀ g < n, getInBatchBlockIdxOfPair data g = pairOf table (g / 32) (g % 32)

variable {table : List (List PairingInfo)}

theorem setPair_step (hlen : Below batches)
    (htable : Table batches table) {batchIdx idx : Nat} (hbatchIdx : batchIdx < batches)
    (hidx : idx < 32) (h : PairsBelow table (batches * 2048) (batchIdx * 32 + idx) data) : ∃ data',
      ((pairOf table batchIdx idx).bind fun pair =>
        setInBatchBlockIdxOfPair data (batchIdx * kPairedBloomBatchSizeInBlocks + idx) pair) =
          some data' ∧
      PairsBelow table (batches * 2048) (batchIdx * 32 + (idx + 1)) data' := by
  obtain ⟨pair, hpair, hpairOf⟩ := htable.2 batchIdx hbatchIdx idx hidx
  have hg : batchIdx * 32 + idx < batches * 32 := by omega
  obtain ⟨haddr, hend⟩ := getBlockAddress_eq hlen hg
  have hbyte : getBlockAddress (batchIdx * 32 + idx) < data.length := by
    rw [h.1]
    omega
  obtain ⟨data', hset, hlength, hself, hother⟩ := setInBatchBlockIdxOfPair_spec hbyte hpair
  refine ⟨data', ?_, hlength.trans h.1, ?_⟩
  · rw [hpairOf]
    exact hset
  · intro g hlt
    by_cases hgeq : g = batchIdx * 32 + idx
    · have hdiv : (batchIdx * 32 + idx) / 32 = batchIdx := by omega
      have hmod : (batchIdx * 32 + idx) % 32 = idx := by omega
      rw [hgeq, hself, hdiv, hmod, hpairOf]
    · rw [hother g ?_, h.2 g (by omega)]
      rw [haddr, (getBlockAddress_eq hlen (show g < batches * 32 by omega)).1]
      omega

/-- **The index in every block is that of the pairing table.** -/
theorem setBlocksPairs_spec (hlen : Below batches)
    (htable : Table batches table) (hdata : data.length = batches * 2048) :
    ∃ data', setBlocksPairs table data = some data' ∧
      PairsBelow table (batches * 2048) (batches * 32) data' := by
  unfold setBlocksPairs
  rw [htable.1]
  refine Loops.foldlM_range_total
    (I := fun batchIdx data => PairsBelow table (batches * 2048) (batchIdx * 32) data) ?_ ?_
  · intro batchIdx hbatchIdx data hpairs
    obtain ⟨data', hinner, hdone⟩ := Loops.foldlM_range_total
      (I := fun idx data => PairsBelow table (batches * 2048) (batchIdx * 32 + idx) data)
      (f := fun data idx => (pairOf table batchIdx idx).bind fun pair =>
        setInBatchBlockIdxOfPair data (batchIdx * kPairedBloomBatchSizeInBlocks + idx) pair)
      (n := 32) (fun idx hidx data h => setPair_step hlen htable hbatchIdx hidx h) hpairs
    refine ⟨data', hinner, ?_⟩
    rwa [Nat.succ_mul]
  · exact ⟨hdata, fun g hg => absurd hg (by omega)⟩

/-- The bits of a slot are set in both of its blocks. -/
def Processed (hashSetSize : Nat) (data : List UInt8) (slot : Buffered) : Prop :=
  Probed data slot.primaryBlock slot.primaryHashSelector hashSetSize slot.upper32BitsOfHash ∧
    Probed data slot.secondaryBlock (1 - slot.primaryHashSelector) hashSetSize
      slot.upper32BitsOfHash

variable {hashSetSize : Nat} {slot : Buffered}

theorem Processed.mono {data data' : List UInt8} (h : Processed hashSetSize data slot)
    (hgrows : Grows data data') : Processed hashSetSize data' slot :=
  ⟨h.1.mono hgrows, h.2.mono hgrows⟩

/-- A slot that points into the data. -/
structure Buffered.Valid (size : Nat) (slot : Buffered) : Prop where
  primary : getBlockAddress slot.primaryBlock + 64 ≤ size
  secondary : getBlockAddress slot.secondaryBlock + 64 ≤ size
  hash : slot.upper32BitsOfHash < 2 ^ 32

theorem buffer_spec (hpos : 0 < batches) (hlen : Below batches) (htable : Table batches table)
    (hash : UInt64) :
    ∃ slot, buffer table (batches * 2048) hash = some slot ∧ slot.Valid (batches * 2048) := by
  have hg := hashToGlobalBlockIdx_lt hpos hash
  unfold buffer
  generalize hashToGlobalBlockIdx (lower32of64 hash) (batches * 2048) = g at hg ⊢
  dsimp only
  obtain ⟨pair, hpair, hpairOf⟩ := htable.2 (getContainingBatchIdx g)
    (by unfold getContainingBatchIdx kPairedBloomBatchSizeInBlocks; omega) (getInBatchBlockIdx g)
    (Nat.mod_lt _ (by decide))
  refine ⟨_, by rw [hpairOf, map_some], ?_, ?_, upper32of64_lt hash⟩
  · exact (getBlockAddress_eq hlen hg).2
  · refine (getBlockAddress_eq hlen ?_).2
    dsimp only
    unfold getFirstGlobalBlockIdxOfBatch getContainingBatchIdx kPairedBloomBatchSizeInBlocks
    omega

theorem process_spec (hashSetSize : Nat) (h : slot.Valid data.length) :
    ∃ data', process hashSetSize data slot = some data' ∧ Grows data data' ∧
      Processed hashSetSize data' slot := by
  obtain ⟨data₁, hfst, hgrows₁, hprobed₁⟩ :=
    setBlockBloomBits_spec h.primary slot.primaryHashSelector hashSetSize h.hash
  have hsecondary : getBlockAddress slot.secondaryBlock + 64 ≤ data₁.length := by
    rw [hgrows₁.length_eq]
    exact h.secondary
  obtain ⟨data₂, hsnd, hgrows₂, hprobed₂⟩ :=
    setBlockBloomBits_spec hsecondary (1 - slot.primaryHashSelector) hashSetSize h.hash
  refine ⟨data₂, ?_, hgrows₁.trans hgrows₂, hprobed₁.mono hgrows₂, hprobed₂⟩
  rw [process, hfst]
  exact hsnd

/-- A key is waiting in a slot or its bits are set. -/
def Covered (table : List (List PairingInfo)) (size hashSetSize : Nat) (slots : List Buffered)
    (data : List UInt8) (hash : UInt64) : Prop :=
  ∃ slot, buffer table size hash = some slot ∧
    (slot ∈ slots ∨ Processed hashSetSize data slot)

/-- What holds while keys are buffered: `rest` are the keys that were not yet read. -/
structure Buffering
    (table : List (List PairingInfo)) (size hashSetSize : Nat) (entries : List UInt64)
    (data₀ : List UInt8) (rest : List UInt64) (s : Nat × List Buffered × List UInt8) : Prop where
  full : rest ≠ [] → s.2.1.length = 8
  valid : ∀ slot ∈ s.2.1, slot.Valid size
  grows : Grows data₀ s.2.2
  covered : ∀ hash ∈ entries, hash ∈ rest ∨ Covered table size hashSetSize s.2.1 s.2.2 hash

/-- One turn of the middle loop: the slot that is given up is processed first. -/
theorem Buffering.step (hpos : 0 < batches) (hlen : Below batches)
    (htable : Table batches table) {entries : List UInt64} {data₀ : List UInt8}
    (hdata₀ : data₀.length = batches * 2048) {next : UInt64} {rest : List UInt64}
    {s : Nat × List Buffered × List UInt8}
    (h : Buffering table (batches * 2048) hashSetSize entries data₀ (next :: rest) s) :
    ∃ s', processAndBuffer table (batches * 2048) hashSetSize s next = some s' ∧
      Buffering table (batches * 2048) hashSetSize entries data₀ rest s' := by
  have hfull := h.full (cons_ne_nil next rest)
  have hplace : s.1 % 8 < s.2.1.length := by rw [hfull]; exact Nat.mod_lt _ (by decide)
  have hsize : s.2.2.length = batches * 2048 := h.grows.length_eq.trans hdata₀
  have hold := h.valid _ (getElem_mem hplace)
  obtain ⟨data, hprocess, hgrows, hprocessed⟩ :=
    process_spec hashSetSize (by rw [hsize]; exact hold)
  obtain ⟨slot, hbuffer, hslot⟩ := buffer_spec hpos hlen htable next
  refine ⟨(s.1 + 1, s.2.1.set (s.1 % 8) slot, data), ?_, ?_, ?_, h.grows.trans hgrows, ?_⟩
  · rw [processAndBuffer, getElem?_eq_getElem hplace, bind_some, hprocess,
      bind_some, hbuffer, bind_some, Slices.write?_of_lt hplace, map_some]
  · intro _
    rw [length_set, hfull]
  · intro slot' hmem
    obtain hmem | rfl := mem_or_eq_of_mem_set hmem
    · exact h.valid slot' hmem
    · exact hslot
  · intro hash hhash
    obtain hrest | ⟨slot', hbuffer', hcovered⟩ := h.covered hash hhash
    · obtain rfl | hrest := mem_cons.mp hrest
      · exact .inr ⟨slot, hbuffer, .inl (mem_set hplace slot)⟩
      · exact .inl hrest
    · refine .inr ⟨slot', hbuffer', ?_⟩
      obtain hmem | hdone := hcovered
      · -- the slot stays, or it is the one that was processed
        obtain ⟨k, hk, hget⟩ := getElem_of_mem hmem
        by_cases hsame : s.1 % 8 = k
        · subst hsame
          rw [← hget]
          exact .inr hprocessed
        · refine .inl ?_
          have hkept : (s.2.1.set (s.1 % 8) slot)[k]? = some slot' := by
            rw [getElem?_set_ne hsame, getElem?_eq_getElem hk, hget]
          exact mem_of_getElem? hkept
      · exact .inr (hdone.mono hgrows)

/-- The last loop: `rest` are the slots that are still to be processed. -/
theorem processAll_spec (hashSetSize : Nat) {size : Nat} (hdata : data.length = size)
    {slots : List Buffered} (hvalid : ∀ slot ∈ slots, slot.Valid size) :
    ∃ data', slots.foldlM (process hashSetSize) data = some data' ∧ Grows data data' ∧
      ∀ slot ∈ slots, Processed hashSetSize data' slot := by
  obtain ⟨data', hfold, hgrows, -, hdone⟩ := Loops.foldlM_total
    (I := fun rest data' => Grows data data' ∧ (∀ slot ∈ rest, slot.Valid size) ∧
      ∀ slot ∈ slots, slot ∈ rest ∨ Processed hashSetSize data' slot)
    (f := process hashSetSize) (by
      rintro slot rest data₁ ⟨hgrows, hrest, hdone⟩
      have hslot : slot.Valid data₁.length := by
        rw [hgrows.length_eq, hdata]
        exact hrest slot mem_cons_self
      obtain ⟨data₂, hprocess, hgrows₂, hprocessed⟩ := process_spec hashSetSize hslot
      refine ⟨data₂, hprocess, hgrows.trans hgrows₂,
        fun slot' hslot' => hrest slot' (mem_cons_of_mem slot hslot'), ?_⟩
      intro slot' hslot'
      obtain hmem | hbefore := hdone slot' hslot'
      · obtain rfl | hmem := mem_cons.mp hmem
        · exact .inr hprocessed
        · exact .inl hmem
      · exact .inr (hbefore.mono hgrows₂))
    ⟨Grows.refl data, hvalid, fun slot hslot => .inl hslot⟩
  refine ⟨data', hfold, hgrows, ?_⟩
  intro slot hslot
  obtain hnil | hprocessed := hdone slot hslot
  · cases hnil
  · exact hprocessed

/-- **The buffering of eight keys loses none.** -/
theorem buildBlocks_spec (hpos : 0 < batches) (hlen : Below batches)
    (htable : Table batches table) (hashSetSize : Nat) (entries : List UInt64)
    (hdata : data.length = batches * 2048) :
    ∃ data', buildBlocks table (batches * 2048) hashSetSize entries data = some data' ∧
      Grows data data' ∧
      ∀ hash ∈ entries, ∃ slot, buffer table (batches * 2048) hash = some slot ∧
        Processed hashSetSize data' slot := by
  obtain ⟨slots, hslots, hlength, hof, hvalid⟩ := Loops.mapM_total
    fun hash (_ : hash ∈ entries.take 8) => buffer_spec hpos hlen htable hash
  have hstart : Buffering table (batches * 2048) hashSetSize entries data (entries.drop 8)
      (8, slots, data) := by
    refine ⟨?_, hvalid, Grows.refl data, ?_⟩
    · intro hrest
      have hlong : 8 < entries.length := by
        by_contra hle
        exact hrest (drop_eq_nil_of_le (Nat.le_of_not_lt hle))
      rw [hlength, length_take]
      omega
    · intro hash hhash
      rw [← take_append_drop 8 entries] at hhash
      obtain htake | hdrop := mem_append.mp hhash
      · obtain ⟨slot, hslot, hbuffer⟩ := hof hash htake
        exact .inr ⟨slot, hbuffer, .inl hslot⟩
      · exact .inl hdrop
  obtain ⟨s, hmiddle, hs⟩ := Loops.foldlM_total
    (I := Buffering table (batches * 2048) hashSetSize entries data)
    (fun _ _ _ h => h.step hpos hlen htable hdata) hstart
  obtain ⟨data', hlast, hgrows, hprocessed⟩ := processAll_spec hashSetSize
    (hs.grows.length_eq.trans hdata) hs.valid
  refine ⟨data', ?_, hs.grows.trans hgrows, ?_⟩
  · rw [buildBlocks, hslots, bind_some, hmiddle]
    exact hlast
  · intro hash hhash
    obtain hnil | ⟨slot, hbuffer, hcovered⟩ := hs.covered hash hhash
    · cases hnil
    · refine ⟨slot, hbuffer, ?_⟩
      obtain hmem | hdone := hcovered
      · exact hprocessed slot hmem
      · exact hdone.mono hgrows

/-- The data have the partners of a table and the bits of every entry. -/
def Filled (batches hashSetSize : Nat) (entries : List UInt64) (data : List UInt8) : Prop :=
  ∃ table, PairsBelow table (batches * 2048) (batches * 32) data ∧
    ∀ hash ∈ entries, ∃ slot, buffer table (batches * 2048) hash = some slot ∧
      slot.Valid (batches * 2048) ∧ Processed hashSetSize data slot

theorem addAllEntries_spec (hpos : 0 < batches) (hlen : Below batches) (entries : List UInt64) :
    ∃ data, addAllEntries config (batches * 2048) entries (replicate (batches * 2048) 0) =
        some data ∧
      Filled batches (calcNumProbes config.millibitsPerKey / 2) entries data := by
  obtain ⟨histogram, hhistogram, hcounted⟩ : ∃ histogram,
      buildBlocksHistogram (batches * 2048) entries (initBlockHistogram batches) =
        some histogram ∧ Histogram batches histogram :=
    Loops.foldlM_total (I := fun _ => Histogram batches)
      (fun hash _ _ h => countKey_spec hpos h hash) (histogram_init batches)
  obtain ⟨table, htable, hpaired⟩ := pairBlocks_spec hcounted
  have hzeros : (replicate (batches * 2048) (0 : UInt8)).length = batches * 2048 :=
    length_replicate
  obtain ⟨data₁, hset, hpairs⟩ := setBlocksPairs_spec hlen hpaired hzeros
  obtain ⟨data, hbuild, hgrows, hprocessed⟩ := buildBlocks_spec hpos hlen hpaired
    (calcNumProbes config.millibitsPerKey / 2) entries hpairs.1
  refine ⟨data, ?_, table, ⟨hgrows.length_eq.trans hpairs.1, ?_⟩, ?_⟩
  · have hbatches : numBatches config (batches * 2048) = batches := by
      unfold numBatches kBlockSizeInBytes kPairedBloomBatchSizeInBlocks
      dsimp only
      split <;> omega
    rw [addAllEntries, hbatches, hhistogram, bind_some, htable, bind_some, hset]
    exact hbuild
  · intro g hg
    rw [hgrows.pairs, hpairs.2 g hg]
  · intro hash hhash
    obtain ⟨slot, hbuffer, hdone⟩ := hprocessed hash hhash
    obtain ⟨slot', hbuffer', hvalid⟩ := buffer_spec hpos hlen hpaired hash
    obtain rfl := some.inj (hbuffer'.symm.trans hbuffer)
    exact ⟨_, hbuffer, hvalid, hdone⟩

theorem finish_spec (entries : List UInt64) (hpos : 0 < batches)
    (hlen : Below batches)
    (hspace : calculateSpace config entries.length =
      min (batches * 2048) kMaxSupportedSizeNoMetadata + kMetadataLen) : ∃ data,
      finish config entries = some (data ++ writeMetadata (calcNumProbes config.millibitsPerKey)) ∧
      Filled batches (calcNumProbes config.millibitsPerKey / 2) entries data := by
  obtain ⟨data, hadd, hfilled⟩ := addAllEntries_spec config hpos hlen entries
  refine ⟨data, ?_, hfilled⟩
  have hdataLen : dataLen config entries = batches * 2048 := by
    rw [dataLen, hspace, Nat.add_sub_cancel, min_eq_left hlen.le,
      Nat.mod_eq_of_lt (Nat.lt_of_le_of_lt (Nat.le_add_right _ 4) (add_four_lt hlen))]
  rw [finish, hdataLen, if_pos (by omega), hadd, map_some]

/-- The metadata is read as it was written; no probes are read as an unknown filter. -/
theorem readMetadata_writeMetadata : ∀ numProbes ≤ 30, readMetadata (writeMetadata numProbes) =
        some (if numProbes = 0 then none else some numProbes) := by
  decide

theorem calcNumProbes_le (millibitsPerKey : Nat) : calcNumProbes millibitsPerKey ≤ 30 :=
  Nat.min_le_right _ _

variable {data metadata : List UInt8}

theorem Probed.append {g setIdx n hash : Nat}
    (h : Probed data g setIdx n hash) : Probed (data ++ metadata) g setIdx n hash := by
  intro i hi
  obtain ⟨byte, hbyte, hbit⟩ := h i hi
  refine ⟨byte, ?_, hbit⟩
  rw [List.getElem?_append_left (List.getElem?_eq_some_iff.mp hbyte).1, hbyte]

variable {hash : UInt64}

/-- The reader looks at the blocks the builder worked on. -/
theorem Filled.pairedHashMayMatch (avx2 : Bool) (hpos : 0 < batches) (hlen : Below batches)
    {numProbes : Nat} (hprobes : numProbes ≤ 30) {entries : List UInt64}
    (h : Filled batches (numProbes / 2) entries data) (hhash : hash ∈ entries) :
    pairedHashMayMatch avx2 (data ++ metadata) numProbes (batches * 2048) hash = some true := by
  have hg := hashToGlobalBlockIdx_lt hpos hash
  have haddr := (getBlockAddress_eq hlen hg).2
  obtain ⟨table, hpairs, hprocessed⟩ := h
  obtain ⟨slot, hbuffer, hvalid, hdone⟩ := hprocessed hash hhash
  obtain ⟨pair, hpair, rfl⟩ := map_eq_some_iff.mp hbuffer
  have hread : getInBatchBlockIdxOfPair (data ++ metadata)
      (hashToGlobalBlockIdx (lower32of64 hash) (batches * 2048)) = some pair := by
    rw [getInBatchBlockIdxOfPair, getElem?_append_left (by rw [hpairs.1]; omega)]
    exact (hpairs.2 _ hg).trans hpair
  have hsize : batches * 2048 ≤ (data ++ metadata).length := by
    rw [length_append, hpairs.1]
    exact Nat.le_add_right _ _
  have hprimary := areAllBlockBloomBitsSet_of_probed avx2 (hvalid.primary.trans hsize) hvalid.hash
    (by omega) hdone.1.append
  have hsecondary := areAllBlockBloomBitsSet_of_probed avx2 (hvalid.secondary.trans hsize)
    hvalid.hash (by omega) hdone.2.append
  unfold PairedBloom.pairedHashMayMatch
  dsimp only at hprimary hsecondary ⊢
  rw [hread, bind_some, hprimary, bind_some, if_neg (by decide), hsecondary]

theorem mem_foldl_addKey {hashes : List UInt64}
    (h : hash ∈ hashes) : hash ∈ hashes.foldl addKey [] := by
  induction hashes using reverseRecOn with
  | nil => cases h
  | append_singleton hashes last ih =>
    rw [foldl_append, foldl_cons, foldl_nil, addKey]
    split
    next hlast =>
      obtain hmem | hmem := mem_append.mp h
      · exact ih hmem
      · rw [mem_singleton.mp hmem]
        exact mem_of_getLast? hlast
    next =>
      obtain hmem | hmem := mem_append.mp h
      · exact mem_append_left _ (ih hmem)
      · exact mem_append_right _ hmem

end

/-- **No false negatives.**  `Finish` returns a filter, and the reader that is made from it
matches every hash that was added. -/
theorem finish_noFalseNegatives
    (config : Config)
    (hashes : List UInt64)
    (hsize : calculateSpace config (hashes.foldl addKey []).length - kMetadataLen <
      kMaxSupportedSizeNoMetadata)
    (avx2 : Bool) : ∃ contents reader,
      finish config (hashes.foldl addKey []) = some contents ∧
      getFilterBitsReader contents = some reader ∧
      ∀ hash ∈ hashes, reader.hashMayMatch avx2 hash = some true := by
  obtain ⟨batches, hpos, hspace, -⟩ := calculateSpace_eq config (hashes.foldl addKey []).length
  have hlen : Below batches := by
    rw [hspace] at hsize
    omega
  obtain ⟨data, hfinish, hfilled⟩ := finish_spec config _ hpos hlen hspace
  have hmost := calcNumProbes_le config.millibitsPerKey
  generalize calcNumProbes config.millibitsPerKey = numProbes at hfinish hfilled hmost
  have hmetadata := readMetadata_writeMetadata _ hmost
  have hdata : data.length = batches * 2048 := by
    obtain ⟨table, hpairs, -⟩ := hfilled
    exact hpairs.1
  have hlength : (data ++ writeMetadata numProbes).length = batches * 2048 + 4 := by
    rw [length_append, hdata]
    rfl
  refine ⟨data ++ writeMetadata numProbes, ?_⟩
  unfold getFilterBitsReader kMetadataLen
  rw [hlength, Nat.mod_eq_of_lt (add_four_lt hlen), if_neg (by omega), Nat.add_sub_cancel,
    drop_left' hdata, take_of_length_le (Nat.le_refl 4), hmetadata, map_some]
  split_ifs with hprobes
  · exact ⟨_, hfinish, rfl, fun hash _ => rfl⟩
  · refine ⟨_, hfinish, rfl, ?_⟩
    intro hash hhash
    exact hfilled.pairedHashMayMatch avx2 hpos hlen hmost (mem_foldl_addKey hhash)

theorem finish_noFalseNegatives_twoKeys :
    calculateSpace ⟨10000, true⟩ (([1, 2] : List UInt64).foldl addKey []).length - kMetadataLen <
        kMaxSupportedSizeNoMetadata ∧
      ∃ contents reader,
        finish ⟨10000, true⟩ (([1, 2] : List UInt64).foldl addKey []) = some contents ∧
        getFilterBitsReader contents = some reader ∧
        ∀ hash ∈ ([1, 2] : List UInt64), reader.hashMayMatch true hash = some true :=
  ⟨by decide +kernel, finish_noFalseNegatives ⟨10000, true⟩ [1, 2] (by decide +kernel) true⟩

/-- **The size of a filter** is a number of whole batches, and every index that `Finish` computes
is in range, exactly if the bytes for the keys are below 4 GiB. -/
theorem finish_inRange_iff
    (config : Config)
    (numEntries : Nat) :
    (0 < calculateSpace config numEntries - kMetadataLen ∧
        kBatchSizeInBytes ∣ calculateSpace config numEntries - kMetadataLen ∧
        ∀ entries : List UInt64, entries.length = numEntries →
          ∃ contents, finish config entries = some contents) ↔
      SpaceFits config numEntries := by
  obtain ⟨batches, hpos, hspace, hfits⟩ := calculateSpace_eq config numEntries
  rw [hspace, Nat.add_sub_cancel, ← hfits]
  constructor
  · rintro ⟨-, hdvd, -⟩
    by_contra hlarge
    rw [min_eq_right (Nat.le_of_not_lt hlarge)] at hdvd
    exact absurd hdvd (by decide)
  · intro hlen
    rw [min_eq_left hlen.le]
    refine ⟨by omega, Nat.dvd_mul_left _ _, ?_⟩
    rintro entries rfl
    obtain ⟨_, hfinish, -⟩ := finish_spec config entries hpos hlen hspace
    exact ⟨_, hfinish⟩

/-- The largest size is no number of whole batches: there is no batch for the last blocks. -/
theorem calculateSpace_not_batches :
    calculateSpace ⟨100000, true⟩ 343597384 - kMetadataLen = kMaxSupportedSizeNoMetadata ∧
      ¬ kBatchSizeInBytes ∣ kMaxSupportedSizeNoMetadata ∧
      numBatches ⟨100000, true⟩ kMaxSupportedSizeNoMetadata ≤ getContainingBatchIdx
          (hashToGlobalBlockIdx (lower32of64 0xffffffff) kMaxSupportedSizeNoMetadata) := by
  decide

/-- The batches of the blocks before the trailer are inside of a string of this length. -/
def BatchesInside (length : Nat) : Prop :=
  length % 2 ^ 32 ≤ kMetadataLen ∨
    (((length % 2 ^ 32 - kMetadataLen) / kBlockSizeInBytes - 1) / kPairedBloomBatchSizeInBlocks + 1) *
      kBatchSizeInBytes ≤ length

variable {lenBytes : Nat}

/-- **The reader stays in the batches** of the blocks that a hash may select. -/
theorem pairedHashMayMatch_inside (avx2 : Bool) {data : List UInt8}
    (hinside : ((lenBytes / 64 - 1) / 32 + 1) * 2048 ≤ data.length) {numProbes : Nat}
    (hprobes : numProbes ≤ 30) (hash : UInt64) : ∃ answer, pairedHashMayMatch avx2 data numProbes lenBytes hash = some answer := by
  unfold pairedHashMayMatch
  have hg : hashToGlobalBlockIdx (lower32of64 hash) lenBytes ≤ lenBytes / 64 - 1 := by
    have hlow : lower32of64 hash ≤ 2 ^ 32 - 1 := Nat.le_sub_one_of_lt (Nat.mod_lt _ (by decide))
    have hmul := Nat.mul_le_mul_right (lenBytes / 64) hlow
    change lower32of64 hash * (lenBytes / 64) / 2 ^ 32 ≤ _
    omega
  generalize hashToGlobalBlockIdx (lower32of64 hash) lenBytes = g at hg
  have hblock : ∀ i < 32, getBlockAddress (g / 32 * 32 + i) + 64 ≤ data.length := by
    intro i hi
    change (g / 32 * 32 + i) * 64 % 2 ^ 32 + 64 ≤ _
    omega
  have hprimary := hblock (g % 32) (Nat.mod_lt _ (by decide))
  rw [Nat.div_add_mod'] at hprimary
  have hmask : ∀ byte : UInt8, (byte &&& kInBatchIdxMask).toNat < 32 := by
    intro byte
    rw [UInt8.toNat_and]
    exact Nat.lt_succ_of_le Nat.and_le_right
  have hhash := upper32of64_lt hash
  dsimp only
  rw [getInBatchBlockIdxOfPair, getElem?_eq_getElem (by omega), map_some, bind_some]
  obtain ⟨b, hb, -⟩ := areAllBlockBloomBitsSet_spec avx2 hprimary hhash
    (show numProbes / 2 < 2 ^ 31 by omega) (getHashSetSelector (getInBatchBlockIdx g) _)
  rw [hb, bind_some]
  cases b with
  | false => exact ⟨false, rfl⟩
  | true =>
    obtain ⟨b, hb, -⟩ := areAllBlockBloomBitsSet_spec avx2 (hblock _ (hmask _)) hhash
      (show numProbes / 2 < 2 ^ 31 by omega) _
    exact ⟨b, hb⟩

/-- A string of ones with a known trailer: every block has the last block of its batch as its
partner. -/
def foreignFilter (lenBytes : Nat) : List UInt8 :=
  List.replicate lenBytes 255 ++ [1, 2, 0, 0]

/-- The hash that selects the last block, with the first bit there and the last one in the
partner. -/
def lastBlockHash : UInt64 := 0x02FFC000FFFFFFFF

theorem length_foreignFilter (lenBytes : Nat) : (foreignFilter lenBytes).length = lenBytes + 4 := by
  rw [foreignFilter, length_append, length_replicate]
  rfl

theorem getFilterBitsReader_foreignFilter (hpos : 0 < lenBytes) (hlen : lenBytes + 4 < 2 ^ 32) :
    getFilterBitsReader (foreignFilter lenBytes) =
      some (.pairedBloom (foreignFilter lenBytes) 2 lenBytes) := by
  have htrailer : (foreignFilter lenBytes).drop lenBytes = [1, 2, 0, 0] :=
    drop_left' length_replicate
  have hmeta : readMetadata [1, 2, 0, 0] = some (some 2) := by decide
  unfold getFilterBitsReader kMetadataLen
  rw [length_foreignFilter, Nat.mod_eq_of_lt hlen, if_neg (by omega), Nat.add_sub_cancel, htrailer,
    take_of_length_le (by decide), hmeta]
  rfl

/-- **The last batch is not whole**: the reader leaves the string. -/
theorem hashMayMatch_foreignFilter (hpos : 0 < lenBytes) (hlen : lenBytes + 4 < 2 ^ 32)
    (houtside : lenBytes + 4 < ((lenBytes / 64 - 1) / 32 + 1) * 2048) :
    pairedHashMayMatch false (foreignFilter lenBytes) 2 lenBytes lastBlockHash = none := by
  generalize hg : lenBytes / 64 - 1 = g at houtside
  have hblock : hashToGlobalBlockIdx (lower32of64 lastBlockHash) lenBytes = g := by
    change 0xFFFFFFFF * (lenBytes / 64) / 2 ^ 32 = g
    omega
  have hread : (foreignFilter lenBytes)[getBlockAddress g]? = some 255 := by
    have haddress : getBlockAddress g < lenBytes := by
      change g * 64 % 2 ^ 32 < lenBytes
      omega
    rw [foreignFilter, getElem?_append_left (by rwa [length_replicate]),
      getElem?_replicate_of_lt haddress]
  have hselector : getHashSetSelector (getInBatchBlockIdx g) 31 = 0 :=
    if_pos (show g % 32 < 31 by omega)
  -- one probe for each block: bit 5 of the first one, bit 511 of its partner
  have hprobe : ∀ block setIdx, areAllBlockBloomBitsSet false (foreignFilter lenBytes) block
      (upper32of64 lastBlockHash) setIdx (2 / 2) =
        areAllBlockBloomBitsSetNonAvx2 (foreignFilter lenBytes) block setIdx 1
          (upper32of64 lastBlockHash) := fun _ _ => rfl
  have hfirst : getBitPosInBlockForHash (upper32of64 lastBlockHash) 0 = 5 := by decide
  have hsecond : getBitPosInBlockForHash (upper32of64 lastBlockHash) (1 - 0) = 511 := by decide
  have hpair : ((255 : UInt8) &&& kInBatchIdxMask).toNat = 31 := by decide
  have hnone : (foreignFilter lenBytes)[getBlockAddress
      (getFirstGlobalBlockIdxOfBatch (getContainingBatchIdx g) + 31) + 511 / 8]? = none := by
    rw [getElem?_eq_none_iff, length_foreignFilter]
    change lenBytes + 4 ≤ (g / 32 * 32 + 31) * 64 % 2 ^ 32 + 511 / 8
    omega
  unfold pairedHashMayMatch
  dsimp only
  rw [hblock, getInBatchBlockIdxOfPair, hread, map_some, bind_some, hpair, hselector, hprobe,
    areAllBlockBloomBitsSetNonAvx2, hfirst]
  change ((foreignFilter lenBytes)[getBlockAddress g]?.bind _).bind _ = none
  rw [hread, bind_some, if_neg (by decide), areAllBlockBloomBitsSetNonAvx2, bind_some,
    if_neg (by decide), hprobe, areAllBlockBloomBitsSetNonAvx2, hsecond, hnone]
  rfl

theorem exists_readMetadata : ∀ {metadata : List UInt8}, metadata.length = 4 →
    ∃ numProbes, readMetadata metadata = some numProbes ∧ ∀ n ∈ numProbes, n ≤ 30
  | [_, blockAndProbes, _, _], _ => by
    rw [readMetadata]
    split_ifs with hprobes hrest hkind
    · exact ⟨none, rfl, nofun⟩
    · exact ⟨none, rfl, nofun⟩
    · refine ⟨_, rfl, ?_⟩
      rintro n ⟨⟩
      exact not_lt.mp (not_or.mp hprobes).2
    · exact ⟨none, rfl, nofun⟩

end PairedBloom
end HotTLBApps.Speedb
