import HotTLBApps.Lib.BitBuffer
import HotTLBApps.Lib.Slices
import Mathlib.Data.Fin.VecNotation

/-!
# The paired Bloom filter

`speedb_paired_bloom_internal.cc` and the reader factory of `speedb_paired_bloom.cc`.
The filter is an array of blocks of 64 bytes in batches of 32.  Every block has a
partner in its batch; its index is in the five low bits of the first byte of the block,
and the rest of the block are Bloom bits.  A key sets bits in the block its hash selects
and in the partner of that block.

Machine words are numbers with the modulus written out; `none` is an access out of the
bounds of a buffer or a table.

* `addKey`, `finish`: the builder;
* `getFilterBitsReader`, `hashMayMatch`: the reader, with the portable test of the bits
  and the one for AVX2, over vectors of eight lanes of 32 bits with one definition for each
  intrinsic.
-/

namespace HotTLBApps.Speedb
namespace PairedBloom

open BitBuffer (modify?)

def kPairedBloomBatchSizeInBlocks : Nat := 32
def kInBatchIdxNumBits : Nat := 5
def kBlockSizeInBytes : Nat := 64
def kBlockSizeInBits : Nat := 512
def kBlockSizeNumBits : Nat := 9
def kNumBlockSizeBitsShiftBits : Nat := 23
def kNumBitsForBlockSize : Nat := 6
def kNumBitsInBlockBloom : Nat := 507
def kBatchSizeInBytes : Nat := 2048
def kNumMillibitsInByte : Nat := 8000
def kMaxSupportedSizeNoMetadata : Nat := 0xffffffc0
def kMaxNumProbes : Nat := 30
def kInBatchIdxMask : UInt8 := 31
def kFirstByteBitsMask : UInt8 := 224
def kMetadataLen : Nat := 4
def kPairedBlockBloom : UInt8 := 1

def lower32of64 (hash : UInt64) : Nat :=
  hash.toNat % 2 ^ 32

def upper32of64 (hash : UInt64) : Nat :=
  hash.toNat / 2 ^ 32

def fastRange32 (hash range : Nat) : Nat :=
  hash * range / 2 ^ 32

def hashToGlobalBlockIdx (h1 lenBytes : Nat) : Nat :=
  fastRange32 h1 (lenBytes / 2 ^ kNumBitsForBlockSize)

def getContainingBatchIdx (globalBlockIdx : Nat) : Nat :=
  globalBlockIdx / kPairedBloomBatchSizeInBlocks

def getInBatchBlockIdx (globalBlockIdx : Nat) : Nat :=
  globalBlockIdx % kPairedBloomBatchSizeInBlocks

def getHashSetSelector (firstInBatchBlockIdx secondInBatchBlockIdx : Nat) : Nat :=
  if firstInBatchBlockIdx < secondInBatchBlockIdx then 0 else 1

def getFirstGlobalBlockIdxOfBatch (batchIdx : Nat) : Nat :=
  batchIdx * kPairedBloomBatchSizeInBlocks

def getBlockAddress (globalBlockIdx : Nat) : Nat :=
  globalBlockIdx * kBlockSizeInBytes % 2 ^ 32

/-- The bits per key that are left for the Bloom bits; the code divides whole numbers. -/
def calcAdjustedBitsPerKey (millibitsPerKey : Nat) : Nat :=
  millibitsPerKey * kNumBitsInBlockBloom / kBlockSizeInBits / 1000

/-- `num_probes`.  The fraction is the double nearest to `log 2`. -/
def calcNumProbes (millibitsPerKey : Nat) : Nat :=
  min ((6243314768165359 * calcAdjustedBitsPerKey millibitsPerKey + 2 ^ 54 - 1) / 2 ^ 54 * 2)
    kMaxNumProbes

def setInBatchBlockIdxOfPair
    (data : List UInt8) (globalBlockIdx pairInBatchBlockIdx : Nat) : Option (List UInt8) :=
  modify? data (getBlockAddress globalBlockIdx) fun byte =>
    UInt8.ofNat pairInBatchBlockIdx ||| (byte &&& kFirstByteBitsMask)

/-- The position of a hash that fell on the bits of the index. -/
def fastRangeBitPos (hash : Nat) : Nat :=
  kInBatchIdxNumBits +
    kNumBitsInBlockBloom * (hash / 2 ^ kBlockSizeNumBits) % 2 ^ 32 / 2 ^ kNumBlockSizeBitsShiftBits

def getBitPosInBlockForHash (hash setIdx : Nat) : Nat :=
  if setIdx = 0 then
    if hash / 2 ^ 23 > kInBatchIdxNumBits - 1 then hash / 2 ^ 23
    else fastRangeBitPos (hash * 2 ^ 9 % 2 ^ 32)
  else
    if (hash &&& 0x007FC000) / 2 ^ 14 > kInBatchIdxNumBits - 1 then (hash &&& 0x007FC000) / 2 ^ 14
    else fastRangeBitPos hash

/-- The step from one probe to the next. -/
def nextHash (hash : Nat) : Nat :=
  hash * 0x9e3779b9 % 2 ^ 32

def setBlockBloomBits (globalBlockIdx setIdx : Nat) : Nat → Nat → List UInt8 → Option (List UInt8)
  | 0, _, data => some data
  | n + 1, hash, data =>
      (modify? data (getBlockAddress globalBlockIdx + getBitPosInBlockForHash hash setIdx / 8)
        fun byte => byte ||| UInt8.ofNat (1 <<< (getBitPosInBlockForHash hash setIdx % 8))).bind
          (setBlockBloomBits globalBlockIdx setIdx n (nextHash hash))

def getInBatchBlockIdxOfPair (data : List UInt8) (globalBlockIdx : Nat) : Option Nat :=
  (data[getBlockAddress globalBlockIdx]?).map fun byte => (byte &&& kInBatchIdxMask).toNat

def areAllBlockBloomBitsSetNonAvx2
    (data : List UInt8) (globalBlockIdx setIdx : Nat) : Nat → Nat → Option Bool
  | 0, _ => some true
  | n + 1, hash =>
      (data[getBlockAddress globalBlockIdx +
          getBitPosInBlockForHash hash setIdx / 8]?).bind fun byte =>
        if byte &&& UInt8.ofNat (1 <<< (getBitPosInBlockForHash hash setIdx % 8)) = 0 then
          some false
        else areAllBlockBloomBitsSetNonAvx2 data globalBlockIdx setIdx n (nextHash hash)

namespace Avx2

/-- `__m256i`. -/
abbrev M256i := Fin 8 → BitVec 32

def set1 (x : BitVec 32) : M256i := fun _ => x
def mullo (a b : M256i) : M256i := fun k => a k * b k
def add (a b : M256i) : M256i := fun k => a k + b k
def sub (a b : M256i) : M256i := fun k => a k - b k
def and (a b : M256i) : M256i := fun k => a k &&& b k
def slli (a : M256i) (n : Nat) : M256i := fun k => a k <<< n
def srli (a : M256i) (n : Nat) : M256i := fun k => a k >>> n
def srai (a : M256i) (n : Nat) : M256i := fun k => (a k).sshiftRight n
def sllv (a count : M256i) : M256i := fun k => a k <<< (count k).toNat

/-- The comparison is signed. -/
def cmpgt (a b : M256i) : M256i :=
  fun k => if (b k).slt (a k) then BitVec.allOnes 32 else 0

def testz (a b : M256i) : Bool :=
  decide (∀ k, a k &&& b k = 0)

def testc (a b : M256i) : Bool :=
  decide (∀ k, ~~~a k &&& b k = 0)

/-- Every byte is filled with its high bit. -/
def spread (mask : BitVec 32) : BitVec 32 :=
  (mask >>> 7 &&& 0x01010101) * 0xff

/-- A byte is the one of `b` if the high bit of the byte of the mask is set. -/
def blendv (a b mask : M256i) : M256i :=
  fun k => (b k &&& spread (mask k)) ||| (a k &&& ~~~spread (mask k))

/-- The three low bits of an index select the lane. -/
def permutevar8x32 (a idx : M256i) : M256i :=
  fun k => a (Fin.ofNat 8 (idx k).toNat)

def loadu (data : List UInt8) (address : Nat) : Option M256i :=
  if address + 32 ≤ data.length then
    some fun k => BitVec.ofNat 32 (Bytes.ofLE ((data.drop (address + 4 * k)).take 4))
  else none

def multipliers : M256i :=
  ![0x00000001, 0x9e3779b9, 0xe35e67b1, 0x734297e9, 0x35fbe861, 0xdeb7c719, 0x448b211, 0x3459b749]

/-- `hash_vector`, as it is given to `CheckBitsPositionsInBloomBlock`. -/
def hashVector (hash : BitVec 32) (setIdx : Nat) : M256i :=
  let orig := mullo (set1 hash) multipliers
  let hashVector := if setIdx = 0 then srli orig 23 else srli (and orig (set1 0x007FC000#32)) 14
  let smallerThan7 := cmpgt (set1 (BitVec.ofNat 32 kInBatchIdxNumBits)) hashVector
  let hashVector :=
    if testz smallerThan7 smallerThan7 = false then
      let fastRange := if setIdx = 0 then slli orig 9 else orig
      let fastRange := srli fastRange kBlockSizeNumBits
      let fastRange := mullo fastRange (set1 (BitVec.ofNat 32 kNumBitsInBlockBloom))
      let fastRange := srli fastRange kNumBlockSizeBitsShiftBits
      let fastRange := add fastRange (set1 (BitVec.ofNat 32 kInBatchIdxNumBits))
      blendv hashVector fastRange smallerThan7
    else hashVector
  slli hashVector kNumBlockSizeBitsShiftBits

/-- `value_vector`: the words of the two halves of the block that the lanes select. -/
def valueVector (lower upper hashVector : M256i) : M256i :=
  let wordAddresses := srli hashVector 28
  blendv (permutevar8x32 lower wordAddresses) (permutevar8x32 upper wordAddresses)
    (srai hashVector 31)

/-- `bit_mask`: the bits to test in these words. -/
def bitMask (numProbes : Nat) (hashVector : M256i) : M256i :=
  let kSelector := sub ![0, 1, 2, 3, 4, 5, 6, 7] (set1 (BitVec.ofNat 32 numProbes))
  sllv (srli kSelector 31) (srli (slli hashVector 4) 27)

def checkBitsPositionsInBloomBlock (numProbes : Nat) (hashVector : M256i) (data : List UInt8)
    (address : Nat) : Option (Bool × Bool) := do
  let lower ← loadu data address
  let upper ← loadu data (address + 32)
  let found := testc (valueVector lower upper hashVector) (bitMask numProbes hashVector)
  some (if numProbes ≤ 8 then (true, found)
    else if ¬ found = true then (true, false)
    else (false, false))

def areAllBlockBloomBitsSetAvx2 (data : List UInt8) (globalBlockIdx setIdx : Nat) :
    (fuel : Nat) → (hash : BitVec 32) → (remProbes : Nat) → Option Bool
  | 0, _, _ => none
  | fuel + 1, hash, remProbes =>
      (checkBitsPositionsInBloomBlock remProbes (hashVector hash setIdx) data
        (getBlockAddress globalBlockIdx)).bind fun r =>
          if r.1 then some r.2
          else areAllBlockBloomBitsSetAvx2 data globalBlockIdx setIdx fuel
            (hash * 0xab25f4c1#32) (remProbes - 8)

end Avx2

/-- `AreAllBlockBloomBitsSet`, for a build with and without AVX2. -/
def areAllBlockBloomBitsSet (avx2 : Bool) (data : List UInt8)
    (globalBlockIdx hash setIdx hashSetSize : Nat) : Option Bool :=
  if avx2 then
    Avx2.areAllBlockBloomBitsSetAvx2 data globalBlockIdx setIdx (hashSetSize + 1)
      (BitVec.ofNat 32 hash) hashSetSize
  else
    areAllBlockBloomBitsSetNonAvx2 data globalBlockIdx setIdx hashSetSize hash

/-- `AddKey`, for the hash of the key. -/
def addKey (entries : List UInt64) (hash : UInt64) : List UInt64 :=
  if entries.getLast? = some hash then entries else entries ++ [hash]

/-- The parameters of the builder. -/
structure Config where
  millibitsPerKey : Nat
  isBottommost : Bool

def roundDownUsableSpace (config : Config) (availableSize : Nat) : Nat :=
  let rv := availableSize - kMetadataLen
  let rounded :=
    if config.isBottommost then max (rv / kBatchSizeInBytes * kBatchSizeInBytes) kBatchSizeInBytes
    else (rv + kBatchSizeInBytes - 1) / kBatchSizeInBytes * kBatchSizeInBytes
  (if rounded ≥ kMaxSupportedSizeNoMetadata then kMaxSupportedSizeNoMetadata else rounded) +
    kMetadataLen

def calculateSpace (config : Config) (numEntries : Nat) : Nat :=
  let lenWithoutMetadata := numEntries * config.millibitsPerKey % 2 ^ 64 / kNumMillibitsInByte
  roundDownUsableSpace config (max lenWithoutMetadata kBatchSizeInBytes + kMetadataLen)

/-- `num_batches_`, as `InitVars` computes it. -/
def numBatches (config : Config) (lenNoMetadata : Nat) : Nat :=
  let numBlocks := max (lenNoMetadata / kBlockSizeInBytes) kPairedBloomBatchSizeInBlocks
  if config.isBottommost then numBlocks / kPairedBloomBatchSizeInBlocks
  else (numBlocks + kPairedBloomBatchSizeInBlocks - 1) / kPairedBloomBatchSizeInBlocks

structure BlockHistogramInfo where
  numKeys : Nat
  originalInBatchBlockIdx : Nat

structure PairingInfo where
  pairInBatchBlockIdx : Nat
  hashSetSelector : Nat

def initBlockHistogram (batches : Nat) : List (List BlockHistogramInfo) :=
  List.replicate batches
    ((List.range kPairedBloomBatchSizeInBlocks).map fun idx => ⟨0, idx⟩)

/-- One turn of `BuildBlocksHistogram`; the counter has 16 bits. -/
def countKey (dataLenBytes : Nat) (histogram : List (List BlockHistogramInfo))
    (hash : UInt64) : Option (List (List BlockHistogramInfo)) :=
  let globalBlockIdx := hashToGlobalBlockIdx (lower32of64 hash) dataLenBytes
  (histogram[getContainingBatchIdx globalBlockIdx]?).bind fun batch =>
    (modify? batch (getInBatchBlockIdx globalBlockIdx) fun info =>
      { info with numKeys := (info.numKeys + 1) % 2 ^ 16 }).bind fun batch' =>
        Slices.write? histogram (getContainingBatchIdx globalBlockIdx) batch'

def buildBlocksHistogram (dataLenBytes : Nat) (entries : List UInt64)
    (histogram : List (List BlockHistogramInfo)) : Option (List (List BlockHistogramInfo)) :=
  entries.foldlM (countKey dataLenBytes) histogram

/-- `std::stable_sort` by the number of keys. -/
def sortBatchBlocks (batch : List BlockHistogramInfo) : List BlockHistogramInfo :=
  batch.mergeSort fun a b => a.numKeys ≤ b.numKeys

def pairBatchBlocks (batch : List BlockHistogramInfo) : Option (List PairingInfo) :=
  (List.range kPairedBloomBatchSizeInBlocks).foldlM
    (fun pairing idx =>
      (batch[idx]?).bind fun info =>
        (batch[batch.length - idx - 1]?).bind fun pair =>
          Slices.write? pairing info.originalInBatchBlockIdx
            { pairInBatchBlockIdx := pair.originalInBatchBlockIdx
              hashSetSelector :=
                getHashSetSelector info.originalInBatchBlockIdx pair.originalInBatchBlockIdx })
    (List.replicate kPairedBloomBatchSizeInBlocks ⟨0, 0⟩)

def pairBlocks (histogram : List (List BlockHistogramInfo)) : Option (List (List PairingInfo)) :=
  histogram.mapM fun batch => pairBatchBlocks (sortBatchBlocks batch)

/-- The partner that the pairing table has for a block. -/
def pairOf (pairingTable : List (List PairingInfo)) (batchIdx inBatchBlockIdx : Nat) : Option Nat :=
  (pairingTable[batchIdx]?).bind fun batch =>
    (batch[inBatchBlockIdx]?).map PairingInfo.pairInBatchBlockIdx

def setBlocksPairs
    (pairingTable : List (List PairingInfo)) (data : List UInt8) : Option (List UInt8) :=
  (List.range pairingTable.length).foldlM
    (fun data batchIdx =>
      (List.range kPairedBloomBatchSizeInBlocks).foldlM
        (fun data inBatchBlockIdx =>
          (pairOf pairingTable batchIdx inBatchBlockIdx).bind fun pair =>
            setInBatchBlockIdxOfPair data
              (batchIdx * kPairedBloomBatchSizeInBlocks + inBatchBlockIdx) pair)
        data)
    data

/-- One slot of the four arrays that `BuildBlocks` buffers keys in. -/
structure Buffered where
  primaryBlock : Nat
  secondaryBlock : Nat
  primaryHashSelector : Nat
  upper32BitsOfHash : Nat

/-- What is buffered for a key. -/
def buffer (pairingTable : List (List PairingInfo)) (dataLenBytes : Nat)
    (hash : UInt64) : Option Buffered :=
  let primaryGlobalBlockIdx := hashToGlobalBlockIdx (lower32of64 hash) dataLenBytes
  let batchIdx := getContainingBatchIdx primaryGlobalBlockIdx
  let primaryInBatchBlockIdx := getInBatchBlockIdx primaryGlobalBlockIdx
  (pairOf pairingTable batchIdx primaryInBatchBlockIdx).map fun secondaryInBatchBlockIdx =>
    { primaryBlock := primaryGlobalBlockIdx
      secondaryBlock := getFirstGlobalBlockIdxOfBatch batchIdx + secondaryInBatchBlockIdx
      primaryHashSelector := getHashSetSelector primaryInBatchBlockIdx secondaryInBatchBlockIdx
      upper32BitsOfHash := upper32of64 hash }

/-- The two calls of `SetBlockBloomBits` for a slot. -/
def process (hashSetSize : Nat) (data : List UInt8) (slot : Buffered) : Option (List UInt8) :=
  (setBlockBloomBits slot.primaryBlock slot.primaryHashSelector hashSetSize
    slot.upper32BitsOfHash data).bind
      (setBlockBloomBits slot.secondaryBlock (1 - slot.primaryHashSelector) hashSetSize
        slot.upper32BitsOfHash)

/-- The middle loop of `BuildBlocks`: the slot is processed and taken by the next key; `i`
counts the keys. -/
def processAndBuffer (pairingTable : List (List PairingInfo)) (dataLenBytes hashSetSize : Nat)
    (s : Nat × List Buffered × List UInt8)
    (hash : UInt64) : Option (Nat × List Buffered × List UInt8) :=
  (s.2.1[s.1 % 8]?).bind fun slot =>
    (process hashSetSize s.2.2 slot).bind fun data =>
      (buffer pairingTable dataLenBytes hash).bind fun next =>
        (Slices.write? s.2.1 (s.1 % 8) next).map fun slots => (s.1 + 1, slots, data)

def buildBlocks (pairingTable : List (List PairingInfo)) (dataLenBytes hashSetSize : Nat)
    (entries : List UInt64) (data : List UInt8) : Option (List UInt8) :=
  ((entries.take 8).mapM (buffer pairingTable dataLenBytes)).bind fun slots =>
    ((entries.drop 8).foldlM (processAndBuffer pairingTable dataLenBytes hashSetSize)
      (8, slots, data)).bind fun s =>
        s.2.1.foldlM (process hashSetSize) s.2.2

def addAllEntries (config : Config) (dataLenBytes : Nat) (entries : List UInt64)
    (data : List UInt8) : Option (List UInt8) :=
  (buildBlocksHistogram dataLenBytes entries
    (initBlockHistogram (numBatches config dataLenBytes))).bind fun histogram =>
      (pairBlocks histogram).bind fun pairingTable =>
        (setBlocksPairs pairingTable data).bind
          (buildBlocks pairingTable dataLenBytes (calcNumProbes config.millibitsPerKey / 2) entries)

def writeMetadata (numProbes : Nat) : List UInt8 :=
  [kPairedBlockBloom, UInt8.ofNat numProbes, 0, 0]

def dataLen (config : Config) (entries : List UInt64) : Nat :=
  (calculateSpace config entries.length - kMetadataLen) % 2 ^ 32

/-- `Finish`: the data, all zero at first, with the metadata after it. -/
def finish (config : Config) (entries : List UInt64) : Option (List UInt8) :=
  (if dataLen config entries > 0 then
      addAllEntries config (dataLen config entries) entries
        (List.replicate (dataLen config entries) 0)
    else some (List.replicate (dataLen config entries) 0)).map fun data =>
      data ++ writeMetadata (calcNumProbes config.millibitsPerKey)

/-- The readers that `GetFilterBitsReader` makes. -/
inductive FilterBitsReader
  | alwaysFalse
  | alwaysTrue
  | pairedBloom (data : List UInt8) (numProbes dataLenBytes : Nat)

/-- `ReadMetadata`: the number of probes if the filter is one of the known kind. -/
def readMetadata (metadata : List UInt8) : Option (Option Nat) :=
  match metadata with
  | [filterType, blockAndProbes, rest₀, rest₁] =>
      let numProbes := (blockAndProbes &&& 0x1F).toNat
      if numProbes < 1 ∨ numProbes > 30 then some none
      else if Bytes.ofLE [rest₀, rest₁] ≠ 0 then some none
      else if filterType = kPairedBlockBloom ∧ (blockAndProbes >>> 5) &&& 7 = 0 then
        some (some numProbes)
      else some none
  | _ => none

def getFilterBitsReader (contents : List UInt8) : Option FilterBitsReader :=
  let lenWithMeta := contents.length % 2 ^ 32
  if lenWithMeta ≤ kMetadataLen then some .alwaysFalse
  else
    (readMetadata ((contents.drop (lenWithMeta - kMetadataLen)).take kMetadataLen)).map
      fun numProbes =>
        match numProbes with
        | some numProbes => .pairedBloom contents numProbes (lenWithMeta - kMetadataLen)
        | none => .alwaysTrue

/-- `HashMayMatch` of the reader of the paired filter. -/
def pairedHashMayMatch (avx2 : Bool) (data : List UInt8) (numProbes dataLenBytes : Nat)
    (hash : UInt64) : Option Bool :=
  let primaryGlobalBlockIdx := hashToGlobalBlockIdx (lower32of64 hash) dataLenBytes
  let primaryInBatchBlockIdx := getInBatchBlockIdx primaryGlobalBlockIdx
  (getInBatchBlockIdxOfPair data primaryGlobalBlockIdx).bind fun secondaryInBatchBlockIdx =>
    let selector := getHashSetSelector primaryInBatchBlockIdx secondaryInBatchBlockIdx
    (areAllBlockBloomBitsSet avx2 data primaryGlobalBlockIdx (upper32of64 hash) selector
      (numProbes / 2)).bind fun allSet =>
        if allSet = false then some false
        else
          areAllBlockBloomBitsSet avx2 data
            (getFirstGlobalBlockIdxOfBatch (getContainingBatchIdx primaryGlobalBlockIdx) +
              secondaryInBatchBlockIdx)
            (upper32of64 hash) (1 - selector) (numProbes / 2)

def FilterBitsReader.hashMayMatch (avx2 : Bool) (hash : UInt64) : FilterBitsReader → Option Bool
  | .alwaysFalse => some false
  | .alwaysTrue => some true
  | .pairedBloom data numProbes dataLenBytes =>
      pairedHashMayMatch avx2 data numProbes dataLenBytes hash

end PairedBloom
end HotTLBApps.Speedb
