import HotTLBApps.Lib.Cursor
import HotTLBApps.Lib.OrderedSet
import HotTLBApps.Lib.TaggedKey
import HotTLBApps.Speedb.BinaryHeap

/-!
# Speedb: the hash memtable (`memtable/hash_spdb_rep.cc`, `memtable/spdb_sorted_vector.h`)

The memtable keeps every entry twice: in one of the sorted lists of a hash table, for
insertions and point lookups, and in one of a sequence of vectors, for iterators.  The
vectors are filled one after another and sorted late, by a thread or by an iterator; an
iterator merges them with a heap.

An entry is an internal key with a value.  User keys are of any linearly ordered type, and
the hash is any function of them.  A bucket counts its elements in a `uint32_t`; the other
counters are `size_t` and do not overflow.
-/

namespace HotTLBApps.Speedb

open Cursor

/-- The value types of entries. -/
inductive ValueType
  | kTypeDeletion
  | kTypeValue
  | kTypeMerge
  | kTypeSingleDeletion
  | kTypeRangeDeletion
  | kTypeBlobIndex
  | kTypeDeletionWithTimestamp
  | kTypeWideColumnEntity
deriving DecidableEq, Repr

def ValueType.toNat : ValueType → Nat
  | .kTypeDeletion => 0x0
  | .kTypeValue => 0x1
  | .kTypeMerge => 0x2
  | .kTypeSingleDeletion => 0x7
  | .kTypeRangeDeletion => 0xF
  | .kTypeBlobIndex => 0x11
  | .kTypeDeletionWithTimestamp => 0x14
  | .kTypeWideColumnEntity => 0x16

instance : TypeByte ValueType where
  toNat := ValueType.toNat
  injective a b h := by
    cases a <;> cases b <;> first | rfl | cases h
  lt t := by
    cases t <;> decide

def kValueTypeForSeek : ValueType := .kTypeWideColumnEntity

abbrev InternalKey (U : Type) := TaggedKey U ValueType

abbrev Entry (U V : Type) := InternalKey U × V

structure LookupKey (U : Type) where
  userKey : U
  sequence : Nat

def LookupKey.internalKey {U : Type} (k : LookupKey U) : InternalKey U where
  userKey := k.userKey
  sequence := k.sequence
  type := kValueTypeForSeek

variable {n : Nat} {U V : Type} [LinearOrder U]

/-- The values of a `uint32_t`. -/
def elementsNumRange : Nat := 2 ^ 32

/-- `BucketHeader`: the linked list `items_` and `elements_num_`. -/
structure BucketHeader (U V : Type) where
  items : List (Entry U V)
  elementsNum : Nat

def BucketHeader.empty : BucketHeader U V where
  items := []
  elementsNum := 0

/-- The loop of `Contains`. -/
def containsLoop (checkKey : InternalKey U) : List (Entry U V) → Bool
  | [] => false
  | k :: rest =>
      if k.1 = checkKey then true
      else if k.1 > checkKey then false
      else containsLoop checkKey rest

def BucketHeader.contains (checkKey : InternalKey U) (b : BucketHeader U V) : Bool :=
  if b.elementsNum = 0 then false else containsLoop checkKey b.items

/-- The loop of `Add` and the insertion before the entry where it ends; `none` if the key
exists.  The loop counts to `elements_num_` and does not look for the end of the list. -/
def addLoop (handle : Entry U V) : (count : Nat) → List (Entry U V) → Option (List (Entry U V))
  | 0, rest => some (handle :: rest)
  | _ + 1, [] => some [handle]
  | count + 1, iter :: rest =>
      if iter.1 = handle.1 then none
      else if iter.1 > handle.1 then some (handle :: iter :: rest)
      else (addLoop handle count rest).map (iter :: ·)

/-- `Add`; `none` if it returns false. -/
def BucketHeader.add (handle : Entry U V) (b : BucketHeader U V) : Option (BucketHeader U V) :=
  (addLoop handle b.elementsNum b.items).map fun items =>
    { items := items, elementsNum := (b.elementsNum + 1) % elementsNumRange }

/-- The entries are handed to the callback until it returns false. -/
def handTo {σ : Type} (callback : σ → Entry U V → σ × Bool) : List (Entry U V) → σ → σ
  | [], args => args
  | e :: rest, args =>
      if (callback args e).2 then handTo callback rest (callback args e).1
      else (callback args e).1

def BucketHeader.get
    {σ : Type} (callback : σ → Entry U V → σ × Bool) (k : LookupKey U) (b : BucketHeader U V)
    (args : σ) : σ :=
  if b.elementsNum = 0 then args
  else handTo callback (b.items.dropWhile fun e => e.1 < k.internalKey) args

variable (hash : U → Nat)

/-- The index of `GetBucket`. -/
def bucketIndex [NeZero n] (userKey : U) : Fin n :=
  ⟨hash userKey % n, Nat.mod_lt _ (NeZero.pos n)⟩

def switchSpdbVectorLimit : Nat := 10000

/-- `SpdbVector`: the part of `items_` that is filled, `n_elements_` and `sorted_`.  The size
of `items_` is the limit before the vector is sorted, and the length of this part after. -/
structure SpdbVector (U V : Type) where
  items : List (Entry U V)
  nElements : Nat
  sorted : Bool

namespace SpdbVector

def new : SpdbVector U V where
  items := []
  nElements := 0
  sorted := false

def isEmpty (v : SpdbVector U V) : Bool :=
  v.nElements = 0

def add (key : Entry U V) (v : SpdbVector U V) : SpdbVector U V × Bool :=
  if v.sorted then (v, false)
  else if v.nElements < switchSpdbVectorLimit then
    ({ v with items := v.items ++ [key], nElements := v.nElements + 1 }, true)
  else ({ v with nElements := v.nElements + 1 }, false)

def sort (v : SpdbVector U V) : SpdbVector U V × Bool :=
  if v.sorted then (v, true)
  else if v.nElements = 0 then (v, false)
  else
    ({ items := v.items.insertionSort fun a b => a.1 ≤ b.1
       nElements := min v.nElements switchSpdbVectorLimit
       sorted := true }, true)

/-- `std::lower_bound` over `items_`. -/
def lowerBound (k : InternalKey U) (v : SpdbVector U V) : Nat :=
  v.items.findIdx fun e => !decide (e.1 < k)

/-- `SeekForward`; the end is the length of the items. -/
def seekForward (seekKey : Option (InternalKey U)) (v : SpdbVector U V) : Nat :=
  match seekKey, v.items.head?, v.items.getLast? with
  | none, _, _ => 0
  | some k, some front, some back =>
      if front.1 ≥ k then 0
      else if back.1 ≥ k then v.lowerBound k
      else v.items.length
  | some _, _, _ => v.items.length

def seekBackword (seekKey : Option (InternalKey U)) (v : SpdbVector U V) : Nat :=
  match seekKey, v.items.head?, v.items.getLast? with
  | none, _, _ => v.items.length - 1
  | some k, some front, some back =>
      if back.1 ≤ k then v.items.length - 1
      else if front.1 ≤ k then
        match v.items[v.lowerBound k]? with
        | some e => if e.1 > k then v.lowerBound k - 1 else v.lowerBound k
        | none => v.lowerBound k
      else v.items.length
  | some _, _, _ => v.items.length

def seek (seekKey : Option (InternalKey U)) (up : Bool) (v : SpdbVector U V) : Nat :=
  if v.isEmpty then v.items.length
  else if up then v.seekForward seekKey
  else v.seekBackword seekKey

end SpdbVector

structure SortHeapItem (U V : Type) where
  vector : SpdbVector U V
  currIter : Nat

namespace SortHeapItem

def valid (item : SortHeapItem U V) : Bool :=
  item.currIter ≠ item.vector.items.length

/-- `Key`. -/
def entry (item : SortHeapItem U V) : Option (Entry U V) :=
  item.vector.items[item.currIter]?

def next (item : SortHeapItem U V) : SortHeapItem U V :=
  { item with currIter := item.currIter + 1 }

def prev (item : SortHeapItem U V) : SortHeapItem U V :=
  if item.currIter = 0 then { item with currIter := item.vector.items.length }
  else { item with currIter := item.currIter - 1 }

end SortHeapItem

/-- `SpdbVectorContainer`.  The last of `spdb_vectors_` is always `curr_vector_`; `full` are
the others. -/
structure SpdbVectorContainer (U V : Type) where
  full : List (SpdbVector U V)
  currVector : SpdbVector U V
  immutable : Bool
  numElements : Nat
  useMerge : Bool

namespace SpdbVectorContainer

def new (useMerge : Bool) : SpdbVectorContainer U V where
  full := []
  currVector := SpdbVector.new
  immutable := false
  numElements := 0
  useMerge := useMerge

def pushBack (c : SpdbVectorContainer U V) : SpdbVectorContainer U V :=
  { c with full := c.full ++ [c.currVector], currVector := SpdbVector.new }

def internalInsert
    (key : Entry U V) (c : SpdbVectorContainer U V) : SpdbVectorContainer U V × Bool :=
  ({ c with currVector := (c.currVector.add key).1 }, (c.currVector.add key).2)

/-- `Insert`: once with the lock of readers, once with that of writers, and once with a new
vector. -/
def insert (key : Entry U V) (c : SpdbVectorContainer U V) : SpdbVectorContainer U V :=
  let c := { c with numElements := c.numElements + 1 }
  if (c.internalInsert key).2 then (c.internalInsert key).1
  else
    let c := (c.internalInsert key).1
    if (c.internalInsert key).2 then (c.internalInsert key).1
    else ((c.internalInsert key).1.pushBack.internalInsert key).1

/-- `IsEmpty(part_of_flush)`. -/
def isEmpty (partOfFlush : Bool) (c : SpdbVectorContainer U V) : Bool :=
  c.numElements = 0 ∨ (c.useMerge = false ∧ partOfFlush = false)

/-- The vectors an iterator takes, and the container afterwards; `none` if it is empty. -/
def initIterator (partOfFlush : Bool) (c : SpdbVectorContainer U V) :
    SpdbVectorContainer U V × Option (List (SpdbVector U V)) :=
  if c.isEmpty partOfFlush then (c, none)
  else if c.immutable then (c, some (c.full ++ [c.currVector]))
  else if c.currVector.isEmpty then (c, some c.full)
  else (c.pushBack, some (c.full ++ [c.currVector]))

/-- `Sort` of one of the vectors, by the thread or by an iterator. -/
def sortVector (i : Nat) (c : SpdbVectorContainer U V) : SpdbVectorContainer U V :=
  if i < c.full.length then { c with full := c.full.modify i fun v => v.sort.1 }
  else { c with currVector := c.currVector.sort.1 }

def markReadOnly (c : SpdbVectorContainer U V) : SpdbVectorContainer U V :=
  { c with immutable := true }

end SpdbVectorContainer

/-- `SpdbVectorIterator`.  The heap holds the positions of its items in `iter_anchor_`.  An
iterator shares its vectors with the container; as nothing is added to them any more, each
has its own copy here. -/
structure SpdbVectorIterator (U V : Type) where
  iterAnchor : List (SortHeapItem U V)
  iterHeap : BinaryHeap Nat
  upIterDirection : Bool
  isEmpty : Bool

namespace SpdbVectorIterator

def new (vectors : Option (List (SpdbVector U V))) : SpdbVectorIterator U V where
  iterAnchor := (vectors.getD []).map fun v => { vector := v, currIter := v.items.length }
  iterHeap := BinaryHeap.empty
  upIterDirection := true
  isEmpty := vectors.isNone

def entry (it : SpdbVectorIterator U V) (i : Nat) : Option (Entry U V) :=
  it.iterAnchor[i]?.bind SortHeapItem.entry

/-- `IteratorComparator`.  Only items that stand at an entry are compared. -/
def comparator (it : SpdbVectorIterator U V) (a b : Nat) : Bool :=
  match it.entry a, it.entry b with
  | some x, some y => if it.upIterDirection then x.1 > y.1 else x.1 < y.1
  | _, _ => false

/-- `Valid` and `key`. -/
def view (it : SpdbVectorIterator U V) : Option (Entry U V) :=
  if it.isEmpty then none else it.iterHeap.top?.bind it.entry

def reset (up : Bool) (it : SpdbVectorIterator U V) : SpdbVectorIterator U V :=
  { it with upIterDirection := up, iterHeap := BinaryHeap.empty }

/-- `iter_heap_info->Insert(iter)`. -/
def insert (i : Nat) (it : SpdbVectorIterator U V) : SpdbVectorIterator U V :=
  { it with iterHeap := it.iterHeap.push it.comparator i }

omit [LinearOrder U] in
def setItem
    (i : Nat) (item : SortHeapItem U V) (it : SpdbVectorIterator U V) : SpdbVectorIterator U V :=
  { it with iterAnchor := it.iterAnchor.set i item }

/-- The vector of an item is sorted, and the item is placed in it. -/
def placedItem (seekKey : Option (InternalKey U)) (up : Bool)
    (item : SortHeapItem U V) : SortHeapItem U V where
  vector := item.vector.sort.1
  currIter := item.vector.sort.1.seek seekKey up

/-- The body of the loop of `SeekIter`. -/
def seekItem (seekKey : Option (InternalKey U)) (it : SpdbVectorIterator U V)
    (i : Nat) : SpdbVectorIterator U V :=
  match it.iterAnchor[i]? with
  | some item =>
      if item.vector.sort.2 then
        if (placedItem seekKey it.upIterDirection item).valid then
          (it.setItem i (placedItem seekKey it.upIterDirection item)).insert i
        else it.setItem i (placedItem seekKey it.upIterDirection item)
      else it
  | none => it

/-- `InternalSeek` after `Reset`. -/
def seekIter (seekKey : Option (InternalKey U)) (up : Bool)
    (it : SpdbVectorIterator U V) : SpdbVectorIterator U V :=
  if it.isEmpty then it
  else (List.range it.iterAnchor.length).foldl (seekItem seekKey) (it.reset up)

def update
    (i : Nat) (item : SortHeapItem U V) (it : SpdbVectorIterator U V) : SpdbVectorIterator U V :=
  let it' := it.setItem i item
  if item.valid then { it' with iterHeap := it'.iterHeap.replaceTop it'.comparator i }
  else { it' with iterHeap := it'.iterHeap.pop it'.comparator }

/-- `Advance`; `none` if there is no top. -/
def advance (it : SpdbVectorIterator U V) : Option (SpdbVectorIterator U V) := do
  let i ← it.iterHeap.top?
  let item ← it.iterAnchor[i]?
  some (it.update i (if it.upIterDirection then item.next else item.prev))

/-- `ReverseDirection`, if the direction is another one; `none` if there is no key. -/
def turn (up : Bool) (it : SpdbVectorIterator U V) : Option (SpdbVectorIterator U V) :=
  if it.upIterDirection = up then some it
  else (it.iterHeap.top?.bind it.entry).map fun e => it.seekIter (some e.1) up

/-- `Next` and `Prev`. -/
def move (up : Bool) (it : SpdbVectorIterator U V) : Option (SpdbVectorIterator U V) :=
  if it.isEmpty then some it else (it.turn up).bind advance

/-- One call.  `Next` and `Prev` require that the iterator is valid. -/
def call (it : SpdbVectorIterator U V) : BidiCall (InternalKey U) → Option (SpdbVectorIterator U V)
  | .call .seekToFirst => some (it.seekIter none true)
  | .call .seekToLast => some (it.seekIter none false)
  | .call (.seek target) => some (it.seekIter (some target) true)
  | .seekForPrev target => some (it.seekIter (some target) false)
  | .call .next => if it.view.isSome then it.move true else none
  | .call .prev => if it.view.isSome then it.move false else none

end SpdbVectorIterator

structure HashSpdbRep (n : Nat) (U V : Type) where
  spdbHashTable : Fin n → BucketHeader U V
  spdbVectorsCont : SpdbVectorContainer U V

namespace HashSpdbRep

variable [NeZero n]

def new (useMerge : Bool) : HashSpdbRep n U V where
  spdbHashTable := fun _ => BucketHeader.empty
  spdbVectorsCont := SpdbVectorContainer.new useMerge

/-- `InsertKey`; `none` if it returns false. -/
def insertKey (e : Entry U V) (r : HashSpdbRep n U V) : Option (HashSpdbRep n U V) :=
  ((r.spdbHashTable (bucketIndex hash e.1.userKey)).add e).map fun bucket =>
    { spdbHashTable := Function.update r.spdbHashTable (bucketIndex hash e.1.userKey) bucket
      spdbVectorsCont := r.spdbVectorsCont.insert e }

def contains (k : InternalKey U) (r : HashSpdbRep n U V) : Bool :=
  if r.spdbVectorsCont.numElements = 0 then false
  else (r.spdbHashTable (bucketIndex hash k.userKey)).contains k

def get {σ : Type} (callback : σ → Entry U V → σ × Bool) (k : LookupKey U) (r : HashSpdbRep n U V)
    (args : σ) : σ :=
  if r.spdbVectorsCont.numElements = 0 then args
  else (r.spdbHashTable (bucketIndex hash k.userKey)).get callback k args

omit [LinearOrder U] in
/-- `GetIterator`, and the memtable afterwards. -/
def getIterator
    (partOfFlush : Bool) (r : HashSpdbRep n U V) : HashSpdbRep n U V × SpdbVectorIterator U V :=
  ({ r with spdbVectorsCont := (r.spdbVectorsCont.initIterator partOfFlush).1 },
    SpdbVectorIterator.new (r.spdbVectorsCont.initIterator partOfFlush).2)

/-- What can happen to a memtable. -/
inductive Op (U V : Type)
  | insertKey (e : Entry U V)
  | getIterator (partOfFlush : Bool)
  | sortVector (i : Nat)
  | markReadOnly

def step (r : HashSpdbRep n U V) : Op U V → HashSpdbRep n U V
  | .insertKey e => (r.insertKey hash e).getD r
  | .getIterator partOfFlush => (r.getIterator partOfFlush).1
  | .sortVector i => { r with spdbVectorsCont := r.spdbVectorsCont.sortVector i }
  | .markReadOnly => { r with spdbVectorsCont := r.spdbVectorsCont.markReadOnly }

def run (useMerge : Bool) (ops : List (Op U V)) : HashSpdbRep n U V :=
  ops.foldl (step hash) (new useMerge)

end HashSpdbRep

end HotTLBApps.Speedb
