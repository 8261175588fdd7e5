import HotTLBApps.Lib.HeapMerge
import HotTLBApps.Speedb.HashSpdbTable

/-!
# Speedb: iterators over the vectors of a memtable

An iterator over vectors that together hold an ordered set `S` is a cursor over `S`.

The invariant (`Seeking`): the iterator goes in a direction, each of its items stands at the
first entry (in that direction) from some point on, and the heap consists of the items that
stand at an entry.  `Facing` collects what the proofs need of a direction, so that each
argument is made once for both.
-/

namespace HotTLBApps.Speedb

open OrderedSet Cursor HeapMerge Heap List Option
open Prod (fst)

variable {U V : Type}

namespace SpdbVectorIterator

variable {S : List (Entry U V)} {it it' : SpdbVectorIterator U V}

def items (it : SpdbVectorIterator U V) (i : Nat) : List (Entry U V) :=
  it.iterAnchor[i]?.elim [] fun item => item.vector.items

variable {i : Nat} {item : SortHeapItem U V}

theorem items_eq (h : it.iterAnchor[i]? = some item) : it.items i = item.vector.items := by
  rw [items, h]
  rfl

theorem entry_eq (h : it.iterAnchor[i]? = some item) : it.entry i = item.entry := by
  rw [entry, h]
  rfl

variable {x : Entry U V}

theorem exists_item (h : it.entry i = some x) :
    ∃ item, it.iterAnchor[i]? = some item ∧ item.entry = some x :=
  bind_eq_some_iff.mp h

theorem mem_items_of_entry (h : it.entry i = some x) : x ∈ it.items i := by
  obtain ⟨item, hitem, hentry⟩ := exists_item h
  rw [items_eq hitem]
  exact mem_of_getElem? hentry

theorem lt_of_entry (h : it.entry i = some x) : i < it.iterAnchor.length := by
  obtain ⟨item, hitem, -⟩ := exists_item h
  exact (List.getElem?_eq_some_iff.mp hitem).1

theorem getElem?_set (hi : i < it.iterAnchor.length) (item : SortHeapItem U V) (j : Nat) :
    (it.iterAnchor.set i item)[j]? = if j = i then some item else it.iterAnchor[j]? := by
  rw [List.getElem?_set, if_pos hi]
  exact if_congr eq_comm rfl rfl

theorem entry_set (hi : i < it.iterAnchor.length)
    (hanchor : it'.iterAnchor = it.iterAnchor.set i item)
    (j : Nat) : it'.entry j = if j = i then item.entry else it.entry j := by
  rw [entry, hanchor, getElem?_set hi]
  split_ifs <;> rfl

theorem items_set (hi : i < it.iterAnchor.length)
    (hanchor : it'.iterAnchor = it.iterAnchor.set i item)
    (j : Nat) : it'.items j = if j = i then item.vector.items else it.items j := by
  rw [items, hanchor, getElem?_set hi]
  split_ifs <;> rfl

theorem entry_next (item : SortHeapItem U V) : item.next.entry =
      Cursor.current item.vector.items (Cursor.next item.vector.items item.currIter) := by
  rw [Cursor.next]
  split_ifs with hnext
  · rfl
  · exact getElem?_eq_none (not_lt.mp hnext)

theorem entry_prev (item : SortHeapItem U V) :
    item.prev.entry = Cursor.current item.vector.items (Cursor.prev item.currIter) := by
  rw [SortHeapItem.prev]
  cases hcurr : item.currIter with
  | zero =>
    rw [if_pos rfl]
    exact getElem?_eq_none le_rfl
  | succ i =>
    rw [if_neg (Nat.succ_ne_zero i)]
    rfl

theorem valid_iff (h : item.currIter ≤ item.vector.items.length) :
    item.valid = true ↔ ∃ y, item.entry = some y := by
  rw [SortHeapItem.valid, decide_eq_true_iff]
  constructor
  · intro hne
    exact ⟨_, getElem?_eq_getElem (lt_of_le_of_ne h hne)⟩
  · rintro ⟨y, hy⟩
    exact (List.getElem?_eq_some_iff.mp hy).1.ne

theorem exists_head_getLast
    (hne : l ≠ []) : ∃ front back, l.head? = some front ∧ l.getLast? = some back :=
  ⟨_, _, head?_eq_some_head hne, getLast?_eq_some_getLast hne⟩

theorem view_eq
    (hnonempty : it.isEmpty = false) : it.view = it.iterHeap.data.head?.bind it.entry := by
  rw [view, if_neg (by rw [hnonempty]; exact Bool.false_ne_true)]
  rfl

variable [LinearOrder U]

/-- The vectors of the iterator hold the entries of a set, each in one of them. -/
structure Shares (S : List (Entry U V)) (it : SpdbVectorIterator U V) : Prop where
  vectorOk : ∀ (i : Nat) (item : SortHeapItem U V), it.iterAnchor[i]? = some item →
    VectorOk item.vector
  nodup : ∀ i, ((it.items i).map fst).Nodup
  mem : ∀ x, x ∈ S ↔ ∃ i, x ∈ it.items i
  unique : ∀ i j x, x ∈ it.items i → x ∈ it.items j → i = j

variable {vs : List (SpdbVector U V)}

theorem shares_new (h : Holds S vs) (hS : Increasing fst S) : Shares S (new (some vs)) := by
  have hanchor : ∀ i : Nat, (new (some vs)).iterAnchor[i]? =
      vs[i]?.map fun v => ⟨v, v.items.length⟩ :=
    fun i => getElem?_map
  have hitems : ∀ i, (new (some vs)).items i = vs[i]?.elim [] SpdbVector.items := by
    intro i
    rw [items, hanchor]
    cases vs[i]? <;> rfl
  have hmem : ∀ i x, x ∈ (new (some vs)).items i ↔ ∃ v, vs[i]? = some v ∧ x ∈ v.items := by
    intro i x
    rw [hitems]
    cases vs[i]? <;> simp
  have hall : (vs.flatMap SpdbVector.items).Nodup :=
    h.perm.nodup_iff.mpr (Nodup.of_map _ hS.nodup_map)
  refine ⟨?_, ?_, ?_, ?_⟩
  · intro i item hitem
    rw [hanchor] at hitem
    obtain ⟨v, hv, rfl⟩ := map_eq_some_iff.mp hitem
    exact h.vectorOk v (mem_of_getElem? hv)
  · intro i
    rw [hitems]
    cases hv : vs[i]? with
    | none => exact nodup_nil
    | some v => exact h.nodup_items hS (mem_of_getElem? hv)
  · intro x
    rw [← h.perm.mem_iff, mem_flatMap]
    simp only [hmem, mem_iff_getElem?]
    constructor
    · rintro ⟨v, ⟨i, hv⟩, hx⟩
      exact ⟨i, v, hv, hx⟩
    · rintro ⟨i, v, hv, hx⟩
      exact ⟨v, ⟨i, hv⟩, hx⟩
  · have hdisjoint := (nodup_flatMap.mp hall).2
    rw [pairwise_iff_getElem] at hdisjoint
    have hlt : ∀ i j x, i < j → x ∈ (new (some vs)).items i → x ∉ (new (some vs)).items j := by
      simp only [hmem]
      rintro i j x hij ⟨v, hvi, hi⟩ ⟨w, hvj, hj⟩
      obtain ⟨hilt, rfl⟩ := List.getElem?_eq_some_iff.mp hvi
      obtain ⟨hjlt, rfl⟩ := List.getElem?_eq_some_iff.mp hvj
      exact hdisjoint i j hilt hjlt hij hi hj
    intro i j x hi hj
    obtain hij | hij | hij := Nat.lt_trichotomy i j
    · exact absurd hj (hlt i j x hij hi)
    · exact hij
    · exact absurd hi (hlt j i x hij hj)

variable {item item' : SortHeapItem U V}

theorem Shares.replace (h : Shares S it) (hitem : it.iterAnchor[i]? = some item)
    (hanchor : it'.iterAnchor = it.iterAnchor.set i item') (hok : VectorOk item'.vector)
    (hperm : item'.vector.items.Perm item.vector.items) : Shares S it' := by
  have hi := (List.getElem?_eq_some_iff.mp hitem).1
  have hget : ∀ j, it'.iterAnchor[j]? = if j = i then some item' else it.iterAnchor[j]? := by
    intro j
    rw [hanchor]
    exact getElem?_set hi item' j
  have hitems : ∀ j, (it'.items j).Perm (it.items j) := by
    intro j
    rw [items, hget]
    split_ifs with hj
    · rw [hj, items_eq hitem]
      exact hperm
    · exact List.Perm.refl _
  refine ⟨?_, ?_, ?_, ?_⟩
  · intro j it'' hj
    rw [hget] at hj
    split_ifs at hj
    · cases hj
      exact hok
    · exact h.vectorOk j it'' hj
  · intro j
    exact ((hitems j).map fst).nodup_iff.mpr (h.nodup j)
  · intro x
    rw [h.mem]
    exact exists_congr fun j => (hitems j).mem_iff.symm
  · intro j k x hj hk
    exact h.unique j k x ((hitems j).mem_iff.mp hj) ((hitems k).mem_iff.mp hk)

variable {κ : Type} [LinearOrder κ] {up : Bool} {ord : Entry U V → κ}

/-- A direction and the order in which it goes through the entries. -/
structure Facing (up : Bool) (ord : Entry U V → κ) : Prop where
  eq_iff : ∀ x y, ord x = ord y ↔ x.1 = y.1
  compares : ∀ it : SpdbVectorIterator U V, it.upIterDirection = up →
    Compares ord it.entry it.comparator
  move : ∀ (item : SortHeapItem U V) (x : Entry U V), Increasing fst item.vector.items →
    item.entry = some x →
    IsFirst ord item.vector.items (fun y => ord x < ord y)
      (if up then item.next else item.prev).entry
  move_valid : ∀ (item : SortHeapItem U V) (x : Entry U V), item.entry = some x →
    ((if up then item.next else item.prev).valid = true ↔
      ∃ y, (if up then item.next else item.prev).entry = some y)
  seek : ∀ (v : SpdbVector U V) (x : Entry U V), Increasing fst v.items → VectorOk v →
    v.nElements ≠ 0 →
    IsFirst ord v.items (fun y => ord x ≤ ord y) v.items[v.seek (some x.1) up]?

/-- `std::lower_bound` is where a cursor stands after a seek. -/
theorem getElem?_lowerBound (v : SpdbVector U V) (k : InternalKey U) :
    v.items[v.lowerBound k]? = Cursor.current v.items (Cursor.seek fst v.items k) := by
  have hpred : (fun e : Entry U V => !decide (e.1 < k)) = fun e => decide (k ≤ e.1) := by
    funext e
    rw [← decide_not, decide_eq_decide]
    exact not_lt
  rw [SpdbVector.lowerBound, Cursor.seek, findIdx?_eq_guard_findIdx_lt, hpred]
  by_cases hlt : findIdx (fun e : Entry U V => decide (k ≤ e.1)) v.items < v.items.length
  · rw [Option.guard, if_pos (decide_eq_true hlt)]
    rfl
  · rw [Option.guard, if_neg (by simpa using hlt)]
    exact getElem?_eq_none (not_lt.mp hlt)

theorem lowerBound_le (v : SpdbVector U V) (k : InternalKey U) : v.lowerBound k ≤ v.items.length :=
  findIdx_le_length

variable {l : List (Entry U V)}

section

variable (hsorted : Increasing fst l)
include hsorted

theorem head_le {front y : Entry U V}
    (hfront : l.head? = some front) (hy : y ∈ l) : front.1 ≤ y.1 := by
  obtain ⟨rest, rfl⟩ := head?_eq_some_iff.mp hfront
  obtain rfl | hy := mem_cons.mp hy
  · exact le_rfl
  · exact ((pairwise_cons.mp hsorted).1 y hy).le

theorem le_getLast {back y : Entry U V}
    (hback : l.getLast? = some back) (hy : y ∈ l) : y.1 ≤ back.1 := by
  obtain ⟨rest, rfl⟩ := getLast?_eq_some_iff.mp hback
  obtain hy | hy := mem_append.mp hy
  · exact ((pairwise_append.mp hsorted).2.2 y hy back mem_cons_self).le
  · rw [mem_singleton.mp hy]

variable {p : Entry U V → Prop}

theorem isFirst_head (hne : l ≠ []) (hp : ∀ y ∈ l, p y) : IsFirst fst l p l[0]? := by
  have hfirst := isFirst_seekToFirst hsorted
  rw [seekToFirst, if_neg (by rwa [length_eq_zero_iff])] at hfirst
  exact hfirst.congr fun y hy => ⟨fun _ => hp y hy, fun _ => trivial⟩

theorem isLast_last (hne : l ≠ []) (hp : ∀ y ∈ l, p y) : IsLast fst l p l[l.length - 1]? := by
  have hlast := isLast_seekToLast hsorted
  rw [seekToLast, if_neg (by rwa [length_eq_zero_iff])] at hlast
  exact IsFirst.congr hlast fun y hy => ⟨fun _ => hp y hy, fun _ => trivial⟩

end

variable {v : SpdbVector U V}

theorem isFirst_seekForward (hsorted : Increasing fst v.items) (hne : v.items ≠ [])
    (k : InternalKey U) :
    IsFirst fst v.items (fun y => k ≤ y.1) v.items[v.seekForward (some k)]? := by
  obtain ⟨front, back, hfront, hback⟩ := exists_head_getLast hne
  unfold SpdbVector.seekForward
  rw [hfront, hback]
  dsimp only
  split_ifs with hk hk'
  · exact isFirst_head hsorted hne fun y hy => le_trans hk (head_le hsorted hfront hy)
  · rw [getElem?_lowerBound]
    exact isFirst_seek hsorted k
  · rw [getElem?_eq_none le_rfl]
    refine ⟨nofun, fun y hy hky => ?_⟩
    exact absurd (hky.trans (le_getLast hsorted hback hy)) hk'

theorem isLast_seekBackword (hsorted : Increasing fst v.items) (hne : v.items ≠ [])
    (k : InternalKey U) :
    IsLast fst v.items (fun y => y.1 ≤ k) v.items[v.seekBackword (some k)]? := by
  obtain ⟨front, back, hfront, hback⟩ := exists_head_getLast hne
  unfold SpdbVector.seekBackword
  rw [hfront, hback]
  dsimp only
  split_ifs with hk hk'
  · exact isLast_last hsorted hne fun y hy => (le_getLast hsorted hback hy).trans hk
  · have hseek := isFirst_seek hsorted k
    rw [← getElem?_lowerBound] at hseek
    obtain ⟨e, he, -⟩ := hseek.least back (mem_of_getLast? hback) (not_le.mp hk).le
    obtain ⟨hemem, hke⟩ := hseek.mem e he
    rw [mem_def] at he
    rw [he] at hseek ⊢
    dsimp only
    split_ifs with hgt
    · obtain ⟨i, hi⟩ : ∃ i, v.lowerBound k = i + 1 := by
        refine Nat.exists_eq_succ_of_ne_zero fun hzero => ?_
        rw [hzero, ← head?_eq_getElem?, hfront] at he
        cases he
        exact absurd hk' (not_le.mpr hgt)
      have hprev := isLast_prev hsorted he
      rw [hi] at hprev ⊢
      refine IsFirst.congr hprev fun y hy => ⟨fun hye => ?_, fun hyk => hyk.trans_lt hgt⟩
      by_contra hky
      exact absurd hye (not_lt.mpr (hseek.le hy (not_le.mp hky).le))
    · rw [he]
      refine isLast_iff.mpr ⟨?_, fun y _ hyk => ⟨e, rfl, hyk.trans hke⟩⟩
      rintro _ ⟨⟩
      exact ⟨hemem, not_lt.mp hgt⟩
  · rw [getElem?_eq_none le_rfl]
    refine isLast_iff.mpr ⟨nofun, fun y hy hyk => ?_⟩
    exact absurd ((head_le hsorted hfront hy).trans hyk) hk'

theorem seek_le (v : SpdbVector U V) (seekKey : Option (InternalKey U))
    (up : Bool) : v.seek seekKey up ≤ v.items.length := by
  unfold SpdbVector.seek SpdbVector.seekForward SpdbVector.seekBackword
  repeat' split
  all_goals
    first
      | omega
      | exact lowerBound_le v _
      | exact (Nat.sub_le _ _).trans (lowerBound_le v _)

/-- What a seek has to do in one vector. -/
def Places (ord : Entry U V → κ) (p : Entry U V → Prop) (seekKey : Option (InternalKey U))
    (up : Bool) : Prop :=
  ∀ v : SpdbVector U V, Increasing fst v.items → VectorOk v → v.nElements ≠ 0 →
    IsFirst ord v.items p v.items[v.seek seekKey up]?

theorem places (seekKey : Option (InternalKey U))
    (h : ∀ v : SpdbVector U V, Increasing fst v.items → v.items ≠ [] → IsFirst ord v.items p
      v.items[if up then v.seekForward seekKey else v.seekBackword seekKey]?) :
    Places ord p seekKey up := by
  intro v hsorted hok hne
  rw [SpdbVector.seek, SpdbVector.isEmpty, if_neg (by simpa using hne)]
  exact h v hsorted (hok.items_ne_nil hne)

theorem facing_up : Facing true (fst : Entry U V → InternalKey U) where
  eq_iff _ _ := Iff.rfl
  compares it hup a b x y ha hb := by
    rw [comparator, ha, hb]
    dsimp only
    rw [if_pos hup, decide_eq_true_iff]
  move item x hsorted hentry := by
    rw [if_pos rfl, entry_next]
    exact isFirst_next hsorted hentry
  move_valid item x hentry := by
    rw [if_pos rfl]
    have hle : item.next.currIter ≤ item.next.vector.items.length :=
      (List.getElem?_eq_some_iff.mp hentry).1
    exact valid_iff hle
  seek v x := places _ (fun _ hsorted hnil => isFirst_seekForward hsorted hnil x.1) v

theorem facing_down : Facing false fun x : Entry U V => OrderDual.toDual x.1 where
  eq_iff _ _ := OrderDual.toDual_inj
  compares it hup a b x y ha hb := by
    rw [comparator, ha, hb]
    dsimp only
    rw [if_neg (by rw [hup]; decide), decide_eq_true_iff]
    exact Iff.rfl
  move item x hsorted hentry := by
    rw [if_neg Bool.false_ne_true, entry_prev]
    exact isLast_prev hsorted hentry
  move_valid item x hentry := by
    rw [if_neg Bool.false_ne_true]
    have hlt := (List.getElem?_eq_some_iff.mp hentry).1
    have hle : item.prev.currIter ≤ item.prev.vector.items.length := by
      rw [SortHeapItem.prev]
      split_ifs
      · exact le_rfl
      · exact (Nat.sub_le _ _).trans hlt.le
    exact valid_iff hle
  seek v x :=
    have hplaces : Places (fun x : Entry U V => OrderDual.toDual x.1) _ (some x.1) false :=
      places _ fun _ hsorted hnil => isLast_seekBackword hsorted hnil x.1
    hplaces v

/-- The heap consists of those of the first `m` items that stand at an entry. -/
structure Built (m : Nat) (it : SpdbVectorIterator U V) : Prop where
  nodup : it.iterHeap.data.Nodup
  mem : ∀ i, i ∈ it.iterHeap.data ↔ i < m ∧ ∃ x, it.entry i = some x
  ok : BinaryHeap.Ok it.comparator it.iterHeap

/-- The first `m` items stand at their first entries with a property. -/
structure Seeking
    (ord : Entry U V → κ) (p : Entry U V → Prop) (S : List (Entry U V)) (up : Bool) (m : Nat)
    (it : SpdbVectorIterator U V) : Prop where
  direction : it.upIterDirection = up
  shares : Shares S it
  sorted : ∀ i < m, Increasing fst (it.items i)
  built : Built m it
  first : ∀ i < m, IsFirst ord (it.items i) p (it.entry i)

theorem comparator_congr (hup : it'.upIterDirection = it.upIterDirection) {a b : Nat}
    (ha : it'.entry a = it.entry a)
    (hb : it'.entry b = it.entry b) : it.comparator a b = it'.comparator a b := by
  rw [comparator, comparator, ha, hb, hup]

variable {m : Nat}

theorem Built.mem_succ (h : Built m it) (i : Nat) : (i < m + 1 ∧ ∃ x, it.entry i = some x) ↔
      i ∈ it.iterHeap.data ∨ (i = m ∧ ∃ x, it.entry m = some x) := by
  rw [h.mem i, Nat.lt_succ_iff_lt_or_eq, or_and_right]
  refine or_congr_right (and_congr_right fun hi => ?_)
  rw [hi]

theorem Facing.insert (h : Facing up ord) (hbuilt : Built m it)
    (hdirection : it.upIterDirection = up)
    (hx : it.entry m = some x) : Built (m + 1) (it.insert m) := by
  have hentries : ∀ i ∈ m :: it.iterHeap.data, ∃ x, it.entry i = some x := by
    intro i hi
    obtain rfl | hi := mem_cons.mp hi
    · exact ⟨x, hx⟩
    · exact ((hbuilt.mem i).mp hi).2
  obtain ⟨hperm, hok'⟩ :=
    BinaryHeap.push_spec hbuilt.ok ((h.compares it hdirection).strictWeak hentries)
  refine ⟨?_, ?_, hok'⟩
  · refine hperm.nodup_iff.mpr (nodup_cons.mpr ⟨?_, hbuilt.nodup⟩)
    intro hm
    exact absurd ((hbuilt.mem m).mp hm).1 (lt_irrefl m)
  · intro i
    change i ∈ (it.iterHeap.push it.comparator m).data ↔ i < m + 1 ∧ ∃ x, it.entry i = some x
    rw [hperm.mem_iff, hbuilt.mem_succ]
    simp [hx, or_comm]

theorem Built.skip (h : Built m it) (hnone : it.entry m = none) : Built (m + 1) it := by
  refine ⟨h.nodup, fun i => ?_, h.ok⟩
  rw [h.mem_succ]
  simp [hnone]

/-- The items before `m` do not notice that `m` is changed. -/
theorem Built.replace (h : Built m it)
    (hm : m < it.iterAnchor.length) : Built m (it.setItem m item) := by
  have hentry : ∀ i, i ≠ m → (it.setItem m item).entry i = it.entry i := by
    intro i hi
    rw [entry_set hm rfl, if_neg hi]
  refine ⟨h.nodup, fun i => (h.mem i).trans (and_congr_right fun hi => ?_),
    h.ok.congr fun a ha b hb => ?_⟩
  · rw [hentry i hi.ne]
  · have hup : (it.setItem m item).upIterDirection = it.upIterDirection := rfl
    exact comparator_congr hup (hentry a ((h.mem a).mp ha).1.ne) (hentry b ((h.mem b).mp hb).1.ne)

variable {seekKey : Option (InternalKey U)}

/-- **One round of the loop of `SeekIter`.** -/
theorem Facing.seekItem (h : Facing up ord) (hplaces : Places ord p seekKey up)
    (hm : m < it.iterAnchor.length) (hs : Seeking ord p S up m it) :
    Seeking ord p S up (m + 1) (it.seekItem seekKey m) ∧
      (it.seekItem seekKey m).iterAnchor.length = it.iterAnchor.length ∧
      (it.seekItem seekKey m).isEmpty = it.isEmpty := by
  obtain ⟨item, hitem⟩ : ∃ item, it.iterAnchor[m]? = some item :=
    ⟨_, getElem?_eq_getElem hm⟩
  have hok := hs.shares.vectorOk m item hitem
  have hnodup := hs.shares.nodup m
  rw [items_eq hitem] at hnodup
  obtain ⟨hok', hperm, hsorted, hfailed⟩ := hok.sort hnodup
  rw [SpdbVectorIterator.seekItem, hitem]
  dsimp only
  by_cases hsort : item.vector.sort.2 = true
  · -- the vector is sorted and has entries
    obtain ⟨hincreasing, hnonempty⟩ := hsorted hsort
    have hfirst : IsFirst ord (placedItem seekKey it.upIterDirection item).vector.items p
        (placedItem seekKey it.upIterDirection item).entry := by
      rw [hs.direction]
      exact hplaces item.vector.sort.1 hincreasing hok' hnonempty
    have hvalid : (placedItem seekKey it.upIterDirection item).valid = true ↔ _ :=
      valid_iff (seek_le _ _ _)
    have hshares : Shares S (it.setItem m (placedItem seekKey it.upIterDirection item)) :=
      hs.shares.replace hitem rfl hok' hperm
    have hplaced : Increasing fst
        (placedItem seekKey it.upIterDirection item).vector.items := hincreasing
    rw [if_pos hsort]
    generalize placedItem seekKey it.upIterDirection item = item' at hfirst hvalid hshares hplaced ⊢
    have hreplaced : Built m (it.setItem m item') := hs.built.replace hm
    have hentry : (it.setItem m item').entry m = item'.entry := by rw [entry_set hm rfl, if_pos rfl]
    have hincreasing' : ∀ i < m + 1, Increasing fst ((it.setItem m item').items i) := by
      intro i hi
      rw [items_set hm rfl]
      split_ifs
      · exact hplaced
      · exact hs.sorted i (by omega)
    have hall : ∀ i < m + 1,
        IsFirst ord ((it.setItem m item').items i) p ((it.setItem m item').entry i) := by
      intro i hi
      rw [entry_set hm rfl, items_set hm rfl]
      split_ifs
      · exact hfirst
      · exact hs.first i (by omega)
    split_ifs with hv
    · obtain ⟨x, hx⟩ := hvalid.mp hv
      have hbuilt := h.insert hreplaced hs.direction (hentry.trans hx)
      exact ⟨⟨hs.direction, ⟨hshares.1, hshares.2, hshares.3, hshares.4⟩, hincreasing', hbuilt,
        hall⟩, length_set, rfl⟩
    · have hnone : item'.entry = none := by
        cases hx : item'.entry with
        | none => rfl
        | some x => exact absurd (hvalid.mpr ⟨x, hx⟩) hv
      exact ⟨⟨hs.direction, hshares, hincreasing', hreplaced.skip (hentry.trans hnone), hall⟩,
        length_set, rfl⟩
  · -- an empty vector
    rw [if_neg hsort]
    have hnil := hfailed (Bool.eq_false_iff.mpr hsort)
    have hnone : it.entry m = none := by
      rw [entry_eq hitem, SortHeapItem.entry, hnil]
      rfl
    refine ⟨⟨hs.direction, hs.shares, ?_, hs.built.skip hnone, ?_⟩, rfl, rfl⟩
    · intro i hi
      obtain hi | rfl := Nat.lt_succ_iff_lt_or_eq.mp hi
      · exact hs.sorted i hi
      · rw [items_eq hitem, hnil]
        exact Pairwise.nil
    · intro i hi
      obtain hi | rfl := Nat.lt_succ_iff_lt_or_eq.mp hi
      · exact hs.first i hi
      · rw [hnone, items_eq hitem, hnil]
        exact ⟨nofun, nofun⟩

/-- **`SeekIter`** places all items and builds the heap. -/
theorem Facing.seekIter (h : Facing up ord) (hplaces : Places ord p seekKey up)
    (hshares : Shares S it) (hnonempty : it.isEmpty = false) :
    Seeking ord p S up (it.seekIter seekKey up).iterAnchor.length (it.seekIter seekKey up) ∧
      (it.seekIter seekKey up).isEmpty = false := by
  have hloop : ∀ m ≤ it.iterAnchor.length,
      ∃ it', (range m).foldl (SpdbVectorIterator.seekItem seekKey) (it.reset up) = it' ∧
        Seeking ord p S up m it' ∧ it'.iterAnchor.length = it.iterAnchor.length ∧
        it'.isEmpty = false := by
    intro m
    induction m with
    | zero =>
      intro _
      refine ⟨_, rfl, ⟨rfl, ⟨hshares.1, hshares.2, hshares.3, hshares.4⟩, nofun,
        ⟨nodup_nil, fun i => ?_, BinaryHeap.ok_empty⟩, nofun⟩, rfl, hnonempty⟩
      exact iff_of_false not_mem_nil fun hi => absurd hi.1 (Nat.not_lt_zero i)
    | succ m ih =>
      intro hm
      obtain ⟨it', hfold, hs, hlength, hempty⟩ := ih (by omega)
      rw [range_succ, foldl_append, hfold, foldl_cons, foldl_nil]
      obtain ⟨hs', hlength', hempty'⟩ := h.seekItem hplaces (by omega) hs
      exact ⟨_, rfl, hs', hlength'.trans hlength, hempty'.trans hempty⟩
  obtain ⟨it', hfold, hs, hlength, hempty⟩ := hloop it.iterAnchor.length le_rfl
  rw [SpdbVectorIterator.seekIter, if_neg (by rw [hnonempty]; exact Bool.false_ne_true), hfold,
    hlength]
  exact ⟨hs, hempty⟩

theorem Built.mem_iff (h : Built it.iterAnchor.length it)
    (i : Nat) : i ∈ it.iterHeap.data ↔ ∃ x, it.entry i = some x := by
  rw [h.mem i]
  refine and_iff_right_of_imp ?_
  rintro ⟨x, hx⟩
  exact lt_of_entry hx

theorem Seeking.isFirst (hs : Seeking ord p S up it.iterAnchor.length it)
    (i : Nat) : IsFirst ord (it.items i) p (it.entry i) := by
  by_cases hi : i < it.iterAnchor.length
  · exact hs.first i hi
  · have hnone := getElem?_eq_none (not_lt.mp hi)
    rw [items, entry, hnone]
    exact ⟨nofun, nofun⟩

/-- **The iterator shows** the first entry of all. -/
theorem Facing.isFirst_view (h : Facing up ord) (hs : Seeking ord p S up it.iterAnchor.length it)
    (hnonempty : it.isEmpty = false) : IsFirst ord S p it.view := by
  rw [view_eq hnonempty]
  exact (h.compares it hs.direction).isFirst_top hs.built.mem_iff hs.built.ok.isHeap hs.shares.mem
    hs.isFirst

/-- The items that stand at an entry after the top was moved. -/
theorem Facing.update (h : Facing up ord) {rest : List Nat}
    (hdirection : it.upIterDirection = up) (hbuilt : Built it.iterAnchor.length it)
    (hdata : it.iterHeap.data = i :: rest) (hitem : it.iterAnchor[i]? = some item)
    (hvalid : item'.valid = true ↔ ∃ y, item'.entry = some y) :
    Built (it.update i item').iterAnchor.length (it.update i item') ∧
      (it.update i item').iterAnchor = it.iterAnchor.set i item' ∧
      (it.update i item').upIterDirection = up ∧
      (it.update i item').isEmpty = it.isEmpty := by
  have hi := (List.getElem?_eq_some_iff.mp hitem).1
  have hnodup := hbuilt.nodup
  have hmem := hbuilt.mem_iff
  rw [hdata] at hnodup hmem
  obtain ⟨hirest, hrest⟩ := nodup_cons.mp hnodup
  rw [SpdbVectorIterator.update]
  have hanchor : (it.setItem i item').iterAnchor = it.iterAnchor.set i item' := rfl
  have hheap : (it.setItem i item').iterHeap = it.iterHeap := rfl
  have hup : (it.setItem i item').upIterDirection = it.upIterDirection := rfl
  have hempty : (it.setItem i item').isEmpty = it.isEmpty := rfl
  generalize it.setItem i item' = moved at hanchor hheap hup hempty ⊢
  have hentry : ∀ j ∈ rest, moved.entry j = it.entry j := by
    intro j hj
    have hji : j ≠ i := fun heq => hirest (heq ▸ hj)
    rw [entry_set hi hanchor, if_neg hji]
  have hself : moved.entry i = item'.entry := by rw [entry_set hi hanchor, if_pos rfl]
  -- the other items are compared as before
  have hloose : BinaryHeap.Loose moved.comparator moved.iterHeap := by
    rw [hheap]
    refine hbuilt.ok.loose fun a ha b hb => ?_
    rw [hdata] at ha hb
    exact comparator_congr hup (hentry a ha) (hentry b hb)
  have hstand : ∀ j ∈ rest, ∃ x, moved.entry j = some x := by
    intro j hj
    rw [hentry j hj]
    exact (hmem j).mp (mem_cons_of_mem _ hj)
  have hcompares := h.compares moved (hup.trans hdirection)
  have hmoved : ∀ j, (j < moved.iterAnchor.length ∧ ∃ x, moved.entry j = some x) ↔
      j ∈ rest ∨ (j = i ∧ ∃ y, item'.entry = some y) := by
    intro j
    rw [and_iff_right_of_imp fun ⟨_, hx⟩ => lt_of_entry hx]
    by_cases hji : j = i
    · simp [hji, hself, hirest]
    · rw [entry_set hi hanchor, if_neg hji, ← hmem j]
      simp [hji]
  have hdata' : moved.iterHeap.data = i :: rest := by rw [hheap, hdata]
  split_ifs with hv
  · obtain ⟨y, hy⟩ := hvalid.mp hv
    have hall : ∀ j ∈ i :: rest, ∃ x, moved.entry j = some x := by
      intro j hj
      obtain rfl | hj := mem_cons.mp hj
      · exact ⟨y, hself.trans hy⟩
      · exact hstand j hj
    obtain ⟨hperm, hok⟩ :=
      BinaryHeap.replaceTop_spec hloose hdata' (hcompares.strictWeak hall)
    refine ⟨⟨hperm.nodup_iff.mpr hnodup, fun j => ?_, hok⟩, hanchor, hup.trans hdirection, hempty⟩
    change j ∈ (moved.iterHeap.replaceTop moved.comparator i).data ↔
      j < moved.iterAnchor.length ∧ ∃ x, moved.entry j = some x
    rw [hperm.mem_iff, hmoved]
    simp [hy, or_comm]
  · obtain ⟨hperm, hok⟩ := BinaryHeap.pop_spec hloose hdata' (hcompares.strictWeak hstand)
    refine ⟨⟨hperm.nodup_iff.mpr hrest, fun j => ?_, hok⟩, hanchor, hup.trans hdirection, hempty⟩
    change j ∈ (moved.iterHeap.pop moved.comparator).data ↔
      j < moved.iterAnchor.length ∧ ∃ x, moved.entry j = some x
    rw [hperm.mem_iff, hmoved, ← hvalid]
    simp [hv]

/-- Each item stands at its first entry from some point on. -/
def Standing
    (ord : Entry U V → κ) (S : List (Entry U V)) (up : Bool) (it : SpdbVectorIterator U V) : Prop :=
  ∃ p : Entry U V → Prop, (∀ x y, ord x ≤ ord y → p x → p y) ∧
    Seeking ord p S up it.iterAnchor.length it

section

variable (h : Facing up ord) (hS : Increasing fst S)
include h hS

/-- **`Advance`**: the first entry after the one that was shown. -/
theorem Facing.advance (hs : Seeking ord (fun y => ord x ≤ ord y) S up it.iterAnchor.length it)
    (hnonempty : it.isEmpty = false) (hview : it.view = some x) :
    ∃ it', it.advance = some it' ∧ it'.isEmpty = false ∧
      Seeking ord (fun y => ord x < ord y) S up it'.iterAnchor.length it' := by
  rw [view_eq hnonempty] at hview
  obtain ⟨i, htop, hentry⟩ := Option.bind_eq_some_iff.mp hview
  obtain ⟨rest, hdata⟩ := List.head?_eq_some_iff.mp htop
  obtain ⟨item, hitem, hx⟩ := exists_item hentry
  have hi := (List.getElem?_eq_some_iff.mp hitem).1
  have hmoved := h.move item x (items_eq hitem ▸ hs.sorted i hi) hx
  have hvalid := h.move_valid item x hx
  have hdirection := hs.direction
  have hadvance : it.advance = some (it.update i (if up then item.next else item.prev)) := by
    have htop' : it.iterHeap.top? = some i := htop
    rw [SpdbVectorIterator.advance, htop']
    simp only [bind_eq_bind, bind_some, hitem, hdirection]
  have hvector : (if up then item.next else item.prev).vector = item.vector := by
    cases up with
    | false =>
      rw [if_neg Bool.false_ne_true, SortHeapItem.prev]
      split_ifs <;> rfl
    | true => rfl
  generalize (if up then item.next else item.prev) = item' at hmoved hvalid hadvance hvector
  obtain ⟨hbuilt, hanchor, hup, hempty⟩ := h.update hdirection hs.built hdata hitem hvalid
  have hlength : (it.update i item').iterAnchor.length = it.iterAnchor.length := by
    rw [hanchor, length_set]
  refine ⟨_, hadvance, hempty.trans hnonempty, hup, ?_, ?_, hbuilt, ?_⟩
  · refine hs.shares.replace hitem hanchor ?_ ?_
    · rw [hvector]
      exact hs.shares.vectorOk i item hitem
    · rw [hvector]
  · intro j hj
    rw [items_set hi hanchor, hvector, ← items_eq hitem]
    split_ifs
    · exact hs.sorted i hi
    · exact hs.sorted j (hlength ▸ hj)
  · intro j _
    rw [entry_set hi hanchor, items_set hi hanchor]
    split_ifs with hj
    · rw [hvector]
      exact hmoved
    · refine (hs.isFirst j).congr fun y hy => ⟨fun hle => lt_of_le_of_ne hle fun heq => ?_, le_of_lt⟩
      -- the entry that was shown is in one vector only
      have hxi : x ∈ it.items i := mem_items_of_entry hentry
      have hxy : x = y := eq_of_key_eq hS ((hs.shares.mem x).mpr ⟨i, hxi⟩)
        ((hs.shares.mem y).mpr ⟨j, hy⟩) ((h.eq_iff x y).mp heq)
      exact hj (hs.shares.unique j i y hy (hxy ▸ hxi))

/-- The direction is changed if necessary, and the iterator shows the same entry. -/
theorem Facing.turn (hshares : Shares S it)
    (hstanding : it.upIterDirection = up → Standing ord S up it) (hnonempty : it.isEmpty = false)
    (hview : it.view = some x) (hx : x ∈ S) :
    ∃ it', it.turn up = some it' ∧ it'.isEmpty = false ∧ it'.view = some x ∧
      Seeking ord (fun y => ord x ≤ ord y) S up it'.iterAnchor.length it' := by
  rw [SpdbVectorIterator.turn]
  split_ifs with hdirection
  · obtain ⟨p, hupper, hs⟩ := hstanding hdirection
    have hfirst := h.isFirst_view hs hnonempty
    rw [hview] at hfirst
    refine ⟨it, rfl, hnonempty, hview, hs.direction, hs.shares, hs.sorted, hs.built, ?_⟩
    intro i hi
    refine (hs.first i hi).congr fun y hy => ⟨fun hp => ?_, fun hle => ?_⟩
    · exact hfirst.le ((hs.shares.mem y).mpr ⟨i, hy⟩) hp
    · exact hupper x y hle (hfirst.mem x rfl).2
  · have htop : it.iterHeap.top?.bind it.entry = some x := (view_eq hnonempty).symm.trans hview
    obtain ⟨hs, hempty⟩ := h.seekIter (fun v => h.seek v x) hshares hnonempty
    rw [htop]
    refine ⟨_, rfl, hempty, ?_, hs⟩
    -- the first entry that is not before `x` is `x`
    have hfirst := h.isFirst_view hs hempty
    have hself : IsFirst ord S (fun y => ord x ≤ ord y) (some x) :=
      isFirst_some hx le_rfl fun _ _ hle => hle
    refine hfirst.unique (fun y hy z hz heq => ?_) hself
    exact eq_of_key_eq hS hy hz ((h.eq_iff y z).mp heq)

/-- **`Next` and `Prev`**: the first entry after the one that was shown. -/
theorem Facing.next (hshares : Shares S it)
    (hstanding : it.upIterDirection = up → Standing ord S up it) (hnonempty : it.isEmpty = false)
    (hview : it.view = some x) (hx : x ∈ S) :
    ∃ it', it.move up = some it' ∧ it'.isEmpty = false ∧ Standing ord S up it' ∧
      IsFirst ord S (fun y => ord x < ord y) it'.view := by
  obtain ⟨it₁, hturn, hempty₁, hview₁, hs₁⟩ :=
    h.turn hS hshares hstanding hnonempty hview hx
  obtain ⟨it₂, hadvance, hempty₂, hs₂⟩ := h.advance hS hs₁ hempty₁ hview₁
  refine ⟨it₂, ?_, hempty₂, ⟨_, fun y z hle hlt => lt_of_lt_of_le hlt hle, hs₂⟩,
    h.isFirst_view hs₂ hempty₂⟩
  rw [SpdbVectorIterator.move, if_neg (by rw [hnonempty]; exact Bool.false_ne_true), hturn]
  exact hadvance

end

/-- What holds between the calls.  Before the first seek the vectors may be unsorted. -/
structure Ready (S : List (Entry U V)) (it : SpdbVectorIterator U V) : Prop where
  nonempty : it.isEmpty = false
  shares : Shares S it
  forward : it.view.isSome → it.upIterDirection = true → Standing fst S true it
  reverse : it.view.isSome → it.upIterDirection = false →
    Standing (fun x : Entry U V => OrderDual.toDual x.1) S false it

theorem Standing.shares (h : Standing ord S up it) : Shares S it := by
  obtain ⟨p, -, hs⟩ := h
  exact hs.shares

theorem Standing.direction (h : Standing ord S up it) : it.upIterDirection = up := by
  obtain ⟨p, -, hs⟩ := h
  exact hs.direction

theorem Standing.ready_forward (h : Standing fst S true it)
    (hnonempty : it.isEmpty = false) : Ready S it :=
  ⟨hnonempty, h.shares, fun _ _ => h, fun _ hup => absurd (h.direction.symm.trans hup) (by decide)⟩

theorem Standing.ready_reverse (h : Standing (fun x : Entry U V => OrderDual.toDual x.1) S false it)
    (hnonempty : it.isEmpty = false) : Ready S it :=
  ⟨hnonempty, h.shares, fun _ hup => absurd (h.direction.symm.trans hup) (by decide), fun _ _ => h⟩

theorem ready_new (h : Holds S vs) (hS : Increasing fst S) : Ready S (new (some vs)) :=
  ⟨rfl, shares_new h hS, nofun, nofun⟩

theorem Ready.view_mem (h : Ready S it) (hview : it.view = some x) : x ∈ S := by
  rw [view_eq h.nonempty] at hview
  obtain ⟨i, -, hentry⟩ := bind_eq_some_iff.mp hview
  exact (h.shares.mem x).mpr ⟨i, mem_items_of_entry hentry⟩

theorem Ready.seekForward (h : Ready S it) (hupper : ∀ x y : Entry U V, x.1 ≤ y.1 → p x → p y)
    (hplaces : Places fst p seekKey true) : Ready S (it.seekIter seekKey true) ∧
      IsFirst fst S p (it.seekIter seekKey true).view := by
  obtain ⟨hs, hempty⟩ := facing_up.seekIter hplaces h.shares h.nonempty
  have hstanding : Standing fst S true (it.seekIter seekKey true) := ⟨p, hupper, hs⟩
  exact ⟨hstanding.ready_forward hempty, facing_up.isFirst_view hs hempty⟩

theorem Ready.seekBackward (h : Ready S it) (hlower : ∀ x y : Entry U V, y.1 ≤ x.1 → p x → p y)
    (hplaces : Places (fun x : Entry U V => OrderDual.toDual x.1) p seekKey false) :
    Ready S (it.seekIter seekKey false) ∧ IsLast fst S p (it.seekIter seekKey false).view := by
  obtain ⟨hs, hempty⟩ := facing_down.seekIter hplaces h.shares h.nonempty
  have hstanding : Standing (fun x : Entry U V => OrderDual.toDual x.1) S false
      (it.seekIter seekKey false) := ⟨p, hlower, hs⟩
  exact ⟨hstanding.ready_reverse hempty, facing_down.isFirst_view hs hempty⟩

/-- **The iterator does in each call what a cursor does.** -/
theorem iterator_behaves (hS : Increasing fst S) :
    BidiBehaves fst S (call : SpdbVectorIterator U V → _) view (Ready S) where
  base :=
    { seekToFirst := by
        intro it h
        obtain ⟨hready, hfirst⟩ := h.seekForward (fun _ _ _ hp => hp) <|
          places none fun v hsorted hnil => isFirst_head hsorted hnil fun _ _ => trivial
        exact ⟨_, rfl, hready, hfirst⟩
      seekToLast := by
        intro it h
        obtain ⟨hready, hlast⟩ := h.seekBackward (fun _ _ _ hp => hp) <|
          places none fun v hsorted hnil => isLast_last hsorted hnil fun _ _ => trivial
        exact ⟨_, rfl, hready, hlast⟩
      seek := by
        intro it target h
        obtain ⟨hready, hfirst⟩ := h.seekForward (fun _ _ hle hp => le_trans hp hle) <|
          places (some target) fun v hsorted hnil => isFirst_seekForward hsorted hnil target
        exact ⟨_, rfl, hready, hfirst⟩
      next := by
        intro it x h hview
        obtain ⟨it', hmove, hempty, hstanding, hfirst⟩ :=
          facing_up.next hS h.shares (h.forward (by rw [hview]; rfl)) h.nonempty hview
            (h.view_mem hview)
        refine ⟨it', ?_, hstanding.ready_forward hempty, hfirst⟩
        change (if it.view.isSome then it.move true else none) = some it'
        rw [hview]
        exact hmove
      prev := by
        intro it x h hview
        obtain ⟨it', hmove, hempty, hstanding, hlast⟩ :=
          facing_down.next hS h.shares (h.reverse (by rw [hview]; rfl)) h.nonempty hview
            (h.view_mem hview)
        refine ⟨it', ?_, hstanding.ready_reverse hempty, hlast⟩
        change (if it.view.isSome then it.move false else none) = some it'
        rw [hview]
        exact hmove
      next_none := by
        intro it _ hview
        change (if it.view.isSome then it.move true else none) = none
        rw [hview]
        rfl
      prev_none := by
        intro it _ hview
        change (if it.view.isSome then it.move false else none) = none
        rw [hview]
        rfl }
  seekForPrev := by
    intro it target h
    obtain ⟨hready, hlast⟩ := h.seekBackward (fun _ _ hle hp => le_trans hle hp) <|
      places (some target) fun v hsorted hnil => isLast_seekBackword hsorted hnil target
    exact ⟨_, rfl, hready, hlast⟩

end SpdbVectorIterator

end HotTLBApps.Speedb
