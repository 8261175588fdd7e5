import HotTLBApps.Lib.StdHeap

/-!
# The binary heap of `util/heap.h`

A heap in an array with an operation that replaces the top, and a cache of the child of
the root that won the last comparison at the root.

* `push`, `replaceTop`, `pop`: the operations;
* `Ok`: the array is a heap and the cache, if it is set, names a greatest child of the root;
* `push_spec`, `replaceTop_spec`, `pop_spec`: the operations keep the elements and `Ok`.
  For the last two nothing has to be known about the root: its place in the order may have
  changed while it stood there.
-/

namespace HotTLBApps.Speedb

open Heap List

/-- `BinaryHeap`; `none` is a cache that was reset. -/
structure BinaryHeap (α : Type*) where
  data : List α
  rootCmpCache : Option Nat

namespace BinaryHeap

variable {α : Type*} (cmp : α → α → Bool)

def empty : BinaryHeap α where
  data := []
  rootCmpCache := none

def top? (h : BinaryHeap α) : Option α :=
  h.data.head?

/-- The loop of `upheap`; the place `index` is a hole for `v`. -/
def upheapLoop (v : α) : (fuel : Nat) → (index : Nat) → List α → List α
  | 0, index, data => data.set index v
  | fuel + 1, index, data =>
      if index > 0 then
        match data[(index - 1) / 2]? with
        | some parent =>
            if cmp parent v then upheapLoop v fuel ((index - 1) / 2) (data.set index parent)
            else data.set index v
        | none => data.set index v
      else data.set index v

def push (value : α) (h : BinaryHeap α) : BinaryHeap α where
  data := upheapLoop cmp value h.data.length h.data.length (h.data ++ [value])
  rootCmpCache := none

/-- The child that wins the comparison of the two children. -/
def greaterChild (data : List α) (index : Nat) : Nat :=
  match data[2 * index + 1]?, data[2 * index + 2]? with
  | some left, some right => if cmp left right then 2 * index + 2 else 2 * index + 1
  | _, _ => 2 * index + 1

def pickedChild (cache : Option Nat) (data : List α) (index : Nat) : Nat :=
  match cache with
  | some c => if index = 0 ∧ c < data.length then c else greaterChild cmp data index
  | none => greaterChild cmp data index

/-- The loop of `downheap`: the array with a hole for `v`, the place of the hole and the last
`picked_child`. -/
def downheapLoop (v : α) (cache : Option Nat) :
    (fuel : Nat) → (index : Nat) → (picked : Option Nat) → List α → List α × Nat × Option Nat
  | 0, index, picked, data => (data, index, picked)
  | fuel + 1, index, picked, data =>
      if 2 * index + 1 ≥ data.length then (data, index, picked)
      else
        match data[pickedChild cmp cache data index]? with
        | some child =>
            if cmp v child then
              downheapLoop v cache fuel (pickedChild cmp cache data index)
                (some (pickedChild cmp cache data index)) (data.set index child)
            else (data, index, some (pickedChild cmp cache data index))
        | none => (data, index, some (pickedChild cmp cache data index))

/-- `downheap(get_root())`. -/
def downheap (h : BinaryHeap α) : BinaryHeap α :=
  match h.data.head? with
  | some v =>
      let r := downheapLoop cmp v h.rootCmpCache h.data.length 0 none h.data
      { data := r.1.set r.2.1 v
        rootCmpCache := if r.2.1 = 0 then r.2.2 else none }
  | none => h

def replaceTop (value : α) (h : BinaryHeap α) : BinaryHeap α :=
  downheap cmp { h with data := h.data.set 0 value }

/-- The array after `data_.front() = data_.back()` and `data_.pop_back()`. -/
def withoutTop (data : List α) : List α :=
  match data.getLast? with
  | some back => (if data.length > 1 then data.set 0 back else data).dropLast
  | none => data

def pop (h : BinaryHeap α) : BinaryHeap α :=
  if withoutTop h.data = [] then { data := [], rootCmpCache := none }
  else downheap cmp { h with data := withoutTop h.data }

section Places

variable {cmp} {D : List α} {i j : Nat} {a b : α}

/-- Two places are in the order of a parent and its child. -/
def InOrder (cmp : α → α → Bool) (D : List α) (i j : Nat) : Prop :=
  ∀ a b, D[i]? = some a → D[j]? = some b → cmp a b = false

section

variable (hi : D[i]? = some a) (hj : D[j]? = some b)
include hi hj

theorem getElem?_exchange (k : Nat) :
    ((D.set i b).set j a)[k]? = if k = j then some a else if k = i then some b else D[k]? := by
  have hilt := (List.getElem?_eq_some_iff.mp hi).1
  have hjlt := (List.getElem?_eq_some_iff.mp hj).1
  rw [List.getElem?_set, List.getElem?_set, List.length_set, if_pos hjlt, if_pos hilt]
  exact if_congr eq_comm rfl (if_congr eq_comm rfl rfl)

theorem inOrder_of (h : cmp a b = false) : InOrder cmp D i j := by
  intro a' b' hi' hj'
  cases hi.symm.trans hi'
  cases hj.symm.trans hj'
  exact h

theorem exchange_perm : ((D.set i b).set j a).Perm D := by
  obtain ⟨hilt, rfl⟩ := List.getElem?_eq_some_iff.mp hi
  obtain ⟨hjlt, rfl⟩ := List.getElem?_eq_some_iff.mp hj
  exact set_set_perm hilt hjlt

end

end Places

section Upheap

variable {cmp} {D : List α}

/-- A heap but for the pair of `index` and its parent. -/
structure UpHole (cmp : α → α → Bool) (D : List α) (index : Nat) : Prop where
  other : ∀ i, 0 < i → i ≠ index → InOrder cmp D ((i - 1) / 2) i
  grand : 0 < index → ∀ i, 0 < i → (i - 1) / 2 = index → InOrder cmp D ((index - 1) / 2) i

variable {index : Nat}

theorem UpHole.move (hweak : StrictWeak cmp D) (h : UpHole cmp D index) (hindex : 0 < index)
    {v p : α} (hv : D[index]? = some v) (hp : D[(index - 1) / 2]? = some p)
    (hcmp : cmp p v = true) :
    UpHole cmp ((D.set index p).set ((index - 1) / 2) v) ((index - 1) / 2) := by
  have hvmem := mem_of_getElem? hv
  have hpmem := mem_of_getElem? hp
  have hback : cmp v p = false := hweak.asymm p hpmem v hvmem hcmp
  have hget := getElem?_exchange hv hp
  constructor
  · intro i hi hne a b ha hb
    rw [hget] at ha
    rw [hget, if_neg hne] at hb
    split_ifs at hb with hii
    · -- the old parent is now below the value
      rw [hii, if_pos rfl] at ha
      cases ha
      cases hb
      exact hback
    · split_ifs at ha with hsibling hchild
      · cases ha
        have hpb : cmp p b = false := by
          refine h.other i hi hii p b ?_ hb
          rw [hsibling]
          exact hp
        exact hweak.negTrans v hvmem p hpmem b (mem_of_getElem? hb) hback hpb
      · cases ha
        exact h.grand hindex i hi hchild p b hp hb
      · exact h.other i hi hii a b ha hb
  · intro hparent i hi hchild a b ha hb
    rw [hget, if_neg (by omega), if_neg (by omega)] at ha
    have hap : cmp a p = false := h.other _ hparent (by omega) a p ha hp
    rw [hget, if_neg (by omega)] at hb
    split_ifs at hb with hii
    · cases hb
      exact hap
    · have hpb : cmp p b = false := by
        refine h.other i hi hii p b ?_ hb
        rw [hchild]
        exact hp
      exact hweak.negTrans a (mem_of_getElem? ha) p hpmem b (mem_of_getElem? hb) hap hpb

theorem UpHole.isHeap (h : UpHole cmp D index)
    (hindex : 0 < index → InOrder cmp D ((index - 1) / 2) index) : IsHeap cmp D := by
  intro i a b hi ha hb
  by_cases hii : i = index
  · subst hii
    exact hindex hi a b ha hb
  · exact h.other i hi hii a b ha hb

theorem upheapLoop_spec {v : α} {fuel index : Nat} {data : List α} (hfuel : index ≤ fuel)
    (hlt : index < data.length) (hweak : StrictWeak cmp (data.set index v))
    (h : UpHole cmp (data.set index v) index) :
    (upheapLoop cmp v fuel index data).Perm (data.set index v) ∧
      IsHeap cmp (upheapLoop cmp v fuel index data) := by
  have hself : (data.set index v)[index]? = some v := getElem?_set_self hlt
  induction fuel generalizing index data with
  | zero => exact ⟨Perm.refl _, h.isHeap fun hpos => absurd hpos (by omega)⟩
  | succ fuel ih =>
    unfold upheapLoop
    by_cases hpos : index > 0
    · have hne : index ≠ (index - 1) / 2 := by omega
      obtain ⟨p, hp⟩ : ∃ p, data[(index - 1) / 2]? = some p :=
        ⟨_, getElem?_eq_getElem (by omega)⟩
      have hp' : (data.set index v)[(index - 1) / 2]? = some p := by rw [getElem?_set_ne hne, hp]
      rw [if_pos hpos, hp]
      dsimp only
      split_ifs with hcmp
      · have hset : (data.set index v).set index p = data.set index p := set_set _
        have hmove := h.move hweak hpos hself hp' hcmp
        have hperm := exchange_perm hself hp'
        rw [hset] at hmove hperm
        have hnext := ih (by omega) (by rw [length_set]; omega)
          (hweak.subset fun a ha => hperm.mem_iff.mp ha) hmove
          (getElem?_set_self (by rw [length_set]; omega))
        exact ⟨hnext.1.trans hperm, hnext.2⟩
      · exact ⟨Perm.refl _, h.isHeap fun _ =>
          inOrder_of hp' hself (Bool.eq_false_iff.mpr hcmp)⟩
    · rw [if_neg hpos]
      exact ⟨Perm.refl _, h.isHeap fun hindex => absurd hindex hpos⟩

end Upheap

section Downheap

variable {cmp} {D : List α}

/-- A heap but for the pairs of `index` and its children. -/
structure DownHole (cmp : α → α → Bool) (D : List α) (index : Nat) : Prop where
  other : ∀ i, 0 < i → (i - 1) / 2 ≠ index → InOrder cmp D ((i - 1) / 2) i
  grand : 0 < index → ∀ i, 0 < i → (i - 1) / 2 = index → InOrder cmp D ((index - 1) / 2) i

/-- A child of `index` that no child exceeds. -/
structure Greatest (cmp : α → α → Bool) (D : List α) (index p : Nat) : Prop where
  pos : 0 < p
  parent : (p - 1) / 2 = index
  lt : p < D.length
  ge : ∀ i, 0 < i → (i - 1) / 2 = index → InOrder cmp D p i

variable {index p : Nat}

theorem greatest_of_children (hp : p = 2 * index + 1 ∨ p = 2 * index + 2)
    (hlt : p < D.length) (hleft : InOrder cmp D p (2 * index + 1))
    (hright : InOrder cmp D p (2 * index + 2)) : Greatest cmp D index p := by
  refine ⟨by omega, by omega, hlt, ?_⟩
  intro i hi hchild
  obtain rfl | rfl : i = 2 * index + 1 ∨ i = 2 * index + 2 := by omega
  · exact hleft
  · exact hright

/-- What the order is on and how the places are filled may change. -/
theorem Greatest.congr {cmp' : α → α → Bool} {D' : List α}
    (h : Greatest cmp D index p) (hlt : p < D'.length)
    (hge : ∀ i, 0 < i → InOrder cmp D p i → InOrder cmp' D' p i) : Greatest cmp' D' index p :=
  ⟨h.pos, h.parent, hlt, fun i hi hchild => hge i hi (h.ge i hi hchild)⟩

theorem DownHole.move (hweak : StrictWeak cmp D) (h : DownHole cmp D index)
    (hp : Greatest cmp D index p) {v c : α} (hv : D[index]? = some v) (hc : D[p]? = some c)
    (hcmp : cmp v c = true) : DownHole cmp ((D.set index c).set p v) p := by
  have hvmem := mem_of_getElem? hv
  have hcmem := mem_of_getElem? hc
  have hback : cmp c v = false := hweak.asymm v hvmem c hcmem hcmp
  have hget := getElem?_exchange hv hc
  have hparent := hp.parent
  have hppos := hp.pos
  constructor
  · intro i hi hne a b ha hb
    rw [hget, if_neg hne] at ha
    rw [hget] at hb
    split_ifs at hb with hip hii
    · rw [if_pos (by omega)] at ha
      cases ha
      cases hb
      exact hback
    · -- the child comes under the old parent of the value
      rw [if_neg (by omega), hii] at ha
      cases hb
      exact h.grand (by omega) p hppos hparent a c ha hc
    · split_ifs at ha with hchild
      · cases ha
        exact hp.ge i hi hchild c b hc hb
      · exact h.other i hi hchild a b ha hb
  · intro _ i hi hchild a b ha hb
    rw [hget, hparent, if_neg (by omega), if_pos rfl] at ha
    rw [hget, if_neg (by omega), if_neg (by omega)] at hb
    cases ha
    refine h.other i hi (by omega) c b ?_ hb
    rw [hchild]
    exact hc

variable {v : α}

/-- The value is not exceeded by the greatest child. -/
theorem DownHole.isHeap (hweak : StrictWeak cmp D) (h : DownHole cmp D index)
    (hv : D[index]? = some v) (hstop : D.length ≤ 2 * index + 1 ∨
      ∃ p c, Greatest cmp D index p ∧ D[p]? = some c ∧ cmp v c = false) : IsHeap cmp D := by
  intro i a b hi ha hb
  by_cases hchild : (i - 1) / 2 = index
  · rw [hchild, hv] at ha
    cases ha
    rcases hstop with hlen | ⟨p, c, hp, hc, hcmp⟩
    · have hlt := (List.getElem?_eq_some_iff.mp hb).1
      omega
    · exact hweak.negTrans v (mem_of_getElem? hv) c (mem_of_getElem? hc) b
        (mem_of_getElem? hb) hcmp (hp.ge i hi hchild c b hc hb)
  · exact h.other i hi hchild a b ha hb

/-- The cache, when it is used, names a greatest child of the root. -/
def CacheOk (cmp : α → α → Bool) (cache : Option Nat) (D : List α) : Prop :=
  ∀ c, cache = some c → c < D.length → Greatest cmp D 0 c

theorem greatest_greaterChild (hweak : StrictWeak cmp D)
    (hlen : 2 * index + 1 < D.length) : Greatest cmp D index (greaterChild cmp D index) := by
  have hirrefl : ∀ a ∈ D, cmp a a = false := by
    intro a ha
    cases haa : cmp a a with
    | false => rfl
    | true => exact (hweak.asymm a ha a ha haa).symm.trans haa |>.symm
  obtain ⟨left, hleft⟩ : ∃ left, D[2 * index + 1]? = some left :=
    ⟨_, getElem?_eq_getElem hlen⟩
  have hleftMem := mem_of_getElem? hleft
  unfold greaterChild
  rw [hleft]
  cases hright : D[2 * index + 2]? with
  | none =>
    refine greatest_of_children (.inl rfl) hlen
      (inOrder_of hleft hleft (hirrefl _ hleftMem)) ?_
    intro a b _ hb
    rw [hright] at hb
    cases hb
  | some right =>
    have hrightMem := mem_of_getElem? hright
    dsimp only
    split_ifs with hcmp
    · exact greatest_of_children (Or.inr rfl) (List.getElem?_eq_some_iff.mp hright).1
        (inOrder_of hright hleft (hweak.asymm _ hleftMem _ hrightMem hcmp))
        (inOrder_of hright hright (hirrefl _ hrightMem))
    · exact greatest_of_children (.inl rfl) hlen
        (inOrder_of hleft hleft (hirrefl _ hleftMem))
        (inOrder_of hleft hright (Bool.eq_false_iff.mpr hcmp))

variable {cache : Option Nat}

theorem greatest_pickedChild (hweak : StrictWeak cmp D) (hcache : index = 0 → CacheOk cmp cache D)
    (hlen : 2 * index + 1 < D.length) : Greatest cmp D index (pickedChild cmp cache D index) := by
  unfold pickedChild
  cases cache with
  | none => exact greatest_greaterChild hweak hlen
  | some c =>
    dsimp only
    split_ifs with huse
    · rw [huse.1]
      exact hcache huse.1 c rfl huse.2
    · exact greatest_greaterChild hweak hlen

/-- The value of the hole does not matter for its children. -/
theorem pickedChild_set (cache : Option Nat) (data : List α) (index : Nat) (v : α) :
    pickedChild cmp cache (data.set index v) index = pickedChild cmp cache data index := by
  have hgreater : greaterChild cmp (data.set index v) index = greaterChild cmp data index := by
    unfold greaterChild
    rw [getElem?_set_ne (by omega), getElem?_set_ne (by omega)]
  unfold pickedChild
  cases cache with
  | none => exact hgreater
  | some c => rw [hgreater, length_set]

/-- What the loop of `downheap` ends with; `picked` belongs to the hole while it is at the
root. -/
theorem downheapLoop_spec {fuel index : Nat} {picked : Option Nat} {data : List α}
    (hfuel : data.length ≤ fuel + index) (hlt : index < data.length)
    (hweak : StrictWeak cmp (data.set index v))
    (hcache : index = 0 → CacheOk cmp cache (data.set index v))
    (hpicked : index = 0 → picked = none) (h : DownHole cmp (data.set index v) index) :
    ∃ data' hole cache', downheapLoop cmp v cache fuel index picked data = (data', hole, cache') ∧
      (data'.set hole v).Perm (data.set index v) ∧ IsHeap cmp (data'.set hole v) ∧
      (hole = 0 → CacheOk cmp cache' (data'.set hole v)) := by
  have hself : (data.set index v)[index]? = some v := getElem?_set_self hlt
  induction fuel generalizing index picked data with
  | zero => omega
  | succ fuel ih =>
    unfold downheapLoop
    split_ifs with hleaf
    · refine ⟨_, _, _, rfl, Perm.refl _, ?_, ?_⟩
      · exact h.isHeap hweak hself (.inl (by rw [length_set]; exact hleaf))
      · intro hroot c hc
        rw [hpicked hroot] at hc
        cases hc
    · have hgreatest := greatest_pickedChild hweak hcache
        (by rw [length_set]; omega)
      rw [pickedChild_set] at hgreatest
      generalize pickedChild cmp cache data index = p at *
      have hplt : p < data.length := by
        have hlt' := hgreatest.lt
        rwa [length_set] at hlt'
      have hne : index ≠ p := by
        have hparent := hgreatest.parent
        have hpos := hgreatest.pos
        omega
      obtain ⟨c, hc⟩ : ∃ c, data[p]? = some c := ⟨_, getElem?_eq_getElem hplt⟩
      have hc' : (data.set index v)[p]? = some c := by rw [getElem?_set_ne hne, hc]
      rw [hc]
      dsimp only
      split_ifs with hcmp
      · have hset : (data.set index v).set index c = data.set index c := set_set _
        have hmove := h.move hweak hgreatest hself hc' hcmp
        have hperm := exchange_perm hself hc'
        rw [hset] at hmove hperm
        have hparent := hgreatest.parent
        have hroot : p = 0 → some p = none := by omega
        obtain ⟨data', hole, cache', hloop, hperm', hrest⟩ := ih
          (by rw [length_set]; omega) (by rw [length_set]; exact hplt)
          (hweak.subset fun a ha => hperm.mem_iff.mp ha) (by omega) hroot hmove
          (getElem?_set_self (by rw [length_set]; exact hplt))
        exact ⟨data', hole, cache', hloop, hperm'.trans hperm, hrest⟩
      · refine ⟨_, _, _, rfl, Perm.refl _, ?_, ?_⟩
        · exact h.isHeap hweak hself (.inr ⟨p, c, hgreatest, hc', Bool.eq_false_iff.mpr hcmp⟩)
        · intro hroot c' hc' _
          cases hc'
          rw [← hroot]
          exact hgreatest

end Downheap

variable {cmp}

/-- The array is a heap and the cache is right. -/
structure Ok (cmp : α → α → Bool) (h : BinaryHeap α) : Prop where
  isHeap : IsHeap cmp h.data
  cache : CacheOk cmp h.rootCmpCache h.data

/-- A heap but for its root, whose value may have changed. -/
structure Loose (cmp : α → α → Bool) (h : BinaryHeap α) : Prop where
  below : ∀ i, 0 < (i - 1) / 2 → InOrder cmp h.data ((i - 1) / 2) i
  cache : CacheOk cmp h.rootCmpCache h.data

theorem ok_empty : Ok cmp (empty : BinaryHeap α) :=
  ⟨fun i a b _ ha => (by simp [empty] at ha), nofun⟩

variable {h : BinaryHeap α}

/-- **`push`** adds the element. -/
theorem push_spec (hok : Ok cmp h) {value : α} (hweak : StrictWeak cmp (value :: h.data)) :
    (h.push cmp value).data.Perm (value :: h.data) ∧ Ok cmp (h.push cmp value) := by
  have hset : (h.data ++ [value]).set h.data.length value = h.data ++ [value] := by
    rw [set_append_right _ _ le_rfl, Nat.sub_self]
    rfl
  have hmem : ∀ a ∈ h.data ++ [value], a ∈ value :: h.data := by
    intro a ha
    obtain ha | ha := mem_append.mp ha
    · exact mem_cons_of_mem _ ha
    · rw [mem_singleton.mp ha]
      exact mem_cons_self
  have hhole : UpHole cmp (h.data ++ [value]) h.data.length := by
    constructor
    · intro i hi hne a b ha hb
      have hlt : i < h.data.length := by
        have hlt' := (List.getElem?_eq_some_iff.mp hb).1
        rw [length_append, length_singleton] at hlt'
        omega
      rw [getElem?_append_left (by omega)] at ha hb
      exact hok.isHeap i a b hi ha hb
    · intro _ i hi hchild a b _ hb
      have hlt' := (List.getElem?_eq_some_iff.mp hb).1
      rw [length_append, length_singleton] at hlt'
      omega
  have hloop : (h.push cmp value).data.Perm ((h.data ++ [value]).set h.data.length value) ∧
      IsHeap cmp (h.push cmp value).data :=
    upheapLoop_spec le_rfl (by simp) (by rw [hset]; exact hweak.subset hmem)
      (by rw [hset]; exact hhole)
  rw [hset] at hloop
  exact ⟨hloop.1.trans perm_append_comm, hloop.2, nofun⟩

/-- **`downheap`** at the root keeps the elements and makes a heap. -/
theorem downheap_spec (hloose : Loose cmp h) (hweak : StrictWeak cmp h.data) :
    (h.downheap cmp).data.Perm h.data ∧ Ok cmp (h.downheap cmp) := by
  unfold downheap
  cases hhead : h.data.head? with
  | none =>
    have hnil := head?_eq_none_iff.mp hhead
    refine ⟨Perm.refl _, ?_, hloose.cache⟩
    intro i a b _ ha
    rw [hnil] at ha
    cases ha
  | some v =>
    have hzero : h.data[0]? = some v := by rw [← head?_eq_getElem?, hhead]
    have hlt := (List.getElem?_eq_some_iff.mp hzero).1
    have hset : h.data.set 0 v = h.data := by
      obtain ⟨hlt', rfl⟩ := List.getElem?_eq_some_iff.mp hzero
      exact set_getElem_self hlt'
    have hhole : DownHole cmp h.data 0 :=
      ⟨fun i _ hne => hloose.below i (by omega), fun hpos => absurd hpos (by omega)⟩
    have hfuel : h.data.length ≤ h.data.length + 0 := le_rfl
    have hcache : 0 = 0 → CacheOk cmp h.rootCmpCache (h.data.set 0 v) := by
      intro _
      rw [hset]
      exact hloose.cache
    have hpicked : 0 = 0 → (none : Option Nat) = none := fun _ => rfl
    obtain ⟨data', hole, cache', hloop, hperm, hheap, hcache'⟩ :=
      downheapLoop_spec hfuel hlt (by rw [hset]; exact hweak) hcache hpicked
        (by rw [hset]; exact hhole)
    rw [hset] at hperm
    dsimp only
    rw [hloop]
    refine ⟨hperm, hheap, ?_⟩
    split
    next hroot => exact hcache' hroot
    next => exact nofun

variable {cmp' : α → α → Bool}

theorem Ok.congr (hok : Ok cmp h)
    (heq : ∀ a ∈ h.data, ∀ b ∈ h.data, cmp a b = cmp' a b) : Ok cmp' h := by
  refine ⟨hok.isHeap.congr heq, ?_⟩
  intro c hc hlt
  refine (hok.cache c hc hlt).congr hlt fun i hi hge a b ha hb => ?_
  rw [← heq a (mem_of_getElem? ha) b (mem_of_getElem? hb)]
  exact hge a b ha hb

theorem mem_tail_of_getElem? {l : List α} {i : Nat} {a : α} (hi : 0 < i)
    (ha : l[i]? = some a) : a ∈ l.tail := by
  refine mem_of_getElem? (i := i - 1) ?_
  rw [getElem?_tail, Nat.sub_add_cancel hi, ha]

/-- When the root changes, the rest is still in order. -/
theorem Ok.loose (hok : Ok cmp h)
    (heq : ∀ a ∈ h.data.tail, ∀ b ∈ h.data.tail, cmp a b = cmp' a b) : Loose cmp' h := by
  constructor
  · intro i hi a b ha hb
    rw [← heq a (mem_tail_of_getElem? hi ha) b (mem_tail_of_getElem? (by omega) hb)]
    exact hok.isHeap i a b (by omega) ha hb
  · intro c hc hlt
    have hchild := hok.cache c hc hlt
    refine hchild.congr hlt fun i hi hge a b ha hb => ?_
    rw [← heq a (mem_tail_of_getElem? hchild.pos ha) b (mem_tail_of_getElem? hi hb)]
    exact hge a b ha hb

/-- What the root holds does not matter. -/
theorem Loose.congr (hloose : Loose cmp h) {D : List α} (hlen : D.length ≤ h.data.length)
    (hplaces : ∀ i a, 0 < i → D[i]? = some a → h.data[i]? = some a) :
    Loose cmp { h with data := D } := by
  constructor
  · intro i hi a b ha hb
    exact hloose.below i hi a b (hplaces _ a hi ha) (hplaces _ b (by omega) hb)
  · intro c hc hlt
    have hchild := hloose.cache c hc (hlt.trans_le hlen)
    exact hchild.congr hlt fun i hi hge a b ha hb =>
      hge a b (hplaces _ a hchild.pos ha) (hplaces _ b hi hb)

variable {top : α} {rest : List α}

/-- **`replace_top`** puts the element in the place of the top. -/
theorem replaceTop_spec (hloose : Loose cmp h) (hdata : h.data = top :: rest) {value : α}
    (hweak : StrictWeak cmp (value :: rest)) :
    (h.replaceTop cmp value).data.Perm (value :: rest) ∧ Ok cmp (h.replaceTop cmp value) := by
  have hset : h.data.set 0 value = value :: rest := by
    rw [hdata]
    rfl
  rw [replaceTop, hset]
  refine downheap_spec (hloose.congr (by rw [hdata]; rfl) fun i a hi ha => ?_) hweak
  obtain ⟨j, rfl⟩ := Nat.exists_eq_succ_of_ne_zero hi.ne'
  rw [hdata]
  exact ha

theorem withoutTop_cons_append (top back : α)
    (middle : List α) : withoutTop (top :: (middle ++ [back])) = back :: middle := by
  have hlast : (top :: (middle ++ [back])).getLast? = some back := by
    rw [← cons_append, getLast?_concat]
  rw [withoutTop, hlast]
  dsimp only
  rw [if_pos (by simp), set_cons_zero, ← cons_append, dropLast_concat]

/-- **`pop`** takes the top out. -/
theorem pop_spec (hloose : Loose cmp h) (hdata : h.data = top :: rest)
    (hweak : StrictWeak cmp rest) : (h.pop cmp).data.Perm rest ∧ Ok cmp (h.pop cmp) := by
  rw [pop, hdata]
  obtain rfl | ⟨middle, back, rfl⟩ := eq_nil_or_concat rest
  · exact ⟨Perm.refl _, ok_empty⟩
  · rw [concat_eq_append] at hdata hweak ⊢
    have hperm : ([back] ++ middle).Perm (middle ++ [back]) := perm_append_comm
    rw [withoutTop_cons_append, if_neg (cons_ne_nil _ _)]
    -- below the root nothing moved
    have hplaces : ∀ i a, 0 < i → (back :: middle)[i]? = some a → h.data[i]? = some a := by
      intro i a hi ha
      obtain ⟨j, rfl⟩ := Nat.exists_eq_succ_of_ne_zero hi.ne'
      rw [hdata]
      rw [getElem?_cons_succ] at ha ⊢
      rw [List.getElem?_append_left (List.getElem?_eq_some_iff.mp ha).1]
      exact ha
    have hlen : (back :: middle).length ≤ h.data.length := by simp [hdata]
    have hdown := downheap_spec (hloose.congr hlen hplaces) (hweak.subset fun a ha => hperm.mem_iff.mp ha)
    exact ⟨hdown.1.trans hperm, hdown.2⟩

end BinaryHeap
end HotTLBApps.Speedb
