import HotTLBApps.Speedb.HashSpdb
import HotTLBApps.Lib.SortedUnique

/-!
# Speedb: what the hash table and the vectors of a memtable hold

The contents of a memtable are an ordered set `S` of entries.

* `TableOk`: every bucket is the part of `S` that belongs to it, and its counter is the
  length modulo the range of the counter.  `insertKey_table` keeps it as long as no counter
  has wrapped;
* `ContainerOk`: the vectors together hold the entries of `S`, and the sorted ones are
  sorted.  Insertions, sorting and new iterators keep it.
-/

namespace HotTLBApps.Speedb

open OrderedSet List Function
open Prod (fst)

variable {n : Nat} {U V : Type} [LinearOrder U]

section

variable {S : List (Entry U V)} {e : Entry U V} {items : List (Entry U V)}

theorem containsLoop_iff {k : InternalKey U} (h : Increasing fst items) :
    containsLoop k items = true ↔ ∃ x ∈ items, x.1 = k := by
  induction items with
  | nil => simp [containsLoop]
  | cons x items ih =>
    obtain ⟨hhead, htail⟩ := pairwise_cons.mp h
    rw [containsLoop, exists_mem_cons_iff]
    split_ifs with heq hgt
    · simp [heq]
    · refine iff_of_false nofun ?_
      rintro (hx | ⟨y, hy, rfl⟩)
      · exact heq hx
      · exact lt_asymm hgt (hhead y hy)
    · rw [ih htail, or_iff_right heq]

/-- The loop of `Add`, when the counter is right, is the insertion into an ordered set. -/
theorem addLoop_of_fresh (hfresh : ∀ x ∈ items, x.1 ≠ e.1) :
    addLoop e items.length items = some (insert fst e items) := by
  induction items with
  | nil => rfl
  | cons x items ih =>
    have hne := hfresh x mem_cons_self
    rw [length_cons, addLoop, if_neg hne, OrderedSet.insert]
    split_ifs with hgt hlt
    · rfl
    · rw [ih fun y hy => hfresh y (mem_cons_of_mem _ hy)]
      rfl
    · exact absurd (lt_of_le_of_ne (not_lt.mp hgt) hne) hlt

variable {x : Entry U V}

theorem addLoop_of_mem (h : Increasing fst items) (hx : x ∈ items)
    (heq : x.1 = e.1) : addLoop e items.length items = none := by
  induction items with
  | nil => cases hx
  | cons y items ih =>
    obtain ⟨hhead, htail⟩ := pairwise_cons.mp h
    rw [length_cons, addLoop]
    obtain rfl | hx := mem_cons.mp hx
    · rw [if_pos heq]
    · have hlt : y.1 < e.1 := heq ▸ hhead x hx
      rw [if_neg hlt.ne, if_neg (not_lt.mpr hlt.le), ih htail hx]
      rfl

theorem filter_insert_of_fresh (hS : Increasing fst S) (hfresh : ∀ x ∈ S, x.1 ≠ e.1)
    (p : Entry U V → Bool) : (insert fst e S).filter p =
      if p e then insert fst e (S.filter p) else S.filter p := by
  have hmem : ∀ x, x ∈ insert fst e S ↔ x = e ∨ x ∈ S := fun x =>
    (insert_perm hfresh).mem_iff.trans mem_cons
  have hfresh' : ∀ x ∈ S.filter p, x.1 ≠ e.1 :=
    fun x hx => hfresh x (mem_of_mem_filter hx)
  have hpart : Increasing fst (S.filter p) := hS.sublist filter_sublist
  have hinserted := (increasing_insert (a := e) hS).sublist (filter_sublist (p := p))
  split_ifs with hp
  · refine increasing_ext hinserted (increasing_insert hpart) fun x => ?_
    rw [(insert_perm hfresh').mem_iff, mem_cons, mem_filter, mem_filter, hmem, or_and_right]
    exact or_congr_left (and_iff_left_of_imp fun hx => hx ▸ hp)
  · refine increasing_ext hinserted hpart fun x => ?_
    rw [mem_filter, mem_filter, hmem, or_and_right]
    exact or_iff_right fun ⟨hx, hpx⟩ => hp (hx ▸ hpx)

theorem insert_of_mem (hS : Increasing fst S) (hx : x ∈ S)
    (heq : x.1 = e.1) : insert fst e S = S := by
  induction S with
  | nil => cases hx
  | cons y S ih =>
    obtain ⟨hhead, htail⟩ := pairwise_cons.mp hS
    rw [OrderedSet.insert]
    rcases mem_cons.mp hx with rfl | hx
    · rw [if_neg (by rw [heq]; exact lt_irrefl _), if_neg (by rw [heq]; exact lt_irrefl _)]
    · have hlt : y.1 < e.1 := heq ▸ hhead x hx
      rw [if_neg (not_lt.mpr hlt.le), if_pos hlt, ih htail hx]

variable [NeZero n] {hash : U → Nat}

def bucketPart (hash : U → Nat) (S : List (Entry U V)) (b : Fin n) : List (Entry U V) :=
  S.filter fun x => bucketIndex hash x.1.userKey = b

/-- No counter of a bucket has wrapped. -/
def Fits (n : Nat) [NeZero n] (hash : U → Nat) (S : List (Entry U V)) : Prop :=
  ∀ b : Fin n, (bucketPart hash S b).length < elementsNumRange

/-- The buckets hold an ordered set. -/
structure TableOk
    (hash : U → Nat) (S : List (Entry U V)) (table : Fin n → BucketHeader U V) : Prop where
  items : ∀ b, (table b).items = bucketPart hash S b
  elementsNum : ∀ b, (table b).elementsNum = (bucketPart hash S b).length % elementsNumRange

omit [LinearOrder U] in
theorem mem_bucketPart {b : Fin n} :
    x ∈ bucketPart hash S b ↔ x ∈ S ∧ bucketIndex hash x.1.userKey = b := by
  rw [bucketPart, mem_filter, decide_eq_true_iff]

theorem increasing_bucketPart (hS : Increasing fst S)
    (b : Fin n) : Increasing fst (bucketPart hash S b) :=
  hS.sublist filter_sublist

theorem bucketPart_insert (hS : Increasing fst S) (hfresh : ∀ x ∈ S, x.1 ≠ e.1) (b : Fin n) :
    bucketPart hash (insert fst e S) b = if bucketIndex hash e.1.userKey = b then
        insert fst e (bucketPart hash S b)
      else bucketPart hash S b := by
  rw [bucketPart, filter_insert_of_fresh hS hfresh]
  simp only [decide_eq_true_eq]
  rfl

theorem length_bucketPart_insert (b : Fin n) (hS : Increasing fst S) :
    (bucketPart hash S b).length ≤ (bucketPart hash (insert fst e S) b).length ∧
      (bucketPart hash (insert fst e S) b).length ≤
        (bucketPart hash S b).length + 1 := by
  by_cases hmem : ∃ x ∈ S, x.1 = e.1
  · obtain ⟨x, hx, heq⟩ := hmem
    rw [insert_of_mem hS hx heq]
    exact ⟨le_rfl, Nat.le_succ _⟩
  · push Not at hmem
    rw [bucketPart_insert hS hmem]
    split_ifs
    · rw [(insert_perm fun x hx => hmem x (mem_bucketPart.mp hx).1).length_eq]
      exact ⟨Nat.le_succ _, le_rfl⟩
    · exact ⟨le_rfl, Nat.le_succ _⟩

variable {table : Fin n → BucketHeader U V}

omit [LinearOrder U] in
theorem TableOk.elementsNum_eq (h : TableOk hash S table) (hfits : Fits n hash S)
    (b : Fin n) : (table b).elementsNum = (table b).items.length := by
  rw [h.elementsNum b, h.items b, Nat.mod_eq_of_lt (hfits b)]

/-- **`Add` takes** an entry whose key is new. -/
theorem TableOk.add_of_fresh (h : TableOk hash S table) (hfits : Fits n hash S)
    (hS : Increasing fst S) (hfresh : ∀ x ∈ S, x.1 ≠ e.1) :
    ∃ bucket, (table (bucketIndex hash e.1.userKey)).add e = some bucket ∧
      TableOk hash (insert fst e S)
        (update table (bucketIndex hash e.1.userKey) bucket) := by
  have hfresh' : ∀ x ∈ bucketPart hash S (bucketIndex hash e.1.userKey : Fin n), x.1 ≠ e.1 :=
    fun x hx => hfresh x (mem_bucketPart.mp hx).1
  refine ⟨{ items := insert fst e
              (bucketPart hash S (bucketIndex hash e.1.userKey : Fin n))
            elementsNum := ((bucketPart hash S (bucketIndex hash e.1.userKey : Fin n)).length + 1) %
              elementsNumRange }, ?_, ?_, ?_⟩
  · rw [BucketHeader.add, h.elementsNum_eq hfits, h.items, addLoop_of_fresh hfresh']
    rfl
  · refine (forall_update_iff table fun b bucket =>
      bucket.items = bucketPart hash (insert fst e S) b).mpr ⟨?_, fun b hb => ?_⟩
    · rw [bucketPart_insert hS hfresh, if_pos rfl]
    · rw [bucketPart_insert hS hfresh, if_neg hb.symm]
      exact h.items b
  · refine (forall_update_iff table fun b bucket => bucket.elementsNum =
      (bucketPart hash (insert fst e S) b).length % _).mpr ⟨?_, fun b hb => ?_⟩
    · rw [bucketPart_insert hS hfresh, if_pos rfl, (insert_perm hfresh').length_eq, length_cons]
    · rw [bucketPart_insert hS hfresh, if_neg hb.symm]
      exact h.elementsNum b

theorem TableOk.contains_iff (h : TableOk hash S table) (hfits : Fits n hash S)
    (hS : Increasing fst S) (k : InternalKey U) :
    (table (bucketIndex hash k.userKey)).contains k = true ↔ ∃ x ∈ S, x.1 = k := by
  have hincreasing : Increasing fst (bucketPart hash S (bucketIndex hash k.userKey : Fin n)) :=
    increasing_bucketPart hS _
  have hloop := containsLoop_iff (k := k) hincreasing
  have hpart : (∃ x ∈ bucketPart hash S (bucketIndex hash k.userKey : Fin n), x.1 = k) ↔
      ∃ x ∈ S, x.1 = k := by
    constructor
    · rintro ⟨x, hx, hk⟩
      exact ⟨x, (mem_bucketPart.mp hx).1, hk⟩
    · rintro ⟨x, hx, rfl⟩
      exact ⟨x, mem_bucketPart.mpr ⟨hx, rfl⟩, rfl⟩
  rw [← hpart, ← hloop, BucketHeader.contains, h.elementsNum_eq hfits, h.items]
  split_ifs with hzero
  · simp [length_eq_zero_iff.mp hzero, containsLoop]
  · rfl

/-- The entries of the user key that are not newer. -/
def visible (k : LookupKey U) (S : List (Entry U V)) : List (Entry U V) :=
  S.filter fun x => x.1.userKey = k.userKey ∧ x.1.sequence ≤ k.sequence

theorem toNat_le_kValueTypeForSeek
    (t : ValueType) : TypeByte.toNat t ≤ TypeByte.toNat kValueTypeForSeek := by
  cases t <;> decide

theorem internalKey_le_iff {k : LookupKey U} {x : InternalKey U}
    (huser : x.userKey = k.userKey) : k.internalKey ≤ x ↔ x.sequence ≤ k.sequence :=
  TaggedKey.le_iff_sequence_le (toNat_le_kValueTypeForSeek x.type) huser

/-- From the lookup key on, the visible entries are those of the user key, and they come
first. -/
theorem eq_visible_append (k : LookupKey U) (h : Increasing fst items)
    (hge : ∀ y ∈ items, k.internalKey ≤ y.1) :
    ∃ others, items = visible k items ++ others ∧ ∀ x ∈ others, x.1.userKey ≠ k.userKey := by
  induction items with
  | nil => exact ⟨[], rfl, nofun⟩
  | cons x items ih =>
    obtain ⟨hhead, htail⟩ := pairwise_cons.mp h
    have hgex := hge x mem_cons_self
    by_cases huser : x.1.userKey = k.userKey
    · obtain ⟨others, hsplit, hothers⟩ :=
        ih htail fun y hy => hge y (mem_cons_of_mem _ hy)
      refine ⟨others, ?_, hothers⟩
      have hvisible : x.1.userKey = k.userKey ∧ x.1.sequence ≤ k.sequence :=
        ⟨huser, (internalKey_le_iff huser).mp hgex⟩
      rw [visible, filter_cons_of_pos (by simpa using hvisible), cons_append]
      exact congrArg (x :: ·) hsplit
    · have hlt : k.userKey < x.1.userKey :=
        lt_of_le_of_ne (TaggedKey.userKey_le_of_le hgex) (Ne.symm huser)
      have hothers : ∀ y ∈ x :: items, y.1.userKey ≠ k.userKey := by
        intro y hy
        obtain rfl | hy := mem_cons.mp hy
        · exact huser
        · exact (hlt.trans_le (TaggedKey.userKey_le_of_le (hhead y hy).le)).ne'
      refine ⟨x :: items, ?_, hothers⟩
      have hnil : visible k (x :: items) = [] := by
        rw [visible, filter_eq_nil_iff]
        intro y hy
        simpa using fun heq => absurd heq (hothers y hy)
      rw [hnil, nil_append]

/-- What stands in a sorted list from a lookup key on: the visible entries, then entries of
other user keys. -/
theorem dropWhile_eq_visible_append (k : LookupKey U) (h : Increasing fst items) :
    ∃ others, items.dropWhile (fun e => e.1 < k.internalKey) = visible k items ++ others ∧
      ∀ x ∈ others, x.1.userKey ≠ k.userKey := by
  induction items with
  | nil => exact ⟨[], rfl, nofun⟩
  | cons x items ih =>
    obtain ⟨hhead, htail⟩ := pairwise_cons.mp h
    by_cases hlt : x.1 < k.internalKey
    · -- the entry is skipped, and it is not visible
      have hnot : ¬(x.1.userKey = k.userKey ∧ x.1.sequence ≤ k.sequence) := by
        rintro ⟨huser, hseq⟩
        exact absurd ((internalKey_le_iff huser).mpr hseq) (not_le.mpr hlt)
      obtain ⟨others, hdrop, hothers⟩ := ih htail
      refine ⟨others, ?_, hothers⟩
      rw [dropWhile_cons, if_pos (decide_eq_true hlt), hdrop, visible, visible,
        filter_cons_of_neg (by simpa using hnot)]
    · rw [dropWhile_cons, if_neg (by simpa using hlt)]
      have hge : ∀ y ∈ x :: items, k.internalKey ≤ y.1 := by
        intro y hy
        obtain rfl | hy := mem_cons.mp hy
        · exact not_lt.mp hlt
        · exact (not_lt.mp hlt).trans (hhead y hy).le
      exact eq_visible_append k h hge

/-- `Get` of a bucket that has not wrapped. -/
theorem TableOk.get_eq (h : TableOk hash S table) (hfits : Fits n hash S)
    (hS : Increasing fst S) (k : LookupKey U) :
    ∃ others, (∀ x ∈ others, x.1.userKey ≠ k.userKey) ∧
      ∀ (σ : Type) (callback : σ → Entry U V → σ × Bool) (args : σ),
        (table (bucketIndex hash k.userKey)).get callback k args =
          handTo callback (visible k S ++ others) args := by
  have hincreasing : Increasing fst (bucketPart hash S (bucketIndex hash k.userKey : Fin n)) :=
    increasing_bucketPart hS _
  obtain ⟨others, hdrop, hothers⟩ := dropWhile_eq_visible_append k hincreasing
  have hvisible : visible k (bucketPart hash S (bucketIndex hash k.userKey : Fin n)) =
      visible k S := by
    rw [visible, visible, bucketPart, filter_filter]
    refine filter_congr fun x _ => ?_
    rw [Bool.and_eq_left_iff_imp]
    intro hx
    rw [decide_eq_true_iff] at hx ⊢
    rw [hx.1]
  rw [hvisible] at hdrop
  refine ⟨others, hothers, ?_⟩
  intro σ callback args
  rw [BucketHeader.get, h.elementsNum_eq hfits, h.items, hdrop]
  split_ifs with hzero
  · rw [length_eq_zero_iff.mp hzero] at hdrop
    rw [← hdrop]
    rfl
  · rfl

end

variable {S : List (Entry U V)} {e : Entry U V} {v : SpdbVector U V}
  {c : SpdbVectorContainer U V}

structure VectorOk (v : SpdbVector U V) : Prop where
  length : v.items.length = min v.nElements switchSpdbVectorLimit
  sorted : v.sorted = true → Increasing fst v.items
  nonempty : v.sorted = true → v.nElements ≠ 0

theorem vectorOk_new : VectorOk (SpdbVector.new : SpdbVector U V) :=
  ⟨rfl, nofun, nofun⟩

theorem VectorOk.items_eq_nil (h : VectorOk v) (hzero : v.nElements = 0) : v.items = [] := by
  rw [← length_eq_zero_iff, h.length, hzero, Nat.zero_min]

theorem VectorOk.items_ne_nil (h : VectorOk v) (hzero : v.nElements ≠ 0) : v.items ≠ [] := by
  rw [← length_pos_iff, h.length, lt_min_iff]
  exact ⟨Nat.pos_of_ne_zero hzero, by decide⟩

/-- `Add` adds the entry or leaves the items. -/
theorem VectorOk.add (h : VectorOk v) (e : Entry U V) : VectorOk (v.add e).1 ∧
      (v.add e).1.items = if (v.add e).2 then v.items ++ [e] else v.items := by
  fun_cases SpdbVector.add e v with
  | case1 hsorted => exact ⟨h, rfl⟩
  | case2 hsorted hlt =>
    refine ⟨⟨?_, fun hs => absurd hs hsorted, fun hs => absurd hs hsorted⟩, rfl⟩
    rw [length_append, length_singleton, h.length, min_eq_left hlt.le, min_eq_left hlt]
  | case3 hsorted hlt =>
    refine ⟨⟨?_, fun hs => absurd hs hsorted, fun hs => absurd hs hsorted⟩, rfl⟩
    have hlt' := not_lt.mp hlt
    rw [h.length, min_eq_right hlt', min_eq_right (hlt'.trans (Nat.le_succ _))]

/-- `Sort` keeps the entries; it fails on an empty vector only. -/
theorem VectorOk.sort (h : VectorOk v) (hnodup : (v.items.map fst).Nodup) :
    VectorOk v.sort.1 ∧ v.sort.1.items.Perm v.items ∧
      (v.sort.2 = true → Increasing fst v.sort.1.items ∧ v.sort.1.nElements ≠ 0) ∧
      (v.sort.2 = false → v.items = []) := by
  rw [SpdbVector.sort]
  split_ifs with hsorted hzero
  · exact ⟨h, Perm.refl _, fun _ => ⟨h.sorted hsorted, h.nonempty hsorted⟩, nofun⟩
  · exact ⟨h, Perm.refl _, nofun, fun _ => h.items_eq_nil hzero⟩
  · have hperm := perm_insertionSort (fun a b : Entry U V => a.1 ≤ b.1) v.items
    have hle := SortedUnique.pairwise_insertionSort (k := fst)
      (fun _ _ : Entry U V => Iff.rfl) v.items
    have hincreasing := increasing_of_nodup hle ((hperm.map fst).nodup_iff.mpr hnodup)
    have hpos : min v.nElements switchSpdbVectorLimit ≠ 0 := by
      rw [← h.length]
      exact fun hlength => h.items_ne_nil hzero (length_eq_zero_iff.mp hlength)
    refine ⟨⟨?_, fun _ => hincreasing, fun _ => hpos⟩, hperm, fun _ => ⟨hincreasing, hpos⟩, nofun⟩
    rw [hperm.length_eq, h.length, min_assoc, min_self]

namespace SpdbVectorContainer

def vectors (c : SpdbVectorContainer U V) : List (SpdbVector U V) :=
  c.full ++ [c.currVector]

end SpdbVectorContainer

/-- The vectors hold the entries of a set. -/
structure Holds (S : List (Entry U V)) (vs : List (SpdbVector U V)) : Prop where
  vectorOk : ∀ v ∈ vs, VectorOk v
  perm : (vs.flatMap SpdbVector.items).Perm S

structure ContainerOk (S : List (Entry U V)) (c : SpdbVectorContainer U V) : Prop where
  holds : Holds S c.vectors
  count : c.numElements = S.length

theorem containerOk_new
    (useMerge : Bool) : ContainerOk [] (SpdbVectorContainer.new useMerge : SpdbVectorContainer U V) := by
  refine ⟨⟨?_, Perm.refl _⟩, rfl⟩
  intro v hv
  rw [mem_singleton.mp hv]
  exact vectorOk_new

theorem Holds.pushBack (h : Holds S c.vectors) : Holds S c.pushBack.vectors := by
  refine ⟨?_, ?_⟩
  · intro v hv
    obtain hv | hv := mem_append.mp hv
    · exact h.vectorOk v hv
    · rw [mem_singleton.mp hv]
      exact vectorOk_new
  · change ((c.vectors ++ [SpdbVector.new]).flatMap SpdbVector.items).Perm S
    rw [flatMap_append]
    change (c.vectors.flatMap SpdbVector.items ++ []).Perm S
    rw [append_nil]
    exact h.perm

/-- `InternalInsert` adds the entry or leaves the contents. -/
theorem Holds.internalInsert (h : Holds S c.vectors) (e : Entry U V) :
    Holds (if (c.internalInsert e).2 then e :: S else S) (c.internalInsert e).1.vectors := by
  have hcurr : c.currVector ∈ c.vectors := mem_append_right _ mem_cons_self
  obtain ⟨hok, hitems⟩ := (h.vectorOk _ hcurr).add e
  refine ⟨?_, ?_⟩
  · intro v hv
    obtain hv | hv := mem_append.mp hv
    · exact h.vectorOk v (mem_append_left _ hv)
    · rw [mem_singleton.mp hv]
      exact hok
  · have hbefore := h.perm
    rw [SpdbVectorContainer.vectors, flatMap_append, flatMap_singleton] at hbefore ⊢
    change (c.full.flatMap SpdbVector.items ++ (c.currVector.add e).1.items).Perm
      (if (c.currVector.add e).2 then e :: S else S)
    rw [hitems]
    split_ifs
    · rw [← append_assoc]
      exact perm_append_comm.trans (hbefore.cons e)
    · exact hbefore

/-- **`Insert`** of the container. -/
theorem ContainerOk.insert (h : ContainerOk S c)
    (e : Entry U V) : ContainerOk (e :: S) (c.insert e) := by
  have hfirst : Holds S { c with numElements := c.numElements + 1 }.vectors := h.holds
  have hcount : (c.insert e).numElements = c.numElements + 1 := by
    rw [SpdbVectorContainer.insert]
    dsimp only
    split_ifs <;> rfl
  refine ⟨?_, by rw [hcount, h.count, length_cons]⟩
  rw [SpdbVectorContainer.insert]
  generalize { c with numElements := c.numElements + 1 } = c₀ at hfirst ⊢
  have hins₀ := hfirst.internalInsert e
  dsimp only
  split_ifs at hins₀ ⊢ with hadd₀ hadd₁
  · exact hins₀
  all_goals have hins₁ := hins₀.internalInsert e
  · rw [if_pos hadd₁] at hins₁
    exact hins₁
  · rw [if_neg hadd₁] at hins₁
    have hins₂ := hins₁.pushBack.internalInsert e
    rw [if_pos] at hins₂
    · exact hins₂
    · rfl

theorem Holds.nodup_items {vs : List (SpdbVector U V)} (h : Holds S vs) (hS : Increasing fst S)
    (hv : v ∈ vs) : (v.items.map fst).Nodup := by
  have hall : ((vs.flatMap SpdbVector.items).map fst).Nodup :=
    (h.perm.map fst).nodup_iff.mpr hS.nodup_map
  exact hall.sublist ((sublist_flatten_of_mem (mem_map_of_mem hv)).map fst)

/-- A vector is replaced by one with the same entries. -/
theorem Holds.replace {left right : List (SpdbVector U V)} {v' : SpdbVector U V}
    (h : Holds S (left ++ v :: right)) (hok : VectorOk v') (hperm : v'.items.Perm v.items) :
    Holds S (left ++ v' :: right) := by
  refine ⟨?_, ?_⟩
  · intro w hw
    simp only [mem_append, mem_cons] at hw
    obtain hw | rfl | hw := hw
    · exact h.vectorOk w (by simp [hw])
    · exact hok
    · exact h.vectorOk w (by simp [hw])
  · refine Perm.trans ?_ h.perm
    simp only [flatMap_append, flatMap_cons]
    exact (hperm.append_right _).append_left _

theorem ContainerOk.sortVector (h : ContainerOk S c) (hS : Increasing fst S)
    (i : Nat) : ContainerOk S (c.sortVector i) := by
  have hsort : ∀ v ∈ c.vectors, VectorOk v.sort.1 ∧ v.sort.1.items.Perm v.items := by
    intro v hv
    have hspec := (h.holds.vectorOk v hv).sort (h.holds.nodup_items hS hv)
    exact ⟨hspec.1, hspec.2.1⟩
  rw [SpdbVectorContainer.sortVector]
  split_ifs with hi
  · obtain ⟨hok, hperm⟩ := hsort c.full[i] (mem_append_left _ (getElem_mem hi))
    have hsplit : c.vectors =
        c.full.take i ++ c.full[i] :: (c.full.drop (i + 1) ++ [c.currVector]) := by
      rw [SpdbVectorContainer.vectors, ← cons_append, ← append_assoc,
        getElem_cons_drop, take_append_drop]
    refine ⟨?_, h.count⟩
    change Holds S (c.full.modify i (fun v => v.sort.1) ++ [c.currVector])
    rw [modify_eq_take_cons_drop hi, append_assoc, cons_append]
    exact (hsplit ▸ h.holds).replace hok hperm
  · obtain ⟨hok, hperm⟩ := hsort c.currVector (mem_append_right _ mem_cons_self)
    exact ⟨h.holds.replace hok hperm, h.count⟩

/-- **A new iterator** gets vectors that hold all entries. -/
theorem ContainerOk.initIterator (h : ContainerOk S c) (partOfFlush : Bool) :
    ContainerOk S (c.initIterator partOfFlush).1 ∧ (c.useMerge = true ∨ partOfFlush = true →
        match (c.initIterator partOfFlush).2 with
        | some vs => Holds S vs
        | none => S = []) := by
  have hzero : c.numElements = 0 → S = [] := fun hz =>
    length_eq_zero_iff.mp (h.count.symm.trans hz)
  rw [SpdbVectorContainer.initIterator]
  split_ifs with hempty himmutable hcurr
  · refine ⟨h, fun huse => ?_⟩
    rw [SpdbVectorContainer.isEmpty, decide_eq_true_iff] at hempty
    obtain hz | ⟨hmerge, hflush⟩ := hempty
    · exact hzero hz
    · rw [hmerge, hflush] at huse
      rcases huse with huse | huse <;> cases huse
  · exact ⟨h, fun _ => h.holds⟩
  · refine ⟨h, fun _ => ⟨fun v hv => h.holds.vectorOk v (mem_append_left _ hv), ?_⟩⟩
    have hnil : c.currVector.items = [] :=
      (h.holds.vectorOk _ (mem_append_right _ mem_cons_self)).items_eq_nil
        (of_decide_eq_true hcurr)
    have hperm := h.holds.perm
    rw [SpdbVectorContainer.vectors, flatMap_append, flatMap_singleton, hnil, append_nil] at hperm
    exact hperm
  · exact ⟨⟨h.holds.pushBack, h.count⟩, fun _ => h.holds⟩

end HotTLBApps.Speedb
