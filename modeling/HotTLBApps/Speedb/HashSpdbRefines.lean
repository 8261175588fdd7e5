import HotTLBApps.Speedb.HashSpdbIterator

/-!
# Speedb: the hash memtable is an ordered set

The contents of a memtable after a sequence of operations are an ordered set, the first
entry inserted under each key.  `Refines` says what the memtable shows of them: insertions,
point lookups and iterators.

`hashSpdb_refines_iff`: all states of a run refine their contents exactly if no bucket gets
`2 ^ 32` entries.  With that many the counter of the bucket is zero again, and the bucket is
taken for empty (`wrappedBucket_forgets`).
-/

namespace HotTLBApps.Speedb

open OrderedSet Cursor List Function SpdbVectorIterator

variable {n : Nat} [NeZero n] {U V : Type} [LinearOrder U]

namespace HashSpdbRep

/-- The entries that were to be inserted. -/
def Op.inserted : Op U V → Option (Entry U V)
  | .insertKey e => some e
  | _ => none

/-- The ordered set of the entries that were inserted. -/
def contents (ops : List (Op U V)) : List (Entry U V) :=
  insertAll Prod.fst [] (ops.filterMap Op.inserted)

/-- What one operation does to the contents. -/
def effect (S : List (Entry U V)) : Op U V → List (Entry U V)
  | .insertKey e => OrderedSet.insert Prod.fst e S
  | _ => S

theorem increasing_contents (ops : List (Op U V)) : Increasing Prod.fst (contents ops) :=
  increasing_insertAll _ Pairwise.nil

theorem contents_concat (ops : List (Op U V))
    (op : Op U V) : contents (ops ++ [op]) = effect (contents ops) op := by
  rw [contents, filterMap_append, insertAll, foldl_append]
  cases op <;> rfl

variable {S : List (Entry U V)}

theorem length_bucketPart_effect (hash : U → Nat) (hS : Increasing Prod.fst S) (op : Op U V)
    (b : Fin n) : (bucketPart hash S b).length ≤ (bucketPart hash (effect S op) b).length ∧
      (bucketPart hash (effect S op) b).length ≤ (bucketPart hash S b).length + 1 := by
  cases op with
  | insertKey e => exact length_bucketPart_insert b hS
  | getIterator partOfFlush | sortVector i | markReadOnly => exact ⟨le_rfl, Nat.le_succ _⟩

theorem fits_of_fits_append {hash : U → Nat} {ops more : List (Op U V)}
    (h : Fits n hash (contents (ops ++ more))) : Fits n hash (contents ops) := by
  induction more using reverseRecOn with
  | nil => rwa [append_nil] at h
  | append_singleton more op ih =>
    rw [← append_assoc, contents_concat] at h
    refine ih fun b => lt_of_le_of_lt ?_ (h b)
    exact (length_bucketPart_effect hash (increasing_contents _) op b).1

variable {hash : U → Nat} {r : HashSpdbRep n U V}

/-- The hash table and the vectors hold the same set. -/
structure RepOk (hash : U → Nat) (S : List (Entry U V)) (r : HashSpdbRep n U V) : Prop where
  table : TableOk hash S r.spdbHashTable
  container : ContainerOk S r.spdbVectorsCont

section

variable (h : RepOk hash S r) (hfits : Fits n hash S) (hS : Increasing Prod.fst S)
include h hfits hS

theorem RepOk.insertKey_of_mem {e x : Entry U V} (hx : x ∈ S)
    (heq : x.1 = e.1) : r.insertKey hash e = none := by
  have hxb : x ∈ bucketPart hash S (bucketIndex hash e.1.userKey : Fin n) :=
    mem_bucketPart.mpr ⟨hx, by rw [heq]⟩
  rw [insertKey, BucketHeader.add, h.table.elementsNum_eq hfits, h.table.items,
    addLoop_of_mem (increasing_bucketPart hS _) hxb heq]
  rfl

/-- `InsertKey` takes a key that is new. -/
theorem RepOk.insertKey_of_fresh {e : Entry U V} (hfresh : ∀ x ∈ S, x.1 ≠ e.1) :
    ∃ r', r.insertKey hash e = some r' ∧ RepOk hash (OrderedSet.insert Prod.fst e S) r' := by
  obtain ⟨bucket, hadd, htable⟩ := h.table.add_of_fresh hfits hS hfresh
  refine ⟨{ spdbHashTable := update r.spdbHashTable (bucketIndex hash e.1.userKey) bucket
            spdbVectorsCont := r.spdbVectorsCont.insert e }, ?_, htable, ?_⟩
  · rw [insertKey, hadd]
    rfl
  · have hinsert := h.container.insert e
    have hperm := insert_perm hfresh
    exact ⟨⟨hinsert.holds.vectorOk, hinsert.holds.perm.trans hperm.symm⟩,
      hinsert.count.trans hperm.length_eq.symm⟩

/-- **One operation** keeps the invariant, if no counter has wrapped before. -/
theorem RepOk.step (op : Op U V) : RepOk hash (effect S op) (r.step hash op) := by
  cases op with
  | insertKey e =>
    change RepOk hash (insert Prod.fst e S) ((r.insertKey hash e).getD r)
    by_cases hmem : ∃ x ∈ S, x.1 = e.1
    · obtain ⟨x, hx, heq⟩ := hmem
      rw [h.insertKey_of_mem hfits hS hx heq, insert_of_mem hS hx heq]
      exact h
    · push Not at hmem
      obtain ⟨r', hinsert, hok⟩ := h.insertKey_of_fresh hfits hS hmem
      rw [hinsert]
      exact hok
  | getIterator partOfFlush => exact ⟨h.table, (h.container.initIterator partOfFlush).1⟩
  | sortVector i => exact ⟨h.table, h.container.sortVector hS i⟩
  | markReadOnly => exact ⟨h.table, h.container.holds, h.container.count⟩

end

variable {ops : List (Op U V)}

theorem RepOk.concat {useMerge : Bool}
    (h : RepOk hash (contents ops) (run hash useMerge ops : HashSpdbRep n U V))
    (hfits : Fits n hash (contents ops)) (op : Op U V) :
    RepOk hash (contents (ops ++ [op])) (run hash useMerge (ops ++ [op]) : HashSpdbRep n U V) := by
  rw [contents_concat, run, foldl_append]
  exact h.step hfits (increasing_contents ops) op

/-- **The invariant of all runs.** -/
theorem repOk_run (useMerge : Bool) (hfits : Fits n hash (contents ops)) :
    RepOk hash (contents ops) (run hash useMerge ops : HashSpdbRep n U V) := by
  induction ops using reverseRecOn with
  | nil => exact ⟨⟨fun _ => rfl, fun _ => rfl⟩, containerOk_new useMerge⟩
  | append_singleton ops op ih =>
    have hbefore := fits_of_fits_append hfits
    exact (ih hbefore).concat hbefore op

/-- What a memtable shows of its contents. -/
structure Refines (hash : U → Nat) (S : List (Entry U V)) (r : HashSpdbRep n U V) : Prop where
  insertKey : ∀ e : Entry U V, r.insertKey hash e = none ↔ ∃ x ∈ S, x.1 = e.1
  contains : ∀ k : InternalKey U, r.contains hash k = true ↔ ∃ x ∈ S, x.1 = k
  get : ∀ k : LookupKey U, ∃ others : List (Entry U V), (∀ x ∈ others, x.1.userKey ≠ k.userKey) ∧
    ∀ (σ : Type) (callback : σ → Entry U V → σ × Bool) (args : σ),
      r.get hash callback k args = handTo callback (visible k S ++ others) args
  iterator : ∀ partOfFlush : Bool, r.spdbVectorsCont.useMerge = true ∨ partOfFlush = true →
    ∀ calls : List (BidiCall (InternalKey U)),
      (calls.foldlM call (r.getIterator partOfFlush).2).map
          view =
        (calls.foldlM (bidiCall Prod.fst S) none).map (current S)

/-- An iterator of an empty memtable shows nothing. -/
theorem emptyIterator_behaves :
    BidiBehaves Prod.fst ([] : List (Entry U V)) call view
      fun it => it.isEmpty = true := by
  have hview : ∀ it : SpdbVectorIterator U V, it.isEmpty = true → it.view = none := by
    intro it h
    rw [view, if_pos h]
  have hseek : ∀ (it : SpdbVectorIterator U V) seekKey up, it.isEmpty = true →
      it.seekIter seekKey up = it := by
    intro it seekKey up h
    rw [seekIter, if_pos h]
  have hfirst : ∀ {ω : Type} [LinearOrder ω] {ord : Entry U V → ω} {p : Entry U V → Prop}
      {it : SpdbVectorIterator U V}, it.isEmpty = true → IsFirst ord [] p it.view := by
    intro ω _ ord p it h
    rw [hview it h]
    exact isFirst_none fun x hx => absurd hx not_mem_nil
  have hinvalid : ∀ {it : SpdbVectorIterator U V} {x : Entry U V}, it.isEmpty = true →
      it.view ≠ some x := by
    intro it x h hx
    rw [hview it h] at hx
    cases hx
  refine ⟨⟨⟨?_, ?_, ?_, ?_⟩, ?_, ?_, ?_⟩, ?_⟩
  · intro it h
    exact ⟨it, congrArg some (hseek it none true h), h, hfirst h⟩
  · intro it target h
    exact ⟨it, congrArg some (hseek it (some target) true h), h, hfirst h⟩
  · intro it x h hx
    exact absurd hx (hinvalid h)
  · intro it _ hnone
    change (if it.view.isSome then it.move true else none) = none
    rw [hnone]
    rfl
  · intro it h
    exact ⟨it, congrArg some (hseek it none false h), h, hfirst h⟩
  · intro it x h hx
    exact absurd hx (hinvalid h)
  · intro it _ hnone
    change (if it.view.isSome then it.move false else none) = none
    rw [hnone]
    rfl
  · intro it target h
    exact ⟨it, congrArg some (hseek it (some target) false h), h, hfirst h⟩

/-- **A state that has not wrapped** refines its contents. -/
theorem RepOk.refines (h : RepOk hash S r) (hfits : Fits n hash S)
    (hS : Increasing Prod.fst S) : Refines hash S r := by
  have hempty : r.spdbVectorsCont.numElements = 0 → S = [] := fun hzero =>
    length_eq_zero_iff.mp (h.container.count.symm.trans hzero)
  refine ⟨?_, ?_, ?_, ?_⟩
  · intro e
    constructor
    · intro hnone
      by_contra hmem
      push Not at hmem
      obtain ⟨r', hsome, -⟩ := h.insertKey_of_fresh hfits hS hmem
      rw [hnone] at hsome
      cases hsome
    · rintro ⟨x, hx, heq⟩
      exact h.insertKey_of_mem hfits hS hx heq
  · intro k
    rw [contains]
    by_cases hzero : r.spdbVectorsCont.numElements = 0
    · rw [if_pos hzero, hempty hzero]
      exact iff_of_false Bool.false_ne_true (by simp)
    · rw [if_neg hzero]
      exact h.table.contains_iff hfits hS k
  · intro k
    obtain ⟨others, hothers, hget⟩ := h.table.get_eq hfits hS k
    by_cases hzero : r.spdbVectorsCont.numElements = 0
    · refine ⟨[], nofun, ?_⟩
      intro σ callback args
      rw [get, if_pos hzero, hempty hzero]
      rfl
    · refine ⟨others, hothers, ?_⟩
      intro σ callback args
      rw [get, if_neg hzero]
      exact hget σ callback args
  · intro partOfFlush huse calls
    have hinit := (h.container.initIterator partOfFlush).2 huse
    have hinside : Inside S none := nofun
    change (calls.foldlM call
      (SpdbVectorIterator.new (r.spdbVectorsCont.initIterator partOfFlush).2)).map _ = _
    cases hvs : (r.spdbVectorsCont.initIterator partOfFlush).2 with
    | none =>
      rw [hvs] at hinit
      obtain rfl : S = [] := hinit
      exact emptyIterator_behaves.run Pairwise.nil rfl hinside rfl calls
    | some vs =>
      rw [hvs] at hinit
      exact (iterator_behaves hS).run hS
        (ready_new hinit hS) hinside rfl calls

/-- A bucket whose counter is zero again is taken for empty. -/
theorem RepOk.contains_of_wrapped (h : RepOk hash S r) {k : InternalKey U}
    (hwrapped : (bucketPart hash S (bucketIndex hash k.userKey : Fin n)).length =
      elementsNumRange) : r.contains hash k = false := by
  have hcounter : (r.spdbHashTable (bucketIndex hash k.userKey)).elementsNum = 0 := by
    rw [h.table.elementsNum, hwrapped, Nat.mod_self]
  rw [contains, BucketHeader.contains, if_pos hcounter]
  split_ifs <;> rfl

/-- **The memtable is an ordered set** in all states of a run exactly if no bucket gets as
many entries as its counter can count. -/
theorem hashSpdb_refines_iff
    (hash : U → Nat)
    (useMerge : Bool)
    (ops : List (Op U V)) :
    (∀ done, done <+: ops →
        Refines hash (contents done) (run hash useMerge done : HashSpdbRep n U V)) ↔
      ∀ b : Fin n, (bucketPart hash (contents ops) b).length < elementsNumRange := by
  constructor
  · intro hall
    induction ops using reverseRecOn with
    | nil =>
      intro b
      exact (by decide : 0 < elementsNumRange)
    | append_singleton ops op ih =>
      have hfits : Fits n hash (contents ops) :=
        ih fun done hdone => hall done (hdone.trans (prefix_append ops [op]))
      have hok := (repOk_run useMerge hfits).concat hfits op
      intro b
      by_contra hlarge
      have hle := (length_bucketPart_effect hash (increasing_contents ops) op b).2
      rw [← contents_concat] at hle
      have hwrapped : (bucketPart hash (contents (ops ++ [op])) b).length = elementsNumRange := by
        have hlt := hfits b
        omega
      -- the bucket has entries, and the memtable does not find them
      obtain ⟨x, hx⟩ : ∃ x, x ∈ bucketPart hash (contents (ops ++ [op])) b := by
        refine exists_mem_of_length_pos ?_
        rw [hwrapped]
        decide
      obtain ⟨hxmem, hxb⟩ := mem_bucketPart.mp hx
      have hcontains := ((hall _ (prefix_refl _)).contains x.1).mpr ⟨x, hxmem, rfl⟩
      rw [hok.contains_of_wrapped (by rw [hxb]; exact hwrapped)] at hcontains
      cases hcontains
  · intro hfits done hdone
    obtain ⟨more, rfl⟩ := hdone
    have hbefore : Fits n hash (contents done) := fits_of_fits_append hfits
    exact (repOk_run useMerge hbefore).refines hbefore (increasing_contents done)

/-- Two keys and their versions in two buckets. -/
def twoKeys : List (Op Nat Nat) :=
  [.insertKey (⟨1, 5, .kTypeValue⟩, 10), .getIterator false, .insertKey (⟨0, 6, .kTypeValue⟩, 11),
    .insertKey (⟨1, 7, .kTypeDeletion⟩, 12), .sortVector 0, .insertKey (⟨1, 5, .kTypeValue⟩, 13),
    .markReadOnly]

theorem hashSpdb_refines_iff_twoKeys :
    (∀ b : Fin 2, (bucketPart id (contents twoKeys) b).length < elementsNumRange) ∧
      ∀ done, done <+: twoKeys →
        Refines id (contents done) (run id true done : HashSpdbRep 2 Nat Nat) := by
  have hfits : ∀ b : Fin 2, (bucketPart id (contents twoKeys) b).length < elementsNumRange := by
    decide
  exact ⟨hfits, (hashSpdb_refines_iff id true twoKeys).mpr hfits⟩

/-- The first `count` versions of one user key. -/
def versions (count : Nat) : List (Op Nat Nat) :=
  (List.range count).map fun i => .insertKey (⟨0, i, .kTypeValue⟩, i)

theorem contents_versions_perm (count : Nat) : (contents (versions count)).Perm
      ((range count).map fun i => ((⟨0, i, .kTypeValue⟩ : InternalKey Nat), i)) := by
  have hinserted : (versions count).filterMap Op.inserted =
      (range count).map fun i => ((⟨0, i, .kTypeValue⟩ : InternalKey Nat), i) := by
    rw [versions, filterMap_map]
    exact congrFun filterMap_eq_map _
  rw [contents, hinserted]
  refine insertAll_perm ?_
  rw [nil_append, map_map]
  refine Nodup.map ?_ nodup_range
  intro i j hij
  exact congrArg TaggedKey.sequence hij

theorem length_bucketPart_versions (hash : Nat → Nat) (count : Nat)
    (b : Fin 1) : (bucketPart hash (contents (versions count)) b).length = count := by
  have hall : bucketPart hash (contents (versions count)) b = contents (versions count) := by
    refine filter_eq_self.mpr fun x _ => ?_
    rw [decide_eq_true_iff]
    exact Subsingleton.elim _ _
  rw [hall, (contents_versions_perm count).length_eq, length_map, length_range]

/-- **A bucket with `2 ^ 32` versions of a key**: `Contains` does not find an entry that was
inserted, and `InsertKey` inserts it again. -/
theorem wrappedBucket_forgets : (∃ x ∈ contents (versions elementsNumRange),
        x.1 = (⟨0, 0, .kTypeValue⟩ : InternalKey Nat)) ∧
      (run (fun _ => 0) true (versions elementsNumRange) : HashSpdbRep 1 Nat Nat).contains
        (fun _ => 0) ⟨0, 0, .kTypeValue⟩ = false ∧
      ((run (fun _ => 0) true (versions elementsNumRange) : HashSpdbRep 1 Nat Nat).insertKey
        (fun _ => 0) (⟨0, 0, .kTypeValue⟩, 0)).isSome = true := by
  obtain ⟨count, hcount⟩ : ∃ count, elementsNumRange = count + 1 := ⟨2 ^ 32 - 1, by decide⟩
  have hok : RepOk (fun _ => 0) (contents (versions elementsNumRange))
      (run (fun _ => 0) true (versions elementsNumRange) : HashSpdbRep 1 Nat Nat) := by
    -- the invariant still holds when the counter wraps
    have hfits : Fits 1 (fun _ => 0) (contents (versions count)) := by
      intro b
      rw [length_bucketPart_versions]
      exact hcount.ge
    rw [hcount, versions, range_succ, map_append]
    exact (repOk_run true hfits).concat hfits _
  have hlength := fun b => length_bucketPart_versions (fun _ => 0) elementsNumRange b
  refine ⟨?_, hok.contains_of_wrapped (hlength _), ?_⟩
  on_goal 2 =>
    -- the bucket takes a key that is present once more
    rw [insertKey, BucketHeader.add, hok.table.elementsNum, hlength, Nat.mod_self]
    rfl
  refine ⟨(⟨0, 0, .kTypeValue⟩, 0), ?_, rfl⟩
  refine (contents_versions_perm elementsNumRange).mem_iff.mpr (mem_map.mpr ⟨0, ?_, rfl⟩)
  rw [mem_range, hcount]
  exact Nat.succ_pos count

end HashSpdbRep
end HotTLBApps.Speedb
