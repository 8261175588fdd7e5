import HotTLBApps.Speedb.WriteFlow

/-!
# Speedb: the order of groups and sequence numbers

Sequence numbers are given, and groups are entered, under `add_buffer_mutex_`.

* `FlowData.Ordered`: a group has greater numbers than the groups before it, and its log
  batches are in the order of their numbers;
* `FlowData.Popped`: `PublishedSeq` takes complete groups off the front of the list, and only
  batches of such groups have published numbers.

Each part is kept by every change of the data, under what is known of the call that makes it.
-/

namespace HotTLBApps.Speedb

open List Function FlowData

section Ordered

variable {ι : Type} {batches : ι → SpdbBatch} {d : FlowData ι}

/-- All batches of a group have numbers below `b`. -/
def WritesBatchList.Below (l : WritesBatchList) (b : Nat) : Prop :=
  l.maxSeq < b ∧ ∀ x ∈ l.walWrites, x.next ≤ b

variable {l : WritesBatchList}

theorem WritesBatchList.Below.mono {b b' : Nat} (h : l.Below b) (hle : b ≤ b') : l.Below b' :=
  ⟨lt_of_lt_of_le h.1 hle, fun x hx => (h.2 x hx).trans hle⟩

theorem WritesBatchList.below_add {x : PlacedBatch} {b : Nat} (h : l.Below b)
    (hx : x.next ≤ b) : (l.add x).Below b := by
  have hpos := x.batch.count_pos
  unfold PlacedBatch.next at hx
  refine ⟨?_, fun y hy => ?_⟩
  · change x.sequence + x.batch.count - 1 < b
    omega
  · change y ∈ l.addWal x at hy
    unfold WritesBatchList.addWal at hy
    split at hy
    · exact h.2 y hy
    · obtain hy | hy := mem_append.mp hy
      · exact h.2 y hy
      · rw [mem_singleton.mp hy]
        exact hx

/-- The log batches of the first `n` groups. -/
def FlowData.logged (d : FlowData ι) (n : Nat) : List PlacedBatch :=
  (List.range n).flatMap fun g => (d.lists g).walWrites

theorem FlowData.logged_succ (d : FlowData ι)
    (n : Nat) : d.logged (n + 1) = d.logged n ++ (d.lists n).walWrites := by
  unfold logged
  rw [range_succ, flatMap_append, flatMap_singleton]

theorem logged_congr {d' : FlowData ι} {n : Nat}
    (h : ∀ g < n, (d'.lists g).walWrites = (d.lists g).walWrites) : d'.logged n = d.logged n := by
  refine flatMap_congr fun g hg => ?_
  exact h g (mem_range.mp hg)

theorem FlowData.logged_sublist (d : FlowData ι) {m n : Nat}
    (h : m ≤ n) : (d.logged m).Sublist (d.logged n) := by
  obtain ⟨k, rfl⟩ := Nat.exists_eq_add_of_le h
  unfold logged
  rw [range_add, flatMap_append]
  exact sublist_append_left _ _

/-- Sequence numbers follow the order of the groups. -/
structure FlowData.Ordered (batches : ι → SpdbBatch) (d : FlowData ι) : Prop where
  allocated : ∀ i b, d.sequence i = some b → b + (batches i).count ≤ d.lastAllocated + 1
  below : ∀ g, (d.lists g).Below (d.lastAllocated + 1)
  order : ∀ i g b, d.joined i = some g → d.sequence i = some b →
    ∀ g' < g, (d.lists g').maxSeq < b
  joined_lt : ∀ i g, d.joined i = some g → g < d.created
  maxSeq : ∀ g, (d.lists g).maxSeq ≠ 0 →
    ∃ i b, d.joined i = some g ∧ d.sequence i = some b ∧ b ≤ (d.lists g).maxSeq
  walWrites : ∀ i g b, d.joined i = some g → d.sequence i = some b →
    (batches i).disableWAL = false → ⟨b, batches i⟩ ∈ (d.lists g).walWrites
  sorted : (d.logged d.created).Pairwise fun x y => x.next ≤ y.sequence
  unused : ∀ g, d.created ≤ g → (d.lists g).walWrites = []

theorem FlowData.Ordered.frame (h : d.Ordered batches) (inserted : ι → Bool) (wbLists : List Nat)
    (lastSequence : Nat) (wal : List (List PlacedBatch)) : FlowData.Ordered batches
      { d with
        inserted := inserted
        wbLists := wbLists
        lastSequence := lastSequence
        wal := wal } :=
  ⟨h.allocated, h.below, h.order, h.joined_lt, h.maxSeq, h.walWrites, h.sorted, h.unused⟩

theorem FlowData.Ordered.push (h : d.Ordered batches) : d.push.Ordered batches := by
  refine ⟨h.allocated, h.below, h.order, fun i g hi => (h.joined_lt i g hi).trans_le ?_, h.maxSeq,
    h.walWrites, ?_, fun g hg => h.unused g (Nat.le_of_succ_le hg)⟩
  · exact Nat.le_succ _
  · change (d.push.logged (d.created + 1)).Pairwise _
    have hempty : (d.push.lists d.created).walWrites = [] := h.unused d.created le_rfl
    rw [logged_succ, hempty, append_nil]
    exact h.sorted

theorem FlowData.lists_setComplete (d : FlowData ι) (g g' : Nat) :
    ((d.setComplete g).lists g').walWrites = (d.lists g').walWrites ∧
      ((d.setComplete g).lists g').maxSeq = (d.lists g').maxSeq ∧
        (((d.setComplete g).lists g').completeBatch = true →
          g' = g ∨ (d.lists g').completeBatch = true) := by
  unfold setComplete
  by_cases hg' : g' = g
  · subst hg'
    dsimp only
    rw [update_self]
    exact ⟨rfl, rfl, fun _ => .inl rfl⟩
  · dsimp only
    rw [update_of_ne hg']
    exact ⟨rfl, rfl, .inr⟩

theorem FlowData.Ordered.setComplete (h : d.Ordered batches)
    (g : Nat) : (d.setComplete g).Ordered batches := by
  have hwal := fun g' => (d.lists_setComplete g g').1
  have hmax := fun g' => (d.lists_setComplete g g').2.1
  refine ⟨h.allocated, fun g' => ?_, fun i k b hi hb g' hlt => ?_, h.joined_lt, fun k hk => ?_,
    fun i k b hi hb hlog => ?_, ?_, fun g' hg' => ?_⟩
  · exact ⟨hmax g' ▸ (h.below g').1, hwal g' ▸ (h.below g').2⟩
  · rw [hmax]
    exact h.order i k b hi hb g' hlt
  · rw [hmax] at hk ⊢
    exact h.maxSeq k hk
  · rw [hwal]
    exact h.walWrites i k b hi hb hlog
  · rw [logged_congr fun g' _ => hwal g']
    exact h.sorted
  · rw [hwal]
    exact h.unused g' hg'

variable {i j : ι} {g b : Nat}

theorem ne_of_joined (hi : d.joined i = none) (hj : d.joined j = some g) : j ≠ i := by
  rintro rfl
  cases hi.symm.trans hj

variable [DecidableEq ι]

theorem FlowData.Ordered.allocate (h : d.Ordered batches)
    (hjoined : d.joined i = none) : (d.allocate batches i).Ordered batches := by
  -- a batch that has entered a group is another one
  have hother : ∀ j g b, d.joined j = some g →
      (d.allocate batches i).sequence j = some b → d.sequence j = some b := by
    intro j g b hj hb
    rwa [sequence_allocate_of_ne (ne_of_joined hjoined hj)] at hb
  refine ⟨fun j b hb => ?_, fun g => (h.below g).mono ?_, fun j g b hj hb => ?_, h.joined_lt,
    fun g hg => ?_, fun j g b hj hb => ?_, h.sorted, h.unused⟩
  · change b + _ ≤ d.lastAllocated + (batches i).count + 1
    obtain ⟨rfl, ⟨⟩⟩ | ⟨-, hb⟩ := update_cases hb
    · omega
    · have := h.allocated j b hb
      omega
  · change d.lastAllocated + 1 ≤ d.lastAllocated + (batches i).count + 1
    omega
  · exact h.order j g b hj (hother j g b hj hb)
  · obtain ⟨j, b, hj, hb, hle⟩ := h.maxSeq g hg
    exact ⟨j, b, hj, (FlowData.sequence_allocate_of_ne (ne_of_joined hjoined hj)).trans hb, hle⟩
  · exact h.walWrites j g b hj (hother j g b hj hb)

theorem FlowData.logged_enlist {n : Nat}
    (h : n ≤ g) : (d.enlist batches i g b).logged n = d.logged n :=
  logged_congr fun _ hg' => by rw [lists_enlist_of_ne (by omega)]

/-- **A batch enters the last group**, with numbers above all others. -/
theorem FlowData.Ordered.enlist (h : d.Ordered batches) (hlast : g + 1 = d.created)
    (hjoined : d.joined i = none) (hb : d.sequence i = some b)
    (hfresh : ∀ g', (d.lists g').Below b) : (d.enlist batches i g b).Ordered batches := by
  have hpos := (batches i).count_pos
  refine ⟨h.allocated, fun g' => ?below, fun j k c hj hc g' hlt => ?order,
    fun j k hj => ?joined, fun k hk => ?maxSeq, fun j k c hj hc hwal => ?walWrites, ?sorted,
    fun g' hg' => ?unused⟩
  case below =>
    by_cases hg' : g' = g
    · subst hg'
      rw [lists_enlist_self]
      exact WritesBatchList.below_add (h.below g') (h.allocated i b hb)
    · rw [lists_enlist_of_ne hg']
      exact h.below g'
  case order =>
    -- only the last group has changed, and it is not before another one
    obtain ⟨rfl, ⟨⟩⟩ | ⟨-, hj⟩ := update_cases hj
    · cases hb.symm.trans hc
      rw [lists_enlist_of_ne (by omega)]
      exact (hfresh g').1
    · have := h.joined_lt j k hj
      rw [lists_enlist_of_ne (by omega)]
      exact h.order j k c hj hc g' hlt
  case joined =>
    change k < d.created
    obtain ⟨rfl, ⟨⟩⟩ | ⟨-, hj⟩ := update_cases hj
    · omega
    · exact h.joined_lt j k hj
  case maxSeq =>
    by_cases hkg : k = g
    · subst hkg
      refine ⟨i, b, FlowData.joined_enlist_self, hb, ?_⟩
      rw [lists_enlist_self]
      change b ≤ b + (batches i).count - 1
      omega
    · rw [lists_enlist_of_ne hkg] at hk ⊢
      obtain ⟨j, c, hj, hc, hle⟩ := h.maxSeq k hk
      exact ⟨j, c, (FlowData.joined_enlist_of_ne (ne_of_joined hjoined hj)).trans hj, hc, hle⟩
  case walWrites =>
    obtain ⟨rfl, ⟨⟩⟩ | ⟨-, hj⟩ := update_cases hj
    · cases hb.symm.trans hc
      rw [lists_enlist_self]
      change _ ∈ WritesBatchList.addWal _ _
      unfold WritesBatchList.addWal
      rw [if_neg (by rw [hwal]; exact Bool.false_ne_true)]
      exact mem_append_right _ (mem_singleton_self _)
    · have hmem := h.walWrites j k c hj hc hwal
      by_cases hkg : k = g
      · subst hkg
        rw [lists_enlist_self]
        change _ ∈ WritesBatchList.addWal _ _
        unfold WritesBatchList.addWal
        split
        · exact hmem
        · exact mem_append_left _ hmem
      · rwa [lists_enlist_of_ne hkg]
  case sorted =>
    change ((d.enlist batches i g b).logged d.created).Pairwise _
    have hold := h.sorted
    rw [← hlast] at hold ⊢
    rw [logged_succ, logged_enlist le_rfl, lists_enlist_self]
    change (d.logged g ++ WritesBatchList.addWal _ _).Pairwise _
    unfold WritesBatchList.addWal
    split
    · rwa [logged_succ] at hold
    · rw [← append_assoc, ← logged_succ]
      refine pairwise_append.mpr ⟨hold, pairwise_singleton _ _, fun x hx y hy => ?_⟩
      rw [mem_singleton.mp hy]
      obtain ⟨g', -, hx⟩ := mem_flatMap.mp hx
      exact (hfresh g').2 x hx
  case unused =>
    change d.created ≤ g' at hg'
    rw [lists_enlist_of_ne (by omega)]
    exact h.unused g' hg'

end Ordered

variable {ι : Type} {batches : ι → SpdbBatch} {d : FlowData ι}

/-- How many groups are no longer in the list. -/
def FlowData.popped (d : FlowData ι) : Nat :=
  d.created - d.wbLists.length

/-- What `PublishedSeq` has done. -/
structure FlowData.Popped (d : FlowData ι) : Prop where
  length_le : d.wbLists.length ≤ d.created
  wbLists : d.wbLists = List.range' d.popped d.wbLists.length
  complete : ∀ g < d.popped, (d.lists g).completeBatch = true
  allocated : d.lastSequence ≤ d.lastAllocated
  published : ∀ i b, d.sequence i = some b → b ≤ d.lastSequence →
    ∃ g < d.popped, d.joined i = some g

/-- The loop of `PublishedSeq` takes off the first groups that are complete. -/
theorem popComplete_range' (lists : Nat → WritesBatchList) (first n published : Nat) : ∃ k ≤ n,
      (popComplete lists (range' first n) published).1 = range' (first + k) (n - k) ∧
      (∀ g, first ≤ g → g < first + k → (lists g).completeBatch = true) ∧
      (k = 0 ∧ (popComplete lists (range' first n) published).2 = published ∨
        ∃ g, first ≤ g ∧ g + 1 = first + k ∧
          (popComplete lists (range' first n) published).2 = (lists g).maxSeq) := by
  induction n generalizing first published with
  | zero => exact ⟨0, le_rfl, rfl, fun g _ _ => by omega, .inl ⟨rfl, rfl⟩⟩
  | succ n ih =>
    rw [range'_succ, popComplete]
    split
    case isFalse =>
      exact ⟨0, Nat.zero_le _, range'_succ.symm, fun g _ _ => by omega, .inl ⟨rfl, rfl⟩⟩
    case isTrue hcomplete =>
      obtain ⟨k, hk, hrest, hall, hseq⟩ := ih (first + 1) (lists first).maxSeq
      refine ⟨k + 1, by omega, ?_, fun g hge hlt => ?_, .inr ?_⟩
      · rw [hrest]
        congr 1 <;> omega
      · obtain rfl | hne := eq_or_ne g first
        · exact hcomplete
        · exact hall g (by omega) (by omega)
      · obtain ⟨rfl, hseq⟩ | ⟨g, hge, hlast, hseq⟩ := hseq
        · exact ⟨first, le_rfl, rfl, hseq⟩
        · exact ⟨g, by omega, by omega, hseq⟩

section

variable (h : d.Popped)
include h

/-- **What `PublishedSeq` does**: it takes some complete groups off the list, and the published
number stays, or is the greatest of the last of them. -/
theorem FlowData.Popped.publish_spec : ∃ k ≤ d.wbLists.length,
      d.publish.wbLists = range' (d.popped + k) (d.wbLists.length - k) ∧
      (∀ g < d.popped + k, (d.lists g).completeBatch = true) ∧
      (d.publish.lastSequence = d.lastSequence ∨
        ∃ g, d.popped ≤ g ∧ g + 1 = d.popped + k ∧ (d.lists g).maxSeq ≠ 0 ∧
          d.publish.lastSequence = (d.lists g).maxSeq) := by
  obtain ⟨k, hk, hrest, hall, hseq⟩ :=
    popComplete_range' d.lists d.popped d.wbLists.length 0
  rw [← h.wbLists] at hrest hseq
  refine ⟨k, hk, hrest, fun g hg => ?_, ?_⟩
  · by_cases hlt : g < d.popped
    · exact h.complete g hlt
    · exact hall g (Nat.le_of_not_lt hlt) hg
  · obtain ⟨-, hzero⟩ | ⟨g, hge, hlast, hseq⟩ := hseq
    · exact .inl (if_neg (not_not_intro hzero))
    · by_cases hmax : (d.lists g).maxSeq = 0
      · exact .inl (if_neg (not_not_intro (hseq.trans hmax)))
      · refine .inr ⟨g, hge, hlast, hmax, ?_⟩
        exact (if_pos (hseq.trans_ne hmax)).trans hseq

theorem FlowData.Popped.lastSequence_le_publish
    (hordered : d.Ordered batches) : d.lastSequence ≤ d.publish.lastSequence := by
  obtain ⟨k, -, -, -, hsame | ⟨g, hge, -, hmax, hnew⟩⟩ := h.publish_spec
  · exact hsame.ge
  · -- a batch of the group is not published, and the number is not below that of the batch
    obtain ⟨i, b, hi, hb, hle⟩ := hordered.maxSeq g hmax
    rw [hnew]
    refine le_trans (le_of_not_ge fun hpublished => ?_) hle
    obtain ⟨g', hlt, hi'⟩ := h.published i b hb hpublished
    cases hi.symm.trans hi'
    omega

theorem FlowData.Popped.publish (hordered : d.Ordered batches)
    (hfresh : ∀ i b, d.joined i = none → d.sequence i = some b → ∀ g, (d.lists g).maxSeq < b) :
    d.publish.Popped := by
  obtain ⟨k, hk, hrest, hall, hseq⟩ := h.publish_spec
  have hlen : d.publish.wbLists.length = d.wbLists.length - k := by rw [hrest, length_range']
  have hle := h.length_le
  have hpopped : d.publish.popped = d.popped + k := by
    unfold popped
    rw [hlen]
    change d.created - _ = _
    omega
  refine ⟨?_, ?_, fun g hg => ?_, ?_, fun i b hb hpub => ?_⟩
  · rw [hlen]
    exact (Nat.sub_le _ _).trans hle
  · rw [hpopped, hlen]
    exact hrest
  · rw [hpopped] at hg
    exact hall g hg
  · obtain hsame | ⟨g, -, -, -, hnew⟩ := hseq
    · rw [hsame]
      exact h.allocated
    · rw [hnew]
      exact Nat.le_of_lt_succ (hordered.below g).1
  · rw [hpopped]
    change ∃ g < d.popped + k, d.joined i = some g
    -- a batch that was published before, or one of a group that has been taken off
    obtain hold | hnew : b ≤ d.lastSequence ∨ ∃ g, g + 1 = d.popped + k ∧ b ≤ (d.lists g).maxSeq := by
      obtain hsame | ⟨g, -, hlast, -, hnew⟩ := hseq
      · exact .inl (hsame ▸ hpub)
      · exact .inr ⟨g, hlast, hnew ▸ hpub⟩
    · obtain ⟨g, hlt, hi⟩ := h.published i b hb hold
      exact ⟨g, hlt.trans_le (Nat.le_add_right _ _), hi⟩
    · obtain ⟨g, hlast, hmax⟩ := hnew
      cases hi : d.joined i with
      | none => exact absurd (hfresh i b hi hb g) (Nat.not_lt.mpr hmax)
      | some g' =>
        refine ⟨g', ?_, rfl⟩
        by_contra hlt
        have := hordered.order i g' b hi hb g (by omega)
        omega

/-- What the list of groups is not about. -/
theorem FlowData.Popped.frame (inserted : ι → Bool) (wal : List (List PlacedBatch)) :
    FlowData.Popped { d with inserted := inserted, wal := wal } :=
  ⟨h.length_le, h.wbLists, h.complete, h.allocated, h.published⟩

theorem FlowData.Popped.push : d.push.Popped := by
  have hle := h.length_le
  have hlen : d.push.wbLists.length = d.wbLists.length + 1 := length_append
  have hpopped : d.push.popped = d.popped := by
    unfold popped
    rw [hlen]
    exact Nat.add_sub_add_right _ _ _
  refine ⟨?_, ?_, fun g hg => h.complete g (hpopped ▸ hg), h.allocated, fun i b hb hpub => ?_⟩
  · rw [hlen]
    exact Nat.succ_le_succ hle
  · rw [hpopped, hlen, range'_concat, ← h.wbLists]
    change d.wbLists ++ [d.created] = _
    congr 2
    unfold popped
    omega
  · rw [hpopped]
    exact h.published i b hb hpub

theorem FlowData.Popped.setComplete (g : Nat) : (d.setComplete g).Popped := by
  refine ⟨h.length_le, h.wbLists, fun g' hg' => ?_, h.allocated, h.published⟩
  have hold := h.complete g' hg'
  unfold FlowData.setComplete
  by_cases hg'g : g' = g
  · subst hg'g
    dsimp only
    rw [update_self]
  · dsimp only
    rwa [update_of_ne hg'g]

variable [DecidableEq ι]

theorem FlowData.Popped.allocate (i : ι) : (d.allocate batches i).Popped := by
  refine ⟨h.length_le, h.wbLists, h.complete, h.allocated.trans (Nat.le_add_right _ _),
    fun j b hb hle => ?_⟩
  obtain ⟨rfl, ⟨⟩⟩ | ⟨-, hb⟩ := update_cases hb
  · have := h.allocated
    change d.lastAllocated + 1 ≤ d.lastSequence at hle
    omega
  · exact h.published j b hb hle

theorem FlowData.Popped.enlist {i : ι} {g b : Nat}
    (hjoined : d.joined i = none) : (d.enlist batches i g b).Popped := by
  refine ⟨h.length_le, h.wbLists, fun g' hg' => ?_, h.allocated, fun j c hc hle => ?_⟩
  · have hold := h.complete g' hg'
    by_cases hg'g : g' = g
    · subst hg'g
      rw [lists_enlist_self]
      exact hold
    · rwa [lists_enlist_of_ne hg'g]
  · obtain ⟨k, hlt, hj⟩ := h.published j c hc hle
    exact ⟨k, hlt, (FlowData.joined_enlist_of_ne (ne_of_joined hjoined hj)).trans hj⟩

end

end HotTLBApps.Speedb
