import HotTLBApps.Lib.Blocks
import HotTLBApps.Lib.Loops

/-!
# LIBSVM: the examples grouped by class (`svm_group_classes` of `svm.cpp`)

Classes are numbered in the order in which their labels first occur, but for two classes with
labels -1 and 1, where 1 comes first.  `perm` lists the examples class by class.

* `Grouped`: what the first loops have found, for any labels;
* `svmGroupClasses_spec`: `perm` is made of one block for each class, which holds the examples
  of the class in their order, and nothing is written outside of it.

An array from `Malloc` holds `none` where nothing has been written; an access outside of an
array, or to a place that has not been written, is `none`.
-/

namespace HotTLBApps.Libsvm

open Slices Blocks List Option

variable {α : Type*}

def malloc (n : Nat) : List (Option α) :=
  List.replicate n none

/-- The value at a place of an array. -/
def load (buffer : List (Option α)) (i : Nat) : Option α :=
  buffer[i]?.join

/-- The sums of what stands before each place; the first one is written at once. -/
def startsOf : List Nat → Option (List Nat)
  | [] => none
  | count :: counts => some (sumsFrom 0 (count :: counts))

theorem startsOf_map_range (lengths : Nat → Nat) {n : Nat} (h : n ≠ 0) :
    startsOf ((range n).map lengths) = some ((range n).map (offset lengths)) := by
  obtain ⟨n, rfl⟩ := Nat.exists_eq_succ_of_ne_zero h
  rw [← sumsFrom_map_range, range_succ_eq_map]
  rfl

/-- The labels that have been found, how often each, and the class of each example. -/
structure Labels where
  label : List Int
  count : List Nat
  dataLabel : List Nat

/-- The body of the loop over the examples. -/
def Labels.add (s : Labels) (thisLabel : Int) : Labels :=
  if s.label.idxOf thisLabel = s.label.length then
    { label := s.label ++ [thisLabel]
      count := s.count ++ [1]
      dataLabel := s.dataLabel ++ [s.label.idxOf thisLabel] }
  else
    { label := s.label
      count := s.count.modify (s.label.idxOf thisLabel) (· + 1)
      dataLabel := s.dataLabel ++ [s.label.idxOf thisLabel] }

/-- Two classes with labels -1 and 1 are swapped. -/
def Labels.swap (s : Labels) : Labels :=
  if s.label = [-1, 1] then
    { label := [1, -1]
      count := s.count.reverse
      dataLabel := s.dataLabel.map fun c => if c = 0 then 1 else 0 }
  else
    s

structure Classes where
  label : List Int
  start : List Nat
  count : List Nat
  perm : List (Option Nat)

/-- The labels of the classes, in their order. -/
def labels (y : List Int) : Labels :=
  (y.foldl Labels.add ⟨[], [], []⟩).swap

/-- `svm_group_classes`, from the labels of the examples. -/
def svmGroupClasses (y : List Int) : Option Classes := do
  let s := labels y
  let start ← startsOf s.count
  let placed ← scatter (start, malloc y.length) (s.dataLabel.zipIdx.map fun e => (e.1, some e.2))
  some
    { label := s.label
      start := start
      count := s.count
      perm := placed.2 }

/-- What the labels that have been found have to do with those of the examples. -/
structure Grouped (y : List Int) (s : Labels) : Prop where
  nodup : s.label.Nodup
  mem_label : ∀ a, a ∈ s.label ↔ a ∈ y
  count : s.count = s.label.map fun a => y.count a
  dataLabel : s.dataLabel = y.map fun a => s.label.idxOf a

variable {y : List Int} {s : Labels}

theorem Grouped.add (h : Grouped y s) (a : Int) : Grouped (y ++ [a]) (s.add a) := by
  unfold Labels.add
  split
  case isTrue hnew =>
    -- a label that has not been found before
    have hnot : a ∉ s.label := idxOf_eq_length_iff.mp hnew
    have hdata : ∀ b ∈ y, (s.label ++ [a]).idxOf b = s.label.idxOf b := fun b hb =>
      idxOf_append_of_mem ((h.mem_label b).mpr hb)
    refine ⟨?_, fun b => ?_, ?_, ?_⟩
    · exact nodup_append.mpr ⟨h.nodup, nodup_singleton a, by
        rintro b hb _ hc rfl
        exact hnot (mem_singleton.mp hc ▸ hb)⟩
    · rw [mem_append, mem_append, h.mem_label b]
    · have hzero : y.count a = 0 := count_eq_zero.mpr fun ha => hnot ((h.mem_label a).mpr ha)
      dsimp only
      rw [map_append, h.count, map_singleton, count_append, hzero, count_singleton_self]
      congr 1
      refine map_congr_left fun b hb => ?_
      have hne : a ≠ b := fun hab => hnot (hab ▸ hb)
      rw [count_append, count_singleton, if_neg (by simpa using hne), Nat.add_zero]
    · rw [map_append, h.dataLabel, map_singleton,
        idxOf_append_of_notMem hnot, map_congr_left hdata, hnew]
      simp
  case isFalse hold =>
    have hmem : a ∈ s.label := by
      by_contra hnot
      exact hold (idxOf_eq_length_iff.mpr hnot)
    have hlt := idxOf_lt_length_of_mem hmem
    refine ⟨h.nodup, fun b => ?_, ?_, ?_⟩
    · rw [mem_append, mem_singleton, ← h.mem_label b]
      exact ⟨.inl, fun hb => hb.elim id fun hb => hb ▸ hmem⟩
    · rw [h.count]
      apply ext_getElem
      · simp
      · intro c hc hc'
        rw [getElem_modify, getElem_map, getElem_map, count_append, count_singleton]
        rw [length_map] at hc'
        by_cases heq : s.label.idxOf a = c
        · subst heq
          rw [if_pos rfl, getElem_idxOf hlt]
          simp
        · rw [if_neg heq, if_neg, Nat.add_zero]
          intro hac
          rw [beq_iff_eq] at hac
          exact heq (by rw [hac]; exact h.nodup.idxOf_getElem c hc')
    · rw [map_append, h.dataLabel, map_singleton]

theorem grouped_foldl (y : List Int) : Grouped y (y.foldl Labels.add ⟨[], [], []⟩) := by
  induction y using reverseRecOn with
  | nil => exact ⟨nodup_nil, fun _ => Iff.rfl, rfl, rfl⟩
  | append_singleton y a ih =>
    rw [foldl_append, foldl_cons, foldl_nil]
    exact ih.add a

theorem Grouped.swap (h : Grouped y s) : Grouped y s.swap := by
  unfold Labels.swap
  split
  case isFalse => exact h
  case isTrue hlabel =>
    have hmem : ∀ a ∈ y, a = -1 ∨ a = 1 := by
      intro a ha
      have hin := (h.mem_label a).mpr ha
      rw [hlabel] at hin
      simpa using hin
    have hnodup : ([1, -1] : List Int).Nodup := by decide
    refine ⟨hnodup, fun a => ?_, ?_, ?_⟩
    · rw [← h.mem_label a, hlabel]
      simp [or_comm]
    · rw [h.count, hlabel]
      rfl
    · rw [h.dataLabel, List.map_map, hlabel]
      refine map_congr_left fun a ha => ?_
      obtain rfl | rfl := hmem a ha <;> rfl

/-- **The classes** of any examples. -/
theorem grouped_labels (y : List Int) : Grouped y (labels y) :=
  (grouped_foldl y).swap

/-- The label of a class. -/
def labelOf (y : List Int) (c : Nat) : Int :=
  (labels y).label.getD c 0

def nrClass (y : List Int) : Nat :=
  (labels y).label.length

/-- The examples with a label. -/
def indicesOf (y : List Int) (a : Int) : List Nat :=
  (y.zipIdx.filter fun e => e.1 = a).map Prod.snd

theorem length_indicesOf (y : List Int) (a : Int) : (indicesOf y a).length = y.count a := by
  have hfst : y.zipIdx.map Prod.fst = y := zipIdx_map_fst 0 y
  unfold indicesOf
  conv_rhs => rw [← hfst]
  rw [length_map, count, countP_map, ← countP_eq_length_filter]
  rfl

theorem label_eq (y : List Int) : (labels y).label = (range (nrClass y)).map (labelOf y) := by
  apply ext_getElem
  · simp [nrClass]
  · intro c hc hc'
    simp [labelOf, hc]

theorem count_eq (y : List Int) :
    (labels y).count = (List.range (nrClass y)).map fun c => y.count (labelOf y c) := by
  rw [(grouped_labels y).count, label_eq, List.map_map]
  rfl

variable {c : Nat}

theorem idxOf_eq_iff {a : Int} (ha : a ∈ y)
    (hc : c < nrClass y) : (labels y).label.idxOf a = c ↔ a = labelOf y c := by
  have h := grouped_labels y
  have hget : labelOf y c = (labels y).label[c] := by
    rw [labelOf, getD_eq_getElem?_getD, getElem?_eq_getElem hc, getD_some]
  rw [hget]
  constructor
  · rintro rfl
    exact (getElem_idxOf hc).symm
  · rintro rfl
    exact h.nodup.idxOf_getElem c hc

theorem valuesOf_dataLabel (hc : c < nrClass y) :
    valuesOf ((labels y).dataLabel.zipIdx.map fun e => (e.1, some e.2)) c =
      (indicesOf y (labelOf y c)).map some := by
  unfold valuesOf indicesOf
  rw [(grouped_labels y).dataLabel, List.zipIdx_map, List.map_map, List.filter_map, List.map_map,
    List.map_map]
  congr 1
  refine filter_congr fun e he => ?_
  have hmem : e.1 ∈ y := fst_mem_of_mem_zipIdx he
  simp [idxOf_eq_iff hmem hc]

theorem sum_count (y : List Int) : (labels y).count.sum = y.length := by
  have h := grouped_labels y
  have hperm : (labels y).label.Perm y.dedup :=
    (perm_ext_iff_of_nodup h.nodup y.nodup_dedup).mpr fun a => by
      rw [h.mem_label, mem_dedup]
  rw [h.count, (hperm.map _).sum_eq]
  exact sum_map_count_dedup_eq_length y

theorem nrClass_ne_zero (hy : y ≠ []) : nrClass y ≠ 0 := by
  intro hzero
  have hsum := sum_count y
  rw [count_eq, hzero] at hsum
  exact hy (eq_nil_of_length_eq_zero hsum.symm)

/-- **The examples are listed class by class.** -/
theorem svmGroupClasses_spec (hy : y ≠ []) : svmGroupClasses y = some
      { label := (labels y).label
        start := (range (nrClass y)).map (offset fun c => y.count (labelOf y c))
        count := (range (nrClass y)).map fun c => y.count (labelOf y c)
        perm := flat (nrClass y) fun c => (indicesOf y (labelOf y c)).map some } := by
  have h := grouped_labels y
  have hlength : (labels y).count.length = nrClass y := by rw [count_eq, length_map, length_range]
  have hbuffer : (malloc y.length : List (Option Nat)).length = (labels y).count.sum := by
    rw [malloc, length_replicate, sum_count]
  have hindex : ∀ e ∈ (labels y).dataLabel.zipIdx.map fun e => (e.1, some e.2),
      e.1 < (labels y).count.length := by
    intro e he
    obtain ⟨e', he', rfl⟩ := mem_map.mp he
    have hmem := fst_mem_of_mem_zipIdx he'
    rw [h.dataLabel] at hmem
    obtain ⟨a, ha, hidx⟩ := mem_map.mp hmem
    rw [hlength]
    rw [← hidx]
    exact idxOf_lt_length_of_mem ((h.mem_label a).mpr ha)
  have hlengths : ∀ c (hc : c < (labels y).count.length),
      (valuesOf ((labels y).dataLabel.zipIdx.map fun e => (e.1, some e.2)) c).length =
        (labels y).count[c] := by
    intro c hc
    rw [hlength] at hc
    rw [valuesOf_dataLabel hc, length_map, length_indicesOf]
    simp only [count_eq, getElem_map, getElem_range]
  obtain ⟨offsets, perm, hscatter, hperm, -, hslices⟩ := scatter_spec hbuffer hindex hlengths
  -- the code has no offset for the end of the last block
  rw [starts_eq_sumsFrom, scatter_concat (by
    intro e he
    rw [sumsFrom_eq, length_map, length_range]
    exact hindex e he)] at hscatter
  obtain ⟨placed, hplaced, hpair⟩ := map_eq_some_iff.mp hscatter
  have hblocks : placed.2 = flat (nrClass y) fun c => (indicesOf y (labelOf y c)).map some := by
    rw [(Prod.mk.inj hpair).2, ← flatten_slices hperm, hlength]
    refine flat_congr fun c hc => ?_
    rw [hslices c (hlength ▸ hc), valuesOf_dataLabel hc]
  rw [count_eq, sumsFrom_map_range] at hplaced
  rw [svmGroupClasses]
  dsimp only [bind_eq_bind]
  rw [count_eq, startsOf_map_range _ (nrClass_ne_zero hy), bind_some, hplaced, bind_some, hblocks]

end HotTLBApps.Libsvm
