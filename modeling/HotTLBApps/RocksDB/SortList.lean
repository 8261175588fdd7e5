import Mathlib

/-!
# RocksDB: the merge operator `SortList` (`utilities/merge_operators/sortlist.cc`)

The operands are ascending integers, separated by commas.  The parser does not look at the length
of an operand: it goes on until it reads a zero byte.
-/

namespace HotTLBApps.RocksDB
namespace SortList

open List

/-- A slice, and the bytes that follow it in memory. -/
structure Slice where
  data : List Char
  behind : List Char

/-- The slice of a `std::string`, which a zero byte follows. -/
def Slice.ofString (data : List Char) : Slice :=
  ⟨data, ['\x00']⟩

/-- `std::stoi`; `none` is an exception. -/
def stoi (s : List Char) : Option Int :=
  let (sign, s) : Int × List Char :=
    match s.dropWhile fun c => [' ', '\t', '\n', '\x0b', '\x0c', '\r'].contains c with
    | '-' :: s => (-1, s)
    | '+' :: s => (1, s)
    | s => (1, s)
  let digits := s.takeWhile Char.isDigit
  let n := sign * Int.ofNat (digits.foldl (fun n c => 10 * n + (c.toNat - 48)) 0)
  if digits = [] ∨ n < -2 ^ 31 ∨ 2 ^ 31 ≤ n then none else some n

/-- `std::to_string`. -/
def to_string (n : Int) : List Char :=
  if n < 0 then '-' :: Nat.toDigits 10 n.natAbs else Nat.toDigits 10 n.natAbs

/-- The loops of `MakeVector`, with `word` the bytes from `begin` on: the integers and the memory
that was not read.  `none` is an exception, or the end of the memory. -/
def makeVectorFrom (word : List Char) : List Char → Option (List Int × List Char)
  | [] => none
  | c :: rest =>
      if c = ',' then do
        let n ← stoi word
        let (ns, rest) ← makeVectorFrom [] rest
        some (n :: ns, rest)
      else if c = '\x00' then
        (stoi word).map fun n => ([n], rest)
      else
        makeVectorFrom (word ++ [c]) rest

def makeVector (slice : Slice) : Option (List Int × List Char) :=
  makeVectorFrom [] (slice.data ++ slice.behind)

def merge (left right : List Int) : List Int :=
  List.merge left right fun l r => decide (l < r)

/-- The integers with commas between them; `none` is `left.back()` of an empty vector. -/
def print (left : List Int) : Option (List Char) :=
  left.getLast?.map fun back => (left.dropLast.flatMap fun n => to_string n ++ [',']) ++ to_string back

/-- `FullMergeV2`, which does not look at the existing value. -/
def fullMergeV2 (_existingValue : Option (List Char)) (operandList : List Slice) :
    Option (List Char) := do
  let left ← operandList.foldlM (fun left slice => (makeVector slice).map fun r => merge left r.1) []
  print left

def partialMerge (leftOperand rightOperand : Slice) : Option (List Char) := do
  let (left, _) ← makeVector leftOperand
  let (right, _) ← makeVector rightOperand
  print (merge left right)

/-- `PartialMergeMulti`: what it returns, and the new value, which it leaves empty. -/
def partialMergeMulti (_operandList : List Slice) : Bool × List Char :=
  (true, [])

/-- The text of integers; it is empty when there are none. -/
def text (ns : List Int) : List Char :=
  (print ns).getD []

/-- The slices of operands that are given by their integers and by what follows them in memory. -/
def slices (operands : List (List Int × List Char)) : List Slice :=
  operands.map fun o => ⟨text o.1, o.2⟩

/-- What is expected of the operator. -/
structure Lawful (existing : Option (List Int)) (operands : List (List Int × List Char)) : Prop where
  full : fullMergeV2 (existing.map text) (slices operands) =
    some (text ((existing.getD [] ++ operands.flatMap Prod.fst).insertionSort (· ≤ ·)))
  multi : ∀ before group after, slices operands = before ++ group ++ after → 2 ≤ group.length →
    (partialMergeMulti group).1 = true →
    fullMergeV2 (existing.map text) (before ++ .ofString (partialMergeMulti group).2 :: after) =
      fullMergeV2 (existing.map text) (slices operands)
  two : ∀ before left right after value, slices operands = before ++ left :: right :: after →
    partialMerge left right = some value →
    fullMergeV2 (existing.map text) (before ++ .ofString value :: after) =
      fullMergeV2 (existing.map text) (slices operands)
  inside : ∀ slice ∈ slices operands, ∀ ns rest, makeVector slice = some (ns, rest) →
    slice.behind.length ≤ rest.length

theorem zero_notMem_to_string (n : Int) : '\x00' ∉ to_string n := by
  have hdigits : '\x00' ∉ Nat.toDigits 10 n.natAbs := fun h =>
    absurd (Nat.isDigit_of_mem_toDigits (by decide) (by decide) h) (by decide)
  rw [to_string]
  split_ifs
  · exact not_mem_cons_of_ne_of_not_mem (by decide) hdigits
  · exact hdigits

theorem zero_notMem_text (ns : List Int) : '\x00' ∉ text ns := by
  rw [text, print]
  cases ns.getLast? with
  | none => exact not_mem_nil
  | some back => simp [zero_notMem_to_string]

/-- **The parser stops behind a zero byte.** -/
theorem exists_read {word memory rest : List Char} {ns : List Int}
    (h : makeVectorFrom word memory = some (ns, rest)) : ∃ read, memory = read ++ '\x00' :: rest := by
  induction memory generalizing word ns with
  | nil => cases h
  | cons c memory ih =>
    have hnext : ∀ {word ns}, makeVectorFrom word memory = some (ns, rest) →
        ∃ read, c :: memory = read ++ '\x00' :: rest := by
      intro word ns hmemory
      obtain ⟨read, rfl⟩ := ih hmemory
      exact ⟨c :: read, rfl⟩
    rw [makeVectorFrom] at h
    split_ifs at h with hcomma hzero
    · obtain ⟨n, -, h⟩ := Option.bind_eq_some_iff.mp h
      obtain ⟨r, hmemory, h⟩ := Option.bind_eq_some_iff.mp h
      cases h
      exact hnext hmemory
    · obtain ⟨n, -, h⟩ := Option.map_eq_some_iff.mp h
      cases h
      exact ⟨[], by rw [hzero]; rfl⟩
    · exact hnext h

/-- A byte behind the slice of an operand is read. -/
theorem length_rest_lt {ns ns' : List Int} {behind rest : List Char}
    (h : makeVector ⟨text ns, behind⟩ = some (ns', rest)) : rest.length < behind.length := by
  obtain ⟨read, hread⟩ := exists_read h
  dsimp only at hread
  obtain ⟨passed, -, rfl⟩ | ⟨unread, hdata, hbehind⟩ := append_eq_append_iff.mp hread
  · simp only [length_append, length_cons]
    omega
  · cases unread with
    | nil =>
      obtain rfl : '\x00' :: rest = behind := hbehind
      exact Nat.lt_succ_self _
    | cons c unread =>
      cases hbehind
      exact absurd (by rw [hdata]; simp) (zero_notMem_text ns)

/-- **No operands are merged as expected**: the first one is read beyond its end, and without
operands there is no last integer. -/
theorem not_lawful
    (existing : Option (List Int))
    (operands : List (List Int × List Char)) :
    ¬ Lawful existing operands := by
  intro h
  cases operands with
  | nil => cases h.full
  | cons o operands =>
    cases hvector : makeVector ⟨text o.1, o.2⟩ with
    | none =>
      have hfull := h.full
      rw [fullMergeV2, slices, map_cons, foldlM_cons, hvector] at hfull
      cases hfull
    | some r =>
      exact absurd (length_rest_lt hvector) (not_lt.mpr (h.inside _ mem_cons_self _ _ hvector))

/-- The existing value is lost, two operands are replaced by an empty one that cannot be parsed,
and the byte behind an operand is read. -/
theorem merge_one_two :
    fullMergeV2 (some ['0']) [.ofString ['1'], .ofString ['2']] = some ['1', ',', '2'] ∧
      fullMergeV2 (some ['0'])
        [.ofString (partialMergeMulti [.ofString ['1'], .ofString ['2']]).2] = none ∧
      makeVector (.ofString ['1']) = some ([1], []) := by
  have hvectors : makeVector (.ofString ['1']) = some ([1], []) ∧
      makeVector (.ofString ['2']) = some ([2], []) := by decide
  have hmerged : merge (merge [] [1]) [2] = [1, 2] := by simp [merge]
  refine ⟨?_, by decide, hvectors.1⟩
  change print (merge (merge [] [1]) [2]) = _
  rw [hmerged]
  decide

end SortList
end HotTLBApps.RocksDB
