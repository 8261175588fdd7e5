import HotTLBApps.Gapbs.Builder
import HotTLBApps.Lib.Loops

/-!
# GAPBS: building in place (`MakeCSRInPlace` of `src/builder.h`)

The memory of the edge list becomes the array of the neighbours.  The edges are
sorted, squished, and overwritten by their targets.  When symmetrizing, the missing
inverse edges are counted, the lists are spread out to make room at their starts, and
the inverses are added into the free places.

The memory is a list of cells of the size of a vertex number.  `none` stands for an
access outside the memory, for a search in a range that is not partitioned as
`std::binary_search` demands, and for an inverse edge without a free place.

This module has the definitions and the steps before inverses are added:
`spillEdges_spec`, `countInverses_spec`, `spread_spec`.
-/

namespace HotTLBApps.Gapbs

open Slices List Function Option

/-- `operator<` of edges. -/
def edgeLt (a b : EdgePair Nat) : Prop :=
  if a.u = b.u then a.v < b.v else a.u < b.u

instance : DecidableRel edgeLt := fun a b =>
  inferInstanceAs (Decidable (if a.u = b.u then a.v < b.v else a.u < b.u))

/-- The edge list after `sort`, `unique` and the removal of self-loops. -/
def squishEdges (el : List (EdgePair Nat)) : List (EdgePair Nat) :=
  ((el.insertionSort fun a b => ¬ edgeLt b a).destutter
    fun a b => ¬ (a.u = b.u ∧ a.v = b.v)).filter fun e => ¬ e.u = e.v

/-- What the program finds in memory, and how `realloc` answers. -/
structure Heap where
  /-- The cells behind the edges that remain. -/
  rest : List Nat
  /-- What new cells hold. -/
  junk : Nat → Nat
  /-- Whether `realloc` to size zero returns a null pointer. -/
  reallocNull : Bool

def edgeCells (el : List (EdgePair Nat)) : List Nat :=
  el.flatMap fun e => [e.u, e.v]

/-- One turn of the loop that overwrites the edges by their targets. -/
def spillEdge (state : List Nat × List Nat) (i : Nat) : Option (List Nat × List Nat) := do
  let u ← state.2[2 * i]?
  let v ← state.2[2 * i + 1]?
  place state (u, v)

/-- The edges are overwritten by their targets. -/
def spillEdges (state : List Nat × List Nat) (numEdges : Nat) : Option (List Nat × List Nat) :=
  (List.range numEdges).foldlM spillEdge state

/-- Offsets are shifted, from `n` down to zero. -/
def revertOffsets (offsets : List Nat) : Nat → List Nat
  | 0 => offsets.set 0 0
  | n + 1 => revertOffsets (offsets.set (n + 1) (offsets.getD n 0)) n

/-- `realloc`, when it succeeds. -/
def reallocate (junk : Nat → Nat) (cells : List Nat) (size : Nat) : List Nat :=
  (List.range size).map fun i => cells.getD i (junk i)

/-- The neighbours of a vertex, by the offsets. -/
def neighsOf (offsets cells : List Nat) (u : Nat) : Option (List Nat) := do
  let i ← offsets[u]?
  let j ← offsets[u + 1]?
  range? cells i j

/-- The writes of the loop that makes the incoming neighbours. -/
def inverseWrites (offsets cells : List Nat) : List Nat → Option (List (Nat × Nat))
  | [] => some []
  | u :: us => do
      let row ← neighsOf offsets cells u
      let rest ← inverseWrites offsets cells us
      some (row.map (fun v => (v, u)) ++ rest)

/-- The range is partitioned at `x`, as `std::binary_search` demands. -/
def Partitioned (range : List Nat) (x : Nat) : Prop :=
  range.Pairwise fun a b => (b < x → a < x) ∧ (b ≤ x → a ≤ x)

instance (range : List Nat) (x : Nat) : Decidable (Partitioned range x) :=
  inferInstanceAs (Decidable (range.Pairwise fun a b => (b < x → a < x) ∧ (b ≤ x → a ≤ x)))

def binarySearch? (range : List Nat) (x : Nat) : Option Bool :=
  if Partitioned range x then some (decide (x ∈ range)) else none

/-- Step 1 for one neighbour. -/
def countInverse
    (offsets cells : List Nat) (u : Nat) (invsNeeded : List Nat) (v : Nat) : Option (List Nat) := do
  let range ← neighsOf offsets cells v
  let invFound ← binarySearch? range u
  if invFound then
    some invsNeeded
  else
    tally invsNeeded [v]

/-- Step 1 for one vertex. -/
def countInversesOf
    (offsets cells : List Nat) (invsNeeded : List Nat) (u : Nat) : Option (List Nat) := do
  let row ← neighsOf offsets cells u
  row.foldlM (countInverse offsets cells u) invsNeeded

/-- Step 1: the number of inverses that each vertex needs. -/
def countInverses (offsets cells : List Nat) (n : Nat) : Option (List Nat) :=
  (List.range n).foldlM (countInversesOf offsets cells) (List.replicate n 0)

/-- The offsets make room for the missing inverses. -/
def raiseOffsets (totalMissingInv : Nat) : List Nat → List Nat → List Nat
  | o :: offsets, k :: invsNeeded =>
      (o + totalMissingInv) :: raiseOffsets (totalMissingInv + k) offsets invsNeeded
  | o :: _, [] => [o + totalMissingInv]
  | [], _ => []

/-- Step 2 for one vertex: its neighbours move up, the last one first.  Both `i` and
`tail` are one more than the index that is used next. -/
def spreadRow (totalMissingInv newStart : Nat) :
    Nat → Nat → List Nat → Option (Nat × List Nat)
  | 0, tail, cells => some (tail, cells)
  | i + 1, tail, cells =>
      if i < newStart then
        some (tail, cells)
      else if i < totalMissingInv ∨ tail = 0 then
        none
      else do
        let a ← cells[i - totalMissingInv]?
        let cells ← write? cells (tail - 1) a
        spreadRow totalMissingInv newStart i (tail - 1) cells

/-- Step 2 for the vertices below a number, the last one first. -/
def spread (offsets invsNeeded : List Nat) : Nat → Nat → Nat → List Nat → Option (List Nat)
  | 0, _, _, cells => some cells
  | n + 1, tail, totalMissingInv, cells => do
      let o ← offsets[n]?
      let next ← offsets[n + 1]?
      let k ← invsNeeded[n]?
      let (tail, cells) ← spreadRow totalMissingInv (o + k) next tail cells
      if k ≤ totalMissingInv ∧ k ≤ tail then
        spread offsets invsNeeded n (tail - k) (totalMissingInv - k) cells
      else
        none

/-- Step 3 for one index. -/
def addInverse (offsets : List Nat) (u : Nat) (state : List Nat × List Nat)
    (i : Nat) : Option (List Nat × List Nat) := do
  let v ← state.1[i]?
  let o ← offsets[v]?
  let next ← offsets[v + 1]?
  let k ← state.2[v]?
  let range ← range? state.1 (o + k) next
  let invFound ← binarySearch? range u
  if invFound then
    some state
  else
    match k with
    | 0 => none
    | k + 1 => (write? state.1 (o + k) u).map fun cells => (cells, state.2.set v k)

/-- Step 3 for one vertex. -/
def addInversesOf (offsets : List Nat) (state : List Nat × List Nat)
    (u : Nat) : Option (List Nat × List Nat) := do
  let o ← offsets[u]?
  let next ← offsets[u + 1]?
  let k ← state.2[u]?
  (List.range' (o + k) (next - (o + k))).foldlM (addInverse offsets u) state

/-- Step 3: the missing inverses are added. -/
def addInverses
    (offsets : List Nat) (n : Nat) (state : List Nat × List Nat) : Option (List Nat × List Nat) :=
  (List.range n).foldlM (addInversesOf offsets) state

/-- How `MakeCSRInPlace` ends. -/
inductive InPlaceCSR where
  | exit (code : Int) (message : String)
  | directed (out inv : CSR Nat)
  | symmetrized (out : CSR Nat) (invsNeeded : List Nat)

/-- `MakeCSRInPlace` when not symmetrizing, from the overwritten edges on. -/
def finishDirected
    (heap : Heap) (n numEdges : Nat) (offsets indegrees cells : List Nat) : Option InPlaceCSR := do
  let neighs := reallocate heap.junk cells numEdges
  let inoffsets := parallelPrefixSum indegrees
  let invNeighs := allocate heap.junk (inoffsets.getD n 0)
  let writes ← inverseWrites offsets neighs (List.range n)
  let (_, invNeighs) ← scatter (inoffsets, invNeighs) writes
  some (.directed ⟨offsets, neighs⟩ ⟨inoffsets, invNeighs⟩)

/-- `MakeCSRInPlace` when symmetrizing, from the overwritten edges on. -/
def finishSymmetrized (heap : Heap) (n : Nat) (offsets cells : List Nat) : Option InPlaceCSR := do
  let invsNeeded ← countInverses offsets cells n
  let offsets := raiseOffsets 0 offsets invsNeeded
  let newsize := offsets.getD n 0
  if newsize = 0 ∧ heap.reallocNull = true then
    some (.exit (-33) "Call to realloc() failed")
  else do
    let cells := reallocate heap.junk cells newsize
    let cells ← spread offsets invsNeeded n newsize invsNeeded.sum cells
    let (cells, invsNeeded) ← addInverses offsets n (cells, invsNeeded)
    let cells ← mapSlices (fun row => row.insertionSort (· ≤ ·)) offsets n cells
    some (.symmetrized ⟨offsets, cells⟩ invsNeeded)

def makeCSRInPlace
    (heap : Heap) (symmetrize : Bool) (n : Nat) (el : List (EdgePair Nat)) : Option InPlaceCSR := do
  let edges := squishEdges el
  let degrees ← countDegrees symmetrize true false n edges
  let offsets := parallelPrefixSum degrees
  let indegrees ← countDegrees symmetrize true true n edges
  let (offsets, cells) ← spillEdges (offsets, edgeCells edges ++ heap.rest) edges.length
  let offsets := revertOffsets offsets n
  if symmetrize then
    finishSymmetrized heap n offsets cells
  else
    finishDirected heap n edges.length offsets indegrees cells

/-- How `MakeGraphFromEL` ends when it builds in place. -/
inductive InPlaceGraph (n : Nat) where
  | exit (code : Int) (message : String)
  | built (g : CSRGraph n Nat) (invsNeeded : List Nat)

/-- `MakeGraphFromEL`, in place. -/
def makeGraphInPlace (heap : Heap) (symmetrize : Bool)
    (el : List (EdgePair Nat)) : Option (InPlaceGraph (numNodes el)) := do
  let csr ← makeCSRInPlace heap symmetrize (numNodes el) el
  match csr with
  | .exit code message => some (.exit code message)
  | .directed out inv => some (.built (CSRGraph.bidirected (numNodes el) out inv) [])
  | .symmetrized out invsNeeded =>
      some (.built (CSRGraph.undirected (numNodes el) out) invsNeeded)

/-- Edges are compared by their source, then by their target. -/
def edgeKey (e : EdgePair Nat) : Nat ×ₗ Nat :=
  toLex (e.u, e.v)

theorem edgeKey_injective : Injective edgeKey := by
  rintro ⟨u, v⟩ ⟨u', v'⟩ h
  obtain ⟨rfl, rfl⟩ := Prod.mk.inj (toLex.injective h)
  rfl

theorem not_edgeLt_iff (a b : EdgePair Nat) : ¬ edgeLt b a ↔ edgeKey a ≤ edgeKey b := by
  rw [edgeLt, edgeKey, edgeKey, Prod.Lex.toLex_le_toLex]
  split_ifs with h
  · simp [h]
  · omega

theorem destutter_edges (l : List (EdgePair Nat)) :
    (l.destutter fun a b => ¬ (a.u = b.u ∧ a.v = b.v)) =
      l.destutter fun a b => edgeKey a ≠ edgeKey b := by
  have hrel : (fun a b : EdgePair Nat => ¬ (a.u = b.u ∧ a.v = b.v)) =
      fun a b => edgeKey a ≠ edgeKey b := by
    funext a b
    rw [ne_eq, edgeKey_injective.eq_iff, EdgePair.mk.injEq]
  congr!

theorem pairwise_squishEdges (el : List (EdgePair Nat)) :
    (squishEdges el).Pairwise fun a b => edgeKey a < edgeKey b := by
  have hsorted := SortedUnique.pairwise_insertionSort (k := edgeKey) not_edgeLt_iff el
  rw [squishEdges, destutter_edges]
  exact (SortedUnique.pairwise_destutter (fun _ _ h => h) hsorted).filter _

theorem mem_squishEdges {el : List (EdgePair Nat)} {e : EdgePair Nat} :
    e ∈ squishEdges el ↔ e ∈ el ∧ e.u ≠ e.v := by
  have hsorted := SortedUnique.pairwise_insertionSort (k := edgeKey) not_edgeLt_iff el
  rw [squishEdges, destutter_edges, mem_filter,
    SortedUnique.mem_destutter_iff edgeKey_injective (fun _ _ h => h) hsorted,
    mem_insertionSort, decide_eq_true_iff]
  refine and_congr_left fun _ => and_iff_left ?_
  intro y _ heq
  exact heq.ge

def outRow (edges : List (EdgePair Nat)) (u : Nat) : List Nat :=
  valuesOf (edges.map fun e => (e.u, e.v)) u

def outRows (edges : List (EdgePair Nat)) (n : Nat) : List (List Nat) :=
  (List.range n).map (outRow edges)

def outDegrees (edges : List (EdgePair Nat)) (n : Nat) : List Nat :=
  (outRows edges n).map List.length

variable {edges : List (EdgePair Nat)} {n : Nat}

theorem mem_outRow {u v : Nat} : v ∈ outRow edges u ↔ (⟨u, v⟩ : EdgePair Nat) ∈ edges := by
  rw [outRow, mem_valuesOf, List.mem_map]
  constructor
  · rintro ⟨⟨a, b⟩, he, h⟩
    obtain ⟨rfl, rfl⟩ := Prod.mk.inj h
    exact he
  · intro he
    exact ⟨_, he, rfl⟩

@[simp]
theorem length_outRows : (outRows edges n).length = n := by
  simp [outRows]

@[simp]
theorem length_outDegrees : (outDegrees edges n).length = n := by
  simp [outDegrees]

variable {u : Nat}

theorem outRows_getElem
    (hu : u < (outRows edges n).length) : (outRows edges n)[u] = outRow edges u := by
  simp [outRows]

theorem fst_le_of_edgeKey_lt {a b : EdgePair Nat} (h : edgeKey a < edgeKey b) : a.u ≤ b.u := by
  rw [edgeKey, edgeKey, Prod.Lex.toLex_lt_toLex] at h
  obtain h | h := h
  · exact h.le
  · exact h.1.le

section

variable (hsorted : edges.Pairwise fun a b => edgeKey a < edgeKey b)
include hsorted

theorem pairwise_outRow (u : Nat) : (outRow edges u).Pairwise (· < ·) := by
  rw [outRow, valuesOf, pairwise_map, pairwise_filter, pairwise_map]
  refine hsorted.imp ?_
  intro a b hab ha hb
  simp only [decide_eq_true_eq] at ha hb
  rw [edgeKey, edgeKey, Prod.Lex.toLex_lt_toLex] at hab
  obtain hab | hab := hab
  · exact absurd (ha.trans hb.symm) hab.ne
  · exact hab.2

theorem pairwise_sources : (edges.map fun e => (e.u, e.v)).Pairwise fun a b => a.1 ≤ b.1 := by
  rw [pairwise_map]
  exact hsorted.imp fst_le_of_edgeKey_lt

theorem flatten_outRows
    (hn : ∀ e ∈ edges, e.u < n) : (outRows edges n).flatten = edges.map EdgePair.v := by
  have hall : ((edges.map fun e => (e.u, e.v)).filter fun e => e.1 < n) =
      edges.map fun e => (e.u, e.v) := by
    rw [filter_eq_self]
    intro a ha
    obtain ⟨e, he, rfl⟩ := mem_map.mp ha
    simpa using hn e he
  have hrows := flatten_valuesOf (pairwise_sources hsorted) n
  rw [hall, List.map_map] at hrows
  exact hrows

end

variable {i : Nat}

/-- The place of the next edge is its number: the sources are in order. -/
theorem start_add_eq (hsorted : edges.Pairwise fun a b => edgeKey a < edgeKey b)
    (hi : i < edges.length) (hn : edges[i].u ≤ n) :
    start (outDegrees edges n) edges[i].u + (outRow (edges.take i) edges[i].u).length = i := by
  obtain ⟨htake, hdrop, hcross⟩ := pairwise_append.mp ((take_append_drop i edges).symm ▸ hsorted)
  have hbefore : ∀ e ∈ edges.take i, e.u ≤ edges[i].u := by
    rw [drop_eq_getElem_cons hi] at hcross
    exact fun e he => fst_le_of_edgeKey_lt (hcross e he _ mem_cons_self)
  have hafter : ∀ e ∈ edges.drop i, edges[i].u ≤ e.u := by
    rw [drop_eq_getElem_cons hi] at hdrop ⊢
    exact forall_mem_cons.mpr
      ⟨le_rfl, fun e he => fst_le_of_edgeKey_lt (rel_of_pairwise_cons hdrop he)⟩
  generalize edges[i].u = u at hn hbefore hafter
  have hcount : ((range u).map (outRow edges)).flatten =
      ((range u).map (outRow (edges.take i))).flatten := by
    have hdrop : (((edges.drop i).map fun e => (e.u, e.v)).filter fun e => e.1 < u) = [] := by
      rw [filter_eq_nil_iff]
      intro a ha
      obtain ⟨e, he, rfl⟩ := mem_map.mp ha
      simpa using hafter e he
    have hfilter : ((edges.map fun e => (e.u, e.v)).filter fun e => e.1 < u) =
        ((edges.take i).map fun e => (e.u, e.v)).filter fun e => e.1 < u := by
      conv_lhs => rw [← take_append_drop i edges, map_append, filter_append, hdrop, append_nil]
    have hlow := flatten_valuesOf (pairwise_sources hsorted) u
    rw [hfilter] at hlow
    exact hlow.trans (flatten_valuesOf (pairwise_sources htake) u).symm
  have hall : ((range (u + 1)).map (outRow (edges.take i))).flatten.length = i := by
    have hrows := flatten_outRows htake (fun e he => Nat.lt_succ_of_le (hbefore e he))
    rw [outRows] at hrows
    rw [hrows, length_map, length_take]
    omega
  rw [start, outDegrees, outRows, ← map_take, ← map_take, take_range, min_eq_left hn,
    ← length_flatten, hcount]
  rw [range_succ, map_append, flatten_append, length_append] at hall
  simpa using hall

/-- What holds after the first edges were overwritten. -/
structure Spilled (edges : List (EdgePair Nat)) (rest : List Nat) (n i : Nat)
    (state : List Nat × List Nat) : Prop where
  cells : state.2 = (edges.take i).map EdgePair.v ++ (edgeCells edges ++ rest).drop i
  length_offsets : state.1.length = n + 1
  offsets : ∀ u < n, state.1[u]? =
    some (start (outDegrees edges n) u + (outRow (edges.take i) u).length)

theorem edgeCells_getElem? (hi : i < edges.length) : (edgeCells edges)[2 * i]? = some edges[i].u ∧
      (edgeCells edges)[2 * i + 1]? = some edges[i].v := by
  induction edges generalizing i with
  | nil => cases hi
  | cons e edges ih =>
    cases i with
    | zero => exact ⟨rfl, rfl⟩
    | succ i => exact ih (Nat.lt_of_succ_lt_succ hi)

/-- **One edge.**  It is still in memory when it is read, and its target goes to the
place with its number. -/
theorem Spilled.step {rest : List Nat} (hsorted : edges.Pairwise fun a b => edgeKey a < edgeKey b)
    (hn : ∀ e ∈ edges, e.u < n) (hi : i < edges.length) {state : List Nat × List Nat}
    (h : Spilled edges rest n i state) :
    ∃ next, spillEdge state i = some next ∧ Spilled edges rest n (i + 1) next := by
  have hlen : ((edges.take i).map EdgePair.v).length = i := by
    rw [length_map, length_take]
    omega
  have hcells : (edgeCells edges).length = 2 * edges.length := by simp [edgeCells, Nat.mul_comm]
  obtain ⟨hu, hv⟩ := edgeCells_getElem? hi
  have hread : ∀ k, i ≤ k → k < 2 * edges.length → state.2[k]? = (edgeCells edges)[k]? := by
    intro k hik hk
    rw [h.cells, getElem?_append_right (by omega), hlen, getElem?_drop,
      getElem?_append_left (by omega)]
    congr 1
    omega
  have hsource : edges[i].u < n := hn _ (getElem_mem hi)
  have hplace := start_add_eq hsorted hi hsource.le
  have hlt : i < state.2.length := by
    rw [h.cells, length_append, hlen, length_drop, length_append]
    omega
  have hrow : ∀ u, outRow (edges.take (i + 1)) u =
      outRow (edges.take i) u ++ if edges[i].u = u then [edges[i].v] else [] := by
    intro u
    rw [outRow, take_add_one, getElem?_eq_getElem hi, map_append]
    exact valuesOf_concat _ _ _ u
  refine ⟨(state.1.set edges[i].u (i + 1), state.2.set i edges[i].v), ?_, ?_, ?_, ?_⟩
  · rw [spillEdge, hread (2 * i) (by omega) (by omega), hread (2 * i + 1) (by omega) (by omega),
      hu, hv]
    simp only [bind_eq_bind, bind_some]
    rw [place, h.offsets _ hsource, hplace]
    dsimp only
    rw [write?_of_lt hlt]
    rfl
  · rw [h.cells, set_append_right _ _ hlen.le, hlen, Nat.sub_self]
    have hnonempty : i < (edgeCells edges ++ rest).length := by
      rw [length_append]
      omega
    rw [drop_eq_getElem_cons hnonempty, set_cons_zero, take_add_one,
      getElem?_eq_getElem hi, toList_some, map_append, append_assoc]
    rfl
  · rw [length_set, h.length_offsets]
  · intro u hlt'
    rw [getElem?_set, hrow]
    by_cases heq : edges[i].u = u
    · subst heq
      rw [if_pos rfl, if_pos (by rw [h.length_offsets]; omega), if_pos rfl, length_append,
        ← Nat.add_assoc, hplace]
      rfl
    · rw [if_neg heq, if_neg heq, append_nil]
      exact h.offsets u hlt'

/-- **The edges are overwritten by their targets**, row by row. -/
theorem spillEdges_spec (rest : List Nat)
    (hsorted : edges.Pairwise fun a b => edgeKey a < edgeKey b) (hn : ∀ e ∈ edges, e.u < n) :
    ∃ offsets tail, spillEdges (starts (outDegrees edges n), edgeCells edges ++ rest)
        edges.length = some (offsets, (outRows edges n).flatten ++ tail) ∧
      offsets.length = n + 1 ∧
      ∀ u < n, offsets[u]? = some (start (outDegrees edges n) (u + 1)) := by
  have hinit : Spilled edges rest n 0 (starts (outDegrees edges n), edgeCells edges ++ rest) := by
    refine ⟨by simp, by simp, fun u hu => ?_⟩
    rw [starts_getElem? (by simpa using hu.le)]
    rfl
  obtain ⟨⟨offsets, cells⟩, hstate, hspilled⟩ := Loops.foldlM_range_total
    (f := spillEdge) (fun _ hi _ h => h.step hsorted hn hi) hinit
  have hcells := hspilled.cells
  rw [take_length, ← flatten_outRows hsorted hn] at hcells
  subst hcells
  refine ⟨offsets, _, hstate, hspilled.length_offsets, ?_⟩
  intro u hu
  have hoffset := hspilled.offsets u hu
  rw [take_length] at hoffset
  rw [hoffset, start_succ (by simpa using hu)]
  simp [outDegrees, outRows]

theorem revertOffsets_getElem? {offsets : List Nat} {k : Nat} (hk : k < offsets.length) (i : Nat) :
    (revertOffsets offsets k)[i]? =
      if i = 0 then some 0 else if i ≤ k then some (offsets.getD (i - 1) 0) else offsets[i]? := by
  induction k generalizing offsets with
  | zero =>
    rw [revertOffsets, getElem?_set]
    by_cases hi : i = 0
    · subst hi
      rw [if_pos rfl, if_pos rfl, if_pos hk]
    · rw [if_neg (Ne.symm hi), if_neg hi, if_neg (by omega)]
  | succ k ih =>
    rw [revertOffsets, ih (by rw [length_set]; omega)]
    split_ifs with h₀ h₁ h₂ h₂
    · rfl
    · congr 1
      rw [getD_eq_getElem?_getD, getElem?_set_ne (by omega), ← getD_eq_getElem?_getD]
    · omega
    · have hik : i = k + 1 := by omega
      subst hik
      rw [getElem?_set_self hk]
      rfl
    · rw [getElem?_set_ne (by omega)]

theorem revertOffsets_eq {offsets lengths : List Nat} (hlengths : lengths.length = n)
    (hlength : offsets.length = n + 1) (h : ∀ u < n, offsets[u]? = some (start lengths (u + 1))) :
    revertOffsets offsets n = starts lengths := by
  apply ext_getElem?
  intro i
  rw [revertOffsets_getElem? (by omega)]
  split_ifs with h₀ h₁
  · subst h₀
    rw [starts_getElem? (by omega)]
    simp [start]
  · rw [starts_getElem? (by omega), getD_eq_getElem?_getD, h _ (by omega), getD_some,
      Nat.sub_add_cancel (by omega)]
  · rw [getElem?_eq_none (by omega), getElem?_eq_none (by rw [length_starts]; omega)]

variable {rows : List (List Nat)} {tail : List Nat}

theorem neighsOf_eq (tail : List Nat) (hu : u < rows.length) :
    neighsOf (starts (rows.map length)) (rows.flatten ++ tail) u = some rows[u] := by
  have hlen : u < (rows.map length).length := by rwa [length_map]
  have hrange := range?_flatten hu (Nat.zero_le _)
  rw [neighsOf, starts_getElem? hlen.le, starts_getElem? (Nat.succ_le_of_lt hlen)]
  exact range?_append hrange tail

variable {range : List Nat}

theorem partitioned_of_sorted (h : range.Pairwise (· < ·)) (x : Nat) : Partitioned range x :=
  h.imp fun hab => ⟨fun hb => hab.trans hb, fun hb => hab.le.trans hb⟩

theorem binarySearch?_eq {x : Nat}
    (h : Partitioned range x) : binarySearch? range x = some (decide (x ∈ range)) :=
  if_pos h

/-- The inverse edges that are missing, as pairs of their source and their target. -/
def missing (rows : List (List Nat)) (us : List Nat) : List (Nat × Nat) :=
  us.flatMap fun u => ((rows.getD u []).filter fun v => u ∉ rows.getD v []).map fun v => (v, u)

theorem mem_missing {us : List Nat} {u v : Nat} :
    (v, u) ∈ missing rows us ↔ u ∈ us ∧ v ∈ rows.getD u [] ∧ u ∉ rows.getD v [] := by
  simp only [missing, List.mem_flatMap, List.mem_map, List.mem_filter, decide_eq_true_eq,
    Prod.mk.injEq]
  constructor
  · rintro ⟨u', hu', v', hv', rfl, rfl⟩
    exact ⟨hu', hv'⟩
  · rintro ⟨hu, hv⟩
    exact ⟨u, hu, v, hv, rfl, rfl⟩

/-- The number of inverses that each vertex needs. -/
def needed (rows : List (List Nat)) : List Nat :=
  (List.range rows.length).map fun v =>
    (valuesOf (missing rows (List.range rows.length)) v).length

@[simp]
theorem length_needed (rows : List (List Nat)) : (needed rows).length = rows.length := by
  simp [needed]

theorem tally_append (counts l l' : List Nat) :
    tally counts (l ++ l') = (tally counts l).bind fun counts => tally counts l' := by
  induction l generalizing counts with
  | nil => rfl
  | cons i l ih =>
    rw [cons_append, tally, tally]
    cases counts[i]? with
    | none => rfl
    | some c => exact ih _

/-- Rows of vertices below `n`, each strictly increasing. -/
structure RowsOk (rows : List (List Nat)) : Prop where
  sorted : ∀ u (hu : u < rows.length), rows[u].Pairwise (· < ·)
  bound : ∀ u (hu : u < rows.length), ∀ v ∈ rows[u], v < rows.length
  irrefl : ∀ u (hu : u < rows.length), u ∉ rows[u]

theorem countInverse_foldlM (hrows : RowsOk rows) (u : Nat) {vs : List Nat}
    (hvs : ∀ v ∈ vs, v < rows.length) (invsNeeded : List Nat) :
    vs.foldlM (countInverse (starts (rows.map length)) (rows.flatten ++ tail) u) invsNeeded =
      tally invsNeeded (vs.filter fun v => u ∉ rows.getD v []) := by
  induction vs generalizing invsNeeded with
  | nil => rfl
  | cons v vs ih =>
    have hv := hvs v mem_cons_self
    have hrest := ih fun x hx => hvs x (mem_cons_of_mem _ hx)
    have hstep : countInverse (starts (rows.map length)) (rows.flatten ++ tail) u
        invsNeeded v = tally invsNeeded (if u ∈ rows[v] then [] else [v]) := by
      rw [countInverse, neighsOf_eq tail hv]
      simp only [bind_eq_bind, bind_some,
        binarySearch?_eq (partitioned_of_sorted (hrows.sorted v hv) u)]
      by_cases hfound : u ∈ rows[v]
      · simp [hfound, tally]
      · simp [hfound]
    have hfilter : ((v :: vs).filter fun v => u ∉ rows.getD v []) =
        (if u ∈ rows[v] then [] else [v]) ++ vs.filter fun v => u ∉ rows.getD v [] := by
      rw [filter_cons, getD_eq_getElem _ _ hv]
      by_cases hfound : u ∈ rows[v] <;> simp [hfound]
    rw [foldlM_cons, hstep, hfilter, tally_append]
    simp only [bind_eq_bind, hrest]

/-- **Step 1** counts the missing inverses. -/
theorem countInverses_spec (hrows : RowsOk rows) (tail : List Nat) :
    countInverses (starts (rows.map length)) (rows.flatten ++ tail) rows.length =
      some (needed rows) := by
  have hrun : ∀ (us counts : List Nat), (∀ u ∈ us, u < rows.length) →
      us.foldlM (countInversesOf (starts (rows.map length)) (rows.flatten ++ tail)) counts =
        tally counts ((missing rows us).map Prod.fst) := by
    intro us
    induction us with
    | nil =>
      intro counts _
      rfl
    | cons u us ih =>
      intro counts hus
      have hu := hus u mem_cons_self
      have hmap : ((missing rows (u :: us)).map Prod.fst) =
          (rows[u].filter fun v => u ∉ rows.getD v []) ++ (missing rows us).map Prod.fst := by
        rw [missing, List.flatMap_cons, List.map_append, List.map_map, getD_eq_getElem _ _ hu]
        congr 1
        exact map_id _
      rw [foldlM_cons, countInversesOf, neighsOf_eq tail hu, hmap, tally_append]
      simp only [bind_eq_bind, bind_some]
      rw [countInverse_foldlM hrows u (hrows.bound u hu)]
      congr 1
      funext counts
      exact ih counts fun x hx => hus x (mem_cons_of_mem _ hx)
  rw [countInverses, hrun _ _ (fun u hu => mem_range.mp hu), tally_replicate, needed]
  · congr 1
    apply map_congr_left
    intro v _
    exact (length_valuesOf _ _).symm
  · intro v hv
    obtain ⟨⟨v, u⟩, hmem, rfl⟩ := mem_map.mp hv
    obtain ⟨hu, hv', -⟩ := mem_missing.mp hmem
    rw [getD_eq_getElem _ _ (mem_range.mp hu)] at hv'
    exact hrows.bound u _ v hv'

variable {degrees invsNeeded : List Nat}

theorem raiseOffsets_eq (total s : Nat) (h : degrees.length = invsNeeded.length) :
    raiseOffsets total (sumsFrom s degrees ++ [s + degrees.sum]) invsNeeded =
      sumsFrom (s + total) (zipWith (· + ·) degrees invsNeeded) ++
        [s + total + (zipWith (· + ·) degrees invsNeeded).sum] := by
  induction degrees generalizing total s invsNeeded with
  | nil =>
    cases invsNeeded with
    | nil => simp [sumsFrom, raiseOffsets]
    | cons k invsNeeded => cases h
  | cons d degrees ih =>
    cases invsNeeded with
    | nil => cases h
    | cons k invsNeeded =>
      have hrest := ih (total + k) (s + d) (Nat.succ.inj h)
      rw [sumsFrom, cons_append, raiseOffsets, sum_cons, ← Nat.add_assoc, hrest,
        zipWith_cons_cons, sumsFrom, cons_append, sum_cons]
      rw [show s + d + (total + k) = s + total + (d + k) by omega, Nat.add_assoc (s + total)]

theorem raiseOffsets_starts (h : degrees.length = invsNeeded.length) :
    raiseOffsets 0 (starts degrees) invsNeeded = starts (zipWith (· + ·) degrees invsNeeded) := by
  have hraise := raiseOffsets_eq 0 0 h
  rw [Nat.zero_add, Nat.zero_add, Nat.zero_add] at hraise
  rw [starts_eq_sumsFrom, starts_eq_sumsFrom, hraise]

theorem start_zipWith (h : degrees.length = invsNeeded.length) (n : Nat) :
    start (zipWith (· + ·) degrees invsNeeded) n = start degrees n + start invsNeeded n := by
  rw [start, start, start, take_zipWith]
  exact (sum_add_sum_eq_sum_zipWith_of_length_eq _ _ (by simp [h])).symm

variable {cells : List Nat}

/-- **Step 2 for one vertex**: the cells move up; a cell that is still to be read is
below the one that is written. -/
theorem spreadRow_spec {total newStart : Nat} (htotal : total ≤ newStart)
    (hi : newStart ≤ i) (hcells : i ≤ cells.length) :
    ∃ cells', spreadRow total newStart i i cells = some (newStart, cells') ∧
      cells'.length = cells.length ∧
      (∀ k, newStart ≤ k → k < i → cells'[k]? = cells[k - total]?) ∧
      ∀ k, k < newStart ∨ i ≤ k → cells'[k]? = cells[k]? := by
  induction i generalizing cells with
  | zero =>
    obtain rfl : newStart = 0 := by omega
    exact ⟨cells, rfl, rfl, fun k _ hk => absurd hk (Nat.not_lt_zero k), fun _ _ => rfl⟩
  | succ i ih =>
    obtain hlt | hge := Nat.lt_or_ge i newStart
    · obtain rfl : newStart = i + 1 := by omega
      refine ⟨cells, ?_, rfl, fun k hk hk' => ?_, fun _ _ => rfl⟩
      · rw [spreadRow, if_pos hlt]
      · omega
    · have hread : i - total < cells.length := by omega
      have hset : i ≤ (cells.set i cells[i - total]).length := by
        rw [length_set]
        omega
      obtain ⟨cells', hrest, hlength, hmoved, hkept⟩ := ih hge hset
      refine ⟨cells', ?_, ?_, ?_, ?_⟩
      · rw [spreadRow, if_neg (by omega), if_neg (by omega), getElem?_eq_getElem hread]
        simp only [bind_eq_bind, bind_some, Nat.add_sub_cancel,
          write?_of_lt (show i < cells.length by omega), hrest]
      · rw [hlength, length_set]
      · intro k hk hk'
        by_cases hki : k = i
        · subst hki
          rw [hkept k (.inr le_rfl), getElem?_set_self (by omega), getElem?_eq_getElem hread]
        · rw [hmoved k hk (by omega), getElem?_set_ne (by omega)]
      · intro k hk
        rw [hkept k (by omega), getElem?_set_ne (by omega)]

/-- **Step 2**: every vertex finds its neighbours at the end of its longer slice. -/
theorem spread_spec (h : degrees.length = invsNeeded.length) (hn : n ≤ degrees.length)
    (hcells : start degrees n + start invsNeeded n ≤ cells.length) :
    ∃ cells', spread (starts (zipWith (· + ·) degrees invsNeeded)) invsNeeded n
        (start degrees n + start invsNeeded n) (start invsNeeded n) cells = some cells' ∧
      cells'.length = cells.length ∧
      (∀ v < n, ∀ (hv' : v < degrees.length) (hv'' : v < invsNeeded.length), ∀ j < degrees[v],
          cells'[start degrees v + start invsNeeded v + invsNeeded[v] + j]? =
            cells[start degrees v + j]?) ∧
      ∀ k, start degrees n + start invsNeeded n ≤ k → cells'[k]? = cells[k]? := by
  induction n generalizing cells with
  | zero => exact ⟨cells, rfl, rfl, fun v hv => absurd hv (Nat.not_lt_zero v), fun _ _ => rfl⟩
  | succ n ih =>
    have hn' : n < degrees.length := hn
    have hn'' : n < invsNeeded.length := h ▸ hn'
    have hzip : n < (zipWith (· + ·) degrees invsNeeded).length := by
      rw [length_zipWith]
      omega
    have hdeg := start_succ hn'
    have hinv := start_succ hn''
    have htotal : start invsNeeded (n + 1) ≤
        start degrees n + start invsNeeded n + invsNeeded[n] := by omega
    obtain ⟨cells₁, hrow, hlength₁, hmoved, hkept⟩ := spreadRow_spec htotal
      (show _ ≤ start degrees (n + 1) + start invsNeeded (n + 1) by omega) hcells
    have hcells₁ : start degrees n + start invsNeeded n ≤ cells₁.length := by omega
    obtain ⟨cells', hrest, hlength, hplaced, hkept'⟩ := ih (by omega) hcells₁
    refine ⟨cells', ?_, by omega, ?_, ?_⟩
    · rw [spread, starts_getElem? hzip.le, starts_getElem? hzip, getElem?_eq_getElem hn'',
        start_zipWith h, start_zipWith h]
      simp only [bind_eq_bind, bind_some, hrow]
      rw [if_pos (by omega)]
      rw [show start degrees n + start invsNeeded n + invsNeeded[n] - invsNeeded[n] =
        start degrees n + start invsNeeded n by omega,
        show start invsNeeded (n + 1) - invsNeeded[n] = start invsNeeded n by omega]
      exact hrest
    · intro v hv hv' hv'' j hj
      by_cases hvn : v = n
      · subst hvn
        rw [hkept' _ (by omega), hmoved _ (by omega) (by omega)]
        congr 1
        omega
      · have hv₁ : v < n := by omega
        have hle := start_add_le hv' hv₁
        rw [hplaced v hv₁ hv' hv'' j hj, hkept _ (by omega)]
    · intro k hk
      rw [hkept' k (by omega), hkept k (.inr hk)]

end HotTLBApps.Gapbs
