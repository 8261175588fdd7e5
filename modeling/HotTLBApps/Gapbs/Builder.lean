import HotTLBApps.Lib.Slices
import HotTLBApps.Lib.SortedUnique
import HotTLBApps.Gapbs.Graph
import HotTLBApps.Gapbs.PrefixSum

/-!
# GAPBS: graphs from edge lists (`src/builder.h`)

`MakeGraphFromEL` counts degrees, turns them into offsets by a prefix sum in blocks,
and scatters the edges into one array; the order in which the threads do that is a
parameter.  `SquishGraph` sorts every neighbour list, and removes duplicates and
self-loops.

Vertex numbers and counters are natural numbers: a run of the program with a counter
that leaves its machine type is not modelled.  `BuilderBase` is used with
`invert = true` throughout the repository.  An edge list is taken as it is after
`InsertWeights`.
-/

namespace HotTLBApps.Gapbs

open Slices List Function Option

/-- The type `DestID_` of neighbours: a vertex, perhaps with a weight. -/
class DestID (D : Type) (W : outParam Type) where
  node : D → Nat
  weight : D → W
  dest : Nat → W → D
  node_dest : ∀ v w, node (dest v w) = v
  weight_dest : ∀ v w, weight (dest v w) = w
  dest_eta : ∀ d, dest (node d) (weight d) = d

structure NodeWeight (W : Type) where
  v : Nat
  w : W
  deriving DecidableEq, Repr

/-- The neighbours of graphs with weights. -/
instance {W : Type} : DestID (NodeWeight W) W where
  node := NodeWeight.v
  weight := NodeWeight.w
  dest := NodeWeight.mk
  node_dest _ _ := rfl
  weight_dest _ _ := rfl
  dest_eta _ := rfl

/-- The neighbours of graphs without weights. -/
instance : DestID Nat Unit where
  node := id
  weight _ := ()
  dest v _ := v
  node_dest _ _ := rfl
  weight_dest _ _ := rfl
  dest_eta _ := rfl

structure EdgePair (D : Type) where
  u : Nat
  v : D
  deriving DecidableEq, Repr

open DestID

variable {D W : Type} [DestID D W]

/-- `GetSource`: the other end of an edge, with its weight. -/
def getSource (e : EdgePair D) : D :=
  dest e.u (weight e.v)

def findMaxNodeID (el : List (EdgePair D)) : Nat :=
  el.foldl (fun maxSeen e => max (max maxSeen e.u) (node e.v)) 0

def numNodes (el : List (EdgePair D)) : Nat :=
  findMaxNodeID el + 1

/-- The counters that `CountDegrees` increments for an edge. -/
def degreeEvents (symmetrize inPlace transpose : Bool) (e : EdgePair D) : List Nat :=
  (if symmetrize || (!symmetrize && !transpose) then [e.u] else []) ++
    (if (symmetrize && !inPlace) || (!symmetrize && transpose) then [node e.v] else [])

def countDegrees
    (symmetrize inPlace transpose : Bool) (n : Nat) (el : List (EdgePair D)) : Option (List Nat) :=
  tally (List.replicate n 0) (el.flatMap (degreeEvents symmetrize inPlace transpose))

/-- `ParallelPrefixSum`, one block after another; by `parallelPrefixSum_sums` their order does not
matter. -/
def parallelPrefixSum (degrees : List Nat) : List Nat :=
  let blocks := List.range ((degrees.length + 2 ^ 20 - 1) / 2 ^ 20)
  PrefixSum.parallelPrefixSum (2 ^ 20) degrees blocks blocks (fun _ => 0) (fun _ => 0)

/-- New memory, with whatever it holds. -/
def allocate (junk : Nat → D) (size : Nat) : List D :=
  (List.range size).map junk

/-- The neighbour lists in one array; `index` are the pointers of `GenIndex`. -/
structure CSR (D : Type) where
  index : List Nat
  neighs : List D

def CSR.neigh (csr : CSR D) (u : Nat) : List D :=
  slice csr.index csr.neighs u

/-- The writes of `MakeCSR` for an edge. -/
def edgeWrites (symmetrize transpose : Bool) (e : EdgePair D) : List (Nat × D) :=
  (if symmetrize || (!symmetrize && !transpose) then [(e.u, e.v)] else []) ++
    (if symmetrize || (!symmetrize && transpose) then [(node e.v, getSource e)] else [])

/-- The writes of `MakeCSR`. -/
def arcs (symmetrize transpose : Bool) (el : List (EdgePair D)) : List (Nat × D) :=
  el.flatMap (edgeWrites symmetrize transpose)

/-- The order in which the threads fetch their places for the writes of `MakeCSR`. -/
structure Schedule (symmetrize transpose : Bool) (el : List (EdgePair D)) where
  writes : List (Nat × D)
  perm : writes.Perm (arcs symmetrize transpose el)

/-- The order of one thread. -/
def Schedule.serial
    (symmetrize transpose : Bool) (el : List (EdgePair D)) : Schedule symmetrize transpose el :=
  ⟨arcs symmetrize transpose el, List.Perm.refl _⟩

def makeCSR {symmetrize transpose : Bool} (junk : Nat → D) (n : Nat) (el : List (EdgePair D))
    (schedule : Schedule symmetrize transpose el) : Option (CSR D) := do
  let degrees ← countDegrees symmetrize false transpose n el
  let offsets := parallelPrefixSum degrees
  let neighs := allocate junk (offsets.getD n 0)
  let (_, neighs) ← scatter (offsets, neighs) schedule.writes
  some ⟨offsets, neighs⟩

def CSRGraph.undirected (n : Nat) (out : CSR D) : CSRGraph n D where
  directed := false
  outNeigh u := out.neigh u
  inNeigh u := out.neigh u
  inNeigh_eq _ := rfl

def CSRGraph.bidirected (n : Nat) (out inv : CSR D) : CSRGraph n D where
  directed := true
  outNeigh u := out.neigh u
  inNeigh u := inv.neigh u
  inNeigh_eq h := by cases h

/-- `MakeGraphFromEL`, not in place. -/
def makeGraphFromEL {symmetrize : Bool} (junk : Nat → D) (el : List (EdgePair D))
    (out : Schedule symmetrize false el)
    (inv : Schedule symmetrize true el) : Option (CSRGraph (numNodes el) D) := do
  let index ← makeCSR junk (numNodes el) el out
  if symmetrize then
    some (CSRGraph.undirected (numNodes el) index)
  else
    let invIndex ← makeCSR junk (numNodes el) el inv
    some (CSRGraph.bidirected (numNodes el) index invIndex)

theorem parallelPrefixSum_eq (degrees : List Nat) : parallelPrefixSum degrees = starts degrees :=
  PrefixSum.parallelPrefixSum_sums (by positivity) (Perm.refl _) (Perm.refl _) _ _

theorem le_foldl_max (el : List (EdgePair D)) (m : Nat) :
    m ≤ el.foldl (fun maxSeen e => max (max maxSeen e.u) (node e.v)) m ∧
      ∀ e ∈ el, e.u ≤ el.foldl (fun maxSeen e => max (max maxSeen e.u) (node e.v)) m ∧
        node e.v ≤ el.foldl (fun maxSeen e => max (max maxSeen e.u) (node e.v)) m := by
  induction el generalizing m with
  | nil => simp
  | cons e el ih =>
    rw [foldl_cons]
    obtain ⟨hm, hel⟩ := ih (max (max m e.u) (node e.v))
    refine ⟨by omega, ?_⟩
    intro e' he'
    obtain rfl | he' := mem_cons.mp he'
    · exact ⟨by omega, by omega⟩
    · exact hel e' he'

variable {el : List (EdgePair D)}

theorem lt_numNodes {e : EdgePair D} (he : e ∈ el) :
    e.u < numNodes el ∧ node e.v < numNodes el := by
  have h := (le_foldl_max el 0).2 e he
  rw [numNodes, findMaxNodeID]
  omega

/-- Not in place, the degrees count the writes. -/
theorem degreeEvents_eq (symmetrize transpose : Bool) (el : List (EdgePair D)) :
    el.flatMap (degreeEvents symmetrize false transpose) =
      (arcs symmetrize transpose el).map Prod.fst := by
  rw [arcs, map_flatMap]
  congr 1
  funext e
  cases symmetrize <;> cases transpose <;> rfl

variable {symmetrize transpose : Bool}

theorem mem_arcs {a : Nat × D} : a ∈ arcs symmetrize transpose el ↔ ∃ e ∈ el,
      ((symmetrize || !transpose) = true ∧ a = (e.u, e.v)) ∨
        ((symmetrize || transpose) = true ∧ a = (node e.v, getSource e)) := by
  rw [arcs, mem_flatMap]
  refine exists_congr fun e => and_congr_right fun _ => ?_
  cases symmetrize <;> cases transpose <;> simp [edgeWrites]

theorem arcs_lt {a : Nat × D} (ha : a ∈ arcs symmetrize transpose el) : a.1 < numNodes el := by
  obtain ⟨e, he, ⟨-, rfl⟩ | ⟨-, rfl⟩⟩ := mem_arcs.mp ha
  · exact (lt_numNodes he).1
  · exact (lt_numNodes he).2

theorem countDegrees_eq (symmetrize transpose : Bool) (el : List (EdgePair D)) :
    countDegrees symmetrize false transpose (numNodes el) el =
      some ((range (numNodes el)).map fun u =>
        ((arcs symmetrize transpose el).map Prod.fst).count u) := by
  rw [countDegrees, degreeEvents_eq, tally_replicate]
  intro i hi
  obtain ⟨a, ha, rfl⟩ := mem_map.mp hi
  exact arcs_lt ha

variable (junk : Nat → D)

theorem length_allocate_starts {lengths : List Nat} {n : Nat}
    (h : lengths.length = n) :
    (allocate junk ((starts lengths).getD n 0)).length = lengths.sum := by
  subst h
  rw [allocate, length_map, length_range, starts_getD le_rfl, start_length]

/-- **`MakeCSR`**: the neighbours of a vertex are those of its edges, in some order. -/
theorem makeCSR_spec (el : List (EdgePair D))
    (schedule : Schedule symmetrize transpose el) :
    ∃ csr, makeCSR junk (numNodes el) el schedule = some csr ∧
      ∀ u < numNodes el, (csr.neigh u).Perm (valuesOf (arcs symmetrize transpose el) u) := by
  have hdegrees := countDegrees_eq symmetrize transpose el
  generalize hlengths : ((range (numNodes el)).map fun u =>
    ((arcs symmetrize transpose el).map Prod.fst).count u) = lengths at hdegrees
  have hlength : lengths.length = numNodes el := by rw [← hlengths, length_map, length_range]
  have hbuffer := length_allocate_starts junk hlength
  have hindex : ∀ a ∈ schedule.writes, a.1 < lengths.length :=
    fun a ha => hlength ▸ arcs_lt (schedule.perm.subset ha)
  obtain ⟨offsets, neighs, hscatter, -, -, hslice⟩ := scatter_spec hbuffer hindex
    (fun u hu => by
      rw [length_valuesOf, (schedule.perm.map Prod.fst).count_eq]
      simp [← hlengths])
  refine ⟨⟨starts lengths, neighs⟩, ?_, ?_⟩
  · simp only [makeCSR, hdegrees, parallelPrefixSum_eq, bind_eq_bind, bind_some, hscatter]
  · intro u hu
    rw [CSR.neigh, hslice u (hlength ▸ hu)]
    exact (schedule.perm.filter _).map _

/-- Some edge leads from `u` to `v` with weight `w`; when symmetrizing, or back. -/
def Joins (symmetrize : Bool) (el : List (EdgePair D)) (u v : Nat) (w : W) : Prop :=
  ⟨u, dest v w⟩ ∈ el ∨ symmetrize = true ∧ ⟨v, dest u w⟩ ∈ el

variable {w : W} {u v : Nat}

theorem Joins.lt_numNodes (h : Joins symmetrize el u v w) : u < numNodes el ∧ v < numNodes el := by
  rcases h with he | ⟨-, he⟩
  · simpa only [node_dest] using Gapbs.lt_numNodes he
  · simpa only [node_dest] using (Gapbs.lt_numNodes he).symm

theorem getSource_eq_iff {e : EdgePair D} :
    (u, dest v w) = (node e.v, getSource e) ↔ e = ⟨v, dest u w⟩ := by
  obtain ⟨a, d⟩ := e
  constructor
  · intro h
    obtain ⟨hu, hd⟩ := Prod.mk.inj h
    have hv : v = a := by
      have h' := congrArg (node (D := D)) hd
      rwa [getSource, node_dest, node_dest] at h'
    have hw : w = weight d := by
      have h' := congrArg (weight (D := D)) hd
      rwa [getSource, weight_dest, weight_dest] at h'
    rw [hv, hu, hw, dest_eta]
  · intro h
    obtain ⟨rfl, rfl⟩ := EdgePair.mk.inj h
    rw [getSource, node_dest, weight_dest]

theorem mem_arcs_out :
    dest v w ∈ valuesOf (arcs symmetrize false el) u ↔ Joins symmetrize el u v w := by
  rw [mem_valuesOf, mem_arcs, Joins]
  simp only [getSource_eq_iff, Bool.not_false, Bool.or_true, Bool.or_false, true_and]
  constructor
  · rintro ⟨⟨a, d⟩, he, h | ⟨hsym, h⟩⟩
    · obtain ⟨rfl, rfl⟩ := Prod.mk.inj h
      exact .inl he
    · exact .inr ⟨hsym, h ▸ he⟩
  · rintro (he | ⟨hsym, he⟩)
    · exact ⟨_, he, .inl rfl⟩
    · exact ⟨_, he, .inr ⟨hsym, rfl⟩⟩

theorem mem_arcs_in :
    dest v w ∈ valuesOf (arcs symmetrize true el) u ↔ Joins symmetrize el v u w := by
  rw [mem_valuesOf, mem_arcs, Joins]
  simp only [getSource_eq_iff, Bool.not_true, Bool.or_true, Bool.or_false, true_and]
  constructor
  · rintro ⟨⟨a, d⟩, he, ⟨hsym, h⟩ | h⟩
    · obtain ⟨rfl, rfl⟩ := Prod.mk.inj h
      exact .inr ⟨hsym, he⟩
    · exact .inl (h ▸ he)
  · rintro (he | ⟨hsym, he⟩)
    · exact ⟨_, he, .inr rfl⟩
    · exact ⟨_, he, .inl ⟨hsym, rfl⟩⟩

/-- Neighbours are compared by their vertex, then by their weight. -/
def destKey (d : D) : Nat ×ₗ W :=
  toLex (node d, weight d)

theorem destKey_injective : Injective (destKey (D := D)) := by
  intro a b h
  have hpair : (node a, weight a) = (node b, weight b) := toLex.injective h
  rw [← dest_eta a, ← dest_eta b, (Prod.mk.inj hpair).1, (Prod.mk.inj hpair).2]

variable [LinearOrder W]

/-- `operator<` of neighbours. -/
def destLt (a b : D) : Prop :=
  if node a = node b then weight a < weight b else node a < node b

instance : DecidableRel (destLt (D := D)) := fun a b =>
  inferInstanceAs (Decidable (if node a = node b then weight a < weight b else node a < node b))

/-- What `SquishCSR` makes of the neighbours of a vertex: `sort`, `unique`, `remove`. -/
def squishRow (n : Nat) (row : List D) : List D :=
  ((row.insertionSort fun a b => ¬ destLt b a).destutter fun a b => node a ≠ node b).filter
    fun d => node d ≠ n

/-- `SquishCSR` for the outgoing or for the incoming neighbours. -/
def squishCSR {n : Nat} (junk : Nat → D) (neigh : Fin n → List D) : Option (CSR D) := do
  let rows := (List.finRange n).map fun u => squishRow u.val (neigh u)
  let diffs := rows.map List.length
  let offsets := parallelPrefixSum diffs
  let neighs ← copyRows offsets (allocate junk (offsets.getD n 0)) 0 rows
  some ⟨offsets, neighs⟩

def squishGraph {n : Nat} (junk : Nat → D) (g : CSRGraph n D) : Option (CSRGraph n D) := do
  let out ← squishCSR junk g.outNeigh
  if g.directed then
    let inv ← squishCSR junk g.inNeigh
    some (CSRGraph.bidirected n out inv)
  else
    some (CSRGraph.undirected n out)

/-- `MakeGraph` from an edge list, not in place. -/
def makeGraph {symmetrize : Bool} (junk : Nat → D) (el : List (EdgePair D))
    (out : Schedule symmetrize false el)
    (inv : Schedule symmetrize true el) : Option (CSRGraph (numNodes el) D) := do
  let g ← makeGraphFromEL junk el out inv
  squishGraph junk g

theorem destLt_iff {a b : D} : destLt a b ↔ destKey a < destKey b := by
  rw [destLt, destKey, destKey, Prod.Lex.toLex_lt_toLex]
  split_ifs with h <;> simp [h]

theorem not_destLt_iff (a b : D) : ¬ destLt b a ↔ destKey a ≤ destKey b := by
  rw [destLt_iff, not_lt]

variable {a b : D}

theorem node_le_of_destKey_le (h : destKey a ≤ destKey b) : node a ≤ node b := by
  rw [destKey, destKey, Prod.Lex.toLex_le_toLex] at h
  obtain h | h := h
  · exact h.le
  · exact h.1.le

theorem destKey_le_iff_weight
    (h : node a = node b) : destKey a ≤ destKey b ↔ weight a ≤ weight b := by
  rw [destKey, destKey, Prod.Lex.toLex_le_toLex]
  simp [h]

theorem pairwise_sortRow (row : List D) :
    (row.insertionSort fun a b => ¬ destLt b a).Pairwise fun a b => destKey a ≤ destKey b :=
  SortedUnique.pairwise_insertionSort (k := destKey) not_destLt_iff row

/-- **The neighbours that `SquishCSR` keeps**: of the parallel edges the one with the
least weight. -/
theorem mem_squishRow {n : Nat} {row : List D} {d : D} : d ∈ squishRow n row ↔
      d ∈ row ∧ node d ≠ n ∧ ∀ d' ∈ row, node d' = node d → weight d ≤ weight d' := by
  have hmem := SortedUnique.mem_destutter_iff destKey_injective
    (fun _ _ => node_le_of_destKey_le) (pairwise_sortRow row) (x := d)
  simp only [mem_insertionSort] at hmem
  rw [squishRow, mem_filter, hmem, decide_eq_true_iff]
  constructor
  · rintro ⟨⟨hrow, hleast⟩, hne⟩
    exact ⟨hrow, hne, fun d' hd' heq => (destKey_le_iff_weight heq.symm).mp (hleast d' hd' heq)⟩
  · rintro ⟨hrow, hne, hleast⟩
    exact ⟨⟨hrow, fun d' hd' heq =>
      (destKey_le_iff_weight heq.symm).mpr (hleast d' hd' heq)⟩, hne⟩

theorem pairwise_squishRow (n : Nat) (row : List D) :
    (squishRow n row).Pairwise fun a b => node a < node b :=
  (SortedUnique.pairwise_destutter (fun _ _ => node_le_of_destKey_le)
    (pairwise_sortRow row)).filter _

theorem squishRow_congr (n : Nat) {row row' : List D}
    (h : row.Perm row') : squishRow n row = squishRow n row' := by
  rw [squishRow, SortedUnique.insertionSort_congr (k := destKey) not_destLt_iff
    destKey_injective h, squishRow]

/-- **`SquishCSR`** squishes every row. -/
theorem squishCSR_spec {n : Nat} (neigh : Fin n → List D) :
    ∃ csr, squishCSR junk neigh = some csr ∧ ∀ u : Fin n, csr.neigh u = squishRow u (neigh u) := by
  have hrows : ((finRange n).map fun u => squishRow u.val (neigh u)).length = n := by
    rw [length_map, length_finRange]
  generalize hdef : ((finRange n).map fun u => squishRow u.val (neigh u)) = rows at hrows
  have hbuffer := length_allocate_starts junk ((rows.length_map (f := length)).trans hrows)
  refine ⟨⟨starts (rows.map length), rows.flatten⟩, ?_, ?_⟩
  · simp only [squishCSR, hdef, parallelPrefixSum_eq, copyRows_starts hbuffer,
      bind_eq_bind, bind_some]
  · intro u
    have hu : u.val < rows.length := hrows.symm ▸ u.isLt
    rw [CSR.neigh, slice_flatten hu]
    simp [← hdef]

/-- The squished graph of an edge list. -/
def arcsGraph (symmetrize : Bool) (el : List (EdgePair D)) : CSRGraph (numNodes el) D where
  directed := !symmetrize
  outNeigh u := squishRow u (valuesOf (arcs symmetrize false el) u)
  inNeigh u := squishRow u (valuesOf (arcs symmetrize true el) u)
  inNeigh_eq := by
    intro h
    have harcs : arcs symmetrize true el = arcs symmetrize false el := by
      cases symmetrize with
      | false => cases h
      | true => rfl
    rw [harcs]

/-- **The graph does not depend on the order of the writes**, nor on what the new
memory held. -/
theorem makeGraph_eq (el : List (EdgePair D))
    (out : Schedule symmetrize false el) (inv : Schedule symmetrize true el) :
    makeGraph junk el out inv = some (arcsGraph symmetrize el) := by
  obtain ⟨csr, hcsr, hneigh⟩ := makeCSR_spec junk el out
  have hout : ∀ u : Fin (numNodes el), squishRow u (csr.neigh u) =
      squishRow u (valuesOf (arcs symmetrize false el) u) :=
    fun u => squishRow_congr u (hneigh u u.isLt)
  obtain ⟨sq, hsq, hrows⟩ := squishCSR_spec junk fun u : Fin (numNodes el) => csr.neigh u
  cases symmetrize with
  | true =>
    have hmake : makeGraph junk el out inv = some (CSRGraph.undirected (numNodes el) sq) := by
      simp only [makeGraph, makeGraphFromEL, hcsr, bind_eq_bind, bind_some,
        if_true, squishGraph, CSRGraph.undirected, hsq, Bool.false_eq_true, if_false]
    rw [hmake]
    congr 1
    apply CSRGraph.ext
    · rfl
    · funext u
      exact (hrows u).trans (hout u)
    · funext u
      exact (hrows u).trans (hout u)
  | false =>
    obtain ⟨csr', hcsr', hneigh'⟩ := makeCSR_spec junk el inv
    obtain ⟨sq', hsq', hrows'⟩ := squishCSR_spec junk fun u : Fin (numNodes el) => csr'.neigh u
    have hmake : makeGraph junk el out inv = some (CSRGraph.bidirected (numNodes el) sq sq') := by
      simp only [makeGraph, makeGraphFromEL, hcsr, hcsr', bind_eq_bind, bind_some,
        if_true, squishGraph, CSRGraph.bidirected, hsq, hsq', Bool.false_eq_true, if_false]
    rw [hmake]
    congr 1
    apply CSRGraph.ext
    · rfl
    · funext u
      exact (hrows u).trans (hout u)
    · funext u
      exact (hrows' u).trans (squishRow_congr u (hneigh' u u.isLt))

/-- A squished row holds for every vertex the least weight. -/
theorem dest_mem_squishRow {row : List D} {P : Nat → W → Prop}
    (hrow : ∀ v w, dest v w ∈ row ↔ P v w) :
    dest v w ∈ squishRow u row ↔ u ≠ v ∧ IsLeast {w | P v w} w := by
  rw [mem_squishRow, hrow, node_dest, weight_dest]
  constructor
  · rintro ⟨hP, hne, hleast⟩
    refine ⟨hne.symm, hP, ?_⟩
    intro w' hw'
    have hle := hleast (dest v w') ((hrow v w').mpr hw') (node_dest v w')
    rwa [weight_dest] at hle
  · rintro ⟨hne, hP, hleast⟩
    refine ⟨hP, hne.symm, ?_⟩
    intro d hd hnode
    apply hleast
    rw [Set.mem_ofPred_eq, ← hrow, ← hnode, dest_eta]
    exact hd

theorem exists_isLeast_joins (h : ∃ w, Joins symmetrize el u v w) :
    ∃ w, IsLeast {w | Joins symmetrize el u v w} w := by
  have hfinite : {w | Joins symmetrize el u v w}.Finite := by
    apply (el.map fun e => weight e.v).finite_toSet.subset
    rintro w (he | ⟨-, he⟩)
    · exact mem_map.mpr ⟨_, he, weight_dest v w⟩
    · exact mem_map.mpr ⟨_, he, weight_dest u w⟩
  obtain ⟨w, hw, hleast⟩ := Set.exists_min_image _ id hfinite h
  exact ⟨w, hw, fun w' hw' => hleast w' hw'⟩

variable {u : Fin (numNodes el)}

theorem mem_arcsGraph_out : dest v w ∈ (arcsGraph symmetrize el).outNeigh u ↔
      u.val ≠ v ∧ IsLeast {w | Joins symmetrize el u v w} w :=
  dest_mem_squishRow fun _ _ => mem_arcs_out

theorem mem_arcsGraph_in : dest v w ∈ (arcsGraph symmetrize el).inNeigh u ↔
      u.val ≠ v ∧ IsLeast {w | Joins symmetrize el v u w} w :=
  dest_mem_squishRow fun _ _ => mem_arcs_in

/-- The incoming neighbours are the transpose of the outgoing ones. -/
theorem mem_arcsGraph_in_iff_out {u v : Fin (numNodes el)} :
    dest v.val w ∈ (arcsGraph symmetrize el).inNeigh u ↔
      dest u.val w ∈ (arcsGraph symmetrize el).outNeigh v := by
  rw [mem_arcsGraph_in, mem_arcsGraph_out, ne_comm]

/-- **`MakeGraphFromEL` and `SquishGraph`.**  For every edge list, weighted or not, and
every order of the writes: the neighbours of every vertex are strictly increasing and
without self-loop; there is an arc exactly where the edge list has an edge, with the
least weight of the parallel edges; and the incoming lists are the transpose of the
outgoing ones. -/
theorem makeGraph_arcs
    {symmetrize : Bool}
    (junk : Nat → D)
    (el : List (EdgePair D))
    (out : Schedule symmetrize false el)
    (inv : Schedule symmetrize true el) :
    ∃ g, makeGraph junk el out inv = some g ∧ g.directed = !symmetrize ∧
      (∀ u, (g.outNeigh u).Pairwise (fun a b => node a < node b) ∧
        (g.inNeigh u).Pairwise (fun a b => node a < node b)) ∧
      (∀ u, ∀ d ∈ g.outNeigh u ++ g.inNeigh u, node d ≠ u.val ∧ node d < numNodes el) ∧
      (∀ u v, (∃ w, dest v.val w ∈ g.outNeigh u) ↔ u ≠ v ∧ ∃ w, Joins symmetrize el u v w) ∧
      (∀ u v w, dest v.val w ∈ g.outNeigh u ↔ u ≠ v ∧ IsLeast {w | Joins symmetrize el u v w} w) ∧
      (∀ u v w, dest v.val w ∈ g.inNeigh u ↔ dest u.val w ∈ g.outNeigh v) ∧
      (symmetrize = true → ∀ u v w, dest v.val w ∈ g.outNeigh u ↔ dest u.val w ∈ g.outNeigh v) := by
  refine ⟨arcsGraph symmetrize el, makeGraph_eq junk el out inv, rfl, ?_, ?_, ?_, ?_, ?_, ?_⟩
  · intro u
    exact ⟨pairwise_squishRow _ _, pairwise_squishRow _ _⟩
  · intro u d hd
    rw [← dest_eta d, mem_append, mem_arcsGraph_out, mem_arcsGraph_in] at hd
    rcases hd with ⟨hne, hjoins, -⟩ | ⟨hne, hjoins, -⟩
    · exact ⟨hne.symm, hjoins.lt_numNodes.2⟩
    · exact ⟨hne.symm, hjoins.lt_numNodes.1⟩
  · intro u v
    simp only [mem_arcsGraph_out, exists_and_left, ne_eq, Fin.ext_iff]
    refine and_congr_right fun _ => ⟨?_, exists_isLeast_joins⟩
    rintro ⟨w, hw, -⟩
    exact ⟨w, hw⟩
  · intro u v w
    rw [mem_arcsGraph_out, ne_eq, ne_eq, Fin.ext_iff]
  · intro u v w
    exact mem_arcsGraph_in_iff_out
  · intro hsym u v w
    have hin := (arcsGraph symmetrize el).inNeigh_eq (by rw [hsym]; rfl)
    rw [← mem_arcsGraph_in_iff_out, hin]

end HotTLBApps.Gapbs
