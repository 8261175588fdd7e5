import HotTLBApps.Gapbs.InPlaceInverses

/-!
# GAPBS: the graph that is built in place

`makeGraphInPlace_iff`: building in place gives the graph of `MakeCSR` and `SquishGraph`,
with no access outside the memory and every counter of missing inverses at zero, unless
the graph is symmetrized, has no edge between different vertices, and `realloc` to size
zero returns a null pointer.  Then the program takes the null pointer for a failure and
exits.
-/

namespace HotTLBApps.Gapbs

open Slices List Option

variable {el : List (EdgePair Nat)}

theorem squishEdges_lt {e : EdgePair Nat}
    (he : e ∈ squishEdges el) : e.u < numNodes el ∧ e.v < numNodes el :=
  lt_numNodes (mem_squishEdges.mp he).1

/-- The rows of the squished edges. -/
abbrev squishRows (el : List (EdgePair Nat)) : List (List Nat) :=
  outRows (squishEdges el) (numNodes el)

theorem rowsOk_outRows (el : List (EdgePair Nat)) : RowsOk (squishRows el) where
  sorted := by
    intro u hu
    rw [outRows_getElem]
    exact pairwise_outRow (pairwise_squishEdges el) u
  bound := by
    intro u hu v hv
    rw [outRows_getElem, mem_outRow] at hv
    rw [length_outRows]
    exact (squishEdges_lt hv).2
  irrefl := by
    intro u hu hmem
    rw [outRows_getElem, mem_outRow] at hmem
    exact (mem_squishEdges.mp hmem).2 rfl

theorem mem_outRows_getD {u v : Nat} : v ∈ (squishRows el).getD u [] ↔
      u ≠ v ∧ (⟨u, v⟩ : EdgePair Nat) ∈ el := by
  obtain hu | hu := Nat.lt_or_ge u (numNodes el)
  · rw [getD_eq_getElem _ _ (by rwa [length_outRows]), outRows_getElem, mem_outRow, mem_squishEdges,
      and_comm]
  · rw [getD_eq_getElem?_getD, getElem?_eq_none (by rwa [length_outRows])]
    simp only [getD_none, not_mem_nil, false_iff, not_and]
    intro _ hmem
    have := (lt_numNodes hmem).1
    dsimp only at this
    omega

theorem countDegrees_out (symmetrize : Bool) (el : List (EdgePair Nat)) :
    countDegrees symmetrize true false (numNodes el) (squishEdges el) =
      some (outDegrees (squishEdges el) (numNodes el)) := by
  have hevents : (squishEdges el).flatMap (degreeEvents symmetrize true false) =
      (squishEdges el).map EdgePair.u := by
    rw [map_eq_flatMap]
    congr 1
    funext e
    cases symmetrize <;> rfl
  rw [countDegrees, hevents, tally_replicate, outDegrees, outRows, List.map_map]
  · congr 1
    apply List.map_congr_left
    intro u _
    rw [Function.comp_apply, outRow, length_valuesOf, List.map_map]
    rfl
  · intro u hu
    obtain ⟨e, he, rfl⟩ := mem_map.mp hu
    exact (squishEdges_lt he).1

def inDegrees (edges : List (EdgePair Nat)) (n : Nat) : List Nat :=
  (List.range n).map fun v => (edges.map EdgePair.v).count v

theorem countDegrees_in (symmetrize : Bool) (el : List (EdgePair Nat)) :
    ∃ indegrees, countDegrees symmetrize true true (numNodes el) (squishEdges el) = some indegrees ∧
      (symmetrize = false → indegrees = inDegrees (squishEdges el) (numNodes el)) := by
  have hlt : ∀ u ∈ (squishEdges el).flatMap (degreeEvents symmetrize true true),
      u < numNodes el := by
    intro u hu
    obtain ⟨e, he, hmem⟩ := mem_flatMap.mp hu
    obtain ⟨hu', hv'⟩ := squishEdges_lt he
    cases symmetrize with
    | false =>
      obtain rfl := mem_singleton.mp hmem
      exact hv'
    | true =>
      obtain rfl := mem_singleton.mp hmem
      exact hu'
  refine ⟨_, tally_replicate hlt, ?_⟩
  rintro rfl
  have hevents : (squishEdges el).flatMap (degreeEvents false true true) =
      (squishEdges el).map EdgePair.v := by
    rw [map_eq_flatMap]
    rfl
  rw [hevents, inDegrees]

variable {rows : List (List Nat)}

theorem inverseWrites_eq {us : List Nat} (hus : ∀ u ∈ us, u < rows.length) :
    inverseWrites (starts (rows.map length)) rows.flatten us =
      some (us.flatMap fun u => (rows.getD u []).map fun v => (v, u)) := by
  induction us with
  | nil => rfl
  | cons u us ih =>
    have hu := hus u mem_cons_self
    have hneigh := neighsOf_eq [] hu
    rw [append_nil] at hneigh
    rw [inverseWrites, hneigh, ih fun x hx => hus x (mem_cons_of_mem _ hx),
      flatMap_cons, getD_eq_getElem _ _ hu]
    rfl

theorem map_fst_inverseWrites (rows : List (List Nat)) :
    (((range rows.length).flatMap fun u => (rows.getD u []).map fun v => (v, u)).map
      Prod.fst) = rows.flatten := by
  rw [map_flatMap]
  simp only [List.map_map, Function.comp_def, List.map_id']
  rw [flatMap_def]
  congr 1
  apply ext_getElem
  · simp
  · intro u hu hu'
    simp [hu']

/-- **`MakeCSRInPlace` when not symmetrizing.** -/
theorem finishDirected_spec (heap : Heap) (hrows : RowsOk rows) (tail : List Nat) : ∃ out inv,
      finishDirected heap rows.length rows.flatten.length (starts (rows.map length))
        ((range rows.length).map fun v => rows.flatten.count v) (rows.flatten ++ tail) =
          some (.directed out inv) ∧
      (∀ v (hv : v < rows.length), out.neigh v = rows[v]) ∧
      ∀ v < rows.length, inv.neigh v = (range rows.length).filter fun u => v ∈ rows.getD u [] := by
  have hneighs : reallocate heap.junk (rows.flatten ++ tail) rows.flatten.length =
      rows.flatten := by
    apply ext_getElem?
    intro i
    obtain hi | hi := Nat.lt_or_ge i rows.flatten.length
    · rw [reallocate_getElem? heap.junk hi (by rw [length_append]; omega), getElem?_append_left hi]
    · rw [getElem?_eq_none hi, getElem?_eq_none]
      rw [reallocate, length_map, length_range]
      exact hi
  generalize hlengths : ((range rows.length).map fun v => rows.flatten.count v) = lengths
  have hlength : lengths.length = rows.length := by rw [← hlengths, length_map, length_range]
  have hbuffer := length_allocate_starts heap.junk hlength
  have hindex : ∀ a ∈ (range rows.length).flatMap fun u =>
      (rows.getD u []).map fun v => (v, u), a.1 < lengths.length := by
    intro a ha
    obtain ⟨u, hu, hmem⟩ := mem_flatMap.mp ha
    obtain ⟨v, hv, rfl⟩ := mem_map.mp hmem
    have hu' := mem_range.mp hu
    rw [getD_eq_getElem _ _ hu'] at hv
    rw [hlength]
    exact hrows.bound u hu' v hv
  obtain ⟨offsets, invNeighs, hscatter, -, -, hslice⟩ := scatter_spec hbuffer hindex
    (fun v hv => by
      rw [length_valuesOf, map_fst_inverseWrites]
      simp [← hlengths])
  refine ⟨⟨starts (rows.map length), rows.flatten⟩, ⟨starts lengths, invNeighs⟩, ?_, ?_, ?_⟩
  · simp only [finishDirected, hneighs, parallelPrefixSum_eq,
      inverseWrites_eq (fun u hu => mem_range.mp hu), hscatter, bind_eq_bind,
      bind_some]
  · intro v hv
    rw [CSR.neigh, slice_flatten hv]
  · intro v hv
    rw [CSR.neigh, hslice v (hlength ▸ hv), valuesOf_sources fun u _ => hrows.nodup_getD u]

theorem isLeast_unit {P : Unit → Prop} : IsLeast {w | P w} () ↔ P () :=
  ⟨fun h => h.1, fun h => ⟨h, fun _ _ => le_rfl⟩⟩

variable {symmetrize : Bool}

theorem mem_arcsGraph_out_nat {u : Fin (numNodes el)} {v : Nat} :
    v ∈ (arcsGraph symmetrize el).outNeigh u ↔
      u.val ≠ v ∧ (⟨u, v⟩ ∈ el ∨ symmetrize = true ∧ ⟨v, u⟩ ∈ el) :=
  (@mem_arcsGraph_out Nat Unit _ el symmetrize () v _ u).trans
    (and_congr_right fun _ => isLeast_unit)

theorem mem_arcsGraph_in_nat {u : Fin (numNodes el)} {v : Nat} :
    v ∈ (arcsGraph symmetrize el).inNeigh u ↔
      u.val ≠ v ∧ (⟨v, u⟩ ∈ el ∨ symmetrize = true ∧ ⟨u, v⟩ ∈ el) :=
  (@mem_arcsGraph_in Nat Unit _ el symmetrize () v _ u).trans
    (and_congr_right fun _ => isLeast_unit)

/-- The edges are squished and overwritten, and the offsets are those of the rows. -/
theorem makeCSRInPlace_eq (heap : Heap) (symmetrize : Bool) (el : List (EdgePair Nat)) :
    ∃ tail, makeCSRInPlace heap symmetrize (numNodes el) el = if symmetrize then
        finishSymmetrized heap (numNodes el) (starts (outDegrees (squishEdges el) (numNodes el)))
          ((squishRows el).flatten ++ tail)
      else
        finishDirected heap (numNodes el) (squishEdges el).length
          (starts (outDegrees (squishEdges el) (numNodes el)))
          (inDegrees (squishEdges el) (numNodes el))
          ((squishRows el).flatten ++ tail) := by
  obtain ⟨offsets, tail, hspill, hlength, hoffsets⟩ := spillEdges_spec heap.rest
    (pairwise_squishEdges el) (fun e he => (squishEdges_lt he).1)
  obtain ⟨indegrees, hin, hin'⟩ := countDegrees_in symmetrize el
  have hrevert := revertOffsets_eq length_outDegrees hlength hoffsets
  refine ⟨tail, ?_⟩
  simp only [makeCSRInPlace, countDegrees_out, hin, parallelPrefixSum_eq, hspill, hrevert,
    bind_eq_bind, bind_some]
  cases symmetrize with
  | true => rw [if_pos rfl, if_pos rfl]
  | false => rw [hin' rfl]

/-- The graph built in place is the squished graph, its lists are sorted and without
duplicates and self-loops, and no inverse is missing at the end. -/
def BuildsInPlace (heap : Heap) (symmetrize : Bool) (el : List (EdgePair Nat)) : Prop :=
  ∃ g invsNeeded, makeGraphInPlace heap symmetrize el = some (.built g invsNeeded) ∧
    (∀ junk (out : Schedule symmetrize false el) (inv : Schedule symmetrize true el),
      makeGraph junk el out inv = some g) ∧
    (∀ u, (g.outNeigh u).Pairwise (· < ·) ∧ (g.inNeigh u).Pairwise (· < ·) ∧
      u.val ∉ g.outNeigh u) ∧
    ∀ k ∈ invsNeeded, k = 0

variable {heap : Heap}

theorem buildsInPlace_of_eq {g : CSRGraph (numNodes el) Nat} {invsNeeded : List Nat}
    (hbuild : makeGraphInPlace heap symmetrize el = some (.built g invsNeeded))
    (hg : g = arcsGraph symmetrize el)
    (hinvs : ∀ k ∈ invsNeeded, k = 0) : BuildsInPlace heap symmetrize el := by
  subst hg
  refine ⟨_, invsNeeded, hbuild, fun junk out inv => makeGraph_eq junk el out inv, ?_, hinvs⟩
  intro u
  refine ⟨pairwise_squishRow _ _, pairwise_squishRow _ _, ?_⟩
  intro hmem
  exact (mem_arcsGraph_out_nat.mp hmem).1 rfl

theorem buildsInPlace_directed (heap : Heap)
    (el : List (EdgePair Nat)) : BuildsInPlace heap false el := by
  have hrows := rowsOk_outRows el
  obtain ⟨tail, hcsr⟩ := makeCSRInPlace_eq heap false el
  obtain ⟨out, inv, hfinish, hout, hinv⟩ := finishDirected_spec heap hrows tail
  rw [length_outRows] at hfinish hinv
  have hflat := flatten_outRows (pairwise_squishEdges el) (fun e he => (squishEdges_lt he).1)
  rw [← outDegrees, hflat, length_map, ← inDegrees, ← hflat] at hfinish
  rw [if_neg Bool.false_ne_true, hfinish] at hcsr
  have hbuild : makeGraphInPlace heap false el =
      some (.built (CSRGraph.bidirected (numNodes el) out inv) []) := by
    rw [makeGraphInPlace, hcsr]
    rfl
  refine buildsInPlace_of_eq hbuild ?_ ?_
  · apply CSRGraph.ext
    · rfl
    · funext u
      apply Pairwise.eq_of_mem_iff (r := (· < ·))
      · change (out.neigh u).Pairwise (· < ·)
        rw [hout u (by rw [length_outRows]; exact u.isLt)]
        exact hrows.sorted u _
      · exact pairwise_squishRow _ _
      · intro v
        change v ∈ out.neigh u ↔ _
        rw [hout u (by rw [length_outRows]; exact u.isLt), ← getD_eq_getElem _ [], mem_outRows_getD,
          mem_arcsGraph_out_nat]
        simp
    · funext u
      apply Pairwise.eq_of_mem_iff (r := (· < ·))
      · change (inv.neigh u).Pairwise (· < ·)
        rw [hinv u u.isLt]
        exact pairwise_lt_range.filter _
      · exact pairwise_squishRow _ _
      · intro v
        change v ∈ inv.neigh u ↔ _
        rw [hinv u u.isLt, mem_filter, mem_range, decide_eq_true_eq, mem_outRows_getD,
          mem_arcsGraph_in_nat]
        simp only [Bool.false_eq_true, false_and, or_false, ne_comm]
        refine and_iff_right_of_imp ?_
        rintro ⟨-, hmem⟩
        exact (lt_numNodes hmem).1
  · simp

/-- The size of the array is zero exactly if there is no edge between different
vertices. -/
theorem sum_slotLengths_eq_zero (el : List (EdgePair Nat)) :
    (slotLengths (squishRows el)).sum = 0 ↔ ∀ e ∈ el, e.u = e.v := by
  have hflat := flatten_outRows (pairwise_squishEdges el) (fun e he => (squishEdges_lt he).1)
  have hdegrees : ((squishRows el).map length).sum = (squishEdges el).length := by
    rw [← length_flatten, hflat, length_map]
  rw [slotLengths, ← sum_add_sum_eq_sum_zipWith_of_length_eq _ _
    (by rw [length_map, length_needed]), hdegrees]
  constructor
  · intro hzero e he
    have hnil : squishEdges el = [] := eq_nil_of_length_eq_zero (by omega)
    by_contra hne
    have hmem := mem_squishEdges.mpr ⟨he, hne⟩
    rw [hnil] at hmem
    cases hmem
  · intro hloops
    have hnil : squishEdges el = [] := by
      rw [eq_nil_iff_forall_not_mem]
      intro e he
      obtain ⟨hmem, hne⟩ := mem_squishEdges.mp he
      exact hne (hloops e hmem)
    have hrow : ∀ u, (squishRows el).getD u [] = [] := by
      intro u
      rw [eq_nil_iff_forall_not_mem]
      intro v hv
      obtain ⟨hne, hmem⟩ := mem_outRows_getD.mp hv
      exact hne (hloops _ hmem)
    have hmissing : ∀ us, missing (squishRows el) us = [] := by
      intro us
      rw [missing, flatMap_eq_nil_iff]
      intro u _
      rw [hrow u]
      rfl
    have hneeded : (needed (squishRows el)).sum = 0 := by
      simp [needed, hmissing, valuesOf]
    rw [hneeded, hnil]
    rfl

theorem buildsInPlace_symmetrized
    (h : ¬ (heap.reallocNull = true ∧ ∀ e ∈ el, e.u = e.v)) : BuildsInPlace heap true el := by
  have hrows := rowsOk_outRows el
  obtain ⟨tail, hcsr⟩ := makeCSRInPlace_eq heap true el
  obtain ⟨out, invsNeeded, hfinish, hout, hinvs⟩ := finishSymmetrized_spec heap hrows tail
    (by
      rw [sum_slotLengths_eq_zero]
      exact fun hzero => h ⟨hzero.2, hzero.1⟩)
  rw [length_outRows, ← outDegrees] at hfinish
  rw [length_outRows] at hout
  rw [if_pos rfl, hfinish] at hcsr
  have hneigh : ∀ u : Fin (numNodes el), out.neigh u = (arcsGraph true el).outNeigh u := by
    intro u
    obtain ⟨hsorted, hmem⟩ := symmetricRow_spec hrows u
    rw [hout u u.isLt]
    apply Pairwise.eq_of_mem_iff hsorted
    · exact pairwise_squishRow _ _
    · intro v
      rw [hmem, mem_outRows_getD, mem_outRows_getD, mem_arcsGraph_out_nat, ne_comm (a := v),
        ← and_or_left]
      simp
  refine buildsInPlace_of_eq (g := CSRGraph.undirected (numNodes el) out) ?_ ?_ hinvs
  · rw [makeGraphInPlace, hcsr]
    rfl
  · apply CSRGraph.ext
    · rfl
    · funext u
      exact hneigh u
    · rw [(arcsGraph true el).inNeigh_eq rfl]
      funext u
      exact hneigh u

/-- Without edges between different vertices, a null pointer of `realloc` is taken for a
failure. -/
theorem makeGraphInPlace_exit (hnull : heap.reallocNull = true) (hloops : ∀ e ∈ el, e.u = e.v) :
    makeGraphInPlace heap true el = some (.exit (-33) "Call to realloc() failed") := by
  obtain ⟨tail, hcsr⟩ := makeCSRInPlace_eq heap true el
  -- a null pointer for an empty array ends the program
  have hcount := countInverses_spec (rowsOk_outRows el) tail
  rw [length_outRows, ← outDegrees] at hcount
  have hraise := raiseOffsets_rows (squishRows el)
  have htotal := starts_slotLengths_getD (squishRows el)
  rw [← outDegrees] at hraise
  rw [length_outRows] at htotal
  rw [if_pos rfl, finishSymmetrized, hcount] at hcsr
  simp only [bind_eq_bind, bind_some, hraise, htotal] at hcsr
  rw [if_pos ⟨(sum_slotLengths_eq_zero el).mpr hloops, hnull⟩] at hcsr
  rw [makeGraphInPlace, hcsr]
  rfl

/-- **Building in place** gives the squished graph, unless the edge list is symmetrized
and has no edge between different vertices, and `realloc` to size zero returns a null
pointer. -/
theorem makeGraphInPlace_iff
    (heap : Heap)
    (symmetrize : Bool)
    (el : List (EdgePair Nat)) :
    BuildsInPlace heap symmetrize el ↔
      ¬ (symmetrize = true ∧ heap.reallocNull = true ∧ ∀ e ∈ el, e.u = e.v) := by
  cases symmetrize with
  | false => simpa using buildsInPlace_directed heap el
  | true =>
    constructor
    · rintro ⟨g, invsNeeded, hbuild, -⟩ ⟨-, hnull, hloops⟩
      rw [makeGraphInPlace_exit hnull hloops] at hbuild
      cases hbuild
    · intro h
      exact buildsInPlace_symmetrized fun hempty => h ⟨rfl, hempty⟩

/-- The C library of the platform: `realloc` to size zero frees and returns null. -/
def freeingHeap : Heap where
  rest := []
  junk _ := 0
  reallocNull := true

/-- An edge list with a self-loop only. -/
def selfLoopList : List (EdgePair Nat) :=
  [⟨0, 0⟩]

theorem not_buildsInPlace_selfLoopList : makeGraphInPlace freeingHeap true selfLoopList =
        some (.exit (-33) "Call to realloc() failed") ∧
      makeGraph (fun _ => 0) selfLoopList (Schedule.serial true false selfLoopList)
        (Schedule.serial true true selfLoopList) = some (arcsGraph true selfLoopList) ∧
      ¬ BuildsInPlace freeingHeap true selfLoopList := by
  have hexit : makeGraphInPlace freeingHeap true selfLoopList =
      some (.exit (-33) "Call to realloc() failed") :=
    makeGraphInPlace_exit rfl (by decide)
  refine ⟨hexit, makeGraph_eq _ _ _ _, ?_⟩
  rintro ⟨g, invsNeeded, hbuild, -⟩
  rw [hexit] at hbuild
  cases hbuild

end HotTLBApps.Gapbs
