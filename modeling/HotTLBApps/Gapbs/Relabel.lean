import HotTLBApps.Gapbs.Builder

/-!
# GAPBS: relabelling by degree (`RelabelByDegree` of `src/builder.h`)

The vertices are sorted by decreasing degree; the place of a vertex is its new number.
The neighbours are scattered into slices of the new order, and every slice is sorted.

The iterations of the parallel loop over the vertices write to different slices, so
they are taken one after another.
-/

namespace HotTLBApps.Gapbs

open Slices List Function Option

variable {n : Nat}

/-- Undirected, with sorted neighbour lists, without duplicates and self-loops. -/
structure Graph.Simple (g : Graph n) : Prop where
  undirected : g.directed = false
  sorted : ∀ u, (g.outNeigh u).Pairwise (· < ·)
  irrefl : ∀ u, u ∉ g.outNeigh u
  symm : ∀ u v, v ∈ g.outNeigh u → u ∈ g.outNeigh v

/-- The graph without the order of its neighbours. -/
def Graph.Simple.toSimpleGraph {g : Graph n} (h : g.Simple) : SimpleGraph (Fin n) where
  Adj u v := v ∈ g.outNeigh u
  symm := ⟨fun u v => h.symm u v⟩
  loopless := ⟨h.irrefl⟩

instance {g : Graph n} (h : g.Simple) : DecidableRel h.toSimpleGraph.Adj := fun u v =>
  inferInstanceAs (Decidable (v ∈ g.outNeigh u))

/-- `degree_id_pairs`, by decreasing degree and number. -/
def degreeIdPairs (g : Graph n) : List (Nat × Fin n) :=
  ((List.finRange n).map fun u => (g.outDegree u, u)).insertionSort
    fun a b => toLex b ≤ toLex a

/-- `new_ids`: the place of every vertex among the pairs. -/
def newIds (junk : Fin n → Fin n) (pairs : List (Nat × Fin n)) : Fin n → Fin n :=
  ((pairs.map Prod.snd).zip (List.finRange n)).foldl (fun ids p => Function.update ids p.1 p.2) junk

def relabelWrites (ids : Fin n → Fin n) (g : Graph n) : List (Nat × Fin n) :=
  (List.finRange n).flatMap fun u => ((g.outNeigh u).map ids).map fun v => ((ids u).val, v)

/-- `RelabelByDegree`; it exits on directed graphs. -/
def relabelByDegree
    (junkIds : Fin n → Fin n) (junk : Nat → Fin n) (g : Graph n) : Option (Graph n) :=
  if g.directed then
    none
  else do
    let pairs := degreeIdPairs g
    let degrees := pairs.map Prod.fst
    let ids := newIds junkIds pairs
    let offsets := parallelPrefixSum degrees
    let neighs := allocate junk (offsets.getD n 0)
    let (_, neighs) ← scatter (offsets, neighs) (relabelWrites ids g)
    let neighs ← mapSlices (fun row => row.insertionSort (· ≤ ·)) offsets n neighs
    some (CSRGraph.undirected n ⟨offsets, neighs⟩)

theorem degreeIdPairs_perm (g : Graph n) :
    (degreeIdPairs g).Perm ((finRange n).map fun u => (g.outDegree u, u)) :=
  perm_insertionSort _ _

theorem length_degreeIdPairs (g : Graph n) : (degreeIdPairs g).length = n := by
  rw [(degreeIdPairs_perm g).length_eq, length_map, length_finRange]

variable (junk : Fin n → Fin n)

theorem newIds_getElem (g : Graph n) (i : Fin n)
    (hi : i.val < (degreeIdPairs g).length) :
    newIds junk (degreeIdPairs g) ((degreeIdPairs g)[i.val]).2 = i := by
  have hfst : ((((degreeIdPairs g).map Prod.snd).zip (finRange n)).map Prod.fst) =
      (degreeIdPairs g).map Prod.snd := by
    rw [map_fst_zip]
    simp [length_degreeIdPairs]
  have hmem : (((degreeIdPairs g)[i.val]).2, i) ∈
      ((degreeIdPairs g).map Prod.snd).zip (finRange n) := by
    apply mem_iff_getElem.mpr
    exact ⟨i.val, by simp [length_degreeIdPairs], by simp⟩
  refine ArrayLoops.foldl_scatter Prod.fst Prod.snd junk
    (fun p hp heq => inj_on_of_nodup_map ?_ hp hmem heq) hmem
  have hperm := (degreeIdPairs_perm g).map Prod.snd
  rw [List.map_map, show (Prod.snd ∘ fun u : Fin n => (g.outDegree u, u)) = id from rfl,
    List.map_id] at hperm
  rw [hfst]
  exact hperm.nodup_iff.mpr (nodup_finRange n)

/-- **The new numbers are a permutation of the vertices.** -/
theorem newIds_bijective (g : Graph n) :
    Bijective (newIds junk (degreeIdPairs g)) := by
  have hsurj : Surjective (newIds junk (degreeIdPairs g)) := fun i =>
    ⟨_, newIds_getElem junk g i (by rw [length_degreeIdPairs]; exact i.isLt)⟩
  exact ⟨Finite.injective_iff_surjective.mpr hsurj, hsurj⟩

theorem degrees_getElem (g : Graph n) (u : Fin n)
    (hi : (newIds junk (degreeIdPairs g) u).val < ((degreeIdPairs g).map Prod.fst).length) :
    ((degreeIdPairs g).map Prod.fst)[(newIds junk (degreeIdPairs g) u).val] = g.outDegree u := by
  have hi' : (newIds junk (degreeIdPairs g) u).val < (degreeIdPairs g).length := by
    rwa [length_map] at hi
  have hplace := newIds_getElem junk g (newIds junk (degreeIdPairs g) u) hi'
  have hvertex := (newIds_bijective junk g).1 hplace
  obtain ⟨v, -, hpair⟩ := mem_map.mp ((degreeIdPairs_perm g).subset (getElem_mem hi'))
  rw [← hpair] at hvertex
  rw [getElem_map, ← hpair, ← hvertex]

variable {g : Graph n}

/-- **The relabelled graph**: the neighbours of a renamed vertex are its renamed
neighbours, sorted. -/
theorem relabelByDegree_spec (junkIds : Fin n → Fin n) (junk : Nat → Fin n)
    (hdirected : g.directed = false) : ∃ (ids : Fin n ≃ Fin n) (g' : Graph n),
      relabelByDegree junkIds junk g = some g' ∧ g'.directed = false ∧
      ∀ u, g'.outNeigh (ids u) = ((g.outNeigh u).map ids).insertionSort (· ≤ ·) := by
  have hbijective := newIds_bijective junkIds g
  have hdegrees := degrees_getElem junkIds g
  have hlength : ((degreeIdPairs g).map Prod.fst).length = n := by
    rw [length_map, length_degreeIdPairs]
  generalize hids : newIds junkIds (degreeIdPairs g) = ids at hbijective hdegrees
  generalize hlengths : (degreeIdPairs g).map Prod.fst = lengths at hdegrees hlength
  have hvalues : ∀ u, valuesOf (relabelWrites ids g) (ids u).val = (g.outNeigh u).map ids :=
    fun u => valuesOf_rows (nodup_finRange n) (Fin.val_injective.comp hbijective.1)
      (fun u => (g.outNeigh u).map ids) (mem_finRange u)
  have hbuffer := length_allocate_starts junk hlength
  have hindex : ∀ a ∈ relabelWrites ids g, a.1 < lengths.length := by
    intro a ha
    obtain ⟨u, -, hu⟩ := mem_flatMap.mp ha
    obtain ⟨v, -, rfl⟩ := mem_map.mp hu
    rw [hlength]
    exact (ids u).isLt
  have hcount : ∀ i (hi : i < lengths.length),
      (valuesOf (relabelWrites ids g) i).length = lengths[i] := by
    intro i hi
    obtain ⟨u, hu⟩ := hbijective.2 ⟨i, hlength ▸ hi⟩
    have hi' : i = (ids u).val := by rw [hu]
    subst hi'
    rw [hvalues, hdegrees u hi, length_map]
    rfl
  obtain ⟨offsets, neighs, hscatter, hneighs, -, hslice⟩ := scatter_spec hbuffer hindex hcount
  obtain ⟨sorted, hsort, -, hsorted⟩ := mapSlices_starts
    (fun row => length_insertionSort (fun a b : Fin n => a ≤ b) row) hneighs
  rw [hlength] at hsort
  refine ⟨Equiv.ofBijective ids hbijective, CSRGraph.undirected n ⟨starts lengths, sorted⟩,
    ?_, rfl, ?_⟩
  · simp only [relabelByDegree, hdirected, Bool.false_eq_true, if_false, hids, hlengths,
      parallelPrefixSum_eq, hscatter, hsort, bind_eq_bind, bind_some]
  · intro u
    have hu : (ids u).val < lengths.length := hlength ▸ (ids u).isLt
    rw [Equiv.ofBijective_apply, CSRGraph.undirected]
    dsimp only
    rw [CSR.neigh, hsorted _ hu, hslice _ hu, hvalues]
    rfl

/-- A relabelled simple graph is simple, and it has the renamed edges. -/
theorem relabelByDegree_simple (junkIds : Fin n → Fin n) (junk : Nat → Fin n) (h : g.Simple) :
    ∃ (ids : Fin n ≃ Fin n) (g' : Graph n) (h' : g'.Simple),
      relabelByDegree junkIds junk g = some g' ∧
      h'.toSimpleGraph = h.toSimpleGraph.map ids := by
  obtain ⟨ids, g', hrelabel, hundirected, hneigh⟩ := relabelByDegree_spec junkIds junk h.undirected
  have hmem : ∀ u v, ids v ∈ g'.outNeigh (ids u) ↔ v ∈ g.outNeigh u := by
    intro u v
    rw [hneigh, List.mem_insertionSort, List.mem_map_of_injective ids.injective]
  refine ⟨ids, g', ⟨hundirected, ?_, ?_, ?_⟩, hrelabel, ?_⟩
  · intro a
    obtain ⟨u, rfl⟩ := ids.surjective a
    rw [hneigh]
    have hrow : (g.outNeigh u).Nodup := (h.sorted u).imp ne_of_lt
    have hnodup : (((g.outNeigh u).map ids).insertionSort (· ≤ ·)).Nodup :=
      (perm_insertionSort _ _).nodup_iff.mpr (hrow.map ids.injective)
    exact ((pairwise_insertionSort (· ≤ ·) _).and hnodup).imp
      fun hab => lt_of_le_of_ne hab.1 hab.2
  · intro a
    obtain ⟨u, rfl⟩ := ids.surjective a
    rw [hmem]
    exact h.irrefl u
  · intro a b
    obtain ⟨u, rfl⟩ := ids.surjective a
    obtain ⟨v, rfl⟩ := ids.surjective b
    rw [hmem, hmem]
    exact h.symm u v
  · ext a b
    obtain ⟨u, rfl⟩ := ids.surjective a
    obtain ⟨v, rfl⟩ := ids.surjective b
    have hadj := @SimpleGraph.map_adj_apply _ _ h.toSimpleGraph ids.toEmbedding u v
    exact (hmem u v).trans hadj.symm

end HotTLBApps.Gapbs
