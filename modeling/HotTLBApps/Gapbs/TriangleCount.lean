import HotTLBApps.Gapbs.Relabel

/-!
# GAPBS: triangle counting (`src/tc.cc`)

`OrderedCount` walks for every edge from `u` down to `v` through the neighbours of
both, in their common order, and counts the neighbours they share.  The walk through
the neighbours of `v` has no test for the end of the list; in the model a read past the
end is `none`.

`scan_spec`: the walk stops, because `u` itself is a neighbour of `v`.

`WorthRelabelling` draws samples; its answer is a parameter.
-/

namespace HotTLBApps.Gapbs

open List Option SimpleGraph

variable {n : Nat}

/-- `while (*it < w) it++`. -/
def skipTo (w : Fin n) : List (Fin n) → Option (List (Fin n))
  | [] => none
  | x :: it => if x < w then skipTo w it else some (x :: it)

/-- The loop over the neighbours `w` of `u`; `it` stands in the neighbours of `v`. -/
def scan (v : Fin n) : List (Fin n) → List (Fin n) → Option Nat
  | [], _ => some 0
  | w :: ws, it =>
      if w > v then
        some 0
      else do
        let it ← skipTo w it
        let x ← it.head?
        let rest ← scan v ws it
        some ((if w = x then 1 else 0) + rest)

/-- The loop over the neighbours `v` of `u`. -/
def countAt (g : Graph n) (u : Fin n) : List (Fin n) → Option Nat
  | [] => some 0
  | v :: vs =>
      if v > u then
        some 0
      else do
        let count ← scan v (g.outNeigh u) (g.outNeigh v)
        let rest ← countAt g u vs
        some (count + rest)

def countFrom (g : Graph n) : List (Fin n) → Option Nat
  | [] => some 0
  | u :: us => do
      let count ← countAt g u (g.outNeigh u)
      let rest ← countFrom g us
      some (count + rest)

def orderedCount (g : Graph n) : Option Nat :=
  countFrom g (List.finRange n)

/-- `Hybrid`, with the answer of `WorthRelabelling`. -/
def hybrid (worthRelabelling : Bool) (junkIds : Fin n → Fin n) (junk : Nat → Fin n)
    (g : Graph n) : Option Nat :=
  if worthRelabelling then
    (relabelByDegree junkIds junk g).bind orderedCount
  else
    orderedCount g

variable {it : List (Fin n)}

/-- The iterator passes what is smaller, and it stops where something is not. -/
theorem skipTo_eq {w : Fin n} (hstop : ∃ x ∈ it, w ≤ x) :
    skipTo w it = some (it.dropWhile (· < w)) := by
  induction it with
  | nil =>
    obtain ⟨x, hx, -⟩ := hstop
    cases hx
  | cons y it ih =>
    rw [skipTo]
    split_ifs with hy
    · rw [dropWhile_cons_of_pos (by simpa using hy)]
      apply ih
      obtain ⟨x, hx, hwx⟩ := hstop
      obtain rfl | hx := mem_cons.mp hx
      · exact absurd hy (not_lt.mpr hwx)
      · exact ⟨x, hx, hwx⟩
    · rw [dropWhile_cons_of_neg (by simpa using hy)]

theorem mem_dropWhile_lt_iff {w x : Fin n} (hsorted : it.Pairwise (· < ·)) (hx : w ≤ x) :
    x ∈ it.dropWhile (· < w) ↔ x ∈ it := by
  induction it with
  | nil => rfl
  | cons y it ih =>
    by_cases hy : y < w
    · have hne : x ≠ y := (hy.trans_le hx).ne'
      rw [dropWhile_cons_of_pos (by simpa using hy), ih (pairwise_cons.mp hsorted).2]
      simp [hne]
    · rw [dropWhile_cons_of_neg (by simpa using hy)]

theorem head_dropWhile_lt {w : Fin n} (hsorted : it.Pairwise (· < ·)) (hstop : ∃ x ∈ it, w ≤ x) :
    ∃ x, (it.dropWhile (· < w)).head? = some x ∧ (w = x ↔ w ∈ it) := by
  obtain ⟨y, hy, hwy⟩ := hstop
  have hmem := (mem_dropWhile_lt_iff hsorted hwy).mpr hy
  have hsublist := dropWhile_sublist (· < w) (l := it)
  cases hdrop : it.dropWhile (· < w) with
  | nil =>
    rw [hdrop] at hmem
    cases hmem
  | cons x rest =>
    refine ⟨x, rfl, ?_, ?_⟩
    · rintro rfl
      exact hsublist.subset (hdrop ▸ mem_cons_self)
    · intro hw
      have hw' := (mem_dropWhile_lt_iff hsorted le_rfl).mpr hw
      have hxw : ¬ x < w := by
        have hhead := head_dropWhile_not (· < w) (l := it) (by simp [hdrop])
        simpa [hdrop] using hhead
      rw [hdrop] at hw'
      obtain h | h := mem_cons.mp hw'
      · exact h
      · have hpair := hdrop ▸ hsorted.sublist hsublist
        exact absurd ((pairwise_cons.mp hpair).1 w h) hxw

/-- **The inner loop** stays inside the list, and it counts the shared neighbours up
to `v`. -/
theorem scan_spec {u v : Fin n} (hvu : v < u) {ws it : List (Fin n)} (hws : ws.Pairwise (· < ·))
    (hit : it.Pairwise (· < ·)) (hu : u ∈ it) :
    scan v ws it = some (ws.countP fun w => w ≤ v ∧ w ∈ it) := by
  induction ws generalizing it with
  | nil => rfl
  | cons w ws ih =>
    obtain ⟨hw, hws'⟩ := pairwise_cons.mp hws
    rw [scan]
    split_ifs with hwv
    · -- All neighbours that follow are larger as well.
      rw [eq_comm, some_inj, countP_eq_zero]
      intro x hx
      have hvx : v < x := by
        obtain rfl | hx := mem_cons.mp hx
        · exact hwv
        · exact hwv.trans (hw x hx)
      simp [not_le.mpr hvx]
    · have hwu : w ≤ u := (not_lt.mp hwv).trans hvu.le
      obtain ⟨x, hhead, hx⟩ := head_dropWhile_lt hit ⟨u, hu, hwu⟩
      have hrest := ih hws' (hit.sublist (dropWhile_sublist _))
        ((mem_dropWhile_lt_iff hit hwu).mpr hu)
      rw [skipTo_eq ⟨u, hu, hwu⟩]
      simp only [bind_eq_bind, bind_some, hhead, hrest, some_inj]
      have hcongr : (ws.countP fun y => y ≤ v ∧ y ∈ it.dropWhile (· < w)) =
          ws.countP fun y => y ≤ v ∧ y ∈ it := by
        apply countP_congr
        intro y hy
        simp [mem_dropWhile_lt_iff hit (hw y hy).le]
      rw [hcongr, countP_cons, Nat.add_comm]
      congr 1
      simp [hx, not_lt.mp hwv]

/-- The triangles with largest vertex `u` and middle vertex among `vs`. -/
def trianglesAt (g : Graph n) (u : Fin n) (vs : List (Fin n)) : List (Fin n × Fin n × Fin n) :=
  (vs.filter (· ≤ u)).flatMap fun v =>
    ((g.outNeigh u).filter fun w => w ≤ v ∧ w ∈ g.outNeigh v).map fun w => (u, v, w)

/-- The triangles with largest vertex among `us`. -/
def triangles (g : Graph n) (us : List (Fin n)) : List (Fin n × Fin n × Fin n) :=
  us.flatMap fun u => trianglesAt g u (g.outNeigh u)

variable {g : Graph n}

theorem countAt_eq (h : g.Simple) {u : Fin n} {vs : List (Fin n)} (hvs : vs.Pairwise (· < ·))
    (hsub : ∀ v ∈ vs, v ∈ g.outNeigh u) : countAt g u vs = some (trianglesAt g u vs).length := by
  induction vs with
  | nil => rfl
  | cons v vs ih =>
    obtain ⟨hv, hvs'⟩ := pairwise_cons.mp hvs
    rw [countAt]
    by_cases hvu : v > u
    · have hnil : (v :: vs).filter (· ≤ u) = [] := by
        rw [filter_eq_nil_iff]
        intro x hx
        have hux : u < x := by
          obtain rfl | hx := mem_cons.mp hx
          · exact hvu
          · exact hvu.trans (hv x hx)
        simpa using hux
      rw [if_pos hvu, trianglesAt, hnil]
      rfl
    · have hmem := hsub v mem_cons_self
      have hne : v ≠ u := by
        rintro rfl
        exact h.irrefl v hmem
      have hlt : v < u := lt_of_le_of_ne (not_lt.mp hvu) hne
      have hscan := scan_spec hlt (h.sorted u) (h.sorted v) (h.symm u v hmem)
      have hrest := ih hvs' fun x hx => hsub x (mem_cons_of_mem _ hx)
      rw [if_neg hvu, hscan, hrest]
      simp only [bind_eq_bind, bind_some, some_inj, trianglesAt]
      rw [filter_cons_of_pos (by simpa using hlt.le), flatMap_cons,
        length_append, length_map, countP_eq_length_filter]

theorem countFrom_eq (h : g.Simple) (us : List (Fin n)) :
    countFrom g us = some (triangles g us).length := by
  induction us with
  | nil => rfl
  | cons u us ih =>
    rw [countFrom, countAt_eq h (h.sorted u) (fun _ hv => hv), ih]
    simp only [bind_eq_bind, bind_some, some_inj, triangles]
    rw [flatMap_cons, length_append]

theorem mem_triangles (h : g.Simple) {u v w : Fin n} : (u, v, w) ∈ triangles g (List.finRange n) ↔
      w < v ∧ v < u ∧ v ∈ g.outNeigh u ∧ w ∈ g.outNeigh u ∧ w ∈ g.outNeigh v := by
  simp only [triangles, trianglesAt, List.mem_flatMap, List.mem_finRange, true_and,
    List.mem_filter, decide_eq_true_eq, List.mem_map, Prod.mk.injEq]
  constructor
  · rintro ⟨u', v', ⟨hv, hle⟩, w', ⟨hw, hle', hw'⟩, rfl, rfl, rfl⟩
    refine ⟨lt_of_le_of_ne hle' ?_, lt_of_le_of_ne hle ?_, hv, hw, hw'⟩
    · rintro rfl
      exact h.irrefl _ hw'
    · rintro rfl
      exact h.irrefl _ hv
  · rintro ⟨hwv, hvu, hv, hw, hw'⟩
    exact ⟨u, v, ⟨hv, hvu.le⟩, w, ⟨hw, hwv.le, hw'⟩, rfl, rfl, rfl⟩

theorem nodup_triangles (h : g.Simple) : (triangles g (List.finRange n)).Nodup := by
  have hneigh : ∀ u, (g.outNeigh u).Nodup := fun u => (h.sorted u).imp ne_of_lt
  rw [triangles, nodup_flatMap]
  refine ⟨?_, (nodup_finRange n).imp ?_⟩
  · intro u _
    rw [trianglesAt, nodup_flatMap]
    refine ⟨?_, ((hneigh u).filter _).imp ?_⟩
    · intro v _
      apply ((hneigh u).filter _).map
      intro w w' hww
      exact (Prod.mk.inj (Prod.mk.inj hww).2).2
    · intro v v' hne t ht ht'
      obtain ⟨w, -, rfl⟩ := mem_map.mp ht
      obtain ⟨w', -, hww⟩ := mem_map.mp ht'
      exact hne (Prod.mk.inj (Prod.mk.inj hww).2).1.symm
  · intro u u' hne t ht ht'
    simp only [trianglesAt, List.mem_flatMap, List.mem_map] at ht ht'
    obtain ⟨v, -, w, -, rfl⟩ := ht
    obtain ⟨v', -, w', -, hww⟩ := ht'
    exact hne (Prod.mk.inj hww).1.symm

theorem eq_of_triple_eq {u v w u' v' w' : Fin n} (hwv : w < v) (hvu : v < u) (hwv' : w' < v')
    (hvu' : v' < u') (h : ({u, v, w} : Finset (Fin n)) = {u', v', w'}) :
    u = u' ∧ v = v' ∧ w = w' := by
  have hmem : ∀ x, (x = u ∨ x = v ∨ x = w) ↔ (x = u' ∨ x = v' ∨ x = w') := by
    intro x
    simpa using Finset.ext_iff.mp h x
  have hu := (hmem u).mp (.inl rfl)
  have hv := (hmem v).mp (.inr (.inl rfl))
  have hw := (hmem w).mp (.inr (.inr rfl))
  omega

theorem exists_decreasing {a b c : Fin n} (hab : a ≠ b) (hac : a ≠ c) (hbc : b ≠ c) :
    ∃ u v w, w < v ∧ v < u ∧ ({u, v, w} : Finset (Fin n)) = {a, b, c} := by
  have hswap : ∀ x y z : Fin n, ({x, y, z} : Finset (Fin n)) = {x, z, y} := by
    intro x y z
    rw [Finset.pair_comm]
  have hcomm : ∀ x y z : Fin n, ({x, y, z} : Finset (Fin n)) = {y, x, z} :=
    fun x y z => Finset.insert_comm x y {z}
  rcases lt_or_gt_of_ne hab with h₁ | h₁ <;> rcases lt_or_gt_of_ne hac with h₂ | h₂ <;>
    rcases lt_or_gt_of_ne hbc with h₃ | h₃
  · exact ⟨c, b, a, h₁, h₃, by rw [hcomm, hswap, hcomm]⟩
  · exact ⟨b, c, a, h₂, h₃, by rw [hswap, hcomm]⟩
  · omega
  · exact ⟨b, a, c, h₂, h₁, hcomm b a c⟩
  · exact ⟨c, a, b, h₁, h₂, by rw [hcomm, hswap]⟩
  · omega
  · exact ⟨a, c, b, h₃, h₂, hswap a c b⟩
  · exact ⟨a, b, c, h₃, h₁, rfl⟩

/-- **The listed triples are the triangles of the graph.** -/
theorem length_triangles (h : g.Simple) :
    (triangles g (List.finRange n)).length = (h.toSimpleGraph.cliqueFinset 3).card := by
  rw [← toFinset_card_of_nodup (nodup_triangles h)]
  apply Finset.card_bij (fun t _ => ({t.1, t.2.1, t.2.2} : Finset (Fin n)))
  · rintro ⟨u, v, w⟩ ht
    rw [List.mem_toFinset, mem_triangles h] at ht
    obtain ⟨-, -, hv, hw, hw'⟩ := ht
    rw [mem_cliqueFinset_iff, is3Clique_triple_iff]
    exact ⟨hv, hw, hw'⟩
  · rintro ⟨u, v, w⟩ ht ⟨u', v', w'⟩ ht' heq
    rw [List.mem_toFinset, mem_triangles h] at ht ht'
    obtain ⟨rfl, rfl, rfl⟩ := eq_of_triple_eq ht.1 ht.2.1 ht'.1 ht'.2.1 heq
    rfl
  · intro s hs
    rw [mem_cliqueFinset_iff, is3Clique_iff] at hs
    obtain ⟨a, b, c, hab, hac, hbc, rfl⟩ := hs
    obtain ⟨u, v, w, hwv, hvu, hset⟩ := exists_decreasing hab.ne hac.ne hbc.ne
    have hclique : h.toSimpleGraph.IsNClique 3 {u, v, w} := by
      rw [hset, is3Clique_triple_iff]
      exact ⟨hab, hac, hbc⟩
    obtain ⟨hv, hw, hw'⟩ := is3Clique_triple_iff.mp hclique
    refine ⟨(u, v, w), ?_, hset⟩
    rw [List.mem_toFinset, mem_triangles h]
    exact ⟨hwv, hvu, hv, hw, hw'⟩

theorem card_cliqueFinset_of_map {g g' : Graph n} {h : g.Simple} {h' : g'.Simple}
    {ids : Fin n ≃ Fin n} (hmap : h'.toSimpleGraph = h.toSimpleGraph.map ids) :
    (h'.toSimpleGraph.cliqueFinset 3).card = (h.toSimpleGraph.cliqueFinset 3).card := by
  rw [← Set.ncard_coe_finset, ← Set.ncard_coe_finset, coe_cliqueFinset,
    coe_cliqueFinset, hmap, cliqueSet_map_of_equiv,
    Set.ncard_image_of_injective _ (Finset.map_injective _)]

/-- **`OrderedCount` and `Hybrid` count the triangles.**  The reads of `OrderedCount`
stay inside the neighbour lists, and relabelling does not change the number. -/
theorem hybrid_eq_triangles
    {g : Graph n}
    (h : g.Simple) :
    orderedCount g = some (h.toSimpleGraph.cliqueFinset 3).card ∧ ∀ worthRelabelling junkIds junk,
        hybrid worthRelabelling junkIds junk g = some (h.toSimpleGraph.cliqueFinset 3).card := by
  have hcount : ∀ {g : Graph n} (h : g.Simple),
      orderedCount g = some (h.toSimpleGraph.cliqueFinset 3).card := by
    intro g h
    rw [orderedCount, countFrom_eq h, length_triangles h]
  refine ⟨hcount h, ?_⟩
  intro worthRelabelling junkIds junk
  cases worthRelabelling with
  | false => exact hcount h
  | true =>
    obtain ⟨ids, g', h', hrelabel, hmap⟩ := relabelByDegree_simple junkIds junk h
    rw [hybrid, if_pos rfl, hrelabel, bind_some, hcount h', card_cliqueFinset_of_map hmap]

/-- Four vertices, each joined to all others. -/
def completeGraph : Graph 4 where
  directed := false
  outNeigh u := (List.finRange 4).filter (· ≠ u)
  inNeigh u := (List.finRange 4).filter (· ≠ u)
  inNeigh_eq _ := rfl

theorem completeGraph_simple : completeGraph.Simple where
  undirected := rfl
  sorted := by decide
  irrefl := by decide
  symm := by decide

theorem hybrid_eq_triangles_completeGraph : completeGraph.Simple ∧ orderedCount completeGraph =
        some (completeGraph_simple.toSimpleGraph.cliqueFinset 3).card ∧
      ∀ worthRelabelling junkIds junk, hybrid worthRelabelling junkIds junk completeGraph =
          some (completeGraph_simple.toSimpleGraph.cliqueFinset 3).card :=
  ⟨completeGraph_simple, hybrid_eq_triangles completeGraph_simple⟩

example : orderedCount completeGraph = some 4 := by decide

end HotTLBApps.Gapbs
