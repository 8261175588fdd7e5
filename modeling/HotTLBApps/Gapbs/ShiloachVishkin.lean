import HotTLBApps.Gapbs.Afforest
import HotTLBApps.Lib.Loops

/-!
# GAPBS: `ShiloachVishkin` (`src/cc_sv.cc`), run by one thread

A sweep over the edges hooks the higher of two labels to the lower one, if the higher one is
a root at this moment; the labels change during the sweep.  Then every vertex is moved below
its root.  Both are repeated until a sweep has changed nothing.

In a star every label is a root, so that after a sweep without a change the two ends of
every edge have one label.
-/

namespace HotTLBApps.Gapbs

open Forest Loops List Function

variable {n : Nat}

/-- The body of the loop over the edges, for the edge from `u` to `v`; the second component
is `change`.  The lower label is computed as `comp_u + (comp_v - high_comp)` in the code. -/
def hookEdge (u : Fin n) (s : (Fin n → Fin n) × Bool) (v : Fin n) : (Fin n → Fin n) × Bool :=
  if s.1 u = s.1 v then
    s
  else if max (s.1 u) (s.1 v) = s.1 (max (s.1 u) (s.1 v)) then
    (Function.update s.1 (max (s.1 u) (s.1 v)) (min (s.1 u) (s.1 v)), true)
  else
    s

/-- The loop over the edges. -/
def sweep (g : Graph n) (comp : Fin n → Fin n) : (Fin n → Fin n) × Bool :=
  (List.finRange n).foldl (fun s u => (g.outNeigh u).foldl (hookEdge u) s) (comp, false)

/-- The loop that moves a vertex below its root. -/
def compressVertex (fuel : Nat) (comp : Fin n → Fin n) (x : Fin n) : Option (Fin n → Fin n) :=
  whileM (fun comp => comp x ≠ comp (comp x))
    (fun comp => some (Function.update comp x (comp (comp x)))) fuel comp

def compressAll (fuel : Nat) (comp : Fin n → Fin n) : Option (Fin n → Fin n) :=
  (List.finRange n).foldlM (compressVertex fuel) comp

/-- `ShiloachVishkin`; `none` means that some loop ran out of fuel. -/
def shiloachVishkin (g : Graph n) (fuel : Nat) : Option (Fin n → Fin n) :=
  (whileM (fun s : (Fin n → Fin n) × Bool => s.2 = true)
    (fun s => (compressAll fuel (sweep g s.1).1).map fun comp => (comp, (sweep g s.1).2))
    fuel (id, true)).map Prod.fst

variable {g : Graph n}

/-- Where the higher of the two labels of an edge is not a root, or the labels agree, an edge
hooks nothing. -/
def Idle (comp : Fin n → Fin n) (u v : Fin n) : Prop :=
  comp u = comp v ∨ comp (max (comp u) (comp v)) ≠ max (comp u) (comp v)

/-- What a part of a sweep has done to the array it started from, for the edges that were
visited. -/
structure Swept (g : Graph n) (start : Fin n → Fin n) (edges : List (Fin n × Fin n))
    (s : (Fin n → Fin n) × Bool) : Prop where
  base : Base g s.1
  decreasing : ∀ x, s.1 x ≤ start x
  idle : s.2 = false → s.1 = start ∧ ∀ e ∈ edges, Idle start e.1 e.2
  changed : s.2 = true → ∃ x, s.1 x < start x

variable {s : (Fin n → Fin n) × Bool}

/-- **One edge** of a sweep. -/
theorem Swept.hookEdge {start : Fin n → Fin n} {edges : List (Fin n × Fin n)}
    (h : Swept g start edges s) {u v : Fin n}
    (huv : g.Edge u v) : Swept g start (edges ++ [(u, v)]) (hookEdge u s v) := by
  -- an edge that does nothing is idle
  have hskip : Idle s.1 u v → Swept g start (edges ++ [(u, v)]) s := by
    intro hidle
    refine ⟨h.base, h.decreasing, ?_, h.changed⟩
    intro hfalse
    obtain ⟨hsame, hall⟩ := h.idle hfalse
    refine ⟨hsame, ?_⟩
    intro e he
    obtain he | he := mem_append.mp he
    · exact hall e he
    · rw [mem_singleton.mp he, ← hsame]
      exact hidle
  unfold Gapbs.hookEdge
  split_ifs with heq hroot
  · exact hskip (.inl heq)
  · have hlt : min (s.1 u) (s.1 v) < max (s.1 u) (s.1 v) := min_lt_max.mpr heq
    have hstrict : min (s.1 u) (s.1 v) < s.1 (max (s.1 u) (s.1 v)) := hroot ▸ hlt
    refine ⟨⟨descending_update h.base.descending hlt.le, ?_⟩, ?_, ?_, ?_⟩
    · -- the two labels are connected through the edge
      have hlabels : g.Connected (s.1 u) (s.1 v) :=
        ((h.base.within u).symm _ _).trans _ _ _
          ((Relation.EqvGen.rel _ _ huv).trans _ _ _ (h.base.within v))
      have hhook : g.Connected (max (s.1 u) (s.1 v)) (min (s.1 u) (s.1 v)) := by
        obtain hle | hle := le_total (s.1 u) (s.1 v)
        · rw [max_eq_right hle, min_eq_left hle]
          exact hlabels.symm _ _
        · rw [max_eq_left hle, min_eq_right hle]
          exact hlabels
      exact (forall_update_iff s.1 g.Connected).mpr ⟨hhook, fun x _ => h.base.within x⟩
    · exact update_le_iff.mpr ⟨hstrict.le.trans (h.decreasing _), fun x _ => h.decreasing x⟩
    · nofun
    · intro _
      refine ⟨max (s.1 u) (s.1 v), ?_⟩
      dsimp only
      rw [update_self]
      exact hstrict.trans_le (h.decreasing _)
  · exact hskip (.inr (Ne.symm hroot))

/-- The edges in the order in which they are visited. -/
def Graph.edges (g : Graph n) : List (Fin n × Fin n) :=
  (List.finRange n).flatMap fun u => (g.outNeigh u).map fun v => (u, v)

theorem mem_edges {u v : Fin n} : (u, v) ∈ g.edges ↔ g.Edge u v := by
  simp [Graph.edges, Graph.Edge]

theorem sweep_eq_foldl (comp : Fin n → Fin n) :
    sweep g comp = g.edges.foldl (fun s e => hookEdge e.1 s e.2) (comp, false) := by
  rw [sweep, Graph.edges, foldl_flatMap]
  simp only [foldl_map]

variable {comp : Fin n → Fin n}

/-- **A sweep** stays inside of components and decreases labels; without a change it has found
every edge idle. -/
theorem sweep_spec (hbase : Base g comp) : Swept g comp g.edges (sweep g comp) := by
  have hrun : ∀ es : List (Fin n × Fin n), (∀ e ∈ es, g.Edge e.1 e.2) →
      Swept g comp es (es.foldl (fun s e => Gapbs.hookEdge e.1 s e.2) (comp, false)) := by
    intro es hes
    induction es using reverseRecOn with
    | nil => exact ⟨hbase, fun x => le_refl _, fun _ => ⟨rfl, by simp⟩, by simp⟩
    | append_singleton es e ih =>
      rw [foldl_append]
      exact (ih fun e' he' => hes e' (mem_append_left _ he')).hookEdge
        (hes e (mem_append_right _ (mem_singleton_self e)))
  rw [sweep_eq_foldl]
  exact hrun g.edges fun e he => mem_edges.mp he

/-- A sweep without a change of a forest of stars has found all edges linked. -/
theorem Swept.linked (h : Swept g comp g.edges s) (hdesc : Descending comp)
    (hstar : ∀ x, comp x = root comp x) (hfalse : s.2 = false) : Linked g s.1 := by
  obtain ⟨hsame, hidle⟩ := h.idle hfalse
  rw [hsame]
  intro u v huv
  have hlabel : ∀ x, comp (comp x) = comp x := by
    intro x
    rw [hstar x]
    exact parent_root hdesc x
  rw [← hstar u, ← hstar v]
  obtain heq | hne := hidle (u, v) (mem_edges.mpr huv)
  · exact heq
  · -- the higher label is a label, and labels are roots
    obtain hmax | hmax := max_choice (comp u) (comp v)
    · exact absurd (by rw [hmax]; exact hlabel u) hne
    · exact absurd (by rw [hmax]; exact hlabel v) hne

/-- What moving vertices below their roots keeps. -/
structure Compressed (start comp : Fin n → Fin n) : Prop where
  descending : Descending comp
  roots : ∀ z, root comp z = root start z
  decreasing : ∀ z, comp z ≤ start z

theorem Compressed.trans {comp comp' comp'' : Fin n → Fin n} (h : Compressed comp comp')
    (h' : Compressed comp' comp'') : Compressed comp comp'' where
  descending := h'.descending
  roots := fun z => (h'.roots z).trans (h.roots z)
  decreasing := fun z => (h'.decreasing z).trans (h.decreasing z)

variable {fuel : Nat}

/-- **One vertex** is moved below its root; the others stay. -/
theorem compressVertex_spec (hfuel : n ≤ fuel) (hdesc : Descending comp) (x : Fin n) :
    ∃ comp', compressVertex fuel comp x = some comp' ∧ Compressed comp comp' ∧
      comp' x = root comp' x ∧ ∀ y, y ≠ x → comp' y = comp y := by
  have hloop : ∃ comp', compressVertex fuel comp x = some comp' ∧
      (Compressed comp comp' ∧ ∀ y, y ≠ x → comp' y = comp y) ∧ ¬ comp' x ≠ comp' (comp' x) := by
    refine whileM_total (m := fun comp => (comp x).val) ?_
      ⟨⟨hdesc, fun z => rfl, fun z => le_refl _⟩, fun y _ => rfl⟩ ?_
    · rintro c ⟨hc, hother⟩ hne
      have hlt : c (c x) < c x := lt_of_le_of_ne (hc.descending _) (Ne.symm hne)
      have hltx : c (c x) < x := hlt.trans_le (hc.descending x)
      have hrootx : root c (c (c x)) = root c x := by
        rw [root_parent hc.descending, root_parent hc.descending]
      have hmove : Compressed c (update c x (c (c x))) := by
        refine ⟨descending_update hc.descending hltx.le, root_compress hltx hrootx, ?_⟩
        exact update_le_self_iff.mpr hlt.le
      refine ⟨_, rfl, ⟨hc.trans hmove, ?_⟩, ?_⟩
      · intro y hy
        rw [update_of_ne hy]
        exact hother y hy
      · rw [update_self]
        exact hlt
    · omega
  obtain ⟨comp', hresult, ⟨hcompressed, hother⟩, hdone⟩ := hloop
  refine ⟨comp', hresult, hcompressed, ?_, hother⟩
  rw [← root_parent hcompressed.descending]
  exact (root_of_fixed (not_not.mp hdone).symm).symm

/-- **All vertices** are moved below their roots. -/
theorem compressAll_spec (hfuel : n ≤ fuel) (hdesc : Descending comp) :
    ∃ comp', compressAll fuel comp = some comp' ∧ Compressed comp comp' ∧
      ∀ x, comp' x = root comp' x := by
  have hloop : ∃ comp', compressAll fuel comp = some comp' ∧
      Compressed comp comp' ∧ ∀ x, x ∉ ([] : List (Fin n)) → comp' x = root comp' x := by
    refine foldlM_total (I := fun rest c => Compressed comp c ∧
      ∀ x, x ∉ rest → c x = root c x) ?_ ⟨⟨hdesc, fun z => rfl, fun z => le_refl _⟩, ?_⟩
    · rintro x rest c ⟨hc, hstar⟩
      obtain ⟨c', hresult, hc', hx, hother⟩ := compressVertex_spec hfuel hc.descending x
      refine ⟨c', hresult, hc.trans hc', ?_⟩
      intro y hy
      by_cases hyx : y = x
      · rw [hyx]
        exact hx
      · rw [hother y hyx, hc'.roots]
        exact hstar y (not_mem_cons_of_ne_of_not_mem hyx hy)
    · intro x hx
      exact absurd (mem_finRange x) hx
  obtain ⟨comp', hresult, hc, hstar⟩ := hloop
  exact ⟨comp', hresult, hc, fun x => hstar x not_mem_nil⟩

structure Rounds (g : Graph n) (s : (Fin n → Fin n) × Bool) : Prop where
  base : Base g s.1
  star : ∀ x, s.1 x = root s.1 x
  linked : s.2 = false → Linked g s.1

/-- The rounds that may follow: a change decreases the sum of the labels. -/
def roundsMeasure (s : (Fin n → Fin n) × Bool) : Nat :=
  if s.2 then 1 + ∑ x, (s.1 x).val else 0

/-- **One round** keeps the invariant and decreases the measure. -/
theorem Rounds.round (hfuel : n ≤ fuel) (h : Rounds g s)
    (hchange : s.2 = true) :
    ∃ s', (compressAll fuel (sweep g s.1).1).map (fun comp => (comp, (sweep g s.1).2)) = some s' ∧
      Rounds g s' ∧ roundsMeasure s' < roundsMeasure s := by
  have hswept := sweep_spec h.base
  obtain ⟨comp', hresult, hc, hstar⟩ := compressAll_spec hfuel hswept.base.descending
  refine ⟨(comp', (sweep g s.1).2), by rw [hresult]; rfl,
    ⟨⟨hc.descending, ?_⟩, hstar, ?_⟩, ?_⟩
  · intro x
    apply eqvGen_of_root_eq hswept.base.within
    rw [← hc.roots x, ← hc.roots, root_parent hc.descending]
  · intro hfalse u v huv
    rw [hc.roots, hc.roots]
    exact hswept.linked h.base.descending h.star hfalse u v huv
  · rw [roundsMeasure, roundsMeasure, if_pos hchange]
    split_ifs with hnew
    · obtain ⟨x, hx⟩ := hswept.changed hnew
      have hsum : ∑ x, (comp' x).val < ∑ x, (s.1 x).val := by
        apply Finset.sum_lt_sum
        · exact fun y _ => (hc.decreasing y).trans (hswept.decreasing y)
        · exact ⟨x, Finset.mem_univ x, (hc.decreasing x).trans_lt hx⟩
      exact Nat.add_lt_add_left hsum 1
    · omega

/-- **`ShiloachVishkin` returns the least vertex of every component**, on every graph and
within a bounded number of rounds, and so it returns what `Afforest` returns. -/
theorem shiloachVishkin_components (g : Graph n) :
    ∃ comp, (∀ fuel, n * n + 1 ≤ fuel → shiloachVishkin g fuel = some comp) ∧
      (∀ u, IsLeast {v | g.Connected u v} (comp u)) ∧
      (g.Inverse → ∀ neighborRounds s, Relation.ReflTransGen (AfforestStep g neighborRounds)
        (afforestStart g neighborRounds) s → s.stage = .returned → s.comp = comp) := by
  have hrun : ∀ fuel, n * n + 1 ≤ fuel → ∃ comp, shiloachVishkin g fuel = some comp ∧
      ∀ u, IsLeast {v | g.Connected u v} (comp u) := by
    intro fuel hfuel
    have hn : n ≤ fuel := by
      have := Nat.le_mul_self n
      omega
    have hstart : Rounds g (id, true) :=
      ⟨⟨fun x => le_refl x, fun x => .refl x⟩, fun x => (root_of_fixed rfl).symm, by simp⟩
    have hmeasure : roundsMeasure ((id : Fin n → Fin n), true) ≤ fuel := by
      have hsum : ∑ x : Fin n, x.val ≤ n * n := by
        calc ∑ x : Fin n, x.val ≤ ∑ _x : Fin n, n := Finset.sum_le_sum fun x _ => x.isLt.le
          _ = n * n := by simp
      rw [roundsMeasure, if_pos rfl]
      simp only [id]
      omega
    obtain ⟨s, hs, hrounds, hdone⟩ := whileM_total
      (fun s (h : Rounds g s) hchange => h.round hn hchange) hstart hmeasure
    refine ⟨s.1, by rw [shiloachVishkin, hs]; rfl, ?_⟩
    exact (isLeast_of_linked hrounds.base (hrounds.linked (by simpa using hdone)) hrounds.star).1
  obtain ⟨comp, -, hleast⟩ := hrun _ (le_refl _)
  refine ⟨comp, ?_, hleast, ?_⟩
  · intro fuel hfuel
    obtain ⟨comp', hresult, hleast'⟩ := hrun fuel hfuel
    rw [hresult]
    exact congrArg some (funext fun u => (hleast' u).unique (hleast u))
  · intro hg neighborRounds s hs hreturned
    obtain ⟨hbase, hstage⟩ := inv_of_reachable hg hs
    rw [hreturned] at hstage
    exact funext fun u => ((isLeast_of_linked hbase hstage.1 hstage.2).1 u).unique (hleast u)

/-- An edge against the order of the vertices. -/
example : (shiloachVishkin exampleDigraph 10).map List.ofFn = some [0, 1, 1] := by
  decide +kernel

end HotTLBApps.Gapbs
