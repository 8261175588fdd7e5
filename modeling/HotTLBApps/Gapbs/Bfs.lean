import HotTLBApps.Lib.Walks
import HotTLBApps.Gapbs.Graph

/-!
# GAPBS: direction-optimizing breadth-first search (`src/bfs.cc`)

`DOBFS` visits the vertices level by level.  A top-down step goes through the edges of
the frontier, a bottom-up step looks for every vertex that is not visited for a
neighbour in the frontier; a heuristic switches between them.  The frontier is a
sliding queue or a bitmap.  The loops of the threads run one after another here.

The bitmap is not cleared when the search goes bottom-up again, so it may hold vertices
of older frontiers.  They are harmless: all their neighbours are visited
(`buStep_spec`).
-/

namespace HotTLBApps.Gapbs

open Walks List Function Option

variable {n : Nat}

/-- `SlidingQueue`: what was pushed, and the window. -/
structure SlidingQueue (n : Nat) where
  capacity : Nat
  shared : List (Fin n)
  outStart : Nat
  outEnd : Nat

namespace SlidingQueue

def new (capacity : Nat) : SlidingQueue n :=
  ⟨capacity, [], 0, 0⟩

/-- `push_back` of all vertices of a list, as `flush` of a `QueueBuffer` does; `none` if
they do not fit. -/
def pushAll (q : SlidingQueue n) (vs : List (Fin n)) : Option (SlidingQueue n) :=
  if q.shared.length + vs.length ≤ q.capacity then
    some { q with shared := q.shared ++ vs }
  else
    none

def slideWindow (q : SlidingQueue n) : SlidingQueue n :=
  { q with outStart := q.outEnd, outEnd := q.shared.length }

def empty (q : SlidingQueue n) : Bool :=
  q.outStart = q.outEnd

def size (q : SlidingQueue n) : Nat :=
  q.outEnd - q.outStart

/-- The vertices from `begin` to `end`. -/
def window (q : SlidingQueue n) : List (Fin n) :=
  (q.shared.drop q.outStart).take q.size

end SlidingQueue

abbrev Bitmap (n : Nat) := Fin n → Bool

def Bitmap.setBit (bm : Bitmap n) (v : Fin n) : Bitmap n :=
  update bm v true

/-- What `BUStep` works on. -/
structure BottomUp (n : Nat) where
  parent : Fin n → Int
  awakeCount : Nat
  next : Bitmap n

/-- One turn of the loop of `BUStep`. -/
def buVertex (g : Graph n) (front : Bitmap n) (s : BottomUp n) (u : Fin n) : BottomUp n :=
  if s.parent u < 0 then
    match (g.inNeigh u).find? front with
    | some v => ⟨update s.parent u v, s.awakeCount + 1, s.next.setBit u⟩
    | none => s
  else
    s

def buStep (g : Graph n) (parent : Fin n → Int) (front : Bitmap n) : BottomUp n :=
  (List.finRange n).foldl (buVertex g front) ⟨parent, 0, fun _ => false⟩

/-- What `TDStep` works on. -/
structure TopDown (n : Nat) where
  parent : Fin n → Int
  scoutCount : Int
  lqueue : List (Fin n)

/-- One turn of the inner loop of `TDStep`. -/
def tdEdge (u : Fin n) (s : TopDown n) (v : Fin n) : TopDown n :=
  if s.parent v < 0 then
    ⟨update s.parent v u, s.scoutCount + -s.parent v, s.lqueue ++ [v]⟩
  else
    s

/-- One turn of the outer loop of `TDStep`. -/
def tdVertex (g : Graph n) (s : TopDown n) (u : Fin n) : TopDown n :=
  (g.outNeigh u).foldl (tdEdge u) s

/-- The loops of `TDStep`. -/
def tdLoop (g : Graph n) (parent : Fin n → Int) (window : List (Fin n)) : TopDown n :=
  window.foldl (tdVertex g) ⟨parent, 0, []⟩

def queueToBitmap (q : SlidingQueue n) (bm : Bitmap n) : Bitmap n :=
  q.window.foldl Bitmap.setBit bm

def bitmapToQueue (bm : Bitmap n) (q : SlidingQueue n) : Option (SlidingQueue n) :=
  (q.pushAll ((List.finRange n).filter bm)).map SlidingQueue.slideWindow

def initParent (g : Graph n) (v : Fin n) : Int :=
  if g.outDegree v ≠ 0 then -(g.outDegree v : Int) else -1

/-- The bottom-up loop: `BUStep` is repeated as long as the frontier grows or is large.
`none` when the fuel does not suffice. -/
def buLoop (g : Graph n) (beta : Int) :
    Nat → (Fin n → Int) → Bitmap n → Nat → Option ((Fin n → Int) × Bitmap n)
  | 0, _, _, _ => none
  | fuel + 1, parent, front, oldAwakeCount =>
      let s := buStep g parent front
      if s.awakeCount ≥ oldAwakeCount ∨ (s.awakeCount : Int) > (n : Int).tdiv beta then
        buLoop g beta fuel s.parent s.next s.awakeCount
      else
        some (s.parent, s.next)

/-- The variables of `DOBFS`. -/
structure Search (n : Nat) where
  parent : Fin n → Int
  queue : SlidingQueue n
  front : Bitmap n
  edgesToCheck : Int
  scoutCount : Int

/-- The branch of `DOBFS` that goes bottom-up. -/
def bottomUp (g : Graph n) (beta : Int) (fuel : Nat) (s : Search n) : Option (Search n) := do
  let front := queueToBitmap s.queue s.front
  let queue := s.queue.slideWindow
  let (parent, front) ← buLoop g beta fuel s.parent front s.queue.size
  let queue ← bitmapToQueue front queue
  some { s with parent := parent, queue := queue, front := front, scoutCount := 1 }

/-- The branch of `DOBFS` that goes top-down. -/
def topDown (g : Graph n) (s : Search n) : Option (Search n) := do
  let td := tdLoop g s.parent s.queue.window
  let queue ← s.queue.pushAll td.lqueue
  some { s with
    parent := td.parent, queue := queue.slideWindow,
    edgesToCheck := s.edgesToCheck - s.scoutCount, scoutCount := td.scoutCount }

/-- The main loop of `DOBFS`. -/
def dobfsLoop (g : Graph n) (alpha beta : Int) : Nat → Search n → Option (Search n)
  | fuel, s =>
      if s.queue.empty then
        some s
      else
        match fuel with
        | 0 => none
        | fuel + 1 =>
            (if s.scoutCount > s.edgesToCheck.tdiv alpha then
              bottomUp g beta (fuel + 1) s
            else
              topDown g s).bind (dobfsLoop g alpha beta fuel)

/-- `DOBFS`; `none` when the fuel does not suffice or the queue overflows. -/
def dobfs
    (g : Graph n) (source : Fin n) (alpha beta : Int) (fuel : Nat) : Option (Fin n → Int) := do
  let queue ← (SlidingQueue.new n).pushAll [source]
  let s ← dobfsLoop g alpha beta fuel {
    parent := update (initParent g) source source
    queue := queue.slideWindow
    front := fun _ => false
    edgesToCheck := g.numEdgesDirected
    scoutCount := g.outDegree source }
  some fun v => if s.parent v < -1 then -1 else s.parent v

/-- The edges of a graph, each of length one. -/
def Graph.UnitEdge (g : Graph n) (u v : Fin n) (w : Nat) : Prop :=
  v ∈ g.outNeigh u ∧ w = 1

/-- The length of a shortest path from the source. -/
def Graph.Dist (g : Graph n) (source v : Fin n) (d : Nat) : Prop :=
  IsDist g.UnitEdge source v d

def Graph.Within (g : Graph n) (source : Fin n) (d : Nat) (v : Fin n) : Prop :=
  ∃ k ≤ d, g.Dist source v k

variable {g : Graph n} {source u v : Fin n} {d k : Nat}

theorem Graph.Dist.exists_pred
    (h : g.Dist source v (d + 1)) : ∃ u, v ∈ g.outNeigh u ∧ g.Dist source u d := by
  obtain ⟨-, hzero⟩ | ⟨u, w, d', ⟨hedge, rfl⟩, hd', heq⟩ := IsDist.exists_pred h
  · cases hzero
  · obtain rfl : d = d' := by omega
    exact ⟨u, hedge, hd'⟩

theorem Graph.Dist.succ_of_not_within (h : g.Dist source u k) (hk : k ≤ d)
    (hedge : v ∈ g.outNeigh u) (hv : ¬ g.Within source d v) : k = d ∧ g.Dist source v (d + 1) := by
  obtain ⟨d', hle, hd'⟩ := exists_isDist (IsDist.walk h |>.snoc ⟨hedge, rfl⟩)
  have hlow : d < d' := not_le.mp fun hge => hv ⟨d', hge, hd'⟩
  obtain rfl : d' = d + 1 := by omega
  exact ⟨by omega, hd'⟩

theorem Graph.within_succ_iff :
    g.Within source (d + 1) v ↔ g.Within source d v ∨ g.Dist source v (d + 1) := by
  simp only [Within, Nat.le_add_one_iff, or_and_right, exists_or, exists_eq_left]

theorem Graph.Dist.not_within (h : g.Dist source v (d + 1)) : ¬ g.Within source d v := by
  rintro ⟨k, hk, hdist⟩
  have := IsDist.unique h hdist
  omega

theorem Graph.Dist.exists_of_le (h : g.Dist source v k) (hd : d ≤ k) : ∃ u, g.Dist source u d := by
  induction k generalizing v with
  | zero =>
    obtain rfl : d = 0 := by omega
    exact ⟨v, h⟩
  | succ k ih =>
    obtain hlt | hge := Nat.lt_or_ge k d
    · obtain rfl : d = k + 1 := by omega
      exact ⟨v, h⟩
    · obtain ⟨u, -, hu⟩ := h.exists_pred
      exact ih hu hge

/-- The parents of the vertices within a distance. -/
structure Parents (g : Graph n) (source : Fin n) (d : Nat) (parent : Fin n → Int) : Prop where
  root : parent source = source
  visited : ∀ v, 0 ≤ parent v ↔ g.Within source d v
  tree : ∀ v, v ≠ source → 0 ≤ parent v →
    ∃ u k, parent v = (u : Fin n).val ∧ v ∈ g.outNeigh u ∧ g.Dist source u k ∧
      g.Dist source v (k + 1)

variable {parent : Fin n → Int}

section

variable (h : Parents g source d parent)
include h

theorem Parents.neg_iff : parent v < 0 ↔ ¬ g.Within source d v := by
  rw [← h.visited, not_le]

variable {parent' : Fin n → Int}

/-- **The next level.**  The vertices of the next level get a parent in this one, and no
other vertex changes. -/
theorem Parents.succ (hkept : ∀ v, ¬ g.Dist source v (d + 1) → parent' v = parent v)
    (hnew : ∀ v, g.Dist source v (d + 1) →
      ∃ u : Fin n, parent' v = u.val ∧ v ∈ g.outNeigh u ∧ g.Dist source u d) :
    Parents g source (d + 1) parent' := by
  have hold : ∀ v, g.Within source d v → parent' v = parent v := by
    intro v hv
    exact hkept v fun hdist => hdist.not_within hv
  refine ⟨?_, ?_, ?_⟩
  · rw [hold source ⟨0, Nat.zero_le _, isDist_source⟩, h.root]
  · intro v
    rw [Graph.within_succ_iff]
    by_cases hdist : g.Dist source v (d + 1)
    · obtain ⟨u, hu, -⟩ := hnew v hdist
      simp [hdist, hu]
    · rw [hkept v hdist, h.visited]
      simp [hdist]
  · intro v hv hvisited
    by_cases hdist : g.Dist source v (d + 1)
    · obtain ⟨u, hu, hedge, hud⟩ := hnew v hdist
      exact ⟨u, d, hu, hedge, hud, hdist⟩
    · rw [hkept v hdist] at hvisited ⊢
      exact h.tree v hv hvisited

/-- The number of vertices that are not visited. -/
def unvisited (parent : Fin n → Int) : Nat :=
  (Finset.univ.filter fun v => parent v < 0).card

theorem Parents.subset_unvisited (h' : Parents g source (d + 1) parent') :
    (Finset.univ.filter fun v => parent' v < 0) ⊆ Finset.univ.filter fun v => parent v < 0 := by
  intro v
  rw [Finset.mem_filter, Finset.mem_filter, h'.neg_iff, h.neg_iff, Graph.within_succ_iff]
  exact fun hv => ⟨hv.1, fun hin => hv.2 (.inl hin)⟩

/-- A new level means fewer vertices that are not visited. -/
theorem Parents.unvisited_lt (h' : Parents g source (d + 1) parent')
    (hv : g.Dist source v (d + 1)) : unvisited parent' < unvisited parent := by
  refine Finset.card_lt_card ⟨h.subset_unvisited h', fun hsub => ?_⟩
  have hmem : v ∈ Finset.univ.filter fun v => parent v < 0 := by
    rw [Finset.mem_filter, h.neg_iff]
    exact ⟨Finset.mem_univ v, hv.not_within⟩
  have hmem' := hsub hmem
  rw [Finset.mem_filter, h'.neg_iff, Graph.within_succ_iff] at hmem'
  exact hmem'.2 (.inr hv)

end

variable {front : Bitmap n}

/-- A vertex that a bottom-up step awakes. -/
def Awakes (g : Graph n) (parent : Fin n → Int) (front : Bitmap n) (u : Fin n) : Prop :=
  parent u < 0 ∧ ∃ v ∈ g.inNeigh u, front v = true

instance (u : Fin n) : Decidable (Awakes g parent front u) :=
  inferInstanceAs (Decidable (parent u < 0 ∧ ∃ v ∈ g.inNeigh u, front v = true))

/-- What a bottom-up step did when it went through some vertices. -/
structure BottomUpDone (g : Graph n) (parent : Fin n → Int) (front : Bitmap n) (us : List (Fin n))
    (s : BottomUp n) : Prop where
  kept : ∀ u, ¬ (u ∈ us ∧ Awakes g parent front u) → s.parent u = parent u
  new : ∀ u ∈ us, Awakes g parent front u →
    ∃ v ∈ g.inNeigh u, front v = true ∧ s.parent u = v.val
  next : ∀ u, s.next u = true ↔ u ∈ us ∧ Awakes g parent front u
  count : s.awakeCount = (us.filter fun u => Awakes g parent front u).length

theorem BottomUpDone.step {us : List (Fin n)} {s : BottomUp n}
    (h : BottomUpDone g parent front us s)
    (hu : u ∉ us) : BottomUpDone g parent front (us ++ [u]) (buVertex g front s u) := by
  have hparent : s.parent u = parent u := h.kept u fun hmem => hu hmem.1
  have hmem : ∀ x, x ∈ us ++ [u] ↔ x ∈ us ∨ x = u := by simp
  by_cases hawake : Awakes g parent front u
  · obtain ⟨p, hp⟩ := isSome_iff_exists.mp (find?_isSome.mpr hawake.2)
    rw [buVertex, if_pos (hparent ▸ hawake.1), hp]
    refine ⟨?_, ?_, ?_, ?_⟩
    · intro x hx
      have hxu : x ≠ u := by
        rintro rfl
        exact hx ⟨by simp, hawake⟩
      dsimp only
      rw [update_of_ne hxu]
      exact h.kept x fun hmem' => hx ⟨mem_append_left _ hmem'.1, hmem'.2⟩
    · intro x hx hx'
      dsimp only
      by_cases hxu : x = u
      · subst hxu
        exact ⟨p, mem_of_find?_eq_some hp, find?_some hp, by rw [update_self]⟩
      · rw [update_of_ne hxu]
        exact h.new x (((hmem x).mp hx).resolve_right hxu) hx'
    · intro x
      dsimp only [Bitmap.setBit]
      by_cases hxu : x = u
      · subst hxu
        simp [hawake]
      · rw [update_of_ne hxu, h.next, hmem]
        simp [hxu]
    · simp [h.count, hawake]
  · have hskip : buVertex g front s u = s := by
      rw [buVertex]
      split_ifs with hneg
      · have hnone : (g.inNeigh u).find? front = none := by
          rw [find?_eq_none]
          intro v hv hfront
          exact hawake ⟨hparent ▸ hneg, v, hv, hfront⟩
        rw [hnone]
      · rfl
    have hsame : ∀ x, x ∈ us ++ [u] ∧ Awakes g parent front x ↔ x ∈ us ∧ Awakes g parent front x := by
      intro x
      refine and_congr_left fun hx => ?_
      rw [hmem, or_iff_left]
      rintro rfl
      exact hawake hx
    rw [hskip]
    refine ⟨?_, ?_, ?_, ?_⟩
    · exact fun x hx => h.kept x (mt (hsame x).mpr hx)
    · exact fun x hx hx' => h.new x ((hsame x).mp ⟨hx, hx'⟩).1 hx'
    · exact fun x => (h.next x).trans (hsame x).symm
    · simp [h.count, hawake]

theorem bottomUpDone_buStep (g : Graph n) (parent : Fin n → Int) (front : Bitmap n) :
    BottomUpDone g parent front (finRange n) (buStep g parent front) := by
  have hrun : ∀ us : List (Fin n), us.Nodup →
      BottomUpDone g parent front us (us.foldl (buVertex g front) ⟨parent, 0, fun _ => false⟩) := by
    intro us
    induction us using reverseRecOn with
    | nil =>
      intro _
      exact ⟨fun _ _ => rfl, by simp, by simp, rfl⟩
    | append_singleton us u ih =>
      intro hnodup
      obtain ⟨hus, -, hdisjoint⟩ := nodup_append.mp hnodup
      rw [foldl_append]
      exact (ih hus).step fun hmem => hdisjoint u hmem u (by simp) rfl
  exact hrun _ (nodup_finRange n)

/-- **A bottom-up step** awakes the next level.  The bitmap may hold vertices of older
levels: none of them has a neighbour that is not visited. -/
theorem buStep_spec (hinverse : g.Inverse) (h : Parents g source d parent)
    (hlevel : ∀ v, g.Dist source v d → front v = true)
    (hfront : ∀ v, front v = true → g.Within source d v) :
    Parents g source (d + 1) (buStep g parent front).parent ∧
      (∀ v, (buStep g parent front).next v = true ↔ g.Dist source v (d + 1)) ∧
      (0 < (buStep g parent front).awakeCount ↔ ∃ v, g.Dist source v (d + 1)) := by
  have hdone := bottomUpDone_buStep g parent front
  have hawakes : ∀ u, Awakes g parent front u ↔ g.Dist source u (d + 1) := by
    intro u
    constructor
    · rintro ⟨hneg, v, hv, hbit⟩
      obtain ⟨k, hk, hdist⟩ := hfront v hbit
      exact (hdist.succ_of_not_within hk ((hinverse u v).mp hv) (h.neg_iff.mp hneg)).2
    · intro hdist
      obtain ⟨v, hedge, hv⟩ := hdist.exists_pred
      exact ⟨h.neg_iff.mpr hdist.not_within, v, (hinverse u v).mpr hedge, hlevel v hv⟩
  have hmem := mem_finRange (n := n)
  refine ⟨h.succ ?_ ?_, ?_, ?_⟩
  · intro v hv
    exact hdone.kept v fun hawake => hv ((hawakes v).mp hawake.2)
  · intro v hv
    obtain ⟨u, hu, hbit, hparent⟩ := hdone.new v (hmem v) ((hawakes v).mpr hv)
    obtain ⟨k, hk, hdist⟩ := hfront u hbit
    obtain ⟨rfl, -⟩ := hdist.succ_of_not_within hk ((hinverse v u).mp hu) hv.not_within
    exact ⟨u, hparent, (hinverse v u).mp hu, hdist⟩
  · intro v
    rw [hdone.next, hawakes]
    simp
  · rw [hdone.count, length_pos_iff_exists_mem]
    simp only [mem_filter, mem_finRange, true_and, decide_eq_true_eq, hawakes]

/-- What a top-down step did when it went through some edges. -/
structure TopDownDone
    (parent : Fin n → Int) (edges : List (Fin n × Fin n)) (s : TopDown n) : Prop where
  kept : ∀ v, v ∉ s.lqueue → s.parent v = parent v
  new : ∀ v ∈ s.lqueue, parent v < 0 ∧ ∃ u : Fin n, (u, v) ∈ edges ∧ s.parent v = u.val
  nodup : s.lqueue.Nodup
  visited : ∀ e ∈ edges, 0 ≤ s.parent e.2

theorem TopDownDone.step {edges : List (Fin n × Fin n)} {s : TopDown n}
    (h : TopDownDone parent edges s)
    (u v : Fin n) : TopDownDone parent (edges ++ [(u, v)]) (tdEdge u s v) := by
  rw [tdEdge]
  split_ifs with hneg
  · have hv : v ∉ s.lqueue := by
      intro hmem
      obtain ⟨-, x, -, hx⟩ := h.new v hmem
      omega
    refine ⟨?_, ?_, ?_, ?_⟩
    · intro x hx
      dsimp only at hx ⊢
      rw [mem_append, mem_singleton, not_or] at hx
      rw [update_of_ne hx.2]
      exact h.kept x hx.1
    · intro x hx
      dsimp only at hx ⊢
      obtain hx | hx := mem_append.mp hx
      · have hxv : x ≠ v := fun heq => hv (heq ▸ hx)
        obtain ⟨hold, y, hy, hparent⟩ := h.new x hx
        rw [update_of_ne hxv]
        exact ⟨hold, y, mem_append_left _ hy, hparent⟩
      · obtain rfl := mem_singleton.mp hx
        rw [update_self, ← h.kept x hv]
        exact ⟨hneg, u, by simp, rfl⟩
    · exact h.nodup.append (nodup_singleton v) (disjoint_singleton.mpr hv)
    · intro e he
      dsimp only
      by_cases hev : e.2 = v
      · rw [hev, update_self]
        omega
      · rw [update_of_ne hev]
        obtain he | he := mem_append.mp he
        · exact h.visited e he
        · obtain rfl := mem_singleton.mp he
          exact absurd rfl hev
  · refine ⟨h.kept, ?_, h.nodup, ?_⟩
    · intro x hx
      obtain ⟨hold, y, hy, hparent⟩ := h.new x hx
      exact ⟨hold, y, mem_append_left _ hy, hparent⟩
    · intro e he
      obtain he | he := mem_append.mp he
      · exact h.visited e he
      · obtain rfl := mem_singleton.mp he
        exact not_lt.mp hneg

/-- The edges of some vertices. -/
def edgesOf (g : Graph n) (window : List (Fin n)) : List (Fin n × Fin n) :=
  window.flatMap fun u => (g.outNeigh u).map fun v => (u, v)

variable {window : List (Fin n)}

theorem mem_edgesOf : (u, v) ∈ edgesOf g window ↔ u ∈ window ∧ v ∈ g.outNeigh u := by
  simp only [edgesOf, List.mem_flatMap, List.mem_map, Prod.mk.injEq]
  constructor
  · rintro ⟨x, hx, y, hy, rfl, rfl⟩
    exact ⟨hx, hy⟩
  · rintro ⟨hu, hv⟩
    exact ⟨u, hu, v, hv, rfl, rfl⟩

theorem topDownDone_tdLoop (g : Graph n) (parent : Fin n → Int) (window : List (Fin n)) :
    TopDownDone parent (edgesOf g window) (tdLoop g parent window) := by
  have hinner : ∀ (u : Fin n) (vs : List (Fin n)) (edges : List (Fin n × Fin n)) (s : TopDown n),
      TopDownDone parent edges s →
      TopDownDone parent (edges ++ vs.map fun v => (u, v)) (vs.foldl (tdEdge u) s) := by
    intro u vs
    induction vs with
    | nil =>
      intro edges s h
      simpa using h
    | cons v vs ih =>
      intro edges s h
      have hnext := ih _ _ (h.step u v)
      rwa [append_assoc, singleton_append] at hnext
  have houter : ∀ (us : List (Fin n)) (edges : List (Fin n × Fin n)) (s : TopDown n),
      TopDownDone parent edges s →
      TopDownDone parent (edges ++ edgesOf g us) (us.foldl (tdVertex g) s) := by
    intro us
    induction us with
    | nil =>
      intro edges s h
      simpa [edgesOf] using h
    | cons u us ih =>
      intro edges s h
      have hnext := ih _ _ (hinner u (g.outNeigh u) edges s h)
      rwa [append_assoc] at hnext
  exact houter window [] _ ⟨fun _ _ => rfl, by simp, nodup_nil, by simp⟩

/-- **A top-down step** visits the next level, and it collects it in the queue. -/
theorem tdLoop_spec (h : Parents g source d parent)
    (hwindow : ∀ v, v ∈ window ↔ g.Dist source v d) :
    Parents g source (d + 1) (tdLoop g parent window).parent ∧
      (tdLoop g parent window).lqueue.Nodup ∧
      ∀ v, v ∈ (tdLoop g parent window).lqueue ↔ g.Dist source v (d + 1) := by
  have hdone := topDownDone_tdLoop g parent window
  have hqueue : ∀ v, v ∈ (tdLoop g parent window).lqueue ↔ g.Dist source v (d + 1) := by
    intro v
    constructor
    · intro hv
      obtain ⟨hneg, u, hedge, -⟩ := hdone.new v hv
      obtain ⟨hu, hedge⟩ := mem_edgesOf.mp hedge
      exact (((hwindow u).mp hu).succ_of_not_within le_rfl hedge (h.neg_iff.mp hneg)).2
    · intro hdist
      obtain ⟨u, hedge, hu⟩ := hdist.exists_pred
      by_contra hv
      have hvisited := hdone.visited (u, v) (mem_edgesOf.mpr ⟨(hwindow u).mpr hu, hedge⟩)
      rw [hdone.kept v hv, h.visited] at hvisited
      exact hdist.not_within hvisited
  refine ⟨h.succ ?_ ?_, hdone.nodup, hqueue⟩
  · intro v hv
    exact hdone.kept v fun hmem => hv ((hqueue v).mp hmem)
  · intro v hv
    obtain ⟨-, u, hedge, hparent⟩ := hdone.new v ((hqueue v).mpr hv)
    obtain ⟨hu, hedge⟩ := mem_edgesOf.mp hedge
    exact ⟨u, hparent, hedge, (hwindow u).mp hu⟩

variable {beta : Int} {fuel : Nat}

/-- **The bottom-up loop** ends, at a later level.  As the frontier had a vertex before,
it ends at the latest with the first empty frontier. -/
theorem buLoop_spec (hinverse : g.Inverse) (hbeta : 1 ≤ beta)
    {awakeCount : Nat} (h : Parents g source d parent)
    (hlevel : ∀ v, g.Dist source v d → front v = true)
    (hfront : ∀ v, front v = true → g.Within source d v) (hawake : 0 < awakeCount)
    (hfuel : unvisited parent < fuel) :
    ∃ d' parent' front', buLoop g beta fuel parent front awakeCount = some (parent', front') ∧
      d < d' ∧ Parents g source d' parent' ∧ (∀ v, front' v = true ↔ g.Dist source v d') ∧
      unvisited parent' ≤ unvisited parent ∧
      ((∃ v, g.Dist source v d') → unvisited parent' < unvisited parent) := by
  induction fuel generalizing d parent front awakeCount with
  | zero => cases hfuel
  | succ fuel ih =>
    obtain ⟨hparents, hnext, hcount⟩ := buStep_spec hinverse h hlevel hfront
    have hless : (∃ v, g.Dist source v (d + 1)) →
        unvisited (buStep g parent front).parent < unvisited parent := by
      rintro ⟨v, hv⟩
      exact h.unvisited_lt hparents hv
    rw [buLoop]
    split_ifs with hcond
    · have hpos : 0 < (buStep g parent front).awakeCount := by
        have hdiv : 0 ≤ (n : Int).tdiv beta := Int.tdiv_nonneg (by omega) (by omega)
        omega
      have hstep := hless (hcount.mp hpos)
      obtain ⟨d', parent', front', hrun, hd', hparents', hfront', hle, -⟩ := ih hparents
        (fun v hv => (hnext v).mpr hv)
        (fun v hv => ⟨d + 1, le_rfl, (hnext v).mp hv⟩) hpos (by omega)
      exact ⟨d', parent', front', hrun, by omega, hparents', hfront', by omega,
        fun _ => by omega⟩
    · refine ⟨d + 1, _, _, rfl, by omega, hparents, hnext, ?_, hless⟩
      exact Finset.card_le_card (h.subset_unvisited hparents)

/-- What holds at the top of the main loop. -/
structure Searched (g : Graph n) (source : Fin n) (d : Nat) (s : Search n) : Prop where
  parents : Parents g source d s.parent
  capacity : s.queue.capacity = n
  nodup : s.queue.shared.Nodup
  shared : ∀ v ∈ s.queue.shared, g.Within source d v
  outEnd : s.queue.outEnd = s.queue.shared.length
  outStart : s.queue.outStart ≤ s.queue.outEnd
  window : ∀ v, v ∈ s.queue.window ↔ g.Dist source v d
  front : ∀ v, s.front v = true → g.Within source d v

open SlidingQueue

/-- A later level fits into the queue, and it becomes the window. -/
theorem pushAll_slideWindow {q : SlidingQueue n} {d' : Nat} (hcapacity : q.capacity = n)
    (hnodup : q.shared.Nodup) (hshared : ∀ v ∈ q.shared, g.Within source d v)
    (hend : q.outEnd = q.shared.length) (hd : d < d') {vs : List (Fin n)} (hvs : vs.Nodup)
    (hlevel : ∀ v, v ∈ vs ↔ g.Dist source v d') :
    ∃ q', q.pushAll vs = some q' ∧ q'.slideWindow.capacity = n ∧ q'.slideWindow.shared.Nodup ∧
      (∀ v ∈ q'.slideWindow.shared, g.Within source d' v) ∧
      q'.slideWindow.outEnd = q'.slideWindow.shared.length ∧
      q'.slideWindow.outStart ≤ q'.slideWindow.outEnd ∧
      ∀ v, v ∈ q'.slideWindow.window ↔ g.Dist source v d' := by
  have hall : (q.shared ++ vs).Nodup := by
    rw [nodup_append]
    refine ⟨hnodup, hvs, ?_⟩
    rintro v hv x hx rfl
    obtain ⟨k, hk, hdist⟩ := hshared v hv
    have := IsDist.unique hdist ((hlevel v).mp hx)
    omega
  have hroom : q.shared.length + vs.length ≤ q.capacity := by
    have hle := hall.length_le_card
    rw [Fintype.card_fin, length_append] at hle
    omega
  refine ⟨{ q with shared := q.shared ++ vs }, if_pos hroom, hcapacity, hall, ?_, rfl, ?_, ?_⟩
  · intro v hv
    obtain hv | hv := mem_append.mp hv
    · obtain ⟨k, hk, hdist⟩ := hshared v hv
      exact ⟨k, by omega, hdist⟩
    · exact ⟨d', le_rfl, (hlevel v).mp hv⟩
  · simp only [slideWindow, length_append]
    omega
  · intro v
    simp only [slideWindow, window, size, hend,
      drop_left, length_append, Nat.add_sub_cancel_left, take_length]
    exact hlevel v

theorem queueToBitmap_eq (q : SlidingQueue n) (bm : Bitmap n)
    (v : Fin n) : queueToBitmap q bm v = true ↔ v ∈ q.window ∨ bm v = true := by
  rw [queueToBitmap]
  generalize q.window = us
  induction us generalizing bm with
  | nil => simp
  | cons u us ih =>
    rw [foldl_cons, ih, mem_cons, Bitmap.setBit]
    by_cases hvu : v = u
    · simp [hvu]
    · rw [update_of_ne hvu]
      simp [hvu]

variable {s : Search n}

theorem Searched.empty_iff (h : Searched g source d s) :
    s.queue.empty = true ↔ ¬ ∃ v, g.Dist source v d := by
  have hlength : s.queue.window.length = s.queue.size := by
    have hend := h.outEnd
    rw [SlidingQueue.window, length_take, length_drop, size]
    omega
  have hlevel : (∃ v, g.Dist source v d) ↔ 0 < s.queue.size := by
    simp only [← h.window, ← hlength, length_pos_iff_exists_mem]
  have hstart := h.outStart
  rw [hlevel, empty, decide_eq_true_eq, size]
  omega

theorem Searched.bottomUp (hinverse : g.Inverse) (hbeta : 1 ≤ beta) (h : Searched g source d s)
    (hempty : ¬ s.queue.empty = true) (hfuel : unvisited s.parent < fuel) :
    ∃ d' s', bottomUp g beta fuel s = some s' ∧ Searched g source d' s' ∧
      ((∃ v, g.Dist source v d') → unvisited s'.parent < unvisited s.parent) := by
  have hfront : ∀ v, queueToBitmap s.queue s.front v = true → g.Within source d v := by
    intro v hv
    obtain hv | hv := (queueToBitmap_eq s.queue s.front v).mp hv
    · exact ⟨d, le_rfl, (h.window v).mp hv⟩
    · exact h.front v hv
  have hsize : 0 < s.queue.size := by
    have hle := h.outStart
    rw [empty, decide_eq_true_eq] at hempty
    rw [size]
    omega
  obtain ⟨d', parent', front', hrun, hd, hparents, hlevel, -, hless⟩ := buLoop_spec hinverse hbeta
    h.parents (fun v hv => (queueToBitmap_eq s.queue s.front v).mpr (.inl ((h.window v).mpr hv)))
    hfront hsize hfuel
  have hbits : ∀ v, v ∈ (finRange n).filter front' ↔ g.Dist source v d' := by
    intro v
    rw [mem_filter, hlevel]
    simp
  obtain ⟨q, hpush, hcapacity, hnodup, hshared, hend, hstart, hwindow⟩ :=
    pushAll_slideWindow (q := s.queue.slideWindow) h.capacity h.nodup h.shared rfl hd
      ((nodup_finRange n).filter _) hbits
  refine ⟨d', { s with
    parent := parent', queue := q.slideWindow, front := front', scoutCount := 1 }, ?_,
    ⟨hparents, hcapacity, hnodup, hshared, hend, hstart, hwindow, ?_⟩, hless⟩
  · simp only [Gapbs.bottomUp, hrun, bitmapToQueue, hpush, bind_eq_bind, bind_some, map_some]
  · intro v hv
    exact ⟨d', le_rfl, (hlevel v).mp hv⟩

theorem Searched.topDown (h : Searched g source d s) :
    ∃ s', topDown g s = some s' ∧ Searched g source (d + 1) s' ∧
      ((∃ v, g.Dist source v (d + 1)) → unvisited s'.parent < unvisited s.parent) := by
  obtain ⟨hparents, hnodup, hqueue⟩ := tdLoop_spec h.parents h.window
  obtain ⟨q, hpush, hcapacity, hnodup', hshared, hend, hstart, hwindow⟩ :=
    pushAll_slideWindow h.capacity h.nodup h.shared h.outEnd (Nat.lt_succ_self d) hnodup hqueue
  refine ⟨{ s with
    parent := (tdLoop g s.parent s.queue.window).parent, queue := q.slideWindow,
    edgesToCheck := s.edgesToCheck - s.scoutCount,
    scoutCount := (tdLoop g s.parent s.queue.window).scoutCount }, ?_,
    ⟨hparents, hcapacity, hnodup', hshared, hend, hstart, hwindow, ?_⟩, ?_⟩
  · simp only [Gapbs.topDown, hpush, bind_eq_bind, bind_some]
  · intro v hv
    obtain ⟨k, hk, hdist⟩ := h.front v hv
    exact ⟨k, by omega, hdist⟩
  · rintro ⟨v, hv⟩
    exact h.parents.unvisited_lt hparents hv

/-- **The main loop** ends with an empty level. -/
theorem dobfsLoop_spec (hinverse : g.Inverse) (alpha : Int) (hbeta : 1 ≤ beta)
    (h : Searched g source d s) (hfuel : (∃ v, g.Dist source v d) → unvisited s.parent < fuel) :
    ∃ d' s', dobfsLoop g alpha beta fuel s = some s' ∧ Parents g source d' s'.parent ∧
      ¬ ∃ v, g.Dist source v d' := by
  induction fuel generalizing d s with
  | zero =>
    have hnone : ¬ ∃ v, g.Dist source v d :=
      fun hlevel => absurd (hfuel hlevel) (Nat.not_lt_zero _)
    refine ⟨d, s, ?_, h.parents, hnone⟩
    rw [dobfsLoop, if_pos (h.empty_iff.mpr hnone)]
  | succ fuel ih =>
    by_cases hempty : s.queue.empty = true
    · refine ⟨d, s, ?_, h.parents, h.empty_iff.mp hempty⟩
      rw [dobfsLoop, if_pos hempty]
    · have hlevel : ∃ v, g.Dist source v d := by
        by_contra hnone
        exact hempty (h.empty_iff.mpr hnone)
      have hless := hfuel hlevel
      rw [dobfsLoop, if_neg hempty]
      by_cases hdirection : s.scoutCount > s.edgesToCheck.tdiv alpha
      · obtain ⟨d', s', hstep, hsearched, hdecrease⟩ :=
          h.bottomUp hinverse hbeta hempty hless
        rw [if_pos hdirection, hstep]
        exact ih hsearched fun hlevel' => by
          have := hdecrease hlevel'
          omega
      · obtain ⟨s', hstep, hsearched, hdecrease⟩ := h.topDown
        rw [if_neg hdirection, hstep]
        exact ih hsearched fun hlevel' => by
          have := hdecrease hlevel'
          omega

theorem initParent_neg (g : Graph n) (v : Fin n) : initParent g v < 0 := by
  rw [initParent]
  split_ifs with h <;> omega

theorem dist_zero_iff : g.Dist source v 0 ↔ v = source := by
  constructor
  · intro h
    obtain ⟨rfl, -⟩ | ⟨u, w, d', ⟨-, rfl⟩, -, heq⟩ := IsDist.exists_pred h
    · rfl
    · omega
  · rintro rfl
    exact isDist_source

theorem parents_start (g : Graph n) (source : Fin n) :
    Parents g source 0 (update (initParent g) source source.val) := by
  refine ⟨update_self .., ?_, ?_⟩
  · intro v
    simp only [Graph.Within, Nat.le_zero, exists_eq_left, dist_zero_iff]
    by_cases hv : v = source
    · subst hv
      simp
    · have := initParent_neg g v
      rw [update_of_ne hv]
      omega
  · intro v hv hvisited
    have := initParent_neg g v
    rw [update_of_ne hv] at hvisited
    omega

/-- **`DOBFS`** ends, whatever the heuristic chooses, and it returns a tree of shortest
paths: the source is its own parent, exactly the vertices that cannot be reached have
no parent, and every other vertex is one step farther than its parent. -/
theorem dobfs_spec
    (hinverse : g.Inverse)
    (source : Fin n)
    {alpha beta : Int}
    (_halpha : 1 ≤ alpha)
    (hbeta : 1 ≤ beta)
    {fuel : Nat}
    (hfuel : n ≤ fuel) :
    ∃ parent, dobfs g source alpha beta fuel = some parent ∧ parent source = source ∧
      (∀ v, parent v = -1 ↔ ¬ ∃ k, Walk g.UnitEdge source v k) ∧
      ∀ v, v ≠ source → parent v ≠ -1 → ∃ u k, parent v = (u : Fin n).val ∧
        v ∈ g.outNeigh u ∧ g.Dist source u k ∧ g.Dist source v (k + 1) := by
  have hstart : Searched g source 0 {
      parent := update (initParent g) source source.val
      queue := ⟨n, [source], 0, 1⟩
      front := fun _ => false
      edgesToCheck := g.numEdgesDirected
      scoutCount := g.outDegree source } := by
    refine ⟨parents_start g source, rfl, nodup_singleton source, ?_, rfl, by simp, ?_, ?_⟩
    · intro v hv
      obtain rfl := mem_singleton.mp hv
      exact ⟨0, le_rfl, isDist_source⟩
    · intro v
      rw [dist_zero_iff]
      simp [window, size]
    · nofun
  have hless : unvisited (update (initParent g) source source.val) < n := by
    have hlt := Finset.card_lt_univ_of_notMem (s := Finset.univ.filter fun v =>
      update (initParent g) source (source.val : Int) v < 0) (x := source) (by simp)
    rwa [Fintype.card_fin] at hlt
  obtain ⟨d, s, hloop, hparents, hlast⟩ :=
    dobfsLoop_spec hinverse alpha hbeta hstart (fun _ => hless.trans_le hfuel)
  refine ⟨fun v => if s.parent v < -1 then -1 else s.parent v, ?_, ?_, ?_, ?_⟩
  · have hpush : (SlidingQueue.new n).pushAll [source] = some ⟨n, [source], 0, 0⟩ := by
      rw [pushAll, if_pos (by simpa [new] using Nat.succ_le_of_lt source.pos)]
      rfl
    rw [dobfs, hpush]
    simp only [bind_eq_bind, bind_some, slideWindow, length_singleton, hloop]
  · dsimp only
    rw [hparents.root, if_neg (by omega)]
  · intro v
    have hreach : (∃ k, Walk g.UnitEdge source v k) ↔ g.Within source d v := by
      constructor
      · rintro ⟨k, hwalk⟩
        obtain ⟨d', -, hdist⟩ := exists_isDist hwalk
        refine ⟨d', ?_, hdist⟩
        by_contra hlt
        exact hlast (Graph.Dist.exists_of_le hdist (by omega))
      · rintro ⟨k, -, hdist⟩
        exact ⟨k, hdist.walk⟩
    rw [hreach, ← hparents.neg_iff]
    dsimp only
    split_ifs <;> omega
  · intro v hv hvisited
    dsimp only at hvisited ⊢
    split_ifs at hvisited ⊢ with hlow
    · exact absurd rfl hvisited
    · exact hparents.tree v hv (by omega)

/-- Two paths from the first vertex to the last one. -/
def diamond : Graph 4 where
  directed := true
  outNeigh := ![[1, 2], [3], [3], []]
  inNeigh := ![[], [0], [0], [1, 2]]
  inNeigh_eq h := by cases h

theorem diamond_inverse : diamond.Inverse := by
  unfold Graph.Inverse
  decide

theorem dobfs_spec_diamond : diamond.Inverse ∧ ∃ parent, dobfs diamond 0 15 18 4 = some parent ∧
        parent 0 = (0 : Fin 4) ∧
        (∀ v, parent v = -1 ↔ ¬ ∃ k, Walk diamond.UnitEdge 0 v k) ∧
        ∀ v, v ≠ 0 → parent v ≠ -1 → ∃ u k, parent v = (u : Fin 4).val ∧
          v ∈ diamond.outNeigh u ∧ diamond.Dist 0 u k ∧ diamond.Dist 0 v (k + 1) :=
  ⟨diamond_inverse, dobfs_spec diamond_inverse 0 (by decide) (by decide) le_rfl⟩

example : (dobfs diamond 0 15 18 4).map List.ofFn = some [0, 0, 0, 1] := by decide

end HotTLBApps.Gapbs
