import HotTLBApps.Lib.Forest
import HotTLBApps.Gapbs.Graph

/-!
# GAPBS: concurrent `Link` (`src/cc.cc`)

Threads run calls of `Link` on one array `comp`.  Every read of an entry and every
`compare_and_swap` is one step, and steps of different threads are interleaved in
any order.

A task of a thread carries the place in the code that it has reached, with the
local variables that are used from there on.  Besides calls of `Link` there is the
loop body of the last phase of `Afforest`, which reads the label of a vertex and
skips its calls if the label is a given one.
-/

namespace HotTLBApps.Gapbs

open Forest List Function Option

variable {n : Nat}

section Model

/-- A place in `Link`; the names are those of the step that comes next. -/
inductive LinkPc (n : Nat)
  /-- `p1 = comp[u]`. -/
  | readFirst
  /-- `p2 = comp[v]`. -/
  | readSecond (p1 : Fin n)
  /-- `p_high = comp[high]`. -/
  | readHigh (high low : Fin n)
  /-- `compare_and_swap(comp[high], high, low)`. -/
  | swap (high low : Fin n)
  /-- The inner read of `comp[comp[high]]`. -/
  | readParent (high low : Fin n)
  /-- The outer read of `comp[comp[high]]`. -/
  | readGrandparent (parent low : Fin n)
  /-- `p2 = comp[low]`. -/
  | readLow (p1 low : Fin n)
deriving DecidableEq, Repr

/-- The condition of the loop; `none` is the end of the call.  The smaller of the two
values is computed as `p1 + (p2 - high)` in the code. -/
def loopTest (p1 p2 : Fin n) : Option (LinkPc n) :=
  if p1 = p2 then none else some (.readHigh (max p1 p2) (min p1 p2))

/-- One step of `Link(u, v, comp)`. -/
def linkStep (u v : Fin n) (comp : Fin n → Fin n) : LinkPc n → Option (LinkPc n) × (Fin n → Fin n)
  | .readFirst => (some (.readSecond (comp u)), comp)
  | .readSecond p1 => (loopTest p1 (comp v), comp)
  | .readHigh high low =>
      if comp high = low then
        (none, comp)
      else if comp high = high then
        (some (.swap high low), comp)
      else
        (some (.readParent high low), comp)
  | .swap high low =>
      if comp high = high then
        (none, Function.update comp high low)
      else
        (some (.readParent high low), comp)
  | .readParent high low => (some (.readGrandparent (comp high) low), comp)
  | .readGrandparent parent low => (some (.readLow (comp parent) low), comp)
  | .readLow p1 low => (loopTest p1 (comp low), comp)

inductive Task (n : Nat)
  /-- The rest of `Link(u, v, comp)`. -/
  | link (u v : Fin n) (pc : LinkPc n)
  /-- Unless `comp[u] == c`, the calls. -/
  | unless (u c : Fin n) (calls : List (Fin n × Fin n))
deriving DecidableEq, Repr

/-- A call that was not started. -/
def Task.call (p : Fin n × Fin n) : Task n :=
  .link p.1 p.2 .readFirst

/-- One step of a task, with the tasks that take its place. -/
def Task.step (comp : Fin n → Fin n) : Task n → List (Task n) × (Fin n → Fin n)
  | .link u v pc =>
      ((linkStep u v comp pc).1.toList.map (.link u v), (linkStep u v comp pc).2)
  | .unless u c calls => (if comp u = c then [] else calls.map Task.call, comp)

/-- The array and what every thread still has to do. -/
structure LinkState (ι : Type) (n : Nat) where
  comp : Fin n → Fin n
  threads : ι → List (Task n)

variable {ι : Type} [DecidableEq ι]

/-- One step of a thread; a thread that has returned does nothing. -/
def LinkState.step (s : LinkState ι n) (i : ι) : LinkState ι n :=
  match s.threads i with
  | [] => s
  | t :: rest =>
      { comp := (t.step s.comp).2
        threads := Function.update s.threads i ((t.step s.comp).1 ++ rest) }

/-- An interleaving: the threads in the order in which they step. -/
def LinkState.run (s : LinkState ι n) (schedule : List ι) : LinkState ι n :=
  schedule.foldl LinkState.step s

/-- Threads that start to run calls. -/
def linkStart (comp : Fin n → Fin n) (calls : ι → List (Fin n × Fin n)) : LinkState ι n :=
  { comp := comp
    threads := fun i => (calls i).map Task.call }

def LinkState.Returned (s : LinkState ι n) : Prop :=
  ∀ i, s.threads i = []

end Model

section

/-- What a step may do to the array: entries decrease, and trees are only joined. -/
structure Grows (comp comp' : Fin n → Fin n) : Prop where
  decreasing : ∀ x, comp' x ≤ comp x
  descending : Descending comp → Descending comp'
  joined : Descending comp → ∀ x y, root comp x = root comp y → root comp' x = root comp' y

theorem Grows.refl (comp : Fin n → Fin n) : Grows comp comp where
  decreasing := fun _ => le_refl _
  descending := id
  joined := fun _ _ _ h => h

theorem Grows.trans {comp comp' comp'' : Fin n → Fin n} (h : Grows comp comp')
    (h' : Grows comp' comp'') : Grows comp comp'' where
  decreasing := fun x => (h'.decreasing x).trans (h.decreasing x)
  descending := fun hdesc => h'.descending (h.descending hdesc)
  joined := fun hdesc x y hxy => h'.joined (h.descending hdesc) x y (h.joined hdesc x y hxy)

variable {comp : Fin n → Fin n}

/-- Hooking a root to a smaller vertex joins trees. -/
theorem grows_hook {high low : Fin n} (hroot : comp high = high) (hlow : low < high) :
    Grows comp (update comp high low) where
  decreasing := update_le_self_iff.mpr (hroot.symm ▸ hlow.le)
  descending := fun hdesc => descending_update hdesc hlow.le
  joined := by
    intro _ x y hxy
    rw [root_hook hroot hlow, root_hook hroot hlow, hxy]

/-- `a` and `b` lie in the trees of `u` and `v`, in one order or the other. -/
def Stand (comp : Fin n → Fin n) (u v a b : Fin n) : Prop :=
  root comp a = root comp u ∧ root comp b = root comp v ∨
    root comp a = root comp v ∧ root comp b = root comp u

variable {comp comp' : Fin n → Fin n}

theorem Stand.grows {u v a b : Fin n} (h : Stand comp u v a b)
    (hdesc : Descending comp) (hgrows : Grows comp comp') : Stand comp' u v a b := by
  obtain ⟨ha, hb⟩ | ⟨ha, hb⟩ := h
  · exact .inl ⟨hgrows.joined hdesc _ _ ha, hgrows.joined hdesc _ _ hb⟩
  · exact .inr ⟨hgrows.joined hdesc _ _ ha, hgrows.joined hdesc _ _ hb⟩

theorem Stand.joined {u v a b : Fin n} (h : Stand comp u v a b)
    (hab : root comp a = root comp b) : root comp u = root comp v := by
  obtain ⟨ha, hb⟩ | ⟨ha, hb⟩ := h
  · rw [← ha, hab, hb]
  · rw [← ha, ← hb, hab]

theorem Stand.congr {u v a b a' b' : Fin n} (h : Stand comp u v a b)
    (ha : root comp a' = root comp a) (hb : root comp b' = root comp b) : Stand comp u v a' b' := by
  rw [Stand, ha, hb]
  exact h

def LinkPc.Inv (comp : Fin n → Fin n) (u v : Fin n) : LinkPc n → Prop
  | .readFirst => True
  | .readSecond p1 => root comp p1 = root comp u
  | .readHigh high low => low < high ∧ Stand comp u v high low
  | .swap high low => low < high ∧ Stand comp u v high low
  | .readParent high low => low < high ∧ comp high < high ∧ Stand comp u v high low
  | .readGrandparent parent low => Stand comp u v parent low
  | .readLow p1 low => Stand comp u v p1 low

variable {pc : LinkPc n}

theorem LinkPc.Inv.grows {u v : Fin n} (h : pc.Inv comp u v)
    (hdesc : Descending comp) (hgrows : Grows comp comp') : pc.Inv comp' u v := by
  cases pc with
  | readFirst => exact trivial
  | readSecond p1 => exact hgrows.joined hdesc _ _ h
  | readHigh high low | swap high low => exact ⟨h.1, h.2.grows hdesc hgrows⟩
  | readParent high low =>
    exact ⟨h.1, (hgrows.decreasing high).trans_lt h.2.1, h.2.2.grows hdesc hgrows⟩
  | readGrandparent parent low | readLow p1 low => exact Stand.grows h hdesc hgrows

/-- The condition of the loop keeps what is known, and at its end the vertices are in
one tree. -/
theorem loopTest_inv {u v p1 p2 : Fin n} (h : Stand comp u v p1 p2) :
    (∀ pc ∈ loopTest p1 p2, pc.Inv comp u v) ∧
      (loopTest p1 p2 = none → root comp u = root comp v) := by
  unfold loopTest
  split_ifs with heq
  · subst heq
    exact ⟨by simp, fun _ => h.joined rfl⟩
  · refine ⟨?_, by simp⟩
    rintro _ ⟨rfl⟩
    obtain hlt | hlt := lt_or_gt_of_ne heq
    · rw [max_eq_right hlt.le, min_eq_left hlt.le]
      exact ⟨hlt, (Or.symm h).imp And.symm And.symm⟩
    · rw [max_eq_left hlt.le, min_eq_right hlt.le]
      exact ⟨hlt, h⟩

/-- **What one step of `Link` does.**  It leaves the array as it is or hooks a root;
what the call knows stays true, and when it returns its vertices are in one tree. -/
theorem linkStep_inv (hdesc : Descending comp) {u v : Fin n} (h : pc.Inv comp u v) :
    ((linkStep u v comp pc).2 = comp ∨
        ∃ high low, comp high = high ∧ low < high ∧ Stand comp u v high low ∧
          (linkStep u v comp pc).2 = update comp high low) ∧
      (∀ pc' ∈ (linkStep u v comp pc).1, pc'.Inv (linkStep u v comp pc).2 u v) ∧
      ((linkStep u v comp pc).1 = none →
        root (linkStep u v comp pc).2 u = root (linkStep u v comp pc).2 v) := by
  cases pc with
  | readFirst =>
    refine ⟨.inl rfl, ?_, by simp [linkStep]⟩
    rintro _ ⟨rfl⟩
    exact root_parent hdesc u
  | readSecond p1 => exact ⟨.inl rfl, loopTest_inv (.inl ⟨h, root_parent hdesc v⟩)⟩
  | readHigh high low =>
    have hparent := root_parent hdesc high
    rw [linkStep]
    split_ifs with hlow hhigh
    · refine ⟨.inl rfl, by simp, ?_⟩
      intro _
      apply h.2.joined
      rw [← hparent, hlow]
    · refine ⟨.inl rfl, ?_, by simp⟩
      rintro _ ⟨rfl⟩
      exact h
    · refine ⟨.inl rfl, ?_, by simp⟩
      rintro _ ⟨rfl⟩
      exact ⟨h.1, lt_of_le_of_ne (hdesc high) hhigh, h.2⟩
  | swap high low =>
    rw [linkStep]
    split_ifs with hhigh
    · refine ⟨.inr ⟨high, low, hhigh, h.1, h.2, rfl⟩, by simp, ?_⟩
      intro _
      exact (h.2.grows hdesc (grows_hook hhigh h.1)).joined (root_hook_join hhigh h.1)
    · refine ⟨.inl rfl, ?_, by simp⟩
      rintro _ ⟨rfl⟩
      exact ⟨h.1, lt_of_le_of_ne (hdesc high) hhigh, h.2⟩
  | readParent high low =>
    refine ⟨.inl rfl, ?_, by simp [linkStep]⟩
    rintro _ ⟨rfl⟩
    exact h.2.2.congr (root_parent hdesc high) rfl
  | readGrandparent parent low =>
    refine ⟨.inl rfl, ?_, by simp [linkStep]⟩
    rintro _ ⟨rfl⟩
    exact Stand.congr h (root_parent hdesc parent) rfl
  | readLow p1 low => exact ⟨.inl rfl, loopTest_inv (Stand.congr h rfl (root_parent hdesc low))⟩

def Task.Inv (comp : Fin n → Fin n) : Task n → Prop
  | .link u v pc => pc.Inv comp u v
  | .unless _ _ _ => True

/-- The pairs of vertices that a task may link. -/
def Task.pairs : Task n → List (Fin n × Fin n)
  | .link u v _ => [(u, v)]
  | .unless _ _ calls => calls

/-- A task has done its work: its vertices are in one tree, or it was skipped because
its vertex was in the tree of the given label. -/
def Task.Done (comp : Fin n → Fin n) : Task n → Prop
  | .link u v _ => root comp u = root comp v
  | .unless u c calls =>
      root comp u = root comp c ∨ ∀ p ∈ calls, root comp p.1 = root comp p.2

variable {t : Task n}

theorem Task.Inv.grows (h : t.Inv comp) (hdesc : Descending comp)
    (hgrows : Grows comp comp') : t.Inv comp' := by
  cases t with
  | link u v pc => exact LinkPc.Inv.grows h hdesc hgrows
  | «unless» u c calls => exact trivial

/-- **What one step of a task does.** -/
theorem task_step_inv (hdesc : Descending comp) (h : t.Inv comp) : ((t.step comp).2 = comp ∨
        ∃ high low, comp high = high ∧ low < high ∧ (∃ p ∈ t.pairs, Stand comp p.1 p.2 high low) ∧
          (t.step comp).2 = update comp high low) ∧
      (∀ t' ∈ (t.step comp).1, t'.Inv (t.step comp).2 ∧ ∀ p ∈ t'.pairs, p ∈ t.pairs) ∧
      ∀ later, Grows (t.step comp).2 later → (∀ t' ∈ (t.step comp).1, t'.Done later) →
        t.Done later := by
  cases t with
  | link u v pc =>
    obtain ⟨hcomp, hinv, hdone⟩ := linkStep_inv hdesc h
    refine ⟨?_, ?_, ?_⟩
    · obtain hcomp | ⟨high, low, hroot, hlt, hstand, hcomp⟩ := hcomp
      · exact .inl hcomp
      · exact .inr ⟨high, low, hroot, hlt, ⟨(u, v), by simp [Task.pairs], hstand⟩, hcomp⟩
    · intro t' ht'
      obtain ⟨pc', hpc', rfl⟩ := mem_map.mp ht'
      exact ⟨hinv pc' (mem_toList.mp hpc'), fun p hp => hp⟩
    · intro later hgrows hall
      cases hpc : (linkStep u v comp pc).1 with
      | none =>
        refine hgrows.joined ?_ u v (hdone hpc)
        obtain hcomp | ⟨high, low, -, hlt, -, hcomp⟩ := hcomp
        · rw [Task.step, hcomp]
          exact hdesc
        · rw [Task.step, hcomp]
          exact descending_update hdesc hlt.le
      | some pc' =>
        apply hall (.link u v pc')
        simp [Task.step, hpc]
  | «unless» u c calls =>
    refine ⟨.inl rfl, ?_, ?_⟩
    · intro t' ht'
      rw [Task.step] at ht'
      split_ifs at ht'
      · cases ht'
      · obtain ⟨p, hp, rfl⟩ := mem_map.mp ht'
        refine ⟨trivial, ?_⟩
        intro q hq
        obtain rfl := mem_singleton.mp hq
        exact hp
    · intro later hgrows hall
      by_cases hskip : comp u = c
      · left
        apply hgrows.joined hdesc
        rw [← hskip]
        exact (root_parent hdesc u).symm
      · right
        intro p hp
        apply hall (Task.call p)
        rw [Task.step, if_neg hskip]
        exact mem_map_of_mem hp

variable {ι : Type} [DecidableEq ι]

structure LinkState.Inv (s : LinkState ι n) : Prop where
  descending : Descending s.comp
  tasks : ∀ i, ∀ t ∈ s.threads i, t.Inv s.comp

variable {s : LinkState ι n} {i : ι}

/-- A step leaves the array as it is or hooks a root. -/
theorem step_grows (h : s.Inv) (i : ι) : Grows s.comp (s.step i).comp := by
  fun_cases LinkState.step s i with
  | case1 => exact Grows.refl _
  | case2 t rest hi =>
    have ht : t.Inv s.comp := h.tasks i t (by simp [hi])
    obtain hcomp | ⟨high, low, hroot, hlt, -, hcomp⟩ := (task_step_inv h.descending ht).1
    · rw [hcomp]
      exact Grows.refl _
    · rw [hcomp]
      exact grows_hook hroot hlt

theorem LinkState.Inv.step (h : s.Inv) (i : ι) : (s.step i).Inv where
  descending := (step_grows h i).descending h.descending
  tasks := by
    have hgrows := step_grows h i
    revert hgrows
    fun_cases LinkState.step s i with
    | case1 => exact fun _ => h.tasks
    | case2 t rest hi =>
      intro hgrows j t' ht'
      dsimp only at ht'
      rw [update_apply] at ht'
      split_ifs at ht' with hj
      · subst hj
        obtain ht' | ht' := mem_append.mp ht'
        · exact ((task_step_inv h.descending (h.tasks j t (by simp [hi]))).2.1 t' ht').1
        · exact (h.tasks j t' (by simp [hi, ht'])).grows h.descending hgrows
      · exact (h.tasks j t' ht').grows h.descending hgrows

theorem LinkState.Inv.run (h : s.Inv) (schedule : List ι) : (s.run schedule).Inv := by
  induction schedule generalizing s with
  | nil => exact h
  | cons i schedule ih => exact ih (h.step i)

/-- A task is done as soon as the thread has nothing left to do, now or later. -/
def LinkState.Accounts (s : LinkState ι n) (i : ι) (t : Task n) : Prop :=
  ∀ later, Grows s.comp later → (∀ t' ∈ s.threads i, t'.Done later) → t.Done later

omit [DecidableEq ι] in
theorem accounts_of_mem (ht : t ∈ s.threads i) : s.Accounts i t :=
  fun _ _ hall => hall t ht

/-- A step of any thread keeps the account of a task. -/
theorem LinkState.Accounts.step (h : s.Inv) (ht : s.Accounts i t) (j : ι) :
    (s.step j).Accounts i t := by
  have hgrows := step_grows h j
  revert hgrows
  fun_cases LinkState.step s j with
  | case1 => exact fun _ => ht
  | case2 t₀ rest hj =>
    intro hgrows later hlater hall
    refine ht later (hgrows.trans hlater) ?_
    intro t' ht'
    dsimp only at hall
    rw [update_apply] at hall
    split_ifs at hall with hij
    · subst hij
      rw [hj] at ht'
      obtain rfl | ht' := mem_cons.mp ht'
      · refine (task_step_inv h.descending (h.tasks i t' (by simp [hj]))).2.2 later hlater ?_
        intro t'' ht''
        exact hall t'' (mem_append_left _ ht'')
      · exact hall t' (mem_append_right _ ht')
    · exact hall t' ht'

theorem LinkState.Accounts.run (h : s.Inv) (ht : s.Accounts i t) (schedule : List ι) :
    (s.run schedule).Accounts i t := by
  induction schedule generalizing s with
  | nil => exact ht
  | cons j schedule ih => exact ih (h.step j) (ht.step h j)

/-- The array and the pairs that are to be linked stay within a relation. -/
structure LinkState.Within (R : Fin n → Fin n → Prop) (s : LinkState ι n) : Prop where
  comp : ∀ x, Relation.EqvGen R x (s.comp x)
  pairs : ∀ i, ∀ t ∈ s.threads i, ∀ p ∈ t.pairs, Relation.EqvGen R p.1 p.2

variable {R : Fin n → Fin n → Prop}

/-- A step stays within the relation: it joins only what is related. -/
theorem LinkState.Within.step (h : s.Inv) (hwithin : s.Within R) (i : ι) : (s.step i).Within R := by
  fun_cases LinkState.step s i with
  | case1 => exact hwithin
  | case2 t rest hi =>
    have ht : t ∈ s.threads i := by simp [hi]
    obtain ⟨hcomp, htasks, -⟩ := task_step_inv h.descending (h.tasks i t ht)
    constructor
    · intro x
      dsimp only
      obtain hcomp | ⟨high, low, -, -, ⟨p, hp, hstand⟩, hcomp⟩ := hcomp
      · rw [hcomp]
        exact hwithin.comp x
      · rw [hcomp]
        by_cases hx : x = high
        · subst hx
          rw [update_self]
          have hpair := hwithin.pairs i t ht p hp
          obtain ⟨ha, hb⟩ | ⟨ha, hb⟩ := hstand
          · exact ((eqvGen_of_root_eq hwithin.comp ha).trans _ _ _ hpair).trans _ _ _
              (eqvGen_of_root_eq hwithin.comp hb.symm)
          · exact ((eqvGen_of_root_eq hwithin.comp ha).trans _ _ _ (hpair.symm _ _)).trans _ _ _
              (eqvGen_of_root_eq hwithin.comp hb.symm)
        · rw [update_of_ne hx]
          exact hwithin.comp x
    · intro j t' ht' p hp
      dsimp only at ht'
      rw [update_apply] at ht'
      split_ifs at ht' with hj
      · subst hj
        obtain ht' | ht' := mem_append.mp ht'
        · exact hwithin.pairs j t ht p ((htasks t' ht').2 p hp)
        · exact hwithin.pairs j t' (by simp [hi, ht']) p hp
      · exact hwithin.pairs j t' ht' p hp

theorem LinkState.Within.run (h : s.Inv) (hwithin : s.Within R) (schedule : List ι) :
    (s.run schedule).Within R := by
  induction schedule generalizing s with
  | nil => exact hwithin
  | cons i schedule ih => exact ih (h.step i) (hwithin.step h i)

/-- **Calls of `Link` under every interleaving.**  No entry exceeds its index; two
vertices that following the entries relates are connected by the entries at the
start and the pairs of the calls; and when all threads have returned, the vertices
of every call have one root. -/
theorem link_interleaving
    (comp : Fin n → Fin n)
    (hdesc : ∀ x, comp x ≤ x)
    (calls : ι → List (Fin n × Fin n))
    (schedule : List ι) :
    (∀ x, ((linkStart comp calls).run schedule).comp x ≤ x) ∧
      (∀ x y, Relation.EqvGen (fun a b => ((linkStart comp calls).run schedule).comp a = b) x y →
        Relation.EqvGen (fun a b => comp a = b ∨ ∃ i, (a, b) ∈ calls i) x y) ∧
      (((linkStart comp calls).run schedule).Returned → ∀ i, ∀ p ∈ calls i,
        root ((linkStart comp calls).run schedule).comp p.1 =
          root ((linkStart comp calls).run schedule).comp p.2) := by
  -- threads that start to run calls know nothing yet
  have hstart : (linkStart comp calls).Inv := by
    refine ⟨hdesc, fun i t ht => ?_⟩
    obtain ⟨p, -, rfl⟩ := mem_map.mp ht
    exact trivial
  have hinv := hstart.run schedule
  refine ⟨hinv.descending, ?_, ?_⟩
  · intro x y hxy
    have hwithin : LinkState.Within (fun a b => comp a = b ∨ ∃ i, (a, b) ∈ calls i)
        ((linkStart comp calls).run schedule) := by
      refine LinkState.Within.run hstart ?_ schedule
      constructor
      · intro x
        exact Relation.EqvGen.rel _ _ (.inl rfl)
      · intro i t ht p hp
        obtain ⟨q, hq, rfl⟩ := mem_map.mp ht
        obtain rfl := mem_singleton.mp hp
        exact Relation.EqvGen.rel _ _ (.inr ⟨i, hq⟩)
    exact eqvGen_of_root_eq hwithin.comp ((root_eq_iff hinv.descending).mpr hxy)
  · intro hreturned i p hp
    have haccount : ((linkStart comp calls).run schedule).Accounts i (Task.call p) := by
      refine LinkState.Accounts.run hstart ?_ schedule
      exact accounts_of_mem (mem_map_of_mem hp)
    apply haccount _ (Grows.refl _)
    intro t' ht'
    rw [hreturned i] at ht'
    cases ht'

/-- Two threads link the same two vertices; the second one loses the race for the
`compare_and_swap`. -/
theorem link_interleaving_race : ((linkStart (fun x : Fin 3 => x) fun _ : Fin 2 => [(1, 2)]).run
        [0, 1, 0, 1, 0, 1, 0, 1, 1, 1, 1]).Returned ∧
      root ((linkStart (fun x : Fin 3 => x) fun _ : Fin 2 => [(1, 2)]).run
          [0, 1, 0, 1, 0, 1, 0, 1, 1, 1, 1]).comp 1 =
        root ((linkStart (fun x : Fin 3 => x) fun _ : Fin 2 => [(1, 2)]).run
          [0, 1, 0, 1, 0, 1, 0, 1, 1, 1, 1]).comp 2 := by
  have hreturned : ((linkStart (fun x : Fin 3 => x) fun _ : Fin 2 => [(1, 2)]).run
      [0, 1, 0, 1, 0, 1, 0, 1, 1, 1, 1]).Returned := by
    unfold LinkState.Returned
    decide
  exact ⟨hreturned, (link_interleaving (fun x : Fin 3 => x) (fun x => le_refl x)
    (fun _ : Fin 2 => [(1, 2)]) [0, 1, 0, 1, 0, 1, 0, 1, 1, 1, 1]).2.2 hreturned 0 (1, 2)
      (mem_singleton_self _)⟩

end

/-- A bound on the steps that a call has left.  Each turn of the loop starts with a
smaller value of `high`. -/
def LinkPc.measure : LinkPc n → Nat
  | .readFirst => 5 * n + 6
  | .readSecond _ => 5 * n + 5
  | .readHigh high _ => 5 * high.val + 4
  | .swap high _ => 5 * high.val + 3
  | .readParent high _ => 5 * high.val + 2
  | .readGrandparent parent low => 5 * (max parent low).val + 6
  | .readLow p1 low => 5 * (max p1 low).val + 5

/-- A bound on the steps that a task has left. -/
def Task.measure : Task n → Nat
  | .link _ _ pc => pc.measure
  | .unless _ _ calls => 1 + calls.length * (5 * n + 6)

theorem measure_loopTest {p1 p2 : Fin n} {pc : LinkPc n} (hpc : pc ∈ loopTest p1 p2) :
    pc.measure = 5 * (max p1 p2).val + 4 := by
  unfold loopTest at hpc
  split_ifs at hpc
  · cases hpc
  · obtain rfl := some.inj hpc
    rfl

variable {comp : Fin n → Fin n}

theorem measure_linkStep (hdesc : Descending comp) {u v : Fin n} {pc pc' : LinkPc n}
    (h : pc.Inv comp u v) (hpc' : pc' ∈ (linkStep u v comp pc).1) : pc'.measure < pc.measure := by
  cases pc with
  | readFirst =>
    obtain rfl := some.inj hpc'
    simp [LinkPc.measure]
  | readSecond p1 =>
    have hlt := (max p1 (comp v)).isLt
    rw [measure_loopTest hpc', LinkPc.measure]
    omega
  | readHigh high low =>
    rw [linkStep] at hpc'
    split_ifs at hpc'
    · cases hpc'
    · obtain rfl := some.inj hpc'
      simp [LinkPc.measure]
    · obtain rfl := some.inj hpc'
      simp [LinkPc.measure]
  | swap high low =>
    rw [linkStep] at hpc'
    split_ifs at hpc'
    · cases hpc'
    · obtain rfl := some.inj hpc'
      simp [LinkPc.measure]
  | readParent high low =>
    obtain rfl := some.inj hpc'
    have hlt : max (comp high) low < high := max_lt h.2.1 h.1
    simp only [LinkPc.measure]
    omega
  | readGrandparent parent low =>
    obtain rfl := some.inj hpc'
    have hle : max (comp parent) low ≤ max parent low := max_le_max_right low (hdesc parent)
    simp only [LinkPc.measure]
    omega
  | readLow p1 low =>
    have hle : max p1 (comp low) ≤ max p1 low := max_le_max_left p1 (hdesc low)
    rw [measure_loopTest hpc']
    simp only [LinkPc.measure]
    omega

theorem measure_step (hdesc : Descending comp) {t : Task n} (h : t.Inv comp) :
    ((t.step comp).1.map Task.measure).sum < t.measure := by
  cases t with
  | link u v pc =>
    rw [Task.step]
    cases hpc : (linkStep u v comp pc).1 with
    | none =>
      have hpos : 0 < pc.measure := by cases pc <;> simp [LinkPc.measure]
      simpa [Task.measure] using hpos
    | some pc' => simpa [Task.measure] using measure_linkStep hdesc h hpc
  | «unless» u c calls =>
    rw [Task.step]
    split_ifs
    · simp [Task.measure]
    · have hsum : ((calls.map Task.call).map Task.measure).sum = calls.length * (5 * n + 6) := by
        simp [comp_def, Task.call, Task.measure, LinkPc.measure]
      rw [hsum, Task.measure]
      omega

end HotTLBApps.Gapbs
