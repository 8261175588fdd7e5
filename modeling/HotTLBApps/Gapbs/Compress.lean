import HotTLBApps.Gapbs.Link

/-!
# GAPBS: concurrent `Compress` (`src/cc.cc`)

Every vertex is a thread that replaces its entry by the entry of its parent until
its parent is a root.  A thread writes its own entry only, so it may read it at
once for both sides of the loop condition; the entry of its parent may change
between its steps.

No root changes (`CompressState.Inv.step`), and when all threads have ended every
entry is a root.
-/

namespace HotTLBApps.Gapbs

open Forest Function

variable {n : Nat}

/-- A place in the loop of a vertex; the names are those of the step that comes
next. -/
inductive CompressPc (n : Nat)
  /-- `comp[n]` in the condition. -/
  | load
  /-- `comp[comp[n]]` in the condition. -/
  | testParent (parent : Fin n)
  /-- `comp[n]` on the right of the assignment. -/
  | copy
  /-- `comp[comp[n]]` on the right of the assignment. -/
  | copyParent (parent : Fin n)
  /-- The assignment. -/
  | store (grandparent : Fin n)
deriving DecidableEq, Repr

/-- The array and the place of every vertex; a vertex without one has ended its
loop. -/
structure CompressState (n : Nat) where
  comp : Fin n → Fin n
  pcs : Fin n → Option (CompressPc n)

/-- One step of a vertex. -/
def CompressState.step (s : CompressState n) (x : Fin n) : CompressState n :=
  match s.pcs x with
  | none => s
  | some .load => { s with pcs := update s.pcs x (some (.testParent (s.comp x))) }
  | some (.testParent parent) =>
      { s with
        pcs := update s.pcs x (if parent = s.comp parent then none else some .copy) }
  | some .copy => { s with pcs := update s.pcs x (some (.copyParent (s.comp x))) }
  | some (.copyParent parent) =>
      { s with pcs := update s.pcs x (some (.store (s.comp parent))) }
  | some (.store grandparent) =>
      { comp := update s.comp x grandparent
        pcs := update s.pcs x (some .load) }

def CompressPc.Inv (comp : Fin n → Fin n) (x : Fin n) : Option (CompressPc n) → Prop
  | none => comp (comp x) = comp x
  | some .load => True
  | some (.testParent parent) => comp x = parent
  | some .copy => comp (comp x) < comp x
  | some (.copyParent parent) => comp x = parent ∧ comp parent < parent
  | some (.store grandparent) =>
      grandparent < comp x ∧ root comp grandparent = root comp x

structure CompressState.Inv (s : CompressState n) : Prop where
  descending : Descending s.comp
  places : ∀ x, CompressPc.Inv s.comp x (s.pcs x)

variable {comp : Fin n → Fin n}

/-- What the other vertices know survives the assignment of one of them. -/
theorem CompressPc.Inv.store (hdesc : Descending comp) {x y q : Fin n} (hq : q < comp x)
    (hroot : root comp q = root comp x) (hne : y ≠ x) {pc : Option (CompressPc n)}
    (h : CompressPc.Inv comp y pc) : CompressPc.Inv (update comp x q) y pc := by
  have hlt : q < x := hq.trans_le (hdesc x)
  have hy : update comp x q y = comp y := update_of_ne hne _ _
  have hle : update comp x q ≤ comp := update_le_self_iff.mpr hq.le
  obtain _ | _ | parent | _ | parent | grandparent := pc
  · -- A root is not the vertex that is moved.
    change update comp x q (update comp x q y) = update comp x q y
    rw [hy]
    have hx : comp y ≠ x := by
      rintro rfl
      have hfixed : comp (comp y) = comp y := h
      rw [root_of_fixed hfixed] at hroot
      exact absurd (hroot ▸ root_le q) (not_le.mpr hlt)
    rw [update_of_ne hx]
    exact h
  · exact trivial
  · exact hy.trans h
  · change update comp x q (update comp x q y) < update comp x q y
    rw [hy]
    exact (hle _).trans_lt h
  · exact ⟨hy.trans h.1, (hle _).trans_lt h.2⟩
  · change grandparent < update comp x q y ∧ _
    rw [hy, root_compress hlt hroot, root_compress hlt hroot]
    exact h

variable {s : CompressState n}

/-- **One step of a vertex changes no root and keeps the invariant.** -/
theorem CompressState.Inv.step (h : s.Inv) (x : Fin n) :
    (s.step x).Inv ∧ ∀ z, root (s.step x).comp z = root s.comp z := by
  have hx := h.places x
  -- A step that only moves the vertex on.
  have hmove : ∀ pc, CompressPc.Inv s.comp x pc →
      CompressState.Inv { s with pcs := update s.pcs x pc } := by
    intro pc hpc
    refine ⟨h.descending, ?_⟩
    exact (forall_update_iff s.pcs (CompressPc.Inv s.comp)).mpr ⟨hpc, fun y _ => h.places y⟩
  unfold CompressState.step
  rcases hpc : s.pcs x with _ | _ | parent | _ | parent | grandparent
  all_goals rw [hpc] at hx
  · exact ⟨h, fun _ => rfl⟩
  · exact ⟨hmove _ rfl, fun _ => rfl⟩
  · have hparent : s.comp x = parent := hx
    refine ⟨hmove _ ?_, fun _ => rfl⟩
    split_ifs with hroot
    · change s.comp (s.comp x) = s.comp x
      rw [hparent, ← hroot]
    · change s.comp (s.comp x) < s.comp x
      rw [hparent]
      exact lt_of_le_of_ne (h.descending parent) (Ne.symm hroot)
  · exact ⟨hmove _ ⟨rfl, hx⟩, fun _ => rfl⟩
  · refine ⟨hmove _ ?_, fun _ => rfl⟩
    obtain ⟨rfl, hlt⟩ := hx
    exact ⟨hlt, (root_parent h.descending _).trans (root_parent h.descending x)⟩
  · obtain ⟨hlt, hroot⟩ := hx
    have hless : grandparent < x := hlt.trans_le (h.descending x)
    refine ⟨⟨descending_update h.descending hless.le, ?_⟩, root_compress hless hroot⟩
    exact (forall_update_iff s.pcs (CompressPc.Inv _)).mpr
      ⟨trivial, fun y hy => (h.places y).store h.descending hlt hroot hy⟩

theorem inv_compressStart (hdesc : Descending comp) :
    CompressState.Inv { comp := comp, pcs := fun _ => some .load } :=
  ⟨hdesc, fun _ => trivial⟩

/-- A bound on the steps that a vertex has left: each turn of the loop makes its entry
smaller. -/
def CompressState.measure (s : CompressState n) (x : Fin n) : Nat :=
  match s.pcs x with
  | none => 0
  | some .load => 5 * (s.comp x).val + 5
  | some (.testParent _) => 5 * (s.comp x).val + 4
  | some .copy => 5 * (s.comp x).val + 3
  | some (.copyParent _) => 5 * (s.comp x).val + 2
  | some (.store _) => 5 * (s.comp x).val + 1

/-- A step brings its vertex closer to the end and leaves the others where they
are. -/
theorem measure_compressStep (h : s.Inv) {x : Fin n} (hx : s.pcs x ≠ none) :
    (s.step x).measure x < s.measure x ∧ ∀ y, y ≠ x → (s.step x).measure y = s.measure y := by
  have hplace := h.places x
  constructor
  · unfold CompressState.step CompressState.measure
    rcases hpc : s.pcs x with _ | _ | parent | _ | parent | grandparent
    · exact absurd hpc hx
    · simp
    · dsimp only
      rw [update_self]
      split_ifs <;> simp
    · simp
    · simp
    · rw [hpc] at hplace
      have hlt : grandparent.val < (s.comp x).val := hplace.1
      simp only [update_self]
      omega
  · intro y hy
    have hpcs : (s.step x).pcs y = s.pcs y := by
      unfold CompressState.step
      rcases s.pcs x with _ | _ | parent | _ | parent | grandparent <;>
        simp [update_of_ne hy]
    have hcomp : (s.step x).comp y = s.comp y := by
      unfold CompressState.step
      rcases s.pcs x with _ | _ | parent | _ | parent | grandparent <;>
        simp [update_of_ne hy]
    rw [CompressState.measure, CompressState.measure, hpcs, hcomp]

end HotTLBApps.Gapbs
