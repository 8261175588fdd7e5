import HotTLBApps.Speedb.GroupOrder

/-!
# Speedb: what is published has been written

Whatever the interleaving of the calls, a batch with published sequence numbers is in the
memtable and in the log, the published number does not decrease, and the log has increasing
sequence numbers.

* The leader closes its group under `add_buffer_mutex_` before it writes the log, and the log
  holds the closed groups one after another (`FlowState.Inv.idle`).
* The leader completes its group when nobody has a reference to it, and whoever has entered the
  group has one or has inserted its batch (`FlowData.Local.pending`).
-/

namespace HotTLBApps.Speedb

open Locks List Option WriterPc

namespace WriterPc

/-- The call has not entered a group. -/
def entering : WriterPc → Bool
  | start | lockAdd | allocateMerge | lockList | waitPending _ | pendingDone _ _ | unlockList _
  | allocate _ | enlist _ => true
  | _ => false

/-- The group of the call, which is the last one for as long as the call is there. -/
def lastGroup : WriterPc → Option Nat
  | unlockList g | allocate g | enlist g | lockBuffer g | lockRef g _ | unlockAdd g _
  | insert g true | insertMerge g _ | completeMerge g _ | lockWal g | switchLockAdd g
  | switchLockList g | pushList g => some g
  | _ => none

/-- The group that is closed, and not yet in the log. -/
def writing : WriterPc → Option Nat
  | switchUnlockAdd g | writeWal g => some g
  | _ => none

/-- The group that is in the log, and not yet complete. -/
def closed : WriterPc → Option Nat
  | unlockWal g | syncWal g | unlockRef g true | waitRef g | refDone g | setComplete g => some g
  | _ => none

/-- The group in which all batches have been inserted, and which is not yet complete. -/
def gathered : WriterPc → Option Nat
  | refDone g | setComplete g => some g
  | _ => none

/-- The group in which the call has not inserted its batch. -/
def inserting : WriterPc → Option Nat
  | lockBuffer g | lockRef g _ | unlockAdd g _ | insert g _ | insertMerge g _ => some g
  | _ => none

variable {p : WriterPc} {g : Nat}

theorem holds_of_lastGroup
    (h : p.lastGroup = some g) : p.holdsAdd = true ∨ p.writesBuffer = some g := by
  unfold lastGroup at h
  split at h <;> cases h
  all_goals simp [holdsAdd, writesBuffer]

theorem holdsWal_of_writing (h : p.writing = some g) : p.holdsWal = true := by
  unfold writing at h
  split at h <;> cases h
  all_goals rfl

theorem reads_of_inserting
    (h : p.inserting = some g) : p.readsRef = some g ∨ p.lastGroup = some g := by
  unfold inserting at h
  split at h <;> cases h
  all_goals simp [readsRef, lastGroup]

theorem closed_of_gathered (h : p.gathered = some g) : p.closed = some g := by
  unfold gathered at h
  split at h <;> cases h
  all_goals rfl

end WriterPc

section

variable {ι : Type} {batches : ι → SpdbBatch} {s : FlowState ι} {i : ι} {p p' : WriterPc}

/-- What is known of the place after a step that only takes or releases locks. -/
structure MoveSpec (s : FlowState ι) (p p' : WriterPc) : Prop where
  add : p'.holdsAdd = true → p.holdsAdd = true ∨ Free holdsAdd s.pc
  wal : p'.holdsWal = true → p.holdsWal = true ∨ Free holdsWal s.pc
  buffer : ∀ g, p'.writesBuffer = some g → p.writesBuffer = some g ∨
    Free (fun p => p.readsBuffer = some g || p.writesBuffer = some g) s.pc
  entering : p'.entering = p.entering
  keepsAdd : p.entering = true → p.holdsAdd = true → p'.holdsAdd = true
  last : ∀ g, p'.lastGroup = some g →
    p.lastGroup = some g ∨ s.data.wbLists.getLast? = some g
  writing : p'.writing = p.writing
  closed : ∀ g, p'.closed = some g → p.closed = some g
  gathered : ∀ g, p'.gathered = some g → p.gathered = some g ∨
    p.closed = some g ∧ Free (fun p => p.readsRef = some g || p.writesRef = some g) s.pc
  inserting : ∀ g, p.inserting = some g → p'.inserting = some g

theorem Moves.spec (h : Moves batches s i p p') : MoveSpec s p p' := by
  cases h
  case' lockRefMerge leader hfree hmerge => cases leader
  case' lockRef leader hfree hmerge => cases leader
  case' unlockAdd leader => cases leader
  case' completeMerge leader => cases leader
  all_goals
    constructor <;>
      simp_all [holdsAdd, holdsWal, writesBuffer, entering,
        lastGroup, writing, closed, gathered,
        inserting, afterInsert]

variable {d : FlowData ι}

/-- The group can no longer be entered, and is in the log. -/
def FlowData.Closed (d : FlowData ι) (g : Nat) : Prop :=
  g + 2 ≤ d.created ∧ ∀ x ∈ (d.lists g).walWrites, x ∈ d.wal.flatten

/-- The batch is in the memtable, if it is to be there. -/
def FlowData.Stored (batches : ι → SpdbBatch) (d : FlowData ι) (i : ι) : Prop :=
  (batches i).disableMemtable = false → d.inserted i = true

/-- The batches of the group are in the memtable. -/
def FlowData.Gathered (batches : ι → SpdbBatch) (d : FlowData ι) (g : Nat) : Prop :=
  ∀ i, d.joined i = some g → d.Stored batches i

/-- What holds of a call at a place. -/
structure FlowData.Local
    (batches : ι → SpdbBatch) (d : FlowData ι) (i : ι) (p : WriterPc) : Prop where
  joined : d.joined i = none ↔ p.entering = true
  fresh : ∀ b, d.sequence i = some b → p.entering = true →
    p.holdsAdd = true ∧ ∀ g, (d.lists g).Below b
  last : ∀ g, p.lastGroup = some g → g + 1 = d.created
  writing : ∀ g, p.writing = some g → g + 2 = d.created ∧ d.wal.flatten = d.logged g
  closed : ∀ g, p.closed = some g → d.Closed g
  gathered : ∀ g, p.gathered = some g → d.Gathered batches g
  pending : ∀ g, d.joined i = some g → d.Stored batches i ∨ p.inserting = some g

/-- A place where the call does not have a closed group. -/
def WriterPc.Quiet (p : WriterPc) : Prop :=
  p.writing = none ∧ p.closed = none ∧ p.gathered = none

theorem FlowData.Local.of_quiet (hquiet : p.Quiet) (hjoined : d.joined i = none ↔ p.entering = true)
    (hfresh : ∀ b, d.sequence i = some b → p.entering = true →
      p.holdsAdd = true ∧ ∀ g, (d.lists g).Below b)
    (hlast : ∀ g, p.lastGroup = some g → g + 1 = d.created)
    (hpending : ∀ g, d.joined i = some g → d.Stored batches i ∨ p.inserting = some g) :
    d.Local batches i p := by
  obtain ⟨hwriting, hclosed, hgathered⟩ := hquiet
  refine ⟨hjoined, hfresh, hlast, fun g hg => ?_, fun g hg => ?_, fun g hg => ?_, hpending⟩
  · cases hwriting.symm.trans hg
  · cases hclosed.symm.trans hg
  · cases hgathered.symm.trans hg

theorem FlowData.Local.move (h : s.data.Local batches i p)
    (hspec : MoveSpec s p p')
    (hback : ∀ g, s.data.wbLists.getLast? = some g → g + 1 = s.data.created)
    (hfree : ∀ g, p.closed = some g →
      Free (fun p => p.readsRef = some g || p.writesRef = some g) s.pc →
      s.data.Gathered batches g) : s.data.Local batches i p' := by
  refine ⟨hspec.entering ▸ h.joined, fun b hb hentering => ?_, fun g hg => ?_, fun g hg => ?_,
    fun g hg => h.closed g (hspec.closed g hg), fun g hg => ?_, fun g hg => ?_⟩
  · rw [hspec.entering] at hentering
    obtain ⟨hadd, hbelow⟩ := h.fresh b hb hentering
    exact ⟨hspec.keepsAdd hentering hadd, hbelow⟩
  · exact (hspec.last g hg).elim (h.last g) (hback g)
  · rw [hspec.writing] at hg
    exact h.writing g hg
  · exact (hspec.gathered g hg).elim (h.gathered g) fun hwait => hfree g hwait.1 hwait.2
  · exact (h.pending g hg).imp id (hspec.inserting g)

theorem FlowData.Local.push (h : d.Local batches i p) (hlast : p.lastGroup = none)
    (hwriting : p.writing = none) : d.push.Local batches i p := by
  refine ⟨h.joined, h.fresh, fun g hg => ?_, fun g hg => ?_, fun g hg => ?_, h.gathered, h.pending⟩
  · rw [hlast] at hg
    cases hg
  · rw [hwriting] at hg
    cases hg
  · exact ⟨(h.closed g hg).1.trans (Nat.le_succ _), (h.closed g hg).2⟩

theorem FlowData.Closed.writeWal {g g' : Nat} (h : d.Closed g') : (d.writeWal g).Closed g' := by
  refine ⟨h.1, fun x hx => ?_⟩
  change x ∈ (d.wal ++ _).flatten
  rw [flatten_append]
  exact mem_append_left _ (h.2 x hx)

theorem FlowData.Local.writeWal (h : d.Local batches i p) (hwriting : p.writing = none)
    (g : Nat) : (d.writeWal g).Local batches i p := by
  refine ⟨h.joined, h.fresh, h.last, fun k hk => ?_, fun k hk => (h.closed k hk).writeWal,
    h.gathered, h.pending⟩
  rw [hwriting] at hk
  cases hk

theorem FlowData.Closed.setComplete {g g' : Nat}
    (h : d.Closed g') : (d.setComplete g).Closed g' := by
  refine ⟨h.1, ?_⟩
  rw [(d.lists_setComplete g g').1]
  exact h.2

theorem FlowData.logged_setComplete (d : FlowData ι)
    (g n : Nat) : (d.setComplete g).logged n = d.logged n :=
  logged_congr fun g' _ => (d.lists_setComplete g g').1

theorem FlowData.Local.setComplete (h : d.Local batches i p)
    (g : Nat) : (d.setComplete g).Local batches i p := by
  refine ⟨h.joined, fun b hb hentering => ?_, h.last, fun k hk => ?_,
    fun k hk => (h.closed k hk).setComplete, h.gathered, h.pending⟩
  · obtain ⟨hadd, hbelow⟩ := h.fresh b hb hentering
    refine ⟨hadd, fun g' => ?_⟩
    obtain ⟨hwal, hmax, -⟩ := d.lists_setComplete g g'
    exact ⟨hmax ▸ (hbelow g').1, hwal ▸ (hbelow g').2⟩
  · rw [FlowData.logged_setComplete]
    exact h.writing k hk

variable [DecidableEq ι] {j : ι}

theorem FlowData.Local.allocate (h : d.Local batches i p)
    (hne : i ≠ j) : (d.allocate batches j).Local batches i p := by
  refine ⟨h.joined, fun b hb => ?_, h.last, h.writing, h.closed, h.gathered, h.pending⟩
  rw [FlowData.sequence_allocate_of_ne hne] at hb
  exact h.fresh b hb

theorem FlowData.Local.allocate_self (h : d.Local batches i p) (hordered : d.Ordered batches)
    (hentering : p.entering = true) (hp' : p'.entering = true ∧ p'.holdsAdd = true)
    (hlast : ∀ g, p'.lastGroup = some g → p.lastGroup = some g)
    (hquiet : p'.Quiet) : (d.allocate batches i).Local batches i p' := by
  have hjoined : d.joined i = none := h.joined.mpr hentering
  refine .of_quiet hquiet (iff_of_true hjoined hp'.1) (fun b hb _ => ⟨hp'.2, fun g => ?_⟩)
    (fun g hg => h.last g (hlast g hg)) fun g hg => ?_
  · rw [FlowData.sequence_allocate_self] at hb
    cases hb
    exact hordered.below g
  · cases hjoined.symm.trans hg

theorem FlowData.Closed.enlist {g g' b : Nat} (h : d.Closed g')
    (hlast : g + 1 = d.created) : (d.enlist batches i g b).Closed g' := by
  obtain ⟨hlt, hmem⟩ := h
  refine ⟨hlt, ?_⟩
  rw [FlowData.lists_enlist_of_ne (by omega)]
  exact hmem

theorem FlowData.Gathered.enlist {g g' b : Nat} (h : d.Gathered batches g')
    (hne : g' ≠ g) : (d.enlist batches i g b).Gathered batches g' := by
  intro j hj
  obtain ⟨-, ⟨⟩⟩ | ⟨-, hj⟩ := update_cases hj
  · exact absurd rfl hne
  · exact h j hj

theorem FlowData.Local.enlist (h : d.Local batches i p) {g b : Nat} (hne : i ≠ j)
    (hadd : p.holdsAdd = false)
    (hlast : g + 1 = d.created) : (d.enlist batches j g b).Local batches i p := by
  have hjoined : (d.enlist batches j g b).joined i = d.joined i :=
    FlowData.joined_enlist_of_ne hne
  refine ⟨hjoined ▸ h.joined, fun c hc hentering => ?_, h.last, fun k hk => ?_,
    fun k hk => (h.closed k hk).enlist hlast, fun k hk => ?_, fun k hk => ?_⟩
  · have := (h.fresh c hc hentering).1
    rw [hadd] at this
    cases this
  · obtain ⟨hcreated, hwal⟩ := h.writing k hk
    refine ⟨hcreated, ?_⟩
    rw [FlowData.logged_enlist (by omega)]
    exact hwal
  · have hclosed := (h.closed k (closed_of_gathered hk)).1
    exact (h.gathered k hk).enlist (by omega)
  · exact h.pending k (hjoined ▸ hk)

theorem FlowData.Local.enlist_self {g b : Nat} (hlast : g + 1 = d.created)
    (hp' : p' = .lockBuffer g ∨ ∃ leader, p' = .lockRef g leader) :
    (d.enlist batches i g b).Local batches i p' := by
  have hjoined : (d.enlist batches i g b).joined i = some g := FlowData.joined_enlist_self
  have hsome : (d.enlist batches i g b).joined i ≠ none := by
    rw [hjoined]
    exact some_ne_none g
  obtain rfl | ⟨leader, rfl⟩ := hp'
  all_goals
    refine .of_quiet ⟨rfl, rfl, rfl⟩ (iff_of_false hsome Bool.false_ne_true) nofun
      (fun k hk => ?_) fun k hk => .inr (hjoined.symm.trans hk)
    cases hk
    exact hlast

theorem FlowData.Stored.insert
    (h : d.Stored batches i) : (d.insert batches j).Stored batches i := by
  intro hmem
  by_cases hij : i = j
  · subst hij
    rw [FlowData.inserted_insert_self, hmem]
    rfl
  · exact (Function.update_of_ne hij _ _).trans (h hmem)

theorem FlowData.Stored.insert_self : (d.insert batches i).Stored batches i := by
  intro hmem
  rw [FlowData.inserted_insert_self, hmem]
  rfl

theorem FlowData.Local.insert (h : d.Local batches i p)
    (j : ι) : (d.insert batches j).Local batches i p :=
  ⟨h.joined, h.fresh, h.last, h.writing, h.closed, fun g hg k hk => (h.gathered g hg k hk).insert,
    fun g hg => (h.pending g hg).imp .insert id⟩

theorem FlowData.Local.insert_self (h : d.Local batches i p)
    (hentering : p.entering = false ∧ p'.entering = false)
    (hlast : ∀ g, p'.lastGroup = some g → p.lastGroup = some g)
    (hquiet : p'.Quiet) : (d.insert batches i).Local batches i p' := by
  refine .of_quiet hquiet ?_ (fun b _ hp' => ?_) (fun g hg => h.last g (hlast g hg))
    fun _ _ => .inl FlowData.Stored.insert_self
  · rw [hentering.2, ← hentering.1]
    exact h.joined
  · cases hentering.2.symm.trans hp'

end

variable {ι : Type} {batches : ι → SpdbBatch} {s : FlowState ι} {i : ι}

/-- **What holds in every state.** -/
structure FlowState.Inv (batches : ι → SpdbBatch) (s : FlowState ι) : Prop where
  add : Exclusive holdsAdd s.pc
  wal : Exclusive holdsWal s.pc
  buffer : ∀ g, Exclusive (fun p => p.writesBuffer = some g) s.pc
  ordered : s.data.Ordered batches
  popped : s.data.Popped
  complete : ∀ g, (s.data.lists g).completeBatch = true →
    s.data.Closed g ∧ s.data.Gathered batches g
  /-- The log holds the closed groups when no leader is about to write. -/
  idle : (∀ i, (s.pc i).writing = none) →
    s.data.wal.flatten = s.data.logged (s.data.created - 1)
  here : ∀ i, s.data.Local batches i (s.pc i)

variable {g : Nat}

theorem FlowState.Inv.getLast (h : s.Inv batches)
    (hg : s.data.wbLists.getLast? = some g) : g + 1 = s.data.created := by
  have hle := h.popped.length_le
  have hpopped : s.data.popped = s.data.created - s.data.wbLists.length := rfl
  rw [h.popped.wbLists, getLast?_range'] at hg
  split at hg
  · cases hg
  · cases hg
    omega

theorem FlowState.Inv.not_holdsAdd (h : s.Inv batches) (hadd : (s.pc i).holdsAdd = true) {j : ι}
    (hji : j ≠ i) : (s.pc j).holdsAdd = false := by
  by_contra hj
  exact hji (h.add j i (by simpa using hj) hadd)

theorem FlowState.Inv.not_writing (h : s.Inv batches) (hwal : (s.pc i).holdsWal = true) {j : ι}
    (hji : j ≠ i) : (s.pc j).writing = none := by
  by_contra hj
  obtain ⟨k, hk⟩ := ne_none_iff_exists'.mp hj
  exact hji (h.wal j i (holdsWal_of_writing hk) hwal)

theorem FlowState.inv_opened
    (lastSequence : Nat) : (FlowState.opened lastSequence : FlowState ι).Inv batches := by
  refine ⟨Free.exclusive fun _ => rfl, Free.exclusive fun _ => rfl,
    fun g => Free.exclusive fun _ => rfl, ?ordered, ?popped, nofun, fun _ => rfl,
    fun i => ?here⟩
  case ordered =>
    refine ⟨nofun, fun _ => ⟨Nat.succ_pos _, nofun⟩, nofun, nofun, fun _ h => (h rfl).elim,
      nofun, .nil, fun _ _ => rfl⟩
  case popped =>
    exact ⟨le_rfl, rfl, nofun, le_rfl, nofun⟩
  case here =>
    exact .of_quiet ⟨rfl, rfl, rfl⟩ (iff_of_true rfl rfl) nofun
      nofun nofun

theorem FlowState.Inv.pairwise_wal (h : s.Inv batches) :
    s.data.wal.flatten.Pairwise fun x y => x.next ≤ y.sequence := by
  by_cases hidle : ∀ i, (s.pc i).writing = none
  · rw [h.idle hidle]
    exact h.ordered.sorted.sublist (s.data.logged_sublist (Nat.sub_le _ _))
  · obtain ⟨i, hi⟩ := not_forall.mp hidle
    obtain ⟨g, hg⟩ := ne_none_iff_exists'.mp hi
    obtain ⟨hcreated, hwal⟩ := (h.here i).writing g hg
    rw [hwal]
    exact h.ordered.sorted.sublist (s.data.logged_sublist (by omega))

/-- The locks that the invariant is about are taken when they are free. -/
structure TakesFree (s : FlowState ι) (p p' : WriterPc) : Prop where
  add : p'.holdsAdd = true → p.holdsAdd = true ∨ Free holdsAdd s.pc
  wal : p'.holdsWal = true → p.holdsWal = true ∨ Free holdsWal s.pc
  buffer : ∀ g, p'.writesBuffer = some g → p.writesBuffer = some g ∨
    Free (fun p => p.readsBuffer = some g || p.writesBuffer = some g) s.pc

theorem TakesFree.of_le {p p' : WriterPc} (hadd : p'.holdsAdd = true → p.holdsAdd = true)
    (hwal : p'.holdsWal = true → p.holdsWal = true)
    (hbuffer : ∀ g, p'.writesBuffer = some g → p.writesBuffer = some g) : TakesFree s p p' :=
  ⟨fun h => .inl (hadd h), fun h => .inl (hwal h), fun g h => .inl (hbuffer g h)⟩

variable [DecidableEq ι] {p : WriterPc} {d : FlowData ι}

section

variable (h : s.Inv batches)
include h

/-- **What holds after a step**: the locks are exclusive, and the other calls are where they
were. -/
theorem FlowState.Inv.goTo (hlocks : TakesFree s (s.pc i) p) (hordered : d.Ordered batches)
    (hpopped : d.Popped)
    (hcomplete : ∀ g, (d.lists g).completeBatch = true → d.Closed g ∧ d.Gathered batches g)
    (hidle : p.writing = none → (∀ j, j ≠ i → (s.pc j).writing = none) →
      d.wal.flatten = d.logged (d.created - 1)) (hself : d.Local batches i p)
    (hother : ∀ j, j ≠ i → d.Local batches j (s.pc j)) : (s.goTo i p d).Inv batches := by
  refine ⟨h.add.update hlocks.add, h.wal.update hlocks.wal, fun g => (h.buffer g).update ?_,
    hordered, hpopped, hcomplete, fun hnone => hidle ?_ fun j hji => ?_, fun j => ?_⟩
  · intro hp
    obtain hi | hfree := hlocks.buffer g (of_decide_eq_true hp)
    · exact .inl (decide_eq_true hi)
    · refine .inr fun j => ?_
      have := hfree j
      rw [Bool.or_eq_false_iff] at this
      exact this.2
  · have := hnone i
    rwa [FlowState.pc_goTo_self] at this
  · have := hnone j
    rwa [FlowState.pc_goTo_of_ne hji] at this
  · by_cases hji : j = i
    · subst hji
      rw [FlowState.pc_goTo_self]
      exact hself
    · rw [FlowState.pc_goTo_of_ne hji]
      exact hother j hji

theorem FlowState.Inv.idle_of_eq (hwriting : p.writing = (s.pc i).writing)
    (hcreated : d.created = s.data.created) (hwal : d.wal = s.data.wal)
    (hlogged : d.logged (s.data.created - 1) = s.data.logged (s.data.created - 1))
    (hp : p.writing = none) (hother : ∀ j, j ≠ i → (s.pc j).writing = none) :
    d.wal.flatten = d.logged (d.created - 1) := by
  rw [hcreated, hwal, hlogged]
  refine h.idle fun j => ?_
  by_cases hji : j = i
  · subst hji
    exact hwriting.symm.trans hp
  · exact hother j hji

theorem FlowState.Inv.move
    (hmove : Moves batches s i (s.pc i) p) : (s.goTo i p s.data).Inv batches := by
  have hspec := hmove.spec
  refine h.goTo ⟨hspec.add, hspec.wal, hspec.buffer⟩ h.ordered h.popped h.complete
    (h.idle_of_eq hspec.writing rfl rfl rfl) ?_ fun j _ => h.here j
  refine (h.here i).move hspec (fun g hg => h.getLast hg) fun g hg hfree j hj => ?_
  -- whoever has entered a closed group has a reference to it or has inserted the batch
  refine ((h.here j).pending g hj).resolve_right fun hinserting => ?_
  obtain hreads | hlast := reads_of_inserting hinserting
  · have := hfree j
    simp [hreads] at this
  · have := (h.here j).last g hlast
    have := ((h.here i).closed g hg).1
    omega

theorem FlowState.Inv.allocate (hentering : (s.pc i).entering = true)
    (hadd : (s.pc i).holdsAdd = true) (hwriting : (s.pc i).writing = none)
    (hp : p.entering = true ∧ p.holdsAdd = true)
    (hfree : p.holdsWal = false ∧ p.writesBuffer = none)
    (hlast : ∀ g, p.lastGroup = some g → (s.pc i).lastGroup = some g)
    (hquiet : p.Quiet) : (s.goTo i p (s.data.allocate batches i)).Inv batches := by
  have hlocal := h.here i
  have hlocks : TakesFree s (s.pc i) p := by
    refine .of_le (fun _ => hadd) (fun hwal => ?_) fun g hg => ?_
    · cases hfree.1.symm.trans hwal
    · cases hfree.2.symm.trans hg
  refine h.goTo hlocks (h.ordered.allocate (hlocal.joined.mpr hentering)) (h.popped.allocate i)
    h.complete ?_ (hlocal.allocate_self h.ordered hentering hp hlast hquiet)
    fun j hji => (h.here j).allocate hji
  exact h.idle_of_eq (hquiet.1.trans hwriting.symm) rfl rfl rfl

theorem FlowState.Inv.enlist {g b : Nat} (hpc : s.pc i = .enlist g)
    (hb : s.data.sequence i = some b) :
    (s.goTo i (afterEnlist ((s.data.lists g).add ⟨b, batches i⟩) g)
      (s.data.enlist batches i g b)).Inv batches := by
  have hlocal := h.here i
  rw [hpc] at hlocal
  have hlast : g + 1 = s.data.created := hlocal.last g rfl
  have hjoined : s.data.joined i = none := hlocal.joined.mpr rfl
  have hafter : ∀ l : WritesBatchList, afterEnlist l g = .lockBuffer g ∨
      ∃ leader, afterEnlist l g = .lockRef g leader := by
    intro l
    unfold afterEnlist
    split
    · exact .inl rfl
    · exact .inr ⟨false, rfl⟩
  have hadd : (s.pc i).holdsAdd = true := by rw [hpc]; rfl
  refine h.goTo ?locks (h.ordered.enlist hlast hjoined hb (hlocal.fresh b hb rfl).2)
    (h.popped.enlist hjoined) (fun k hk => ?complete) ?idle (.enlist_self hlast (hafter _))
    fun j hji => ?other
  case locks =>
    refine .of_le (fun _ => hadd) ?_ ?_
    · unfold afterEnlist
      split <;> exact nofun
    · unfold afterEnlist
      split <;> exact nofun
  case complete =>
    -- a group that has been entered just now is the last one, and not complete
    by_cases hkg : k = g
    · subst hkg
      rw [FlowData.lists_enlist_self] at hk
      have := (h.complete k hk).1.1
      omega
    · rw [FlowData.lists_enlist_of_ne hkg] at hk
      obtain ⟨hclosed, hgathered⟩ := h.complete k hk
      exact ⟨hclosed.enlist hlast, hgathered.enlist hkg⟩
  case idle =>
    refine h.idle_of_eq ?_ rfl rfl (FlowData.logged_enlist (by omega))
    rw [hpc]
    unfold afterEnlist
    split <;> rfl
  case other =>
    exact (h.here j).enlist hji (h.not_holdsAdd hadd hji) hlast

theorem FlowState.Inv.insert (hlocks : TakesFree s (s.pc i) p)
    (hentering : (s.pc i).entering = false ∧ p.entering = false)
    (hwriting : (s.pc i).writing = none)
    (hlast : ∀ g, p.lastGroup = some g → (s.pc i).lastGroup = some g)
    (hquiet : p.Quiet) : (s.goTo i p (s.data.insert batches i)).Inv batches := by
  refine h.goTo hlocks (h.ordered.frame _ _ _ _) (h.popped.frame _ _) (fun g hg => ?_)
    (h.idle_of_eq (hquiet.1.trans hwriting.symm) rfl rfl rfl)
    ((h.here i).insert_self hentering hlast hquiet) fun j _ => (h.here j).insert i
  obtain ⟨hclosed, hgathered⟩ := h.complete g hg
  exact ⟨hclosed, fun j hj => (hgathered j hj).insert⟩

/-- The leader appends a new group: it alone has the last one, and nobody else can enter it. -/
theorem FlowState.Inv.push (hpc : s.pc i = .pushList g) :
    (s.goTo i (.switchUnlockAdd g) s.data.push).Inv batches := by
  have hlocal := h.here i
  rw [hpc] at hlocal
  have hlast : g + 1 = s.data.created := hlocal.last g rfl
  have hadd : (s.pc i).holdsAdd = true := by rw [hpc]; rfl
  have hwal : (s.pc i).holdsWal = true := by rw [hpc]; rfl
  have hbuffer : (s.pc i).writesBuffer = some g := by rw [hpc]; rfl
  have hnotWriting : ∀ j, (s.pc j).writing = none := by
    intro j
    by_cases hji : j = i
    · rw [hji, hpc]
      rfl
    · exact h.not_writing hwal hji
  have hwritten : s.data.wal.flatten = s.data.logged g := by
    have hidle := h.idle hnotWriting
    rwa [← hlast] at hidle
  have hnotLast : ∀ j, j ≠ i → (s.pc j).lastGroup = none := by
    intro j hji
    by_contra hj
    obtain ⟨k, hk⟩ := ne_none_iff_exists'.mp hj
    obtain hj | hj := holds_of_lastGroup hk
    · exact hji (h.add j i hj hadd)
    · have hkg : k = g := by
        have := (h.here j).last k hk
        omega
      subst hkg
      exact hji (h.buffer k j i (decide_eq_true hj) (decide_eq_true hbuffer))
  refine h.goTo (.of_le (fun _ => hadd) (fun _ => hwal) fun k hk => hbuffer.trans hk)
    h.ordered.push h.popped.push (fun k hk => ?complete) nofun ?self
    fun j hji => (h.here j).push (hnotLast j hji) (hnotWriting j)
  case complete =>
    obtain ⟨hclosed, hgathered⟩ := h.complete k hk
    exact ⟨⟨hclosed.1.trans (Nat.le_succ _), hclosed.2⟩, hgathered⟩
  case self =>
    refine ⟨hlocal.joined, nofun, nofun, fun k hk => ?_, nofun, nofun, hlocal.pending⟩
    cases hk
    exact ⟨congrArg Nat.succ hlast, hwritten⟩

theorem FlowState.Inv.writeWal (hpc : s.pc i = .writeWal g) :
    (s.goTo i (.unlockWal g) (s.data.writeWal g)).Inv batches := by
  have hlocal := h.here i
  rw [hpc] at hlocal
  obtain ⟨hcreated, hwritten⟩ := hlocal.writing g rfl
  have hwal : (s.pc i).holdsWal = true := by rw [hpc]; rfl
  have hbuffer : (s.pc i).writesBuffer = some g := by rw [hpc]; rfl
  have hflatten : (s.data.writeWal g).wal.flatten = s.data.logged (g + 1) := by
    change (s.data.wal ++ walRecords (s.data.lists g).walWrites).flatten = _
    rw [flatten_append, hwritten, flatten_walRecords, FlowData.logged_succ]
  refine h.goTo (.of_le nofun (fun _ => hwal) fun k hk => hbuffer.trans hk)
    (h.ordered.frame _ _ _ _) (h.popped.frame _ _)
    (fun k hk => ⟨(h.complete k hk).1.writeWal, (h.complete k hk).2⟩) (fun _ _ => ?idle) ?self
    fun j hji => (h.here j).writeWal (h.not_writing hwal hji) g
  case idle =>
    rw [hflatten]
    change s.data.logged (g + 1) = s.data.logged (s.data.created - 1)
    rw [← hcreated]
    rfl
  case self =>
    refine ⟨hlocal.joined, nofun, nofun, nofun, fun k hk => ?_, nofun, hlocal.pending⟩
    cases hk
    refine ⟨hcreated.le, fun x hx => ?_⟩
    rw [hflatten, FlowData.logged_succ]
    exact mem_append_right _ hx

theorem FlowState.Inv.setComplete (hpc : s.pc i = .setComplete g) :
    (s.goTo i (.unlockBuffer g) (s.data.setComplete g)).Inv batches := by
  have hlocal := h.here i
  rw [hpc] at hlocal
  have hbuffer : (s.pc i).writesBuffer = some g := by rw [hpc]; rfl
  refine h.goTo (.of_le nofun nofun fun k hk => hbuffer.trans hk)
    (h.ordered.setComplete g) (h.popped.setComplete g) (fun k hk => ?complete) ?idle ?self
    fun j _ => (h.here j).setComplete g
  case complete =>
    obtain rfl | hk := (s.data.lists_setComplete g k).2.2 hk
    · exact ⟨(hlocal.closed k rfl).setComplete, hlocal.gathered k rfl⟩
    · exact ⟨(h.complete k hk).1.setComplete, (h.complete k hk).2⟩
  case idle =>
    refine h.idle_of_eq ?_ rfl rfl (s.data.logged_setComplete g _)
    rw [hpc]
    rfl
  case self =>
    have hnew := hlocal.setComplete g
    exact .of_quiet ⟨rfl, rfl, rfl⟩ hnew.joined nofun
      nofun hnew.pending

theorem FlowState.Inv.publish
    (hpc : s.pc i = .publish) : (s.goTo i .returned s.data.publish).Inv batches := by
  have hlocal := h.here i
  rw [hpc] at hlocal
  have hpopped : s.data.publish.Popped := by
    refine h.popped.publish h.ordered fun j b hj hb g => ?_
    exact (((h.here j).fresh b hb ((h.here j).joined.mp hj)).2 g).1
  have hsame : ∀ j p, s.data.Local batches j p → s.data.publish.Local batches j p := fun j p hj =>
    ⟨hj.joined, hj.fresh, hj.last, hj.writing, hj.closed, hj.gathered, hj.pending⟩
  refine h.goTo (.of_le nofun nofun nofun)
    (h.ordered.frame _ _ _ _) hpopped h.complete ?_ ?_ fun j _ => hsame j _ (h.here j)
  · refine h.idle_of_eq ?_ rfl rfl rfl
    rw [hpc]
    rfl
  · exact .of_quiet ⟨rfl, rfl, rfl⟩ hlocal.joined nofun
      nofun hlocal.pending

/-- **Every step keeps the invariant.** -/
theorem FlowState.Inv.step
    (hstep : FlowStep batches s i p d) : (s.goTo i p d).Inv batches := by
  cases hstep with
  | move hmove => exact h.move hmove
  | allocateMerge hpc =>
    refine h.allocate ?_ ?_ ?_ ⟨rfl, rfl⟩ ⟨rfl, rfl⟩ nofun ⟨rfl, rfl, rfl⟩
    all_goals
      rw [hpc]
      rfl
  | allocate hpc =>
    refine h.allocate ?_ ?_ ?_ ⟨rfl, rfl⟩ ⟨rfl, rfl⟩ (fun k hk => ?_) ⟨rfl, rfl, rfl⟩
    all_goals
      rw [hpc]
      first | rfl | exact hk
  | enlist hpc hb => exact h.enlist hpc hb
  | @insert g leader hpc | @insertMerge g leader hpc =>
    cases leader
    all_goals
      refine h.insert (.of_le ?_ ?_ ?_) ⟨?_, rfl⟩ ?_ ?_ ⟨rfl, rfl, rfl⟩
      all_goals
        rw [hpc]
        first | rfl | exact fun hp => hp | exact fun _ hp => hp
  | push hpc => exact h.push hpc
  | writeWal hpc => exact h.writeWal hpc
  | setComplete hpc => exact h.setComplete hpc
  | publish hpc => exact h.publish hpc

theorem FlowState.Inv.lastSequence_le
    (hstep : FlowStep batches s i p d) : s.data.lastSequence ≤ d.lastSequence := by
  cases hstep with
  | publish _ => exact h.popped.lastSequence_le_publish h.ordered
  | _ => exact le_rfl

end

variable [Fintype ι]

/-- **Publication is safe.**  In every state of every interleaving, a batch with a published
number is in the memtable, unless its call has disabled the memtable, and in the log, unless its
call has disabled the log; the published number does not decrease; and the log is in the order
of the sequence numbers. -/
theorem publication_safe
    {lastSequence : Nat}
    (hrun : Runs (FlowState.step batches) (fun _ _ => True) (FlowState.opened lastSequence) s) :
    (∀ i b, s.data.sequence i = some b → b ≤ s.data.lastSequence →
      ((batches i).disableMemtable = false → s.data.inserted i = true) ∧
        ((batches i).disableWAL = false → ⟨b, batches i⟩ ∈ s.data.wal.flatten)) ∧
      (∀ i s', s.step batches i = some s' → s.data.lastSequence ≤ s'.data.lastSequence) ∧
        s.data.wal.flatten.Pairwise fun x y => x.next ≤ y.sequence := by
  have h : s.Inv batches := by
    refine hrun.invariant (FlowState.inv_opened lastSequence) fun s₁ i s₂ h _ hstep => ?_
    obtain ⟨p, d, rfl, hmade⟩ := flowStep_of_step hstep
    exact h.step hmade
  refine ⟨fun i b hb hle => ?_, fun i s' hstep => ?_, h.pairwise_wal⟩
  · obtain ⟨g, hg, hi⟩ := h.popped.published i b hb hle
    obtain ⟨hclosed, hgathered⟩ := h.complete g (h.popped.complete g hg)
    exact ⟨hgathered i hi, fun hlog => hclosed.2 _ (h.ordered.walWrites i g b hi hb hlog)⟩
  · obtain ⟨p, d, rfl, hmade⟩ := flowStep_of_step hstep
    exact h.lastSequence_le hmade

def mergeBatch : SpdbBatch :=
  { walBatch false with hasMerge := true, wal_of_sync := nofun }

/-- Two calls: one that merges, and one after it. -/
def mergeThenWrite : Fin 2 → SpdbBatch
  | 0 => mergeBatch
  | 1 => walBatch false

/-- The calls one after the other. -/
theorem publication_safe_mergeThenWrite :
    ∃ s, Runs (FlowState.step mergeThenWrite) (fun _ _ => True) (FlowState.opened 0) s ∧
      s.data.lastSequence = 2 ∧ (∀ i b, s.data.sequence i = some b → b ≤ s.data.lastSequence →
          ((mergeThenWrite i).disableMemtable = false → s.data.inserted i = true) ∧
            ((mergeThenWrite i).disableWAL = false →
              ⟨b, mergeThenWrite i⟩ ∈ s.data.wal.flatten)) := by
  refine exists_runs_imp (P := fun s => s.data.lastSequence = 2)
    (replicate 28 0 ++ replicate 26 1) (by decide +kernel) fun s hrun hs => ?_
  exact ⟨hs, (publication_safe hrun).1⟩

/-- A call that has disabled the memtable. -/
def walOnly : Fin 1 → SpdbBatch
  | 0 => { walBatch false with disableMemtable := true, wal_of_sync := nofun }

/-- **A batch that is published and not in the memtable**: its call has disabled it. -/
theorem not_inserted_walOnly :
    ∃ s, Runs (FlowState.step walOnly) (fun _ _ => True) (FlowState.opened 0) s ∧
      s.data.sequence 0 = some 1 ∧ s.data.lastSequence = 1 ∧ s.data.inserted 0 = false :=
  exists_runs (replicate 26 0) (by decide +kernel)

end HotTLBApps.Speedb
