import HotTLBApps.Lib.LinkedOrder
import HotTLBApps.Lib.Runs

/-!
# PebblesDB: the list of writers (`db/db_impl.cc`)

`SequenceWriteBegin` and `WaitOutWriters` link a writer behind `writers_tail_`, and
`SequenceWriteEnd` and the end of `WaitOutWriters` unlink it, each while the thread holds
`writers_mutex_`.  A writer that is unlinked as the tail sets `writers_tail_` to null, also when
there is a writer before it: the next one is then not linked to the writers that are left.

`Ordered.link`, `Ordered.unlink`: what the operations keep.
-/

namespace HotTLBApps.PebblesDB
namespace WriterList

open Function LinkedOrder OrderDual Option

/-- Where the call that a writer belongs to is: a `Write` before and after
`SequenceWriteEnd`, or a `WaitOutWriters` before and after it returns. -/
inductive Phase
  | idle
  | writing
  | ended
  | waiting
  | returned
  deriving DecidableEq

/-- The writers, with `writers_tail_` and `writers_upper_`.  `links` counts the writers that were
linked, and `linkedAt` is the count at which each of them was. -/
structure State (ω : Type) where
  phase : ω → Phase
  prev : ω → Option ω
  next : ω → Option ω
  startSequence : ω → Nat
  endSequence : ω → Nat
  writersTail : Option ω
  writersUpper : Nat
  links : Nat
  linkedAt : ω → Nat

/-- The database was opened with this last sequence number. -/
def State.opened {ω : Type} (lastSequence : Nat) : State ω :=
  ⟨fun _ => .idle, fun _ => none, fun _ => none, fun _ => 0, fun _ => 0, none, lastSequence, 0, fun _ => 0⟩

/-- What a thread does with `writers_mutex_`; `diff` is the number of updates. -/
inductive Event (ω : Type)
  | sequenceWriteBegin (w : ω) (diff : Nat)
  | sequenceWriteEnd (w : ω)
  | waitOutWriters (w : ω)
  | waitedOut (w : ω)

variable {ω : Type} [DecidableEq ω]

/-- A field is assigned through a pointer, unless it is null. -/
def store (p : Option ω) (field : ω → Option ω) (value : Option ω) : ω → Option ω :=
  match p with
  | some w => update field w value
  | none => field

/-- A writer is linked behind the tail. -/
def State.link (s : State ω) (w : ω) (phase : Phase) : State ω :=
  { s with
    phase := update s.phase w phase
    prev := if s.writersTail = none then s.prev else update s.prev w s.writersTail
    next := store s.writersTail (update s.next w none) (some w)
    writersTail := some w
    links := s.links + 1
    linkedAt := update s.linkedAt w s.links }

/-- A writer is unlinked. -/
def State.unlink (s : State ω) (w : ω) (phase : Phase) : State ω :=
  { s with
    phase := update s.phase w phase
    prev := store (s.next w) s.prev (s.prev w)
    next := store (s.prev w) s.next (s.next w)
    writersTail := if s.writersTail = some w then none else s.writersTail }

/-- A `Write` is linked and gets its ticket. -/
def State.begin (s : State ω) (w : ω) (diff : Nat) : State ω :=
  { s.link w .writing with
    writersUpper := (s.writersUpper + (1 + diff)) % 2 ^ 64
    startSequence := update s.startSequence w
      (((s.writersUpper + (1 + diff)) % 2 ^ 64 + 2 ^ 64 - diff) % 2 ^ 64)
    endSequence := update s.endSequence w ((s.writersUpper + (1 + diff)) % 2 ^ 64) }

/-- One step; `none` if it is not possible.  A `WaitOutWriters` goes on when no writer is before
it. -/
def State.step (s : State ω) : Event ω → Option (State ω)
  | .sequenceWriteBegin w diff => if s.phase w = .idle then some (s.begin w diff) else none
  | .sequenceWriteEnd w => if s.phase w = .writing then some (s.unlink w .ended) else none
  | .waitOutWriters w => if s.phase w = .idle then some (s.link w .waiting) else none
  | .waitedOut w =>
      if s.phase w = .waiting ∧ s.prev w = none then some (s.unlink w .returned) else none

/-- A `Write` that ends as the tail has no writer before it, and the sequence numbers stay
within 64 bits. -/
def State.Alone (s : State ω) : Event ω → Prop
  | .sequenceWriteBegin _ diff => s.writersUpper + (1 + diff) < 2 ^ 64
  | .sequenceWriteEnd w => s.writersTail = some w → s.prev w = none
  | _ => True

/-- A writer of a batch that has its sequence numbers. -/
abbrev State.HasRange (s : State ω) (w : ω) : Prop :=
  s.phase w = .writing ∨ s.phase w = .ended

abbrev State.Linked (s : State ω) (w : ω) : Prop :=
  s.phase w = .writing ∨ s.phase w = .waiting

/-- The pointers of the linked writers lead to their neighbours in the order in which they were
linked, the tail is the last one, the sequence numbers are in the same order, and a
`WaitOutWriters` that returned was linked before all of them. -/
structure Ordered (s : State ω) : Prop where
  next : Leads s.Linked s.linkedAt s.next
  prev : Leads s.Linked (toDual ∘ s.linkedAt) s.prev
  tail : Tail s.Linked s.linkedAt s.writersTail
  linkedAt_lt : ∀ w, s.phase w ≠ .idle → s.linkedAt w < s.links
  linkedAt_inj : ∀ u w, s.phase u ≠ .idle → s.phase w ≠ .idle → s.linkedAt u = s.linkedAt w → u = w
  fresh : ∀ w, s.phase w = .idle → s.prev w = none
  ranges : ∀ u w, s.HasRange u → s.HasRange w → s.linkedAt u < s.linkedAt w →
    s.endSequence u < s.startSequence w
  bounds : ∀ w, s.HasRange w → s.startSequence w ≤ s.endSequence w ∧
    s.endSequence w ≤ s.writersUpper
  waited : ∀ w u, s.phase w = .returned → s.Linked u → s.linkedAt w < s.linkedAt u

variable {s s' : State ω} {u w : ω} {phase : Phase}

theorem store_apply (p : Option ω) (field : ω → Option ω) (value : Option ω) (w : ω) :
    store p field value w = if p = some w then value else field w := by
  cases p <;> simp [store, update_apply, eq_comm]

section

omit [DecidableEq ω]

theorem Ordered.injOn (h : Ordered s) :
    ∀ u w, s.Linked u → s.Linked w → s.linkedAt u = s.linkedAt w → u = w := by
  intro u w hu hw
  exact h.linkedAt_inj u w (by grind) (by grind)

theorem Ordered.next_eq_some_iff (h : Ordered s) (hu : s.Linked u) (hw : s.Linked w) :
    s.next u = some w ↔ s.prev w = some u :=
  ⟨h.next.back h.prev h.injOn hu, h.prev.back h.next h.injOn hw⟩

/-- A writer without a previous one was linked before the others. -/
theorem Ordered.first (h : Ordered s) (hw : s.Linked w) (hnone : s.prev w = none)
    (hu : s.Linked u) (hne : u ≠ w) : s.linkedAt w < s.linkedAt u := by
  by_contra hle
  have hlt : s.linkedAt u < s.linkedAt w :=
    lt_of_le_of_ne (not_lt.mp hle) fun heq => hne (h.injOn u w hu hw heq)
  obtain ⟨v, hv, -⟩ := h.prev.least w u hw hu hlt
  rw [hnone] at hv
  cases hv

end

/-- A writer is unlinked: a `Write` anywhere in the list, a `WaitOutWriters` at its head. -/
theorem Ordered.unlink (h : Ordered s) (hlinked : s.Linked w)
    (halone : s.writersTail = some w → s.prev w = none)
    (hphase : phase = .ended ∧ s.phase w = .writing ∨ phase = .returned ∧ s.phase w = .waiting ∧
      s.prev w = none) : Ordered (s.unlink w phase) := by
  have hmem : ∀ u, (s.unlink w phase).Linked u ↔ s.Linked u ∧ u ≠ w := by
    intro u
    dsimp only [State.Linked, State.unlink]
    grind [update_apply]
  constructor
  case next =>
    refine h.next.remove h.injOn hlinked hmem ?_
    intro u hu
    simp only [h.next_eq_some_iff hu hlinked]
    exact store_apply ..
  case prev =>
    refine h.prev.remove h.injOn hlinked hmem ?_
    intro u hu
    simp only [← h.next_eq_some_iff hlinked hu]
    exact store_apply ..
  case tail =>
    refine ⟨fun u hu => ?_, fun u hu => ?_⟩
    · obtain ⟨hne, htail⟩ := ite_none_left_eq_some.mp hu
      exact (hmem u).mpr ⟨h.tail.mem u htail, fun heq => hne (heq ▸ htail)⟩
    · obtain ⟨hu, huw⟩ := (hmem u).mp hu
      obtain ⟨t, ht, hut⟩ := h.tail.greatest u hu
      refine ⟨t, (if_neg ?_).trans ht, hut⟩
      -- as the tail `w` would be the only writer
      intro htail
      rw [some.inj (ht.symm.trans htail)] at hut
      exact absurd (h.first hlinked (halone htail) hu huw) (not_lt_of_ge hut)
  case waited =>
    intro v u hv hu
    obtain ⟨hold, hne⟩ := (hmem u).mp hu
    rcases update_cases hv with ⟨rfl, rfl⟩ | ⟨-, hv⟩
    · have hhead : s.prev v = none := by grind
      exact h.first hlinked hhead hold hne
    · exact h.waited v u hv hold
  case fresh =>
    intro u hu
    have hidle : s.phase u = .idle := by
      dsimp only [State.unlink] at hu
      grind [update_apply]
    refine (store_apply ..).trans ((if_neg ?_).trans (h.fresh u hidle))
    intro hnext
    have := (h.next.mem w u hlinked hnext).1
    grind
  all_goals
    dsimp only [State.unlink]
    intro u
    have := h.linkedAt_lt u
    have := h.linkedAt_inj u
    have := h.ranges u
    have := h.bounds u
    grind [update_apply]

/-- A writer is linked, with the sequence numbers that it gets if it has a batch. -/
theorem Ordered.link (h : Ordered s) (hw : s.phase w = .idle)
    (hphase : phase = .writing ∨ phase = .waiting) (first last : Nat) {upper : Nat}
    (hupper : s.writersUpper ≤ upper)
    (hrange : phase = .writing → s.writersUpper < first ∧ first ≤ last ∧ last ≤ upper) :
    Ordered { s.link w phase with
      writersUpper := upper
      startSequence := update s.startSequence w first
      endSequence := update s.endSequence w last } := by
  have hne : ∀ u, s.Linked u → u ≠ w := by grind
  have hmem : ∀ u, (s.link w phase).Linked u ↔ s.Linked u ∨ u = w := by
    intro u
    dsimp only [State.Linked, State.link]
    grind [update_apply]
  have hsame : ∀ u, s.Linked u → update s.linkedAt w s.links u = s.linkedAt u :=
    fun u hu => update_of_ne (hne u hu) ..
  have hlast : ∀ u, s.Linked u →
      update s.linkedAt w s.links u < update s.linkedAt w s.links w := by
    intro u hu
    rw [hsame u hu, update_self]
    exact h.linkedAt_lt u (by grind)
  have hprev : (s.link w phase).prev w = s.writersTail := by
    have := h.fresh w hw
    dsimp only [State.link]
    grind [update_self]
  have htail := h.tail.congr hsame
  constructor
  case next =>
    refine (h.next.congr hsame).append htail hlast hmem ?_ ?_ ?_
    · intro u v hu hv heq
      exact h.injOn u v hu hv ((hsame u hu).symm.trans (heq.trans (hsame v hv)))
    · intro u hu
      refine (store_apply ..).trans ?_
      rw [update_of_ne (hne u hu)]
    · refine (store_apply ..).trans ?_
      rw [update_self, if_neg fun htail => hne w (h.tail.mem w htail) rfl]
  case prev =>
    have hback : Leads s.Linked (toDual ∘ update s.linkedAt w s.links) s.prev :=
      h.prev.congr hsame
    refine hback.append_back htail hlast hmem ?_ hprev
    intro u hu
    dsimp only [State.link]
    split_ifs
    · rfl
    · exact update_of_ne (hne u hu) ..
  case tail =>
    refine ⟨fun u hu => ?_, fun u hu => ⟨w, rfl, ?_⟩⟩
    · cases hu
      exact (hmem w).mpr (.inr rfl)
    · rcases (hmem u).mp hu with hu | rfl
      · exact (hlast u hu).le
      · exact le_rfl
  all_goals
    dsimp only [State.link]
    intro u
    have := h.linkedAt_lt
    have := h.linkedAt_inj u
    have := h.fresh u
    have := h.ranges u
    have := h.bounds u
    have := h.waited u
    grind [update_apply]

/-- **Every step keeps the order**, if a `Write` that ends as the tail is alone. -/
theorem Ordered.step {event : Event ω} (h : Ordered s) (halone : s.Alone event)
    (hstep : s.step event = some s') : Ordered s' := by
  cases event with
  | sequenceWriteBegin w diff =>
    obtain ⟨hw, ⟨⟩⟩ := ite_none_right_eq_some.mp hstep
    rw [State.Alone] at halone
    rw [State.begin, Nat.mod_eq_of_lt halone]
    exact h.link hw (.inl rfl) _ _ (by omega) (by omega)
  | sequenceWriteEnd w =>
    obtain ⟨hw, ⟨⟩⟩ := ite_none_right_eq_some.mp hstep
    exact h.unlink (.inl hw) halone (.inl ⟨rfl, hw⟩)
  | waitOutWriters w =>
    obtain ⟨hw, ⟨⟩⟩ := ite_none_right_eq_some.mp hstep
    have hlink := h.link hw (.inr rfl) (s.startSequence w) (s.endSequence w) le_rfl nofun
    rwa [update_eq_self, update_eq_self] at hlink
  | waitedOut w =>
    obtain ⟨hw, ⟨⟩⟩ := ite_none_right_eq_some.mp hstep
    exact h.unlink (.inr hw.1) (fun _ => hw.2) (.inr ⟨rfl, hw⟩)

/-- **The writers are a list in the order of their sequence numbers** in every run in which a
`Write` that ends as the tail is alone. -/
theorem writers_ordered
    {lastSequence : Nat}
    (hrun : Runs State.step State.Alone (State.opened lastSequence) s) :
    Ordered s ∧ ∀ u w, s.Linked u → s.Linked w → (s.next u = some w ↔ s.prev w = some u) := by
  have h : Ordered s := by
    refine hrun.invariant (I := Ordered) ?_ fun _ _ _ h => h.step
    constructor
    case next | prev | tail => constructor <;> simp [State.opened]
    all_goals simp [State.opened]
  exact ⟨h, fun u w => h.next_eq_some_iff⟩

/-- The writers end in the order in which they began. -/
theorem writers_ordered_pair :
    ∃ s : State Nat, Runs State.step State.Alone (State.opened 0) s ∧ s.phase 0 = .ended ∧
      s.phase 1 = .writing ∧ Ordered s := by
  have hrun : Runs State.step State.Alone (State.opened (ω := Nat) 0) _ :=
    ((Runs.nil.snoc (i := .sequenceWriteBegin 0 1) (show 0 + (1 + 1) < 2 ^ 64 by decide) rfl).snoc
      (i := .sequenceWriteBegin 1 1) (show 2 + (1 + 1) < 2 ^ 64 by decide) rfl).snoc
      (i := .sequenceWriteEnd 0) (fun h => absurd h (by decide)) rfl
  exact ⟨_, hrun, rfl, rfl, (writers_ordered hrun).1⟩

/-- The writer that began last ends first: `WaitOutWriters` does not wait for the other one. -/
theorem waitOutWriters_not_waited :
    ∃ s : State Nat, Runs State.step (fun _ _ => True) (State.opened 0) s ∧
      s.phase 0 = .writing ∧ s.phase 2 = .returned ∧ s.linkedAt 0 < s.linkedAt 2 :=
  exists_runs
    [.sequenceWriteBegin 0 1, .sequenceWriteBegin 1 1, .sequenceWriteEnd 1, .waitOutWriters 2,
      .waitedOut 2] (by decide)

end WriterList
end HotTLBApps.PebblesDB
