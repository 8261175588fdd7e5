import HotTLBApps.Lib.Runs
import Mathlib

/-!
# YCSB: the acknowledged counter (`core/acknowledged_counter_generator.cc`)

Clients draw values from a counter, insert the records and acknowledge the values, in any
order.  `Last` is to be the end of the values that are acknowledged without a gap, and
`CoreWorkload` reads only keys up to it.  Acknowledgements ahead of the gap are kept in a
circular window with one slot for each residue modulo its size.
-/

namespace HotTLBApps.Ycsb

open List Function Option

section

def kWindowSize : Nat := 2 ^ 16

/-- `AcknowledgedCounterGenerator`; the lock and the atomic loads make every operation one
step. -/
structure AcknowledgedCounterGenerator where
  counter : Nat
  limit : Nat
  ackWindow : Nat → Bool

namespace AcknowledgedCounterGenerator

/-- The constructor; `start - 1` wraps for `start = 0`. -/
def new (start : Nat) : AcknowledgedCounterGenerator where
  counter := start
  limit := (start + 2 ^ 64 - 1) % 2 ^ 64
  ackWindow := fun _ => false

def next (g : AcknowledgedCounterGenerator) : Nat × AcknowledgedCounterGenerator :=
  (g.counter, { g with counter := (g.counter + 1) % 2 ^ 64 })

def last (g : AcknowledgedCounterGenerator) : Nat :=
  g.limit

/-- The loop of `Acknowledge`, with the window and the value where it ends. -/
def scan (upTo : Nat) : (fuel : Nat) → (Nat → Bool) → Nat → (Nat → Bool) × Nat
  | 0, window, i => (window, i)
  | fuel + 1, window, i =>
      if i < upTo then
        if window (i % kWindowSize) then
          scan upTo fuel (Function.update window (i % kWindowSize) false) (i + 1)
        else
          (window, i)
      else
        (window, i)

/-- `Acknowledge`; `none` if it throws, which it does before it changes anything. -/
def acknowledge
    (g : AcknowledgedCounterGenerator) (value : Nat) : Option AcknowledgedCounterGenerator :=
  if g.ackWindow (value % kWindowSize) then
    none
  else
    let scanned := scan ((g.limit + kWindowSize) % 2 ^ 64) kWindowSize
      (Function.update g.ackWindow (value % kWindowSize) true) ((g.limit + 1) % 2 ^ 64)
    some { g with ackWindow := scanned.1, limit := (scanned.2 + 2 ^ 64 - 1) % 2 ^ 64 }

/-- The first value that is not counted as acknowledged. -/
def nextValue (g : AcknowledgedCounterGenerator) : Nat :=
  (g.limit + 1) % 2 ^ 64

end AcknowledgedCounterGenerator

/-- A workload: the generator, and the values that were drawn, acknowledged and picked as
keys of transactions. -/
structure History where
  gen : AcknowledgedCounterGenerator
  drawn : List Nat
  acked : List Nat
  picked : List Nat

/-- A workload before its first operation. -/
def History.new (start : Nat) : History where
  gen := AcknowledgedCounterGenerator.new start
  drawn := []
  acked := []
  picked := []

/-- What clients do with the generator: the two halves of `TransactionInsert`, and a turn of
the loop of `NextTransactionKeyNum` in which `key_chooser_` gave `key`. -/
inductive Event
  | next
  | acknowledge (value : Nat)
  | choose (key : Nat)

/-- One operation.  A value is acknowledged once, after it was drawn; a call of
`Acknowledge` that throws changes nothing and is no step. -/
def History.step (h : History) : Event → Option History
  | .next =>
      some { h with
        gen := h.gen.next.2
        drawn := h.gen.next.1 :: h.drawn }
  | .acknowledge value =>
      if value ∈ h.drawn ∧ value ∉ h.acked then
        (h.gen.acknowledge value).map fun gen =>
          { h with
            gen := gen
            acked := value :: h.acked }
      else
        none
  | .choose key =>
      if key ≤ h.gen.last then
        some { h with picked := key :: h.picked }
      else
        some h

open AcknowledgedCounterGenerator

theorem eq_of_slot_eq {n v v' : Nat} (hv : n ≤ v ∧ v < n + kWindowSize)
    (hv' : n ≤ v' ∧ v' < n + kWindowSize)
    (hslot : v % kWindowSize = v' % kWindowSize) : v = v' := by
  unfold kWindowSize at *
  omega

/-- What the loop does: it clears the slots of a run of set ones, up to the first slot that
is not set or to the end. -/
structure Scanned (window : Nat → Bool) (i upTo : Nat) (result : (Nat → Bool) × Nat) : Prop where
  le : i ≤ result.2
  le_upTo : i ≤ upTo → result.2 ≤ upTo
  wasSet : ∀ k, i ≤ k → k < result.2 → window (k % kWindowSize) = true
  stopped : result.2 < upTo → window (result.2 % kWindowSize) = false
  cleared : ∀ slot, result.1 slot = true ↔
    window slot = true ∧ ∀ k, i ≤ k → k < result.2 → k % kWindowSize ≠ slot

variable {window : Nat → Bool}

theorem scanned_refl {i upTo : Nat} (hstop : i < upTo → window (i % kWindowSize) = false) :
    Scanned window i upTo (window, i) where
  le := le_rfl
  le_upTo := id
  wasSet := fun _ hk hlt => absurd hlt (Nat.not_lt.mpr hk)
  stopped := hstop
  cleared := fun _ =>
    ⟨fun h => ⟨h, fun _ hk hlt => absurd hlt (Nat.not_lt.mpr hk)⟩, And.left⟩

theorem scan_spec {upTo fuel i : Nat} (hfuel : upTo ≤ fuel + i)
    (hwindow : upTo ≤ i + kWindowSize) : Scanned window i upTo (scan upTo fuel window i) := by
  induction fuel generalizing window i with
  | zero => exact scanned_refl fun hlt => by omega
  | succ fuel ih =>
    rw [scan]
    by_cases hlt : i < upTo
    · rw [if_pos hlt]
      split_ifs with hset
      · have hrest : Scanned (update window (i % kWindowSize) false) (i + 1) upTo _ :=
          ih (by omega) (by omega)
        generalize scan upTo fuel (update window (i % kWindowSize) false) (i + 1) =
          result at hrest ⊢
        -- the later slots of the window are other ones
        have hother : ∀ k, i + 1 ≤ k → k < upTo →
            update window (i % kWindowSize) false (k % kWindowSize) = window (k % kWindowSize) := by
          intro k hk hkt
          refine update_of_ne ?_ _ _
          intro hslot
          have := eq_of_slot_eq (n := i) ⟨by omega, by omega⟩ ⟨by omega, by omega⟩ hslot
          omega
        have hend := hrest.le_upTo hlt
        constructor
        · have := hrest.le
          omega
        · exact fun _ => hend
        · intro k hk hkt
          obtain hk | rfl := hk.lt_or_eq
          · rw [← hother k hk (by omega)]
            exact hrest.wasSet k hk hkt
          · exact hset
        · intro hstop
          rw [← hother _ hrest.le hstop]
          exact hrest.stopped hstop
        · intro slot
          rw [hrest.cleared slot]
          by_cases hslot : slot = i % kWindowSize
          · have hle := hrest.le
            subst hslot
            simp only [update_self, Bool.false_eq_true, false_and, false_iff, not_and, not_forall]
            exact fun _ => ⟨i, le_rfl, by omega, fun h => h rfl⟩
          · rw [update_of_ne hslot]
            refine and_congr_right fun _ => ⟨fun h k hk hkt => ?_, fun h k hk hkt => ?_⟩
            · obtain hk | rfl := hk.lt_or_eq
              · exact h k hk hkt
              · exact fun heq => hslot heq.symm
            · exact h k (by omega) hkt
      · exact scanned_refl fun _ => Bool.not_eq_true _ ▸ hset
    · rw [if_neg hlt]
      exact scanned_refl fun h => absurd h hlt

theorem acknowledge_cases {g g' : AcknowledgedCounterGenerator} {value : Nat}
    (h : g.acknowledge value = some g') : g.ackWindow (value % kWindowSize) = false ∧
      ∃ result : (Nat → Bool) × Nat,
        Scanned (update g.ackWindow (value % kWindowSize) true) g.nextValue
          ((g.limit + kWindowSize) % 2 ^ 64) result ∧
        g' = { g with ackWindow := result.1, limit := (result.2 + 2 ^ 64 - 1) % 2 ^ 64 } := by
  unfold acknowledge at h
  split_ifs at h with hset
  refine ⟨Bool.not_eq_true _ ▸ hset, _, scan_spec ?_ ?_, (some.inj h).symm⟩ <;>
  · unfold kWindowSize nextValue
    omega

theorem exists_acknowledge {g : AcknowledgedCounterGenerator} {value : Nat}
    (hfree : g.ackWindow (value % kWindowSize) = false) :
    ∃ g', g.acknowledge value = some g' ∧ g'.counter = g.counter := by
  unfold acknowledge
  rw [if_neg (Bool.not_eq_true _ ▸ hfree)]
  exact ⟨_, rfl, rfl⟩

/-- **When an operation is safe.**  An acknowledged value is in the window after `Last`, the
window does not wrap around 64 bits, and the value does not fill the last free slot.  If
`Last` is still `0 - 1`, the value is 0 and no key is picked. -/
def EventOk (h : History) : Event → Prop
  | .next => True
  | .acknowledge value =>
      h.gen.nextValue ≤ value ∧ value < h.gen.nextValue + kWindowSize ∧
        h.gen.nextValue + kWindowSize ≤ 2 ^ 64 ∧
        (h.gen.nextValue = 0 → value = 0) ∧
        ∃ free, h.gen.nextValue ≤ free ∧ free < h.gen.nextValue + kWindowSize ∧ free ≠ value ∧
          h.gen.ackWindow (free % kWindowSize) = false
  | .choose _ => h.gen.nextValue ≠ 0

/-- The generator agrees with what was acknowledged. -/
structure Tracks (start : Nat) (h : History) : Prop where
  limit_lt : h.gen.limit < 2 ^ 64
  start_le : start ≤ h.gen.nextValue
  acked_of_lt : ∀ v, start ≤ v → v < h.gen.nextValue → v ∈ h.acked
  next_not_acked : h.gen.nextValue ∉ h.acked
  acked_lt : ∀ v ∈ h.acked, v < h.gen.nextValue + kWindowSize
  window_iff : ∀ slot, h.gen.ackWindow slot = true ↔
    ∃ v ∈ h.acked, h.gen.nextValue ≤ v ∧ v % kWindowSize = slot
  none_acked : h.gen.nextValue = 0 → h.acked = []
  picked_acked : ∀ key ∈ h.picked, key < start ∨ key ∈ h.acked

variable {start : Nat}

theorem tracks_new (hstart : start < 2 ^ 64) : Tracks start (History.new start) := by
  have hnext : (History.new start).gen.nextValue = start := by
    simp only [History.new, new, nextValue]
    omega
  constructor
  · exact Nat.mod_lt _ (by decide)
  · exact hnext.ge
  · intro v hv hlt
    omega
  · exact not_mem_nil
  · nofun
  · intro slot
    constructor
    · nofun
    · rintro ⟨v, hv, -⟩
      cases hv
  · exact fun _ => rfl
  · nofun

variable {h : History}

/-- The slot of a value in the window tells whether it was acknowledged. -/
theorem window_value_iff {acked : List Nat} {n v : Nat} (hacked : ∀ v ∈ acked, v < n + kWindowSize)
    (hwindow : ∀ slot, window slot = true ↔ ∃ v ∈ acked, n ≤ v ∧ v % kWindowSize = slot)
    (hle : n ≤ v) (hlt : v < n + kWindowSize) : window (v % kWindowSize) = true ↔ v ∈ acked := by
  rw [hwindow]
  constructor
  · rintro ⟨v', hv', hle', hslot⟩
    have heq : v' = v := eq_of_slot_eq ⟨hle', hacked v' hv'⟩ ⟨hle, hlt⟩ hslot
    exact heq ▸ hv'
  · exact fun hv => ⟨v, hv, hle, rfl⟩

variable {gen : AcknowledgedCounterGenerator}

/-- **A safe acknowledgement** keeps the generator right. -/
theorem Tracks.acknowledge {start value : Nat} (ht : Tracks start h)
    (hok : EventOk h (.acknowledge value)) (hgen : h.gen.acknowledge value = some gen) :
    Tracks start { h with gen := gen, acked := value :: h.acked } := by
  obtain ⟨hle, hlt, hwrap, hzero, free, hfree, hfreelt, hne, hunset⟩ := hok
  obtain ⟨-, result, hscan, rfl⟩ := acknowledge_cases hgen
  have hupTo : (h.gen.limit + kWindowSize) % 2 ^ 64 = h.gen.nextValue + kWindowSize - 1 := by
    unfold nextValue kWindowSize at *
    omega
  rw [hupTo] at hscan
  have hend := hscan.le_upTo (by unfold kWindowSize; omega)
  have hstart := hscan.le
  have hacked : ∀ v ∈ value :: h.acked, v < h.gen.nextValue + kWindowSize :=
    forall_mem_cons.mpr ⟨hlt, ht.acked_lt⟩
  -- the slots of the window after the value was entered
  have hentered : ∀ slot, update h.gen.ackWindow (value % kWindowSize) true slot = true ↔
      ∃ v ∈ value :: h.acked, h.gen.nextValue ≤ v ∧ v % kWindowSize = slot := by
    intro slot
    by_cases hslot : slot = value % kWindowSize
    · rw [hslot, update_self]
      exact iff_of_true rfl ⟨value, mem_cons_self, hle, rfl⟩
    · rw [update_of_ne hslot, ht.window_iff]
      simp [Ne.symm hslot]
  have hnext : nextValue
      { h.gen with ackWindow := result.1, limit := (result.2 + 2 ^ 64 - 1) % 2 ^ 64 } =
        result.2 := by
    unfold nextValue kWindowSize at *
    dsimp only
    omega
  have hnotAcked : result.2 ∉ value :: h.acked := by
    intro hmem
    have hset := (window_value_iff hacked hentered hstart
      (by unfold kWindowSize at *; omega)).mpr hmem
    by_cases hstop : result.2 < h.gen.nextValue + kWindowSize - 1
    · rw [hscan.stopped hstop] at hset
      cases hset
    · -- the loop ran to its end, so the free slot is the one after it
      have hfreeNot : free ∉ value :: h.acked := by
        rw [mem_cons, ← window_value_iff ht.acked_lt ht.window_iff hfree hfreelt, hunset]
        simp [hne]
      have hfreeEq : free = result.2 := by
        by_contra hother
        exact hfreeNot ((window_value_iff hacked hentered hfree hfreelt).mp
          (hscan.wasSet free hfree (by omega)))
      exact hfreeNot (hfreeEq ▸ hmem)
  constructor
  · exact Nat.mod_lt _ (by decide)
  · rw [hnext]
    exact ht.start_le.trans hstart
  · intro v hv hvt
    rw [hnext] at hvt
    by_cases hold : v < h.gen.nextValue
    · exact mem_cons_of_mem _ (ht.acked_of_lt v hv hold)
    · exact (window_value_iff hacked hentered (by omega) (by unfold kWindowSize at *; omega)).mp
        (hscan.wasSet v (by omega) hvt)
  · rw [hnext]
    exact hnotAcked
  · intro v hv
    rw [hnext]
    have := hacked v hv
    omega
  · intro slot
    rw [hnext]
    rw [hscan.cleared slot, hentered]
    constructor
    · rintro ⟨⟨v, hv, hvle, hvslot⟩, hkept⟩
      refine ⟨v, hv, ?_, hvslot⟩
      by_contra hcleared
      exact hkept v hvle (by omega) hvslot
    · rintro ⟨v, hv, hvle, rfl⟩
      refine ⟨⟨v, hv, by omega, rfl⟩, ?_⟩
      intro k hk hkt hslot
      have heq : k = v := eq_of_slot_eq ⟨hk, by omega⟩ ⟨by omega, hacked v hv⟩ hslot
      omega
  · -- the value 0 itself was acknowledged
    rw [hnext]
    intro hresult
    have hvalue := hzero (by omega)
    subst hvalue
    exact absurd mem_cons_self (hresult ▸ hnotAcked)
  · intro key hkey
    exact (ht.picked_acked key hkey).imp_right (mem_cons_of_mem _)

theorem Tracks.step {h h' : History} {e : Event} (ht : Tracks start h) (hok : EventOk h e)
    (hstep : h.step e = some h') : Tracks start h' := by
  cases e with
  | next =>
    cases hstep
    exact ⟨ht.limit_lt, ht.start_le, ht.acked_of_lt, ht.next_not_acked, ht.acked_lt,
      ht.window_iff, ht.none_acked, ht.picked_acked⟩
  | acknowledge value =>
    unfold History.step at hstep
    dsimp only at hstep
    split_ifs at hstep
    obtain ⟨gen, hgen, rfl⟩ := map_eq_some_iff.mp hstep
    exact ht.acknowledge hok hgen
  | choose key =>
    unfold History.step at hstep
    dsimp only at hstep
    split_ifs at hstep with hkey
    · cases hstep
      refine ⟨ht.limit_lt, ht.start_le, ht.acked_of_lt, ht.next_not_acked, ht.acked_lt,
        ht.window_iff, ht.none_acked, ?_⟩
      refine forall_mem_cons.mpr ⟨?_, ht.picked_acked⟩
      by_cases hstart : key < start
      · exact .inl hstart
      · -- `Last` did not wrap, so the key was acknowledged
        refine .inr (ht.acked_of_lt key (by omega) ?_)
        have hlimit := ht.limit_lt
        have hnext : h.gen.nextValue ≠ 0 := hok
        unfold last nextValue at *
        omega
    · cases hstep
      exact ht

/-- **In a safe run `Last` is the end of the acknowledged values**, once there is one, and
all keys that were picked were loaded or acknowledged. -/
theorem last_isGreatest
    (start : Nat)
    (hstart : start < 2 ^ 64)
    (h : History)
    (hrun : Runs History.step EventOk (History.new start) h) : (h.acked ≠ [] →
      IsGreatest {l | start ≤ l + 1 ∧ ∀ v, start ≤ v → v ≤ l → v ∈ h.acked} h.gen.last) ∧
    ∀ key ∈ h.picked, key < start ∨ key ∈ h.acked := by
  have ht : Tracks start h := hrun.invariant (tracks_new hstart) fun _ _ _ => Tracks.step
  refine ⟨?_, ht.picked_acked⟩
  intro hacked
  have hlast : h.gen.last + 1 = h.gen.nextValue := by
    have hnext : h.gen.nextValue ≠ 0 := fun hzero => hacked (ht.none_acked hzero)
    have hlimit := ht.limit_lt
    unfold last nextValue at *
    omega
  constructor
  · refine ⟨hlast ▸ ht.start_le, fun v hv hle => ht.acked_of_lt v hv (by omega)⟩
  · rintro l ⟨-, hl⟩
    by_contra hlt
    exact ht.next_not_acked (hl _ ht.start_le (by omega))

/-- Start 5: 5 and 6 are drawn, 6 and then 5 are acknowledged. -/
theorem last_isGreatest_five : ∃ h, Runs History.step EventOk (History.new 5) h ∧
      IsGreatest {l | 5 ≤ l + 1 ∧ ∀ v, 5 ≤ v → v ≤ l → v ∈ h.acked} h.gen.last := by
  have hrun : Runs History.step EventOk (History.new 5) _ :=
    ((((Runs.nil.snoc (i := .next) trivial rfl).snoc (i := .next) trivial rfl).snoc
      (i := .acknowledge 6) ⟨by decide, by decide, by decide, by decide, 7, by decide⟩ rfl).snoc
      (i := .acknowledge 5) ⟨by decide, by decide, by decide, by decide, 7, by decide⟩ rfl)
  exact ⟨_, hrun, (last_isGreatest 5 (by decide) _ hrun).1 (cons_ne_nil _ _)⟩

/-- Client A drew 1 and is slow; client B drew and acknowledged the `k` values after it. -/
structure AheadOf (k : Nat) (h : History) : Prop where
  run : Runs History.step EventOk (History.new 1) h
  counter_eq : h.gen.counter = k + 2
  one_drawn : 1 ∈ h.drawn
  acked_iff : ∀ v, v ∈ h.acked ↔ 2 ≤ v ∧ v ≤ k + 1

variable {k : Nat}

theorem AheadOf.tracks (ha : AheadOf k h) : Tracks 1 h :=
  ha.run.invariant (tracks_new (by decide)) fun _ _ _ => Tracks.step

theorem AheadOf.nextValue_eq (ha : AheadOf k h) : h.gen.nextValue = 1 := by
  have hle := ha.tracks.start_le
  by_contra hne
  have hone := (ha.acked_iff 1).mp (ha.tracks.acked_of_lt 1 le_rfl (by omega))
  omega

/-- The slots of the values that were not acknowledged are free, also that of 1 + 65536. -/
theorem AheadOf.slot_free {k v : Nat} (ha : AheadOf k h) (hk : k < kWindowSize)
    (hv : v = 1 ∨ k + 2 = v) : h.gen.ackWindow (v % kWindowSize) = false := by
  rw [← Bool.not_eq_true, ha.tracks.window_iff]
  rintro ⟨v', hv', -, hslot⟩
  have hrange := (ha.acked_iff v').mp hv'
  unfold kWindowSize at *
  omega

/-- Client B draws a value. -/
def History.drawNext (h : History) : History :=
  { h with
    gen := h.gen.next.2
    drawn := h.gen.next.1 :: h.drawn }

/-- Client B can acknowledge the value that it drew. -/
theorem AheadOf.exists_acknowledge (ha : AheadOf k h) (hk : k < kWindowSize) :
    ∃ gen, h.drawNext.gen.acknowledge (k + 2) = some gen ∧ gen.counter = k + 3 ∧
      h.drawNext.step (.acknowledge (k + 2)) =
        some { h.drawNext with gen := gen, acked := (k + 2) :: h.acked } := by
  obtain ⟨gen, hgen, hcounter⟩ := Ycsb.exists_acknowledge (g := h.drawNext.gen)
    (ha.slot_free hk (.inr rfl))
  refine ⟨gen, hgen, ?_, ?_⟩
  · rw [hcounter]
    simp only [History.drawNext, AcknowledgedCounterGenerator.next, ha.counter_eq]
    unfold kWindowSize at hk
    omega
  · have hdrawn : k + 2 ∈ h.drawNext.drawn := by
      rw [← ha.counter_eq]
      exact mem_cons_self
    have hnew : k + 2 ∉ h.drawNext.acked := by
      intro hmem
      have := (ha.acked_iff _).mp hmem
      omega
    unfold History.step
    dsimp only
    rw [if_pos ⟨hdrawn, hnew⟩, hgen]
    rfl

theorem AheadOf.exists_succ (ha : AheadOf k h)
    (hk : k + 1 < kWindowSize) : ∃ h', AheadOf (k + 1) h' := by
  obtain ⟨gen, hgen, hcounter, hstep⟩ := ha.exists_acknowledge (by omega)
  have hdraw : Runs History.step EventOk (History.new 1) h.drawNext :=
    ha.run.snoc (i := .next) trivial rfl
  have hok : EventOk h.drawNext (.acknowledge (k + 2)) := by
    have hnext : h.drawNext.gen.nextValue = 1 := ha.nextValue_eq
    have hfree : h.drawNext.gen.ackWindow (1 % kWindowSize) = false :=
      ha.slot_free (by omega) (.inl rfl)
    simp only [EventOk, hnext]
    exact ⟨by omega, by omega, by decide, by omega, 1, by omega, by omega, by omega, hfree⟩
  refine ⟨_, hdraw.snoc hok hstep, hcounter, mem_cons_of_mem _ ha.one_drawn, ?_⟩
  intro v
  rw [mem_cons, ha.acked_iff]
  omega

/-- Client B gets 65535 values ahead of client A. -/
theorem exists_aheadOf (k : Nat) (hk : k < kWindowSize) : ∃ h, AheadOf k h := by
  induction k with
  | zero =>
    refine ⟨_, Runs.nil.snoc (i := .next) trivial rfl, rfl, mem_cons_self, ?_⟩
    intro v
    constructor
    · nofun
    · omega
  | succ k ih =>
    obtain ⟨h, ha⟩ := ih (by omega)
    exact ha.exists_succ hk

/-- Client B comes to the slot of 1, and 1 counts as acknowledged. -/
theorem AheadOf.one_le_last (ha : AheadOf k h) (hk : k + 1 = kWindowSize)
    (hgen : h.drawNext.gen.acknowledge (k + 2) = some gen) : 1 ≤ gen.last := by
  have hnext : h.drawNext.gen.nextValue = 1 := ha.nextValue_eq
  obtain ⟨-, result, hscan, hresult⟩ := acknowledge_cases hgen
  have hupTo : (h.drawNext.gen.limit + kWindowSize) % 2 ^ 64 = kWindowSize := by
    unfold nextValue at hnext
    unfold kWindowSize
    omega
  have hslot : (k + 2) % kWindowSize = 1 % kWindowSize := by
    rw [show k + 2 = 1 + kWindowSize by omega, Nat.add_mod_right]
  have hwindow : 1 < kWindowSize := by decide
  rw [hnext, hupTo, hslot] at hscan
  have hend := hscan.le_upTo hwindow.le
  have hpast : result.2 ≠ 1 := by
    intro heq
    have hstop := hscan.stopped (heq ▸ hwindow)
    rw [heq, update_self] at hstop
    cases hstop
  simp only [hresult, last]
  omega

theorem AheadOf.exists_picked (ha : AheadOf k h) (hk : k + 1 = kWindowSize) :
    ∃ h', Runs History.step (fun _ _ => True) (History.new 1) h' ∧ h'.acked ≠ [] ∧
      1 ≤ h'.gen.last ∧ 1 ∈ h'.drawn ∧ 1 ∉ h'.acked ∧ 1 ∈ h'.picked := by
  obtain ⟨gen, hgen, -, hstep⟩ := ha.exists_acknowledge (by omega)
  have hlast := ha.one_le_last hk hgen
  have hone : 1 ∉ (k + 2) :: h.acked := by
    rw [mem_cons, ha.acked_iff]
    omega
  have hrun : Runs History.step (fun _ _ => True) (History.new 1) h :=
    ha.run.mono fun _ _ _ => trivial
  have hdraw : Runs History.step (fun _ _ => True) (History.new 1) h.drawNext :=
    hrun.snoc (i := .next) trivial rfl
  exact ⟨_, (hdraw.snoc trivial hstep).snoc (i := .choose 1) trivial (if_pos hlast),
    cons_ne_nil _ _, hlast, mem_cons_of_mem _ ha.one_drawn, hone, mem_cons_self⟩

/-- **Client B acknowledges 65537, in the slot of 1**: `Last` goes past 1, which was not
acknowledged, and 1 is picked as a key. -/
theorem sharedSlot_runs_ahead :
    ∃ h, Runs History.step (fun _ _ => True) (History.new 1) h ∧ h.acked ≠ [] ∧
      ¬ IsGreatest {l | 1 ≤ l + 1 ∧ ∀ v, 1 ≤ v → v ≤ l → v ∈ h.acked} h.gen.last ∧
      1 ∈ h.drawn ∧ 1 ∉ h.acked ∧ 1 ∈ h.picked := by
  obtain ⟨h, ha⟩ := exists_aheadOf (kWindowSize - 1) (by decide)
  obtain ⟨h', hrun, hacked, hlast, hdrawn, hone, hpicked⟩ := ha.exists_picked (by decide)
  refine ⟨h', hrun, hacked, ?_, hdrawn, hone, hpicked⟩
  intro hgreatest
  exact hone (hgreatest.1.2 1 le_rfl hlast)

end

end HotTLBApps.Ycsb
