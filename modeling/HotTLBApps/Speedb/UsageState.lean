import HotTLBApps.Lib.Runs
import Mathlib.Tactic

/-!
# The usage state of the write buffer manager

`ReserveMem`, `FreeMem` and `UpdateUsageState` of `write_buffer_manager.cc`, for a manager
that is enabled.  The state and the delay factor are coded in one number: 0 is
`kNoneCodedUsageState`, 101 is `kStopCodedUsageState`, and between them are the factors.  A
factor is computed again only when the memory crosses a multiple of the step.

The threshold and the ratio behind a factor are products and quotients of `double`s.  A
`Manager` has them as they come out; `Options.exact` is the one without rounding.

* `calcNewCodedUsageState_spec`: what a call of `CalcNewCodedUsageState` returns;
* `Buffer.Follows.step`: the stored factor is the one of a memory in the same step;
* `Shared.Inv.step`: threads that leave the memory in its range while others are at work.
-/

namespace HotTLBApps.Speedb
namespace WriteBuffer

open Function

inductive UsageState
  | kNone
  | kDelay
  | kStop
  deriving DecidableEq

structure Options where
  bufferSize : Nat
  percent : Nat
  allowStall : Bool

/-- `start_delay_percent_`, as the constructor leaves it. -/
def Options.startDelayPercent (o : Options) : Nat :=
  if o.percent ≥ 100 then 70 else o.percent

def Options.usageStartDelayThreshold (o : Options) : Nat :=
  o.startDelayPercent * o.bufferSize / 100

/-- The quota of a manager, its threshold, and the share of the memory above the threshold in
what is there above it, in percent. -/
structure Manager where
  bufferSize : Nat
  usageStartDelayThreshold : Nat
  usedPercent : Nat → Nat
  threshold_le : usageStartDelayThreshold ≤ bufferSize
  usedPercent_le : ∀ memory < bufferSize, usedPercent memory ≤ 100

namespace Manager

variable (w : Manager)

def stepSize : Nat :=
  (w.bufferSize - w.usageStartDelayThreshold) / 100

/-- The state that belongs to an amount of memory. -/
def stateOf (memory : Nat) : UsageState :=
  if memory < w.usageStartDelayThreshold then .kNone
  else if memory ≥ w.bufferSize then .kStop
  else .kDelay

def calcDelayFactor (memory : Nat) : Nat :=
  max 1 (w.usedPercent memory)

end Manager

/-- A manager that computes without rounding. -/
def Options.exact (o : Options) : Manager where
  bufferSize := o.bufferSize
  usageStartDelayThreshold := o.usageStartDelayThreshold
  usedPercent memory := (memory - o.usageStartDelayThreshold) * 100 /
    (o.bufferSize - o.usageStartDelayThreshold)
  threshold_le := by
    have hpercent : o.startDelayPercent ≤ 100 := by
      unfold Options.startDelayPercent
      split_ifs <;> omega
    exact Nat.div_le_of_le_mul (Nat.mul_le_mul_right _ hpercent)
  usedPercent_le := fun memory hmemory => Nat.div_le_of_le_mul (by omega)

def calcCodedUsageState : UsageState → (delayFactor : Nat) → Nat
  | .kNone, _ => 0
  | .kDelay, delayFactor => if delayFactor ≤ 0 then 1 else min delayFactor 101
  | .kStop, _ => 101

def parseCodedUsageState (coded : Nat) : UsageState × Nat :=
  if coded ≤ 0 then (.kNone, 0) else if coded < 101 then (.kDelay, coded) else (.kStop, 100)

def stateIn (coded : Nat) : UsageState :=
  (parseCodedUsageState coded).1

/-- `CalcNewCodedUsageState`; `none` is a division by a step of zero. -/
def calcNewCodedUsageState
    (w : Manager) (memory : Nat) (changed : Int) (coded : Nat) : Option Nat :=
  if w.stateOf memory = .kDelay then
    if stateIn coded ≠ .kDelay ∨ changed = 0 then
      some (calcCodedUsageState .kDelay (w.calcDelayFactor memory))
    else if w.stepSize = 0 then none
    else if ((memory - changed) % 2 ^ 64).toNat / w.stepSize ≠ memory / w.stepSize then
      some (calcCodedUsageState .kDelay (w.calcDelayFactor memory))
    else some (calcCodedUsageState .kDelay (parseCodedUsageState coded).2)
  else some (calcCodedUsageState (w.stateOf memory) (parseCodedUsageState coded).2)

inductive Call
  | reserveMem (mem : Nat)
  | freeMem (mem : Nat)

/-- `memory_changed_size`. -/
def Call.changed : Call → Int
  | .reserveMem mem => mem
  | .freeMem mem => -mem

/-- `memory_used_` after the call; it has 64 bits. -/
def Call.apply (c : Call) (memory : Nat) : Nat :=
  ((memory + c.changed) % 2 ^ 64).toNat

variable {w : Manager} {o : Options} {memory coded coded' : Nat} {changed : Int}

theorem stateOf_eq_kDelay :
    w.stateOf memory = .kDelay ↔ w.usageStartDelayThreshold ≤ memory ∧ memory < w.bufferSize := by
  unfold Manager.stateOf
  split_ifs <;> simp <;> omega

theorem calcDelayFactor_bounds (h : w.stateOf memory = .kDelay) :
    1 ≤ w.calcDelayFactor memory ∧ w.calcDelayFactor memory ≤ 100 :=
  ⟨le_max_left _ _, max_le (by decide) (w.usedPercent_le memory (stateOf_eq_kDelay.mp h).2)⟩

theorem calcDelayFactor_exact_le (h : o.exact.stateOf memory = .kDelay) :
    o.exact.calcDelayFactor memory ≤ 99 := by
  have hrange := stateOf_eq_kDelay.mp h
  dsimp only [Options.exact] at hrange
  refine max_le (by decide) (Nat.lt_succ_iff.mp ?_)
  rw [Options.exact, Nat.div_lt_iff_lt_mul (by omega)]
  omega

theorem stateIn_eq_kDelay : stateIn coded = .kDelay ↔ 1 ≤ coded ∧ coded ≤ 100 := by
  unfold stateIn parseCodedUsageState
  split_ifs <;> simp <;> omega

theorem parse_snd (h : stateIn coded = .kDelay) :
    (parseCodedUsageState coded).2 = coded := by
  have hcoded := stateIn_eq_kDelay.mp h
  rw [parseCodedUsageState, if_neg (by omega), if_pos (by omega)]

theorem calcCoded_kDelay {f : Nat} (h : 1 ≤ f ∧ f ≤ 100) : calcCodedUsageState .kDelay f = f := by
  rw [calcCodedUsageState, if_neg (by omega), min_eq_left (by omega)]

/-- **The new code** is the one of the memory that was seen; a factor that is kept is the
one of a memory in the same step. -/
theorem calcNewCodedUsageState_spec
    (h : calcNewCodedUsageState w memory changed coded = some coded') :
    stateIn coded' = w.stateOf memory ∧
      (w.stateOf memory = .kDelay → coded' = w.calcDelayFactor memory ∨
        changed ≠ 0 ∧ stateIn coded = .kDelay ∧ coded' = coded ∧
          ((memory - changed) % 2 ^ 64).toNat / w.stepSize = memory / w.stepSize) := by
  unfold calcNewCodedUsageState at h
  by_cases hdelay : w.stateOf memory = .kDelay
  · have hbounds := calcDelayFactor_bounds hdelay
    rw [if_pos hdelay, calcCoded_kDelay ⟨hbounds.1, by omega⟩] at h
    split_ifs at h with hold hzero hstep
    · cases h
      exact ⟨hdelay ▸ stateIn_eq_kDelay.mpr (by omega), fun _ => .inl rfl⟩
    · cases h
      exact ⟨hdelay ▸ stateIn_eq_kDelay.mpr (by omega), fun _ => .inl rfl⟩
    · push Not at hold hstep
      rw [parse_snd hold.1, calcCoded_kDelay (stateIn_eq_kDelay.mp hold.1)] at h
      cases h
      exact ⟨hold.1.trans hdelay.symm, fun _ => .inr ⟨hold.2, hold.1, rfl, hstep⟩⟩
  · rw [if_neg hdelay] at h
    cases h
    refine ⟨?_, fun h => absurd h hdelay⟩
    cases hstate : w.stateOf memory with
    | kNone => rfl
    | kDelay => exact absurd hstate hdelay
    | kStop => rfl

/-- The memory and the code. -/
structure Buffer where
  memory : Nat
  coded : Nat

/-- A call that is not disturbed by another one; `spurious` tells whether its weak
compare-and-swap, if it makes one, fails at first, so that the code is computed again. -/
def Buffer.step (o : Options) (b : Buffer) : Call × Bool → Option Buffer
  | (c, spurious) =>
      if o.allowStall then
        (calcNewCodedUsageState o.exact (c.apply b.memory) c.changed b.coded).bind fun coded =>
          if coded ≠ b.coded ∧ spurious then
            (calcNewCodedUsageState o.exact (c.apply b.memory) 0 b.coded).map
              (⟨c.apply b.memory, ·⟩)
          else some ⟨c.apply b.memory, coded⟩
      else some ⟨c.apply b.memory, b.coded⟩

/-- A factor that is stored belongs to a memory in the same step. -/
structure Buffer.Follows (w : Manager) (b : Buffer) : Prop where
  memory_lt : b.memory < 2 ^ 64
  factor : stateIn b.coded = .kDelay → ∃ m, w.stateOf m = .kDelay ∧
    m / w.stepSize = b.memory / w.stepSize ∧ b.coded = w.calcDelayFactor m

variable {b : Buffer}

theorem exists_calcNewCodedUsageState (hstep : w.stepSize ≠ 0) (memory : Nat) (changed : Int)
    (coded : Nat) : ∃ coded', calcNewCodedUsageState w memory changed coded = some coded' := by
  unfold calcNewCodedUsageState
  split_ifs <;> exact ⟨_, rfl⟩

/-- The code that a call computes at first, or again, follows the memory. -/
theorem Buffer.Follows.calc
    (h : b.Follows w)
    {c : Call}
    (hchanged : changed = c.changed ∨ changed = 0)
    (hcoded : calcNewCodedUsageState w (c.apply b.memory) changed b.coded = some coded) :
    Buffer.Follows w ⟨c.apply b.memory, coded⟩ := by
  obtain ⟨hstate, hfactor⟩ := calcNewCodedUsageState_spec hcoded
  refine ⟨?_, fun hdelay => ?_⟩
  · dsimp only [Call.apply]
    omega
  · rw [hstate] at hdelay
    obtain hnew | ⟨hzero, hold, rfl, hsame⟩ := hfactor hdelay
    · exact ⟨_, hdelay, rfl, hnew⟩
    · obtain ⟨m, hm, hbucket, hfactor⟩ := h.factor hold
      have hbefore : ((c.apply b.memory - c.changed) % 2 ^ 64).toNat = b.memory := by
        have hlt := h.memory_lt
        unfold Call.apply
        omega
      rw [hchanged.resolve_right hzero, hbefore] at hsame
      exact ⟨m, hm, hbucket.trans hsame, hfactor⟩

theorem Buffer.Follows.step (h : b.Follows o.exact) (hstall : o.allowStall = true)
    (hstep : o.exact.stepSize ≠ 0) (c : Call × Bool) : ∃ b', b.step o c = some b' ∧
      b'.Follows o.exact ∧ stateIn b'.coded = o.exact.stateOf b'.memory := by
  rcases c with ⟨c, spurious⟩
  have hexists := exists_calcNewCodedUsageState hstep (c.apply b.memory)
  rcases hexists c.changed b.coded with ⟨coded, hcoded⟩
  rcases hexists 0 b.coded with ⟨coded₀, hcoded₀⟩
  simp only [Buffer.step, if_pos hstall, hcoded, hcoded₀, Option.bind_some, Option.map_some]
  split_ifs with hagain
  · exact ⟨_, rfl, h.calc (.inr rfl) hcoded₀, (calcNewCodedUsageState_spec hcoded₀).1⟩
  · exact ⟨_, rfl, h.calc (.inl rfl) hcoded, (calcNewCodedUsageState_spec hcoded).1⟩

/-- Memories in one step have neighbouring factors. -/
theorem calcDelayFactor_le {m m' : Nat} (hstep : o.exact.stepSize ≠ 0)
    (h : m / o.exact.stepSize = m' / o.exact.stepSize) :
    o.exact.calcDelayFactor m ≤ o.exact.calcDelayFactor m' + 1 := by
  have hclose : m < m' + o.exact.stepSize := by
    have := Nat.div_add_mod m o.exact.stepSize
    have := Nat.div_add_mod m' o.exact.stepSize
    have := Nat.mod_lt m (Nat.pos_of_ne_zero hstep)
    rw [h] at *
    omega
  have hsize : o.exact.stepSize * 100 ≤ o.bufferSize - o.usageStartDelayThreshold :=
    Nat.div_mul_le_self _ _
  have hpos : 0 < o.bufferSize - o.usageStartDelayThreshold := by omega
  have hdiv := Nat.div_le_div_right (c := o.bufferSize - o.usageStartDelayThreshold)
    (show (m - o.usageStartDelayThreshold) * 100 ≤ (m' - o.usageStartDelayThreshold) * 100 +
        (o.bufferSize - o.usageStartDelayThreshold) by omega)
  rw [Nat.add_div_right _ hpos] at hdiv
  simp only [Manager.calcDelayFactor, Options.exact]
  omega

/-- **The state and the factor follow the memory**, for a manager that may stall. -/
theorem usage_state_follows
    (o : Options)
    (hstall : o.allowStall = true)
    (hroom : 100 ≤ o.bufferSize - o.usageStartDelayThreshold)
    (calls : List (Call × Bool))
    (hstart : 0 < o.usageStartDelayThreshold ∨ calls ≠ []) :
    ∃ b, calls.foldlM (Buffer.step o) ⟨0, 0⟩ = some b ∧
      stateIn b.coded = o.exact.stateOf b.memory ∧
      (o.exact.stateOf b.memory = .kDelay →
        b.coded ≤ o.exact.calcDelayFactor b.memory + 1 ∧
          o.exact.calcDelayFactor b.memory ≤ b.coded + 1 ∧ 1 ≤ b.coded ∧ b.coded ≤ 99) := by
  have hstep : o.exact.stepSize ≠ 0 := by
    simp only [Manager.stepSize, Options.exact]
    omega
  have hrun : ∀ (calls : List (Call × Bool)) (b : Buffer), b.Follows o.exact →
      (calls = [] → stateIn b.coded = o.exact.stateOf b.memory) →
      ∃ b', calls.foldlM (Buffer.step o) b = some b' ∧ b'.Follows o.exact ∧
        stateIn b'.coded = o.exact.stateOf b'.memory := by
    intro calls
    induction calls with
    | nil => exact fun b hb hstate => ⟨b, rfl, hb, hstate rfl⟩
    | cons c calls ih =>
      intro b hb _
      obtain ⟨b₁, hb₁, hfollows, hstate⟩ := hb.step hstall hstep c
      obtain ⟨b', hb', h'⟩ := ih b₁ hfollows fun _ => hstate
      exact ⟨b', by rw [List.foldlM_cons, hb₁]; exact hb', h'⟩
  obtain ⟨b, hb, hfollows, hstate⟩ := hrun calls ⟨0, 0⟩ ⟨by decide, nofun⟩ fun hnil =>
    (if_pos (hstart.resolve_right (not_not.mpr hnil))).symm
  refine ⟨b, hb, hstate, fun hdelay => ?_⟩
  obtain ⟨m, hm, hsame, hfactor⟩ := hfollows.factor (hstate.trans hdelay)
  have hle := calcDelayFactor_le hstep hsame
  have hge := calcDelayFactor_le hstep hsame.symm
  have hbounds := calcDelayFactor_bounds hm
  have hle' := calcDelayFactor_exact_le hm
  omega

/-- A quota of 1000 bytes of which 800 are reserved in two calls. -/
theorem usage_state_follows_thousand :
    ∃ b, [(Call.reserveMem 750, false), (.reserveMem 50, true)].foldlM
        (Buffer.step ⟨1000, 70, true⟩) ⟨0, 0⟩ = some b ∧
      stateIn b.coded = (Options.mk 1000 70 true).exact.stateOf b.memory := by
  obtain ⟨b, hb, hstate, -⟩ :=
    usage_state_follows ⟨1000, 70, true⟩ rfl (by decide)
      [(.reserveMem 750, false), (.reserveMem 50, true)] (.inl (by decide))
  exact ⟨b, hb, hstate⟩

/-- Without stalls the state is not updated, and before the first call it is `kNone` even if
the threshold is zero. -/
theorem usage_state_not_updated :
    (∃ b, [(Call.reserveMem 1000, false)].foldlM (Buffer.step ⟨1000, 70, false⟩) ⟨0, 0⟩ = some b ∧
      stateIn b.coded ≠ (Options.mk 1000 70 false).exact.stateOf b.memory) ∧
      stateIn 0 ≠ (Options.mk 1000 0 true).exact.stateOf 0 :=
  ⟨⟨_, rfl, by decide⟩, by decide⟩

/-- Where a thread is in a call: before the load of the state, before its compare-and-swap,
or after one that failed, with what it has read. -/
inductive Phase
  | idle
  | load (memory : Nat) (changed : Int)
  | install (memory : Nat) (changed : Int) (coded : Nat)
  | retry (coded : Nat)
  deriving DecidableEq

structure Shared (T : Type) where
  memory : Nat
  coded : Nat
  phase : T → Phase

/-- The steps of a thread; a weak compare-and-swap may fail without a reason. -/
inductive ThreadStep (T : Type)
  | call (t : T) (c : Call)
  | load (t : T)
  | install (t : T) (spurious : Bool)
  | retry (t : T)

namespace Shared

variable {T : Type} [DecidableEq T]

def new : Shared T :=
  ⟨0, 0, fun _ => .idle⟩

/-- One step, with stalls allowed; `none` if it is not possible or divides by zero. -/
def step (w : Manager) (s : Shared T) : ThreadStep T → Option (Shared T)
  | .call t c =>
      match s.phase t with
      | .idle => some { s with
          memory := c.apply s.memory
          phase := update s.phase t (.load (c.apply s.memory) c.changed) }
      | _ => none
  | .load t =>
      match s.phase t with
      | .load memory changed =>
          some { s with phase := update s.phase t (.install memory changed s.coded) }
      | _ => none
  | .install t spurious =>
      match s.phase t with
      | .install memory changed coded =>
          (calcNewCodedUsageState w memory changed coded).map fun coded' =>
            if coded = coded' then { s with phase := update s.phase t .idle }
            else if s.coded = coded ∧ !spurious then
              { s with coded := coded', phase := update s.phase t .idle }
            else { s with phase := update s.phase t (.retry s.coded) }
      | _ => none
  | .retry t =>
      match s.phase t with
      | .retry coded => some { s with phase := update s.phase t (.install s.memory 0 coded) }
      | _ => none

/-- A call takes the memory to another range only while no call is in progress. -/
def CrossesAlone (w : Manager) (s : Shared T) : ThreadStep T → Prop
  | .call _ c => w.stateOf (c.apply s.memory) = w.stateOf s.memory ∨ ∀ t, s.phase t = .idle
  | _ => True

instance [Fintype T] (w : Manager) (s : Shared T) (e : ThreadStep T) :
    Decidable (CrossesAlone w s e) :=
  match e with
  | .call _ _ => inferInstanceAs (Decidable (_ ∨ _))
  | .load _ | .install _ _ | .retry _ => inferInstanceAs (Decidable True)

/-- A thread has seen a memory of the present range, and if it has seen a state of that range,
then the state is still of that range. -/
def Agrees (w : Manager) (range : UsageState) (current : Nat) : Phase → Prop
  | .idle => True
  | .load memory _ => w.stateOf memory = range
  | .install memory _ coded => w.stateOf memory = range ∧
      (stateIn coded = range → stateIn current = range)
  | .retry coded =>
      stateIn coded = range → stateIn current = range

/-- **The invariant of a run.**  In a quiescent state the code is the one of the memory. -/
structure Inv (w : Manager) (s : Shared T) : Prop where
  agrees : ∀ t, Agrees w (w.stateOf s.memory) s.coded (s.phase t)
  settled : (∀ t, s.phase t = .idle) → stateIn s.coded = w.stateOf s.memory

/-- What is installed is of the range that the threads have seen. -/
theorem Agrees.install {range : UsageState} {current new : Nat} {p : Phase}
    (h : Agrees w range current p) (hnew : stateIn new = range) :
    Agrees w range new p := by
  cases p with
  | idle => trivial
  | load memory changed => exact h
  | install memory changed coded => exact ⟨h.1, fun _ => hnew⟩
  | retry coded => exact fun _ => hnew

variable {s s' : Shared T}

theorem Inv.move (h : Inv w s) (t : T) {p : Phase} (hbusy : p ≠ .idle)
    (hp : Agrees w (w.stateOf s.memory) s.coded p) :
    Inv w { s with phase := update s.phase t p } where
  agrees := (forall_update_iff s.phase fun _ => Agrees w _ _).mpr ⟨hp, fun t' _ => h.agrees t'⟩
  settled hidle := absurd (update_self t p s.phase ▸ hidle t) hbusy

theorem Inv.finish (h : Inv w s) (t : T) (hnew : stateIn coded = w.stateOf s.memory) :
    Inv w { s with coded := coded, phase := update s.phase t .idle } where
  agrees := (forall_update_iff s.phase fun _ => Agrees w _ _).mpr
    ⟨trivial, fun t' _ => (h.agrees t').install hnew⟩
  settled _ := hnew

theorem Inv.step {e : ThreadStep T} (h : Inv w s) (hok : CrossesAlone w s e)
    (hstep : step w s e = some s') : Inv w s' := by
  cases e with
  | call t c =>
    simp only [Shared.step] at hstep
    split at hstep <;> cases hstep
    refine ⟨(forall_update_iff s.phase fun _ => Agrees w _ _).mpr ⟨rfl, fun t' _ => ?_⟩, ?_⟩
    · rcases hok with hsame | hidle
      · rw [hsame]
        exact h.agrees t'
      · rw [hidle t']
        trivial
    · exact fun hidle => absurd (hidle t) (by simp)
  | load t =>
    simp only [Shared.step] at hstep
    split at hstep <;> cases hstep
    rename_i hphase
    have hseen := hphase ▸ h.agrees t
    exact h.move t (by simp) ⟨hseen, id⟩
  | install t spurious =>
    simp only [Shared.step] at hstep
    split at hstep
    case h_2 => cases hstep
    case h_1 memory changed coded hphase =>
      rcases Option.map_eq_some_iff.mp hstep with ⟨coded', hcoded, rfl⟩
      have hseen := hphase ▸ h.agrees t
      have hnew := (calcNewCodedUsageState_spec hcoded).1.trans hseen.1
      split_ifs with hsame
      · -- the state that the thread has seen is of the range of the memory, so the present one is
        exact h.finish t (hseen.2 (hsame ▸ hnew))
      · exact h.finish t hnew
      · exact h.move t (by simp) id
  | retry t =>
    simp only [Shared.step] at hstep
    split at hstep <;> cases hstep
    rename_i hphase
    have hseen := hphase ▸ h.agrees t
    exact h.move t (by simp) ⟨rfl, hseen⟩

/-- **The state of a quiescent manager is the one of its memory**, in every run in which calls
that take the memory over the threshold or the quota start while no call is in progress. -/
theorem quiescent_state
    {w : Manager}
    (hstart : 0 < w.usageStartDelayThreshold)
    {s : Shared T}
    (hrun : Runs (step w) (CrossesAlone w) new s)
    (hidle : ∀ t, s.phase t = .idle) :
    (stateIn s.coded = .kNone ↔ s.memory < w.usageStartDelayThreshold) ∧
      (stateIn s.coded = .kStop ↔ w.bufferSize ≤ s.memory) := by
  have hinv : Inv w s := by
    refine hrun.invariant ⟨fun _ => trivial, fun _ => ?_⟩ fun _ _ _ h => h.step
    rw [new, Manager.stateOf, if_pos hstart]
    rfl
  have hle := w.threshold_le
  rw [hinv.settled hidle, Manager.stateOf]
  split_ifs <;> simp <;> omega

/-- Two threads reserve at the same time, one of them has to try again; then one fills the
buffer. -/
theorem quiescent_state_full :
    ∃ s : Shared Bool, Runs (step (Options.mk 10 70 true).exact)
        (CrossesAlone (Options.mk 10 70 true).exact) new s ∧
      (∀ t, s.phase t = .idle) ∧ s.memory = 10 ∧ stateIn s.coded = .kStop :=
  exists_runs_imp (P := fun s => (∀ t, s.phase t = .idle) ∧ s.memory = 10)
    [.call true (.reserveMem 8), .call false (.reserveMem 1), .load true, .load false,
      .install true false, .install false false, .retry false, .install false false,
      .call true (.reserveMem 1), .load true, .install true false] (by decide +kernel)
    fun _ hrun ⟨hidle, hmemory⟩ =>
      ⟨hidle, hmemory, (quiescent_state (by decide) hrun hidle).2.mpr hmemory.ge⟩

/-- One thread fills the buffer, another one frees its part; then the first installs `kStop`. -/
theorem quiescent_state_stale :
    ∃ s : Shared Bool, Runs (step (Options.mk 10 70 true).exact) (fun _ _ => True) new s ∧
      (∀ t, s.phase t = .idle) ∧ s.memory = 5 ∧ stateIn s.coded = .kStop :=
  exists_runs
    [.call false (.reserveMem 5), .load false, .install false false,
      .call true (.reserveMem 5), .call false (.freeMem 5), .load false,
      .install false false, .load true, .install true false] (by decide +kernel)

end Shared

end WriteBuffer
end HotTLBApps.Speedb
