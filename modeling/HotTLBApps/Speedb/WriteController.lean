import HotTLBApps.Lib.Runs
import Mathlib.Tactic

/-!
# The dynamic delay of the write controller

`write_controller.cc`, with `use_dynamic_delay` set.  Clients ask for a write rate and take
the request back; `delayed_write_rate_` is to be the smallest of the rates and of
`max_delayed_write_rate_`.  It is maintained without looking at the map unless the client
had the smallest rate.

The counters of `GetDelay` and the messages to the loggers are left out.

* `WriteController.Exact.step_iff`: when a call keeps the rate and the count exact.
-/

namespace HotTLBApps.Speedb

open Function Finset

variable {κ : Type} [DecidableEq κ]

/-- The keys and the rates of `id_to_write_rate_map_`, the two rates and the counter. -/
structure WriteController (κ : Type) where
  clients : Finset κ
  rateOf : κ → Nat
  maxDelayedWriteRate : Nat
  delayedWriteRate : Nat
  totalDelayed : Int

/-- The value of an `int` after an overflow. -/
def wrapInt (n : Int) : Int :=
  (n + 2 ^ 31) % 2 ^ 32 - 2 ^ 31

/-- The calls of the clients and of the options. -/
inductive DelayReq (κ : Type)
  | handleNewDelayReq (clientId : κ) (clientWriteRate : Nat)
  | handleRemoveDelayReq (clientId : κ)
  | setMaxDelayedWriteRate (writeRate : Nat)

namespace WriteController

def setDelayedWriteRate (w : WriteController κ) (writeRate : Nat) : WriteController κ :=
  { w with delayedWriteRate :=
      if writeRate = 0 then 1
      else if writeRate > w.maxDelayedWriteRate then w.maxDelayedWriteRate
      else writeRate }

def setMaxDelayedWriteRate (w : WriteController κ) (writeRate : Nat) : WriteController κ :=
  { w with
    maxDelayedWriteRate := if writeRate = 0 then 1 else writeRate
    delayedWriteRate := if writeRate = 0 then 1 else writeRate }

def new (delayedWriteRate : Nat) : WriteController κ :=
  setMaxDelayedWriteRate ⟨∅, fun _ => 0, 0, 0, 0⟩ delayedWriteRate

/-- `GetMapMinRate`: the smallest rate of the map and the maximum. -/
def getMapMinRate (w : WriteController κ) : Nat :=
  w.clients.fold min w.maxDelayedWriteRate w.rateOf

/-- `IsMinRate` compares with the current rate, not with the map. -/
def isMinRate (w : WriteController κ) (clientId : κ) : Bool :=
  clientId ∈ w.clients ∧ w.rateOf clientId ≤ w.delayedWriteRate

def handleNewDelayReq
    (w : WriteController κ) (clientId : κ) (clientWriteRate : Nat) : WriteController κ :=
  let w' := { w with
    clients := insert clientId w.clients
    rateOf := update w.rateOf clientId clientWriteRate
    totalDelayed :=
      if clientId ∈ w.clients then w.totalDelayed else wrapInt (w.totalDelayed + 1) }
  w'.setDelayedWriteRate
    (if clientWriteRate ≤ w.delayedWriteRate then clientWriteRate
    else if w.isMinRate clientId then w'.getMapMinRate
    else w.delayedWriteRate)

def handleRemoveDelayReq (w : WriteController κ) (clientId : κ) : WriteController κ :=
  if clientId ∈ w.clients then
    let w' := { w with
      clients := w.clients.erase clientId
      totalDelayed := wrapInt (w.totalDelayed - 1) }
    if w.isMinRate clientId then w'.setDelayedWriteRate w'.getMapMinRate else w'
  else w

def step (w : WriteController κ) : DelayReq κ → WriteController κ
  | .handleNewDelayReq clientId clientWriteRate => w.handleNewDelayReq clientId clientWriteRate
  | .handleRemoveDelayReq clientId => w.handleRemoveDelayReq clientId
  | .setMaxDelayedWriteRate writeRate => w.setMaxDelayedWriteRate writeRate

/-- The count and the rate are those of the map. -/
def Exact (w : WriteController κ) : Prop :=
  w.totalDelayed = w.clients.card ∧
    w.delayedWriteRate = max 1 (w.clients.fold min w.maxDelayedWriteRate w.rateOf)

/-- A new maximum is not above the rate of a client, and the counter has room. -/
def Admitted (w : WriteController κ) : DelayReq κ → Prop
  | .handleNewDelayReq clientId _ => clientId ∈ w.clients ∨ w.clients.card + 1 < 2 ^ 31
  | .handleRemoveDelayReq _ => True
  | .setMaxDelayedWriteRate writeRate => ∀ c ∈ w.clients, max 1 writeRate ≤ max 1 (w.rateOf c)

variable {w : WriteController κ}

/-- The smallest rate, with the one of a client apart from the others. -/
theorem fold_min_eq_of_mem {s : Finset κ} {c : κ} (hc : c ∈ s) (m : Nat) (f : κ → Nat) :
    s.fold min m f = min (f c) ((s.erase c).fold min m f) := by
  conv_lhs => rw [← insert_erase hc]
  exact fold_insert (notMem_erase c s)

theorem fold_min_update (s : Finset κ) (c : κ) (m rate : Nat) (f : κ → Nat) :
    (insert c s).fold min m (update f c rate) = min rate ((s.erase c).fold min m f) := by
  have hothers : ∀ x ∈ s.erase c, update f c rate x = f x :=
    fun x hx => update_of_ne (ne_of_mem_erase hx) _ _
  rw [fold_min_eq_of_mem (mem_insert_self c s), erase_insert_eq_erase, update_self,
    fold_congr hothers]

omit [DecidableEq κ] in
theorem fold_min_le (s : Finset κ) (m : Nat) (f : κ → Nat) : s.fold min m f ≤ m :=
  ((le_fold_min _).mp le_rfl).1

theorem Exact.handleNewDelayReq_rate (h : w.Exact) (hmax : 1 ≤ w.maxDelayedWriteRate) (c : κ)
    (rate : Nat) : (w.handleNewDelayReq c rate).delayedWriteRate =
      max 1 ((insert c w.clients).fold min w.maxDelayedWriteRate (update w.rateOf c rate)) := by
  have hle := fold_min_le (w.clients.erase c) w.maxDelayedWriteRate w.rateOf
  have hrate := h.2
  simp only [handleNewDelayReq, setDelayedWriteRate, getMapMinRate, fold_min_update, isMinRate]
  by_cases hc : c ∈ w.clients
  · rw [fold_min_eq_of_mem hc] at hrate
    simp only [hc, true_and, decide_eq_true_eq]
    split_ifs <;> omega
  · rw [← erase_eq_of_notMem hc] at hrate
    split_ifs <;> omega

theorem Exact.handleNewDelayReq_iff (h : w.Exact) (hmax : 1 ≤ w.maxDelayedWriteRate)
    (c : κ) (rate : Nat) :
    (w.handleNewDelayReq c rate).Exact ↔ c ∈ w.clients ∨ w.clients.card + 1 < 2 ^ 31 := by
  refine (and_iff_left (h.handleNewDelayReq_rate hmax c rate)).trans ?_
  have hcount := h.1
  simp only [handleNewDelayReq, setDelayedWriteRate]
  by_cases hc : c ∈ w.clients
  · simp [hc, hcount]
  · rw [if_neg hc, card_insert_of_notMem hc, hcount, wrapInt, or_iff_right hc]
    omega

theorem Exact.handleRemoveDelayReq (h : w.Exact) (hcard : w.clients.card < 2 ^ 31) (c : κ) :
    (w.handleRemoveDelayReq c).Exact := by
  unfold WriteController.handleRemoveDelayReq
  by_cases hc : c ∈ w.clients
  · obtain ⟨hcount, hrate⟩ := h
    have hpos := card_pos.mpr ⟨c, hc⟩
    have hle := fold_min_le (w.clients.erase c) w.maxDelayedWriteRate w.rateOf
    have hcount' : wrapInt (w.totalDelayed - 1) = (w.clients.erase c).card := by
      rw [card_erase_of_mem hc, hcount, wrapInt]
      omega
    rw [fold_min_eq_of_mem hc] at hrate
    have hmin : w.isMinRate c = decide (w.rateOf c ≤ w.delayedWriteRate) := by simp [isMinRate, hc]
    rw [if_pos hc, hmin]
    split_ifs with hsmall <;> refine ⟨hcount', ?_⟩ <;> rw [decide_eq_true_eq] at hsmall
    · dsimp only [setDelayedWriteRate, getMapMinRate]
      split_ifs <;> omega
    · dsimp only
      omega
  · rwa [if_neg hc]

omit [DecidableEq κ] in
theorem Exact.setMaxDelayedWriteRate_iff (h : w.Exact) (rate : Nat) :
    (w.setMaxDelayedWriteRate rate).Exact ↔ ∀ c ∈ w.clients, max 1 rate ≤ max 1 (w.rateOf c) := by
  obtain ⟨clients, f, m, old, count⟩ := w
  have hone : (if rate = 0 then 1 else rate) = max 1 rate := by split_ifs <;> omega
  have hle := fold_min_le clients (max 1 rate) f
  have hiff := le_fold_min (s := clients) (b := max 1 rate) (f := f) (max 1 rate)
  refine (and_iff_right h.1).trans ?_
  dsimp only [setMaxDelayedWriteRate]
  rw [hone]
  constructor
  · intro heq c hc
    obtain hrate | hrate := Nat.lt_or_ge 1 rate
    · have hc := (hiff.mp (by omega)).2 c hc
      omega
    · omega
  · intro hall
    obtain hrate | hrate := Nat.lt_or_ge 1 rate
    · have := hiff.mpr ⟨le_rfl, fun c hc => by have := hall c hc; omega⟩
      omega
    · omega

/-- What the rest of the class relies on. -/
structure Tracked (w : WriteController κ) : Prop where
  exact : w.Exact
  max_pos : 1 ≤ w.maxDelayedWriteRate
  card_lt : w.clients.card < 2 ^ 31

theorem Tracked.step_iff (h : w.Tracked) (req : DelayReq κ) :
    (w.step req).Exact ↔ w.Admitted req := by
  cases req with
  | handleNewDelayReq c rate => exact h.exact.handleNewDelayReq_iff h.max_pos c rate
  | handleRemoveDelayReq c => exact iff_of_true (h.exact.handleRemoveDelayReq h.card_lt c) trivial
  | setMaxDelayedWriteRate rate => exact h.exact.setMaxDelayedWriteRate_iff rate

theorem Tracked.step (h : w.Tracked) {req : DelayReq κ} (hok : w.Admitted req) :
    (w.step req).Tracked := by
  refine ⟨(h.step_iff req).mpr hok, ?_, ?_⟩
  · cases req with
    | handleNewDelayReq c rate => exact h.max_pos
    | handleRemoveDelayReq c =>
      simp only [WriteController.step, WriteController.handleRemoveDelayReq]
      split_ifs <;> exact h.max_pos
    | setMaxDelayedWriteRate rate =>
      simp only [WriteController.step, setMaxDelayedWriteRate]
      split_ifs <;> omega
  · have hlt := h.card_lt
    cases req with
    | handleNewDelayReq c rate =>
      have hcard := card_insert_le c w.clients
      obtain hc | hroom := hok
      · exact (congrArg card (insert_eq_of_mem hc)).trans_lt hlt
      · exact hcard.trans_lt hroom
    | handleRemoveDelayReq c =>
      have hcard := card_erase_le (s := w.clients) (a := c)
      simp only [WriteController.step, WriteController.handleRemoveDelayReq]
      split_ifs <;> first | exact hlt | exact hcard.trans_lt hlt
    | setMaxDelayedWriteRate rate => exact hlt

/-- **The count and the rate are exact** after every sequence of admitted calls, and after
one more call exactly if it is admitted; no client asked for less than the rate. -/
theorem exact_of_runs
    {rate : Nat}
    {w : WriteController κ}
    (hrun : Runs (fun w req => some (step w req)) Admitted (new rate) w)
    (req : DelayReq κ) :
    w.Exact ∧ (∀ c ∈ w.clients, w.delayedWriteRate ≤ max 1 (w.rateOf c)) ∧
      ((w.step req).Exact ↔ w.Admitted req) := by
  have htracked : w.Tracked := by
    refine hrun.invariant (I := Tracked) ⟨?_, ?_, ?_⟩ ?_
    · simp [Exact, new, setMaxDelayedWriteRate]
      split_ifs <;> omega
    · simp only [new, setMaxDelayedWriteRate]
      split_ifs <;> omega
    · simp [new, setMaxDelayedWriteRate]
    · rintro w₁ req _ h hok ⟨⟩
      exact h.step hok
  refine ⟨htracked.exact, fun c hc => ?_, htracked.step_iff req⟩
  rw [htracked.exact.2]
  exact max_le_max le_rfl ((Finset.fold_min_le _).mpr (.inr ⟨c, hc, le_rfl⟩))

/-- Of two clients the one that asked for 5 goes; then the maximum may be 7. -/
theorem exact_of_runs_five : ∃ w : WriteController Bool,
      Runs (fun w req => some (step w req)) Admitted (new 10) w ∧ w.delayedWriteRate = 8 ∧
        w.Exact ∧ (w.step (.setMaxDelayedWriteRate 7)).Exact := by
  have hrun : Runs (fun w req => some (step w req)) Admitted (new 10) _ :=
    ((Runs.nil.snoc (i := .handleNewDelayReq true 5) (.inr (by decide)) rfl).snoc
      (i := .handleNewDelayReq false 8) (.inr (by decide)) rfl).snoc
      (i := .handleRemoveDelayReq true) trivial rfl
  rcases exact_of_runs hrun (.setMaxDelayedWriteRate 7) with ⟨hexact, -, hiff⟩
  exact ⟨_, hrun, rfl, hexact, hiff.mpr (by simp only [Admitted]; decide)⟩

/-- Setting the maximum again forgets the client that asked for 5. -/
theorem not_exact_setMaxDelayedWriteRate :
    ¬ (((new 10).step (.handleNewDelayReq () 5)).step (.setMaxDelayedWriteRate 10)).Exact := by
  rintro ⟨-, hrate⟩
  exact absurd hrate (by decide)

end WriteController

end HotTLBApps.Speedb
