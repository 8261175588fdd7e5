import Mathlib.Data.Int.CardIntervalMod

/-!
# GAPBS: uniform numbers (`src/generator.h`)

`UniDist` maps the values of a generator to `[0, max_value]`: it drops those from a cutoff on and
takes the remainder of the others.  The values are cut to 32 bits, and so is the cutoff.
-/

namespace HotTLBApps.Gapbs

/-- The generators that `UniDist<int32_t>` is used with: in `Generator` and in `SourcePicker`. -/
inductive Rng
  | mt19937
  | mt19937_64
  deriving DecidableEq, Repr

def Rng.max : Rng → Nat
  | .mt19937 => 2 ^ 32 - 1
  | .mt19937_64 => 2 ^ 64 - 1

/-- The members of `UniDist`, of type `uint32_t`. -/
structure UniDist where
  noMod : Bool
  mod : Nat
  cutoff : Nat

namespace UniDist

def new (maxValue : Nat) (rng : Rng) : UniDist :=
  let mod := (maxValue + 1) % 2 ^ 32
  let remainderSub1 := rng.max % mod % 2 ^ 32
  { noMod := rng.max = maxValue % 2 ^ 32
    mod := mod
    cutoff := if remainderSub1 = mod - 1 then 0 else (rng.max - remainderSub1) % 2 ^ 32 }

/-- `operator()` on the values that the generator gives next; `none` if it asks for more. -/
def draw (d : UniDist) : List Nat → Option Nat
  | [] => none
  | value :: values =>
      let randNum := value % 2 ^ 32
      if d.noMod then
        some randNum
      else if d.cutoff ≠ 0 ∧ d.cutoff ≤ randNum then
        d.draw values
      else
        some (randNum % d.mod)

/-- The draws of 32 bits that are accepted with a result. -/
def accepted (d : UniDist) (result : Nat) : Finset Nat :=
  (Finset.range (2 ^ 32)).filter fun randNum => d.draw [randNum] = some result

/-- Some draws are accepted, and they are shared out evenly over `[0, maxValue]`. -/
structure Uniform (d : UniDist) (maxValue : Nat) : Prop where
  nonempty : ∃ result, (d.accepted result).Nonempty
  inside : ∀ result, (d.accepted result).Nonempty → result ≤ maxValue
  onto : ∀ result ≤ maxValue, (d.accepted result).Nonempty
  even : ∀ a ≤ maxValue, ∀ b ≤ maxValue, (d.accepted a).card = (d.accepted b).card

/-- The number of draws that are accepted. -/
def bound (d : UniDist) : Nat :=
  if d.cutoff = 0 then 2 ^ 32 else d.cutoff

variable {d : UniDist}

/-- The accepted draws with a result are the numbers of one class below the bound. -/
theorem accepted_eq (hmod : d.noMod = false) (hbound : d.bound ≤ 2 ^ 32) (result : Nat) :
    d.accepted result = (Finset.range d.bound).filter fun n => n % d.mod = result := by
  ext n
  simp only [accepted, Finset.mem_filter, Finset.mem_range]
  by_cases hn : n < 2 ^ 32
  · have hdraw : d.draw [n] = if n < d.bound then some (n % d.mod) else none := by
      simp only [draw, Nat.mod_eq_of_lt hn, hmod, Bool.false_eq_true, if_false, bound]
      split_ifs <;> first | rfl | omega
    rw [hdraw]
    split_ifs with hlt
    · simp only [hn, hlt, true_and, Option.some.injEq]
    · simp only [hlt, false_and, and_false]
  · have hout : ¬ n < d.bound := by omega
    simp only [hn, hout, false_and]

/-- **The results are even** exactly if the modulus divides the number of accepted draws. -/
theorem uniform_iff_dvd {maxValue : Nat} (hmod : d.noMod = false) (hmax : d.mod = maxValue + 1)
    (hbound : d.bound ≤ 2 ^ 32) (hlow : maxValue < d.bound) :
    d.Uniform maxValue ↔ maxValue + 1 ∣ d.bound := by
  have hcard : ∀ result ≤ maxValue, (d.accepted result).card =
      d.bound / (maxValue + 1) + if result < d.bound % (maxValue + 1) then 1 else 0 := by
    intro result hresult
    have hclass : result % (maxValue + 1) = result := Nat.mod_eq_of_lt (by omega)
    have hcount := Nat.count_modEq_card (b := d.bound) (r := maxValue + 1) (Nat.succ_pos _) result
    rw [Nat.count_eq_card_filter_range, hclass] at hcount
    rw [accepted_eq hmod hbound, ← hcount, hmax]
    simp only [Nat.ModEq, hclass]
  constructor
  · intro h
    have heven := h.even 0 (Nat.zero_le _) maxValue le_rfl
    rw [hcard 0 (Nat.zero_le _), hcard maxValue le_rfl] at heven
    have hlt : d.bound % (maxValue + 1) < maxValue + 1 := Nat.mod_lt _ (by omega)
    refine Nat.dvd_of_mod_eq_zero ?_
    split_ifs at heven <;> omega
  · intro h
    have honto : ∀ result ≤ maxValue, (d.accepted result).Nonempty := by
      intro result hresult
      refine ⟨result, ?_⟩
      rw [accepted_eq hmod hbound, Finset.mem_filter, Finset.mem_range, hmax]
      exact ⟨by omega, Nat.mod_eq_of_lt (by omega)⟩
    refine ⟨⟨0, honto 0 (Nat.zero_le _)⟩, ?_, honto, ?_⟩
    · rintro result ⟨n, hn⟩
      rw [accepted_eq hmod hbound, Finset.mem_filter, hmax] at hn
      have hlt : n % (maxValue + 1) < maxValue + 1 := Nat.mod_lt _ (by omega)
      omega
    · intro a ha b hb
      rw [hcard a ha, hcard b hb, Nat.mod_eq_zero_of_dvd h]
      rfl

variable (maxValue : Fin (2 ^ 31 - 1)) (rng : Rng)

/-- What the constructor sets: the cutoff of the generator is cut to 32 bits. -/
theorem new_spec : (new maxValue rng).noMod = false ∧ (new maxValue rng).mod = maxValue + 1 ∧
      (new maxValue rng).bound = 2 ^ 32 - (rng.max + 1) % (maxValue + 1) := by
  have hlt := maxValue.isLt
  have hmod : (maxValue.val + 1) % 2 ^ 32 = maxValue + 1 := Nat.mod_eq_of_lt (by omega)
  have hrem : rng.max % (maxValue + 1) < maxValue + 1 := Nat.mod_lt _ (by omega)
  refine ⟨decide_eq_false ?_, hmod, ?_⟩
  · cases rng <;> simp only [Rng.max] <;> omega
  · simp only [bound, new, hmod, Nat.add_sub_cancel]
    rw [← Nat.mod_add_mod]
    generalize rng.max % (maxValue + 1) = r at hrem ⊢
    rw [Nat.mod_eq_of_lt (show r < 2 ^ 32 by omega)]
    by_cases hr : r = maxValue
    · simp [hr]
    · have hcut : (rng.max - r) % 2 ^ 32 = 2 ^ 32 - (r + 1) := by
        cases rng <;> simp only [Rng.max] <;> omega
      rw [if_neg hr, hcut, if_neg (by omega), Nat.mod_eq_of_lt (by omega)]

/-- **The results of `UniDist` are uniform** exactly if the generator has 32 bits or the modulus
divides `2³² (2³² - 1)`. -/
theorem uniform_iff : (new maxValue rng).Uniform maxValue ↔
      rng = .mt19937 ∨ maxValue.val + 1 ∣ 2 ^ 32 * (2 ^ 32 - 1) := by
  obtain ⟨hnoMod, hmod, hbound⟩ := new_spec maxValue rng
  have hlt := maxValue.isLt
  have hrem : (rng.max + 1) % (maxValue + 1) < maxValue + 1 := Nat.mod_lt _ (by omega)
  rw [uniform_iff_dvd hnoMod hmod (by omega) (by omega), hbound]
  have hcut : maxValue.val + 1 ∣ rng.max + 1 - (rng.max + 1) % (maxValue + 1) := Nat.dvd_sub_mod _
  cases rng with
  | mt19937 => exact iff_of_true hcut (.inl rfl)
  | mt19937_64 =>
    have hsplit : 2 ^ 64 - 2 ^ 64 % (maxValue.val + 1) =
        2 ^ 32 * (2 ^ 32 - 1) + (2 ^ 32 - 2 ^ 64 % (maxValue.val + 1)) := by
      have hsmall : 2 ^ 64 % (maxValue.val + 1) < 2 ^ 32 := hrem.trans (by omega)
      omega
    rw [or_iff_right nofun]
    change _ ∣ 2 ^ 64 - 2 ^ 64 % _ at hcut
    rw [hsplit] at hcut
    exact ⟨fun h => (Nat.dvd_add_iff_left h).mpr hcut, fun h => (Nat.dvd_add_right h).mp hcut⟩

/-- Seven vertices and the generator of `SourcePicker`: the first two are picked more often. -/
theorem not_uniform_seven : ¬ (new 6 .mt19937_64).Uniform 6 := by
  rw [uniform_iff_dvd rfl rfl (by decide) (by decide)]
  decide

end UniDist
end HotTLBApps.Gapbs
