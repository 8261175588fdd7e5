import Mathlib.Tactic

/-!
# Intervals cut by a list of keys

Keys `k₀ < k₁ < …` cut a linear order into the part before `k₀` and the
intervals `[kᵢ, kᵢ₊₁)`.  `slot keys x` is the number of the part that `x` lies
in, counted from the part before the first key.

A range `[x, y]` fits the keys when both ends lie in one part.

`runs p i n l` hands the elements of a list out in stages: stage `i` takes the
elements from the front for which `p i` holds, the stage after it goes on with
the rest, and stage `i + n` takes what is left.  `runs_iff` says when the stages
of a list sorted by part are the parts.
-/

namespace HotTLBApps.Intervals

open List

universe u

variable {κ : Type u} [LinearOrder κ]

/-- The part of the order that `x` lies in: the number of keys up to `x`. -/
def slot (keys : List κ) (x : κ) : Nat :=
  keys.countP fun k => decide (k ≤ x)

/-- The range from `x` to `y` lies in one part. -/
def Fits (keys : List κ) (x y : κ) : Prop :=
  slot keys x = slot keys y

instance (keys : List κ) (x y : κ) : Decidable (Fits keys x y) :=
  inferInstanceAs (Decidable (slot keys x = slot keys y))

@[simp]
theorem slot_nil (x : κ) : slot [] x = 0 :=
  rfl

theorem slot_cons (k : κ) (keys : List κ) (x : κ) :
    slot (k :: keys) x = slot keys x + if k ≤ x then 1 else 0 := by
  simp [slot, countP_cons]

theorem slot_mono (keys : List κ) {x y : κ} (h : x ≤ y) : slot keys x ≤ slot keys y := by
  apply countP_mono_left
  intro k _ hk
  simp only [decide_eq_true_eq] at hk ⊢
  exact hk.trans h

theorem slot_le_length (keys : List κ) (x : κ) : slot keys x ≤ keys.length :=
  countP_le_length

variable {keys : List κ}

theorem forall_lt_of_head? (hkeys : keys.Pairwise (· < ·)) {x : κ}
    (hx : ∀ k ∈ keys.head?, x < k) : ∀ k ∈ keys, x < k := by
  cases keys with
  | nil => exact fun _ => nofun
  | cons first keys =>
    have hlt : x < first := hx first rfl
    exact forall_mem_cons.mpr ⟨hlt, fun k hk => hlt.trans (rel_of_pairwise_cons hkeys hk)⟩

theorem slot_eq_zero {x : κ} (h : ∀ k ∈ keys, x < k) : slot keys x = 0 := by
  apply countP_eq_zero.mpr
  intro k hk
  simp only [decide_eq_true_eq, not_le]
  exact h k hk

variable {i : Nat}

theorem lt_slot_iff (hkeys : keys.Pairwise (· < ·)) {k : κ}
    (hi : keys[i]? = some k) (x : κ) : i < slot keys x ↔ k ≤ x := by
  induction keys generalizing i with
  | nil => simp at hi
  | cons k' keys ih =>
    obtain ⟨hhead, htail⟩ := pairwise_cons.mp hkeys
    rw [slot_cons]
    cases i with
    | zero =>
      obtain rfl : k' = k := by simpa using hi
      by_cases hle : k' ≤ x
      · simp [hle]
      · have hzero : slot keys x = 0 := by
          apply slot_eq_zero
          intro l hl
          exact (not_le.mp hle).trans (hhead l hl)
        simp [hle, hzero]
    | succ i =>
      have hi' : keys[i]? = some k := by simpa using hi
      rw [← ih htail hi']
      by_cases hle : k' ≤ x
      · simp [hle]
      · have hzero : slot keys x = 0 := by
          apply slot_eq_zero
          intro l hl
          exact (not_le.mp hle).trans (hhead l hl)
        simp [hle, hzero]

/-- If the keys that `x` leaves behind are above `y`, then `x` and `y` lie in one
part. -/
theorem slot_eq_of_dropWhile {x y : κ} (hxy : x ≤ y)
    (h : ∀ k ∈ keys.dropWhile (fun k => decide (k ≤ x)), y < k) : slot keys x = slot keys y := by
  induction keys with
  | nil => rfl
  | cons k keys ih =>
    by_cases hk : k ≤ x
    · rw [dropWhile_cons_of_pos (by simpa using hk)] at h
      rw [slot_cons, slot_cons, ih h, if_pos hk, if_pos (hk.trans hxy)]
    · rw [dropWhile_cons_of_neg (by simpa using hk)] at h
      rw [slot_eq_zero h, slot_eq_zero fun l hl => hxy.trans_lt (h l hl)]

/-- A range fits exactly if no key lies behind its start and up to its end. -/
theorem fits_iff {x y : κ} (hxy : x ≤ y) : Fits keys x y ↔ ∀ k ∈ keys, k ≤ y → k ≤ x := by
  induction keys with
  | nil => simp [Fits]
  | cons k keys ih =>
    rw [forall_mem_cons, ← ih, Fits, Fits, slot_cons, slot_cons]
    have hle := slot_mono keys hxy
    by_cases hx : k ≤ x
    · simp [hx, hx.trans hxy]
    · by_cases hy : k ≤ y
      · simp only [hx, hy, if_true, if_false]
        constructor
        · intro h
          omega
        · rintro ⟨h, _⟩
          exact absurd (h trivial) id
      · simp [hx, hy]

theorem Fits.slot_eq {x y z : κ} (h : Fits keys x z) (hxy : x ≤ y) (hyz : y ≤ z) :
    slot keys y = slot keys x := by
  have h1 := slot_mono keys hxy
  have h2 := slot_mono keys hyz
  unfold Fits at h
  omega

variable {α : Type u}

/-- The elements of a list, handed out in stages. -/
def runs (p : Nat → α → Bool) : Nat → Nat → List α → List (List α)
  | _, 0, l => [l]
  | i, n + 1, l => l.takeWhile (p i) :: runs p (i + 1) n (l.dropWhile (p i))

/-- Every element is handed out once, in the order of the list. -/
theorem flatten_runs (p : Nat → α → Bool) (i n : Nat) (l : List α) :
    (runs p i n l).flatten = l := by
  induction n generalizing i l with
  | zero => simp [runs]
  | succ n ih => rw [runs, flatten_cons, ih, takeWhile_append_dropWhile]

variable {l : List α}

/-- What holds between the elements that a stage takes and those that it leaves holds
between different blocks. -/
theorem pairwise_runs {p : Nat → α → Bool} {R : α → α → Prop} {i n : Nat}
    (h : ∀ j, ∀ l' : List α, l'.Sublist l → ∀ a ∈ l'.takeWhile (p j), ∀ b ∈ l'.dropWhile (p j), R a b) :
    (runs p i n l).Pairwise fun r s => ∀ a ∈ r, ∀ b ∈ s, R a b := by
  induction n generalizing i l with
  | zero => exact pairwise_singleton _ _
  | succ n ih =>
    rw [runs]
    refine pairwise_cons.mpr ⟨?_, ?_⟩
    · intro s hs a ha b hb
      have hmem : b ∈ l.dropWhile (p i) := by
        rw [← flatten_runs p (i + 1) n (l.dropWhile (p i))]
        exact mem_flatten.mpr ⟨s, hs, hb⟩
      exact h i l (Sublist.refl l) a ha b hmem
    · exact ih fun j l' hl' => h j l' (hl'.trans (dropWhile_sublist _))

/-- What a stage leaves comes at or after an element that it did not take. -/
theorem exists_stop_of_mem_dropWhile {q : α → Bool} {R : α → α → Prop} (hl : l.Pairwise R) {b : α}
    (hb : b ∈ l.dropWhile q) : ∃ d ∈ l, q d = false ∧ (d = b ∨ R d b) := by
  induction l with
  | nil => cases hb
  | cons a l ih =>
    obtain ⟨hhead, htail⟩ := pairwise_cons.mp hl
    cases ha : q a with
    | true =>
      rw [dropWhile_cons_of_pos ha] at hb
      obtain ⟨d, hd, hq, hdb⟩ := ih htail hb
      exact ⟨d, mem_cons_of_mem _ hd, hq, hdb⟩
    | false =>
      rw [dropWhile_cons_of_neg (by simp [ha])] at hb
      refine ⟨a, mem_cons_self, ha, ?_⟩
      obtain rfl | hb := mem_cons.mp hb
      · exact .inl rfl
      · exact .inr (hhead b hb)

variable {p : Nat → α → Bool} {part : α → Nat}

/-- A stage that does not take the first element of a later part takes exactly
the elements of the parts up to its own. -/
theorem takeWhile_eq_of_find (hlow : ∀ a ∈ l, part a ≤ i → p i a = true)
    (hsorted : l.Pairwise fun a b => part a ≤ part b)
    (hfirst : ∀ a, l.find? (fun b => decide (i < part b)) = some a → p i a = false) :
    l.takeWhile (p i) = l.takeWhile (fun a => decide (part a ≤ i)) ∧
      l.dropWhile (p i) = l.dropWhile fun a => decide (part a ≤ i) := by
  induction l with
  | nil => exact ⟨rfl, rfl⟩
  | cons a l ih =>
    obtain ⟨-, htail⟩ := pairwise_cons.mp hsorted
    by_cases ha : part a ≤ i
    · have hp := hlow a mem_cons_self ha
      obtain ⟨htake, hdrop⟩ := ih (fun b hb => hlow b (mem_cons_of_mem _ hb)) htail
        (fun b hb => hfirst b (by rw [find?_cons_of_neg (by simpa using ha), hb]))
      constructor
      · simp [hp, ha, htake]
      · simp [hp, ha, hdrop]
    · have hp := hfirst a (find?_cons_of_pos (by simpa using ha))
      constructor <;> simp [hp, ha]

/-- What is left after the parts up to `i` lies in later parts. -/
theorem lt_part_of_mem_dropWhile (hsorted : l.Pairwise fun a b => part a ≤ part b) {a : α}
    (ha : a ∈ l.dropWhile fun b => decide (part b ≤ i)) : i < part a := by
  induction l with
  | nil => simp at ha
  | cons b l ih =>
    obtain ⟨hhead, htail⟩ := pairwise_cons.mp hsorted
    by_cases hb : part b ≤ i
    · rw [dropWhile_cons_of_pos (by simpa using hb)] at ha
      exact ih htail ha
    · rw [dropWhile_cons_of_neg (by simpa using hb)] at ha
      obtain rfl | ha := mem_cons.mp ha
      · exact not_le.mp hb
      · exact (not_le.mp hb).trans_le (hhead a ha)

/-- The first element of a part beyond `i` is not among the parts up to `i`. -/
theorem find_dropWhile {i m : Nat} (him : i ≤ m) (l : List α) :
    (l.dropWhile fun a => decide (part a ≤ i)).find? (fun a => decide (m < part a)) =
      l.find? fun a => decide (m < part a) := by
  induction l with
  | nil => rfl
  | cons a l ih =>
    by_cases ha : part a ≤ i
    · rw [dropWhile_cons_of_pos (by simpa using ha), ih,
        find?_cons_of_neg (by simpa using ha.trans him)]
    · rw [dropWhile_cons_of_neg (by simpa using ha)]

/-- A stage takes an element for which its test holds, if it takes all those of
the parts up to its own that come before. -/
theorem mem_takeWhile_of_find (hlow : ∀ a ∈ l, part a ≤ i → p i a = true)
    {a : α} (hfind : l.find? (fun b => decide (i < part b)) = some a) (ha : p i a = true) :
    a ∈ l.takeWhile (p i) := by
  obtain ⟨-, as, bs, rfl, has⟩ := find?_eq_some_iff_append.mp hfind
  have hall : ∀ b ∈ as, p i b = true := by
    intro b hb
    have hle : part b ≤ i := by simpa using has b hb
    exact hlow b (mem_append_left _ hb) hle
  rw [takeWhile_append_of_pos hall, takeWhile_cons_of_pos ha]
  simp

/-- **The stages of a sorted list are its parts exactly if no stage takes the
first element of a later part.** -/
theorem runs_iff {i n : Nat} (hlow : ∀ j, ∀ a ∈ l, part a ≤ j → p j a = true)
    (hsorted : l.Pairwise fun a b => part a ≤ part b) (hge : ∀ a ∈ l, i ≤ part a)
    (hle : ∀ a ∈ l, part a ≤ i + n) :
    (∀ j r, (runs p i n l)[j]? = some r → ∀ a ∈ r, part a = i + j) ↔
      ∀ j < n, ∀ a, l.find? (fun b => decide (i + j < part b)) = some a → p (i + j) a = false := by
  induction n generalizing i l with
  | zero =>
    refine iff_of_true ?_ fun j hj => absurd hj (Nat.not_lt_zero j)
    intro j r hr a ha
    obtain ⟨rfl, rfl⟩ : j = 0 ∧ r = l := by
      cases j with
      | zero => simpa [runs, eq_comm] using hr
      | succ j => simp [runs] at hr
    exact le_antisymm (hle a ha) (hge a ha)
  | succ n ih =>
    -- The first stage is its part when it stops where the part ends.
    have hstage : (∀ a ∈ l.takeWhile (p i), part a = i) ↔
        ∀ a, l.find? (fun b => decide (i < part b)) = some a → p i a = false := by
      constructor
      · intro h a ha
        by_contra hp
        have hmem := mem_takeWhile_of_find (hlow i) ha (Bool.eq_true_of_not_eq_false hp)
        have hlt : i < part a := by simpa using find?_some ha
        exact hlt.ne' (h a hmem)
      · intro hfirst a ha
        have hmem : a ∈ l := (takeWhile_sublist (p i)).mem ha
        rw [(takeWhile_eq_of_find (hlow i) hsorted hfirst).1] at ha
        have hpart : part a ≤ i := by simpa using all_eq_true.mp all_takeWhile a ha
        exact le_antisymm hpart (hge a hmem)
    rw [← Nat.and_forall_add_one, Nat.forall_lt_succ_left]
    simp only [runs, getElem?_cons_zero, getElem?_cons_succ, Option.some_inj, forall_eq',
      Nat.add_zero, hstage]
    refine and_congr_right fun hfirst => ?_
    obtain ⟨-, hdrop⟩ := takeWhile_eq_of_find (hlow i) hsorted hfirst
    have hsub := dropWhile_sublist (l := l) (p i)
    have hrest := ih (i := i + 1) (fun j a ha => hlow j a (hsub.mem ha)) (hsorted.sublist hsub)
      (fun a ha => lt_part_of_mem_dropWhile hsorted (hdrop ▸ ha))
      (fun a ha => by have := hle a (hsub.mem ha); omega)
    simp only [hdrop, Nat.add_assoc, Nat.add_comm 1] at hrest ⊢
    rw [hrest]
    refine forall₂_congr fun j _ => ?_
    rw [find_dropWhile (by omega)]

/-- No element is taken by a stage after its part. -/
theorem le_part_of_mem_runs {i n j : Nat} {l r : List α}
    (hlow : ∀ j, ∀ a ∈ l, part a ≤ j → p j a = true)
    (hsorted : l.Pairwise fun a b => part a ≤ part b) (hge : ∀ a ∈ l, i ≤ part a)
    (hr : (runs p i n l)[j]? = some r) {a : α} (ha : a ∈ r) : i + j ≤ part a := by
  induction n generalizing i j l with
  | zero =>
    cases j with
    | zero =>
      cases hr
      exact hge a ha
    | succ j => cases hr
  | succ n ih =>
    cases j with
    | zero =>
      cases hr
      exact hge a ((takeWhile_sublist _).mem ha)
    | succ j =>
      have hsub : (l.dropWhile (p i)).Sublist l := dropWhile_sublist _
      have hrest := ih (i := i + 1) (fun j a ha => hlow j a (hsub.mem ha))
        (hsorted.sublist hsub) ?_ (by simpa [runs] using hr)
      · omega
      · intro b hb
        obtain ⟨d, hd, hstop, hle⟩ := exists_stop_of_mem_dropWhile hsorted hb
        have hlt : i < part d := by
          by_contra hnot
          rw [hlow i d hd (not_lt.mp hnot)] at hstop
          cases hstop
        obtain rfl | hle := hle
        · exact hlt
        · exact hlt.trans_le hle

/-- An element of two blocks of a list without duplicates is in one block. -/
theorem eq_of_mem_blocks {blocks : List (List α)} (hnodup : blocks.flatten.Nodup)
    {i j : Nat} {r s : List α} (hi : blocks[i]? = some r) (hj : blocks[j]? = some s) {a : α}
    (hr : a ∈ r) (hs : a ∈ s) : i = j := by
  obtain ⟨-, hdisjoint⟩ := nodup_flatten.mp hnodup
  by_contra hne
  obtain ⟨hilt, rfl⟩ := List.getElem?_eq_some_iff.mp hi
  obtain ⟨hjlt, rfl⟩ := List.getElem?_eq_some_iff.mp hj
  rcases Nat.lt_or_gt_of_ne hne with hlt | hlt
  · exact pairwise_iff_getElem.mp hdisjoint i j hilt hjlt hlt hr hs
  · exact pairwise_iff_getElem.mp hdisjoint j i hjlt hilt hlt hs hr

end HotTLBApps.Intervals
