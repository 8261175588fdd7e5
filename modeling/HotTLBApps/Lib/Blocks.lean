import HotTLBApps.Lib.Slices

/-!
# Blocks of a buffer

A buffer that is made of blocks `f 0, …, f (n - 1)`, one after another.

* `flat_update`, `getElem?_flat`: changing a block and reading at a place of it;
* `keep`: the elements at marked places, and how it goes with blocks (`keep_flat`).
-/

namespace HotTLBApps.Blocks

open Slices List Function

variable {α β : Type*}

/-- The blocks one after another. -/
def flat (n : Nat) (f : Nat → List α) : List α :=
  ((List.range n).map f).flatten

/-- Where a block starts. -/
def offset (lengths : Nat → Nat) (c : Nat) : Nat :=
  ((List.range c).map lengths).sum

theorem offset_succ (lengths : Nat → Nat)
    (c : Nat) : offset lengths (c + 1) = offset lengths c + lengths c := by
  unfold offset
  rw [range_succ, map_append, sum_append, map_singleton, sum_singleton]

theorem flat_succ (n : Nat) (f : Nat → List α) : flat (n + 1) f = flat n f ++ f n := by
  unfold flat
  rw [range_succ, map_append, flatten_append, map_singleton, flatten_singleton]

theorem flat_congr {n : Nat} {f f' : Nat → List α}
    (h : ∀ c < n, f c = f' c) : flat n f = flat n f' := by
  unfold flat
  rw [map_congr_left fun c hc => h c (mem_range.mp hc)]

theorem length_flat (n : Nat)
    (f : Nat → List α) : (flat n f).length = offset (fun c => (f c).length) n := by
  unfold flat offset
  rw [length_flatten, map_map]
  rfl

theorem map_flat (g : α → β) (n : Nat)
    (f : Nat → List α) : (flat n f).map g = flat n fun c => (f c).map g := by
  unfold flat
  rw [map_flatten, map_map]
  rfl

/-- The starts of the blocks are the sums of the lengths before them. -/
theorem sumsFrom_map_range (lengths : Nat → Nat) (n : Nat) :
    sumsFrom 0 ((range n).map lengths) = (range n).map (offset lengths) := by
  rw [sumsFrom_eq, length_map, length_range]
  refine map_congr_left fun c hc => ?_
  rw [Nat.zero_add, start, ← map_take, take_range, Nat.min_eq_left (mem_range.mp hc).le]
  rfl

variable {f : Nat → List α} {lengths : Nat → Nat}

theorem length_flat_eq {n : Nat}
    (hlengths : ∀ c < n, (f c).length = lengths c) : (flat n f).length = offset lengths n := by
  rw [length_flat]
  unfold offset
  rw [map_congr_left fun c hc => hlengths c (mem_range.mp hc)]

theorem flat_update {n c : Nat} (hlengths : ∀ c < n, (f c).length = lengths c) (hc : c < n)
    (l : List α) : ∃ before after, flat n f = before ++ (f c ++ after) ∧
      flat n (update f c l) = before ++ (l ++ after) ∧ before.length = offset lengths c := by
  have hlength := length_flat_eq fun c' hc' => hlengths c' (hc'.trans hc)
  obtain ⟨m, rfl⟩ := Nat.exists_eq_add_of_lt hc
  clear hc hlengths
  induction m with
  | zero =>
    refine ⟨flat c f, [], ?_, ?_, hlength⟩
    · rw [Nat.add_zero, flat_succ, append_nil]
    · rw [Nat.add_zero, flat_succ, update_self, append_nil,
        flat_congr fun c' hc' => update_of_ne (Nat.ne_of_lt hc') _ _]
  | succ m ih =>
    obtain ⟨before, after, hold, hnew, hbefore⟩ := ih
    refine ⟨before, after ++ f (c + m + 1), ?_, ?_, hbefore⟩
    · rw [← Nat.add_assoc, flat_succ, hold]
      simp only [append_assoc]
    · rw [← Nat.add_assoc, flat_succ, hnew, update_of_ne (by omega)]
      simp only [append_assoc]

theorem getElem?_flat {n c k : Nat} (hlengths : ∀ c < n, (f c).length = lengths c) (hc : c < n)
    (hk : k < lengths c) : (flat n f)[offset lengths c + k]? = (f c)[k]? := by
  obtain ⟨before, after, hsplit, -, hlength⟩ := flat_update hlengths hc (f c)
  rw [hsplit, ← hlength, getElem?_append_right (by omega), Nat.add_sub_cancel_left,
    getElem?_append_left (by rwa [hlengths c hc])]

/-- A list of values by their places, with one of them changed. -/
theorem write?_map_range {n k : Nat} {f : Nat → α} (hk : k < n) (a : α) :
    write? ((range n).map f) k a = some ((range n).map (update f k a)) := by
  rw [write?_of_lt (by rwa [length_map, length_range])]
  congr 1
  apply ext_getElem
  · simp
  · intro c hc hc'
    rw [getElem_set, getElem_map, getElem_map, getElem_range]
    split_ifs with hck
    · rw [hck, update_self]
    · rw [update_of_ne (Ne.symm hck)]

theorem flat_replicate (n : Nat) (lengths : Nat → Nat)
    (a : α) : flat n (fun c => replicate (lengths c) a) = replicate (offset lengths n) a := by
  induction n with
  | zero => rfl
  | succ n ih => rw [flat_succ, ih, offset_succ, replicate_add]

/-- The elements at marked places. -/
def keep : List Bool → List α → List α
  | true :: bs, a :: as => a :: keep bs as
  | false :: bs, _ :: as => keep bs as
  | _, _ => []

@[simp]
theorem keep_nil (bs : List Bool) : keep bs ([] : List α) = [] := by
  cases bs with
  | nil => rfl
  | cons b bs => cases b <;> rfl

theorem keep_append {bs bs' : List Bool} {as as' : List α}
    (h : bs.length = as.length) : keep (bs ++ bs') (as ++ as') = keep bs as ++ keep bs' as' := by
  induction bs generalizing as with
  | nil =>
    rw [eq_nil_of_length_eq_zero h.symm]
    rfl
  | cons b bs ih =>
    cases as with
    | nil => cases h
    | cons a as =>
      have htail := ih (Nat.succ.inj h)
      cases b with
      | false => exact htail
      | true => exact congrArg (a :: ·) htail

theorem length_keep {bs : List Bool} {as : List α}
    (h : bs.length = as.length) : (keep bs as).length = bs.count true := by
  induction bs generalizing as with
  | nil =>
    rw [eq_nil_of_length_eq_zero h.symm]
    rfl
  | cons b bs ih =>
    cases as with
    | nil => cases h
    | cons a as =>
      have htail := ih (Nat.succ.inj h)
      cases b with
      | false => rw [keep, htail, count_cons_of_ne Bool.false_ne_true]
      | true => rw [keep, length_cons, htail, count_cons_self]

theorem map_keep (g : α → β) (bs : List Bool)
    (as : List α) : (keep bs as).map g = keep bs (as.map g) := by
  induction bs generalizing as with
  | nil => cases as <;> rfl
  | cons b bs ih =>
    cases as with
    | nil => simp
    | cons a as =>
      cases b with
      | false => exact ih as
      | true => exact congrArg (g a :: ·) (ih as)

theorem keep_flat {n : Nat} {bs : Nat → List Bool} {as : Nat → List α}
    (h : ∀ c < n, (bs c).length = (as c).length) :
    keep (flat n bs) (flat n as) = flat n fun c => keep (bs c) (as c) := by
  induction n with
  | zero => rfl
  | succ n ih =>
    have hbefore : (flat n bs).length = (flat n as).length := by
      rw [length_flat_eq fun c hc => h c (Nat.lt_succ_of_lt hc), length_flat]
    rw [flat_succ, flat_succ, flat_succ, keep_append hbefore,
      ih fun c hc => h c (Nat.lt_succ_of_lt hc)]

end HotTLBApps.Blocks
