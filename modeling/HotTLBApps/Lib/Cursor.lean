import Mathlib.Tactic

/-!
# Cursors over sorted lists

A cursor stands at one of the elements of a list, or at none; it is moved by the calls of
an iterator.  `Next` and `Prev` are allowed only where it stands at an element.

`Behaves` says what an implementation has to do in each call, in terms of the elements
and not of positions: after `Next`, for example, it shows the first element after the
one it showed.  `Behaves.run` is the rule for whole sequences of calls.  `BidiBehaves`
is the same with a call that seeks from above.
-/

namespace HotTLBApps.Cursor

open List Option

inductive Call (κ : Type*)
  | seekToFirst
  | seekToLast
  | seek (target : κ)
  | next
  | prev

section Defs

variable {α κ : Type*} [LinearOrder κ] (key : α → κ) (items : List α)

def current (pos : Option Nat) : Option α :=
  pos.bind fun i => items[i]?

def seekToFirst : Option Nat :=
  if items.length = 0 then none else some 0

def seekToLast : Option Nat :=
  if items.length = 0 then none else some (items.length - 1)

/-- The first element that is not before the target. -/
def seek (target : κ) : Option Nat :=
  items.findIdx? fun x => target ≤ key x

def next (i : Nat) : Option Nat :=
  if i + 1 < items.length then some (i + 1) else none

def prev : Nat → Option Nat
  | 0 => none
  | i + 1 => some i

/-- One call; `none` if it is not allowed. -/
def call (pos : Option Nat) : Call κ → Option (Option Nat)
  | .seekToFirst => some (seekToFirst items)
  | .seekToLast => some (seekToLast items)
  | .seek target => some (seek key items target)
  | .next => pos.map (next items)
  | .prev => pos.map prev

/-- The element, if there is one, is the first with a property. -/
structure IsFirst (p : α → Prop) (o : Option α) : Prop where
  mem : ∀ x ∈ o, x ∈ items ∧ p x
  least : ∀ y ∈ items, p y → ∃ x ∈ o, key x ≤ key y

/-- The element, if there is one, is the last with a property. -/
def IsLast (p : α → Prop) (o : Option α) : Prop :=
  IsFirst (fun x => OrderDual.toDual (key x)) items p o

end Defs

section First

variable {α κ : Type*} [LinearOrder κ] {key : α → κ} {items : List α} {p : α → Prop}

theorem IsFirst.le {x y : α} (h : IsFirst key items p (some x)) (hy : y ∈ items) (hp : p y) :
    key x ≤ key y := by
  obtain ⟨z, ⟨⟩, hle⟩ := h.least y hy hp
  exact hle

theorem IsFirst.unique {o o' : Option α} (hkey : ∀ x ∈ items, ∀ y ∈ items, key x = key y → x = y)
    (h : IsFirst key items p o) (h' : IsFirst key items p o') : o = o' := by
  cases o with
  | none =>
    cases o' with
    | none => rfl
    | some y =>
      obtain ⟨hy, hp⟩ := h'.mem y rfl
      obtain ⟨x, hx, -⟩ := h.least y hy hp
      cases hx
  | some x =>
    obtain ⟨hx, hp⟩ := h.mem x rfl
    obtain ⟨y, hy, hle⟩ := h'.least x hx hp
    obtain ⟨hy', hp'⟩ := h'.mem y hy
    rw [hkey x hx y hy' (le_antisymm (h.le hy' hp') hle)]
    exact hy.symm

variable {o : Option α}

theorem isLast_iff : IsLast key items p o ↔
      (∀ x ∈ o, x ∈ items ∧ p x) ∧ ∀ y ∈ items, p y → ∃ x ∈ o, key y ≤ key x :=
  ⟨fun h => ⟨h.mem, h.least⟩, fun h => ⟨h.1, h.2⟩⟩

theorem isFirst_none (h : ∀ x ∈ items, ¬ p x) : IsFirst key items p none :=
  ⟨nofun, fun y hy hp => absurd hp (h y hy)⟩

theorem isFirst_some {x : α} (hx : x ∈ items) (hp : p x) (hle : ∀ y ∈ items, p y → key x ≤ key y) :
    IsFirst key items p (some x) :=
  ⟨fun _ h => some.inj h ▸ ⟨hx, hp⟩, fun y hy hpy => ⟨x, rfl, hle y hy hpy⟩⟩

theorem IsFirst.congr {q : α → Prop} (h : IsFirst key items p o)
    (hiff : ∀ x ∈ items, p x ↔ q x) : IsFirst key items q o := by
  refine ⟨?_, ?_⟩
  · intro x hx
    obtain ⟨hmem, hp⟩ := h.mem x hx
    exact ⟨hmem, (hiff x hmem).mp hp⟩
  · intro y hy hq
    exact h.least y hy ((hiff y hy).mpr hq)

theorem IsFirst.of_mem_iff {items' : List α} (h : IsFirst key items p o)
    (hmem : ∀ x, x ∈ items ↔ x ∈ items') : IsFirst key items' p o := by
  refine ⟨?_, ?_⟩
  · intro x hx
    obtain ⟨hitem, hp⟩ := h.mem x hx
    exact ⟨(hmem x).mp hitem, hp⟩
  · intro y hy hp
    exact h.least y ((hmem y).mpr hy) hp

variable (hsorted : items.Pairwise fun a b => key a < key b)

include hsorted

theorem eq_of_key_eq {x y : α} (hx : x ∈ items) (hy : y ∈ items) (heq : key x = key y) : x = y := by
  have hnodup : (items.map key).Nodup := pairwise_map.mpr (hsorted.imp ne_of_lt)
  exact inj_on_of_nodup_map hnodup hx hy heq

theorem key_lt_iff {i j : Nat} {x y : α} (hx : items[i]? = some x)
    (hy : items[j]? = some y) : key x < key y ↔ i < j := by
  obtain ⟨hi, rfl⟩ := List.getElem?_eq_some_iff.mp hx
  obtain ⟨hj, rfl⟩ := List.getElem?_eq_some_iff.mp hy
  rw [pairwise_iff_getElem] at hsorted
  refine ⟨?_, hsorted i j hi hj⟩
  intro hlt
  by_contra hle
  obtain hji | rfl := (Nat.le_of_not_lt hle).lt_or_eq
  · exact lt_asymm hlt (hsorted j i hj hi hji)
  · exact lt_irrefl _ hlt

variable {pos : Option Nat}

omit hsorted in
theorem isFirst_current {ω : Type*} [LinearOrder ω] {ord : α → ω}
    (hpos : ∀ i ∈ pos, ∃ x, items[i]? = some x ∧ p x)
    (hleast : ∀ (j : Nat) y, items[j]? = some y → p y →
      ∃ i ∈ pos, ∀ x, items[i]? = some x → ord x ≤ ord y) :
    IsFirst ord items p (current items pos) := by
  constructor
  · intro x hx
    obtain ⟨i, hi, hx⟩ := bind_eq_some_iff.mp hx
    obtain ⟨y, hy, hp⟩ := hpos i hi
    cases hx.symm.trans hy
    exact ⟨mem_of_getElem? hx, hp⟩
  · intro y hy hp
    obtain ⟨j, hj⟩ := getElem?_of_mem hy
    obtain ⟨i, hi, hle⟩ := hleast j y hj hp
    obtain ⟨x, hx, -⟩ := hpos i hi
    exact ⟨x, bind_eq_some_iff.mpr ⟨i, hi, hx⟩, hle x hx⟩

section Index

variable (hpos : ∀ i ∈ pos, ∃ x, items[i]? = some x ∧ p x)
include hpos

theorem isFirst_of_index (hleast : ∀ j y, items[j]? = some y → p y → ∃ i ∈ pos, i ≤ j) :
    IsFirst key items p (current items pos) := by
  refine isFirst_current hpos fun j y hj hp => ?_
  obtain ⟨i, hi, hle⟩ := hleast j y hj hp
  exact ⟨i, hi, fun x hx => not_lt.mp fun hlt => hle.not_gt ((key_lt_iff hsorted hj hx).mp hlt)⟩

theorem isLast_of_index (hgreatest : ∀ j y, items[j]? = some y → p y → ∃ i ∈ pos, j ≤ i) :
    IsLast key items p (current items pos) := by
  refine isFirst_current hpos fun j y hj hp => ?_
  obtain ⟨i, hi, hle⟩ := hgreatest j y hj hp
  exact ⟨i, hi, fun x hx => not_lt.mp fun hlt => hle.not_gt ((key_lt_iff hsorted hx hj).mp hlt)⟩

end Index

theorem isFirst_seekToFirst :
    IsFirst key items (fun _ => True) (current items (seekToFirst items)) := by
  cases items with
  | nil => exact isFirst_none nofun
  | cons x items =>
    refine isFirst_of_index hsorted ?_ fun j _ _ _ => ⟨0, rfl, Nat.zero_le j⟩
    rintro i ⟨rfl⟩
    exact ⟨x, rfl, trivial⟩

theorem isLast_seekToLast :
    IsLast key items (fun _ => True) (current items (seekToLast items)) := by
  refine isLast_of_index hsorted ?_ ?_
  · intro i hi
    rw [seekToLast] at hi
    split_ifs at hi with hzero
    · cases hi
    · cases hi
      exact ⟨items[items.length - 1], getElem?_eq_getElem (by omega), trivial⟩
  · intro j y hj _
    obtain ⟨hlt, -⟩ := List.getElem?_eq_some_iff.mp hj
    exact ⟨items.length - 1, by rw [seekToLast, if_neg (by omega)]; rfl, by omega⟩

theorem isFirst_seek (target : κ) :
    IsFirst key items (fun x => target ≤ key x) (current items (seek key items target)) := by
  refine isFirst_of_index hsorted ?_ ?_
  · intro i hi
    obtain ⟨hlt, hp, -⟩ := findIdx?_eq_some_iff_getElem.mp hi
    exact ⟨items[i], getElem?_eq_getElem hlt, of_decide_eq_true hp⟩
  · intro j y hj hp
    obtain ⟨hlt, rfl⟩ := List.getElem?_eq_some_iff.mp hj
    cases hseek : seek key items target with
    | none =>
      have := findIdx?_eq_none_iff.mp hseek _ (getElem_mem hlt)
      exact absurd hp (of_decide_eq_false this)
    | some i =>
      refine ⟨i, rfl, ?_⟩
      obtain ⟨_, _, hbefore⟩ := findIdx?_eq_some_iff_getElem.mp hseek
      by_contra hji
      have hj := hbefore j (by omega)
      exact hj (decide_eq_true hp)

theorem isFirst_next {i : Nat} {x : α} (hi : items[i]? = some x) :
    IsFirst key items (fun y => key x < key y) (current items (next items i)) := by
  refine isFirst_of_index hsorted ?_ ?_
  · intro j hj
    rw [next] at hj
    split_ifs at hj with hlt
    · cases hj
      have hget := getElem?_eq_getElem hlt
      exact ⟨_, hget, (key_lt_iff hsorted hi hget).mpr (Nat.lt_succ_self i)⟩
    · cases hj
  · intro j y hj hlt
    have hij := (key_lt_iff hsorted hi hj).mp hlt
    obtain ⟨hlength, -⟩ := List.getElem?_eq_some_iff.mp hj
    exact ⟨i + 1, by rw [next, if_pos (by omega)]; rfl, hij⟩

theorem isLast_prev {i : Nat} {x : α} (hi : items[i]? = some x) :
    IsLast key items (fun y => key y < key x) (current items (prev i)) := by
  obtain ⟨hlength, -⟩ := List.getElem?_eq_some_iff.mp hi
  refine isLast_of_index hsorted ?_ ?_
  · intro j hj
    cases i with
    | zero => cases hj
    | succ i =>
      cases hj
      have hget := getElem?_eq_getElem (by omega : j < items.length)
      exact ⟨_, hget, (key_lt_iff hsorted hget hi).mpr (Nat.lt_succ_self j)⟩
  · intro j y hj hlt
    have hij := (key_lt_iff hsorted hj hi).mp hlt
    cases i with
    | zero => omega
    | succ i => exact ⟨i, rfl, by omega⟩

theorem isLast_before {q : α → Prop} [DecidablePred q] (hup : ∀ x y, key x ≤ key y → q x → q y) :
    IsLast key items (fun x => ¬ q x) (current items (match items.findIdx? fun x => q x with
      | none => seekToLast items
      | some i => prev i)) := by
  cases hpos : items.findIdx? (fun x => q x) with
  | none =>
    refine IsFirst.congr (isLast_seekToLast hsorted) fun y hy => ⟨fun _ => ?_, fun _ => trivial⟩
    exact of_decide_eq_false (findIdx?_eq_none_iff.mp hpos y hy)
  | some i =>
    obtain ⟨hlt, hafter, hbefore⟩ := findIdx?_eq_some_iff_getElem.mp hpos
    have hget := getElem?_eq_getElem hlt
    refine IsFirst.congr (isLast_prev hsorted hget) fun y hy => ⟨fun hyi => ?_, fun hnot => ?_⟩
    · obtain ⟨j, hj⟩ := getElem?_of_mem hy
      obtain ⟨hjlt, rfl⟩ := List.getElem?_eq_some_iff.mp hj
      have hji := (key_lt_iff hsorted hj hget).mp hyi
      exact fun h => hbefore j hji (decide_eq_true h)
    · exact not_le.mp fun hle => hnot (hup _ y hle (of_decide_eq_true hafter))

end First

section Behaves

variable {α κ σ : Type*} [LinearOrder κ]

/-- What an implementation of a cursor does in each call that does not go backward; `view` is
what it shows. -/
structure ForwardBehaves
    (key : α → κ) (items : List α) (step : σ → Call κ → Option σ) (view : σ → Option α)
    (Inv : σ → Prop) : Prop where
  seekToFirst : ∀ s, Inv s → ∃ s', step s .seekToFirst = some s' ∧ Inv s' ∧
    IsFirst key items (fun _ => True) (view s')
  seek : ∀ s target, Inv s → ∃ s', step s (.seek target) = some s' ∧ Inv s' ∧
    IsFirst key items (fun x => target ≤ key x) (view s')
  next : ∀ s x, Inv s → view s = some x → ∃ s', step s .next = some s' ∧ Inv s' ∧
    IsFirst key items (fun y => key x < key y) (view s')
  next_none : ∀ s, Inv s → view s = none → step s .next = none

/-- What an implementation of a cursor does in each call. -/
structure Behaves
    (key : α → κ) (items : List α) (step : σ → Call κ → Option σ) (view : σ → Option α)
    (Inv : σ → Prop) : Prop extends ForwardBehaves key items step view Inv where
  seekToLast : ∀ s, Inv s → ∃ s', step s .seekToLast = some s' ∧ Inv s' ∧
    IsLast key items (fun _ => True) (view s')
  prev : ∀ s x, Inv s → view s = some x → ∃ s', step s .prev = some s' ∧ Inv s' ∧
    IsLast key items (fun y => key y < key x) (view s')
  prev_none : ∀ s, Inv s → view s = none → step s .prev = none

variable {key : α → κ} {items : List α} {step : σ → Call κ → Option σ} {view : σ → Option α}
  {Inv : σ → Prop}

def Inside (items : List α) (pos : Option Nat) : Prop :=
  ∀ i ∈ pos, i < items.length

theorem Inside.eq_none {pos : Option Nat} (h : Inside items pos) (hnone : current items pos = none) :
    pos = none := by
  cases pos with
  | none => rfl
  | some i =>
    have hget : items[i]? = some _ := getElem?_eq_getElem (h i rfl)
    cases hnone.symm.trans hget

variable {c : Call κ}

theorem inside_call {pos pos' : Option Nat} (h : Inside items pos)
    (hcall : call key items pos c = some pos') : Inside items pos' := by
  intro i hi
  cases c with
  | seekToFirst =>
    cases hcall
    rw [Cursor.seekToFirst] at hi
    split_ifs at hi with hzero
    · cases hi
    · cases hi
      omega
  | seekToLast =>
    cases hcall
    rw [Cursor.seekToLast] at hi
    split_ifs at hi with hzero
    · cases hi
    · cases hi
      omega
  | seek target =>
    cases hcall
    exact (findIdx?_eq_some_iff_getElem.mp hi).1
  | next =>
    obtain ⟨j, -, rfl⟩ := map_eq_some_iff.mp hcall
    rw [Cursor.next] at hi
    split_ifs at hi with hlt
    · cases hi
      exact hlt
    · cases hi
  | prev =>
    obtain ⟨j, hj, rfl⟩ := map_eq_some_iff.mp hcall
    have := h j hj
    cases j with
    | zero => cases hi
    | succ j =>
      cases hi
      omega

theorem Behaves.preserves (h : Behaves key items step view Inv) {s s' : σ} (hs : Inv s)
    (hstep : step s c = some s') : Inv s' := by
  have hdone : ∀ {P : Option α → Prop}, (∃ t, step s c = some t ∧ Inv t ∧ P (view t)) → Inv s' := by
    rintro P ⟨t, ht, hinv, -⟩
    exact some.inj (ht.symm.trans hstep) ▸ hinv
  cases c with
  | seekToFirst => exact hdone (h.seekToFirst s hs)
  | seekToLast => exact hdone (h.seekToLast s hs)
  | seek target => exact hdone (h.seek s target hs)
  | next =>
    cases hview : view s with
    | none => cases (h.next_none s hs hview).symm.trans hstep
    | some x => exact hdone (h.next s x hs hview)
  | prev =>
    cases hview : view s with
    | none => cases (h.prev_none s hs hview).symm.trans hstep
    | some x => exact hdone (h.prev s x hs hview)

/-- A cursor is an implementation. -/
theorem cursor_behaves (hsorted : items.Pairwise fun a b => key a < key b) :
    Behaves key items (call key items) (current items) (Inside items) where
  seekToFirst _ h :=
    have hcall : call key items _ .seekToFirst = some _ := rfl
    ⟨_, hcall, inside_call h hcall, isFirst_seekToFirst hsorted⟩
  seekToLast _ h :=
    have hcall : call key items _ .seekToLast = some _ := rfl
    ⟨_, hcall, inside_call h hcall, isLast_seekToLast hsorted⟩
  seek _ target h :=
    have hcall : call key items _ (.seek target) = some _ := rfl
    ⟨_, hcall, inside_call h hcall, isFirst_seek hsorted target⟩
  next pos x h hx := by
    obtain ⟨i, rfl, hi⟩ := bind_eq_some_iff.mp hx
    have hcall : call key items (some i) .next = some _ := rfl
    exact ⟨_, hcall, inside_call h hcall, isFirst_next hsorted hi⟩
  prev pos x h hx := by
    obtain ⟨i, rfl, hi⟩ := bind_eq_some_iff.mp hx
    have hcall : call key items (some i) .prev = some _ := rfl
    exact ⟨_, hcall, inside_call h hcall, isLast_prev hsorted hi⟩
  next_none pos h hnone := by
    rw [h.eq_none hnone]
    rfl
  prev_none pos h hnone := by
    rw [h.eq_none hnone]
    rfl

/-- A state of another implementation, seen through an embedding. -/
structure Embeds
    {σ' : Type*} (key : α → κ) (items : List α) (step : σ → Call κ → Option σ) (view : σ → Option α)
    (Inv : σ → Prop) (f : σ' → σ) (step' : σ' → Call κ → Option σ') (view' : σ' → Option α)
    (Inv' : σ' → Prop) : Prop where
  behaves : Behaves key items step' view' Inv'
  step_eq : ∀ s c, step (f s) c = (step' s c).map f
  view_eq : ∀ s, view (f s) = view' s
  inv : ∀ s, Inv' s → Inv (f s)

theorem Embeds.exists_step {σ' : Type*} {f : σ' → σ} {step' : σ' → Call κ → Option σ'}
    {view' : σ' → Option α} {Inv' : σ' → Prop}
    (h : Embeds key items step view Inv f step' view' Inv') {s : σ'} {P : Option α → Prop}
    (hstep : ∃ s', step' s c = some s' ∧ Inv' s' ∧ P (view' s')) :
    ∃ s', step (f s) c = some s' ∧ Inv s' ∧ P (view s') := by
  obtain ⟨s', hs', hinv, hP⟩ := hstep
  refine ⟨f s', ?_, h.inv s' hinv, ?_⟩
  · rw [h.step_eq, hs', map_some]
  · rw [h.view_eq]
    exact hP

/-- An implementation each of whose states is one of some other implementation. -/
theorem behaves_of_embeds
    (h : ∀ s, Inv s → ∃ (σ' : Type) (f : σ' → σ) (step' : σ' → Call κ → Option σ')
      (view' : σ' → Option α) (Inv' : σ' → Prop) (s' : σ'),
        Embeds key items step view Inv f step' view' Inv' ∧ Inv' s' ∧ f s' = s) :
    Behaves key items step view Inv where
  seekToFirst s hs := by
    obtain ⟨_, f, _, _, _, s', he, hs', rfl⟩ := h s hs
    exact he.exists_step (he.behaves.seekToFirst s' hs')
  seekToLast s hs := by
    obtain ⟨_, f, _, _, _, s', he, hs', rfl⟩ := h s hs
    exact he.exists_step (he.behaves.seekToLast s' hs')
  seek s target hs := by
    obtain ⟨_, f, _, _, _, s', he, hs', rfl⟩ := h s hs
    exact he.exists_step (he.behaves.seek s' target hs')
  next s x hs hx := by
    obtain ⟨_, f, _, _, _, s', he, hs', rfl⟩ := h s hs
    rw [he.view_eq] at hx
    exact he.exists_step (he.behaves.next s' x hs' hx)
  prev s x hs hx := by
    obtain ⟨_, f, _, _, _, s', he, hs', rfl⟩ := h s hs
    rw [he.view_eq] at hx
    exact he.exists_step (he.behaves.prev s' x hs' hx)
  next_none s hs hnone := by
    obtain ⟨_, f, _, _, _, s', he, hs', rfl⟩ := h s hs
    rw [he.view_eq] at hnone
    rw [he.step_eq, he.behaves.next_none s' hs' hnone, map_none]
  prev_none s hs hnone := by
    obtain ⟨_, f, _, _, _, s', he, hs', rfl⟩ := h s hs
    rw [he.view_eq] at hnone
    rw [he.step_eq, he.behaves.prev_none s' hs' hnone, map_none]

/-- What an implementation and a cursor that show the same element do in one call: it is
allowed for both or for none, and they show the same element again. -/
def CallsAgree {γ : Type*} (items : List α) (step : σ → γ → Option σ)
    (cursor : Option Nat → γ → Option (Option Nat)) (view : σ → Option α) (Inv : σ → Prop)
    (c : γ) : Prop :=
  ∀ s pos, Inv s → Inside items pos → view s = current items pos →
    (step s c = none ∧ cursor pos c = none) ∨
      ∃ s' pos', step s c = some s' ∧ cursor pos c = some pos' ∧ Inv s' ∧ Inside items pos' ∧
        view s' = current items pos'

variable {s : σ} {pos : Option Nat}

theorem agree_of_isFirst {γ ω : Type*} [LinearOrder ω] {ord : α → ω} {p : α → Prop}
    {step : σ → γ → Option σ} {cursor : Option Nat → γ → Option (Option Nat)} {c : γ}
    (hsorted : items.Pairwise fun a b => key a < key b)
    (hord : ∀ x y, ord x = ord y → key x = key y)
    (hstep : ∃ s', step s c = some s' ∧ Inv s' ∧ IsFirst ord items p (view s'))
    (hcursor : ∃ pos', cursor pos c = some pos' ∧ Inside items pos' ∧
      IsFirst ord items p (current items pos')) :
    (step s c = none ∧ cursor pos c = none) ∨
      ∃ s' pos', step s c = some s' ∧ cursor pos c = some pos' ∧ Inv s' ∧ Inside items pos' ∧
        view s' = current items pos' := by
  obtain ⟨s', hs', hinv, hfirst⟩ := hstep
  obtain ⟨pos', hpos', hinside, hfirst'⟩ := hcursor
  refine .inr ⟨s', pos', hs', hpos', hinv, hinside, hfirst.unique ?_ hfirst'⟩
  exact fun x hx y hy heq => eq_of_key_eq hsorted hx hy (hord x y heq)

/-- **A sequence of calls** that agree shows the same element at its end. -/
theorem run_agrees {γ : Type*} {step : σ → γ → Option σ}
    {cursor : Option Nat → γ → Option (Option Nat)} {calls : List γ}
    (h : ∀ c ∈ calls, CallsAgree items step cursor view Inv c) (hs : Inv s)
    (hpos : Inside items pos) (hview : view s = current items pos) :
    (calls.foldlM step s).map view = (calls.foldlM cursor pos).map (current items) ∧
      ∀ s', calls.foldlM step s = some s' → Inv s' := by
  induction calls generalizing s pos with
  | nil =>
    refine ⟨congrArg some hview, ?_⟩
    intro s' hs'
    cases hs'
    exact hs
  | cons c calls ih =>
    rw [foldlM_cons, foldlM_cons]
    obtain ⟨hfirst, hrest⟩ := forall_mem_cons.mp h
    rcases hfirst s pos hs hpos hview with
      ⟨hstep, hcall⟩ | ⟨s', pos', hstep, hcall, hs', hpos', hv⟩
    · rw [hstep, hcall]
      exact ⟨rfl, fun s' hs' => by cases hs'⟩
    · rw [hstep, hcall]
      exact ih hrest hs' hpos' hv

/-- The calls that do not go backward. -/
def Call.Forward : Call κ → Prop
  | .seekToFirst => True
  | .seekToLast => False
  | .seek _ => True
  | .next => True
  | .prev => False

theorem ForwardBehaves.of_mem_iff {items' : List α} (h : ForwardBehaves key items step view Inv)
    (hmem : ∀ x, x ∈ items ↔ x ∈ items') : ForwardBehaves key items' step view Inv where
  seekToFirst s hs := by
    obtain ⟨s', hstep, hs', hfirst⟩ := h.seekToFirst s hs
    exact ⟨s', hstep, hs', hfirst.of_mem_iff hmem⟩
  seek s target hs := by
    obtain ⟨s', hstep, hs', hfirst⟩ := h.seek s target hs
    exact ⟨s', hstep, hs', hfirst.of_mem_iff hmem⟩
  next s x hs hx := by
    obtain ⟨s', hstep, hs', hfirst⟩ := h.next s x hs hx
    exact ⟨s', hstep, hs', hfirst.of_mem_iff hmem⟩
  next_none := h.next_none

theorem Behaves.of_mem_iff {items' : List α} (h : Behaves key items step view Inv)
    (hmem : ∀ x, x ∈ items ↔ x ∈ items') : Behaves key items' step view Inv where
  __ := h.toForwardBehaves.of_mem_iff hmem
  seekToLast s hs := by
    rcases h.seekToLast s hs with ⟨s', hstep, hs', hlast⟩
    exact ⟨s', hstep, hs', IsFirst.of_mem_iff hlast hmem⟩
  prev s x hs hx := by
    rcases h.prev s x hs hx with ⟨s', hstep, hs', hlast⟩
    exact ⟨s', hstep, hs', IsFirst.of_mem_iff hlast hmem⟩
  prev_none := h.prev_none

theorem ForwardBehaves.call (h : ForwardBehaves key items step view Inv)
    (hsorted : items.Pairwise fun a b => key a < key b)
    (hc : c.Forward) : CallsAgree items step (Cursor.call key items) view Inv c := by
  intro s pos hs hpos hview
  have hcursor := cursor_behaves hsorted
  cases c with
  | seekToFirst =>
    exact agree_of_isFirst hsorted (fun _ _ => id) (h.seekToFirst s hs)
      (hcursor.seekToFirst pos hpos)
  | seekToLast => cases hc
  | seek target =>
    exact agree_of_isFirst hsorted (fun _ _ => id) (h.seek s target hs)
      (hcursor.seek pos target hpos)
  | next =>
    cases hx : view s with
    | none => exact .inl ⟨h.next_none s hs hx, hcursor.next_none pos hpos (hview.symm.trans hx)⟩
    | some x =>
      exact agree_of_isFirst hsorted (fun _ _ => id) (h.next s x hs hx)
        (hcursor.next pos x hpos (hview.symm.trans hx))
  | prev => cases hc

/-- **Every sequence of calls that do not go backward** shows what a cursor shows. -/
theorem ForwardBehaves.run (h : ForwardBehaves key items step view Inv)
    (hsorted : items.Pairwise fun a b => key a < key b) (hs : Inv s) (hpos : Inside items pos)
    (hview : view s = current items pos) {calls : List (Call κ)} (hcalls : ∀ c ∈ calls, c.Forward) :
    (calls.foldlM step s).map view =
      (calls.foldlM (Cursor.call key items) pos).map (current items) :=
  (run_agrees (fun c hc => h.call hsorted (hcalls c hc)) hs hpos hview).1

section

variable (h : Behaves key items step view Inv) (hsorted : items.Pairwise fun a b => key a < key b)
include h hsorted

theorem Behaves.call (c : Call κ) : CallsAgree items step (Cursor.call key items) view Inv c := by
  have hcursor := cursor_behaves hsorted
  have hkey : ∀ x y, OrderDual.toDual (key x) = OrderDual.toDual (key y) → key x = key y :=
    fun _ _ h => h
  cases c with
  | seekToFirst | seek target | next => exact h.toForwardBehaves.call hsorted trivial
  | seekToLast =>
    intro s pos hs hpos _
    exact agree_of_isFirst hsorted hkey (h.seekToLast s hs) (hcursor.seekToLast pos hpos)
  | prev =>
    intro s pos hs hpos hview
    cases hx : view s with
    | none => exact .inl ⟨h.prev_none s hs hx, hcursor.prev_none pos hpos (hview.symm.trans hx)⟩
    | some x =>
      exact agree_of_isFirst hsorted hkey (h.prev s x hs hx)
        (hcursor.prev pos x hpos (hview.symm.trans hx))

/-- **Every sequence of calls** is allowed for the implementation when it is allowed for
the cursor, and both show the same element at its end. -/
theorem Behaves.run (hs : Inv s) (hpos : Inside items pos) (hview : view s = current items pos)
    (calls : List (Call κ)) : (calls.foldlM step s).map view =
        (calls.foldlM (Cursor.call key items) pos).map (current items) ∧
      ∀ s', calls.foldlM step s = some s' → Inv s' :=
  run_agrees (fun c _ => h.call hsorted c) hs hpos hview

end

end Behaves

section SeekForPrev

variable {α κ σ : Type*} [LinearOrder κ]

/-- The calls of an iterator that can also seek from above. -/
inductive BidiCall (κ : Type*)
  | call (c : Call κ)
  | seekForPrev (target : κ)

/-- The last element that is not after the target. -/
def seekForPrev (key : α → κ) (items : List α) (target : κ) : Option Nat :=
  match items.findIdx? fun x => target < key x with
  | none => seekToLast items
  | some i => prev i

/-- One call; `none` if it is not allowed. -/
def bidiCall (key : α → κ) (items : List α) (pos : Option Nat) : BidiCall κ → Option (Option Nat)
  | .call c => call key items pos c
  | .seekForPrev target => some (seekForPrev key items target)

variable {key : α → κ} {items : List α}

theorem inside_bidiCall {pos pos' : Option Nat} {c : BidiCall κ} (h : Inside items pos)
    (hcall : bidiCall key items pos c = some pos') : Inside items pos' := by
  cases c with
  | call c => exact inside_call h hcall
  | seekForPrev target =>
    cases hcall
    intro i hi
    rw [seekForPrev] at hi
    cases hpos : items.findIdx? (fun x => target < key x) with
    | none =>
      rw [hpos] at hi
      have hlast : call key items pos .seekToLast = some (seekToLast items) := rfl
      exact inside_call h hlast i hi
    | some j =>
      rw [hpos] at hi
      obtain ⟨hlt, -, -⟩ := findIdx?_eq_some_iff_getElem.mp hpos
      cases j with
      | zero => cases hi
      | succ j =>
        cases hi
        omega

/-- What an implementation does in each call, seeking from above included. -/
structure BidiBehaves
    (key : α → κ) (items : List α) (step : σ → BidiCall κ → Option σ) (view : σ → Option α)
    (Inv : σ → Prop) : Prop where
  base : Behaves key items (fun s c => step s (.call c)) view Inv
  seekForPrev : ∀ s target, Inv s → ∃ s', step s (.seekForPrev target) = some s' ∧ Inv s' ∧
    IsLast key items (fun x => key x ≤ target) (view s')

variable {step : σ → BidiCall κ → Option σ} {view : σ → Option α} {Inv : σ → Prop}

section

variable (h : BidiBehaves key items step view Inv)
  (hsorted : items.Pairwise fun a b => key a < key b)
include h hsorted

theorem BidiBehaves.call
    (c : BidiCall κ) : CallsAgree items step (bidiCall key items) view Inv c := by
  cases c with
  | call c => exact h.base.call hsorted c
  | seekForPrev target =>
    intro s pos hs hpos _
    have hkey : ∀ x y, OrderDual.toDual (key x) = OrderDual.toDual (key y) → key x = key y :=
      fun _ _ h => h
    exact agree_of_isFirst hsorted hkey
      (h.seekForPrev s target hs) ⟨_, rfl, inside_bidiCall (c := .seekForPrev target) hpos rfl,
        IsFirst.congr (isLast_before hsorted fun _ _ hle hlt => lt_of_lt_of_le hlt hle)
          fun _ _ => not_lt⟩

/-- **Every sequence of calls**, as for `Behaves.run`. -/
theorem BidiBehaves.run {s : σ} {pos : Option Nat} (hs : Inv s)
    (hpos : Inside items pos) (hview : view s = current items pos) (calls : List (BidiCall κ)) :
    (calls.foldlM step s).map view = (calls.foldlM (bidiCall key items) pos).map (current items) :=
  (run_agrees (fun c _ => h.call hsorted c) hs hpos hview).1

end

end SeekForPrev

end HotTLBApps.Cursor
