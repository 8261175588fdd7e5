import Mathlib.Tactic

/-!
# Slices of one buffer

Lists of given lengths that lie one after another in a buffer.  Slice `i` starts at
the sum of the lengths before it.

`scatter` fills the slices from events `(i, a)`: each value goes to the next free
place of its slice.  If the lengths are the numbers of events of each slice, then
nothing is written outside the buffer, and every slice holds the values of its
events in their order (`scatter_spec`).  `copyRows` fills the slices with whole rows
(`copyRows_starts`).

An access outside the buffer is `none`.
-/

namespace HotTLBApps.Slices

open List Function Option

universe u

variable {α : Type u}

/-- A write to a place of the buffer. -/
def write? (buffer : List α) (i : Nat) (a : α) : Option (List α) :=
  if i < buffer.length then some (buffer.set i a) else none

/-- Where a slice starts. -/
def start (lengths : List Nat) (i : Nat) : Nat :=
  (lengths.take i).sum

/-- Where the slices start, and the end of the last one. -/
def starts (lengths : List Nat) : List Nat :=
  (List.range (lengths.length + 1)).map (start lengths)

/-- The part of the buffer between two neighbouring offsets. -/
def slice (offsets : List Nat) (buffer : List α) (i : Nat) : List α :=
  (buffer.drop (offsets.getD i 0)).take (offsets.getD (i + 1) 0 - offsets.getD i 0)

/-- A value goes to the next free place of its slice. -/
def place (state : List Nat × List α) (event : Nat × α) : Option (List Nat × List α) :=
  match state.1[event.1]? with
  | none => none
  | some i => (write? state.2 i event.2).map fun buffer => (state.1.set event.1 (i + 1), buffer)

/-- Values are placed one after another. -/
def scatter (state : List Nat × List α) : List (Nat × α) → Option (List Nat × List α)
  | [] => some state
  | event :: events => (place state event).bind fun next => scatter next events

/-- The values between two places of the buffer. -/
def range? (buffer : List α) (i j : Nat) : Option (List α) :=
  if i ≤ j ∧ j ≤ buffer.length then some ((buffer.drop i).take (j - i)) else none

/-- How often each place occurs among some events; `none` for an event outside. -/
def tally (counts : List Nat) : List Nat → Option (List Nat)
  | [] => some counts
  | i :: events =>
      match counts[i]? with
      | none => none
      | some c => tally (counts.set i (c + 1)) events

/-- The sums of what stands before each place, from a given total on. -/
def sumsFrom (total : Nat) : List Nat → List Nat
  | [] => []
  | d :: ds => total :: sumsFrom (total + d) ds

/-- Values that are copied over a part of the buffer. -/
def copy? (buffer : List α) (i : Nat) (row : List α) : Option (List α) :=
  if i + row.length ≤ buffer.length then
    some (buffer.take i ++ row ++ buffer.drop (i + row.length))
  else
    none

/-- The rows are copied to their offsets, from row number `i` on. -/
def copyRows (offsets : List Nat) (buffer : List α) : Nat → List (List α) → Option (List α)
  | _, [] => some buffer
  | i, row :: rows =>
      match offsets[i]? with
      | none => none
      | some k => (copy? buffer k row).bind fun next => copyRows offsets next (i + 1) rows

/-- A function is applied to every slice in its place. -/
def mapSlices
    (f : List α → List α) (offsets : List Nat) (n : Nat) (buffer : List α) : Option (List α) :=
  copyRows offsets buffer 0 ((List.range n).map fun i => f (slice offsets buffer i))

variable {i : Nat}

theorem write?_of_lt {buffer : List α} (h : i < buffer.length) (a : α) :
    write? buffer i a = some (buffer.set i a) :=
  if_pos h

variable {lengths : List Nat}

theorem start_succ (hi : i < lengths.length) :
    start lengths (i + 1) = start lengths i + lengths[i] := by
  rw [start, start, take_add_one, getElem?_eq_getElem hi, toList_some, sum_append, sum_singleton]

variable {i j : Nat}

theorem start_mono (lengths : List Nat) (h : i ≤ j) : start lengths i ≤ start lengths j := by
  obtain ⟨k, rfl⟩ := Nat.exists_eq_add_of_le h
  rw [start, start, take_add, sum_append]
  exact Nat.le_add_right _ _

theorem start_length (lengths : List Nat) : start lengths lengths.length = lengths.sum := by
  rw [start, take_length]

theorem start_add_le (hi : i < lengths.length) (hij : i < j) :
    start lengths i + lengths[i] ≤ start lengths j :=
  start_succ hi ▸ start_mono lengths hij

theorem start_add_le_sum (hi : i < lengths.length) : start lengths i + lengths[i] ≤ lengths.sum :=
  start_length lengths ▸ start_add_le hi hi

theorem start_add_injective {i i' j j' : Nat} (hi : i < lengths.length) (hi' : i' < lengths.length)
    (hj : j < lengths[i]) (hj' : j' < lengths[i'])
    (h : start lengths i + j = start lengths i' + j') : i = i' ∧ j = j' := by
  obtain hlt | rfl | hlt := lt_trichotomy i i'
  · have hle := start_add_le hi hlt
    omega
  · exact ⟨rfl, by omega⟩
  · have hle := start_add_le hi' hlt
    omega

@[simp]
theorem length_starts (lengths : List Nat) : (starts lengths).length = lengths.length + 1 := by
  simp [starts]

theorem starts_getElem? (hi : i ≤ lengths.length) :
    (starts lengths)[i]? = some (start lengths i) := by
  simp [starts, Nat.lt_succ_of_le hi]

theorem starts_getD (hi : i ≤ lengths.length) : (starts lengths).getD i 0 = start lengths i := by
  rw [getD_eq_getElem?_getD, starts_getElem? hi, getD_some]

theorem slice_starts (buffer : List α) (hi : i < lengths.length) :
    slice (starts lengths) buffer i = (buffer.drop (start lengths i)).take lengths[i] := by
  rw [slice, starts_getD hi.le, starts_getD (Nat.succ_le_of_lt hi), start_succ hi,
    Nat.add_sub_cancel_left]

theorem sumsFrom_eq (total : Nat) (lengths : List Nat) : sumsFrom total lengths =
      (range lengths.length).map fun i => total + start lengths i := by
  induction lengths generalizing total with
  | nil => rfl
  | cons d ds ih =>
    rw [sumsFrom, ih, List.length_cons, List.range_succ_eq_map, List.map_cons, List.map_map]
    have hstart : ∀ i, start (d :: ds) (i + 1) = d + start ds i := by
      intro i
      rw [start, take_succ_cons, sum_cons, start]
    simp only [comp_def, Nat.succ_eq_add_one, hstart]
    simp only [start, take_zero, sum_nil, Nat.add_zero, Nat.add_assoc]

theorem starts_eq_sumsFrom (lengths : List Nat) :
    starts lengths = sumsFrom 0 lengths ++ [lengths.sum] := by
  rw [starts, range_succ, map_append, sumsFrom_eq]
  simp [start_length]

theorem tally_eq {counts : List Nat} {events : List Nat} (h : ∀ i ∈ events, i < counts.length) :
    tally counts events = some (counts.mapIdx fun i c => c + events.count i) := by
  induction events generalizing counts with
  | nil =>
    rw [tally]
    congr 1
    apply ext_getElem <;> simp
  | cons k events ih =>
    have hk : k < counts.length := h k mem_cons_self
    rw [tally, getElem?_eq_getElem hk]
    dsimp only
    rw [ih]
    · congr 1
      apply ext_getElem
      · simp
      · intro i hi hi'
        rw [getElem_mapIdx, getElem_mapIdx, getElem_set, count_cons]
        by_cases hik : k = i
        · subst hik
          simp only [if_true, beq_self_eq_true]
          omega
        · simp [hik]
    · intro i hi
      rw [length_set]
      exact h i (mem_cons_of_mem _ hi)

theorem tally_replicate {n : Nat} {events : List Nat} (h : ∀ i ∈ events, i < n) :
    tally (replicate n 0) events = some ((range n).map fun i => events.count i) := by
  rw [tally_eq]
  · congr 1
    apply ext_getElem
    · simp
    · intro i hi hi'
      simp
  · intro i hi
    rw [length_replicate]
    exact h i hi

variable {rows : List (List α)}

/-- Copying goes on where the rows before end. -/
theorem copyRows_from (before after : List (List α)) {rest : List α}
    (hrows : rows = before ++ after) (hrest : rest.length = (after.map length).sum) :
    copyRows (starts (rows.map length)) (before.flatten ++ rest) before.length after =
      some rows.flatten := by
  induction after generalizing before rest with
  | nil =>
    have hnil : rest = [] := eq_nil_of_length_eq_zero hrest
    rw [copyRows, hrows, hnil]
    simp
  | cons row after ih =>
    have hstart : start (rows.map length) before.length = before.flatten.length := by
      rw [start, hrows, map_append, take_left' (length_map ..), length_flatten]
    rw [map_cons, sum_cons] at hrest
    have hlength : before.length ≤ (rows.map length).length := by
      rw [hrows]
      simp
    have hcopy : copy? (before.flatten ++ rest) before.flatten.length row =
        some ((before ++ [row]).flatten ++ rest.drop row.length) := by
      rw [copy?, if_pos (by rw [length_append]; omega), take_left,
        drop_append, flatten_append, flatten_singleton]
      simp
    rw [copyRows, starts_getElem? hlength, hstart]
    dsimp only
    rw [hcopy]
    have hnext := ih (before ++ [row]) (by rw [hrows]; simp)
      (show (rest.drop row.length).length = _ by rw [length_drop]; omega)
    rwa [length_append, length_singleton] at hnext

variable {buffer : List α}

/-- **Copying rows to their places** lays them one after another. -/
theorem copyRows_starts (hbuffer : buffer.length = (rows.map length).sum) :
    copyRows (starts (rows.map length)) buffer 0 rows = some rows.flatten :=
  copyRows_from [] rows rfl hbuffer

theorem slice_flatten (hi : i < rows.length) :
    slice (starts (rows.map length)) rows.flatten i = rows[i] := by
  rw [← drop_take_succ_flatten_eq_getElem rows i hi, drop_take, slice,
    starts_getD (by rw [length_map]; omega), starts_getD (by rw [length_map]; omega)]
  rfl

theorem flatten_eq_append (hi : i < rows.length) :
    rows.flatten = (rows.take i).flatten ++ (rows[i] ++ (rows.drop (i + 1)).flatten) ∧
      (rows.take i).flatten.length = start (rows.map length) i := by
  constructor
  · conv_lhs => rw [← take_append_drop i rows, drop_eq_getElem_cons hi]
    rw [flatten_append, flatten_cons]
  · rw [length_flatten, start, map_take]

theorem getElem?_flatten (hi : i < rows.length) (hj : j < rows[i].length) :
    rows.flatten[start (rows.map length) i + j]? = rows[i][j]? := by
  obtain ⟨hsplit, hstart⟩ := flatten_eq_append hi
  rw [hsplit, ← hstart, getElem?_append_right (by omega), Nat.add_sub_cancel_left,
    getElem?_append_left hj]

theorem write?_flatten (hi : i < rows.length) (hj : j < rows[i].length) (a : α) :
    write? rows.flatten (start (rows.map length) i + j) a =
      some (rows.set i (rows[i].set j a)).flatten := by
  obtain ⟨hsplit, hstart⟩ := flatten_eq_append hi
  have hlt : start (rows.map length) i + j < rows.flatten.length := by
    rw [hsplit, length_append, length_append, hstart]
    omega
  have hset : (rows.set i (rows[i].set j a)).flatten =
      (rows.take i).flatten ++ (rows[i].set j a ++ (rows.drop (i + 1)).flatten) := by
    rw [set_eq_take_append_cons_drop, if_pos hi, flatten_append, flatten_cons]
  rw [write?_of_lt hlt, hset]
  conv_lhs => rw [hsplit]
  rw [← hstart, set_append_right _ _ (by omega), Nat.add_sub_cancel_left, set_append_left _ _ hj]

theorem range?_append {buffer l : List α} (h : range? buffer i j = some l)
    (tail : List α) : range? (buffer ++ tail) i j = some l := by
  rw [range?] at h ⊢
  split_ifs at h with hle
  have hle' : i ≤ j ∧ j ≤ (buffer ++ tail).length := by
    rw [length_append]
    omega
  rw [if_pos hle', ← h, drop_append_of_le_length (by omega),
    take_append_of_le_length (by rw [length_drop]; omega)]

theorem range?_flatten {i k : Nat} (hi : i < rows.length) (hk : k ≤ rows[i].length) :
    range? rows.flatten (start (rows.map length) i + k)
      (start (rows.map length) (i + 1)) = some (rows[i].drop k) := by
  obtain ⟨hsplit, hstart⟩ := flatten_eq_append hi
  have hsucc := start_succ (show i < (rows.map length).length by rwa [length_map])
  rw [getElem_map] at hsucc
  have hle : start (rows.map length) (i + 1) ≤ rows.flatten.length := by
    rw [hsplit, length_append, length_append, hstart]
    omega
  rw [range?, if_pos ⟨by omega, hle⟩, hsplit, ← hstart, ← drop_drop, drop_left,
    hsucc, ← hstart, drop_append_of_le_length hk, take_left']
  rw [length_drop]
  omega

theorem flatten_slices (hbuffer : buffer.length = lengths.sum) :
    ((range lengths.length).map (slice (starts lengths) buffer)).flatten = buffer := by
  have htake : ∀ k ≤ lengths.length, ((range k).map (slice (starts lengths) buffer)).flatten =
        buffer.take (start lengths k) := by
    intro k
    induction k with
    | zero => simp [start]
    | succ k ih =>
      intro hk
      rw [range_succ, map_append, flatten_append, ih (by omega), start_succ hk, take_add]
      simp [slice_starts buffer hk]
  rw [htake _ le_rfl, start_length, ← hbuffer, take_length]

theorem length_slice_starts (hbuffer : buffer.length = lengths.sum)
    (hi : i < lengths.length) : (slice (starts lengths) buffer i).length = lengths[i] := by
  have hle := start_add_le_sum hi
  rw [slice_starts buffer hi, length_take, length_drop]
  omega

/-- **A function of the slices** that keeps their lengths. -/
theorem mapSlices_starts {f : List α → List α} (hf : ∀ l, (f l).length = l.length)
    (hbuffer : buffer.length = lengths.sum) :
    ∃ buffer', mapSlices f (starts lengths) lengths.length buffer = some buffer' ∧
      buffer'.length = lengths.sum ∧
      ∀ i < lengths.length,
        slice (starts lengths) buffer' i = f (slice (starts lengths) buffer i) := by
  generalize hrows : ((range lengths.length).map fun i =>
    f (slice (starts lengths) buffer i)) = rows
  have hlengths : rows.map length = lengths := by
    rw [← hrows, List.map_map]
    apply ext_getElem
    · simp
    · intro i hi hi'
      simp [hf, length_slice_starts hbuffer hi']
  refine ⟨rows.flatten, ?_, ?_, ?_⟩
  · have hcopy := copyRows_starts (hbuffer.trans (congrArg sum hlengths.symm))
    rw [hlengths] at hcopy
    rw [mapSlices, hrows, hcopy]
  · rw [length_flatten, hlengths]
  · intro i hi
    have hi' : i < rows.length := by
      rw [← hrows, length_map, length_range]
      exact hi
    have hslice := slice_flatten hi'
    rw [hlengths] at hslice
    rw [hslice]
    simp [← hrows]

/-- The values of a slice. -/
def valuesOf (events : List (Nat × α)) (i : Nat) : List α :=
  (events.filter fun e => e.1 = i).map Prod.snd

theorem valuesOf_append (events events' : List (Nat × α)) (i : Nat) :
    valuesOf (events ++ events') i = valuesOf events i ++ valuesOf events' i := by
  simp [valuesOf]

variable {events : List (Nat × α)}

theorem valuesOf_concat (events : List (Nat × α)) (k : Nat) (a : α) (i : Nat) :
    valuesOf (events ++ [(k, a)]) i = valuesOf events i ++ if k = i then [a] else [] := by
  rw [valuesOf_append]
  by_cases hk : k = i <;> simp [valuesOf, hk]

theorem mem_valuesOf {a : α} : a ∈ valuesOf events i ↔ (i, a) ∈ events := by
  simp [valuesOf]

theorem length_valuesOf (events : List (Nat × α)) (i : Nat) :
    (valuesOf events i).length = (events.map Prod.fst).count i := by
  rw [valuesOf, length_map, ← countP_eq_length_filter, count, countP_map]
  congr 1

theorem valuesOf_flatMap {ι : Type u} (l : List ι) (f : ι → List (Nat × α)) (i : Nat) :
    valuesOf (l.flatMap f) i = l.flatMap fun x => valuesOf (f x) i := by
  induction l with
  | nil => rfl
  | cons x l ih => rw [flatMap_cons, valuesOf_append, ih, flatMap_cons]

theorem filter_le_eq_append (hsorted : events.Pairwise fun a b => a.1 ≤ b.1) (n : Nat) :
    (events.filter fun e => e.1 ≤ n) =
      (events.filter fun e => e.1 < n) ++ events.filter fun e => e.1 = n := by
  induction events with
  | nil => rfl
  | cons e events ih =>
    obtain ⟨he, hevents⟩ := pairwise_cons.mp hsorted
    obtain hlt | hge := lt_or_ge e.1 n
    · simp [hlt, hlt.le, hlt.ne, ih hevents]
    · -- No event that follows is below `n`.
      have hnil : (events.filter fun e => e.1 < n) = [] := by
        rw [filter_eq_nil_iff]
        intro x hx
        have := he x hx
        simp only [decide_eq_true_eq]
        omega
      have hnot : ¬ e.1 < n := by omega
      by_cases heq : e.1 = n
      · simp [heq, ih hevents, hnil]
      · have hnot' : ¬ e.1 ≤ n := by omega
        simp [hnot, heq, hnot', ih hevents, hnil]

theorem flatten_valuesOf (hsorted : events.Pairwise fun a b => a.1 ≤ b.1) (n : Nat) :
    ((range n).map (valuesOf events)).flatten = (events.filter fun e => e.1 < n).map Prod.snd := by
  induction n with
  | zero => simp
  | succ n ih =>
    simp only [Nat.lt_succ_iff]
    rw [range_succ, map_append, flatten_append, ih, filter_le_eq_append hsorted, map_append]
    simp [valuesOf]

theorem valuesOf_rows {ι : Type u} {l : List ι} (hnodup : l.Nodup) {key : ι → Nat}
    (hkey : Injective key) (row : ι → List α) {x : ι} (hx : x ∈ l) :
    valuesOf (l.flatMap fun y => (row y).map fun a => (key y, a)) (key x) = row x := by
  have hrow : ∀ y, valuesOf ((row y).map fun a => (key y, a)) (key x) =
      if key y = key x then row y else [] := by
    intro y
    by_cases h : key y = key x <;> simp [valuesOf, h, List.filter_map, Function.comp_def]
  simp only [valuesOf_flatMap, hrow]
  induction l with
  | nil => cases hx
  | cons y l ih =>
    obtain ⟨hy, hl⟩ := nodup_cons.mp hnodup
    rw [flatMap_cons]
    obtain rfl | hx := mem_cons.mp hx
    · have hrest : (l.flatMap fun y => if key y = key x then row y else []) = [] := by
        rw [flatMap_eq_nil_iff]
        intro y hy'
        rw [if_neg]
        intro h
        exact hy (hkey h ▸ hy')
      rw [if_pos rfl, hrest, append_nil]
    · have hne : key y ≠ key x := by
        intro h
        exact hy (hkey h ▸ hx)
      rw [if_neg hne, nil_append, ih hl hx]

/-- What holds after some events were placed. -/
structure Placed
    (lengths : List Nat) (events : List (Nat × α)) (state : List Nat × List α) : Prop where
  length_offsets : state.1.length = lengths.length + 1
  offsets : ∀ i < lengths.length, state.1[i]? = some (start lengths i + (valuesOf events i).length)
  last : state.1[lengths.length]? = some lengths.sum
  length_buffer : state.2.length = lengths.sum
  values : ∀ i < lengths.length, ∀ j < (valuesOf events i).length,
    state.2[start lengths i + j]? = (valuesOf events i)[j]?

variable {state : List Nat × List α}

/-- **One event.**  If its slice is not full, then its value is placed. -/
theorem Placed.place (h : Placed lengths events state) {event : Nat × α}
    (hindex : event.1 < lengths.length)
    (hroom : (valuesOf events event.1).length < lengths[event.1])
    (hfull : ∀ i (hi : i < lengths.length), (valuesOf events i).length ≤ lengths[i]) :
    ∃ next, place state event = some next ∧ Placed lengths (events ++ [event]) next := by
  obtain ⟨k, a⟩ := event
  dsimp only at hindex hroom
  have hinside : start lengths k + (valuesOf events k).length < state.2.length := by
    have hle := start_add_le_sum hindex
    rw [h.length_buffer]
    omega
  refine ⟨(state.1.set k (start lengths k + (valuesOf events k).length + 1),
    state.2.set (start lengths k + (valuesOf events k).length) a), ?_, ?_⟩
  · rw [Slices.place, h.offsets k hindex]
    dsimp only
    rw [write?_of_lt hinside]
    rfl
  · refine ⟨?_, ?_, ?_, ?_, ?_⟩
    · rw [length_set, h.length_offsets]
    · intro i hi
      rw [getElem?_set, valuesOf_concat]
      by_cases hk : k = i
      · subst hk
        have hlt : k < state.1.length := by
          rw [h.length_offsets]
          omega
        simp only [if_pos hlt, if_true, length_append, length_singleton]
        rw [Nat.add_assoc]
      · simp only [if_neg hk, append_nil]
        exact h.offsets i hi
    · rw [getElem?_set_ne (by omega)]
      exact h.last
    · rw [length_set, h.length_buffer]
    · intro i hi j hj
      rw [valuesOf_concat] at hj ⊢
      by_cases hplace : start lengths k + (valuesOf events k).length = start lengths i + j
      · -- The place that is written: the end of the slice of the event.
        have hj' : j < lengths[i] := by
          by_cases hk : k = i
          · subst hk
            omega
          · rw [if_neg hk, append_nil] at hj
            exact hj.trans_le (hfull i hi)
        obtain ⟨rfl, rfl⟩ := start_add_injective hindex hi hroom hj' hplace
        rw [getElem?_set_self hinside]
        simp
      · rw [getElem?_set_ne hplace]
        by_cases hk : k = i
        · subst hk
          rw [if_pos rfl, length_append, length_singleton] at hj
          have hlt : j < (valuesOf events k).length := by omega
          rw [h.values k hi j hlt, getElem?_append_left hlt]
        · rw [if_neg hk, append_nil] at hj ⊢
          exact h.values i hi j hj

/-- The events to come fit into the room that is left. -/
theorem Placed.scatter {before events : List (Nat × α)} (h : Placed lengths before state)
    (hindex : ∀ e ∈ events, e.1 < lengths.length) (hlengths : ∀ i (hi : i < lengths.length),
      (valuesOf (before ++ events) i).length ≤ lengths[i]) :
    ∃ next, scatter state events = some next ∧ Placed lengths (before ++ events) next := by
  induction events generalizing before state with
  | nil =>
    refine ⟨state, rfl, ?_⟩
    rwa [append_nil]
  | cons event events ih =>
    have hindex' : event.1 < lengths.length := hindex event mem_cons_self
    have hroom : (valuesOf before event.1).length < lengths[event.1] := by
      have hle := hlengths event.1 hindex'
      rw [valuesOf_append, length_append] at hle
      have hself : 0 < (valuesOf (event :: events) event.1).length := by simp [valuesOf]
      omega
    have hfull : ∀ i (hi : i < lengths.length), (valuesOf before i).length ≤ lengths[i] := by
      intro i hi
      have hle := hlengths i hi
      rw [valuesOf_append, length_append] at hle
      omega
    obtain ⟨next, hplace, hnext⟩ := h.place hindex' hroom hfull
    have hassoc : before ++ event :: events = (before ++ [event]) ++ events := by simp
    obtain ⟨final, hscatter, hfinal⟩ := ih hnext
      (fun e he => hindex e (mem_cons_of_mem _ he)) (hassoc ▸ hlengths)
    refine ⟨final, ?_, hassoc ▸ hfinal⟩
    rw [Slices.scatter, hplace]
    exact hscatter

/-- **Scattering events into slices of the right lengths.** -/
theorem scatter_spec (hbuffer : buffer.length = lengths.sum)
    (hindex : ∀ e ∈ events, e.1 < lengths.length)
    (hlengths : ∀ i (hi : i < lengths.length), (valuesOf events i).length = lengths[i]) :
    ∃ offsets buffer', scatter (starts lengths, buffer) events = some (offsets, buffer') ∧
      buffer'.length = lengths.sum ∧
      (∀ i < lengths.length, offsets[i]? = some (start lengths (i + 1))) ∧
      ∀ i < lengths.length, slice (starts lengths) buffer' i = valuesOf events i := by
  have hnil : Placed lengths [] (starts lengths, buffer) := by
    refine ⟨length_starts lengths, fun i hi => ?_, ?_, hbuffer, fun i _ j hj => ?_⟩
    · rw [starts_getElem? hi.le]
      rfl
    · rw [starts_getElem? le_rfl, start_length]
    · simp [valuesOf] at hj
  obtain ⟨⟨offsets, buffer'⟩, hscatter, hplaced⟩ := hnil.scatter hindex
    (fun i hi => (hlengths i hi).le)
  rw [nil_append] at hplaced
  refine ⟨offsets, buffer', hscatter, hplaced.length_buffer, ?_, ?_⟩
  · intro i hi
    rw [start_succ hi, ← hlengths i hi]
    exact hplaced.offsets i hi
  · intro i hi
    have hfull := hlengths i hi
    rw [slice_starts buffer' hi]
    apply ext_getElem?
    intro j
    rw [getElem?_take, getElem?_drop]
    split_ifs with hj
    · exact hplaced.values i hi j (hfull ▸ hj)
    · rw [getElem?_eq_none]
      omega

theorem scatter_concat {offsets : List Nat} (h : ∀ e ∈ events, e.1 < offsets.length) (last : Nat) :
    scatter (offsets ++ [last], buffer) events =
      (scatter (offsets, buffer) events).map fun s => (s.1 ++ [last], s.2) := by
  induction events generalizing offsets buffer with
  | nil => rfl
  | cons e events ih =>
    have he := h e mem_cons_self
    rw [scatter, scatter, Slices.place, Slices.place]
    rw [getElem?_append_left he, getElem?_eq_getElem he]
    dsimp only
    cases write? buffer offsets[e.1] e.2 with
    | none => rfl
    | some next =>
      rw [map_some, map_some, bind_some, bind_some, set_append_left _ _ he]
      refine ih fun e' he' => ?_
      rw [length_set]
      exact h e' (mem_cons_of_mem _ he')

end HotTLBApps.Slices
