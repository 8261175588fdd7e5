import HotTLBApps.Gapbs.InPlaceBuilder

/-!
# GAPBS: adding inverses in place

Step 3 of `MakeCSRInPlace` puts a missing inverse in front of the neighbours of a
vertex, into the last free place.  The range that is searched is not sorted then, but
it is partitioned at the vertex that is searched for: the inverses before it come from
smaller vertices (`Filled.search`).

* `addInverses_spec`: after step 3 no place is free, and every vertex has the sources
  of its missing inverses in front of its neighbours;
* `finishSymmetrized_spec`: the neighbours that `MakeCSRInPlace` leaves when it
  symmetrizes.
-/

namespace HotTLBApps.Gapbs

open Slices List Option

/-- Rows that are written to their targets: a target collects its sources in order. -/
theorem valuesOf_sources {f : Nat → List Nat} {us : List Nat} (hnodup : ∀ u ∈ us, (f u).Nodup)
    (v : Nat) : valuesOf (us.flatMap fun u => (f u).map fun v => (v, u)) v =
      us.filter fun u => v ∈ f u := by
  induction us with
  | nil => rfl
  | cons u us ih =>
    have hrow : valuesOf ((f u).map fun v => (v, u)) v = if v ∈ f u then [u] else [] := by
      have hsingle : (f u).filter (fun x => x = v) = if v ∈ f u then [v] else [] := by
        rw [filter_eq, (hnodup u mem_cons_self).count]
        split_ifs <;> rfl
      rw [valuesOf, List.filter_map, List.map_map]
      change ((f u).filter fun x => x = v).map (fun _ => u) = _
      rw [hsingle]
      by_cases hv : v ∈ f u <;> simp [hv]
    rw [flatMap_cons, valuesOf_append, hrow,
      ih fun x hx => hnodup x (mem_cons_of_mem _ hx), filter_cons]
    by_cases hv : v ∈ f u <;> simp [hv]

variable {rows : List (List Nat)}

theorem RowsOk.nodup_getD (hrows : RowsOk rows) (u : Nat) : (rows.getD u []).Nodup := by
  obtain hu | hu := Nat.lt_or_ge u rows.length
  · rw [getD_eq_getElem _ _ hu]
    exact (hrows.sorted u hu).imp ne_of_lt
  · rw [getD_eq_default _ _ hu]
    exact nodup_nil

theorem valuesOf_missing (hrows : RowsOk rows) (us : List Nat) (v : Nat) :
    valuesOf (missing rows us) v = us.filter fun u => v ∈ rows.getD u [] ∧ u ∉ rows.getD v [] := by
  rw [missing, valuesOf_sources fun u _ => (hrows.nodup_getD u).filter _]
  apply filter_congr
  intro u _
  simp

variable {slots : List (List Nat)} {M : List (Nat × Nat)} {state : List Nat × List Nat}

/-- The lengths of the slices with their free places. -/
def slotLengths (rows : List (List Nat)) : List Nat :=
  List.zipWith (· + ·) (rows.map List.length) (needed rows)

@[simp]
theorem length_slotLengths : (slotLengths rows).length = rows.length := by
  simp [slotLengths]

theorem needed_getD {v : Nat} (hv : v < rows.length) :
    (needed rows).getD v 0 = (valuesOf (missing rows (range rows.length)) v).length := by
  simp [needed, hv]

/-- The free places of a vertex when the inverses `M` were added. -/
def freePlaces (rows : List (List Nat)) (M : List (Nat × Nat)) (v : Nat) : Nat :=
  (needed rows).getD v 0 - (valuesOf M v).length

/-- What holds when the inverses `M` were added: the slice of a vertex has its free
places, then the sources of its new inverses, the last one first, then its neighbours. -/
structure Filled (rows : List (List Nat)) (M : List (Nat × Nat)) (slots : List (List Nat))
    (state : List Nat × List Nat) : Prop where
  rest : ∃ R, M ++ R = missing rows (List.range rows.length)
  cells : state.1 = slots.flatten
  lengths : slots.map List.length = slotLengths rows
  length_invs : state.2.length = rows.length
  invs : ∀ v < rows.length, state.2[v]? = some (freePlaces rows M v)
  slots : ∀ v (hv : v < rows.length) (hv' : v < slots.length),
    slots[v].drop (freePlaces rows M v) = (valuesOf M v).reverse ++ rows[v]

namespace Filled

section

variable (h : Filled rows M slots state)
include h

theorem length_slots : slots.length = rows.length := by
  have hlength := congrArg length h.lengths
  rwa [length_map, length_slotLengths] at hlength

theorem length_values_le {v : Nat} (hv : v < rows.length) :
    (valuesOf M v).length ≤ (needed rows).getD v 0 := by
  obtain ⟨R, hR⟩ := h.rest
  rw [needed_getD hv, ← hR, valuesOf_append, length_append]
  exact Nat.le_add_right _ _

theorem length_slot {v : Nat} (hv : v < rows.length)
    (hv' : v < slots.length) : slots[v].length = rows[v].length + (needed rows).getD v 0 := by
  have hget := congrArg (·[v]?) h.lengths
  simpa [slotLengths, hv, hv'] using hget

theorem getElem?_cells {u : Nat} (hu : u < rows.length) {j : Nat}
    (hj : j < (valuesOf M u).length + rows[u].length) :
    state.1[start (slotLengths rows) u + freePlaces rows M u + j]? =
      ((valuesOf M u).reverse ++ rows[u])[j]? := by
  have hu' : u < slots.length := h.length_slots ▸ hu
  have hle := h.length_values_le hu
  have hlength := h.length_slot hu hu'
  rw [h.cells, ← h.lengths, Nat.add_assoc, getElem?_flatten hu' (by rw [freePlaces]; omega),
    ← h.slots u hu hu', getElem?_drop]

end

section

variable (hrows : RowsOk rows) (h : Filled rows M slots state)
include hrows h

/-- **The search of step 3.**  The inverses that were added come from smaller vertices,
so the range is partitioned at `u`, and the search finds `u` if it is a neighbour. -/
theorem search {u v : Nat} (hv : v < rows.length) (hbefore : ∀ x ∈ valuesOf M v, x < u) :
    ((range? state.1 (start (slotLengths rows) v + freePlaces rows M v)
      (start (slotLengths rows) (v + 1))).bind fun range => binarySearch? range u) =
      some (decide (u ∈ rows[v])) := by
  have hv' : v < slots.length := h.length_slots ▸ hv
  have hlength := h.length_slot hv hv'
  have hfree : freePlaces rows M v ≤ slots[v].length := by
    rw [freePlaces]
    omega
  have hsmall : ∀ a ∈ (valuesOf M v).reverse, ∀ b, (b < u → a < u) ∧ (b ≤ u → a ≤ u) := by
    intro a ha b
    have hau := hbefore a (mem_reverse.mp ha)
    exact ⟨fun _ => hau, fun _ => hau.le⟩
  have hpart : Partitioned ((valuesOf M v).reverse ++ rows[v]) u := by
    rw [Partitioned, pairwise_append]
    refine ⟨?_, partitioned_of_sorted (hrows.sorted v hv) u, ?_⟩
    · exact pairwise_of_forall_mem_list fun a ha b _ => hsmall a ha b
    · exact fun a ha b _ => hsmall a ha b
  have hmem : u ∈ (valuesOf M v).reverse ++ rows[v] ↔ u ∈ rows[v] := by
    rw [mem_append, mem_reverse, or_iff_right]
    intro hu
    exact lt_irrefl u (hbefore u hu)
  rw [h.cells, ← h.lengths, range?_flatten hv' hfree, bind_some, h.slots v hv hv',
    binarySearch?_eq hpart]
  simp only [hmem]

theorem addInverse_found {u v i : Nat}
    (hi : state.1[i]? = some v) (hv : v < rows.length) (hbefore : ∀ x ∈ valuesOf M v, x < u)
    (hfound : u ∈ rows[v]) : addInverse (starts (slotLengths rows)) u state i = some state := by
  have hsearch := h.search hrows hv hbefore
  have hv' : v < (slotLengths rows).length := by simpa using hv
  rw [addInverse, hi]
  simp only [bind_eq_bind, bind_some, starts_getElem? hv'.le,
    starts_getElem? (Nat.succ_le_of_lt hv'), h.invs v hv]
  rw [← bind_assoc, hsearch]
  simp [hfound]

/-- **A missing inverse** goes to the last free place. -/
theorem addInverse_missing {u v i : Nat} (hi : state.1[i]? = some v) (hv : v < rows.length)
    (hbefore : ∀ x ∈ valuesOf M v, x < u) (hmissing : u ∉ rows[v])
    (hrest : ∃ R, (M ++ [(v, u)]) ++ R = missing rows (range rows.length)) :
    ∃ slots' state', addInverse (starts (slotLengths rows)) u state i = some state' ∧
      Filled rows (M ++ [(v, u)]) slots' state' := by
  have hsearch := h.search hrows hv hbefore
  have hv' : v < (slotLengths rows).length := by simpa using hv
  have hvs : v < slots.length := h.length_slots ▸ hv
  have hroom : (valuesOf M v).length < (needed rows).getD v 0 := by
    obtain ⟨R, hR⟩ := hrest
    rw [needed_getD hv, ← hR, valuesOf_append, valuesOf_concat, if_pos rfl]
    simp only [length_append, length_singleton]
    omega
  have hfree : freePlaces rows M v = freePlaces rows (M ++ [(v, u)]) v + 1 := by
    rw [freePlaces, freePlaces, valuesOf_concat, if_pos rfl, length_append, length_singleton]
    omega
  have hfree' : ∀ x, x ≠ v → freePlaces rows (M ++ [(v, u)]) x = freePlaces rows M x := by
    intro x hx
    rw [freePlaces, freePlaces, valuesOf_concat, if_neg (Ne.symm hx), append_nil]
  generalize hk : freePlaces rows (M ++ [(v, u)]) v = k at hfree
  have hplace : k < slots[v].length := by
    have hlength := h.length_slot hv hvs
    have hle : freePlaces rows M v ≤ (needed rows).getD v 0 := Nat.sub_le _ _
    omega
  have hwrite := write?_flatten hvs hplace u
  rw [h.lengths, ← h.cells] at hwrite
  refine ⟨slots.set v (slots[v].set k u),
    ((slots.set v (slots[v].set k u)).flatten, state.2.set v k), ?_, ?_⟩
  · rw [addInverse, hi]
    simp only [bind_eq_bind, bind_some, starts_getElem? hv'.le,
      starts_getElem? (Nat.succ_le_of_lt hv'), h.invs v hv]
    rw [← bind_assoc, hsearch, hfree]
    simp [hmissing, hwrite]
  · refine ⟨hrest, rfl, ?_, ?_, ?_, ?_⟩
    · rw [map_set, length_set, ← h.lengths, ← getElem_map length, set_getElem_self]
      rwa [length_map]
    · rw [length_set, h.length_invs]
    · intro x hx
      rw [getElem?_set]
      by_cases hvx : v = x
      · subst hvx
        rw [if_pos rfl, if_pos (by rw [h.length_invs]; exact hv), hk]
      · rw [if_neg hvx, hfree' x (Ne.symm hvx)]
        exact h.invs x hx
    · intro x hx hx'
      have hxs : x < slots.length := by rwa [length_set] at hx'
      rw [getElem_set, valuesOf_concat]
      by_cases hvx : v = x
      · subst hvx
        have hdrop := h.slots v hx hvs
        rw [hfree] at hdrop
        rw [if_pos rfl, if_pos rfl, hk, reverse_append, drop_set,
          if_neg (lt_irrefl k), Nat.sub_self, drop_eq_getElem_cons hplace, hdrop]
        rfl
      · rw [if_neg hvx, if_neg hvx, hfree' x (Ne.symm hvx), append_nil]
        exact h.slots x hx hxs

end

/-- The inverses of a vertex that were added before it is visited exist. -/
theorem addInverses_added (hrows : RowsOk rows) {u : Nat} (hu : u < rows.length)
    (h : Filled rows (missing rows (range u)) slots state) {j : Nat}
    (hj : j < (valuesOf (missing rows (range u)) u).length) :
    addInverse (starts (slotLengths rows)) u state
      (start (slotLengths rows) u + freePlaces rows (missing rows (range u)) u + j) =
        some state := by
  have hj' : j < (valuesOf (missing rows (range u)) u).reverse.length := by rwa [length_reverse]
  have hcell := h.getElem?_cells hu (show j < _ by omega)
  rw [getElem?_append_left hj', getElem?_eq_getElem hj'] at hcell
  -- The cell holds a smaller vertex `v` with an edge to `u`.
  have hmem := mem_reverse.mp (getElem_mem hj')
  generalize (valuesOf (missing rows (range u)) u).reverse[j] = v at hcell hmem
  rw [valuesOf_missing hrows, mem_filter, mem_range, decide_eq_true_eq] at hmem
  obtain ⟨hvu, hedge, -⟩ := hmem
  have hv : v < rows.length := hvu.trans hu
  rw [getD_eq_getElem _ _ hv] at hedge
  refine h.addInverse_found hrows hcell hv ?_ hedge
  intro x hx
  rw [valuesOf_missing hrows] at hx
  exact mem_range.mp (mem_filter.mp hx).1

end Filled

/-- The missing inverses among the first neighbours of a vertex. -/
def missingAmong (rows : List (List Nat)) (u : Nat) (vs : List Nat) : List (Nat × Nat) :=
  (vs.filter fun v => u ∉ rows.getD v []).map fun v => (v, u)

variable {u : Nat}

theorem missing_range_succ (hu : u < rows.length) : missing rows (range (u + 1)) =
      missing rows (range u) ++ missingAmong rows u rows[u] := by
  rw [range_succ, missing, flatMap_append]
  simp [missing, missingAmong, hu]

theorem valuesOf_missingAmong_of_notMem {u v : Nat} {vs : List Nat}
    (hv : v ∉ vs) : valuesOf (missingAmong rows u vs) v = [] := by
  rw [List.eq_nil_iff_forall_not_mem]
  intro x hx
  rw [mem_valuesOf, missingAmong, List.mem_map] at hx
  obtain ⟨w, hw, heq⟩ := hx
  obtain ⟨rfl, rfl⟩ := Prod.mk.inj heq
  exact hv (mem_filter.mp hw).1

/-- What was added before a neighbour of a vertex comes first among the missing inverses. -/
theorem missingAmong_prefix (hu : u < rows.length) {vs : List Nat} (hvs : vs <+: rows[u]) :
    missing rows (range u) ++ missingAmong rows u vs <+: missing rows (range rows.length) := by
  have hrange : range (u + 1) <+: range rows.length := by
    rw [← Nat.min_eq_left (show u + 1 ≤ rows.length from hu), ← take_range]
    exact take_prefix _ _
  have hnext : missing rows (range (u + 1)) <+: missing rows (range rows.length) :=
    hrange.flatMap _
  rw [missing_range_succ hu] at hnext
  exact ((prefix_append_right_inj _).mpr ((hvs.filter _).map _)).trans hnext

/-- **The neighbours of a vertex**, from some on: each missing inverse is added. -/
theorem addInverses_neighbours (hrows : RowsOk rows) (hu : u < rows.length) (before todo : List Nat)
    (hsplit : rows[u] = before ++ todo) {slots : List (List Nat)} {state : List Nat × List Nat}
    (h : Filled rows (missing rows (range u) ++ missingAmong rows u before) slots state) :
    ∃ slots' state',
      (range' (start (slotLengths rows) u + freePlaces rows (missing rows (range u)) u +
          (valuesOf (missing rows (range u)) u).length + before.length) todo.length).foldlM
        (addInverse (starts (slotLengths rows)) u) state = some state' ∧
      Filled rows (missing rows (range (u + 1))) slots' state' := by
  induction todo generalizing before slots state with
  | nil =>
    refine ⟨slots, state, rfl, ?_⟩
    rw [append_nil] at hsplit
    rwa [missing_range_succ hu, hsplit]
  | cons v todo ih =>
    have hv : v ∈ rows[u] := by
      rw [hsplit]
      simp
    have hvn := hrows.bound u hu v hv
    have hnodup : rows[u].Nodup := (hrows.sorted u hu).imp ne_of_lt
    have hnotMem : v ∉ before := by
      rw [hsplit] at hnodup
      intro hmem
      exact (nodup_append.mp hnodup).2.2 v hmem v mem_cons_self rfl
    have huself : valuesOf (missingAmong rows u before) u = [] := by
      apply valuesOf_missingAmong_of_notMem
      intro hmem
      exact hrows.irrefl u hu (hsplit ▸ mem_append_left _ hmem)
    -- The cell of the next neighbour.
    have hvaluesu : valuesOf (missing rows (range u) ++ missingAmong rows u before) u =
        valuesOf (missing rows (range u)) u := by
      rw [valuesOf_append, huself, append_nil]
    have hlen : before.length < rows[u].length := by
      rw [hsplit, length_append, length_cons]
      omega
    have hcell := h.getElem?_cells hu (show (valuesOf (missing rows (range u)) u).length +
      before.length < _ by rw [hvaluesu]; omega)
    rw [freePlaces, hvaluesu, getElem?_append_right (by rw [length_reverse]; omega),
      length_reverse, Nat.add_sub_cancel_left, hsplit, getElem?_append_right le_rfl, Nat.sub_self,
      getElem?_cons_zero, ← Nat.add_assoc, ← freePlaces] at hcell
    -- The inverses that were added to `v` come from smaller vertices.
    have hbefore : ∀ x ∈ valuesOf (missing rows (range u) ++ missingAmong rows u before) v,
        x < u := by
      intro x hx
      rw [valuesOf_append, valuesOf_missingAmong_of_notMem hnotMem, append_nil,
        valuesOf_missing hrows] at hx
      exact mem_range.mp (mem_filter.mp hx).1
    have hsplit' : rows[u] = (before ++ [v]) ++ todo := by
      rw [hsplit, append_assoc]
      rfl
    have hamong : missingAmong rows u (before ++ [v]) =
        missingAmong rows u before ++ if u ∈ rows[v] then [] else [(v, u)] := by
      rw [missingAmong, filter_append, map_append, ← missingAmong]
      by_cases hmem : u ∈ rows[v] <;> simp [hvn, hmem]
    have hnext := @ih (before ++ [v]) hsplit'
    rw [length_append] at hnext
    rw [length_cons, range'_succ, foldlM_cons]
    by_cases hmem : u ∈ rows[v]
    · have hstep := h.addInverse_found hrows hcell hvn hbefore hmem
      rw [if_pos hmem, append_nil] at hamong
      rw [hstep]
      exact hnext (hamong ▸ h)
    · rw [if_neg hmem] at hamong
      have hrest := missingAmong_prefix hu (hsplit' ▸ prefix_append _ todo)
      rw [hamong, ← append_assoc] at hrest
      obtain ⟨slots', state', hstep, hfilled⟩ :=
        h.addInverse_missing hrows hcell hvn hbefore hmem hrest
      rw [append_assoc, ← hamong] at hfilled
      rw [hstep]
      exact hnext hfilled

theorem foldlM_eq_of_forall {σ ι : Type} {f : σ → ι → Option σ} {s : σ} {l : List ι}
    (h : ∀ i ∈ l, f s i = some s) : l.foldlM f s = some s := by
  induction l with
  | nil => rfl
  | cons i l ih =>
    rw [foldlM_cons, h i mem_cons_self]
    exact ih fun j hj => h j (mem_cons_of_mem _ hj)

/-- **Step 3 for one vertex.** -/
theorem addInversesOf_spec (hrows : RowsOk rows) (hu : u < rows.length)
    (h : Filled rows (missing rows (range u)) slots state) :
    ∃ slots' state', addInversesOf (starts (slotLengths rows)) state u = some state' ∧
      Filled rows (missing rows (range (u + 1))) slots' state' := by
  have hu' : u < (slotLengths rows).length := by simpa using hu
  have hnil : missingAmong rows u [] = [] := rfl
  obtain ⟨slots', state', hrun, hfilled⟩ := addInverses_neighbours hrows hu [] rows[u] rfl
    (by rwa [hnil, append_nil])
  refine ⟨slots', state', ?_, hfilled⟩
  have hle := h.length_values_le hu
  have hcount : start (slotLengths rows) (u + 1) - (start (slotLengths rows) u +
      freePlaces rows (missing rows (range u)) u) =
      (valuesOf (missing rows (range u)) u).length + rows[u].length := by
    have hslot : (slotLengths rows)[u] = rows[u].length + (needed rows).getD u 0 := by
      simp [slotLengths, hu]
    rw [start_succ hu', hslot, freePlaces]
    omega
  rw [addInversesOf, starts_getElem? hu'.le, starts_getElem? (Nat.succ_le_of_lt hu'), h.invs u hu]
  simp only [bind_eq_bind, bind_some, Nat.succ_eq_add_one]
  rw [hcount, ← range'_append_1, foldlM_append, foldlM_eq_of_forall]
  · exact hrun
  · intro i hi
    obtain ⟨hge, hlt⟩ := mem_range'_1.mp hi
    obtain ⟨j, rfl⟩ := Nat.exists_eq_add_of_le hge
    exact h.addInverses_added hrows hu (by omega)

/-- **Step 3**: all missing inverses are added. -/
theorem addInverses_spec (hrows : RowsOk rows) (h : Filled rows [] slots state) :
    ∃ slots' state', addInverses (starts (slotLengths rows)) rows.length state = some state' ∧
      Filled rows (missing rows (range rows.length)) slots' state' := by
  obtain ⟨state', hrun, slots', hfilled⟩ := Loops.foldlM_range_total
    (f := addInversesOf (starts (slotLengths rows)))
    (I := fun u state => ∃ slots, Filled rows (missing rows (range u)) slots state)
    (fun u hu _ ⟨_, hfilled⟩ =>
      have ⟨slots', state', hnext, h'⟩ := addInversesOf_spec hrows hu hfilled
      ⟨state', hnext, slots', h'⟩) ⟨slots, h⟩
  exact ⟨slots', state', hrun, hfilled⟩

theorem freePlaces_missing {v : Nat} (hv : v < rows.length) :
    freePlaces rows (missing rows (range rows.length)) v = 0 := by
  rw [freePlaces, needed_getD hv, Nat.sub_self]

theorem reallocate_getElem? (junk : Nat → Nat) {cells : List Nat} {size i : Nat} (hi : i < size)
    (hi' : i < cells.length) : (reallocate junk cells size)[i]? = cells[i]? := by
  rw [reallocate, getElem?_map, getElem?_range hi, getElem?_eq_getElem hi']
  simp [hi']

/-- After steps 1 and 2 every vertex has its free places and its neighbours. -/
theorem exists_filled_nil (rows : List (List Nat)) (junk : Nat → Nat) (tail : List Nat) :
    ∃ slots cells, spread (starts (slotLengths rows)) (needed rows) rows.length
        (slotLengths rows).sum (needed rows).sum
        (reallocate junk (rows.flatten ++ tail) (slotLengths rows).sum) = some cells ∧
      Filled rows [] slots (cells, needed rows) := by
  have hlen : (rows.map length).length = (needed rows).length := by rw [length_map, length_needed]
  have hdeg : start (rows.map length) rows.length = (rows.map length).sum := by
    rw [← start_length, length_map]
  have hneed : start (needed rows) rows.length = (needed rows).sum := by
    rw [← start_length, length_needed]
  have hsum : (slotLengths rows).sum = (rows.map length).sum + (needed rows).sum :=
    (sum_add_sum_eq_sum_zipWith_of_length_eq _ _ hlen).symm
  have hrealloc : (reallocate junk (rows.flatten ++ tail) (slotLengths rows).sum).length =
      (slotLengths rows).sum := by
    rw [reallocate, length_map, length_range]
  obtain ⟨cells, hspread, hlength, hplaced, -⟩ := spread_spec hlen
    (show rows.length ≤ (rows.map length).length by rw [length_map])
    (show start (rows.map length) rows.length + start (needed rows) rows.length ≤
      (reallocate junk (rows.flatten ++ tail) (slotLengths rows).sum).length by
        rw [hdeg, hneed, hrealloc, hsum])
  rw [hdeg, hneed, ← hsum] at hspread
  rw [hrealloc] at hlength
  refine ⟨(range (slotLengths rows).length).map (slice (starts (slotLengths rows)) cells),
    cells, hspread, ⟨missing rows (range rows.length), rfl⟩, (flatten_slices hlength).symm,
    ?_, length_needed rows, ?_, ?_⟩
  · apply ext_getElem
    · simp
    · intro v hv hv'
      simp [length_slice_starts hlength hv']
  · intro v hv
    have hv' : v < (needed rows).length := by rwa [length_needed]
    rw [freePlaces, getElem?_eq_getElem hv', getD_eq_getElem _ _ hv']
    rfl
  · intro v hv hv'
    have hvl : v < (slotLengths rows).length := by simpa using hv
    have hvn : v < (needed rows).length := by rwa [length_needed]
    have hvd : v < (rows.map length).length := by rwa [length_map]
    have hfree : freePlaces rows [] v = (needed rows)[v] := by
      rw [freePlaces, getD_eq_getElem _ _ hvn]
      rfl
    have hslot : (slotLengths rows)[v] = rows[v].length + (needed rows)[v] := by simp [slotLengths]
    rw [getElem_map, getElem_range, hfree]
    change _ = rows[v]
    apply ext_getElem?
    intro j
    rw [getElem?_drop, slice_starts cells hvl, getElem?_take, getElem?_drop, hslot]
    obtain hj | hj := Nat.lt_or_ge j rows[v].length
    · have hmoved := hplaced v hv hvd hvn j (by rwa [getElem_map])
      have hstart : start (slotLengths rows) v =
          start (rows.map length) v + start (needed rows) v := start_zipWith hlen v
      have hbound : start (rows.map length) v + j < (rows.map length).sum := by
        have hle := start_add_le_sum hvd
        rw [getElem_map] at hle
        omega
      have hflat : start (rows.map length) v + j < rows.flatten.length := by rwa [length_flatten]
      rw [if_pos (by omega), hstart, ← Nat.add_assoc, hmoved,
        reallocate_getElem? junk (by omega) (by rw [length_append]; omega),
        getElem?_append_left hflat, getElem?_flatten hv hj]
    · rw [if_neg (by omega), getElem?_eq_none hj]

/-- The neighbours of a vertex in the symmetrized graph. -/
def symmetricRow (rows : List (List Nat)) (v : Nat) : List Nat :=
  ((valuesOf (missing rows (List.range rows.length)) v).reverse ++ rows.getD v []).insertionSort
    (· ≤ ·)

theorem raiseOffsets_rows (rows : List (List Nat)) :
    raiseOffsets 0 (starts (rows.map length)) (needed rows) = starts (slotLengths rows) :=
  raiseOffsets_starts (by rw [length_map, length_needed])

theorem starts_slotLengths_getD (rows : List (List Nat)) :
    (starts (slotLengths rows)).getD rows.length 0 = (slotLengths rows).sum := by
  have hstart := start_length (slotLengths rows)
  rw [length_slotLengths] at hstart
  rw [starts_getD (by rw [length_slotLengths]), hstart]

/-- **`MakeCSRInPlace` when symmetrizing.** -/
theorem finishSymmetrized_spec (heap : Heap) (hrows : RowsOk rows) (tail : List Nat)
    (hrealloc : ¬ ((slotLengths rows).sum = 0 ∧ heap.reallocNull = true)) : ∃ out invsNeeded,
      finishSymmetrized heap rows.length (starts (rows.map length)) (rows.flatten ++ tail) =
        some (.symmetrized out invsNeeded) ∧
      (∀ v < rows.length, out.neigh v = symmetricRow rows v) ∧
      ∀ k ∈ invsNeeded, k = 0 := by
  obtain ⟨slots₀, cells₀, hspread, hfilled₀⟩ := exists_filled_nil rows heap.junk tail
  obtain ⟨slots, ⟨cells, invsNeeded⟩, hadd, hfilled⟩ := addInverses_spec hrows hfilled₀
  have hcells : cells.length = (slotLengths rows).sum := by
    rw [← hfilled.lengths, ← length_flatten, ← hfilled.cells]
  obtain ⟨sorted, hsort, -, hslices⟩ := mapSlices_starts
    (fun row => length_insertionSort (fun a b : Nat => a ≤ b) row) hcells
  rw [length_slotLengths] at hsort
  refine ⟨⟨starts (slotLengths rows), sorted⟩, invsNeeded, ?_, ?_, ?_⟩
  · rw [finishSymmetrized, countInverses_spec hrows tail]
    simp only [bind_eq_bind, bind_some, raiseOffsets_rows, starts_slotLengths_getD]
    rw [if_neg hrealloc, hspread]
    simp only [bind_some, hadd, hsort]
  · intro v hv
    have hv' : v < slots.length := hfilled.length_slots ▸ hv
    have hslice := slice_flatten hv'
    rw [hfilled.lengths, ← hfilled.cells] at hslice
    have hslot := hfilled.slots v hv hv'
    rw [freePlaces_missing hv, drop_zero] at hslot
    rw [CSR.neigh, hslices v (by simpa using hv), hslice, hslot, symmetricRow, getD_eq_getElem _ _ hv]
  · intro k hk
    obtain ⟨v, hv, rfl⟩ := mem_iff_getElem.mp hk
    have hv' : v < rows.length := hfilled.length_invs ▸ hv
    have hinv := hfilled.invs v hv'
    rw [freePlaces_missing hv', getElem?_eq_getElem hv] at hinv
    exact some.inj hinv

/-- The neighbours in the symmetrized graph are increasing, and they are joined to the
vertex in one direction or the other. -/
theorem symmetricRow_spec (hrows : RowsOk rows) (v : Nat) : (symmetricRow rows v).Pairwise (· < ·) ∧
      ∀ u, u ∈ symmetricRow rows v ↔ u ∈ rows.getD v [] ∨ v ∈ rows.getD u [] := by
  have hmem : ∀ u, u ∈ valuesOf (missing rows (range rows.length)) v ↔
      v ∈ rows.getD u [] ∧ u ∉ rows.getD v [] := by
    intro u
    rw [valuesOf_missing hrows, mem_filter, mem_range, decide_eq_true_eq]
    refine and_iff_right_of_imp ?_
    rintro ⟨hu, -⟩
    by_contra hge
    rw [getD_eq_default _ _ (by omega)] at hu
    cases hu
  constructor
  · have hnodup : (symmetricRow rows v).Nodup := by
      rw [symmetricRow, (perm_insertionSort _ _).nodup_iff, nodup_append]
      refine ⟨nodup_reverse.mpr ?_, hrows.nodup_getD v, ?_⟩
      · rw [valuesOf_missing hrows]
        exact nodup_range.filter _
      · rintro a ha b hb rfl
        exact ((hmem a).mp (mem_reverse.mp ha)).2 hb
    exact ((pairwise_insertionSort (· ≤ ·) _).and hnodup).imp
      fun hab => lt_of_le_of_ne hab.1 hab.2
  · intro u
    rw [symmetricRow, mem_insertionSort, mem_append, mem_reverse, hmem]
    tauto

end HotTLBApps.Gapbs
