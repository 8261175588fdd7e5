import HotTLBApps.PebblesDB.ConcatIterator

/-!
# PebblesDB: the iterator over a level finds its entries

A search for the first entry with a property goes from position to position
(`Searching`): nothing before the position of the index iterator has the property, and
everything after it has.  Both directions are one argument (`Heading`).
-/

namespace HotTLBApps.PebblesDB

open Cursor Intervals List Option

variable {K V : Type} [LinearOrder K]

namespace TwoLevelIteratorGuards

variable {r : LevelReader K V} {s : TwoLevelIteratorGuards K V}
variable {ω ν : Type} [LinearOrder ω] [LinearOrder ν]
variable {ord : InternalKey K × V → ω} {rank : Nat → ν}

/-- A direction: how the index iterator steps, where a new position is entered, and the
orders of the entries and of the positions that go with it.  `left` bounds the steps. -/
structure Heading (r : LevelReader K V) (ord : InternalKey K × V → ω) (rank : Nat → ν)
    (move : Nat → Option (Option Nat)) (restart : Call (InternalKey K))
    (left : Option Nat → Nat) : Prop where
  move_spec : ∀ p ∈ r.blocks, ∃ o, move p = some o ∧
    IsFirst rank r.blocks (fun p' => rank p < rank p') o ∧ left o < left (some p)
  restart_spec : ∀ (it : FilesIterator (InternalKey K) V) files, it.Over r.parts files →
    ∃ it', it.call r.parts restart = some it' ∧ IsFirst ord it.items (fun _ => True) it'.view
  cross : ∀ p p' x y, x ∈ r.rows p → y ∈ r.rows p' → rank p < rank p' → ord x < ord y
  rank_injective : Function.Injective rank

/-- The search for the first entry with a property has come to the position of the index
iterator: there is none before it, and all entries after it have the property. -/
structure Searching (r : LevelReader K V) (ord : InternalKey K × V → ω) (rank : Nat → ν)
    (q : InternalKey K × V → Prop) (s : TwoLevelIteratorGuards K V) : Prop where
  opened : s.Opened r
  before : ∀ p' ∈ r.blocks, (∀ p ∈ s.index, rank p' < rank p) → ∀ x ∈ r.rows p', ¬ q x
  here : ∀ p ∈ s.index, IsFirst ord (r.rows p) q s.view
  after : ∀ p ∈ s.index, ∀ p' ∈ r.blocks, rank p < rank p' → ∀ x ∈ r.rows p', q x

theorem Opened.data_eq_none (h : s.Opened r) (hindex : s.index = none) : s.data = none := by
  have hsome := h.isSome_eq
  rw [hindex] at hsome
  exact isNone_iff_eq_none.mp (isSome_eq_false_iff.mp hsome.symm)

theorem Opened.view_eq_none (h : s.Opened r) (hindex : s.index = none) : s.view = none := by
  rw [view, h.data_eq_none hindex]
  rfl

variable {move : Nat → Option (Option Nat)} {left : Option Nat → Nat}
variable {q : InternalKey K × V → Prop} {restart : Call (InternalKey K)}

/-- A search that has found an entry or the end is over. -/
theorem Searching.isFirst (hd : Heading r ord rank move restart left) (h : Searching r ord rank q s)
    (hend : s.view.isSome = true ∨ s.index = none) : IsFirst ord r.allRows q s.view := by
  cases hindex : s.index with
  | none =>
    rw [h.opened.view_eq_none hindex]
    refine ⟨nofun, fun y hy hq => ?_⟩
    obtain ⟨p', hp', hy⟩ := mem_flatMap.mp hy
    refine absurd hq (h.before p' hp' (fun p hp => ?_) y hy)
    rw [hindex] at hp
    cases hp
  | some p =>
    have hview : s.view.isSome = true := by
      obtain hview | hnone := hend
      · exact hview
      · cases hnone.symm.trans hindex
    obtain ⟨x, hx⟩ := isSome_iff_exists.mp hview
    have hhere := h.here p hindex
    rw [hx] at hhere ⊢
    obtain ⟨hmem, hqx⟩ := hhere.mem x rfl
    refine ⟨?_, ?_⟩
    · intro x' hx'
      cases hx'
      exact ⟨mem_flatMap.mpr ⟨p, h.opened.block p hindex, hmem⟩, hqx⟩
    · intro y hy hq
      obtain ⟨p', hp', hy⟩ := mem_flatMap.mp hy
      obtain hlt | heq | hlt := lt_trichotomy (rank p') (rank p)
      · refine absurd hq (h.before p' hp' (fun p₁ hp₁ => ?_) y hy)
        rw [some.inj (hp₁.symm.trans hindex)]
        exact hlt
      · rw [hd.rank_injective heq] at hy
        exact hhere.least y hy hq
      · exact ⟨x, rfl, (hd.cross p p' x y hmem hy hlt).le⟩

theorem Opened.exists_callData (h : s.Opened r) {p : Nat} (hindex : s.index = some p)
    {c : Call (InternalKey K)} (hcall : ∀ it files, s.data = some it → it.Over r.parts files →
      ∃ it', it.call r.parts c = some it' ∧ IsFirst ord it.items q it'.view) :
    ∃ s', s.callData r c = some s' ∧ s'.Opened r ∧ s'.index = s.index ∧
      IsFirst ord (r.rows p) q s'.view := by
  obtain ⟨it, hdata, hover⟩ := h.exists_data hindex
  obtain ⟨it', hit', hfirst⟩ := hcall it _ hdata hover
  have hs' : s.callData r c = some { s with data := some it' } := by
    rw [TwoLevelIteratorGuards.callData, hdata]
    dsimp only
    rw [hit', map_some]
  obtain ⟨hopened, hsame⟩ := h.callData hs'
  refine ⟨_, hs', hopened, hsame, hfirst.of_mem_iff fun x => ?_⟩
  rw [hover.mem_items, LevelReader.mem_rows]

/-- The index iterator is placed and the first entry of the position is found. -/
theorem exists_place (hgood : r.Good) (hdata : s.DataOk r) {index : Option Nat}
    (hblock : ∀ p ∈ index, p ∈ r.blocks) {c : Call (InternalKey K)}
    (hcall : ∀ (it : FilesIterator (InternalKey K) V) files, it.Over r.parts files →
      ∃ it', it.call r.parts c = some it' ∧ IsFirst ord it.items q it'.view) :
    ∃ s', s.place r index c = some s' ∧ s'.Opened r ∧ s'.index = index ∧
      ∀ p ∈ index, IsFirst ord (r.rows p) q s'.view := by
  obtain ⟨s₁, hinit⟩ := exists_initDataBlock (s := { s with index := index }) hgood hblock
  have hdata' : DataOk r { s with index := index } := hdata
  obtain ⟨hopened, hindex⟩ := opened_initDataBlock hdata' hblock hinit
  have hplace : s.place r index c = s₁.callData r c := by
    rw [place, hinit]
    rfl
  rw [hplace]
  cases index with
  | none =>
    refine ⟨s₁, ?_, hopened, hindex, nofun⟩
    rw [callData, hopened.data_eq_none hindex]
  | some p =>
    obtain ⟨s', hs', hopened', hsame, hfirst⟩ :=
      hopened.exists_callData hindex fun it files _ hover => hcall it files hover
    refine ⟨s', hs', hopened', hsame.trans hindex, fun p' hp' => ?_⟩
    cases hp'
    exact hfirst

/-- **Skipping goes on to the first entry with the property.** -/
theorem Searching.exists_skip (hgood : r.Good) (hd : Heading r ord rank move restart left)
    {fuel : Nat} (hfuel : left s.index < fuel) (h : Searching r ord rank q s) :
    ∃ s', skipEmptyDataBlocks r move restart fuel s = some s' ∧ s'.Opened r ∧
      IsFirst ord r.allRows q s'.view := by
  induction fuel generalizing s with
  | zero => omega
  | succ fuel ih =>
    rw [skipEmptyDataBlocks]
    split_ifs with hview
    · exact ⟨s, rfl, h.opened, h.isFirst hd (.inl hview)⟩
    · cases hindex : s.index with
      | none =>
        have hfirst := h.isFirst hd (.inr hindex)
        rw [h.opened.view_eq_none hindex] at hfirst
        exact ⟨_, rfl, opened_closed _, hfirst⟩
      | some p =>
        have hp := h.opened.block p hindex
        obtain ⟨o, hmove, hnext, hleft⟩ := hd.move_spec p hp
        obtain ⟨s₁, hplace, hopened, hindex₁, hhere⟩ := exists_place hgood h.opened.dataOk
          (fun p' hp' => (hnext.mem p' hp').1) hd.restart_spec
        -- nothing was found here, so the search goes on at the next position
        have hsearch : Searching r ord rank q s₁ := by
          rw [not_isSome_iff_eq_none] at hview
          refine ⟨hopened, ?_, ?_, ?_⟩
          · intro p' hp' hbefore x hx hq
            obtain hlt | heq | hlt := lt_trichotomy (rank p') (rank p)
            · refine h.before p' hp' (fun p₁ hp₁ => ?_) x hx hq
              rw [some.inj (hp₁.symm.trans hindex)]
              exact hlt
            · rw [hd.rank_injective heq] at hx
              obtain ⟨y, hy, -⟩ := (h.here p hindex).least x hx hq
              rw [hview] at hy
              cases hy
            · obtain ⟨p₁, hp₁, hle⟩ := hnext.least p' hp' hlt
              exact absurd (hbefore p₁ (hindex₁ ▸ hp₁)) (not_lt.mpr hle)
          · intro p₁ hp₁
            rw [hindex₁] at hp₁
            obtain ⟨hp₁b, hlt⟩ := hnext.mem p₁ hp₁
            exact (hhere p₁ hp₁).congr fun x hx =>
              ⟨fun _ => h.after p hindex p₁ hp₁b hlt x hx, fun _ => trivial⟩
          · intro p₁ hp₁ p' hp' hlt
            rw [hindex₁] at hp₁
            exact h.after p hindex p' hp' ((hnext.mem p₁ hp₁).2.trans hlt)
        rw [hindex] at hfuel
        dsimp only
        rw [hmove, bind_eq_bind, bind_some, hplace]
        exact ih (by rw [hindex₁]; omega) hsearch

variable {restart c : Call (InternalKey K)}

theorem exists_placed (hgood : r.Good) (hd : Heading r ord rank move restart left) (hs : s.Opened r)
    {index : Option Nat} (hblock : ∀ p ∈ index, p ∈ r.blocks) (hfuel : left index < skipFuel r)
    (hcall : ∀ (it : FilesIterator (InternalKey K) V) files, it.Over r.parts files →
      ∃ it', it.call r.parts c = some it' ∧ IsFirst ord it.items q it'.view)
    (hbefore : ∀ p' ∈ r.blocks, (∀ p ∈ index, rank p' < rank p) → ∀ x ∈ r.rows p', ¬ q x)
    (hafter : ∀ p ∈ index, ∀ p' ∈ r.blocks, rank p < rank p' → ∀ x ∈ r.rows p', q x) :
    ∃ s', ((s.place r index c).bind (skipEmptyDataBlocks r move restart (skipFuel r))) = some s' ∧
      s'.Opened r ∧ IsFirst ord r.allRows q s'.view := by
  obtain ⟨s₁, hplace, hopened, hindex, hhere⟩ := exists_place hgood hs.dataOk hblock hcall
  rw [hplace, bind_some]
  refine Searching.exists_skip hgood hd (by rw [hindex]; exact hfuel) ⟨hopened, ?_, ?_, ?_⟩
  · rw [hindex]
    exact hbefore
  · rw [hindex]
    exact hhere
  · rw [hindex]
    exact hafter

theorem exists_stepped (hgood : r.Good)
    (hd : Heading r ord rank move restart left) (hs : s.Opened r)
    (hfuel : ∀ o, (∀ p ∈ o, p ∈ r.blocks) → left o < skipFuel r) {x : InternalKey K × V}
    (hx : s.view = some x)
    (hcall : ∀ (it : FilesIterator (InternalKey K) V) files, it.view = some x →
      it.Over r.parts files →
      ∃ it', it.call r.parts c = some it' ∧ IsFirst ord it.items (fun y => ord x < ord y) it'.view) :
    ∃ s', ((s.callData r c).bind (skipEmptyDataBlocks r move restart (skipFuel r))) = some s' ∧
      s'.Opened r ∧ IsFirst ord r.allRows (fun y => ord x < ord y) s'.view := by
  obtain ⟨it, hdata, hit⟩ := bind_eq_some_iff.mp hx
  obtain ⟨p, hindex⟩ : ∃ p, s.index = some p := by
    have hsome := hs.isSome_eq
    rw [hdata] at hsome
    exact isSome_iff_exists.mp hsome
  have hxp : x ∈ r.rows p := by
    obtain ⟨it', hdata', hover⟩ := hs.exists_data hindex
    obtain rfl := some.inj (hdata'.symm.trans hdata)
    rw [LevelReader.mem_rows, ← hover.mem_items]
    exact hover.ready.mem_of_view hit
  obtain ⟨s₁, hs₁, hopened, hsame, hhere⟩ := hs.exists_callData hindex fun it' files hit' hover =>
    hcall it' files (by rw [← some.inj (hdata.symm.trans hit')]; exact hit) hover
  rw [hs₁, bind_some]
  refine Searching.exists_skip hgood hd (hfuel _ hopened.block) ⟨hopened, ?_, ?_, ?_⟩
  · intro p' hp' hbefore y hy
    exact (hd.cross p' p y x hy hxp (hbefore p (hsame.trans hindex))).not_gt
  · intro p' hp'
    rw [hsame, hindex] at hp'
    cases hp'
    exact hhere
  · intro p₁ hp₁ p' _ hlt y hy
    rw [hsame, hindex] at hp₁
    cases hp₁
    exact hd.cross p p' x y hxp hy hlt

end TwoLevelIteratorGuards

namespace TwoLevelIteratorGuards

variable {r : LevelReader K V} {s : TwoLevelIteratorGuards K V}

/-- How many positions are left for the index iterator. -/
def leftForward (r : LevelReader K V) : Option Nat → Nat
  | some p => r.level.guards.length + 1 - p
  | none => 0

theorem leftForward_lt (o : Option Nat) : leftForward r o < skipFuel r := by
  unfold leftForward skipFuel
  cases o <;>
  · dsimp only
    omega

theorem heading_forward (hgood : r.Good) :
    Heading r Prod.fst id (fun p => some (r.bump (p + 1))) .seekToFirst (leftForward r) where
  move_spec p hp := by
    have hnext := LevelReader.isFirst_bump (r := r) (p + 1)
    refine ⟨_, rfl, hnext.congr fun p' _ => Nat.succ_le_iff, ?_⟩
    have hple := (LevelReader.mem_blocks.mp hp).1
    cases hbump : r.bump (p + 1) with
    | none =>
      unfold leftForward
      dsimp only
      omega
    | some p' =>
      have hlt := (hnext.mem p' hbump).2
      unfold leftForward
      dsimp only
      omega
  restart_spec it _ hover := by
    obtain ⟨it', hit', -, hfirst⟩ :=
      (filesIterator_behaves r.parts it.items).seekToFirst it ⟨rfl, hover.ready⟩
    exact ⟨it', hit', hfirst⟩
  cross p p' x y hx hy hlt := hgood.lt_of_lt hx hy hlt
  rank_injective := fun _ _ h => h

/-- **Forward calls** do what a cursor over the entries of the opened files does. -/
theorem twoLevelIteratorGuards_behaves (hguards : (guardUserKeys r.level.guards).Pairwise (· < ·))
    (hgood : r.Good) : ForwardBehaves Prod.fst r.allRows (call r) view (Opened r) where
  seekToFirst s hs := by
    have hbump := LevelReader.isFirst_bump (r := r) 0
    refine exists_placed hgood (heading_forward hgood) hs (fun p hp => (hbump.mem p hp).1)
      (leftForward_lt _) (heading_forward hgood).restart_spec ?_ fun _ _ _ _ _ _ _ => trivial
    intro p' hp' hbefore
    obtain ⟨p, hp, hle⟩ := hbump.least p' hp' (Nat.zero_le _)
    exact absurd (hbefore p hp) (not_lt.mpr hle)
  seek s target hs := by
    have hbump := LevelReader.isFirst_bump (r := r)
      (slot (guardUserKeys r.level.guards) target.userKey)
    unfold call
    dsimp only
    rw [LevelReader.seekIndex_eq hguards target]
    refine exists_placed hgood (heading_forward hgood) hs (fun p hp => (hbump.mem p hp).1)
      (leftForward_lt _) ?_ ?_ ?_
    · intro it _ hover
      obtain ⟨it', hit', -, hfirst⟩ :=
        (filesIterator_behaves r.parts it.items).seek it target ⟨rfl, hover.ready⟩
      exact ⟨it', hit', hfirst⟩
    · -- the positions before it have smaller user keys
      intro p' hp' hbefore x hx hle
      have hslot := slot_mono (guardUserKeys r.level.guards) (InternalKey.userKey_le_of_le hle)
      rw [hgood.slot_eq p' x hx] at hslot
      obtain ⟨p, hp, hpp'⟩ := hbump.least p' hp' hslot
      exact absurd (hbefore p hp) (not_lt.mpr hpp')
    · intro p hp p' hp' hlt x hx
      have hle := (hbump.mem p hp).2
      have hlt' : slot (guardUserKeys r.level.guards) target.userKey < p' :=
        lt_of_le_of_lt hle hlt
      by_contra hnot
      have hslot := slot_mono (guardUserKeys r.level.guards)
        (InternalKey.userKey_le_of_le (not_le.mp hnot).le)
      rw [hgood.slot_eq p' x hx] at hslot
      omega
  next s x hs hx := by
    unfold call
    rw [if_pos (by rw [hx]; rfl)]
    refine exists_stepped hgood (heading_forward hgood) hs (fun o _ => leftForward_lt o) hx ?_
    intro it _ hview hover
    obtain ⟨it', hit', -, hfirst⟩ :=
      (filesIterator_behaves r.parts it.items).next it x ⟨rfl, hover.ready⟩ hview
    exact ⟨it', hit', hfirst⟩
  next_none s _ hnone := by
    unfold call
    rw [if_neg (by rw [hnone]; exact Bool.false_ne_true)]

def leftBackward : Option Nat → Nat
  | some p => p + 1
  | none => 0

theorem leftBackward_lt {o : Option Nat}
    (ho : ∀ p ∈ o, p ∈ r.blocks) : leftBackward o < skipFuel r := by
  unfold leftBackward skipFuel
  cases o with
  | none =>
    dsimp only
    omega
  | some p =>
    have hp := (LevelReader.mem_blocks.mp (ho p rfl)).1
    dsimp only
    omega

theorem heading_backward (hgood : r.Good) (hzero : r.number = 0) :
    Heading r (fun x => OrderDual.toDual x.1) OrderDual.toDual r.prevIndex .seekToLast
      leftBackward where
  move_spec p hp := by
    have hple := (LevelReader.mem_blocks.mp hp).1
    cases p with
    | zero =>
      refine ⟨none, if_pos hzero, ⟨nofun, fun p' _ hlt => ?_⟩, Nat.one_pos⟩
      exact absurd (OrderDual.toDual_lt_toDual.mp hlt) (Nat.not_lt_zero _)
    | succ p =>
      have hprev := LevelReader.isLast_bumpReverse (r := r) (p := p) (by omega)
      refine ⟨_, if_pos hzero, IsFirst.congr hprev fun p' _ => ?_, ?_⟩
      · rw [OrderDual.toDual_lt_toDual, Nat.lt_succ_iff]
      · cases hbump : r.bumpReverse p with
        | none => exact Nat.succ_pos _
        | some p' =>
          have hle := (hprev.mem p' hbump).2
          unfold leftBackward
          dsimp only
          omega
  restart_spec it _ hover := by
    obtain ⟨it', hit', -, hlast⟩ :=
      (filesIterator_behaves r.parts it.items).seekToLast it ⟨rfl, hover.ready⟩
    exact ⟨it', hit', hlast⟩
  cross p p' x y hx hy hlt :=
    OrderDual.toDual_lt_toDual.mpr (hgood.lt_of_lt hy hx (OrderDual.toDual_lt_toDual.mp hlt))
  rank_injective := OrderDual.toDual.injective

/-- **All calls**, if no files are left out by number. -/
theorem twoLevelIteratorGuards_behaves_zero
    (hguards : (guardUserKeys r.level.guards).Pairwise (· < ·)) (hgood : r.Good)
    (hzero : r.number = 0) : Behaves Prod.fst r.allRows (call r) view (Opened r) where
  __ := twoLevelIteratorGuards_behaves hguards hgood
  seekToLast s hs := by
    have hbump := LevelReader.isLast_bumpReverse (r := r) le_rfl
    have hblock : ∀ p ∈ r.bumpReverse r.level.guards.length, p ∈ r.blocks :=
      fun p hp => (hbump.mem p hp).1
    refine exists_placed hgood (heading_backward hgood hzero) hs hblock (leftBackward_lt hblock)
      (heading_backward hgood hzero).restart_spec ?_ fun _ _ _ _ _ _ _ => trivial
    intro p' hp' hbefore
    obtain ⟨p, hp, hle⟩ := hbump.least p' hp' (LevelReader.mem_blocks.mp hp').1
    exact absurd (hbefore p hp) (not_lt.mpr hle)
  prev s x hs hx := by
    unfold call
    dsimp only
    rw [if_pos (by rw [hx]; rfl)]
    have hstep := exists_stepped hgood (heading_backward hgood hzero) hs
      (c := .prev) (fun o ho => leftBackward_lt ho) hx ?_
    · obtain ⟨s', hs', hopened, hlast⟩ := hstep
      exact ⟨s', hs', hopened, hlast⟩
    · intro it _ hview hover
      obtain ⟨it', hit', -, hlast⟩ :=
        (filesIterator_behaves r.parts it.items).prev it x ⟨rfl, hover.ready⟩ hview
      exact ⟨it', hit', hlast⟩
  prev_none s _ hnone := by
    unfold call
    dsimp only
    rw [if_neg (by rw [hnone]; exact Bool.false_ne_true)]

end TwoLevelIteratorGuards

end HotTLBApps.PebblesDB
