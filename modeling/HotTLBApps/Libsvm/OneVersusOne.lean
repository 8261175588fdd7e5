import HotTLBApps.Libsvm.SvmModel

/-!
# LIBSVM: the packed model decides as the subproblems do

The training examples lie class by class in one array, the kept ones in another, and the
coefficients of all pairs share `nr_class - 1` rows.  All these are made of blocks, one for each
class, and a pair writes two blocks of coefficients that no other pair writes.

* `markNonzero_flat`, `storeCoef_flat`, `addTerms_flat`: the loops over the examples of a class;
* `foldlM_trainPair`, `foldlM_storePair`, `foldlM_predictPair`: the loops over the pairs.
-/

namespace HotTLBApps.Libsvm

open Slices Blocks List Function Option

section

theorem mem_pairs {n : Nat} {pair : Nat × Nat} : pair ∈ pairs n ↔ pair.1 < pair.2 ∧ pair.2 < n := by
  obtain ⟨i, j⟩ := pair
  simp only [pairs, List.mem_flatMap, List.mem_range, List.mem_map, List.mem_range'_1,
    Prod.mk.injEq]
  constructor
  · rintro ⟨i', hi', j', hj', rfl, rfl⟩
    omega
  · rintro ⟨hij, hj⟩
    exact ⟨i, by omega, j, by omega, rfl, rfl⟩

theorem length_pairs (n : Nat) : (pairs n).length = n * (n - 1) / 2 := by
  have hsum : (pairs n).length = ∑ i ∈ Finset.range n, (n - 1 - i) := by
    simp only [pairs, length_flatMap, length_map, length_range', Nat.sub_sub, Nat.add_comm 1]
    rfl
  rw [hsum, Finset.sum_range_reflect (fun i => i), Finset.sum_range_id]

variable {X R : Type}

theorem mapM_flat {n c : Nat} {f : Nat → List X} (hc : c < n) :
    (range (f c).length).mapM (fun k => (flat n f)[offset (fun c => (f c).length) c + k]?) =
      some (f c) := by
  refine Loops.mapM_range fun k hk => ?_
  rw [getElem?_flat (fun _ _ => rfl) hc hk, getElem?_eq_getElem hk]

variable {bs : List Bool}

/-- **Storing the marked elements of a list** one after another over the places of others. -/
theorem foldlM_storeMarked {as : List X} (hlength : bs.length = as.length)
    {marked : Nat → Option Bool} {value : Nat → Option X}
    (hmarked : ∀ k < as.length, marked k = bs[k]?) (hvalue : ∀ k < as.length, value k = as[k]?)
    (before : List (Option X)) {mid : List (Option X)} (after : List (Option X))
    (hmid : mid.length = (keep bs as).length) :
    ∃ q, (range as.length).foldlM (fun state k => storeMarked state (marked k) (value k))
        (before.length, before ++ (mid ++ after)) =
      some (q, before ++ ((keep bs as).map some ++ after)) := by
  induction as generalizing bs marked value before mid with
  | nil =>
    rw [keep_nil] at hmid
    rw [eq_nil_of_length_eq_zero hmid, keep_nil]
    exact ⟨_, rfl⟩
  | cons a as ih =>
    obtain ⟨b, bs, rfl⟩ := exists_cons_of_length_eq_add_one hlength
    have hstep := hmarked 0 (Nat.succ_pos _)
    have hfirst := hvalue 0 (Nat.succ_pos _)
    have hrest : ∀ before {mid : List (Option X)}, mid.length = (keep bs as).length →
        ∃ q, (range as.length).foldlM
            (fun state k => storeMarked state (marked (k + 1)) (value (k + 1)))
            (before.length, before ++ (mid ++ after)) =
          some (q, before ++ ((keep bs as).map some ++ after)) := fun before _ hmid =>
      ih (Nat.succ.inj hlength) (fun k hk => hmarked (k + 1) (Nat.succ_lt_succ hk))
        (fun k hk => hvalue (k + 1) (Nat.succ_lt_succ hk)) before hmid
    simp only [length_cons, range_succ_eq_map, foldlM_cons, foldlM_map, hstep, hfirst]
    cases b with
    | false => exact hrest before hmid
    | true =>
      cases mid with
      | nil => cases hmid
      | cons m mid =>
        have hwrite : storeMarked (before.length, before ++ (m :: mid ++ after)) (some true)
            (some a) = some ((before ++ [some a]).length,
              (before ++ [some a]) ++ (mid ++ after)) := by
          rw [storeMarked]
          dsimp only [bind_eq_bind, bind_some]
          rw [if_pos rfl, write?_of_lt (by simp only [length_append, length_cons]; omega),
            set_append_right _ _ le_rfl, Nat.sub_self]
          simp
        obtain ⟨q, hq⟩ := hrest (before ++ [some a]) (Nat.succ.inj hmid)
        refine ⟨q, ?_⟩
        change (storeMarked _ (some true) (some a) >>= _) = _
        rw [hwrite]
        refine hq.trans ?_
        simp [keep]

theorem collectSV_eq {nonzero : List Bool} {x : List X} (h : nonzero.length = x.length)
    {total : Nat} (htotal : total = (keep nonzero x).length) :
    collectSV nonzero x total = some ((keep nonzero x).map some) := by
  have hmid : (malloc total : List (Option X)).length = (keep nonzero x).length := by
    rw [malloc, length_replicate, htotal]
  obtain ⟨q, hq⟩ := foldlM_storeMarked h (fun _ _ => rfl) (fun _ _ => rfl) [] [] hmid
  rw [append_nil, append_nil] at hq
  rw [collectSV]
  exact congrArg (· >>= fun filled => some filled.2) hq

variable {marks : Nat → List Bool} {alpha as : List R} {block : Nat → List (Option R)}

theorem storeCoef_flat {n c first : Nat} {lengths nSV : Nat → Nat} (hc : c < n)
    (hmarks : ∀ c < n, (marks c).length = lengths c) (hblock : ∀ c < n, (block c).length = nSV c)
    (halpha : as.length = lengths c) (has : ∀ k < lengths c, alpha[first + k]? = as[k]?)
    (hkeep : nSV c = (keep (marks c) as).length) :
    storeCoef (flat n marks) alpha (offset lengths c) first (lengths c) (offset nSV c)
        (flat n block) =
      some (flat n (update block c ((keep (marks c) as).map some))) := by
  obtain ⟨before, after, hold, hnew, hlength⟩ :=
    flat_update hblock hc ((keep (marks c) as).map some)
  obtain ⟨q, hq⟩ := foldlM_storeMarked ((hmarks c hc).trans halpha.symm)
    (fun k hk => getElem?_flat hmarks hc (halpha ▸ hk)) (fun k hk => has k (halpha ▸ hk)) before after
    ((hblock c hc).trans hkeep)
  rw [hlength, halpha] at hq
  rw [storeCoef, hold, hnew]
  exact congrArg (· >>= fun filled => some filled.2) hq

theorem countSV_flat {n c : Nat} {lengths : Nat → Nat} (hc : c < n)
    (hmarks : ∀ c < n, (marks c).length = lengths c) :
    countSV (flat n marks) (offset lengths c) (lengths c) = some ((marks c).count true) := by
  have hlist : ∃ nSV, (marks c).foldlM (fun nSV marked =>
      if marked then some (nSV + 1) else some nSV) 0 = some nSV ∧ nSV = (marks c).count true := by
    refine Loops.foldlM_done_total (I := fun done nSV => nSV = done.count true) ?_ rfl
    rintro done b rest _ - rfl
    cases b <;> simp
  obtain ⟨_, hrange, rfl⟩ := hlist
  rw [← Loops.foldlM_range (fun s k hk => ?_) 0, hmarks c hc] at hrange
  · exact hrange
  · rw [getElem?_flat hmarks hc (hmarks c hc ▸ hk), getElem?_eq_getElem hk]
    rfl

variable [Ring R]

/-- The sum of the products. -/
def dot (as ks : List R) : R :=
  (List.zipWith (· * ·) as ks).sum

/-- Every nonzero coefficient is marked. -/
def Covers (bs : List Bool) (as : List R) : Prop :=
  List.Forall₂ (fun b a => a ≠ 0 → b = true) bs as

/-- **Examples that are not marked** add nothing. -/
theorem dot_keep {as ks : List R} (h : Covers bs as)
    (hlength : as.length = ks.length) : dot (keep bs as) (keep bs ks) = dot as ks := by
  induction h generalizing ks with
  | nil => rfl
  | @cons b a _ _ hb _ ih =>
    obtain ⟨k, ks, rfl⟩ := exists_cons_of_length_eq_add_one hlength.symm
    have htail := ih (Nat.succ.inj hlength)
    cases b with
    | true =>
      change a * k + dot _ _ = a * k + dot _ _
      rw [htail]
    | false =>
      have ha : a = 0 := by
        by_contra hne
        exact Bool.false_ne_true (hb hne)
      change dot (keep _ _) (keep _ _) = a * k + dot _ _
      rw [keep, keep, htail, ha, zero_mul, zero_add]

/-- The loop over the kept examples of a class, over the block of the class. -/
theorem addTerms_flat {n c : Nat} {values : Nat → List R}
    {nSV : Nat → Nat} (hc : c < n) (hblocks : ∀ c < n, (block c).length = nSV c)
    (hvalues : ∀ c < n, (values c).length = nSV c) (hblock : block c = as.map some) (sum : R) :
    addTerms (flat n block) (flat n values) (offset nSV c) (nSV c) sum =
      some (sum + dot as (values c)) := by
  have hlist : ∀ (l : List (R × R)) (sum : R), l.foldlM (fun sum e => some (sum + e.1 * e.2)) sum =
        some (sum + (l.map fun e => e.1 * e.2).sum) := by
    intro l
    induction l with
    | nil => exact fun sum => congrArg some (add_zero sum).symm
    | cons e l ih =>
      intro sum
      rw [map_cons, sum_cons, ← add_assoc]
      exact ih _
  have has : as.length = nSV c := by rw [← hblocks c hc, hblock, length_map]
  have hzip : (as.zip (values c)).length = nSV c := by
    rw [length_zip, has, hvalues c hc, Nat.min_self]
  have hrange := hlist (as.zip (values c)) sum
  rw [← Loops.foldlM_range (fun s k hk => ?_) sum, hzip] at hrange
  · rw [addTerms, hrange, map_zip_eq_zipWith]
    rfl
  · rw [hzip] at hk
    have hload : load (flat n block) (offset nSV c + k) = some as[k] := by
      rw [load, getElem?_flat hblocks hc hk, hblock, getElem?_map, getElem?_eq_getElem]
      rfl
    rw [hload, getElem?_flat hvalues hc hk,
      getElem?_eq_getElem (by rwa [hvalues c hc]), getElem_zip]
    rfl

variable [LinearOrder R]

/-- Which places are marked after the nonzero coefficients of a pair are. -/
def mark (bs : List Bool) (as : List R) : List Bool :=
  List.zipWith (fun b a => b || decide (0 < |a|)) bs as

/-- The loop that marks a block between others. -/
theorem markNonzero_append {first : Nat} (before after : List Bool)
    (hlength : bs.length = as.length) (has : ∀ k < as.length, alpha[first + k]? = as[k]?) :
    markNonzero alpha before.length first as.length (before ++ (bs ++ after)) =
      some (before ++ (mark bs as ++ after)) := by
  induction as generalizing before bs first with
  | nil =>
    rw [eq_nil_of_length_eq_zero hlength]
    rfl
  | cons a as ih =>
    obtain ⟨b, bs, rfl⟩ := exists_cons_of_length_eq_add_one hlength
    have hshift : ∀ m k, m + 1 + k = m + (k + 1) := by omega
    have hfirst : alpha[first]? = some a := has 0 (Nat.succ_pos _)
    have hmore : ∀ k < as.length, alpha[first + 1 + k]? = as[k]? := by
      intro k hk
      rw [hshift]
      exact has (k + 1) (Nat.succ_lt_succ hk)
    have hrest := ih (before ++ [b || decide (0 < |a|)]) (Nat.succ.inj hlength) hmore
    have hstep : (if !b && decide (0 < |a|) then
        write? (before ++ (b :: (bs ++ after))) before.length true
        else some (before ++ (b :: (bs ++ after)))) =
          some (before ++ ((b || decide (0 < |a|)) :: (bs ++ after))) := by
      rw [write?_of_lt (by simp), set_append_right _ _ le_rfl, Nat.sub_self]
      cases b <;> cases decide (0 < |a|) <;> rfl
    unfold markNonzero at hrest ⊢
    simp only [length_append, length_singleton, hshift, append_assoc, singleton_append] at hrest
    simp only [length_cons, range_succ_eq_map, foldlM_cons, foldlM_map,
      Nat.add_zero, cons_append, hfirst, getElem?_append_right le_rfl, Nat.sub_self,
      getElem?_cons_zero, bind_eq_bind, bind_some, hstep]
    exact hrest

/-- The loop that marks the examples of a class, over the block of the class. -/
theorem markNonzero_flat {n c first : Nat}
    {lengths : Nat → Nat} (hc : c < n) (hmarks : ∀ c < n, (marks c).length = lengths c)
    (halpha : as.length = lengths c) (has : ∀ k < lengths c, alpha[first + k]? = as[k]?) :
    markNonzero alpha (offset lengths c) first (lengths c) (flat n marks) =
      some (flat n (update marks c (mark (marks c) as))) := by
  obtain ⟨before, after, hold, hnew, hlength⟩ := flat_update hmarks hc (mark (marks c) as)
  rw [hold, hnew, ← hlength, ← halpha]
  exact markNonzero_append before after ((hmarks c hc).trans halpha.symm) (halpha ▸ has)

theorem length_mark (h : bs.length = as.length) : (mark bs as).length = bs.length := by
  rw [mark, length_zipWith, h, Nat.min_self]

theorem Covers.mark {as as' : List R} (h : Covers bs as)
    (hlength : bs.length = as'.length) : Covers (mark bs as') as := by
  induction h generalizing as' with
  | nil => exact .nil
  | cons hb _ ih =>
    obtain ⟨a', as', rfl⟩ := exists_cons_of_length_eq_add_one hlength.symm
    refine .cons (fun ha => ?_) (ih (Nat.succ.inj hlength))
    rw [hb ha]
    rfl

theorem covers_mark [IsStrictOrderedRing R]
    (h : bs.length = as.length) : Covers (mark bs as) as := by
  induction as generalizing bs with
  | nil =>
    rw [eq_nil_of_length_eq_zero h]
    exact .nil
  | cons a as ih =>
    obtain ⟨b, bs, rfl⟩ := exists_cons_of_length_eq_add_one h
    refine .cons (fun ha => ?_) (ih (Nat.succ.inj h))
    dsimp only
    rw [decide_eq_true (abs_pos.mpr ha), Bool.or_true]

end

section

variable {X R : Type} {n : Nat} {xs : Nat → List X} {classes : Classes}

/-- The examples of the subproblem of two classes, with their signs. -/
def subOf (xs : Nat → List X) (i j : Nat) : List (X × Int) :=
  (xs i).map (·, 1) ++ (xs j).map (·, -1)

/-- The decision function of a pair. -/
def decisionOf
    (trainOne : TrainOne X R) (xs : Nat → List X) (pair : Nat × Nat) : DecisionFunction R :=
  (trainOne pair.1 pair.2 (subOf xs pair.1 pair.2)).1

/-- The coefficients of the first class of a pair. -/
def firstAlpha (trainOne : TrainOne X R) (xs : Nat → List X) (pair : Nat × Nat) : List R :=
  (decisionOf trainOne xs pair).alpha.take (xs pair.1).length

/-- The coefficients of the second class of a pair. -/
def secondAlpha (trainOne : TrainOne X R) (xs : Nat → List X) (pair : Nat × Nat) : List R :=
  (decisionOf trainOne xs pair).alpha.drop (xs pair.1).length

variable {trainOne : TrainOne X R} {pair : Nat × Nat}

theorem length_alpha :
    (decisionOf trainOne xs pair).alpha.length = (xs pair.1).length + (xs pair.2).length := by
  rw [decisionOf, (trainOne pair.1 pair.2 (subOf xs pair.1 pair.2)).2, subOf, length_append,
    length_map, length_map]

variable (trainOne xs pair) in
theorem length_firstAlpha : (firstAlpha trainOne xs pair).length = (xs pair.1).length := by
  rw [firstAlpha, length_take, length_alpha]
  omega

variable (trainOne xs pair) in
theorem length_secondAlpha : (secondAlpha trainOne xs pair).length = (xs pair.2).length := by
  rw [secondAlpha, length_drop, length_alpha]
  omega

theorem firstAlpha_getElem? {k : Nat} (hk : k < (xs pair.1).length) :
    (decisionOf trainOne xs pair).alpha[0 + k]? = (firstAlpha trainOne xs pair)[k]? := by
  rw [firstAlpha, getElem?_take_of_lt hk, Nat.zero_add]

theorem secondAlpha_getElem? (k : Nat) :
    (decisionOf trainOne xs pair).alpha[(xs pair.1).length + k]? =
      (secondAlpha trainOne xs pair)[k]? := by
  rw [secondAlpha, getElem?_drop]

/-- The classes with the given examples. -/
structure ClassesOf (n : Nat) (xs : Nat → List X) (classes : Classes) : Prop where
  label : classes.label.length = n
  start : classes.start = (List.range n).map (offset fun c => (xs c).length)
  count : classes.count = (List.range n).map fun c => (xs c).length

theorem ClassesOf.start_getElem? (h : ClassesOf n xs classes) {c : Nat}
    (hc : c < n) : classes.start[c]? = some (offset (fun c => (xs c).length) c) := by
  simp [h.start, hc]

theorem ClassesOf.count_getElem? (h : ClassesOf n xs classes) {c : Nat}
    (hc : c < n) : classes.count[c]? = some (xs c).length := by
  simp [h.count, hc]

variable [Ring R] [LinearOrder R] [IsStrictOrderedRing R]

/-- What holds when some pairs have been trained. -/
structure Trained (trainOne : TrainOne X R) (n : Nat) (xs : Nat → List X) (done : List (Nat × Nat))
    (marks : Nat → List Bool) : Prop where
  length_eq : ∀ c < n, (marks c).length = (xs c).length
  first : ∀ pair ∈ done, Covers (marks pair.1) (firstAlpha trainOne xs pair)
  second : ∀ pair ∈ done, Covers (marks pair.2) (secondAlpha trainOne xs pair)

def markPair (trainOne : TrainOne X R) (xs : Nat → List X) (marks : Nat → List Bool)
    (pair : Nat × Nat) : Nat → List Bool :=
  update
    (update marks pair.1 (mark (marks pair.1) (firstAlpha trainOne xs pair)))
    pair.2 (mark (marks pair.2) (secondAlpha trainOne xs pair))

variable {marks : Nat → List Bool}

theorem Trained.concat {done : List (Nat × Nat)}
    (h : Trained trainOne n xs done marks) (hlt : pair.1 < pair.2) (hn : pair.2 < n) :
    Trained trainOne n xs (done ++ [pair]) (markPair trainOne xs marks pair) := by
  have hfirst : (marks pair.1).length = (firstAlpha trainOne xs pair).length := by
    rw [h.length_eq _ (hlt.trans hn), length_firstAlpha]
  have hsecond : (marks pair.2).length = (secondAlpha trainOne xs pair).length := by
    rw [h.length_eq _ hn, length_secondAlpha]
  -- the marks of a class are those before, or more
  have hcases : ∀ c, markPair trainOne xs marks pair c = marks c ∨
      ∃ as : List R, markPair trainOne xs marks pair c = mark (marks c) as ∧
        (marks c).length = as.length := by
    intro c
    rw [markPair, update_apply, update_apply]
    split_ifs with hc₂ hc₁
    · subst hc₂
      exact .inr ⟨_, rfl, hsecond⟩
    · subst hc₁
      exact .inr ⟨_, rfl, hfirst⟩
    · exact .inl rfl
  have hmono : ∀ c (as : List R), Covers (marks c) as →
      Covers (markPair trainOne xs marks pair c) as := by
    intro c as hcovers
    obtain heq | ⟨as', heq, hlength⟩ := hcases c
    · rwa [heq]
    · rw [heq]
      exact hcovers.mark hlength
  refine ⟨fun c hc => ?_, fun pr hpr => ?_, fun pr hpr => ?_⟩
  · obtain heq | ⟨as', heq, hlength⟩ := hcases c
    · rw [heq, h.length_eq c hc]
    · rw [heq, length_mark hlength, h.length_eq c hc]
  · obtain hpr | hpr := mem_append.mp hpr
    · exact hmono _ _ (h.first pr hpr)
    · rw [mem_singleton.mp hpr]
      unfold markPair
      rw [update_of_ne (Nat.ne_of_lt hlt), update_self]
      exact covers_mark hfirst
  · obtain hpr | hpr := mem_append.mp hpr
    · exact hmono _ _ (h.second pr hpr)
    · rw [mem_singleton.mp hpr]
      unfold markPair
      rw [update_self]
      exact covers_mark hsecond

omit [IsStrictOrderedRing R] in
theorem trainPair_eq {f : List (DecisionFunction R)}
    (h : ClassesOf n xs classes) (hlengths : ∀ c < n, (marks c).length = (xs c).length)
    (hpair : pair.1 < pair.2 ∧ pair.2 < n) (hroom : f.length < n * (n - 1) / 2) :
    trainPair trainOne (flat n xs) classes (flat n marks, f) pair =
      some (flat n (markPair trainOne xs marks pair), f ++ [decisionOf trainOne xs pair]) := by
  obtain ⟨hlt, hj⟩ := hpair
  have hi := hlt.trans hj
  have hsub : subProblem (flat n xs) classes pair.1 pair.2 = some (subOf xs pair.1 pair.2) := by
    rw [subProblem, h.start_getElem? hi, h.start_getElem? hj, h.count_getElem? hi,
      h.count_getElem? hj]
    dsimp only [bind_eq_bind, bind_some]
    rw [mapM_flat hi, mapM_flat hj]
    rfl
  have hfirst : markNonzero (decisionOf trainOne xs pair).alpha
      (offset (fun c => (xs c).length) pair.1) 0 (xs pair.1).length (flat n marks) =
      some (flat n (update marks pair.1 (mark (marks pair.1) (firstAlpha trainOne xs pair)))) :=
    markNonzero_flat hi hlengths (length_firstAlpha _ _ _) fun k hk => firstAlpha_getElem? hk
  have hlengths' : ∀ c < n, (update marks pair.1
      (mark (marks pair.1) (firstAlpha trainOne xs pair)) c).length = (xs c).length := by
    refine (forall_update_iff marks fun c l => c < n → l.length = (xs c).length).mpr
      ⟨fun _ => ?_, fun c _ => hlengths c⟩
    rw [length_mark, hlengths _ hi]
    rw [hlengths _ hi, length_firstAlpha]
  have hsecond := markNonzero_flat hj hlengths' (length_secondAlpha xs trainOne pair)
    fun k _ => secondAlpha_getElem? k
  rw [update_of_ne (Nat.ne_of_gt hlt)] at hsecond
  rw [trainPair, hsub, h.start_getElem? hi, h.start_getElem? hj, h.count_getElem? hi,
    h.count_getElem? hj]
  dsimp only [bind_eq_bind, bind_some]
  rw [h.label, if_pos hroom]
  change (markNonzero (decisionOf trainOne xs pair).alpha _ _ _ _).bind _ = _
  rw [hfirst, bind_some]
  change (markNonzero (decisionOf trainOne xs pair).alpha _ _ _ _).bind _ = _
  rw [hsecond]
  rfl

variable (trainOne) in
/-- **All pairs are trained**: every nonzero coefficient is marked. -/
theorem foldlM_trainPair (h : ClassesOf n xs classes) :
    ∃ s, (pairs n).foldlM (trainPair trainOne (flat n xs) classes)
        (replicate (flat n xs).length false, []) = some s ∧
      ∃ marks, s = (flat n marks, (pairs n).map (decisionOf trainOne xs)) ∧
        Trained trainOne n xs (pairs n) marks := by
  have hstart : Trained trainOne n xs [] fun c => replicate (xs c).length false :=
    ⟨fun c _ => length_replicate, nofun, nofun⟩
  rw [length_flat, ← flat_replicate]
  refine Loops.foldlM_done_total
    (I := fun done s => ∃ marks, s = (flat n marks, done.map (decisionOf trainOne xs)) ∧
      Trained trainOne n xs done marks) ?_ ⟨_, rfl, hstart⟩
  rintro done pair rest _ hpairs ⟨marks, rfl, htrained⟩
  have hpair : pair.1 < pair.2 ∧ pair.2 < n := by
    rw [← mem_pairs, ← hpairs]
    exact mem_append_right _ mem_cons_self
  have hroom : (done.map (decisionOf trainOne xs)).length < n * (n - 1) / 2 := by
    rw [length_map, ← length_pairs, ← hpairs, length_append, length_cons]
    omega
  refine ⟨_, trainPair_eq h htrained.length_eq hpair hroom, markPair trainOne xs marks pair, ?_,
    htrained.concat hpair.1 hpair.2⟩
  rw [map_append]
  rfl

end

section

variable {X R : Type} {n : Nat} {xs : Nat → List X} {classes : Classes}
  {trainOne : TrainOne X R} {marks : Nat → List Bool}

def keptOf (marks : Nat → List Bool) (c : Nat) : Nat :=
  (marks c).count true

theorem length_keep_eq {c : Nat} {as : List R} (hmarks : (marks c).length = (xs c).length)
    (has : as.length = (xs c).length) : (keep (marks c) as).length = keptOf marks c :=
  length_keep (hmarks.trans has.symm)

theorem startOf_getElem? {c : Nat} (hc : c < n) :
    ((range n).map (offset (keptOf marks)))[c]? = some (offset (keptOf marks) c) := by
  simp [hc]

/-- The rows of coefficients, by their blocks. -/
def rowsOf (n : Nat) (block : Nat → Nat → List (Option R)) : List (List (Option R)) :=
  (List.range (n - 1)).map fun r => flat n (block r)

variable {block : Nat → Nat → List (Option R)}

theorem rowsOf_getElem? {r : Nat}
    (hr : r < n - 1) : (rowsOf n block)[r]? = some (flat n (block r)) := by
  simp [rowsOf, hr]

def setBlock (block : Nat → Nat → List (Option R)) (r c : Nat)
    (l : List (Option R)) : Nat → Nat → List (Option R) :=
  update block r (update (block r) c l)

variable {l : List (Option R)}

theorem setBlock_self {r c : Nat} : setBlock block r c l r c = l := by
  rw [setBlock, update_self, update_self]

theorem setBlock_of_ne {r c r' c' : Nat}
    (h : ¬ (r' = r ∧ c' = c)) : setBlock block r c l r' c' = block r' c' := by
  unfold setBlock
  by_cases hr : r' = r
  · subst hr
    rw [update_self, update_of_ne fun hc => h ⟨rfl, hc⟩]
  · rw [update_of_ne hr]

theorem length_setBlock {r c : Nat} {nSV : Nat → Nat} (hl : l.length = nSV c)
    (h : ∀ r < n - 1, ∀ c < n, (block r c).length = nSV c) :
    ∀ r' < n - 1, ∀ c' < n, (setBlock block r c l r' c').length = nSV c' := by
  intro r' hr' c' hc'
  by_cases hsame : r' = r ∧ c' = c
  · obtain ⟨rfl, rfl⟩ := hsame
    rw [setBlock_self, hl]
  · rw [setBlock_of_ne hsame, h r' hr' c' hc']

/-- The block that holds the coefficients of one class of a pair is written. -/
theorem write?_rowsOf {r c : Nat} (hr : r < n - 1) (l : List (Option R)) :
    write? (rowsOf n block) r (flat n (update (block r) c l)) =
      some (rowsOf n (setBlock block r c l)) := by
  rw [rowsOf, write?_map_range hr, rowsOf]
  congr 1
  refine map_congr_left fun r' _ => ?_
  unfold setBlock
  by_cases hr' : r' = r
  · subst hr'
    rw [update_self, update_self]
  · rw [update_of_ne hr', update_of_ne hr']

/-- What holds when the coefficients of some pairs have been stored. -/
structure Stored (trainOne : TrainOne X R) (n : Nat) (xs : Nat → List X) (marks : Nat → List Bool)
    (done : List (Nat × Nat)) (block : Nat → Nat → List (Option R)) : Prop where
  length_eq : ∀ r < n - 1, ∀ c < n, (block r c).length = keptOf marks c
  first : ∀ pair ∈ done, block (pair.2 - 1) pair.1 =
    (keep (marks pair.1) (firstAlpha trainOne xs pair)).map some
  second : ∀ pair ∈ done, block pair.1 pair.2 =
    (keep (marks pair.2) (secondAlpha trainOne xs pair)).map some

def storeBlocks (trainOne : TrainOne X R) (xs : Nat → List X) (marks : Nat → List Bool)
    (block : Nat → Nat → List (Option R)) (pair : Nat × Nat) : Nat → Nat → List (Option R) :=
  setBlock
    (setBlock block (pair.2 - 1) pair.1
      ((keep (marks pair.1) (firstAlpha trainOne xs pair)).map some))
    pair.1 pair.2 ((keep (marks pair.2) (secondAlpha trainOne xs pair)).map some)

variable {pair : Nat × Nat} {done : List (Nat × Nat)}

/-- **No other pair writes the blocks of a pair.** -/
theorem Stored.concat
    (h : Stored trainOne n xs marks done block) (hmarks : ∀ c < n, (marks c).length = (xs c).length)
    (hdone : ∀ pr ∈ done, pr.1 < pr.2) (hlt : pair.1 < pair.2) (hn : pair.2 < n) :
    Stored trainOne n xs marks (done ++ [pair]) (storeBlocks trainOne xs marks block pair) := by
  have hfirst : storeBlocks trainOne xs marks block pair (pair.2 - 1) pair.1 =
      (keep (marks pair.1) (firstAlpha trainOne xs pair)).map some := by
    rw [storeBlocks, setBlock_of_ne (by omega), setBlock_self]
  have hsecond : storeBlocks trainOne xs marks block pair pair.1 pair.2 =
      (keep (marks pair.2) (secondAlpha trainOne xs pair)).map some := by
    rw [storeBlocks, setBlock_self]
  have hother : ∀ pr ∈ done ++ [pair], pr = pair ∨
      pr ∈ done ∧ pr.1 < pr.2 ∧ ¬ (pr.1 = pair.1 ∧ pr.2 = pair.2) := by
    intro pr hpr
    refine or_iff_not_imp_left.mpr fun hne => ?_
    have hold : pr ∈ done := by simpa [hne] using hpr
    exact ⟨hold, hdone pr hold, fun heq => hne (Prod.ext heq.1 heq.2)⟩
  refine ⟨length_setBlock ?_ (length_setBlock ?_ h.length_eq), fun pr hpr => ?_, fun pr hpr => ?_⟩
  · rw [length_map, length_keep_eq (hmarks _ hn) (length_secondAlpha _ _ _)]
  · rw [length_map, length_keep_eq (hmarks _ (hlt.trans hn)) (length_firstAlpha _ _ _)]
  · obtain rfl | ⟨hold, hlt', hne⟩ := hother pr hpr
    · exact hfirst
    · rw [storeBlocks, setBlock_of_ne (by omega), setBlock_of_ne (by omega), h.first pr hold]
  · obtain rfl | ⟨hold, hlt', hne⟩ := hother pr hpr
    · exact hsecond
    · rw [storeBlocks, setBlock_of_ne hne, setBlock_of_ne (by omega), h.second pr hold]

/-- The coefficients of a pair are stored. -/
theorem storePair_eq {f : List (DecisionFunction R)}
    {p : Nat} (h : ClassesOf n xs classes) (hmarks : ∀ c < n, (marks c).length = (xs c).length)
    (hstored : Stored trainOne n xs marks done block) (hlt : pair.1 < pair.2) (hj : pair.2 < n)
    (hf : f[p]? = some (decisionOf trainOne xs pair)) :
    storePair classes (flat n marks) f ((range n).map (offset (keptOf marks)))
        (rowsOf n block) (pair, p) =
      some (rowsOf n (storeBlocks trainOne xs marks block pair)) := by
  have hi := hlt.trans hj
  have hrow : pair.2 - 1 < n - 1 := by omega
  have hrow' : pair.1 < n - 1 := by omega
  have hkept := length_keep_eq (hmarks _ hi) (length_firstAlpha xs trainOne pair)
  have hfirst := storeCoef_flat hi hmarks (hstored.length_eq _ hrow)
    (length_firstAlpha xs trainOne pair) (fun k hk => firstAlpha_getElem? hk) hkept.symm
  have hsecond := storeCoef_flat hj hmarks
    (length_setBlock (r := pair.2 - 1) ((length_map some).trans hkept) hstored.length_eq _ hrow')
    (length_secondAlpha xs trainOne pair) (fun k _ => secondAlpha_getElem? k)
    (length_keep_eq (hmarks _ hj) (length_secondAlpha _ _ _)).symm
  rw [storePair]
  rw [h.start_getElem? hi, h.start_getElem? hj, h.count_getElem? hi, h.count_getElem? hj, hf,
    startOf_getElem? hi, rowsOf_getElem? hrow]
  dsimp only [bind_eq_bind, bind_some]
  rw [hfirst, bind_some, write?_rowsOf hrow, bind_some, startOf_getElem? hj, bind_some,
    rowsOf_getElem? hrow', bind_some, hsecond, bind_some, write?_rowsOf hrow']
  rfl

variable (trainOne) in
/-- **All coefficients are stored**, each block by its pair. -/
theorem foldlM_storePair (h : ClassesOf n xs classes)
    (hmarks : ∀ c < n, (marks c).length = (xs c).length) : ∃ s, (pairs n).zipIdx.foldlM
        (storePair classes (flat n marks) ((pairs n).map (decisionOf trainOne xs))
          ((range n).map (offset (keptOf marks))))
        (replicate (n - 1) (malloc (offset (keptOf marks) n))) = some s ∧
      ∃ block, s = rowsOf n block ∧ Stored trainOne n xs marks (pairs n) block := by
  have hstart : Stored trainOne n xs marks [] fun _ c => replicate (keptOf marks c) none :=
    ⟨fun _ _ c _ => length_replicate, nofun, nofun⟩
  have hrows : rowsOf n (fun _ c => replicate (keptOf marks c) (none : Option R)) =
      replicate (n - 1) (malloc (offset (keptOf marks) n)) := by
    rw [rowsOf, flat_replicate, malloc, map_const', length_range]
  refine Loops.foldlM_zipIdx_total
    (I := fun done s => ∃ block, s = rowsOf n block ∧ Stored trainOne n xs marks done block)
    ?_ ⟨_, hrows.symm, hstart⟩
  rintro done pair rest _ hpairs ⟨block, rfl, hstored⟩
  have hmem : ∀ pr, pr ∈ done ∨ pr = pair → pr.1 < pr.2 ∧ pr.2 < n := by
    intro pr hpr
    rw [← mem_pairs, ← hpairs]
    simpa using hpr.imp_right .inl
  obtain ⟨hlt, hn⟩ := hmem pair (.inr rfl)
  have hf : ((pairs n).map (decisionOf trainOne xs))[done.length]? =
      some (decisionOf trainOne xs pair) := by
    simp [← hpairs]
  exact ⟨_, storePair_eq h hmarks hstored hlt hn hf, _, rfl,
    hstored.concat hmarks (fun pr hpr => (hmem pr (.inl hpr)).1) hlt hn⟩

variable [Ring R] [LinearOrder R]

/-- The value of the decision function of a pair: over the examples of its subproblem, the sum of
the coefficients times the kernel, minus `rho`. -/
def decisionValue (kernel : X → X → R) (trainOne : TrainOne X R) (xs : Nat → List X) (z : X)
    (pair : Nat × Nat) : R :=
  (List.zipWith (fun a e => a * kernel z e.1) (decisionOf trainOne xs pair).alpha
    (subOf xs pair.1 pair.2)).sum - (decisionOf trainOne xs pair).rho

omit [LinearOrder R] in
theorem decisionValue_eq (kernel : X → X → R) (z : X) (pair : Nat × Nat) :
    decisionValue kernel trainOne xs z pair =
      dot (firstAlpha trainOne xs pair) ((xs pair.1).map (kernel z)) +
        dot (secondAlpha trainOne xs pair) ((xs pair.2).map (kernel z)) -
          (decisionOf trainOne xs pair).rho := by
  have hsplit : (decisionOf trainOne xs pair).alpha =
      firstAlpha trainOne xs pair ++ secondAlpha trainOne xs pair :=
    (take_append_drop _ _).symm
  have hlength : (firstAlpha trainOne xs pair).length =
      ((xs pair.1).map fun a => (a, (1 : Int))).length := by
    rw [length_firstAlpha, length_map]
  rw [decisionValue, hsplit, subOf, zipWith_append hlength, sum_append, dot, dot,
    zipWith_map_right, zipWith_map_right, zipWith_map_right, zipWith_map_right]

/-- The decision value of a pair from the packed model. -/
theorem predictPair_eq {kernel : X → X → R} {z : X} {model : SvmModel X R}
    {p : Nat} {decided : List R} {vote : List Nat}
    (htrained : Trained trainOne n xs (pairs n) marks)
    (hstored : Stored trainOne n xs marks (pairs n) block)
    (hnSV : model.nSV = (range n).map (keptOf marks)) (hcoef : model.svCoef = rowsOf n block)
    (hpair : pair ∈ pairs n) (hrho : model.rho[p]? = some (decisionOf trainOne xs pair).rho)
    (hvote : vote.length = n) : ∃ vote', vote'.length = n ∧
      predictPair model (flat n fun c => keep (marks c) ((xs c).map (kernel z)))
          ((range n).map (offset (keptOf marks))) (decided, vote) (pair, p) =
        some (decided ++ [decisionValue kernel trainOne xs z pair], vote') := by
  obtain ⟨hlt, hj⟩ := mem_pairs.mp hpair
  have hi := hlt.trans hj
  have hrow : pair.2 - 1 < n - 1 := by omega
  have hrow' : pair.1 < n - 1 := by omega
  have hcount : ∀ c < n, model.nSV[c]? = some (keptOf marks c) := by
    intro c hc
    simp [hnSV, hc]
  have hvalues : ∀ c < n, (keep (marks c) ((xs c).map (kernel z))).length = keptOf marks c := by
    exact fun c hc => length_keep_eq (htrained.length_eq c hc) (length_map _)
  have hfirst := fun sum => addTerms_flat hi (hstored.length_eq _ hrow) hvalues
    (hstored.first pair hpair) sum
  have hsecond := fun sum => addTerms_flat hj (hstored.length_eq _ hrow') hvalues
    (hstored.second pair hpair) sum
  have hdot₁ := dot_keep (htrained.first pair hpair)
    (show _ = ((xs pair.1).map (kernel z)).length by rw [length_firstAlpha, length_map])
  have hdot₂ := dot_keep (htrained.second pair hpair)
    (show _ = ((xs pair.2).map (kernel z)).length by rw [length_secondAlpha, length_map])
  obtain ⟨c, hc, hclass⟩ : ∃ c, (if 0 < decisionValue kernel trainOne xs z pair then pair.1
      else pair.2) = c ∧ c < vote.length := by
    refine ⟨_, rfl, ?_⟩
    rw [hvote]
    split
    · exact hi
    · exact hj
  refine ⟨vote.set c (vote[c] + 1), length_set.trans hvote, ?_⟩
  rw [predictPair]
  rw [startOf_getElem? hi, startOf_getElem? hj, hcount _ hi, hcount _ hj, hcoef, rowsOf_getElem? hrow,
    rowsOf_getElem? hrow', hrho]
  dsimp only [bind_eq_bind, bind_some]
  rw [hfirst, bind_some, hsecond, bind_some, hdot₁, hdot₂, zero_add, ← decisionValue_eq, hc, addVote,
    getElem?_eq_getElem hclass, bind_some, write?_of_lt hclass]
  rfl

theorem foldlM_predictPair {kernel : X → X → R} {z : X} {model : SvmModel X R}
    (htrained : Trained trainOne n xs (pairs n) marks)
    (hstored : Stored trainOne n xs marks (pairs n) block)
    (hnSV : model.nSV = (range n).map (keptOf marks)) (hcoef : model.svCoef = rowsOf n block)
    (hrho : model.rho = (pairs n).map fun pair => (decisionOf trainOne xs pair).rho) :
    ∃ s, (pairs n).zipIdx.foldlM
        (predictPair model (flat n fun c => keep (marks c) ((xs c).map (kernel z)))
          ((range n).map (offset (keptOf marks)))) ([], replicate n 0) = some s ∧
      s.1 = (pairs n).map (decisionValue kernel trainOne xs z) ∧ s.2.length = n := by
  refine Loops.foldlM_zipIdx_total
    (I := fun done (s : List R × List Nat) =>
      s.1 = done.map (decisionValue kernel trainOne xs z) ∧ s.2.length = n)
    ?_ ⟨rfl, length_replicate⟩
  rintro done pair rest ⟨_, vote⟩ hpairs ⟨rfl, hvote⟩
  have hpair : pair ∈ pairs n := by
    rw [← hpairs]
    exact mem_append_right _ mem_cons_self
  have hrho' : model.rho[done.length]? = some (decisionOf trainOne xs pair).rho := by
    simp [hrho, ← hpairs]
  obtain ⟨vote', hvote', hstep⟩ := predictPair_eq htrained hstored hnSV hcoef hpair hrho' hvote
  refine ⟨_, hstep, ?_, hvote'⟩
  rw [map_append]
  rfl

omit [Ring R] [LinearOrder R] in
theorem foldlM_voteMaxIdx {vote : List Nat} {m : Nat} (hm : m < vote.length) :
    ∃ best < vote.length, (range' 1 m).foldlM (fun best i => do
      let v ← vote[i]?
      let b ← vote[best]?
      if b < v then some i else some best) 0 = some best := by
  induction m with
  | zero => exact ⟨0, hm, rfl⟩
  | succ m ih =>
    obtain ⟨best, hbest, hfold⟩ := ih (Nat.lt_of_succ_lt hm)
    have hlast : 1 + 1 * m < vote.length := by omega
    rw [range'_concat, foldlM_append, hfold]
    simp only [foldlM_cons, foldlM_nil, bind_eq_bind, bind_some,
      getElem?_eq_getElem hlast, getElem?_eq_getElem hbest]
    split
    · exact ⟨1 + 1 * m, hlast, rfl⟩
    · exact ⟨best, hbest, rfl⟩

end

variable {X R : Type}

def examplesOf (prob : SvmProblem X) (a : Int) : List X :=
  ((prob.x.zip prob.y).filter fun e => e.2 = a).map Prod.fst

variable (prob : SvmProblem X)

theorem map_indicesOf (a : Int) :
    (indicesOf prob.y a).map (fun k => prob.x[k]?) = (examplesOf prob a).map some := by
  have hlist : ∀ (y : List Int) (before x : List X), x.length = y.length →
      (((y.zipIdx before.length).filter fun e => e.1 = a).map Prod.snd).map
          (fun k => (before ++ x)[k]?) =
        (((x.zip y).filter fun e => e.2 = a).map Prod.fst).map some := by
    intro y
    induction y with
    | nil =>
      intro before x hx
      rw [eq_nil_of_length_eq_zero hx]
      rfl
    | cons b y ih =>
      intro before x hx
      obtain ⟨e, x, rfl⟩ := exists_cons_of_length_eq_add_one hx
      have htail := ih (before ++ [e]) x (Nat.succ.inj hx)
      rw [length_append, length_singleton, append_assoc, singleton_append]
        at htail
      rw [zipIdx_cons, zip_cons_cons, filter_cons, filter_cons]
      split_ifs
      · rw [map_cons, map_cons, map_cons, map_cons, htail]
        simp
      · exact htail
  exact hlist prob.y [] prob.x prob.length_eq

theorem permuted_eq (n : Nat) (label : Nat → Int)
    (hlength : (flat n fun c => examplesOf prob (label c)).length = prob.x.length) :
    permuted prob (flat n fun c => (indicesOf prob.y (label c)).map some) =
      some (flat n fun c => examplesOf prob (label c)) := by
  have hblocks : (flat n fun c => (indicesOf prob.y (label c)).map some).map
      (fun o => o.bind fun k => prob.x[k]?) =
        (flat n fun c => examplesOf prob (label c)).map some := by
    rw [map_flat, map_flat]
    refine flat_congr fun c _ => ?_
    rw [List.map_map, ← map_indicesOf]
    rfl
  rw [permuted, ← hlength]
  refine Loops.mapM_range fun k hk => ?_
  have hget := congrArg (·[k]?) hblocks
  simp only [getElem?_map, getElem?_eq_getElem hk, map_some] at hget
  obtain ⟨o, ho, hbind⟩ := map_eq_some_iff.mp hget
  rw [load, ho]
  exact hbind

variable {n : Nat} {xs : Nat → List X}

theorem mapM_rho {trainOne : TrainOne X R} : (range (n * (n - 1) / 2)).mapM (fun p =>
        ((pairs n).map (decisionOf trainOne xs))[p]?.map DecisionFunction.rho) =
      some ((pairs n).map fun pair => (decisionOf trainOne xs pair).rho) := by
  rw [← length_pairs, ← length_map fun pair => (decisionOf trainOne xs pair).rho]
  refine Loops.mapM_range fun p hp => ?_
  rw [length_map] at hp
  rw [getElem?_map, getElem?_eq_getElem hp, getElem_map]
  rfl

variable {marks : Nat → List Bool}

theorem mapM_countSV {classes : Classes} (h : ClassesOf n xs classes)
    (hmarks : ∀ c < n, (marks c).length = (xs c).length) :
    (range n).mapM (fun i => classes.start[i]?.bind fun s =>
        classes.count[i]?.bind fun c => countSV (flat n marks) s c) =
      some ((range n).map (keptOf marks)) := by
  refine Loops.mapM_range_eq fun c hc => ?_
  rw [h.start_getElem? hc, h.count_getElem? hc, bind_some, bind_some, countSV_flat hc hmarks]
  rfl

theorem collectSV_flat (hmarks : ∀ c < n, (marks c).length = (xs c).length) :
    collectSV (flat n marks) (flat n xs) ((range n).map (keptOf marks)).sum =
      some ((flat n fun c => keep (marks c) (xs c)).map some) := by
  have hlength : (flat n marks).length = (flat n xs).length := by
    rw [length_flat_eq hmarks, length_flat]
  have hkept : ∀ c < n, (keep (marks c) (xs c)).length = keptOf marks c := fun c hc =>
    length_keep (hmarks c hc)
  rw [← keep_flat hmarks]
  refine collectSV_eq hlength ?_
  rw [keep_flat hmarks, length_flat_eq hkept]
  rfl

theorem mapM_load (g : X → R) (SV : List X) :
    (range (SV.map some).length).mapM (fun i => (load (SV.map some) i).map g) =
      some (SV.map g) := by
  rw [length_map, ← length_map g]
  refine Loops.mapM_range fun k hk => ?_
  rw [length_map] at hk
  rw [load, getElem?_map, getElem?_eq_getElem hk, getElem_map]
  rfl

/-- The examples of the classes, in the order of the classes. -/
def classExamples (prob : SvmProblem X) (c : Nat) : List X :=
  examplesOf prob (labelOf prob.y c)

/-- The packed model, by the marks and the blocks of coefficients. -/
def packedModel (trainOne : TrainOne X R) (prob : SvmProblem X) (marks : Nat → List Bool)
    (block : Nat → Nat → List (Option R)) : SvmModel X R :=
  { nrClass := nrClass prob.y
    label := (labels prob.y).label
    rho := (pairs (nrClass prob.y)).map fun pair =>
      (decisionOf trainOne (classExamples prob) pair).rho
    nSV := (List.range (nrClass prob.y)).map (keptOf marks)
    SV := (flat (nrClass prob.y) fun c => keep (marks c) (classExamples prob c)).map some
    svCoef := rowsOf (nrClass prob.y) block }

variable [Ring R] [LinearOrder R] [IsStrictOrderedRing R]

/-- **The model that `svm_train` packs.** -/
theorem svmTrain_spec (trainOne : TrainOne X R) {prob : SvmProblem X} (hy : prob.y ≠ []) :
    ∃ marks block, svmTrain trainOne prob = some (packedModel trainOne prob marks block) ∧
      Trained trainOne (nrClass prob.y) (classExamples prob) (pairs (nrClass prob.y)) marks ∧
      Stored trainOne (nrClass prob.y) (classExamples prob) marks (pairs (nrClass prob.y))
        block := by
  have hcounts : (fun c => prob.y.count (labelOf prob.y c)) =
      fun c => (classExamples prob c).length := by
    funext c
    have hlength := congrArg length (map_indicesOf prob (labelOf prob.y c))
    rwa [length_map, length_map, length_indicesOf] at hlength
  have hlength : (flat (nrClass prob.y) (classExamples prob)).length = prob.x.length := by
    rw [length_flat, ← hcounts, prob.length_eq, ← sum_count prob.y, count_eq]
    rfl
  have hgroup := svmGroupClasses_spec hy
  rw [hcounts] at hgroup
  have hclasses : ClassesOf (nrClass prob.y) (classExamples prob)
      { label := (labels prob.y).label
        start := (range (nrClass prob.y)).map (offset fun c => (classExamples prob c).length)
        count := (range (nrClass prob.y)).map fun c => (classExamples prob c).length
        perm := flat (nrClass prob.y) fun c => (indicesOf prob.y (labelOf prob.y c)).map some } :=
    ⟨rfl, rfl, rfl⟩
  obtain ⟨_, htrain, marks, rfl, htrained⟩ := foldlM_trainPair trainOne hclasses
  obtain ⟨_, hstore, block, rfl, hstored⟩ :=
    foldlM_storePair trainOne hclasses htrained.length_eq
  refine ⟨marks, block, ?_, htrained, hstored⟩
  have hperm : permuted prob
      (flat (nrClass prob.y) fun c => (indicesOf prob.y (labelOf prob.y c)).map some) =
        some (flat (nrClass prob.y) (classExamples prob)) :=
    permuted_eq prob _ _ hlength
  have hstarts := startsOf_map_range (keptOf marks) (nrClass_ne_zero hy)
  have hn : (labels prob.y).label.length = nrClass prob.y := rfl
  have htotal : ((range (nrClass prob.y)).map (keptOf marks)).sum =
      offset (keptOf marks) (nrClass prob.y) := rfl
  rw [svmTrain, hgroup]
  dsimp only [bind_eq_bind, bind_some]
  rw [hn, hperm, bind_some, htrain, bind_some]
  rw [mapM_rho, bind_some, mapM_countSV hclasses htrained.length_eq, bind_some,
    collectSV_flat htrained.length_eq, bind_some, hstarts, bind_some, htotal, hstore]
  rfl

/-- Three classes with one feature. -/
def threeClasses : SvmProblem Int :=
  { x := [3, 1, 2, 5]
    y := [2, 7, 2, 4]
    length_eq := rfl }

/-- The sign of each example as its coefficient, but zero for the feature 2. -/
def signTrainer : TrainOne Int Int := fun i _ sub =>
  ⟨{ alpha := sub.map fun e => if e.1 = 2 then 0 else e.2
     rho := i }, List.length_map _⟩

end HotTLBApps.Libsvm
