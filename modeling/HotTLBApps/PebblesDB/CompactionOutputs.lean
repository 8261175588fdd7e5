import HotTLBApps.PebblesDB.CompactionWork

/-!
# PebblesDB: the outputs of a compaction

What the loop of `DoCompactionWorkGuards` writes.

The results about the writing loop are by induction on the entries from the end;
`add_cases` says what one entry does.
-/

namespace HotTLBApps.PebblesDB

open OrderedSet Intervals List Option OutputState

variable {K V : Type} [LinearOrder K]

section

variable (v : Version K) (level : Level) (env : CompactionEnv K V)

theorem foldl_compactionStep (entries : List (Entry K V)) (st : DropState K × OutputState K V) :
    (entries.foldl (compactionStep v level env) st).2 =
      (keptEntries v level env st.1 entries).foldl (OutputState.add (env.full level)) st.2 := by
  induction entries generalizing st with
  | nil => rfl
  | cons e entries ih =>
    rw [foldl_cons, ih, keptEntries, compactionStep]
    rcases dropEntry v level env st.1 e with ⟨_ | _, dropState⟩ <;> rfl

/-- **The outputs of a compaction are those of the entries that it keeps.** -/
theorem doCompactionWorkGuards_eq (tables : Tables K V) (c : Compaction K) :
    doCompactionWorkGuards v tables c env = splitEntries (env.full c.level) c.completeGuards
        (keptEntries v c.level env DropState.start (c.entries tables)) := by
  rw [doCompactionWorkGuards, foldl_compactionStep, splitEntries]

theorem keptEntries_sublist (st : DropState K) (entries : List (Entry K V)) :
    (keptEntries v level env st entries).Sublist entries := by
  induction entries generalizing st with
  | nil => exact Sublist.refl _
  | cons e entries ih =>
    rw [keptEntries]
    obtain ⟨_ | _, st'⟩ := dropEntry v level env st e
    · exact (ih st').cons_cons e
    · exact (ih st').cons e

variable (full : List (Entry K V) → Bool)

def Output.single (e : Entry K V) : Output K V :=
  { smallest := e.key, largest := e.key, entries := [e] }

def Output.append (out : Output K V) (e : Entry K V) : Output K V :=
  { out with largest := e.key, entries := out.entries ++ [e] }

def OutputState.tables (st : OutputState K V) : List (Output K V) :=
  st.outputs ++ st.builder.toList

def OutputState.run (guards : List K) (entries : List (Entry K V)) : OutputState K V :=
  entries.foldl (OutputState.add full) { guards := guards, builder := none, outputs := [] }

theorem OutputState.run_append (guards : List K) (entries : List (Entry K V)) (e : Entry K V) :
    run full guards (entries ++ [e]) = (run full guards entries).add full e := by
  rw [run, foldl_append]
  rfl

theorem splitEntries_eq (guards : List K) (entries : List (Entry K V)) :
    splitEntries full guards entries = (run full guards entries).tables :=
  rfl

theorem guards_add (st : OutputState K V) (e : Entry K V) :
    (st.add full e).guards = st.guards.dropWhile fun g => decide (g ≤ e.userKey) := by
  have hclose : ∀ st' : OutputState K V, (st'.closeFull full).guards = st'.guards := by
    intro st'
    unfold closeFull
    split
    · rfl
    · split <;> rfl
  rw [add, hclose]
  change (st.passGuards e.userKey).guards = _
  unfold passGuards
  split
  next hnil =>
    rw [hnil]
    rfl
  next g gs hcons =>
    split
    next hle =>
      rfl
    next hlt =>
      rw [hcons, dropWhile_cons_of_neg (by simpa using hlt)]

/-- **What one entry does.**  It is appended to the open table if no guard is passed
and starts a new table otherwise; the table it is written to is closed if it is
full. -/
theorem add_cases (st : OutputState K V) (e : Entry K V) :
    (∃ out, st.builder = some out ∧ (∀ g ∈ st.guards.head?, e.userKey < g) ∧
        (st.add full e).tables = st.outputs ++ [out.append e] ∧
        (st.add full e).builder =
          if full (out.append e).entries then none else some (out.append e)) ∨
      ((st.builder = none ∨ ∃ g ∈ st.guards.head?, g ≤ e.userKey) ∧
        (st.add full e).tables = st.tables ++ [Output.single e] ∧
        (st.add full e).builder = if full [e] then none else some (Output.single e)) := by
  -- The guards are passed or not; the rest of the loop body sees a table or none.
  have hwrite : ∀ st' : OutputState K V, ∀ out,
      (st'.write e).builder = some out → st'.outputs ++ [out] =
          ((st'.write e).closeFull full).tables ∧
        ((st'.write e).closeFull full).builder = if full out.entries then none else some out := by
    intro st' out hout
    have houtputs : (st'.write e).outputs = st'.outputs := rfl
    unfold closeFull
    rw [hout]
    by_cases hfull : full out.entries = true
    · simp [hfull, finish, tables, hout, houtputs]
    · simp [hfull, tables, hout, houtputs]
  by_cases hpass : ∃ g ∈ st.guards.head?, g ≤ e.userKey
  · right
    obtain ⟨g, hg, hle⟩ := hpass
    obtain ⟨gs, hgs⟩ := head?_eq_some_iff.mp hg
    have hst : st.passGuards e.userKey =
        { st.finish with guards := st.guards.dropWhile fun g => decide (g ≤ e.userKey) } := by
      simp [passGuards, hgs, hle]
    obtain ⟨htables, hbuilder⟩ := hwrite (st.passGuards e.userKey) (Output.single e) (by
      rw [hst]
      rfl)
    refine ⟨.inr ⟨g, hg, hle⟩, ?_, hbuilder⟩
    rw [add, ← htables, hst]
    rfl
  · have hst : st.passGuards e.userKey = st := by
      unfold passGuards
      split
      · rfl
      next g gs hcons =>
        exact if_neg fun hle => hpass ⟨g, by simp [hcons], hle⟩
    rcases hbuilder : st.builder with _ | out
    · right
      obtain ⟨htables, hnew⟩ := hwrite st (Output.single e) (by
        simp [write, hbuilder, Output.single])
      refine ⟨.inl rfl, ?_, ?_⟩
      · rw [add, hst, ← htables, tables, hbuilder]
        simp
      · rw [add, hst, hnew]
        rfl
    · left
      obtain ⟨htables, hnew⟩ := hwrite st (out.append e) (by
        simp [write, hbuilder, Output.append])
      refine ⟨out, rfl, ?_, ?_, ?_⟩
      · intro g hg
        exact not_le.mp fun hle => hpass ⟨g, hg, hle⟩
      · rw [add, hst, ← htables]
      · rw [add, hst, hnew]

variable {full}

/-- The bounds of a table are its first and its last key. -/
structure Output.WellFormed (out : Output K V) : Prop where
  smallest : out.entries.head?.map Entry.key = some out.smallest
  largest : out.entries.getLast?.map Entry.key = some out.largest

omit [LinearOrder K] in
theorem Output.wellFormed_single (e : Entry K V) : (Output.single e).WellFormed :=
  ⟨rfl, rfl⟩

variable {out : Output K V}

omit [LinearOrder K] in
theorem Output.WellFormed.append (h : out.WellFormed) (e : Entry K V) :
    (out.append e).WellFormed := by
  obtain ⟨a, ha, hsmallest⟩ := map_eq_some_iff.mp h.smallest
  obtain ⟨l, hl⟩ := head?_eq_some_iff.mp ha
  constructor
  · simp [Output.append, hl, hsmallest]
  · simp [Output.append]

/-- A sorted table fits the keys exactly if its entries lie in one part. -/
theorem Output.WellFormed.fits_iff {keys : List K} (hwf : out.WellFormed)
    (hsorted : Nondecreasing Entry.userKey out.entries) :
    Fits keys out.smallest.userKey out.largest.userKey ↔
      ∀ a ∈ out.entries, ∀ b ∈ out.entries, slot keys a.userKey = slot keys b.userKey := by
  constructor
  · intro hfits
    -- The bounds of the table enclose its entries.
    have hdescribes : FileMetaData.Describes ⟨0, 0, out.smallest, out.largest⟩ out.entries :=
      ⟨hwf.smallest, hwf.largest, hsorted⟩
    have hslot : ∀ e ∈ out.entries, slot keys e.userKey = slot keys out.smallest.userKey := by
      intro e he
      obtain ⟨hlow, hhigh⟩ := hdescribes.bounds he
      exact hfits.slot_eq hlow hhigh
    intro e he e' he'
    rw [hslot e he, hslot e' he']
  · intro halike
    obtain ⟨a, ha, hsmallest⟩ := map_eq_some_iff.mp hwf.smallest
    obtain ⟨b, hb, hlargest⟩ := map_eq_some_iff.mp hwf.largest
    rw [← hsmallest, ← hlargest]
    exact halike a (mem_of_head? ha) b (mem_of_getLast? hb)

/-- Every entry is written to one table, in order, and the open table ends with the
last entry. -/
theorem tables_run (guards : List K) (entries : List (Entry K V)) :
    (run full guards entries).tables.flatMap Output.entries = entries ∧
      (∀ out ∈ (run full guards entries).tables, out.WellFormed) ∧
      ∀ out, (run full guards entries).builder = some out →
        out.entries.getLast? = entries.getLast? := by
  induction entries using reverseRecOn with
  | nil => simp [run, tables]
  | append_singleton entries e ih =>
    obtain ⟨hflat, hwf, -⟩ := ih
    rw [run_append]
    rcases add_cases full (run full guards entries) e with
      ⟨out, hout, -, htables, hbuilder⟩ | ⟨-, htables, hbuilder⟩
    · rw [tables, hout] at hflat hwf
      rw [htables]
      refine ⟨?_, ?_, ?_⟩
      · conv_rhs => rw [← hflat]
        simp [Output.append]
      · rw [forall_mem_append] at hwf ⊢
        exact ⟨hwf.1, by simpa using (hwf.2 out (by simp)).append e⟩
      · rw [hbuilder]
        intro out' hout'
        obtain ⟨-, ⟨⟩⟩ := ite_none_left_eq_some.mp hout'
        simp [Output.append]
    · rw [htables]
      refine ⟨?_, ?_, ?_⟩
      · simp [hflat, Output.single]
      · exact forall_mem_append.mpr ⟨hwf, by simpa using Output.wellFormed_single e⟩
      · rw [hbuilder]
        intro out' hout'
        obtain ⟨-, ⟨⟩⟩ := ite_none_left_eq_some.mp hout'
        simp [Output.single]

/-- **Every entry is written to one table, once and in order.** -/
theorem flatMap_splitEntries (guards : List K) (entries : List (Entry K V)) :
    (splitEntries full guards entries).flatMap Output.entries = entries :=
  (tables_run guards entries).1

variable {guards : List K} {entries : List (Entry K V)}

theorem wellFormed_of_mem_splitEntries (hout : out ∈ splitEntries full guards entries) :
    out.WellFormed :=
  (tables_run guards entries).2.1 out hout

theorem entries_sublist_of_mem_splitEntries (hout : out ∈ splitEntries full guards entries) :
    out.entries.Sublist entries := by
  have hsub := sublist_flatten_of_mem (mem_map_of_mem (f := Output.entries) hout)
  rwa [← flatMap_def, flatMap_splitEntries] at hsub

end

variable {full : List (Entry K V) → Bool}

variable (guards : List K)

/-- Guards up to a key are passed by everything after it. -/
theorem dropWhile_le_dropWhile_le {x y : K} (hxy : x ≤ y) :
    (guards.dropWhile fun g => decide (g ≤ x)).dropWhile (fun g => decide (g ≤ y)) =
      guards.dropWhile fun g => decide (g ≤ y) := by
  induction guards with
  | nil => rfl
  | cons g guards ih =>
    by_cases hg : g ≤ x
    · rw [dropWhile_cons_of_pos (by simpa using hg), ih,
        dropWhile_cons_of_pos (by simpa using hg.trans hxy)]
    · rw [dropWhile_cons_of_neg (by simpa using hg)]

theorem guards_run (entries : List (Entry K V)) (e : Entry K V)
    (hsorted : Nondecreasing Entry.userKey (entries ++ [e])) :
    (run full guards (entries ++ [e])).guards =
      guards.dropWhile fun g => decide (g ≤ e.userKey) := by
  rw [run_append, guards_add]
  induction entries using reverseRecOn generalizing e with
  | nil => rfl
  | append_singleton entries e' ih =>
    obtain ⟨hfront, -, hlast⟩ := pairwise_append.mp hsorted
    have hle : e'.userKey ≤ e.userKey := hlast e' (by simp) e (by simp)
    rw [run_append, guards_add, ih e' hfront, dropWhile_le_dropWhile_le _ hle]

/-- After some entries, another one is appended to the open table. -/
def Joins (full : List (Entry K V) → Bool) (guards : List K) (entries : List (Entry K V))
    (e : Entry K V) : Prop :=
  (run full guards entries).builder ≠ none ∧
    ∀ g ∈ (run full guards entries).guards.head?, e.userKey < g

/-- One more entry: it has to fit to the last one if it joins its table. -/
theorem isChain_tables_run {R : Entry K V → Entry K V → Prop}
    (entries : List (Entry K V)) (e : Entry K V) :
    (∀ out ∈ (run full guards (entries ++ [e])).tables, out.entries.IsChain R) ↔
      (∀ out ∈ (run full guards entries).tables, out.entries.IsChain R) ∧
        (Joins full guards entries e → ∀ a ∈ entries.getLast?, R a e) := by
  obtain ⟨-, -, hlast⟩ := @tables_run K V _ full guards entries
  rw [run_append]
  rcases add_cases full (run full guards entries) e with
    ⟨out, hout, hhead, htables, -⟩ | ⟨hnot, htables, -⟩
  · have hjoins : Joins full guards entries e := ⟨by simp [hout], hhead⟩
    rw [htables, tables, hout, forall_mem_append, forall_mem_append, and_assoc]
    simp [hjoins, Output.append, isChain_append, hlast out hout]
  · have hjoins : ¬ Joins full guards entries e := by
      rintro ⟨hbuilder, hhead⟩
      obtain hnone | ⟨g, hg, hle⟩ := hnot
      · exact hbuilder hnone
      · exact absurd (hhead g hg) (not_lt.mpr hle)
    rw [htables, forall_mem_append]
    simp [hjoins, Output.single]

/-- **The entries of every table are alike exactly if neighbours that are written to
one table are.** -/
theorem alike_iff {γ : Type} (cls : Entry K V → γ) (guards : List K) (entries : List (Entry K V)) :
    (∀ out ∈ (run full guards entries).tables,
        ∀ a ∈ out.entries, ∀ b ∈ out.entries, cls a = cls b) ↔
      ∀ p a b, (p ++ [a, b]) <+: entries → Joins full guards (p ++ [a]) b → cls a = cls b := by
  have hchain : ∀ l : List (Entry K V),
      (∀ a ∈ l, ∀ b ∈ l, cls a = cls b) ↔ l.IsChain (cls · = cls ·) := by
    intro l
    rw [isChain_iff_pairwise]
    exact ⟨pairwise_of_forall_mem_list, Pairwise.forall_of_forall fun _ _ => rfl⟩
  simp only [hchain]
  induction entries using reverseRecOn with
  | nil => simp [run, tables]
  | append_singleton entries e ih =>
    refine (isChain_tables_run guards entries e).trans ((and_congr_left' ih).trans ⟨?_, ?_⟩)
    · rintro ⟨hold, hnew⟩ p a b hpre hjoins
      obtain heq | hpre := prefix_concat_iff.mp hpre
      · obtain ⟨rfl, hb⟩ := append_inj' ((append_assoc p [a] [b]).trans heq) rfl
        obtain rfl := singleton_injective hb
        exact hnew hjoins a (by simp)
      · exact hold p a b hpre hjoins
    · intro h
      refine ⟨fun p a b hpre => h p a b (hpre.trans (prefix_append _ _)), ?_⟩
      intro hjoins a ha
      obtain ⟨p, rfl⟩ := getLast?_eq_some_iff.mp ha
      exact h p a e (by simp) hjoins

/-- **Sorted entries that are written to one table lie between the same guards.** -/
theorem slot_eq_of_mem_output {guards : List K} (hguards : guards.Pairwise (· < ·))
    {entries : List (Entry K V)} (hsorted : Nondecreasing Entry.userKey entries) {out : Output K V}
    (hout : out ∈ splitEntries full guards entries) {a b : Entry K V} (ha : a ∈ out.entries)
    (hb : b ∈ out.entries) : slot guards a.userKey = slot guards b.userKey := by
  refine (alike_iff (fun e => slot guards e.userKey) guards entries).mpr ?_ out hout a ha b hb
  rintro p a b hpre ⟨-, hhead⟩
  have hpair : Nondecreasing Entry.userKey ((p ++ [a]) ++ [b]) := by
    rw [append_assoc]
    exact hsorted.sublist hpre.sublist
  obtain ⟨hfront, -, hlast⟩ := pairwise_append.mp hpair
  rw [guards_run guards p a hfront] at hhead
  apply slot_eq_of_dropWhile (hlast a (by simp) b (by simp))
  exact forall_lt_of_head? (hguards.sublist (dropWhile_sublist _)) hhead

end HotTLBApps.PebblesDB
