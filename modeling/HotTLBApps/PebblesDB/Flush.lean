import HotTLBApps.PebblesDB.CompactionInstall

/-!
# PebblesDB: the tables of a memtable (`db/builder.cc`, `WriteLevel0TableGuards`)

`BuildLevel0Tables` writes the entries of a memtable to one table for each interval
between the guards of the first level.

* `buildFiles`: what becomes of the files, and the status, when calls fail;
* `numbering`: the numbers that new tables get.
-/

namespace HotTLBApps.PebblesDB

open OrderedSet Intervals List Function Option

variable {K V : Type}

/-- A memtable, as its iterator goes through it. -/
structure MemTable (K V : Type) [LinearOrder K] where
  entries : List (Entry K V)
  sorted : Increasing Entry.key entries

theorem MemTable.nondecreasing [LinearOrder K]
    (mem : MemTable K V) : Nondecreasing Entry.userKey mem.entries :=
  mem.sorted.imp fun hlt => InternalKey.userKey_le_of_le hlt.le

section Build

/-- A table with the given entries; without entries no table is made. -/
def tableOf (entries : List (Entry K V)) : List (Output K V) :=
  match entries.head?, entries.getLast? with
  | some first, some last =>
      [{ smallest := first.key, largest := last.key, entries := entries }]
  | _, _ => []

variable [LinearOrder K]

/-- `BuildLevel0Tables`: for each guard a table with the entries before it, and one with
those that are left after the last guard. -/
def buildLevel0Tables : List K → List (Entry K V) → List (Output K V)
  | [], entries => tableOf entries
  | guardKey :: guards, entries =>
      tableOf (entries.takeWhile fun e => decide (e.userKey < guardKey)) ++
        buildLevel0Tables guards (entries.dropWhile fun e => decide (e.userKey < guardKey))

variable {entries : List (Entry K V)} {out : Output K V}

omit [LinearOrder K] in
theorem mem_tableOf (hout : out ∈ tableOf entries) : out.entries = entries ∧ out.WellFormed := by
  unfold tableOf at hout
  split at hout
  · next first last hfirst hlast =>
      obtain rfl := mem_singleton.mp hout
      exact ⟨rfl, by simp [hfirst], by simp [hlast]⟩
  · cases hout

omit [LinearOrder K] in
theorem flatMap_tableOf
    (entries : List (Entry K V)) : (tableOf entries).flatMap Output.entries = entries := by
  obtain _ | ⟨e, entries⟩ := entries
  · rfl
  · unfold tableOf
    rw [head?_cons, getLast?_cons]
    simp

/-- **Every entry is written to one table, once and in order.** -/
theorem flatMap_buildLevel0Tables (guards : List K) (entries : List (Entry K V)) :
    (buildLevel0Tables guards entries).flatMap Output.entries = entries := by
  induction guards generalizing entries with
  | nil => exact flatMap_tableOf entries
  | cons guardKey guards ih =>
    rw [buildLevel0Tables, flatMap_append, flatMap_tableOf, ih, takeWhile_append_dropWhile]

variable {guards : List K}

theorem wellFormed_buildLevel0Tables
    (hout : out ∈ buildLevel0Tables guards entries) : out.WellFormed := by
  induction guards generalizing entries with
  | nil => exact (mem_tableOf hout).2
  | cons guardKey guards ih =>
    obtain hout | hout := mem_append.mp hout
    · exact (mem_tableOf hout).2
    · exact ih hout

theorem sublist_buildLevel0Tables
    (hout : out ∈ buildLevel0Tables guards entries) : out.entries.Sublist entries := by
  have hsub := sublist_flatten_of_mem (mem_map_of_mem (f := Output.entries) hout)
  rwa [← flatMap_def, flatMap_buildLevel0Tables] at hsub

theorem length_buildLevel0Tables_le (guards : List K) (entries : List (Entry K V)) :
    (buildLevel0Tables guards entries).length ≤ guards.length + 1 := by
  have hone : ∀ entries : List (Entry K V), (tableOf entries).length ≤ 1 := by
    intro entries
    unfold tableOf
    split
    · exact Nat.le_refl 1
    · exact Nat.zero_le 1
  induction guards generalizing entries with
  | nil => exact hone entries
  | cons guardKey guards ih =>
    rw [buildLevel0Tables, length_append, length_cons]
    have hfirst := hone (entries.takeWhile fun e => decide (e.userKey < guardKey))
    have hrest := ih (entries.dropWhile fun e => decide (e.userKey < guardKey))
    omega

/-- The entries of a table lie between the same guards. -/
theorem slot_buildLevel0Tables (hguards : guards.Pairwise (· < ·))
    (hsorted : Nondecreasing Entry.userKey entries) (hout : out ∈ buildLevel0Tables guards entries)
    {a b : Entry K V} (ha : a ∈ out.entries) (hb : b ∈ out.entries) :
    slot guards a.userKey = slot guards b.userKey := by
  induction guards generalizing entries with
  | nil => rfl
  | cons guardKey guards ih =>
    obtain ⟨hhead, htail⟩ := pairwise_cons.mp hguards
    obtain hout | hout := mem_append.mp hout
    · -- the entries before the guard are before all of them
      have hbefore : ∀ e ∈ out.entries, slot (guardKey :: guards) e.userKey = 0 := by
        intro e he
        rw [(mem_tableOf hout).1] at he
        have hlt : e.userKey < guardKey := by simpa using all_eq_true.mp all_takeWhile e he
        apply slot_eq_zero
        intro k hk
        obtain rfl | hk := mem_cons.mp hk
        · exact hlt
        · exact hlt.trans (hhead k hk)
      rw [hbefore a ha, hbefore b hb]
    · have hafter : ∀ e ∈ out.entries, guardKey ≤ e.userKey := by
        intro e he
        obtain ⟨d, _, hstop, hde⟩ := exists_stop_of_mem_dropWhile hsorted
          ((sublist_buildLevel0Tables hout).mem he)
        have hd : guardKey ≤ d.userKey := by simpa using hstop
        obtain rfl | hle := hde
        · exact hd
        · exact hd.trans hle
      rw [slot_cons, slot_cons, if_pos (hafter a ha), if_pos (hafter b hb),
        ih htail (hsorted.sublist (dropWhile_sublist _)) hout]

/-- **The tables of a memtable lie between the guards that were read.** -/
theorem fits_buildLevel0Tables (hguards : guards.Pairwise (· < ·)) (mem : MemTable K V)
    (hout : out ∈ buildLevel0Tables guards mem.entries) :
    Fits guards out.smallest.userKey out.largest.userKey := by
  refine ((wellFormed_buildLevel0Tables hout).fits_iff
    (mem.nondecreasing.sublist (sublist_buildLevel0Tables hout))).mpr ?_
  intro a ha b hb
  exact slot_buildLevel0Tables hguards mem.nondecreasing hout ha hb

end Build

variable {E : Type}

/-- What the calls for one file return; `none` is OK. -/
structure FileAnswers (E : Type) where
  newWritableFile : Option E
  finish : Option E
  sync : Option E
  close : Option E
  verify : Option E

/-- A call fails; the calls that follow it for the file are not made. -/
def FileAnswers.Failed (a : FileAnswers E) : Prop :=
  a.newWritableFile ≠ none ∨ a.finish ≠ none ∨ a.sync ≠ none ∨ a.close ≠ none ∨ a.verify ≠ none

/-- An entry of `meta_list`, with what has become of its file. -/
structure ListedFile (K V : Type) where
  table : Output K V
  synced : Bool
  deleted : Bool

/-- `FinishFileCompletion`: whether the file is synced and whether it is deleted.  The status
is passed by value, so the caller does not learn what it becomes. -/
def finishFileCompletion (s : Option E) (a : FileAnswers E) : Bool × Bool :=
  ((s <|> a.sync).isNone, (s <|> a.sync <|> a.close <|> a.verify).isSome)

/-- How `BuildLevel0Tables` writes its files: the status and `meta_list`. -/
def buildFiles : Option E → List (Output K V × FileAnswers E) → Option E × List (ListedFile K V)
  | s, [] => (s, [])
  | _, (table, a) :: files =>
      match a.newWritableFile with
      | some e => (some e, [])
      | none =>
          match a.finish with
          | some e => buildFiles (some e) files
          | none =>
              let (synced, deleted) := finishFileCompletion none a
              let (s, metaList) := buildFiles none files
              (s, ⟨table, synced, deleted⟩ :: metaList)

/-- The tables of a memtable, each with the answers for its file. -/
def level0Files [LinearOrder K] (guards : List K) (mem : MemTable K V)
    (answers : Nat → FileAnswers E) : List (Output K V × FileAnswers E) :=
  (buildLevel0Tables guards mem.entries).zipIdx.map fun p => (p.1, answers p.2)

/-- The status is that of a file that is not created or, if there is none, that of `Finish`
for the last file. -/
theorem status_buildFiles (s : Option E) (files : List (Output K V × FileAnswers E)) :
    (buildFiles s files).1 = none ↔ (∀ f ∈ files, f.2.newWritableFile = none) ∧
        files.getLast?.elim s (fun f => f.2.finish) = none := by
  induction files generalizing s with
  | nil => simp [buildFiles]
  | cons f files ih =>
    have hlast : (f :: files).getLast?.elim s (fun f => f.2.finish) =
        files.getLast?.elim f.2.finish fun f => f.2.finish := by
      rw [getLast?_cons]
      cases files.getLast? <;> rfl
    rw [hlast]
    cases hnew : f.2.newWritableFile with
    | some e => simp [buildFiles, hnew]
    | none => cases hfinish : f.2.finish <;> simp [buildFiles, hnew, hfinish, ih]

/-- A listed file is one for which `Finish` has succeeded. -/
theorem exists_of_mem_metaList {s : Option E} {files : List (Output K V × FileAnswers E)}
    {g : ListedFile K V} (hg : g ∈ (buildFiles s files).2) :
    ∃ f ∈ files, (g.synced, g.deleted) = finishFileCompletion none f.2 := by
  induction files generalizing s with
  | nil => cases hg
  | cons f files ih =>
    rw [exists_mem_cons_iff]
    unfold buildFiles at hg
    split at hg
    · cases hg
    · split at hg
      · exact .inr (ih hg)
      · obtain rfl | hg := mem_cons.mp hg
        · exact .inl rfl
        · exact .inr (ih hg)

/-- **A failure is reported** exactly if a file cannot be created, or `Finish` fails for the
last file, or nothing fails. -/
theorem buildFiles_reports_iff
    [LinearOrder K]
    (guards : List K)
    (mem : MemTable K V)
    (answers : Nat → FileAnswers E) : (((∃ f ∈ level0Files guards mem answers, f.2.Failed) →
        (buildFiles none (level0Files guards mem answers)).1 ≠ none) ∧
      ((buildFiles none (level0Files guards mem answers)).1 = none →
        ∀ g ∈ (buildFiles none (level0Files guards mem answers)).2,
          g.deleted = false ∧ g.synced = true)) ↔
      (∃ f ∈ level0Files guards mem answers, f.2.newWritableFile ≠ none) ∨
      (∃ f ∈ (level0Files guards mem answers).getLast?, f.2.finish ≠ none) ∨
      ∀ f ∈ level0Files guards mem answers, ¬ f.2.Failed := by
  generalize level0Files guards mem answers = files
  have hstatus := status_buildFiles none files
  constructor
  · intro h
    by_contra hnot
    push Not at hnot
    obtain ⟨hnew, hfinish, hfailed⟩ := hnot
    refine h.1 hfailed (hstatus.mpr ⟨hnew, ?_⟩)
    cases hlast : files.getLast? with
    | none => rfl
    | some f => exact hfinish f hlast
  · intro h
    by_cases hok : (buildFiles none files).1 = none
    · obtain ⟨hnew, hlast⟩ := hstatus.mp hok
      have hgood : ∀ f ∈ files, ¬ f.2.Failed := by
        obtain ⟨f, hf, hne⟩ | ⟨f, hf, hne⟩ | hgood := h
        · exact absurd (hnew f hf) hne
        · rw [hf] at hlast
          exact absurd hlast hne
        · exact hgood
      refine ⟨fun ⟨f, hf, hbad⟩ => absurd hbad (hgood f hf), fun _ g hg => ?_⟩
      obtain ⟨f, hf, heq⟩ := exists_of_mem_metaList hg
      have hf := hgood f hf
      simp only [FileAnswers.Failed, not_or, not_not] at hf
      simp_all [finishFileCompletion]
    · exact ⟨fun _ => hok, fun h => absurd h hok⟩

/-- A memtable of one entry. -/
def oneEntry : MemTable Nat Nat where
  entries := [⟨⟨0, 1, .kTypeValue⟩, 0⟩]
  sorted := List.pairwise_singleton _ _

/-- `Sync` fails for every file. -/
def syncFails (_ : Nat) : FileAnswers Unit :=
  ⟨none, none, some (), none, none⟩

/-- The only file is deleted and listed, and the status is OK. -/
theorem sync_failure_is_lost : (∃ f ∈ level0Files [] oneEntry syncFails, f.2.Failed) ∧
    (buildFiles none (level0Files [] oneEntry syncFails)).1 = none ∧
    ∃ g ∈ (buildFiles none (level0Files [] oneEntry syncFails)).2,
      g.deleted = true ∧ g.synced = false :=
  ⟨⟨_, mem_cons_self, by simp [FileAnswers.Failed, syncFails]⟩, rfl, _, mem_cons_self, rfl, rfl⟩

/-- The numbers of new tables: those that were reserved and, after them, the next ones. -/
def numbering (numbers : List Nat) (next : Nat) (i : Nat) : Nat :=
  numbers.getD i (next + i)

variable {numbers : List Nat} {next : Nat}

theorem numbering_of_lt {i : Nat}
    (hi : i < numbers.length) : numbering numbers next i ∈ numbers := by
  rw [numbering, getD_eq_getElem _ _ hi]
  exact getElem_mem hi

theorem numbering_of_le {i : Nat} (hi : numbers.length ≤ i) : numbering numbers next i = next + i :=
  getD_eq_default _ _ hi

theorem numbering_injective (hnodup : numbers.Nodup)
    (hlt : ∀ n ∈ numbers, n < next) : Injective (numbering numbers next) := by
  intro i j h
  obtain hi | hi := lt_or_ge i numbers.length <;> obtain hj | hj := lt_or_ge j numbers.length
  · rw [numbering, numbering, getD_eq_getElem _ _ hi, getD_eq_getElem _ _ hj] at h
    exact (Nodup.getElem_inj_iff hnodup).mp h
  · have hlow : numbering numbers next i < next := hlt _ (numbering_of_lt hi)
    rw [h, numbering_of_le hj] at hlow
    omega
  · have hlow : numbering numbers next j < next := hlt _ (numbering_of_lt hj)
    rw [← h, numbering_of_le hi] at hlow
    omega
  · rw [numbering_of_le hi, numbering_of_le hj] at h
    omega

theorem ne_numbering {n : Nat} (hn : n < next) (hfree : n ∉ numbers)
    (i : Nat) : n ≠ numbering numbers next i := by
  rintro rfl
  obtain hi | hi := lt_or_ge i numbers.length
  · exact hfree (numbering_of_lt hi)
  · rw [numbering_of_le hi] at hn
    omega

theorem map_numbering_range {n : Nat} (hn : n ≤ numbers.length) :
    (range n).map (numbering numbers next) = numbers.take n := by
  apply ext_getElem
  · simp [hn]
  · intro i hi _
    have hi' : i < numbers.length := by
      simp at hi
      omega
    simp [numbering, getElem?_eq_getElem hi']

variable {env : CompactionEnv K V} {outputs : List (Output K V)}

theorem describes_written [LinearOrder K] (hinjective : Injective env.number)
    (tables : Tables K V) {p : Output K V × Nat} (hp : p ∈ outputs.zipIdx) (hwf : p.1.WellFormed)
    (hsorted : Nondecreasing Entry.userKey p.1.entries) :
    (env.outputFile p).Describes (env.writeTables tables outputs (env.outputFile p).number) := by
  have hentries : env.writeTables tables outputs (env.outputFile p).number = p.1.entries :=
    writeTables_output hinjective tables hp
  rw [hentries]
  exact ⟨hwf.smallest, hwf.largest, hsorted⟩

end HotTLBApps.PebblesDB
