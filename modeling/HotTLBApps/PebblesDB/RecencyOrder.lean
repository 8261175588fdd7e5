import HotTLBApps.PebblesDB.CompactionRecency
import HotTLBApps.PebblesDB.ConcurrentFitting

/-!
# PebblesDB: the order of versions that lookups rely on

A database that flushes memtables and runs automatic compactions, one at a time, as a machine
(`SerialState.step`).  A lookup stops at the first level and the file with the largest number
that has its user key, so it relies on `RecencyOrder`: such files have the newest entries.
-/

namespace HotTLBApps.PebblesDB

open OrderedSet Intervals List Option

variable {K V : Type} [LinearOrder K]

/-- The order of versions: of two files with a user key, the one in the earlier level, or in
the same container with the larger number, has the newer entries. -/
structure RecencyOrder (tables : Tables K V) (v : Version K) : Prop where
  container : ∀ l, ∀ r ∈ (v l).containers, ∀ f ∈ r, ∀ f' ∈ r,
    f'.number < f.number → Newer tables f f'
  level : ∀ l l', l < l' → ∀ f ∈ (v l).files, ∀ f' ∈ (v l').files, Newer tables f f'

variable {tables : Tables K V} {v : Version K}

def Version.allFiles (v : Version K) : List (FileMetaData K) :=
  (List.finRange kNumLevels).flatMap fun l => (v l).files

theorem searched_subset {v : LevelVersion K} (hv : v.WellFormed)
    (userKey : K) : v.searched userKey ⊆ v.files := by
  intro f hf
  unfold LevelVersion.searched at hf
  split_ifs at hf
  · cases hf
  · rw [mem_insertionSort] at hf
    exact candidates_subset hv userKey (mem_of_mem_filter hf)

/-- The files of a level are searched from the largest number on. -/
theorem pairwise_searched {v : LevelVersion K} (hv : v.WellFormed)
    (userKey : K) : (v.searched userKey).Pairwise fun f f' => f'.number < f.number := by
  unfold LevelVersion.searched
  split_ifs
  · exact Pairwise.nil
  · have hcontainer := candidates_eq_container hv.sorted.guards_increasing userKey
    have hsublist : (v.candidates userKey).Sublist v.files := by
      rw [← hv.flatten_containers]
      exact sublist_flatten_of_mem (mem_of_getElem? hcontainer)
    -- the numbers are different, so that sorting orders them strictly
    have hperm := perm_insertionSort (fun f f' : FileMetaData K => f'.number ≤ f.number)
      ((v.candidates userKey).filter fun f =>
        decide (f.smallest.userKey ≤ userKey) && decide (userKey ≤ f.largest.userKey))
    have hnodup := ((hperm.map (·.number)).nodup_iff).mpr
      (hv.sorted.numbers_nodup.sublist ((filter_sublist.trans hsublist).map _))
    have hsorted := pairwise_insertionSort (fun f f' : FileMetaData K => f'.number ≤ f.number)
      ((v.candidates userKey).filter fun f => decide (f.smallest.userKey ≤ userKey) && decide (userKey ≤ f.largest.userKey))
    refine hsorted.imp₂ ?_ (pairwise_map.mp hnodup)
    intro f f' hle hne
    exact lt_of_le_of_ne hle (Ne.symm hne)

/-- **A lookup returns the newest visible entry**, when versions are in order and no guard is
skipped. -/
theorem get_spec (filters : FileFilters tables) (hv : ∀ l, (v l).WellFormed)
    (hfits : ∀ l, (v l).FilesFit) (hskip : ∀ l, (v l).NoGuardSkipped)
    (htables : ∀ l, TablesOf tables (v l))
    (hsorted : ∀ l, ∀ f ∈ (v l).files, SortedTable (tables f.number))
    (hrecent : LevelRecency tables v) (userKey : K) (sequence : Nat) :
    (∃ e, NewestIn tables v.allFiles userKey sequence e ∧
        v.get filters userKey sequence = saveValue userKey e) ∨
      (∀ f ∈ v.allFiles, ∀ e ∈ tables f.number, ¬ e.VisibleAt userKey sequence) ∧
        v.get filters userKey sequence = .notFound := by
  have hsearched : ∀ f ∈ (finRange kNumLevels).flatMap fun l => (v l).searched userKey,
      ∃ l, f ∈ (v l).files := by
    intro f hf
    obtain ⟨l, -, hf⟩ := mem_flatMap.mp hf
    exact ⟨l, searched_subset (hv l) userKey hf⟩
  have hall : ∀ f ∈ v.allFiles, ∀ e ∈ tables f.number, e.VisibleAt userKey sequence →
      f ∈ (finRange kNumLevels).flatMap fun l => (v l).searched userKey := by
    intro f hf e he hvisible
    obtain ⟨l, hl, hf⟩ := mem_flatMap.mp hf
    have hspans : f.Spans userKey := hvisible.1 ▸ (htables l f hf).2.bounds he
    refine mem_flatMap.mpr ⟨l, hl, ?_⟩
    unfold LevelVersion.searched
    rw [if_neg (ne_nil_of_mem hf), mem_insertionSort]
    refine mem_filter.mpr ⟨mem_candidates (hv l) (hfits l) (hskip l) hf hspans, ?_⟩
    simpa using And.intro hspans.1 hspans.2
  have hnewer : ((finRange kNumLevels).flatMap fun l => (v l).searched userKey).Pairwise
      (Newer tables) := by
    rw [flatMap_def]
    refine pairwise_flatten.mpr ⟨?_, pairwise_map.mpr ?_⟩
    · intro files hfiles
      obtain ⟨l, -, rfl⟩ := mem_map.mp hfiles
      refine (pairwise_searched (hv l) userKey).imp_of_mem ?_
      intro f f' hf hf' hnumber
      exact hrecent.within l f (searched_subset (hv l) userKey hf) f'
        (searched_subset (hv l) userKey hf') hnumber
    · refine (pairwise_lt_finRange kNumLevels).imp ?_
      intro l l' hll' f hf f' hf'
      exact hrecent.across l l' hll' f (searched_subset (hv l) userKey hf) f'
        (searched_subset (hv l') userKey hf')
  obtain ⟨e, hbest, hget⟩ | ⟨hnone, hget⟩ := searchFiles_spec filters
    (fun f hf => (hsearched f hf).elim fun l hl => hsorted l f hl) hnewer userKey sequence
  · obtain ⟨⟨f, hf, he⟩, hvisible, hnewest⟩ := hbest
    obtain ⟨l, hl⟩ := hsearched f hf
    refine .inl ⟨e, ⟨⟨f, mem_flatMap.mpr ⟨l, mem_finRange l, hl⟩, he⟩, hvisible, ?_⟩, hget⟩
    intro f' hf' e' he' hvisible'
    exact hnewest f' (hall f' hf' e' he' hvisible') e' he' hvisible'
  · refine .inr ⟨?_, hget⟩
    intro f hf e he hvisible
    exact hnone f (hall f hf e he hvisible) e he hvisible

/-- A database whose background work is done one job at a time. -/
structure SerialState (K V : Type) where
  db : DB K V
  nextFileNumber : Nat
  firstFlush : Bool

/-- The jobs; `pushed` are the complete guards that are pushed while they run. -/
inductive SerialAction (K V : Type) [LinearOrder K]
  | addToCompleteGuards (pushed : Level → List (InternalKey K))
  | flush (mem : MemTable K V) (env : CompactionEnv K V) (pushed : Level → List (InternalKey K))
  | compact (scores : Level → LevelScores) (level : Level) (forceCompact : Bool)
      (env : CompactionEnv K V) (pushed : Level → List (InternalKey K))

variable (s : SerialState K V)

def SerialState.flushOutputs (mem : MemTable K V) : List (Output K V) :=
  buildLevel0Tables (guardUserKeys (s.db.version 0).guards) mem.entries

/-- New files get the next numbers. -/
def SerialState.numbered (env : CompactionEnv K V) : CompactionEnv K V :=
  env.withNumbers [] s.nextFileNumber

def SerialState.flush (mem : MemTable K V) (env : CompactionEnv K V)
    (pushed : Level → List (InternalKey K)) : SerialState K V :=
  { db :=
      { version := (s.db.version.pushGuards pushed).apply
          (flushEdit s.firstFlush (s.db.version.pushGuards pushed)
            (flushFiles (s.numbered env) (s.flushOutputs mem)))
        tables := (s.numbered env).writeTables s.db.tables (s.flushOutputs mem) }
    nextFileNumber := s.nextFileNumber + ((s.db.version 0).guards.length + 1)
    firstFlush := false }

def SerialState.compact (c : Compaction K) (env : CompactionEnv K V)
    (pushed : Level → List (InternalKey K)) : SerialState K V :=
  { s with
    db := s.db.compact c false (s.numbered env) pushed
    nextFileNumber := s.nextFileNumber +
      (doCompactionWorkGuards s.db.version s.db.tables c (s.numbered env)).length }

/-- One job; `none` when there is nothing to do, or when the input iterator of a compaction writes
past its buffer.  Writers put values and deletions into memtables. -/
def SerialState.step : SerialAction K V → Option (SerialState K V)
  | .addToCompleteGuards pushed =>
      some { s with db := { s.db with version := s.db.version.pushGuards pushed } }
  | .flush mem env pushed =>
      if ∀ e ∈ mem.entries, e.key.type ≠ .kTypeGuard then some (s.flush mem env pushed) else none
  | .compact scores level forceCompact env pushed =>
      (pickCompactionForGuards s.db.version scores level forceCompact).bind fun c =>
        if c.fitsBuffer then some (s.compact c env pushed) else none

/-- The memtables that are flushed have newer entries of a user key than the files have, and the
compactions that are run keep the order of versions. -/
def SerialState.KeepsOrder : SerialAction K V → Prop
  | .flush mem _ _ =>
      ∀ e ∈ mem.entries, ∀ l, ∀ f ∈ (s.db.version l).files, ∀ e' ∈ s.db.tables f.number,
        e.userKey = e'.userKey → e'.key.sequence < e.key.sequence
  | .compact scores level forceCompact env _ =>
      ∀ c ∈ pickCompactionForGuards s.db.version scores level forceCompact,
        c.KeepsOrder s.db (s.numbered env)
  | .addToCompleteGuards _ => True

def SerialState.opened : SerialState K V where
  db := { version := fun _ => LevelVersion.empty, tables := fun _ => [] }
  nextFileNumber := 2
  firstFlush := true

variable {s s' : SerialState K V}

/-- **The invariant of a run.** -/
structure SerialState.Inv (s : SerialState K V) : Prop where
  version : SoundVersion s.db.tables s.nextFileNumber [] s.db.version
  next_pos : 0 < s.nextFileNumber
  sorted : ∀ l, ∀ f ∈ (s.db.version l).files, SortedTable (s.db.tables f.number)
  recent : LevelRecency s.db.tables s.db.version

theorem SerialState.Inv.wellFormed (h : s.Inv) : s.db.WellFormed :=
  ⟨h.version.levels, h.version.tables⟩

omit [LinearOrder K] in
theorem SerialState.number_numbered (s : SerialState K V) (env : CompactionEnv K V)
    (i : Nat) : (s.numbered env).number i = s.nextFileNumber + i := by
  change numbering [] s.nextFileNumber i = _
  exact numbering_of_le (Nat.zero_le i)

theorem SerialState.Inv.number_lt (h : s.Inv) (env : CompactionEnv K V) (i : Nat) (l : Level)
    (f : FileMetaData K)
    (hf : f ∈ (s.db.version l).files) : f.number < (s.numbered env).number i := by
  have := (h.version.numbers l f hf).1
  rw [s.number_numbered]
  omega

theorem SerialState.Inv.fresh (h : s.Inv)
    (env : CompactionEnv K V) : (s.numbered env).Fresh s.db.version where
  injective := by
    intro i j hij
    rw [s.number_numbered, s.number_numbered] at hij
    omega
  positive := by
    intro i
    have := h.next_pos
    rw [s.number_numbered]
    omega
  unused := fun i l f hf => (h.number_lt env i l f hf).ne

theorem SerialState.inv_opened : (SerialState.opened : SerialState K V).Inv := by
  have hnone : ∀ (l : Level) (f : FileMetaData K),
      f ∉ ((SerialState.opened : SerialState K V).db.version l).files := by
    nofun
  refine ⟨⟨fun _ => wellFormed_empty, ?_, ?_, ?_⟩, Nat.zero_lt_two, ?_, ⟨?_, ?_⟩⟩
  case refine_6 => exact fun l l' _ f hf => absurd hf (hnone l f)
  all_goals exact fun l f hf => absurd hf (hnone l f)

theorem SerialState.Inv.addToCompleteGuards (h : s.Inv) (pushed : Level → List (InternalKey K)) :
    SerialState.Inv { s with db := { s.db with version := s.db.version.pushGuards pushed } } :=
  ⟨h.version.pushGuards pushed, h.next_pos, h.sorted, ⟨h.recent.within, h.recent.across⟩⟩

/-- **A compaction keeps the invariant.** -/
theorem SerialState.Inv.compact (h : s.Inv) {scores : Level → LevelScores} {level : Level}
    {forceCompact : Bool} {c : Compaction K}
    (hpick : pickCompactionForGuards s.db.version scores level forceCompact = some c)
    (env : CompactionEnv K V) (pushed : Level → List (InternalKey K))
    (hkeeps : c.KeepsOrder s.db (s.numbered env)) : (s.compact c env pushed).Inv := by
  have hdb := h.wellFormed
  have hfits := h.version.fits
  have hfresh := h.fresh env
  have hc := from_pickCompactionForGuards hdb.levels hpick
  have hwf : (s.db.compact c false (s.numbered env) pushed).WellFormed :=
    wellFormed_compact hc hdb hfits hfresh
  refine ⟨⟨hwf.levels, filesFit_compact hdb hfits hpick hfresh, hwf.tables, ?_⟩, ?_, ?_, ?_⟩
  · intro l f hf
    refine ⟨?_, not_mem_nil⟩
    obtain ⟨hold, -⟩ | ⟨-, p, hp, rfl, -⟩ := compact_cases hc hdb hfresh hf
    · exact Nat.lt_add_right _ (h.version.numbers l f hold).1
    · rw [show ((s.numbered env).outputFile p).number = _ from s.number_numbered env p.2]
      exact Nat.add_lt_add_left (snd_lt_of_mem_zipIdx hp) _
  · exact Nat.add_pos_left h.next_pos _
  · intro l f hf
    change SortedTable ((s.db.compact c false (s.numbered env) pushed).tables f.number)
    obtain ⟨hold, -, htable⟩ | ⟨-, p, hp, -, htable⟩ := compact_cases hc hdb hfresh hf
    · rw [htable]
      exact h.sorted l f hold
    · rw [htable]
      have hout := fst_mem_of_mem_zipIdx hp
      rw [doCompactionWorkGuards_eq] at hout
      refine (hc.sortedTable_entries hdb.levels hfits hkeeps.noGuardSkipped hdb.tables
        h.sorted).sublist ?_
      exact (entries_sublist_of_mem_splitEntries hout).trans (keptEntries_sublist _ _ _ _ _)
  · exact levelRecency_compact hdb hfits hpick hfresh (h.number_lt env) hkeeps h.recent

/-- The tables of a memtable share no user key. -/
theorem pairwise_buildLevel0Tables {guards : List K} {entries : List (Entry K V)}
    (hsorted : Nondecreasing Entry.userKey entries) :
    (buildLevel0Tables guards entries).Pairwise fun out out' =>
      ∀ a ∈ out.entries, ∀ b ∈ out'.entries, a.userKey < b.userKey := by
  have hone : ∀ entries : List (Entry K V), (tableOf entries).Pairwise fun out out' =>
      ∀ a ∈ out.entries, ∀ b ∈ out'.entries, a.userKey < b.userKey := by
    intro entries
    unfold tableOf
    split
    · exact pairwise_singleton _ _
    · exact Pairwise.nil
  induction guards generalizing entries with
  | nil => exact hone entries
  | cons guardKey guards ih =>
    refine pairwise_append.mpr
      ⟨hone _, ih (hsorted.sublist (dropWhile_sublist _)), ?_⟩
    -- the first table ends before the guard, and the others start at it
    intro out hout out' hout' a ha b hb
    rw [(mem_tableOf hout).1] at ha
    have hlt : a.userKey < guardKey := by simpa using all_eq_true.mp all_takeWhile a ha
    obtain ⟨d, -, hstop, hdb⟩ := exists_stop_of_mem_dropWhile hsorted
      ((sublist_buildLevel0Tables hout').mem hb)
    have hd : guardKey ≤ d.userKey := by simpa using hstop
    obtain rfl | hle := hdb
    · exact hlt.trans_le hd
    · exact hlt.trans_le (hd.trans hle)

section Flush

variable {mem : MemTable K V} {env : CompactionEnv K V} {pushed : Level → List (InternalKey K)}

theorem SerialState.Inv.freshNumbers_flush (h : s.Inv) (l : Level) :
    FreshNumbers (s.db.version.pushGuards pushed l)
      ((flushEdit s.firstFlush (s.db.version.pushGuards pushed)
        (flushFiles (s.numbered env) (s.flushOutputs mem))).level l) := by
  refine freshNumbers_of_unused (h.version.levels l).sorted.numbers_nodup newFiles_flushEdit ?_ ?_
  · have hnew : (((s.flushOutputs mem).zipIdx.map (s.numbered env).outputFile).map
        (·.number)).Nodup := by
      rw [map_number_outputFile]
      exact nodup_range.map (h.fresh env).injective
    exact hnew.sublist (filter_sublist.map _)
  · intro f hf f' hf'
    rcases mem_map.mp (mem_of_mem_filter hf') with ⟨p, -, rfl⟩
    exact (h.fresh env).unused p.2 l f hf

theorem SerialState.Inv.mem_files_flush (h : s.Inv) {l : Level} {f : FileMetaData K}
    (hf : f ∈ ((s.flush mem env pushed).db.version l).files) : (f ∈ (s.db.version l).files ∧
        (s.flush mem env pushed).db.tables f.number = s.db.tables f.number) ∨
      l = 0 ∧ ∃ p ∈ (s.flushOutputs mem).zipIdx, f = (s.numbered env).outputFile p ∧
        (s.flush mem env pushed).db.tables f.number = p.1.entries := by
  have hinstall : f ∈ (s.db.version.pushGuards pushed l).files ∧ _ ∨ _ :=
    (mem_files_install (h.freshNumbers_flush l)).mp hf
  obtain ⟨hold, -⟩ | hnew := hinstall
  · left
    refine ⟨hold, ?_⟩
    exact writeTables_of_ne _ _ fun i => (h.fresh env).unused i l f hold
  · right
    rw [newFiles_flushEdit] at hnew
    split_ifs at hnew with hl
    · obtain ⟨p, hp, rfl⟩ := mem_map.mp (mem_of_mem_filter hnew)
      exact ⟨hl, p, hp, rfl, writeTables_output (h.fresh env).injective s.db.tables hp⟩
    · cases hnew

/-- The new files fit the guards of the first level. -/
theorem SerialState.Inv.soundVersion_flush (h : s.Inv) :
    SoundVersion (s.flush mem env pushed).db.tables (s.flush mem env pushed).nextFileNumber []
      (s.flush mem env pushed).db.version := by
  have hnext : s.nextFileNumber ≤ (s.flush mem env pushed).nextFileNumber := Nat.le_add_right _ _
  have hbase : SoundVersion (s.flush mem env pushed).db.tables
      (s.flush mem env pushed).nextFileNumber [] (s.db.version.pushGuards pushed) := by
    refine SoundVersion.pushGuards (SoundVersion.mono (h.version.write ?_ _) hnext ?_) pushed
    · intro n hn _ i
      rw [s.number_numbered]
      omega
    · nofun
  have hdescribes : ∀ p ∈ (s.flushOutputs mem).zipIdx, ((s.numbered env).outputFile p).Describes
      ((s.flush mem env pushed).db.tables ((s.numbered env).outputFile p).number) := by
    intro p hp
    have hout := fst_mem_of_mem_zipIdx hp
    exact describes_written (h.fresh env).injective s.db.tables hp
      (wellFormed_buildLevel0Tables hout)
      (mem.nondecreasing.sublist (sublist_buildLevel0Tables hout))
  refine hbase.flushEdit h.freshNumbers_flush ?_ ?_
  · intro f hf
    obtain ⟨p, hp, rfl⟩ := mem_map.mp (mem_of_mem_filter hf)
    refine ⟨⟨(h.fresh env).positive p.2, hdescribes p hp⟩, ?_, not_mem_nil⟩
    have hlength : (s.flushOutputs mem).length ≤ (s.db.version 0).guards.length + 1 := by
      have := length_buildLevel0Tables_le (guardUserKeys (s.db.version 0).guards) mem.entries
      rwa [guardUserKeys, length_map] at this
    have hindex : p.2 < (s.flushOutputs mem).length := snd_lt_of_mem_zipIdx hp
    change (s.numbered env).number p.2 < s.nextFileNumber + _
    rw [s.number_numbered]
    omega
  · intro f hf u hu
    obtain ⟨p, hp, rfl⟩ := mem_map.mp (mem_of_mem_filter hf)
    refine (fits_iff_not_cutBy (hdescribes p hp).bounds_le).mp ?_ u hu
    exact fits_buildLevel0Tables (h.version.levels 0).sorted.guards_increasing mem
      (fst_mem_of_mem_zipIdx hp)

/-- **A flush keeps the invariant.** -/
theorem SerialState.Inv.flush (h : s.Inv) (htypes : ∀ e ∈ mem.entries, e.key.type ≠ .kTypeGuard)
    (hnewer : s.KeepsOrder (.flush mem env pushed)) : (s.flush mem env pushed).Inv := by
  have hentry : ∀ p ∈ (s.flushOutputs mem).zipIdx, ∀ e ∈ p.1.entries, e ∈ mem.entries :=
    fun p hp e he => (sublist_buildLevel0Tables (fst_mem_of_mem_zipIdx hp)).mem he
  refine ⟨h.soundVersion_flush, Nat.add_pos_left h.next_pos _, ?_, ⟨?_, ?_⟩⟩
  · intro l f hf
    obtain ⟨hold, htable⟩ | ⟨-, p, hp, -, htable⟩ := h.mem_files_flush hf
    · rw [htable]
      exact h.sorted l f hold
    · rw [htable]
      have hsub := sublist_buildLevel0Tables (fst_mem_of_mem_zipIdx hp)
      exact ⟨(mem.sorted.imp le_of_lt).sublist hsub, fun e he => htypes e (hentry p hp e he)⟩
  · intro l f hf f' hf' hnumber e he e' he' huser
    obtain ⟨hold, htable⟩ | ⟨-, p, hp, rfl, htable⟩ := h.mem_files_flush hf <;>
      obtain ⟨hold', htable'⟩ | ⟨-, p', hp', rfl, htable'⟩ := h.mem_files_flush hf' <;>
      rw [htable] at he <;> rw [htable'] at he'
    · exact h.recent.within l f hold f' hold' hnumber e he e' he' huser
    · exact absurd (h.number_lt env p'.2 l f hold) (not_lt.mpr hnumber.le)
    · exact hnewer e (hentry p hp e he) l f' hold' e' he' huser
    · -- the tables of a memtable share no user key
      change (s.numbered env).number p'.2 < (s.numbered env).number p.2 at hnumber
      exact absurd huser (ne_of_pairwise_zipIdx (pairwise_buildLevel0Tables mem.nondecreasing)
        hp hp' hnumber he he')
  · intro l l' hll' f hf f' hf' e he e' he' huser
    obtain ⟨hold', htable'⟩ | ⟨rfl, -⟩ := h.mem_files_flush hf'
    · rw [htable'] at he'
      obtain ⟨hold, htable⟩ | ⟨-, p, hp, rfl, htable⟩ := h.mem_files_flush hf
      · rw [htable] at he
        exact h.recent.across l l' hll' f hold f' hold' e he e' he' huser
      · rw [htable] at he
        exact hnewer e (hentry p hp e he) l' f' hold' e' he' huser
    · exact absurd hll' (Fin.not_lt_zero l)

end Flush

/-- **A job keeps the invariant**, when it keeps the order of versions. -/
theorem SerialState.Inv.step (h : s.Inv) {a : SerialAction K V} (hkeeps : s.KeepsOrder a)
    (hstep : s.step a = some s') : s'.Inv := by
  cases a with
  | addToCompleteGuards pushed =>
    cases hstep
    exact h.addToCompleteGuards pushed
  | flush mem env pushed =>
    simp only [SerialState.step] at hstep
    split_ifs at hstep with htypes
    cases hstep
    exact h.flush htypes hkeeps
  | compact scores level forceCompact env pushed =>
    obtain ⟨c, hpick, hc⟩ := bind_eq_some_iff.mp hstep
    obtain ⟨-, ⟨⟩⟩ := ite_none_right_eq_some.mp hc
    exact h.compact hpick env pushed (hkeeps c hpick)

/-- **Versions are in order, and lookups return the newest visible entry**, in every run of
flushes and automatic compactions whose memtables have no older entries of a user key than the
files, and whose compactions skip no guard, leave no newer entries of a user key behind and close
no table between two entries of one; for the lookup, no guard of the version that is read may be
skipped either. -/
theorem recencyOrder_of_keepsOrder
    (hrun : Runs SerialState.step SerialState.KeepsOrder (SerialState.opened : SerialState K V) s) :
    RecencyOrder s.db.tables s.db.version ∧ ((∀ l, (s.db.version l).NoGuardSkipped) →
        ∀ (filters : FileFilters s.db.tables) (userKey : K) (sequence : Nat),
          (∃ e, NewestIn s.db.tables s.db.version.allFiles userKey sequence e ∧
              s.db.version.get filters userKey sequence = saveValue userKey e) ∨
            (∀ f ∈ s.db.version.allFiles, ∀ e ∈ s.db.tables f.number,
                ¬ e.VisibleAt userKey sequence) ∧
              s.db.version.get filters userKey sequence = .notFound) := by
  have h : s.Inv := by
    refine hrun.invariant SerialState.inv_opened ?_
    intro s₁ a s₂ h hkeeps hstep
    exact h.step hkeeps hstep
  refine ⟨⟨?_, h.recent.across⟩, ?_⟩
  · intro l r hr f hf f' hf'
    have hmem : ∀ f ∈ r, f ∈ (s.db.version l).files := fun f hf =>
      (h.version.levels l).flatten_containers ▸ mem_flatten.mpr ⟨r, hr, hf⟩
    exact h.recent.within l f (hmem f hf) f' (hmem f' hf')
  intro hskip filters userKey sequence
  exact get_spec filters h.version.levels h.version.fits hskip h.version.tables h.sorted h.recent
    userKey sequence

instance (v : LevelVersion K) : Decidable v.NoGuardSkipped :=
  inferInstanceAs (Decidable (∀ g ∈ v.guards, ∀ f ∈
    v.files.find? (fun f => decide (g.guardKey.userKey ≤ f.smallest.userKey)),
      ¬ f.largest < g.guardKey))

instance (tables : Tables K V) (f f' : FileMetaData K) : Decidable (Newer tables f f') :=
  inferInstanceAs (Decidable (∀ e ∈ tables f.number, ∀ e' ∈ tables f'.number,
    e.userKey = e'.userKey → e'.key.sequence < e.key.sequence))

instance
    (c : Compaction K) (db : DB K V) (env : CompactionEnv K V) : Decidable (c.KeepsOrder db env) :=
  decidable_of_iff
    ((∀ l, l = c.level ∨ c.next = some l → (db.version l).NoGuardSkipped) ∧
      (c.next = none → ∀ f ∈ c.inputs.files, ∀ f' ∈ (db.version c.level).files,
        f' ∉ c.inputs.files → f.number < f'.number →
          ∀ e ∈ db.tables f.number, ∀ e' ∈ db.tables f'.number, e.userKey ≠ e'.userKey) ∧
      KeysTogether (env.full c.level)
        (keptEntries db.version c.level env DropState.start (c.entries db.tables)))
    ⟨fun h => ⟨h.1, h.2.1, h.2.2⟩, fun h => ⟨h.noGuardSkipped, h.newest, h.together⟩⟩

instance (s : SerialState K V) : DecidablePred s.KeepsOrder
  | .compact scores level forceCompact env _ =>
      inferInstanceAs (Decidable (∀ c ∈ pickCompactionForGuards s.db.version scores level
        forceCompact, c.KeepsOrder s.db (s.numbered env)))
  | .flush mem _ _ =>
      inferInstanceAs (Decidable (∀ e ∈ mem.entries, ∀ l, ∀ f ∈ (s.db.version l).files,
        ∀ e' ∈ s.db.tables f.number, e.userKey = e'.userKey → _ < _))
  | .addToCompleteGuards _ => instDecidableTrue

/-- Two versions of one key. -/
def twoVersions : MemTable Nat Nat where
  entries := [⟨⟨7, 2, .kTypeValue⟩, 20⟩, ⟨⟨7, 1, .kTypeValue⟩, 10⟩]
  sorted := List.pairwise_pair.mpr (InternalKey.lt_iff.mpr (.inr ⟨rfl, by decide⟩))

/-- A newer version of the key. -/
def thirdVersion : MemTable Nat Nat where
  entries := [⟨⟨7, 3, .kTypeValue⟩, 30⟩]
  sorted := List.pairwise_singleton _ _

/-- A snapshot keeps both versions; a table has the given size. -/
def snapshotEnv (size : Nat) : CompactionEnv Nat Nat :=
  { smallestSnapshot := 1
    manualGarbageCutoff := 0
    fileSize := fun _ => size
    finishedSize := List.length
    number := id }

/-- The memtable is flushed and compacted into the next level. -/
def twoVersionsMoves (size : Nat) : List (SerialAction Nat Nat) :=
  [.flush twoVersions (snapshotEnv size) fun _ => [],
    .compact (fun _ => ⟨1, fun _ => 0⟩) 0 false (snapshotEnv size) fun _ => []]

/-- Filters that let everything pass. -/
def passFilters (tables : Tables K V) : FileFilters tables :=
  ⟨fun _ _ => true, fun _ _ _ => rfl⟩

/-- The compaction writes both versions to one table, and then a newer version is flushed. -/
theorem recencyOrder_of_keepsOrder_oneTable : ∃ s, Runs SerialState.step SerialState.KeepsOrder
        (SerialState.opened : SerialState Nat Nat) s ∧
      ((s.db.version 0).files.map (fun f => s.db.tables f.number) = [thirdVersion.entries] ∧
        (s.db.version 1).files.map (fun f => s.db.tables f.number) = [twoVersions.entries]) ∧
      (∀ l, (s.db.version l).NoGuardSkipped) ∧ RecencyOrder s.db.tables s.db.version := by
  refine exists_runs_imp (P := fun s =>
      ((s.db.version 0).files.map (fun f => s.db.tables f.number) = [thirdVersion.entries] ∧
        (s.db.version 1).files.map (fun f => s.db.tables f.number) = [twoVersions.entries]) ∧
        ∀ l, (s.db.version l).NoGuardSkipped)
    (twoVersionsMoves 0 ++ [.flush thirdVersion (snapshotEnv 0) fun _ => []])
    (by decide +kernel) fun s hrun ⟨hfiles, hskip⟩ => ?_
  exact ⟨hfiles, hskip, (recencyOrder_of_keepsOrder hrun).1⟩

/-- **A lookup returns the older version.**  The compaction closes its first output after the
newer version of the key.  The older one is in the second output, which has the larger number
and is searched first. -/
theorem not_recencyOrder_twoTables :
    ∃ s, Runs SerialState.step (fun _ _ => True) (SerialState.opened : SerialState Nat Nat) s ∧
      ¬ RecencyOrder s.db.tables s.db.version ∧
      NewestIn s.db.tables s.db.version.allFiles 7 2 ⟨⟨7, 2, .kTypeValue⟩, 20⟩ ∧
      s.db.version.get (passFilters s.db.tables) 7 2 = .found 10 := by
  refine exists_runs_imp (P := fun s => (¬ ∀ r ∈ (s.db.version 1).containers, ∀ f ∈ r, ∀ f' ∈ r,
          f'.number < f.number → Newer s.db.tables f f') ∧
        (∃ f ∈ s.db.version.allFiles,
          (⟨⟨7, 2, .kTypeValue⟩, 20⟩ : Entry Nat Nat) ∈ s.db.tables f.number) ∧
        (∀ f ∈ s.db.version.allFiles, ∀ e ∈ s.db.tables f.number, e.key.sequence ≤ 2) ∧
        s.db.version.get (passFilters s.db.tables) 7 2 = .found 10)
    (twoVersionsMoves (2 ^ 30)) (by decide +kernel) fun s _ ⟨horder, hmem, hlast, hget⟩ => ?_
  refine ⟨fun h => horder (h.container 1), ⟨hmem, ⟨rfl, le_refl 2⟩, ?_⟩, hget⟩
  exact fun f hf e he _ => hlast f hf e he

end HotTLBApps.PebblesDB
