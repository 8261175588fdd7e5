import HotTLBApps.PebblesDB.VersionGet

/-!
# PebblesDB: deletion markers that a compaction drops

A compaction drops a deletion marker for one of two reasons: a newer entry of the
same user key that every snapshot sees came before it, or `IsBaseLevelForKey` finds
no file for its user key in the levels from the second one after the compacted
level on.

`IsBaseLevelForKey` remembers for each level how many files it has left behind.
Since the entries come in the order of their user keys, the files left behind end
before every later key, so forgetting them does no harm: `passed_dropStateAfter` is
the invariant, and `isBaseLevelForKey_spec` what one call does.

A marker may be dropped although a file that is no input holds an older entry of
its key (`not_dropsSafely_hidingDB`).
-/

namespace HotTLBApps.PebblesDB

open OrderedSet Intervals List Function Option

variable {K V : Type} [LinearOrder K]

def dropStateAfter (v : Version K) (level : Level) (env : CompactionEnv K V)
    (entries : List (Entry K V)) : DropState K :=
  entries.foldl (fun st e => (dropEntry v level env st e).2) DropState.start

def Drops (v : Version K) (level : Level) (env : CompactionEnv K V) (before : List (Entry K V))
    (e : Entry K V) : Prop :=
  (dropEntry v level env (dropStateAfter v level env before) e).1 = true

/-- Every deletion marker that a compaction drops is newer than no entry of its user
key in the files that stay where they are. -/
def DropsSafely (db : DB K V) (c : Compaction K) (env : CompactionEnv K V) : Prop :=
  ∀ before e after, c.entries db.tables = before ++ e :: after →
    e.key.type = .kTypeDeletion → Drops db.version c.level env before e →
    ∀ l, ∀ f ∈ (db.version l).files, ¬ c.Takes l f →
      ∀ e' ∈ db.tables f.number, e'.userKey = e.userKey → ¬ e'.key.sequence < e.key.sequence

/-- The inner loop leaves files behind that end before the key; if it answers that
the key is in no file, then no file that is left holds the key. -/
theorem advanceLevelPtr_spec (userKey : K) {files : List (FileMetaData K)}
    (hsorted : Increasing fileKey files) (ptr : Nat) : ∃ passed rest, files = passed ++ rest ∧
      (advanceLevelPtr userKey files ptr).2 = ptr + passed.length ∧
      (∀ f ∈ passed, f.largest.userKey < userKey) ∧
      ((advanceLevelPtr userKey files ptr).1 = true →
        ∀ f ∈ rest, ¬ (f.smallest.userKey ≤ userKey ∧ userKey ≤ f.largest.userKey)) := by
  induction files generalizing ptr with
  | nil => exact ⟨[], [], rfl, rfl, by simp, by simp⟩
  | cons f files ih =>
    obtain ⟨hhead, htail⟩ := pairwise_cons.mp hsorted
    rw [advanceLevelPtr]
    split_ifs with hle
    · refine ⟨[], f :: files, rfl, rfl, by simp, ?_⟩
      intro hbase f' hf' hrange
      have hlt : userKey < f.smallest.userKey := by simpa using hbase
      -- Later files start after the first one.
      have hstart : f.smallest.userKey ≤ f'.smallest.userKey := by
        obtain rfl | hf' := mem_cons.mp hf'
        · exact le_refl _
        · exact smallest_le_of_fileKey_le (hhead f' hf').le
      exact absurd (hstart.trans hrange.1) (not_le.mpr hlt)
    · obtain ⟨passed, rest, rfl, hptr, hpassed, hrest⟩ := ih htail (ptr + 1)
      refine ⟨f :: passed, rest, rfl, ?_, ?_, hrest⟩
      · rw [hptr, length_cons]
        omega
      · intro f' hf'
        obtain rfl | hf' := mem_cons.mp hf'
        · exact not_le.mp hle
        · exact hpassed f' hf'

/-- The files that were left behind end before a key of `keys`. -/
def Passed (v : Version K) (ptrs : Level → Nat) (keys : List K) : Prop :=
  ∀ l, ∀ f ∈ (v l).files.take (ptrs l), ∃ k ∈ keys, f.largest.userKey < k

/-- No file of a level holds the key in its range. -/
def LevelVersion.NoFileFor (v : LevelVersion K) (userKey : K) : Prop :=
  ∀ f ∈ v.files, ¬ (f.smallest.userKey ≤ userKey ∧ userKey ≤ f.largest.userKey)

variable {v : Version K} {ptrs : Level → Nat} {keys : List K} {userKey : K}

/-- One level: files left behind so far end before the key, so an answer about the
rest is an answer about the level. -/
theorem advanceLevelPtr_level (hv : ∀ l, Increasing fileKey (v l).files)
    (hpassed : Passed v ptrs keys) (hkeys : ∀ k ∈ keys, k ≤ userKey) (l : Level) :
    Passed v (update ptrs l
        (advanceLevelPtr userKey ((v l).files.drop (ptrs l)) (ptrs l)).2) (userKey :: keys) ∧
      ((advanceLevelPtr userKey ((v l).files.drop (ptrs l)) (ptrs l)).1 = true →
        (v l).NoFileFor userKey) := by
  obtain ⟨passed, rest, hsplit, hptr, hbefore, hrest⟩ :=
    advanceLevelPtr_spec userKey ((hv l).sublist (drop_sublist (ptrs l) _)) (ptrs l)
  constructor
  · intro l' f hf
    by_cases hl : l' = l
    · subst hl
      rw [update_self, hptr, take_add, hsplit, take_left] at hf
      obtain hf | hf := mem_append.mp hf
      · obtain ⟨k, hk, hlt⟩ := hpassed l' f hf
        exact ⟨k, mem_cons_of_mem _ hk, hlt⟩
      · exact ⟨userKey, mem_cons_self, hbefore f hf⟩
    · rw [update_of_ne hl] at hf
      obtain ⟨k, hk, hlt⟩ := hpassed l' f hf
      exact ⟨k, mem_cons_of_mem _ hk, hlt⟩
  · intro hbase f hf hrange
    rw [← take_append_drop (ptrs l) (v l).files, hsplit] at hf
    obtain hf | hf := mem_append.mp hf
    · obtain ⟨k, hk, hlt⟩ := hpassed l f hf
      exact absurd (hrange.2.trans_lt hlt) (not_lt.mpr (hkeys k hk))
    · obtain hf | hf := mem_append.mp hf
      · exact absurd hrange.2 (not_le.mpr (hbefore f hf))
      · exact hrest hbase f hf hrange

theorem isBaseLevelForKeyLoop_spec (hv : ∀ l, Increasing fileKey (v l).files)
    (hkeys : ∀ k ∈ keys, k ≤ userKey) (levels : List Level) (hpassed : Passed v ptrs keys) :
    Passed v (isBaseLevelForKeyLoop v userKey levels ptrs).2 (userKey :: keys) ∧
      ((isBaseLevelForKeyLoop v userKey levels ptrs).1 = true →
        ∀ l ∈ levels, (v l).NoFileFor userKey) := by
  -- The keys only grow, and by the key itself.
  induction levels generalizing ptrs keys with
  | nil =>
    refine ⟨?_, by simp⟩
    intro l f hf
    obtain ⟨k, hk, hlt⟩ := hpassed l f hf
    exact ⟨k, mem_cons_of_mem _ hk, hlt⟩
  | cons l levels ih =>
    obtain ⟨hnext, hlevel⟩ := advanceLevelPtr_level hv hpassed hkeys l
    rw [isBaseLevelForKeyLoop]
    rcases hadvance : advanceLevelPtr userKey ((v l).files.drop (ptrs l)) (ptrs l) with
      ⟨_ | _, ptr⟩
    · rw [hadvance] at hnext
      exact ⟨hnext, by simp⟩
    · rw [hadvance] at hnext hlevel
      obtain ⟨hrest, hbase⟩ := ih (forall_mem_cons.mpr ⟨le_rfl, hkeys⟩) hnext
      constructor
      · intro l' f hf
        obtain ⟨k, hk, hlt⟩ := hrest l' f hf
        obtain rfl | hk := mem_cons.mp hk
        · exact ⟨k, mem_cons_self, hlt⟩
        · exact ⟨k, hk, hlt⟩
      · intro htrue l' hl'
        obtain rfl | hl' := mem_cons.mp hl'
        · exact hlevel rfl
        · exact hbase htrue l' hl'

/-- **What `IsBaseLevelForKey` answers** when the keys that it is asked for do not
decrease. -/
theorem isBaseLevelForKey_spec (hv : ∀ l, Increasing fileKey (v l).files) (level : Level)
    (hkeys : ∀ k ∈ keys, k ≤ userKey) (hpassed : Passed v ptrs keys) :
    Passed v (isBaseLevelForKey v level userKey ptrs).2 (userKey :: keys) ∧
      ((isBaseLevelForKey v level userKey ptrs).1 = true →
        ∀ l : Level, level.val + 2 ≤ l.val → (v l).NoFileFor userKey) := by
  obtain ⟨hnext, hbase⟩ := isBaseLevelForKeyLoop_spec hv hkeys (levelsBeyond level) hpassed
  refine ⟨hnext, ?_⟩
  intro htrue l hl
  apply hbase htrue l
  simp [levelsBeyond, hl]

variable {level : Level} {env : CompactionEnv K V}

/-- **What the loop does with one entry.**  It is a guard, or its key is remembered;
it is dropped only if it is hidden or if `IsBaseLevelForKey` says so. -/
theorem dropEntry_cases (v : Version K) (level : Level) (env : CompactionEnv K V) (st : DropState K)
    (e : Entry K V) {r : Bool × DropState K} (h : dropEntry v level env st e = r) :
    (e.key.type = .kTypeGuard ∧ r.1 = false ∧ r.2.currentKey = none ∧
        r.2.levelPtrs = st.levelPtrs) ∨
      (r.2.currentKey = some e.userKey ∧ r.2.lastSequenceForKey = e.key.sequence ∧
        (r.2.levelPtrs = st.levelPtrs ∧ (r.1 = true →
            (if st.currentKey = some e.userKey then st.lastSequenceForKey
              else kMaxSequenceNumber) ≤ env.smallestSnapshot) ∨
          r.2.levelPtrs = (isBaseLevelForKey v level e.userKey st.levelPtrs).2 ∧
            (r.1 = true → (isBaseLevelForKey v level e.userKey st.levelPtrs).1 = true))) := by
  subst h
  by_cases hguard : e.key.type = .kTypeGuard
  · left
    simp [dropEntry, hguard]
  · right
    simp only [dropEntry, if_neg hguard]
    refine ⟨trivial, trivial, ?_⟩
    generalize (if st.currentKey = some e.userKey then st.lastSequenceForKey
      else kMaxSequenceNumber) = lastSequence
    split_ifs with hlast
    · left
      exact ⟨rfl, fun _ => hlast⟩
    · right
      refine ⟨rfl, ?_⟩
      intro hdrop
      exact (Bool.and_eq_true_iff.mp hdrop).1
    · left
      refine ⟨rfl, ?_⟩
      intro hdrop
      simp at hdrop

/-- The files that `IsBaseLevelForKey` has left behind end before an entry that was
read. -/
theorem passed_dropStateAfter (hv : ∀ l, Increasing fileKey (v l).files)
    {entries : List (Entry K V)} (hsorted : Nondecreasing Entry.userKey entries) :
    Passed v (dropStateAfter v level env entries).levelPtrs (entries.map Entry.userKey) := by
  induction entries using reverseRecOn with
  | nil =>
    intro l f hf
    simp [dropStateAfter, DropState.start] at hf
  | append_singleton entries e ih =>
    obtain ⟨hfront, -, hlast⟩ := pairwise_append.mp hsorted
    have hkeys : ∀ k ∈ entries.map Entry.userKey, k ≤ e.userKey := by
      intro k hk
      obtain ⟨e', he', rfl⟩ := mem_map.mp hk
      exact hlast e' he' e (mem_singleton_self e)
    have hkeep : Passed v (dropStateAfter v level env entries).levelPtrs
        ((entries ++ [e]).map Entry.userKey) := by
      intro l f hf
      obtain ⟨k, hk, hlt⟩ := ih hfront l f hf
      exact ⟨k, by simp [mem_map.mp hk], hlt⟩
    have hstep : dropStateAfter v level env (entries ++ [e]) =
        (dropEntry v level env (dropStateAfter v level env entries) e).2 := by
      simp [dropStateAfter]
    rw [hstep]
    rcases dropEntry_cases v level env (dropStateAfter v level env entries) e rfl with
      ⟨-, -, -, hptrs⟩ | ⟨-, -, ⟨hptrs, -⟩ | ⟨hptrs, -⟩⟩
    · rw [hptrs]
      exact hkeep
    · rw [hptrs]
      exact hkeep
    · rw [hptrs]
      intro l f hf
      obtain ⟨k, hk, hlt⟩ := (isBaseLevelForKey_spec hv level hkeys (ih hfront)).1 l f hf
      refine ⟨k, ?_, hlt⟩
      obtain rfl | hk := mem_cons.mp hk
      · simp
      · simp [mem_map.mp hk]

theorem currentKey_dropStateAfter (entries : List (Entry K V)) {k : K}
    (hcurrent : (dropStateAfter v level env entries).currentKey = some k) :
    ∃ e ∈ entries, e.userKey = k ∧
      e.key.sequence = (dropStateAfter v level env entries).lastSequenceForKey := by
  obtain rfl | ⟨before, e, rfl⟩ := eq_nil_or_concat' entries
  · cases hcurrent
  · have hstep : dropStateAfter v level env (before ++ [e]) =
        (dropEntry v level env (dropStateAfter v level env before) e).2 := by
      simp [dropStateAfter]
    rw [hstep] at hcurrent ⊢
    rcases dropEntry_cases v level env (dropStateAfter v level env before) e rfl with
      ⟨-, -, hnone, -⟩ | ⟨hkey, hsequence, -⟩
    · rw [hnone] at hcurrent
      cases hcurrent
    · rw [hkey] at hcurrent
      exact ⟨e, by simp, some.inj hcurrent, hsequence.symm⟩

variable {db : DB K V} {scores : Level → LevelScores} {forceCompact : Bool} {c : Compaction K}

/-- **Why a deletion marker is dropped.**  An entry of the same user key that every
snapshot sees was read before it, or no file from the second level after the
compacted one on has an entry of its user key. -/
theorem dropped_marker_hidden_or_base
    (hdb : db.WellFormed)
    (hfits : ∀ l, (db.version l).FilesFit)
    (hpick : pickCompactionForGuards db.version scores level forceCompact = some c)
    (hsnapshot : env.smallestSnapshot < kMaxSequenceNumber)
    {before after : List (Entry K V)}
    {e : Entry K V}
    (hentries : c.entries db.tables = before ++ e :: after)
    (hmarker : e.key.type = .kTypeDeletion)
    (hdrop : Drops db.version c.level env before e) :
    (∃ e' ∈ before, e'.userKey = e.userKey ∧ e'.key.sequence ≤ env.smallestSnapshot) ∨
      ∀ l : Level, c.level.val + 2 ≤ l.val → ∀ f ∈ (db.version l).files,
        ∀ e' ∈ db.tables f.number, e'.userKey ≠ e.userKey := by
  have hc := from_pickCompactionForGuards hdb.levels hpick
  have hsorted := hc.nondecreasing_entries hdb.levels hfits hdb.tables
  rw [hentries] at hsorted
  obtain ⟨hfront, -, hlast⟩ := pairwise_append.mp hsorted
  have hfiles : ∀ l, Increasing fileKey (db.version l).files :=
    fun l => (hdb.levels l).sorted.files_increasing
  rcases dropEntry_cases db.version c.level env (dropStateAfter db.version c.level env before) e rfl
    with ⟨hguard, -⟩ | ⟨-, -, ⟨-, hhidden⟩ | ⟨-, hbase⟩⟩
  · rw [hmarker] at hguard
    cases hguard
  · -- The entry before is one of the same key, since the bound on the snapshot excludes
    -- the number that stands for a new key.
    left
    have hle := hhidden hdrop
    split_ifs at hle with hsame
    · obtain ⟨e', he', hkey, hsequence⟩ := currentKey_dropStateAfter before hsame
      exact ⟨e', he', hkey, hsequence.trans_le hle⟩
    · exact absurd hsnapshot (not_lt.mpr hle)
  · right
    intro l hl f hf e' he' hkey
    have hkeys : ∀ k ∈ before.map Entry.userKey, k ≤ e.userKey := by
      intro k hk
      obtain ⟨b, hb, rfl⟩ := mem_map.mp hk
      exact hlast b hb e mem_cons_self
    have hnone := (isBaseLevelForKey_spec hfiles c.level hkeys
      (passed_dropStateAfter hfiles hfront)).2 (hbase hdrop) l hl f hf
    have hbounds := (hdb.tables l f hf).2.bounds he'
    rw [hkey] at hbounds
    exact hnone hbounds

/-- The first level has a value and an older deletion marker of one key, the third
level an even older value. -/
def hidingDB : DB Nat Nat :=
  { version := fun l =>
      if l = 0 then
        { files := [⟨1, 100, ⟨3, 5, .kTypeValue⟩, ⟨3, 4, .kTypeDeletion⟩⟩]
          guards := []
          sentinelFiles := [⟨1, 100, ⟨3, 5, .kTypeValue⟩, ⟨3, 4, .kTypeDeletion⟩⟩]
          completeGuards := []
          numCompleteGuards := 0 }
      else if l = 2 then
        { files := [⟨2, 100, ⟨3, 1, .kTypeValue⟩, ⟨3, 1, .kTypeValue⟩⟩]
          guards := []
          sentinelFiles := [⟨2, 100, ⟨3, 1, .kTypeValue⟩, ⟨3, 1, .kTypeValue⟩⟩]
          completeGuards := []
          numCompleteGuards := 0 }
      else
        LevelVersion.empty
    tables := fun number =>
      if number = 1 then
        [⟨⟨3, 5, .kTypeValue⟩, 30⟩, ⟨⟨3, 4, .kTypeDeletion⟩, 0⟩]
      else
        [⟨⟨3, 1, .kTypeValue⟩, 31⟩] }

theorem wellFormed_hidingDB : hidingDB.WellFormed := by
  decide

theorem filesFit_hidingDB : ∀ l, (hidingDB.version l).FilesFit := by
  decide

/-- The compaction of the first level, and no snapshot since the entries were
written. -/
def hidingCompaction : Compaction Nat :=
  verticalCompaction hidingDB.version (fun _ => ⟨0, fun _ => 0⟩) 0 1 true

/-- Only the newest sequence number is in use. -/
def latestEnv : CompactionEnv Nat Nat :=
  { smallestSnapshot := 10
    manualGarbageCutoff := 10
    fileSize := fun _ => 0
    finishedSize := List.length
    number := fun i => i + 3 }

theorem pick_hidingDB : pickCompactionForGuards hidingDB.version (fun _ => ⟨0, fun _ => 0⟩) 0 true =
      some hidingCompaction :=
  rfl

theorem entries_hidingCompaction : hidingCompaction.entries hidingDB.tables =
      [⟨⟨3, 5, .kTypeValue⟩, 30⟩] ++ ⟨⟨3, 4, .kTypeDeletion⟩, 0⟩ :: [] := by
  have hcopy : completeGuardsCopy ([] : List (InternalKey Nat)) = [] := by
    simp [completeGuardsCopy, maybeAddGuards]
  have hinputs : hidingCompaction.inputs = ⟨(hidingDB.version 0).sentinelFiles, []⟩ := by
    change pickLevelInputs false true true 0 _ (hidingDB.version 0) = _
    simp only [pickLevelInputs, show (hidingDB.version 0).completeGuards = [] from rfl, hcopy]
    rfl
  have hnext : hidingCompaction.nextInputs = ⟨[], []⟩ := by
    change pickLevelInputs false true false 1 _ (hidingDB.version 1) = _
    simp only [pickLevelInputs, show (hidingDB.version 1).completeGuards = [] from rfl, hcopy]
    rfl
  rw [Compaction.entries, hinputs, hnext]
  decide

theorem drops_hidingDB :
    Drops hidingDB.version hidingCompaction.level latestEnv [⟨⟨3, 5, .kTypeValue⟩, 30⟩]
      ⟨⟨3, 4, .kTypeDeletion⟩, 0⟩ := by
  unfold Drops
  decide

theorem dropped_marker_hidden_or_base_of_hidingDB :
    (∃ e' ∈ [(⟨⟨3, 5, .kTypeValue⟩, 30⟩ : Entry Nat Nat)], e'.userKey = 3 ∧
        e'.key.sequence ≤ latestEnv.smallestSnapshot) ∨
      ∀ l : Level, 0 + 2 ≤ l.val → ∀ f ∈ (hidingDB.version l).files,
        ∀ e' ∈ hidingDB.tables f.number, e'.userKey ≠ 3 :=
  dropped_marker_hidden_or_base wellFormed_hidingDB filesFit_hidingDB pick_hidingDB (by decide)
    entries_hidingCompaction rfl drops_hidingDB

/-- The marker is dropped because the newer value hides it, and the third level keeps
the older value. -/
theorem not_dropsSafely_hidingDB : hidingDB.WellFormed ∧ (∀ l, (hidingDB.version l).FilesFit) ∧
      pickCompactionForGuards hidingDB.version (fun _ => ⟨0, fun _ => 0⟩) 0 true =
        some hidingCompaction ∧
      ¬ DropsSafely hidingDB hidingCompaction latestEnv := by
  refine ⟨wellFormed_hidingDB, filesFit_hidingDB, pick_hidingDB, ?_⟩
  intro hsafe
  refine hsafe _ _ _ entries_hidingCompaction rfl drops_hidingDB 2
    ⟨2, 100, ⟨3, 1, .kTypeValue⟩, ⟨3, 1, .kTypeValue⟩⟩ (by decide) ?_
    ⟨⟨3, 1, .kTypeValue⟩, 31⟩ (by decide) rfl (by decide)
  rintro (⟨hl, -⟩ | ⟨hl, -⟩)
  · exact absurd hl (by decide)
  · exact absurd (some.inj hl) (by decide)

variable {st : DropState K} {e : Entry K V} {entries : List (Entry K V)} {sequence : Nat}

theorem keptEntries_cons : keptEntries v level env st (e :: entries) =
    if (dropEntry v level env st e).1 then
      keptEntries v level env (dropEntry v level env st e).2 entries
    else e :: keptEntries v level env (dropEntry v level env st e).2 entries := by
  rw [keptEntries]
  obtain ⟨_ | _, st'⟩ := dropEntry v level env st e <;> rfl

/-- Behind an entry that every snapshot sees, no entry of its user key is kept. -/
theorem userKey_ne_of_mem_keptEntries (hsnapshot : env.smallestSnapshot < kMaxSequenceNumber)
    (hkey : st.currentKey = some userKey) (hlast : st.lastSequenceForKey ≤ env.smallestSnapshot)
    (htable : SortedTable entries) (hentries : ∀ e ∈ entries, userKey ≤ e.userKey ∧
      (e.userKey = userKey → e.key.sequence ≤ env.smallestSnapshot)) :
    ∀ e ∈ keptEntries v level env st entries, e.userKey ≠ userKey := by
  induction entries generalizing st with
  | nil => exact fun _ he => nomatch he
  | cons e entries ih =>
    obtain ⟨⟨hle, hsequence⟩, hentries⟩ := forall_mem_cons.mp hentries
    obtain ⟨hguard, hplain⟩ := forall_mem_cons.mp htable.plain
    obtain ⟨hlater, hsorted⟩ := pairwise_cons.mp htable.sorted
    by_cases huser : e.userKey = userKey
    · have hdrop : dropEntry v level env st e =
          (true, ⟨some userKey, e.key.sequence, st.levelPtrs⟩) := by
        simp [dropEntry, hguard, hkey, huser, hlast, (hlast.trans_lt hsnapshot).ne]
      rw [keptEntries, hdrop]
      exact ih rfl (hsequence huser) ⟨hsorted, hplain⟩ hentries
    · intro a ha hauser
      have hle' : e.userKey ≤ a.userKey := by
        obtain rfl | ha := mem_cons.mp ((keptEntries_sublist _ _ _ _ _).mem ha)
        · exact le_refl _
        · exact InternalKey.userKey_le_of_le (hlater a ha)
      exact huser (le_antisymm (hle'.trans_eq hauser) hle)

/-- **What is kept** answers the lookups at the snapshots in use, but for deletion markers. -/
theorem internalGet_keptEntries (hsnapshot : env.smallestSnapshot ≤ sequence)
    (hsequence : sequence < kMaxSequenceNumber) (htable : SortedTable entries)
    (hst : st.currentKey = some userKey → sequence < st.lastSequenceForKey) :
    internalGet (keptEntries v level env st entries) userKey sequence =
        internalGet entries userKey sequence ∨
      internalGet (keptEntries v level env st entries) userKey sequence = .notFound ∧
        internalGet entries userKey sequence = .deleted := by
  induction entries generalizing st with
  | nil => exact .inl rfl
  | cons e entries ih =>
    obtain ⟨hguard, hplain⟩ := forall_mem_cons.mp htable.plain
    obtain ⟨hlater, hsorted⟩ := pairwise_cons.mp htable.sorted
    by_cases hle : lookupKey userKey sequence ≤ e.key
    · have hlow : userKey ≤ e.userKey := InternalKey.userKey_le_of_le hle
      have hkept := fun a ha => hplain a ((keptEntries_sublist v level env
        (dropEntry v level env st e).2 entries).mem ha)
      rw [internalGet_cons, if_pos hle, keptEntries_cons]
      split_ifs with hdrop
      · by_cases huser : e.userKey = userKey
        · -- no entry before this one hides it
          obtain ⟨hmarker, hold⟩ : e.key.type = .kTypeDeletion ∧
              e.key.sequence ≤ env.smallestSnapshot := by
            have hnew : ¬ (if st.currentKey = some e.userKey then st.lastSequenceForKey
                else kMaxSequenceNumber) ≤ env.smallestSnapshot := by
              rw [huser, not_le]
              split_ifs with hsame
              · exact hsnapshot.trans_lt (hst hsame)
              · exact hsnapshot.trans_lt hsequence
            by_contra hother
            simp [dropEntry, hguard, hnew, hother] at hdrop
          refine .inr ⟨internalGet_eq_notFound _ hkept ?_, ?_⟩
          · refine userKey_ne_of_mem_keptEntries (hsnapshot.trans_lt hsequence) ?_ ?_
              ⟨hsorted, hplain⟩ fun a ha => ⟨?_, fun hauser => ?_⟩
            · simp [dropEntry, hguard, huser]
            · simp [dropEntry, hguard, hold]
            · exact hlow.trans (InternalKey.userKey_le_of_le (hlater a ha))
            · exact (sequence_le_of_key_le (huser.trans hauser.symm) (hlater a ha)).trans hold
          · simp [saveValue, hmarker, huser]
        · left
          rw [saveValue, if_neg hguard, if_neg huser]
          refine internalGet_eq_notFound _ hkept fun a ha hauser => huser ?_
          have hhigh : e.userKey ≤ a.userKey :=
            InternalKey.userKey_le_of_le (hlater a ((keptEntries_sublist _ _ _ _ _).mem ha))
          exact le_antisymm (hhigh.trans_eq hauser) hlow
      · left
        rw [internalGet_cons, if_pos hle]
    · have hstep : (dropEntry v level env st e).2.currentKey = some userKey →
          sequence < (dropEntry v level env st e).2.lastSequenceForKey := by
        simp only [dropEntry, if_neg hguard, some.injEq]
        intro huser
        rwa [lookupKey_le_iff hguard huser, not_le] at hle
      have hrest := ih ⟨hsorted, hplain⟩ hstep
      rw [internalGet_cons, if_neg hle, keptEntries_cons]
      split_ifs
      · exact hrest
      · rwa [internalGet_cons, if_neg hle]

/-- **A compaction keeps the reads** at every snapshot in use: a lookup finds in the outputs
what it finds in the inputs, except that a deletion marker may be gone. -/
theorem internalGet_doCompactionWorkGuards
    {tables : Tables K V}
    (htable : SortedTable (c.entries tables))
    (hsnapshot : env.smallestSnapshot ≤ sequence)
    (hsequence : sequence < kMaxSequenceNumber)
    (userKey : K) :
    internalGet ((doCompactionWorkGuards v tables c env).flatMap Output.entries) userKey sequence =
        internalGet (c.entries tables) userKey sequence ∨
      internalGet ((doCompactionWorkGuards v tables c env).flatMap Output.entries) userKey
          sequence = .notFound ∧
        internalGet (c.entries tables) userKey sequence = .deleted := by
  rw [doCompactionWorkGuards_eq, flatMap_splitEntries]
  exact internalGet_keptEntries hsnapshot hsequence htable nofun

theorem internalGet_outputs_hidingDB :
    internalGet ((doCompactionWorkGuards hidingDB.version hidingDB.tables hidingCompaction
      latestEnv).flatMap Output.entries) 3 10 = .found 30 := by
  have htable : SortedTable (hidingCompaction.entries hidingDB.tables) := by
    rw [entries_hidingCompaction]
    exact ⟨pairwise_pair.mpr (by decide), by decide⟩
  obtain heq | ⟨-, hdeleted⟩ := internalGet_doCompactionWorkGuards htable
    (show latestEnv.smallestSnapshot ≤ 10 by decide) (by decide) 3
  · rw [heq, entries_hidingCompaction]
    decide
  · rw [entries_hidingCompaction] at hdeleted
    exact absurd hdeleted (by decide)

end HotTLBApps.PebblesDB
