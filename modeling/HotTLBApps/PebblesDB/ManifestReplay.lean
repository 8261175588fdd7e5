import HotTLBApps.PebblesDB.SaveTo
import HotTLBApps.PebblesDB.VersionSet

/-!
# PebblesDB: replaying the manifest

In memory, every edit is saved on top of the version before it; recovery collects
the edits of the whole manifest and saves once, on top of the empty version.
`Replays` relates a level in memory to what recovery has collected for it.  It
holds after the snapshot (`replays_snapshot`), every edit keeps it
(`Replays.logAndApply`), and saving what was collected gives the level back
(`Replays.saveTo`).

An edit that deletes a guard breaks it: a deletion is never cancelled, so a guard
that is added again is there in memory and is missing after recovery.
-/

namespace HotTLBApps.PebblesDB

open OrderedSet List Function LevelVersion LevelState

variable {K : Type} [LinearOrder K]

def userKeys (guards : List (InternalKey K)) : List K :=
  guards.map (·.userKey)

/-- The complete guards of a level that the last edit has saved; writers push the
other ones. -/
def LevelVersion.savedGuards (v : LevelVersion K) : List (InternalKey K) :=
  v.completeGuards.take v.numCompleteGuards

/-- What recovery has collected for a level describes its files and guards, and
its complete guards up to those that no edit has saved yet. -/
structure Replays (v : LevelVersion K) (st : LevelState K) : Prop where
  files_eq : v.files = st.addedFiles.filter fun f => decide (f.number ∉ st.deletedFiles)
  files_increasing : Increasing fileKey st.addedFiles
  numbers_nodup : (st.addedFiles.map (·.number)).Nodup
  guards_eq : guardUserKeys v.guards = userKeys st.addedGuards
  guards_increasing : Increasing guardOrder st.addedGuards
  no_deletedGuards : st.deletedGuards = ∅
  saved_collected : ∀ u ∈ userKeys v.savedGuards, u ∈ userKeys st.addedCompleteGuards
  collected_known : ∀ u ∈ userKeys st.addedCompleteGuards, u ∈ userKeys v.completeGuards

/-- The complete guards that were collected are those of the last save. -/
def CompleteGuardsAgree (v : LevelVersion K) (st : LevelState K) : Prop :=
  ∀ u, u ∈ userKeys v.savedGuards ↔ u ∈ userKeys st.addedCompleteGuards

/-- What the snapshot says about a level. -/
def snapshotLevelEdit (v : LevelVersion K) : LevelEdit K :=
  { deletedFiles := ∅
    newFiles := v.files
    deletedGuards := ∅
    newGuards := v.guards.map (·.guardKey)
    newCompleteGuards := v.completeGuards }

theorem increasing_guardOrder_iff {guards : List (InternalKey K)} :
    Increasing guardOrder guards ↔ (userKeys guards).Pairwise (· < ·) := by
  rw [userKeys, pairwise_map]
  rfl

theorem mem_userKeys_insertAll {l gs : List (InternalKey K)} {u : K} :
    u ∈ userKeys (insertAll guardOrder l gs) ↔ u ∈ userKeys gs ∨ u ∈ userKeys l :=
  mem_userKey_insertAll

variable {v : LevelVersion K}

/-- The snapshot of a level describes it. -/
theorem replays_snapshot (hsorted : v.Sorted) :
    Replays v (LevelState.empty.apply (snapshotLevelEdit v)) := by
  have hguards : Increasing guardOrder (v.guards.map (·.guardKey)) := by
    rw [increasing_guardOrder_iff, userKeys, ← guardUserKeys_eq]
    exact hsorted.guards_increasing
  have hfiles : (LevelState.empty.apply (snapshotLevelEdit v)).addedFiles = v.files := by
    rw [addedFiles_apply]
    exact insertAll_nil hsorted.files_increasing
  have hadded : (LevelState.empty.apply (snapshotLevelEdit v)).addedGuards =
      v.guards.map (·.guardKey) := by
    rw [addedGuards_apply]
    exact insertAll_nil hguards
  have hcomplete : ∀ u, u ∈ userKeys
      (LevelState.empty.apply (snapshotLevelEdit v)).addedCompleteGuards ↔
        u ∈ userKeys v.completeGuards := by
    intro u
    rw [addedCompleteGuards_apply, mem_userKeys_insertAll]
    simp [LevelState.empty, snapshotLevelEdit, userKeys]
  constructor
  · rw [hfiles, deletedFiles_apply]
    simp [LevelState.empty, snapshotLevelEdit]
  · rw [hfiles]
    exact hsorted.files_increasing
  · rw [hfiles]
    exact hsorted.numbers_nodup
  · rw [hadded, guardUserKeys_eq]
    rfl
  · rw [hadded]
    exact hguards
  · rw [deletedGuards_apply]
    simp [LevelState.empty, snapshotLevelEdit]
  · intro u hu
    rw [hcomplete]
    exact map_subset _ (take_subset _ _) hu
  · intro u hu
    exact (hcomplete u).mp hu

/-- The edit as it is logged for a level: with the complete guards that `SaveTo`
has added. -/
def loggedLevelEdit (v : LevelVersion K) (edit : LevelEdit K) : LevelEdit K :=
  { edit with newCompleteGuards := edit.newCompleteGuards ++ completeGuardsForEdit v }

variable {st : LevelState K} {edit : LevelEdit K}

/-- Files, in memory and collected, after an edit with new file numbers. -/
theorem Replays.files_logAndApply (h : Replays v st)
    (hfresh : ((st.addedFiles ++ edit.newFiles).map (·.number)).Nodup) :
    (v.install edit).files =
      (insertAll fileKey st.addedFiles edit.newFiles).filter fun f =>
        decide (f.number ∉
          (st.deletedFiles ∪ edit.deletedFiles) \ (edit.newFiles.map (·.number)).toFinset) := by
  have hperm := insertAll_perm (nodup_fileKey hfresh)
  have hnew : ((LevelState.empty.apply edit).addedFiles).Perm edit.newFiles := by
    rw [addedFiles_apply]
    apply insertAll_perm (l := [])
    exact (nodup_fileKey hfresh).sublist ((sublist_append_right _ _).map _)
  have hold : ∀ f ∈ st.addedFiles, f.number ∉ edit.newFiles.map (·.number) := by
    intro f hf hmem
    rw [map_append, nodup_append] at hfresh
    exact hfresh.2.2 _ (mem_map_of_mem hf) _ hmem rfl
  have hsub : v.files.Sublist st.addedFiles := by
    rw [h.files_eq]
    exact filter_sublist
  have hsorted : Increasing fileKey (v.install edit).files := by
    apply (sorted_files_saveTo (h.files_increasing.sublist hsub) _ _).1
    · rw [addedFiles_apply]
      exact increasing_insertAll _ Pairwise.nil
    · have hp := (hnew.append_left v.files).map (·.number)
      exact hp.nodup_iff.mpr (hfresh.sublist ((hsub.append_right _).map _))
  apply increasing_ext hsorted
  · exact (increasing_insertAll _ h.files_increasing).sublist filter_sublist
  · intro f
    rw [install, mem_files_saveTo, hnew.mem_iff, deletedFiles_apply, mem_filter, hperm.mem_iff,
      mem_append, h.files_eq, mem_filter]
    simp only [LevelState.empty, Finset.empty_union, Finset.mem_sdiff, Finset.mem_union,
      mem_toFinset, decide_eq_true_eq]
    have hkept := hold f
    have hadded : f ∈ edit.newFiles → f.number ∈ edit.newFiles.map (·.number) := mem_map_of_mem
    tauto

section

variable (h : Replays v st) (hdeleted : edit.deletedGuards = ∅)
include h hdeleted

/-- Guards, in memory and collected, after an edit. -/
theorem Replays.guards_logAndApply : guardUserKeys (v.install edit).guards =
      userKeys (insertAll guardOrder st.addedGuards edit.newGuards) := by
  have hbase : (guardUserKeys v.guards).Pairwise (· < ·) := by
    rw [h.guards_eq, ← increasing_guardOrder_iff]
    exact h.guards_increasing
  obtain ⟨hinc, hmem⟩ := guardUserKeys_install hdeleted hbase
  apply Pairwise.eq_of_mem_iff hinc
  · exact increasing_guardOrder_iff.mp (increasing_insertAll _ h.guards_increasing)
  · intro u
    rw [hmem, mem_userKeys_insertAll, h.guards_eq]
    exact or_comm

/-- Complete guards, in memory and collected, after an edit. -/
theorem Replays.completeGuards_logAndApply (u : K) :
    u ∈ userKeys (v.install edit).completeGuards ↔
      u ∈ userKeys (st.apply (loggedLevelEdit v edit)).addedCompleteGuards := by
  have hmemory : u ∈ userKeys (v.install edit).completeGuards ↔
      u ∈ userKeys v.completeGuards ∨ u ∈ userKeys edit.newCompleteGuards :=
    mem_completeGuards_install hdeleted
  have hlogged : u ∈ userKeys (st.apply (loggedLevelEdit v edit)).addedCompleteGuards ↔
      (u ∈ userKeys edit.newCompleteGuards ∨
        u ∈ userKeys (v.completeGuards.drop v.numCompleteGuards)) ∨
      u ∈ userKeys st.addedCompleteGuards := by
    rw [addedCompleteGuards_apply, mem_userKeys_insertAll]
    simp only [loggedLevelEdit, userKeys, map_append, mem_append, mem_map,
      mem_completeGuardsForEdit]
  have hsplit : u ∈ userKeys v.completeGuards ↔
      u ∈ userKeys v.savedGuards ∨ u ∈ userKeys (v.completeGuards.drop v.numCompleteGuards) := by
    conv_lhs => rw [← take_append_drop v.numCompleteGuards v.completeGuards]
    rw [userKeys, map_append, mem_append]
    rfl
  have hsaved := h.saved_collected u
  have hknown := h.collected_known u
  rw [hsplit] at hknown
  rw [hmemory, hlogged, hsplit]
  clear hmemory hlogged hsplit
  tauto

/-- **An edit keeps the relation, and after it the complete guards agree.** -/
theorem Replays.logAndApply (hfresh : ((st.addedFiles ++ edit.newFiles).map (·.number)).Nodup) :
    Replays (v.install edit) (st.apply (loggedLevelEdit v edit)) ∧
      CompleteGuardsAgree (v.install edit)
        (st.apply (loggedLevelEdit v edit)) := by
  have hcomplete := h.completeGuards_logAndApply hdeleted
  have hsaved : (v.install edit).savedGuards =
      (v.install edit).completeGuards := by
    simp [savedGuards, install]
  constructor
  · constructor
    · rw [h.files_logAndApply hfresh, addedFiles_apply, deletedFiles_apply]
      rfl
    · rw [addedFiles_apply]
      exact increasing_insertAll _ h.files_increasing
    · rw [addedFiles_apply]
      exact ((insertAll_perm (nodup_fileKey hfresh)).map _).nodup_iff.mpr hfresh
    · rw [h.guards_logAndApply hdeleted, addedGuards_apply]
      rfl
    · rw [addedGuards_apply]
      exact increasing_insertAll _ h.guards_increasing
    · rw [deletedGuards_apply, h.no_deletedGuards, Finset.empty_union]
      exact hdeleted
    · intro u hu
      rw [hsaved] at hu
      exact (hcomplete u).mp hu
    · intro u hu
      exact (hcomplete u).mpr hu
  · intro u
    rw [hsaved]
    exact hcomplete u

end

omit [LinearOrder K] in
theorem savedGuards_pushGuards (hnum : v.numCompleteGuards ≤ v.completeGuards.length)
    (guards : List (InternalKey K)) : (v.pushGuards guards).savedGuards = v.savedGuards := by
  simp only [savedGuards, LevelVersion.pushGuards]
  exact take_append_of_le_length hnum

theorem Replays.pushGuards (h : Replays v st) (hnum : v.numCompleteGuards ≤ v.completeGuards.length)
    (guards : List (InternalKey K)) : Replays (v.pushGuards guards) st := by
  refine { h with saved_collected := ?_, collected_known := ?_ }
  · rw [savedGuards_pushGuards hnum]
    exact h.saved_collected
  · intro u hu
    have := h.collected_known u hu
    simp only [userKeys, LevelVersion.pushGuards, map_append, mem_append]
    exact .inl this

/-- **Saving what was collected on top of the empty level gives the level back.** -/
theorem Replays.saveTo (h : Replays v st) (hagree : CompleteGuardsAgree v st) :
    (saveTo LevelVersion.empty st).files = v.files ∧
      guardUserKeys (saveTo LevelVersion.empty st).guards = guardUserKeys v.guards ∧
      ∀ u, u ∈ userKeys (saveTo LevelVersion.empty st).completeGuards ↔
        u ∈ userKeys v.savedGuards := by
  refine ⟨?_, ?_, ?_⟩
  · rw [files_saveTo, h.files_eq]
    simp [LevelVersion.empty]
  · have hempty : (guardUserKeys (LevelVersion.empty : LevelVersion K).guards).Pairwise (· < ·) :=
      Pairwise.nil
    obtain ⟨hinc, hmem⟩ := guardUserKeys_saveTo_spec h.no_deletedGuards hempty h.guards_increasing
    rw [h.guards_eq]
    apply Pairwise.eq_of_mem_iff hinc (increasing_guardOrder_iff.mp h.guards_increasing)
    intro u
    rw [hmem]
    simp [LevelVersion.empty, guardUserKeys, userKeys]
  · intro u
    rw [hagree, completeGuards_saveTo]
    refine (mem_savedCompleteGuards h.no_deletedGuards).trans ?_
    simp [LevelVersion.empty, userKeys]

/-- The numbers and keys of a version set fit their machine types; files and guards
are encoded only before there is a manifest. -/
structure VersionSet.Representable (vs : VersionSet K) : Prop where
  nextFileNumber : vs.nextFileNumber < 2 ^ 64
  lastSequence : vs.lastSequence < 2 ^ 64
  logNumber : vs.logNumber < 2 ^ 64
  prevLogNumber : vs.prevLogNumber < 2 ^ 64
  compactPointer : ∀ level, ∀ k ∈ vs.compactPointer level, k.Valid
  completeGuards : ∀ level, ∀ g ∈ (vs.current level).completeGuards, g.Valid
  files : vs.descriptorLog = none → ∀ level, ∀ f ∈ (vs.current level).files, f.Representable
  guards : vs.descriptorLog = none → ∀ level, ∀ g ∈ (vs.current level).guards, g.guardKey.Valid

/-- The arguments of a call fit their machine types. -/
def VersionSet.Action.Representable : VersionSet.Action K → Prop
  | .logAndApply edit pushed =>
      edit.Representable ∧ ∀ level, ∀ g ∈ pushed level, g.Valid
  | .addToCompleteGuards _ guard => guard.Valid
  | .newFileNumber => True
  | .reuseFileNumber number => number < 2 ^ 64
  | .markFileNumberUsed number => number < 2 ^ 64
  | .setLastSequence sequence => sequence < 2 ^ 64

/-- An edit names no other comparator, and it deletes no guard. -/
def VersionSet.Action.WellFormed (comparator : List UInt8) : VersionSet.Action K → Prop
  | .logAndApply edit _ =>
      (∀ name ∈ edit.comparator, name = comparator) ∧ edit.deletedGuards = fun _ => none
  | _ => True

theorem u64_lt (n : Nat) : u64 n < 2 ^ 64 := by
  unfold u64
  exact Nat.mod_lt _ (by norm_num)

variable {pointers : Level → Option (InternalKey K)} {edit : Edit K}

omit [LinearOrder K] in
theorem valid_applyCompactPointers (hpointers : ∀ level, ∀ k ∈ pointers level, k.Valid)
    (hedit : ∀ p ∈ edit.compactPointers, p.2.Valid) :
    ∀ level, ∀ k ∈ applyCompactPointers pointers edit level, k.Valid := by
  unfold applyCompactPointers
  generalize edit.compactPointers = ps at hedit
  induction ps generalizing pointers with
  | nil => exact hpointers
  | cons p ps ih =>
    apply ih
    · refine (forall_update_iff pointers fun _ o => ∀ k ∈ o, k.Valid).mpr ⟨?_, ?_⟩
      · simpa using hedit p mem_cons_self
      · exact fun level _ => hpointers level
    · exact fun q hq => hedit q (mem_cons_of_mem _ hq)

variable {vs : VersionSet K}

omit [LinearOrder K] in
theorem getD_lt {o : Option Nat} {n bound : Nat} (ho : ∀ m ∈ o, m < bound) (hn : n < bound) :
    o.getD n < bound := by
  cases o with
  | none => exact hn
  | some m => exact ho m rfl

theorem representable_logged (hvs : vs.Representable) (hedit : edit.Representable) :
    ((edit.setNumbers vs).addCompleteGuardsFrom vs.current).Representable := by
  refine { hedit with
    logNumber := ?_, prevLogNumber := ?_, nextFileNumber := ?_, lastSequence := ?_
    newCompleteGuards := ?_ }
  · rintro _ ⟨⟩
    exact getD_lt hedit.logNumber hvs.logNumber
  · rintro _ ⟨⟩
    exact getD_lt hedit.prevLogNumber hvs.prevLogNumber
  · rintro _ ⟨⟩
    exact hvs.nextFileNumber
  · rintro _ ⟨⟩
    exact hvs.lastSequence
  · intro level g hg
    obtain hg | hg := mem_append.mp hg
    · exact hedit.newCompleteGuards level g hg
    · exact hvs.completeGuards level g
        (mem_of_mem_drop ((mem_completeGuardsForEdit _).mp hg))

omit [LinearOrder K] in
theorem representable_snapshot (hvs : vs.Representable) (hlog : vs.descriptorLog = none)
    {comparator : List UInt8} (hcomparator : comparator.length < 2 ^ 32)
    (hpointers : ∀ level, ∀ k ∈ pointers level, k.Valid) :
    (snapshotEdit comparator pointers vs.current).Representable := by
  refine { representable_clear with
    comparator := ?_, compactPointers := ?_, newFiles := ?_, newGuards := ?_
    newCompleteGuards := hvs.completeGuards }
  · rintro _ ⟨⟩
    exact hcomparator
  · intro p hp
    have hmem : p ∈ byLevel fun level => (pointers level).toList := hp
    exact hpointers p.1 p.2 (Option.mem_toList.mp (mem_byLevel.mp hmem))
  · intro p hp
    have hmem : p ∈ byLevel fun level => (vs.current level).files := hp
    exact hvs.files hlog p.1 p.2 (mem_byLevel.mp hmem)
  · intro level key hkey
    obtain ⟨g, hg, rfl⟩ := mem_map.mp hkey
    exact hvs.guards hlog level g hg

theorem subset_maybeAddGuards (deleted : Finset (InternalKey K)) (last : Option K)
    (gs : List (InternalKey K)) : maybeAddGuards deleted last gs ⊆ gs := by
  induction gs generalizing last with
  | nil => simp [maybeAddGuards]
  | cons g gs ih =>
    rw [maybeAddGuards]
    split_ifs
    · exact subset_cons_of_subset g (ih last)
    · exact subset_cons_of_subset g (ih last)
    · exact cons_subset_cons g (ih _)

theorem mem_of_mem_savedCompleteGuards {base : LevelVersion K}
    {g : InternalKey K} (h : g ∈ savedCompleteGuards base st) :
    g ∈ base.completeGuards ∨ g ∈ st.addedCompleteGuards := by
  unfold savedCompleteGuards at h
  split_ifs at h
  · exact .inr (mem_of_mem_filter h)
  · obtain h | h := (mem_merge _ _).mp (subset_maybeAddGuards _ _ _ h)
    · exact .inl (mem_of_mem_take h)
    · obtain h | h := mem_of_mem_insertAll h
      · exact .inr h
      · exact .inl (mem_of_mem_drop h)

variable (codec : KeyCodec K) (comparator : List UInt8)

/-- The numbers of the files that a call adds at a level. -/
def VersionSet.Action.newNumbers (level : Level) : VersionSet.Action K → List Nat
  | .logAndApply edit _ => (edit.level level).newFiles.map (·.number)
  | _ => []

/-- What holds in every state of a run, where `used` are the file numbers that the
levels have used so far. -/
inductive VersionSet.Tracked (vs : VersionSet K) (used : Level → List Nat) : Prop
  | unlogged
      (hlog : vs.descriptorLog = none)
      (hsorted : ∀ level, (vs.current level).Sorted)
      (hused : ∀ level, (used level).Perm ((vs.current level).files.map (·.number)))
  | logged
      (records : List (List UInt8))
      (r : Recovery K)
      (hlog : vs.descriptorLog = some records)
      (hrecover : recoverRecords codec comparator Recovery.start records = .ok r)
      (hcounters : r.nextFile.isSome ∧ r.logNumber.isSome ∧ r.lastSequence.isSome)
      (hnum : ∀ level,
        (vs.current level).numCompleteGuards ≤ (vs.current level).completeGuards.length)
      (hlevels : ∀ level, Replays (vs.current level) (r.builder level) ∧
        CompleteGuardsAgree (vs.current level) (r.builder level))
      (hused : ∀ level, (used level).Perm ((r.builder level).addedFiles.map (·.number)))

variable {records : List (List UInt8)}

theorem recoverRecords_append {r r' : Recovery K}
    (hrecords : recoverRecords codec comparator r records = .ok r') (hedit : edit.Representable)
    (hname : ∀ name ∈ edit.comparator, name = comparator) :
    recoverRecords codec comparator r (records ++ [edit.encodeTo codec.format]) = .ok (r'.apply edit) := by
  have hall : edit.comparator.all (fun name => decide (name = comparator)) = true := by
    cases h : edit.comparator with
    | none => rfl
    | some name => simpa using hname name h
  induction records generalizing r with
  | nil =>
    obtain rfl : r = r' := by simpa [recoverRecords] using hrecords
    simp [recoverRecords, decodeFrom_encodeTo codec.format hedit, hall]
  | cons record records ih =>
    rw [cons_append, recoverRecords]
    rw [recoverRecords] at hrecords
    split at hrecords
    · cases hrecords
    · split_ifs at hrecords ⊢ with hsame
      · exact ih hrecords

theorem filterMap_byLevel {α : Type} (table : Level → List α) (level : Level) :
    (byLevel table).filterMap (fun p => if p.1 = level then some p.2 else none) = table level := by
  have hlevels : ∀ levels : List Level, levels.Nodup →
      levels.flatMap (fun l => if l = level then table l else []) =
        if level ∈ levels then table level else [] := by
    intro levels
    induction levels with
    | nil =>
      intro _
      rfl
    | cons l levels ih =>
      intro hnodup
      obtain ⟨hnew, hrest⟩ := nodup_cons.mp hnodup
      rw [flatMap_cons, ih hrest]
      by_cases heq : l = level
      · subst heq
        simp [hnew]
      · simp [heq, Ne.symm heq]
  have hone : ∀ l : Level, ((table l).map (Prod.mk l)).filterMap
      (fun p => if p.1 = level then some p.2 else none) = if l = level then table l else [] := by
    intro l
    rw [filterMap_map]
    by_cases heq : l = level <;> simp [heq]
  rw [byLevel, filterMap_flatMap]
  simp only [hone]
  rw [hlevels _ (nodup_finRange _), if_pos (mem_finRange level)]

variable {vs vs' : VersionSet K} {used : Level → List Nat} {r : Recovery K}

/-- What `LogAndApply` leaves behind, given what recovery reads from the records
that come before the new one. -/
theorem tracked_logAndApply (hvs : vs.Representable) (hedit : edit.Representable)
    (hname : ∀ name ∈ edit.comparator, name = comparator)
    (hdeleted : edit.deletedGuards = fun _ => none)
    (hrecover : recoverRecords codec comparator Recovery.start records = .ok r)
    (hlevels : ∀ level, Replays (vs.current level) (r.builder level))
    (hused : ∀ level, (used level).Perm ((r.builder level).addedFiles.map (·.number)))
    (hfresh : ∀ level, (used level ++ (edit.level level).newFiles.map (·.number)).Nodup)
    (pushed : Level → List (InternalKey K)) (hcurrent : vs'.current = fun level =>
      ((vs.current level).install (edit.level level)).pushGuards (pushed level))
    (hlog : vs'.descriptorLog = some (records ++
      [((edit.setNumbers vs).addCompleteGuardsFrom vs.current).encodeTo codec.format])) :
    vs'.Tracked codec comparator
      (fun level => used level ++ (edit.level level).newFiles.map (·.number)) := by
  have hdeletedLevel : ∀ level, (edit.level level).deletedGuards = ∅ := by
    intro level
    simp [VersionEdit.level, hdeleted]
  have hfreshLevel : ∀ level,
      (((r.builder level).addedFiles ++ (edit.level level).newFiles).map (·.number)).Nodup := by
    intro level
    rw [map_append]
    exact ((hused level).append_right _).nodup_iff.mp (hfresh level)
  have hstep := fun level => (hlevels level).logAndApply (hdeletedLevel level) (hfreshLevel level)
  have hnum : ∀ level, ((vs.current level).install (edit.level level)).numCompleteGuards ≤
      ((vs.current level).install (edit.level level)).completeGuards.length := by
    intro level
    simp [install]
  refine .logged _ _ hlog (recoverRecords_append codec comparator hrecover
    (representable_logged hvs hedit) hname) ?_ ?_ ?_ ?_
  · simp [Recovery.apply, VersionEdit.setNumbers, VersionEdit.addCompleteGuardsFrom]
  · intro level
    rw [hcurrent]
    simpa [LevelVersion.pushGuards] using Nat.le_add_right_of_le (hnum level)
  · intro level
    rw [hcurrent]
    refine ⟨(hstep level).1.pushGuards (hnum level) (pushed level), ?_⟩
    intro u
    rw [savedGuards_pushGuards (hnum level)]
    exact (hstep level).2 u
  · intro level
    have hperm := (insertAll_perm (nodup_fileKey (hfreshLevel level))).map (·.number)
    rw [map_append] at hperm
    have hadded : ((r.apply ((edit.setNumbers vs).addCompleteGuardsFrom vs.current)).builder
        level).addedFiles =
          insertAll fileKey (r.builder level).addedFiles (edit.level level).newFiles := by
      simp only [Recovery.apply, addedFiles_apply]
      rfl
    rw [hadded]
    exact ((hused level).append_right _).trans hperm.symm

/-- Pushing complete guards keeps track of the manifest. -/
theorem VersionSet.Tracked.pushGuards (h : vs.Tracked codec comparator used)
    {pushed : Level → List (InternalKey K)}
    (hcurrent : ∀ level, vs'.current level = (vs.current level).pushGuards (pushed level))
    (hlog : vs'.descriptorLog = vs.descriptorLog) : vs'.Tracked codec comparator used := by
  cases h with
  | unlogged hnone hsorted hused =>
    refine .unlogged (hlog.trans hnone) ?_ ?_
    · intro level
      rw [hcurrent]
      exact ⟨(hsorted level).guards_increasing, (hsorted level).files_increasing,
        (hsorted level).numbers_nodup⟩
    · intro level
      rw [hcurrent]
      exact hused level
  | logged records r hsome hrecover hcounters hnum hlevels hused =>
    refine .logged records r (hlog.trans hsome) hrecover hcounters ?_ ?_ hused
    · intro level
      rw [hcurrent]
      simp only [LevelVersion.pushGuards, length_append]
      exact (hnum level).trans (Nat.le_add_right _ _)
    · intro level
      rw [hcurrent]
      refine ⟨(hlevels level).1.pushGuards (hnum level) _, ?_⟩
      intro u
      rw [savedGuards_pushGuards (hnum level)]
      exact (hlevels level).2 u

/-- A call that leaves the levels and the manifest alone keeps track of it. -/
theorem VersionSet.Tracked.frame (h : vs.Tracked codec comparator used)
    (hcurrent : vs'.current = vs.current) (hlog : vs'.descriptorLog = vs.descriptorLog) :
    vs'.Tracked codec comparator used := by
  have hpushed : ∀ level, vs'.current level = (vs.current level).pushGuards [] := by
    intro level
    rw [hcurrent]
    simp [LevelVersion.pushGuards]
  exact h.pushGuards codec comparator hpushed hlog

variable {action : VersionSet.Action K}

/-- One call keeps track of the manifest. -/
theorem tracked_step (hcomparator : comparator.length < 2 ^ 32) (hvs : vs.Representable)
    (h : vs.Tracked codec comparator used) (hrep : action.Representable)
    (haction : action.WellFormed comparator)
    (hfresh : ∀ level, (used level ++ action.newNumbers level).Nodup)
    (hstep : vs.step codec comparator action = some vs') :
    vs'.Tracked codec comparator (fun level => used level ++ action.newNumbers level) := by
  cases action with
  | logAndApply edit pushed =>
    obtain ⟨hedit, -⟩ := hrep
    obtain ⟨hname, hdeleted⟩ := haction
    simp only [VersionSet.step, VersionSet.logAndApply] at hstep
    split_ifs at hstep with haccepts
    obtain rfl := Option.some.inj hstep
    cases h with
    | unlogged hnone hsorted hused =>
      -- The records before the edit are the snapshot alone.
      have hnil : recoverRecords codec comparator (Recovery.start : Recovery K) [] =
          .ok Recovery.start := rfl
      have hsnapshot := recoverRecords_append codec comparator hnil
        (representable_snapshot hvs hnone hcomparator
          (valid_applyCompactPointers hvs.compactPointer hedit.compactPointers))
        (by
          intro name hmem
          simpa [snapshotEdit, eq_comm] using hmem)
      have hbuilder : ∀ level, ((Recovery.start.apply (snapshotEdit comparator
          (applyCompactPointers vs.compactPointer edit) vs.current)).builder level) =
            LevelState.empty.apply (snapshotLevelEdit (vs.current level)) := by
        intro level
        simp [Recovery.apply, Recovery.start, VersionEdit.level, snapshotEdit, VersionEdit.clear,
          snapshotLevelEdit, filterMap_byLevel]
      refine tracked_logAndApply codec comparator hvs hedit hname hdeleted hsnapshot
        ?_ ?_ hfresh pushed rfl ?_
      · intro level
        rw [hbuilder]
        exact replays_snapshot (hsorted level)
      · intro level
        rw [hbuilder, addedFiles_apply]
        have hfiles : insertAll fileKey LevelState.empty.addedFiles
            (snapshotLevelEdit (vs.current level)).newFiles = (vs.current level).files :=
          insertAll_nil (hsorted level).files_increasing
        rw [hfiles]
        exact hused level
      · simp only [hnone]
        rfl
    | logged records r hsome hrecover hcounters hnum hlevels hused =>
      refine tracked_logAndApply codec comparator hvs hedit hname hdeleted hrecover
        (fun level => (hlevels level).1) hused hfresh pushed rfl ?_
      simp only [hsome]
  | addToCompleteGuards level guard =>
    obtain rfl := Option.some.inj hstep
    simp only [VersionSet.Action.newNumbers, append_nil]
    have hpushed : ∀ level', update vs.current level
          ((vs.current level).pushGuards [guard]) level' =
        (vs.current level').pushGuards (update (fun _ => []) level [guard] level') := by
      intro level'
      by_cases heq : level' = level
      · subst heq
        simp
      · simp [heq, LevelVersion.pushGuards]
    exact h.pushGuards codec comparator hpushed rfl
  | newFileNumber | reuseFileNumber | markFileNumberUsed | setLastSequence =>
    obtain rfl := Option.some.inj hstep
    simp only [VersionSet.Action.newNumbers, append_nil]
    exact h.frame codec comparator rfl rfl

theorem representable_step (hvs : vs.Representable) (haction : action.Representable)
    (hstep : vs.step codec comparator action = some vs') : vs'.Representable := by
  cases action with
  | logAndApply edit pushed =>
    obtain ⟨hedit, hpushed⟩ := haction
    have hlogged := representable_logged hvs hedit
    simp only [VersionSet.step, VersionSet.logAndApply] at hstep
    split_ifs at hstep with haccepts
    obtain rfl := Option.some.inj hstep
    exact
      { __ := hvs
        logNumber := hlogged.logNumber _ rfl
        prevLogNumber := hlogged.prevLogNumber _ rfl
        compactPointer :=
          valid_applyCompactPointers hvs.compactPointer hedit.compactPointers
        completeGuards := by
          intro level g hg
          simp only [LevelVersion.pushGuards, install, completeGuards_saveTo,
            mem_append] at hg
          obtain hg | hg := hg
          · obtain hg | hg := mem_of_mem_savedCompleteGuards hg
            · exact hvs.completeGuards level g hg
            · rw [addedCompleteGuards_apply] at hg
              obtain hg | hg := mem_of_mem_insertAll hg
              · cases hg
              · exact hedit.newCompleteGuards level g hg
          · exact hpushed level g hg
        files := by simp
        guards := by simp }
  | addToCompleteGuards level guard =>
    obtain rfl := Option.some.inj hstep
    -- Only the complete guards of the level change, by the pushed one.
    have hupdate := forall_update_iff vs.current
      (a := level) (b := (vs.current level).pushGuards [guard])
    refine { hvs with completeGuards := ?_, files := ?_, guards := ?_ }
    · refine (hupdate fun _ v => ∀ g ∈ v.completeGuards, g.Valid).mpr ⟨?_, ?_⟩
      · intro g hg
        obtain hg | hg := mem_append.mp hg
        · exact hvs.completeGuards level g hg
        · obtain rfl := mem_singleton.mp hg
          exact haction
      · exact fun level' _ => hvs.completeGuards level'
    · intro hnone
      exact (hupdate fun _ v => ∀ f ∈ v.files, f.Representable).mpr
        ⟨hvs.files hnone level, fun level' _ => hvs.files hnone level'⟩
    · intro hnone
      exact (hupdate fun _ v => ∀ g ∈ v.guards, g.guardKey.Valid).mpr
        ⟨hvs.guards hnone level, fun level' _ => hvs.guards hnone level'⟩
  | newFileNumber =>
    obtain rfl := Option.some.inj hstep
    exact { hvs with nextFileNumber := u64_lt _ }
  | reuseFileNumber number =>
    obtain rfl := Option.some.inj hstep
    refine { hvs with nextFileNumber := ?_ }
    simp only
    split_ifs
    · exact haction
    · exact hvs.nextFileNumber
  | markFileNumberUsed number =>
    obtain rfl := Option.some.inj hstep
    refine { hvs with nextFileNumber := ?_ }
    simp only
    split_ifs
    · exact u64_lt _
    · exact hvs.nextFileNumber
  | setLastSequence sequence =>
    obtain rfl := Option.some.inj hstep
    refine { hvs with lastSequence := ?_ }
    simp only
    split_ifs
    · exact haction
    · exact hvs.lastSequence

/-- A whole run keeps track of the manifest. -/
theorem tracked_run (hcomparator : comparator.length < 2 ^ 32)
    (actions : List (VersionSet.Action K)) (hvs : vs.Representable)
    (h : vs.Tracked codec comparator used) (hrep : ∀ action ∈ actions, action.Representable)
    (hactions : ∀ action ∈ actions, action.WellFormed comparator)
    (hfresh : ∀ level, (used level ++ actions.flatMap (VersionSet.Action.newNumbers level)).Nodup)
    (hrun : vs.run codec comparator actions = some vs') :
    ∃ used', vs'.Tracked codec comparator used' := by
  induction actions generalizing vs used with
  | nil =>
    obtain rfl : vs = vs' := by simpa [VersionSet.run] using hrun
    exact ⟨used, h⟩
  | cons action actions ih =>
    rw [VersionSet.run, foldlM_cons] at hrun
    obtain ⟨mid, hstep, hrest⟩ := Option.bind_eq_some_iff.mp hrun
    have hrepStep := hrep action mem_cons_self
    have haction := hactions action mem_cons_self
    have hfreshStep : ∀ level, (used level ++ action.newNumbers level).Nodup := by
      intro level
      have hall := hfresh level
      rw [flatMap_cons] at hall
      exact hall.sublist ((sublist_append_left _ _).append_left _)
    exact ih (representable_step codec comparator hvs hrepStep hstep)
      (tracked_step codec comparator hcomparator hvs h hrepStep haction hfreshStep hstep)
      (fun a ha => hrep a (mem_cons_of_mem _ ha))
      (fun a ha => hactions a (mem_cons_of_mem _ ha))
      (by
        intro level
        have := hfresh level
        rwa [flatMap_cons, ← append_assoc] at this)
      hrest

theorem recover_eq (hrecover : recoverRecords codec comparator Recovery.start records = .ok r)
    (hcounters : r.nextFile.isSome ∧ r.logNumber.isSome ∧ r.lastSequence.isSome) :
    ∃ recovered, recover codec comparator records = .ok recovered ∧
      recovered.current = fun level => saveTo LevelVersion.empty (r.builder level) := by
  obtain ⟨hnext, hnumber, hsequence⟩ := hcounters
  obtain ⟨nextFile, hnext⟩ := Option.isSome_iff_exists.mp hnext
  obtain ⟨number, hnumber⟩ := Option.isSome_iff_exists.mp hnumber
  obtain ⟨sequence, hsequence⟩ := Option.isSome_iff_exists.mp hsequence
  rw [recover, hrecover]
  simp only [Recovery.finish, hnext, hnumber, hsequence]
  exact ⟨_, rfl, rfl⟩

/-- **Recovery from the manifest of a run gives back the files, the guards and the
saved complete guards that the run has left in memory.** -/
theorem recover_run
    (hcomparator : comparator.length < 2 ^ 32)
    (vs vs' : VersionSet K)
    (hlog : vs.descriptorLog = none)
    (hvs : vs.Representable)
    (hsorted : ∀ level, (vs.current level).Sorted)
    (actions : List (VersionSet.Action K))
    (hrep : ∀ action ∈ actions, action.Representable)
    (hactions : ∀ action ∈ actions, action.WellFormed comparator)
    (hfresh : ∀ level, ((vs.current level).files.map (·.number) ++
      actions.flatMap (VersionSet.Action.newNumbers level)).Nodup)
    (hrun : vs.run codec comparator actions = some vs')
    (records : List (List UInt8))
    (hrecords : vs'.descriptorLog = some records) :
    ∃ recovered, recover codec comparator records = .ok recovered ∧ ∀ level,
        (recovered.current level).files = (vs'.current level).files ∧
        guardUserKeys (recovered.current level).guards = guardUserKeys (vs'.current level).guards ∧
        ∀ u, u ∈ userKeys (recovered.current level).completeGuards ↔
          u ∈ userKeys (vs'.current level).savedGuards := by
  obtain ⟨used, htracked⟩ := tracked_run codec comparator hcomparator actions hvs
    (.unlogged hlog hsorted fun level => Perm.refl _) hrep hactions hfresh hrun
  cases htracked with
  | unlogged hnone =>
    rw [hnone] at hrecords
    cases hrecords
  | logged records' r hsome hrecover hcounters hnum hlevels =>
    obtain rfl := Option.some.inj (hsome.symm.trans hrecords)
    obtain ⟨recovered, hok, hcurrent⟩ := recover_eq codec comparator hrecover hcounters
    refine ⟨recovered, hok, ?_⟩
    intro level
    rw [hcurrent]
    exact (hlevels level).1.saveTo (hlevels level).2

/-- User keys of one byte. -/
def byteCodec : KeyCodec (Fin 256) where
  encode k := [UInt8.ofNat k]
  decode s := Fin.ofNat 256 (s.headD 0).toNat
  maxSize := 0
  decode_encode := by
    intro k
    apply Fin.ext
    simp only [List.headD_cons, UInt8.toNat_ofNat', Fin.ofNat]
    omega
  length_encode_lt := by
    intro k
    simp

def exampleGuard : InternalKey (Fin 256) :=
  { userKey := 1, sequence := 5, type := .kTypeValue }

def exampleSet : VersionSet (Fin 256) :=
  { current := fun _ => LevelVersion.empty
    compactPointer := fun _ => none
    nextFileNumber := 10
    manifestFileNumber := 1
    lastSequence := 20
    logNumber := 3
    prevLogNumber := 0
    descriptorLog := none }

/-- An edit that adds a guard to the first level, and replaces a file by the next one. -/
def exampleEdit (number : Nat) : Edit (Fin 256) :=
  { VersionEdit.clear with
    deletedFiles := {toLex (0, number)}
    newFiles := [(0, ⟨number + 1, 100, exampleGuard, exampleGuard⟩)]
    newGuards := fun level => if level = 0 then [exampleGuard] else [] }

/-- Two edits, with a complete guard in between. -/
def exampleActions : List (VersionSet.Action (Fin 256)) :=
  [.logAndApply (exampleEdit 6) fun _ => [], .addToCompleteGuards 0 exampleGuard,
    .logAndApply (exampleEdit 7) fun _ => []]

theorem exampleGuard_valid : exampleGuard.Valid := by
  change 5 ≤ kMaxSequenceNumber
  decide

theorem exampleSet_representable : exampleSet.Representable := by
  constructor
  all_goals simp [exampleSet, LevelVersion.empty]

theorem exampleEdit_representable {number : Nat} (h : number + 1 < 2 ^ 64) :
    (exampleEdit number).Representable := by
  constructor
  all_goals simp [exampleEdit, VersionEdit.clear, FileOf.Representable, exampleGuard_valid]
  all_goals omega

theorem recover_run_of_exampleEdit : ∃ vs' records recovered,
      exampleSet.run byteCodec [] exampleActions = some vs' ∧
      vs'.descriptorLog = some records ∧ records.length = 3 ∧
      recover byteCodec [] records = .ok recovered ∧
      ∀ level, (recovered.current level).files = (vs'.current level).files ∧
        guardUserKeys (recovered.current level).guards = guardUserKeys (vs'.current level).guards ∧
        ∀ u, u ∈ userKeys (recovered.current level).completeGuards ↔
          u ∈ userKeys (vs'.current level).savedGuards := by
  rcases (⟨_, rfl, _, rfl, rfl⟩ : ∃ vs', exampleSet.run byteCodec [] exampleActions = some vs' ∧
    ∃ records, vs'.descriptorLog = some records ∧ records.length = 3) with
    ⟨vs', hrun, records, hrecords, hlength⟩
  have hedit : ∀ n ∈ [6, 7], (exampleEdit n).Representable :=
    fun n hn => exampleEdit_representable (by simp at hn; omega)
  rcases recover_run byteCodec [] (by simp) exampleSet vs' rfl exampleSet_representable
    (fun _ => ⟨Pairwise.nil, Pairwise.nil, Pairwise.nil⟩) exampleActions
    (by
      simp [exampleActions, VersionSet.Action.Representable, exampleGuard_valid, hedit])
    (by
      simp [exampleActions, VersionSet.Action.WellFormed, exampleEdit, VersionEdit.clear])
    (by
      intro level
      by_cases hzero : 0 = level <;> simp [exampleSet, LevelVersion.empty, exampleActions,
        VersionSet.Action.newNumbers, VersionEdit.level, exampleEdit, hzero])
    hrun records hrecords with ⟨recovered, hok, hsame⟩
  exact ⟨vs', records, recovered, hrun, hrecords, hlength, hok, hsame⟩

end HotTLBApps.PebblesDB
