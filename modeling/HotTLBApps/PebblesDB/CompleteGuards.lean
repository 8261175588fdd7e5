import HotTLBApps.PebblesDB.ManifestReplay

/-!
# PebblesDB: no complete guard is lost

Writers push complete guards in the order in which the keys come.  `SaveTo` sorts them into
the list of the new version, and `LogAndApply` pushes those that came while the manifest was
written once more.

`VersionSet.guards_step`, `VersionSet.guards_run`: what a call and a run do to the guards.
-/

namespace HotTLBApps.PebblesDB

open OrderedSet List Function LevelVersion

variable {K : Type} [LinearOrder K] {v : LevelVersion K} {edit : LevelEdit K}

/-- The complete guards of the last save stand first, in order. -/
structure LevelVersion.SavedInOrder (v : LevelVersion K) : Prop where
  num_le : v.numCompleteGuards ≤ v.completeGuards.length
  increasing : (userKeys v.savedGuards).Pairwise (· < ·)

/-- Before the place that the search ends at, no guard is below the one before it. -/
theorem not_lt_of_lt_unsortedStart {guards : List (InternalKey K)} {start i : Nat}
    (hstart : start ≤ i + 1) (hi : i + 1 < guards.length) (hlt : i + 1 < unsortedStart guards start) :
    ¬ guards[i + 1].userKey < guards[i].userKey := by
  intro hbelow
  unfold unsortedStart at hlt
  generalize hfind : (range guards.length).find? _ = found at hlt
  cases found with
  | none =>
    have hnone := find?_eq_none.mp hfind (i + 1) (mem_range.mpr hi)
    simp [hstart, hi, hbelow, (Nat.lt_succ_self i).trans hi] at hnone
  | some j =>
    have hbefore := (find?_range_eq_some.mp hfind).2.2 (i + 1) hlt
    simp [hstart, hi, hbelow, (Nat.lt_succ_self i).trans hi] at hbefore

theorem nondecreasing_take_sortedStart (hv : v.SavedInOrder) :
    Nondecreasing guardOrder (v.completeGuards.take (sortedStart v)) := by
  have hinc := increasing_guardOrder_iff.mpr hv.increasing
  rw [Nondecreasing, ← isChain_iff_pairwise, isChain_iff_getElem]
  intro i hi
  simp only [length_take, lt_min_iff] at hi
  simp only [getElem_take]
  by_cases hsaved : i + 1 < v.numCompleteGuards
  · have hlt := pairwise_iff_getElem.mp hinc i (i + 1)
      (by simp [savedGuards]; omega) (by simp [savedGuards]; omega)
      (Nat.lt_succ_self i)
    simp only [savedGuards, getElem_take] at hlt
    exact hlt.le
  · refine not_lt.mp (not_lt_of_lt_unsortedStart ?_ hi.2 hi.1)
    split_ifs <;> omega

theorem userKeys_install (hv : v.SavedInOrder) (hdeleted : edit.deletedGuards = ∅) :
    (userKeys (v.install edit).completeGuards).Pairwise (· < ·) ∧
      ∀ u, u ∈ userKeys (v.install edit).completeGuards ↔
        u ∈ userKeys v.completeGuards ∨ u ∈ userKeys edit.newCompleteGuards := by
  refine ⟨?_, fun u => mem_completeGuards_install hdeleted⟩
  rw [install, completeGuards_saveTo]
  refine increasing_guardOrder_iff.mp ?_
  have hadded : Increasing guardOrder (LevelState.empty.apply edit).addedCompleteGuards := by
    rw [addedCompleteGuards_apply]
    exact increasing_insertAll _ Pairwise.nil
  unfold savedCompleteGuards
  rw [deletedGuards_apply_empty hdeleted]
  split_ifs
  · exact hadded.sublist filter_sublist
  · exact (increasing_maybeAddGuards none (nondecreasing_merge (nondecreasing_take_sortedStart hv)
      (increasing_insertAll _ hadded).nondecreasing) (by simp)).1

theorem savedInOrder_install (hv : v.SavedInOrder) (hdeleted : edit.deletedGuards = ∅) :
    (v.install edit).SavedInOrder where
  num_le := by simp [install]
  increasing := by
    have hkeys := (userKeys_install hv hdeleted).1
    simpa [savedGuards, install] using hkeys

theorem LevelVersion.SavedInOrder.pushGuards (hv : v.SavedInOrder) (guards : List (InternalKey K)) :
    (v.pushGuards guards).SavedInOrder where
  num_le := by
    simp only [LevelVersion.pushGuards, length_append]
    exact hv.num_le.trans (Nat.le_add_right _ _)
  increasing := by
    rw [savedGuards_pushGuards hv.num_le]
    exact hv.increasing

variable (codec : KeyCodec K) (comparator : List UInt8) {vs vs' : VersionSet K}
  {action : VersionSet.Action K} {level : Level}

/-- The user keys of the complete guards that a call brings for a level. -/
def VersionSet.Action.guardKeys (level : Level) : VersionSet.Action K → List K
  | .logAndApply edit pushed => userKeys (edit.newCompleteGuards level ++ pushed level)
  | .addToCompleteGuards l guard => if l = level then [guard.userKey] else []
  | _ => []

/-- An edit deletes no guard. -/
def VersionSet.Action.KeepsGuards : VersionSet.Action K → Prop
  | .logAndApply edit _ => edit.deletedGuards = fun _ => none
  | _ => True

/-- One call keeps the order of the saved guards, and all guards. -/
theorem VersionSet.guards_step (hvs : (vs.current level).SavedInOrder) (haction : action.KeepsGuards)
    (hstep : vs.step codec comparator action = some vs') :
    (vs'.current level).SavedInOrder ∧ ∀ u, u ∈ userKeys (vs'.current level).completeGuards ↔
        u ∈ userKeys (vs.current level).completeGuards ∨ u ∈ action.guardKeys level := by
  cases action with
  | logAndApply edit pushed =>
    simp only [VersionSet.step, VersionSet.logAndApply] at hstep
    split_ifs at hstep with haccepts
    obtain rfl := Option.some.inj hstep
    have hdeleted : (edit.level level).deletedGuards = ∅ := by
      have hnone : edit.deletedGuards = fun _ => none := haction
      simp [VersionEdit.level, hnone]
    have hkeys := (userKeys_install hvs hdeleted).2
    refine ⟨(savedInOrder_install hvs hdeleted).pushGuards _, fun u => ?_⟩
    change u ∈ userKeys (((vs.current level).install (edit.level level)).completeGuards ++
      pushed level) ↔ _
    simp only [userKeys, VersionSet.Action.guardKeys, map_append, mem_append] at hkeys ⊢
    rw [hkeys, or_assoc]
    rfl
  | addToCompleteGuards l guard =>
    obtain rfl := Option.some.inj hstep
    by_cases hl : l = level
    · subst hl
      simp only [update_self]
      exact ⟨hvs.pushGuards _,
        by simp [pushGuards, userKeys, VersionSet.Action.guardKeys]⟩
    · simp only [update_of_ne (Ne.symm hl)]
      exact ⟨hvs, by simp [VersionSet.Action.guardKeys, hl]⟩
  | newFileNumber | reuseFileNumber | markFileNumberUsed | setLastSequence =>
    obtain rfl := Option.some.inj hstep
    exact ⟨hvs, by simp [VersionSet.Action.guardKeys]⟩

theorem VersionSet.guards_run {actions : List (VersionSet.Action K)}
    (hvs : (vs.current level).SavedInOrder) (hactions : ∀ action ∈ actions, action.KeepsGuards)
    (hrun : vs.run codec comparator actions = some vs') : (vs'.current level).SavedInOrder ∧
      ∀ u, u ∈ userKeys (vs'.current level).completeGuards ↔
        u ∈ userKeys (vs.current level).completeGuards ∨
          u ∈ actions.flatMap (VersionSet.Action.guardKeys level) := by
  induction actions generalizing vs with
  | nil =>
    obtain rfl := Option.some.inj hrun
    exact ⟨hvs, by simp⟩
  | cons action actions ih =>
    rw [VersionSet.run, foldlM_cons] at hrun
    obtain ⟨mid, hstep, hrest⟩ := Option.bind_eq_some_iff.mp hrun
    obtain ⟨hmid, hkeys⟩ :=
      VersionSet.guards_step codec comparator hvs (hactions action mem_cons_self) hstep
    obtain ⟨hvs', hkeys'⟩ := ih hmid (fun a ha => hactions a (mem_cons_of_mem _ ha)) hrest
    refine ⟨hvs', fun u => ?_⟩
    rw [hkeys', hkeys, flatMap_cons, mem_append, or_assoc]

/-- **No complete guard is lost.**  A save gives the guards of the base, of its tail and of
the edit in increasing order and puts the tail into the edit, which is the one that `LogAndApply`
logs; along every run a level has the guards that it had and those that came. -/
theorem completeGuards_kept
    (base : Version K)
    (hbase : ∀ level, (base level).SavedInOrder)
    (edit : Edit K)
    (hdeleted : edit.deletedGuards = fun _ => none)
    (vs vs' : VersionSet K)
    (hvs : ∀ level, (vs.current level).SavedInOrder)
    (actions : List (VersionSet.Action K))
    (hactions : ∀ action ∈ actions, action.KeepsGuards)
    (hrun : vs.run codec comparator actions = some vs') :
    (∀ level, (userKeys ((base level).install (edit.level level)).completeGuards).Pairwise (· < ·) ∧
      (∀ u, u ∈ userKeys ((base level).install (edit.level level)).completeGuards ↔
        u ∈ userKeys (base level).completeGuards ∨ u ∈ userKeys (edit.newCompleteGuards level)) ∧
      ((base level).install (edit.level level)).numCompleteGuards =
        ((base level).install (edit.level level)).completeGuards.length ∧
      ∀ g ∈ (base level).completeGuards.drop (base level).numCompleteGuards,
        g ∈ (edit.addCompleteGuardsFrom base).newCompleteGuards level) ∧
    (∀ pushed next, vs.logAndApply codec comparator edit pushed = some next →
      ∃ records, next.descriptorLog = some (records ++
        [((edit.setNumbers vs).addCompleteGuardsFrom vs.current).encodeTo codec.format])) ∧
    ∀ level, (vs'.current level).SavedInOrder ∧
      ∀ u, u ∈ userKeys (vs'.current level).completeGuards ↔
        u ∈ userKeys (vs.current level).completeGuards ∨
          u ∈ actions.flatMap (VersionSet.Action.guardKeys level) := by
  refine ⟨fun level => ?_, ?_, fun level =>
    VersionSet.guards_run codec comparator (hvs level) hactions hrun⟩
  · have hlevel : (edit.level level).deletedGuards = ∅ := by simp [VersionEdit.level, hdeleted]
    obtain ⟨hinc, hkeys⟩ := userKeys_install (hbase level) hlevel
    refine ⟨hinc, hkeys, by simp [install], fun g hg => ?_⟩
    exact mem_append_right _ ((mem_completeGuardsForEdit (base level)).mpr hg)
  · intro pushed next hnext
    simp only [VersionSet.logAndApply] at hnext
    split_ifs at hnext
    obtain rfl := Option.some.inj hnext
    exact ⟨_, rfl⟩

/-- A guard comes, and after it an edit is saved. -/
theorem completeGuards_kept_one :
    ∃ vs', exampleSet.run byteCodec [] [.addToCompleteGuards 0 exampleGuard,
        .logAndApply (exampleEdit 6) fun _ => []] = some vs' ∧
      ∀ u, u ∈ userKeys (vs'.current 0).completeGuards ↔ u = 1 := by
  have hempty : (LevelVersion.empty : LevelVersion (Fin 256)).SavedInOrder :=
    ⟨le_rfl, Pairwise.nil⟩
  refine ⟨_, rfl, fun u => ?_⟩
  have hkept := completeGuards_kept byteCodec [] (fun _ => LevelVersion.empty) (fun _ => hempty)
    (exampleEdit 6) rfl exampleSet _ (fun _ => hempty)
    [.addToCompleteGuards 0 exampleGuard, .logAndApply (exampleEdit 6) fun _ => []]
    (by simp [VersionSet.Action.KeepsGuards, exampleEdit, VersionEdit.clear]) rfl
  rw [(hkept.2.2 0).2 u]
  simp [exampleSet, LevelVersion.empty, userKeys, VersionSet.Action.guardKeys, exampleEdit,
    VersionEdit.clear, exampleGuard]

end HotTLBApps.PebblesDB
