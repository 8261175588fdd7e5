import HotTLBApps.PebblesDB.VersionBuilder

/-!
# PebblesDB: what `Apply` and `SaveTo` compute

One specification lemma for every list of the new level: its files, the user keys
of its guards, the user keys of its complete guards.  The guards are described for
edits that delete no guard; nothing in the code deletes one.
-/

namespace HotTLBApps.PebblesDB

open OrderedSet List

universe u

variable {K : Type u} [LinearOrder K]

@[simp]
theorem files_populate (v : LevelVersion K) : v.populate.files = v.files := by
  unfold LevelVersion.populate
  split <;> rfl

@[simp]
theorem completeGuards_populate (v : LevelVersion K) :
    v.populate.completeGuards = v.completeGuards := by
  unfold LevelVersion.populate
  split <;> rfl

@[simp]
theorem numCompleteGuards_populate (v : LevelVersion K) :
    v.populate.numCompleteGuards = v.numCompleteGuards := by
  unfold LevelVersion.populate
  split <;> rfl

theorem guardKey_foldl_addToGuard (files : List (FileMetaData K)) (g : GuardMetaData K) :
    (files.foldl addToGuard g).guardKey = g.guardKey := by
  induction files generalizing g with
  | nil => rfl
  | cons f files ih =>
    rw [foldl_cons, ih, addToGuard]
    split <;> rfl

variable (guards : List (GuardMetaData K))

theorem guardKey_fillGuards (files : List (FileMetaData K)) :
    (fillGuards guards files).map (·.guardKey) = guards.map (·.guardKey) := by
  fun_induction fillGuards guards files with
  | case1 => rfl
  | case2 g files => simp [guardKey_foldl_addToGuard, clearGuard]
  | case3 g g' gs files ih =>
    rw [map_cons, ih, guardKey_foldl_addToGuard]
    rfl

omit [LinearOrder K] in
theorem guardUserKeys_eq :
    guardUserKeys guards = (guards.map (·.guardKey)).map (·.userKey) := by
  simp [guardUserKeys]

@[simp]
theorem guardKey_populate (v : LevelVersion K) :
    v.populate.guards.map (·.guardKey) = v.guards.map (·.guardKey) := by
  rcases hg : v.guards with _ | ⟨g, gs⟩
  · simp [LevelVersion.populate, hg]
  · rw [← guardKey_fillGuards (g :: gs)
      (v.files.dropWhile fun f => decide (f.largest < g.guardKey))]
    simp only [LevelVersion.populate, hg]

@[simp]
theorem guardUserKeys_populate (v : LevelVersion K) :
    guardUserKeys v.populate.guards = guardUserKeys v.guards := by
  rw [guardUserKeys_eq, guardKey_populate, guardUserKeys_eq]

theorem foldl_addFile (files : List (FileMetaData K)) (st : LevelState K) : files.foldl addFile st =
      { st with
        deletedFiles := st.deletedFiles \ (files.map (·.number)).toFinset
        addedFiles := insertAll fileKey st.addedFiles files } := by
  induction files generalizing st with
  | nil => simp [insertAll]
  | cons f files ih =>
    rw [foldl_cons, ih]
    simp only [addFile, insertAll, foldl_cons, map_cons, toFinset_cons]
    congr 1
    ext n
    simp only [Finset.mem_sdiff, Finset.mem_erase, Finset.mem_insert]
    tauto

section

variable (st : LevelState K) (edit : LevelEdit K)
include st edit

@[simp]
theorem addedFiles_apply :
    (st.apply edit).addedFiles = insertAll fileKey st.addedFiles edit.newFiles := by
  simp [LevelState.apply, foldl_addFile]

@[simp]
theorem deletedFiles_apply : (st.apply edit).deletedFiles =
      (st.deletedFiles ∪ edit.deletedFiles) \ (edit.newFiles.map (·.number)).toFinset := by
  simp [LevelState.apply, foldl_addFile]

@[simp]
theorem deletedGuards_apply :
    (st.apply edit).deletedGuards = st.deletedGuards ∪ edit.deletedGuards := by
  simp [LevelState.apply, foldl_addFile]

@[simp]
theorem addedGuards_apply :
    (st.apply edit).addedGuards = insertAll guardOrder st.addedGuards edit.newGuards := by
  simp [LevelState.apply, foldl_addFile]

@[simp]
theorem addedCompleteGuards_apply : (st.apply edit).addedCompleteGuards =
      insertAll guardOrder st.addedCompleteGuards edit.newCompleteGuards := by
  simp [LevelState.apply, foldl_addFile]

end

/-- Without deleted guards, only guards with the user key of the one before are
skipped. -/
theorem mem_maybeAddGuards (last : Option K) (gs : List (InternalKey K)) {u : K}
    (hu : last ≠ some u) :
    u ∈ (maybeAddGuards ∅ last gs).map (·.userKey) ↔ u ∈ gs.map (·.userKey) := by
  induction gs generalizing last with
  | nil => simp [maybeAddGuards]
  | cons g gs ih =>
    rw [maybeAddGuards]
    split_ifs with hlast hdeleted
    · have hne : u ≠ g.userKey := by
        rintro rfl
        exact hu hlast
      simp [ih last hu, hne]
    · simp at hdeleted
    · by_cases heq : u = g.userKey
      · simp [heq]
      · have hne : some g.userKey ≠ some u := by
          simpa using Ne.symm heq
        rw [map_cons, mem_cons, ih _ hne, map_cons, mem_cons]

/-- Sorted guards come out with increasing user keys. -/
theorem increasing_maybeAddGuards (last : Option K) {gs : List (InternalKey K)}
    (hsorted : Nondecreasing guardOrder gs) (hlast : ∀ u ∈ last, ∀ g ∈ gs, u ≤ g.userKey) :
    Increasing guardOrder (maybeAddGuards ∅ last gs) ∧
      ∀ u ∈ last, ∀ g ∈ maybeAddGuards ∅ last gs, u < g.userKey := by
  induction gs generalizing last with
  | nil => exact ⟨List.Pairwise.nil, fun u _ g hg => absurd hg not_mem_nil⟩
  | cons g gs ih =>
    obtain ⟨hhead, htail⟩ := pairwise_cons.mp hsorted
    rw [maybeAddGuards]
    split_ifs with heq hdeleted
    · exact ih last htail fun u hu g' hg' => hlast u hu g' (mem_cons_of_mem _ hg')
    · simp at hdeleted
    · obtain ⟨hinc, habove⟩ := ih (some g.userKey) htail (by
        rintro u hu g' hg'
        obtain rfl : g.userKey = u := by simpa using hu
        exact hhead g' hg')
      refine ⟨pairwise_cons.mpr ⟨habove _ rfl, hinc⟩, ?_⟩
      intro u hu g' hg'
      have hlt : u < g.userKey := by
        apply lt_of_le_of_ne (hlast u hu g mem_cons_self)
        rintro rfl
        exact heq hu
      obtain rfl | hg' := mem_cons.mp hg'
      · exact hlt
      · exact hlt.trans (habove _ rfl g' hg')

theorem mem_userKey_insertAll {l gs : List (InternalKey K)} {u : K} :
    u ∈ (insertAll guardOrder l gs).map (·.userKey) ↔
      u ∈ gs.map (·.userKey) ∨ u ∈ l.map (·.userKey) :=
  mem_map_insertAll gs

/-- Without deleted guards, the new level has the user keys of the old guards and
of the added ones, in increasing order. -/
theorem guardUserKeys_saveTo_spec {base : LevelVersion K} {st : LevelState K}
    (hdeleted : st.deletedGuards = ∅) (hbase : (guardUserKeys base.guards).Pairwise (· < ·))
    (hadded : Increasing guardOrder st.addedGuards) :
    (guardUserKeys (saveTo base st).guards).Pairwise (· < ·) ∧
      ∀ u, u ∈ guardUserKeys (saveTo base st).guards ↔
        u ∈ guardUserKeys base.guards ∨ u ∈ st.addedGuards.map (·.userKey) := by
  have hbase' : Nondecreasing guardOrder (base.guards.map (·.guardKey)) := by
    rw [guardUserKeys_eq] at hbase
    exact (pairwise_map.mp hbase).imp le_of_lt
  have hnew : ∀ keys : List (InternalKey K),
      (keys.map GuardMetaData.new).map (·.guardKey) = keys := by
    simp [GuardMetaData.new, Function.comp_def]
  rw [guardUserKeys_eq, saveTo, guardKey_populate, hnew, hdeleted]
  constructor
  · exact pairwise_map.mpr (increasing_maybeAddGuards none
      (nondecreasing_merge hbase' hadded.nondecreasing) (by simp)).1
  · intro u
    rw [mem_maybeAddGuards none _ (by simp), ((merge_perm _ _).map _).mem_iff,
      map_append, mem_append, guardUserKeys_eq base.guards]

theorem files_saveTo (base : LevelVersion K) (st : LevelState K) : (saveTo base st).files =
      (merge fileKey base.files st.addedFiles).filter fun f =>
        decide (f.number ∉ st.deletedFiles) := by
  simp [saveTo]

variable {base : LevelVersion K} {st : LevelState K}

theorem mem_files_saveTo {f : FileMetaData K} : f ∈ (saveTo base st).files ↔
      (f ∈ base.files ∨ f ∈ st.addedFiles) ∧ f.number ∉ st.deletedFiles := by
  rw [files_saveTo, mem_filter, OrderedSet.mem_merge, decide_eq_true_eq]

omit [LinearOrder K] in
theorem nodup_fileKey {files : List (FileMetaData K)} (h : (files.map (·.number)).Nodup) :
    (files.map fileKey).Nodup := by
  apply List.Nodup.of_map (fun k => (ofLex k).2)
  simpa [fileKey, Function.comp_def] using h

theorem sorted_files_saveTo (hbase : Increasing fileKey base.files)
    (hadded : Increasing fileKey st.addedFiles)
    (hnumbers : ((base.files ++ st.addedFiles).map (·.number)).Nodup) :
    Increasing fileKey (saveTo base st).files ∧ ((saveTo base st).files.map (·.number)).Nodup := by
  rw [files_saveTo]
  constructor
  · refine (increasing_of_nodup (nondecreasing_merge hbase.nondecreasing hadded.nondecreasing)
      ?_).sublist filter_sublist
    exact ((merge_perm _ _).map _).nodup_iff.mpr (nodup_fileKey hnumbers)
  · exact (((merge_perm _ _).map _).nodup_iff.mpr hnumbers).sublist (filter_sublist.map _)

@[simp]
theorem completeGuards_saveTo (base : LevelVersion K) (st : LevelState K) :
    (saveTo base st).completeGuards = savedCompleteGuards base st := by
  simp [saveTo]

@[simp]
theorem numCompleteGuards_saveTo (base : LevelVersion K) (st : LevelState K) :
    (saveTo base st).numCompleteGuards = (savedCompleteGuards base st).length := by
  simp [saveTo]

/-- The search for unsorted guards starts behind the guards of the last save. -/
theorem le_sortedStart (base : LevelVersion K) :
    min base.numCompleteGuards base.completeGuards.length ≤ sortedStart base := by
  unfold sortedStart unsortedStart
  rcases hfind : (range base.completeGuards.length).find? _ with _ | i
  · simp
  · have hi := find?_some hfind
    simp only [Bool.and_eq_true, decide_eq_true_eq] at hi
    have hstart := hi.1
    simp only [Option.getD_some]
    split_ifs at hstart with hzero <;> omega

/-- The edit gets exactly the complete guards that were pushed since the last
save. -/
theorem mem_completeGuardsForEdit (base : LevelVersion K) {g : InternalKey K} :
    g ∈ completeGuardsForEdit base ↔ g ∈ base.completeGuards.drop base.numCompleteGuards := by
  have hstart := le_sortedStart base
  obtain hle | hge := Nat.le_total base.numCompleteGuards base.completeGuards.length
  · have hsplit : base.completeGuards.drop base.numCompleteGuards =
        (base.completeGuards.take (sortedStart base)).drop base.numCompleteGuards ++
          base.completeGuards.drop (sortedStart base) := by
      conv_lhs => rw [← take_append_drop (sortedStart base) base.completeGuards]
      rw [drop_append_of_le_length]
      rw [length_take]
      omega
    rw [completeGuardsForEdit, hsplit, mem_append, mem_append, mem_reverse]
    exact or_comm
  · rw [completeGuardsForEdit, drop_eq_nil_of_le (i := sortedStart base) (by omega),
      drop_eq_nil_of_le (i := base.numCompleteGuards) hge, drop_eq_nil_of_le]
    · simp
    · rw [length_take]
      omega

/-- Without deleted guards, the new level has the user keys of the old complete
guards and of the added ones. -/
theorem mem_savedCompleteGuards
    (hdeleted : st.deletedGuards = ∅) {u : K} : u ∈ (savedCompleteGuards base st).map (·.userKey) ↔
      u ∈ base.completeGuards.map (·.userKey) ∨ u ∈ st.addedCompleteGuards.map (·.userKey) := by
  unfold savedCompleteGuards
  rw [hdeleted]
  split_ifs with hnil
  · simp [hnil]
  · have hsplit := take_append_drop (sortedStart base) base.completeGuards
    rw [mem_maybeAddGuards none _ (by simp), ((merge_perm _ _).map _).mem_iff,
      map_append, mem_append, mem_userKey_insertAll]
    conv_rhs => rw [← hsplit, map_append, mem_append]
    exact or_assoc.symm

section

variable {v : LevelVersion K} {edit : LevelEdit K} (hdeleted : edit.deletedGuards = ∅)
include hdeleted

theorem deletedGuards_apply_empty : (LevelState.empty.apply edit).deletedGuards = ∅ := by
  rw [deletedGuards_apply, hdeleted]
  rfl

theorem guardUserKeys_install (hguards : (guardUserKeys v.guards).Pairwise (· < ·)) :
    (guardUserKeys (v.install edit).guards).Pairwise (· < ·) ∧
      ∀ u, u ∈ guardUserKeys (v.install edit).guards ↔
        u ∈ guardUserKeys v.guards ∨ u ∈ edit.newGuards.map (·.userKey) := by
  obtain ⟨hincreasing, hmem⟩ := guardUserKeys_saveTo_spec (deletedGuards_apply_empty hdeleted)
    hguards (by
      rw [addedGuards_apply]
      exact increasing_insertAll _ .nil)
  refine ⟨hincreasing, ?_⟩
  intro u
  rw [LevelVersion.install, hmem, addedGuards_apply, mem_userKey_insertAll]
  simp [LevelState.empty]

/-- Without deleted guards, the new level has the user keys of the old complete
guards and of the new ones. -/
theorem mem_completeGuards_install {u : K} :
    u ∈ (v.install edit).completeGuards.map (·.userKey) ↔
      u ∈ v.completeGuards.map (·.userKey) ∨ u ∈ edit.newCompleteGuards.map (·.userKey) := by
  rw [LevelVersion.install, completeGuards_saveTo,
    mem_savedCompleteGuards (deletedGuards_apply_empty hdeleted), addedCompleteGuards_apply,
    mem_userKey_insertAll]
  simp [LevelState.empty]

end

end HotTLBApps.PebblesDB
