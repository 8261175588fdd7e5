import HotTLBApps.PebblesDB.GuardAssignment
import HotTLBApps.PebblesDB.VersionSet

/-!
# PebblesDB: the shape of a level

What holds of every level that `SaveTo` builds, whatever was filed wrongly before:
its lists are sorted, its files are handed out to the sentinel set and the guards
in order, the fields of a guard agree with each other, and every guard is among the
complete guards.

`pairwise_containers` is what later proofs use of the way in which files are handed
out: if the files fit the guards, then the user keys of the sentinel files and of
the guards, one after another, do not decrease.  This does not need that every file
is filed where it is looked for.
-/

namespace HotTLBApps.PebblesDB

open OrderedSet Intervals List Option

variable {K : Type} [LinearOrder K]

/-- The fields of a guard agree with each other. -/
def GuardMetaData.Filed (g : GuardMetaData K) : Prop :=
  g.files = g.fileMetas.map (·.number) ∧ g.numberSegments = g.fileMetas.length

/-- What `SaveTo` guarantees of a level. -/
@[mk_iff]
structure LevelVersion.WellFormed (v : LevelVersion K) : Prop where
  sorted : v.Sorted
  containers_eq : v.containers = runs (endsBefore v.guards) 0 v.guards.length v.files
  guards_filed : ∀ g ∈ v.guards, g.Filed
  guards_complete : ∀ u ∈ guardUserKeys v.guards, u ∈ v.completeGuards.map (·.userKey)

omit [LinearOrder K] in
theorem GuardMetaData.Filed.segments_eq {g : GuardMetaData K} (h : g.Filed) :
    g.segments = g.fileMetas := by
  rw [GuardMetaData.segments, h.2, take_length]

variable {v : LevelVersion K}

theorem LevelVersion.WellFormed.flatten_containers (h : v.WellFormed) :
    v.containers.flatten = v.files := by
  rw [h.containers_eq, flatten_runs]

/-- **The containers of a level whose files fit are ordered by user key.** -/
theorem pairwise_containers (h : v.WellFormed) (hfits : v.FilesFit) :
    v.containers.Pairwise fun r s =>
      ∀ f ∈ r, ∀ f' ∈ s, f.largest.userKey ≤ f'.smallest.userKey := by
  rw [h.containers_eq]
  apply pairwise_runs
  intro j l hl f hf f' hf'
  have hstop := exists_stop_of_mem_dropWhile (h.sorted.files_increasing.sublist hl) hf'
  obtain ⟨d, hd, hstops, hle⟩ := hstop
  have hends : endsBefore v.guards j f = true :=
    all_eq_true.mp all_takeWhile f hf
  unfold endsBefore at hends hstops
  rcases hg : v.guards[j]? with _ | g
  · simp [hg] at hstops
  · simp only [hg, decide_eq_true_eq, decide_eq_false_iff_not, not_lt] at hends hstops
    have hstart : g.guardKey.userKey ≤ d.smallest.userKey := by
      rw [← lt_slot_guard_iff h.sorted.guards_increasing hg, hfits d (hl.mem hd),
        lt_slot_guard_iff h.sorted.guards_increasing hg]
      exact InternalKey.userKey_le_of_le hstops
    have hsmallest : d.smallest.userKey ≤ f'.smallest.userKey := by
      obtain rfl | hlt := hle
      · exact le_refl _
      · exact smallest_le_of_fileKey_le hlt.le
    exact (InternalKey.userKey_le_of_le (le_of_lt hends)).trans (hstart.trans hsmallest)

theorem filed_foldl_addToGuard (files : List (FileMetaData K)) (g : GuardMetaData K)
    (hfiled : g.Filed) (hnumbers : (g.files ++ files.map (·.number)).Nodup) :
    (files.foldl addToGuard g).Filed := by
  obtain ⟨hfiles, hmetas, hsegments⟩ := foldl_addToGuard files g hnumbers
  constructor
  · rw [hfiles, hmetas, hfiled.1, map_append]
  · rw [hsegments, hmetas, hfiled.2, length_append]

theorem mem_fillGuards {guards : List (GuardMetaData K)} {files : List (FileMetaData K)}
    {g : GuardMetaData K} (hg : g ∈ fillGuards guards files) :
    ∃ g' ∈ guards, ∃ l : List (FileMetaData K), l.Sublist files ∧
      g = l.foldl addToGuard (clearGuard g') := by
  fun_induction fillGuards guards files with
  | case1 files => cases hg
  | case2 g' files => exact ⟨g', mem_cons_self, files, Sublist.refl _, mem_singleton.mp hg⟩
  | case3 g' g'' gs files ih =>
    obtain rfl | hg := mem_cons.mp hg
    · exact ⟨g', mem_cons_self, _, takeWhile_sublist _, rfl⟩
    · obtain ⟨g₀, hg₀, l, hl, heq⟩ := ih hg
      exact ⟨g₀, mem_cons_of_mem _ hg₀, l, hl.trans (dropWhile_sublist _), heq⟩

theorem endsBefore_congr {guards guards' : List (GuardMetaData K)}
    (h : guards.map (·.guardKey) = guards'.map (·.guardKey)) :
    endsBefore guards = endsBefore guards' := by
  funext i f
  have hget : (guards[i]?).map (·.guardKey) = (guards'[i]?).map (·.guardKey) := by
    rw [← getElem?_map, ← getElem?_map, h]
  unfold endsBefore
  rcases hg : guards[i]? with _ | g <;> rcases hg' : guards'[i]? with _ | g' <;>
    rw [hg, hg'] at hget
  · cases hget
  · cases hget
  · obtain hkey : g.guardKey = g'.guardKey := some.inj hget
    simp only [hkey]

/-- A level that was filled is well formed. -/
theorem wellFormed_populate (hnew : v.Unpopulated) (hsorted : v.Sorted)
    (hcomplete : ∀ u ∈ guardUserKeys v.guards, u ∈ v.completeGuards.map (·.userKey)) :
    v.populate.WellFormed where
  sorted :=
    { guards_increasing := by
        rw [guardUserKeys_populate]
        exact hsorted.guards_increasing
      files_increasing := by
        rw [files_populate]
        exact hsorted.files_increasing
      numbers_nodup := by
        rw [files_populate]
        exact hsorted.numbers_nodup }
  containers_eq := by
    have hkeys := guardKey_populate v
    have hlength : v.populate.guards.length = v.guards.length := by
      rw [← length_map (·.guardKey), hkeys, length_map]
    rw [containers_populate hnew hsorted.numbers_nodup, endsBefore_congr hkeys, hlength,
      files_populate]
  guards_filed := by
    intro g hg
    rcases hguards : v.guards with _ | ⟨g', gs⟩
    · simp [LevelVersion.populate, hguards] at hg
    · simp only [LevelVersion.populate, hguards] at hg
      obtain ⟨g₀, hg₀, l, hl, rfl⟩ := mem_fillGuards hg
      rw [← hguards] at hg₀
      apply filed_foldl_addToGuard l (clearGuard g₀)
      · simp [GuardMetaData.Filed, clearGuard, hnew.2 g₀ hg₀]
      · simpa [clearGuard] using
          hsorted.numbers_nodup.sublist ((hl.trans (dropWhile_sublist _)).map _)
  guards_complete := by
    rw [guardUserKeys_populate, completeGuards_populate]
    exact hcomplete

variable {edit : LevelEdit K}

/-- The numbers of the files of a level and of an edit are all different. -/
def FreshNumbers (v : LevelVersion K) (edit : LevelEdit K) : Prop :=
  (v.files.map (·.number) ++ edit.newFiles.map (·.number)).Nodup

theorem mem_files_install (hnumbers : FreshNumbers v edit) {f : FileMetaData K} :
    f ∈ (v.install edit).files ↔
      f ∈ v.files ∧ f.number ∉ edit.deletedFiles ∨ f ∈ edit.newFiles := by
  obtain ⟨-, hnew, hdisjoint⟩ := nodup_append.mp hnumbers
  have hadded : f ∈ insertAll fileKey [] edit.newFiles ↔ f ∈ edit.newFiles :=
    (insertAll_perm (l := []) (nodup_fileKey hnew)).mem_iff
  rw [LevelVersion.install, mem_files_saveTo, addedFiles_apply, deletedFiles_apply]
  simp only [LevelState.empty, hadded, Finset.empty_union, Finset.mem_sdiff, List.mem_toFinset,
    not_and, not_not]
  constructor
  · rintro ⟨hf | hf, hdeleted⟩
    · by_cases hmem : f.number ∈ edit.deletedFiles
      · exact absurd rfl (hdisjoint _ (List.mem_map_of_mem hf) _ (hdeleted hmem))
      · exact Or.inl ⟨hf, hmem⟩
    · exact Or.inr hf
  · rintro (⟨hf, hmem⟩ | hf)
    · exact ⟨Or.inl hf, fun h => absurd h hmem⟩
    · exact ⟨Or.inr hf, fun _ => List.mem_map_of_mem hf⟩

theorem sorted_files_install (h : v.Sorted) (hnumbers : FreshNumbers v edit) :
    Increasing fileKey (v.install edit).files ∧ ((v.install edit).files.map (·.number)).Nodup := by
  have hperm : (insertAll fileKey [] edit.newFiles).Perm edit.newFiles :=
    insertAll_perm (l := []) (nodup_fileKey (nodup_append.mp hnumbers).2.1)
  apply sorted_files_saveTo h.files_increasing
  · rw [addedFiles_apply]
    exact increasing_insertAll _ Pairwise.nil
  · rw [addedFiles_apply, map_append]
    exact (((hperm.map _).append_left _).nodup_iff).mpr hnumbers

/-- **An edit that deletes no guard and adds guards from the complete ones keeps a
level well formed.** -/
theorem wellFormed_install (h : v.WellFormed) (hdeleted : edit.deletedGuards = ∅)
    (hguards : ∀ u ∈ edit.newGuards.map (·.userKey), u ∈ v.completeGuards.map (·.userKey))
    (hnumbers : FreshNumbers v edit) : (v.install edit).WellFormed := by
  have hfiles := sorted_files_install h.sorted hnumbers
  have hkeys := guardUserKeys_install hdeleted h.sorted.guards_increasing
  have hcomplete : ∀ u ∈ guardUserKeys (v.install edit).guards,
      u ∈ (v.install edit).completeGuards.map (·.userKey) := by
    intro u hu
    rw [mem_completeGuards_install hdeleted]
    obtain hu | hu := (hkeys.2 u).mp hu
    · exact .inl (h.guards_complete u hu)
    · exact .inl (hguards u hu)
  -- a level without filed files is handed to `PopulateFilesToGuardsAndSentinels`
  obtain ⟨w, hw, hnew⟩ : ∃ w : LevelVersion K,
      saveTo v (LevelState.empty.apply edit) = w.populate ∧ w.Unpopulated := by
    refine ⟨_, rfl, rfl, fun g hg => ?_⟩
    obtain ⟨key, -, rfl⟩ := mem_map.mp hg
    rfl
  rw [LevelVersion.install, hw] at hfiles hkeys hcomplete ⊢
  rw [files_populate] at hfiles
  rw [guardUserKeys_populate] at hkeys hcomplete
  rw [completeGuards_populate] at hcomplete
  exact wellFormed_populate hnew ⟨hkeys.1, hfiles.1, hfiles.2⟩ hcomplete

theorem wellFormed_pushGuards (h : v.WellFormed) (pushed : List (InternalKey K)) :
    (v.pushGuards pushed).WellFormed where
  sorted := ⟨h.sorted.guards_increasing, h.sorted.files_increasing, h.sorted.numbers_nodup⟩
  __ := h
  guards_complete := by
    intro u hu
    change u ∈ (v.completeGuards ++ pushed).map (·.userKey)
    rw [map_append]
    exact mem_append_left _ (h.guards_complete u hu)

/-- A level without guards. -/
theorem wellFormed_sentinels {files : List (FileMetaData K)} (hfiles : Increasing fileKey files)
    (hnumbers : (files.map (·.number)).Nodup) (complete : List (InternalKey K)) (n : Nat) :
    (⟨files, [], files, complete, n⟩ : LevelVersion K).WellFormed where
  sorted := ⟨Pairwise.nil, hfiles, hnumbers⟩
  containers_eq := rfl
  guards_filed := by
    nofun
  guards_complete := by
    nofun

theorem wellFormed_empty : (LevelVersion.empty : LevelVersion K).WellFormed :=
  wellFormed_sentinels Pairwise.nil nodup_nil [] 0

end HotTLBApps.PebblesDB
