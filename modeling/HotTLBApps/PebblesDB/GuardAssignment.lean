import HotTLBApps.Lib.Intervals
import HotTLBApps.PebblesDB.SaveTo

/-!
# PebblesDB: where files are put and where they are looked for

`populate` walks once over the files of a level and compares the largest internal
key of a file with the guard keys; `findGuard` compares user keys.  A container of
a level is its sentinel set or the files of one of its guards.

Main facts:

* a lookup reads the container of the part that the user key lies in
  (`candidates_eq_container`);
* the containers that `populate` fills are the runs of `Lib/Intervals`
  (`containers_populate`);
* both agree exactly if, for every guard, the first file that starts at or after
  it does not end before the guard key in the internal order.
-/

namespace HotTLBApps.PebblesDB

open Intervals List Option GuardMetaData

universe u

variable {K : Type u} [LinearOrder K]

/-- The files of a guard that a lookup reads. -/
def GuardMetaData.segments (g : GuardMetaData K) : List (FileMetaData K) :=
  g.fileMetas.take g.numberSegments

/-- The sentinel files and the files of each guard. -/
def LevelVersion.containers (v : LevelVersion K) : List (List (FileMetaData K)) :=
  v.sentinelFiles :: v.guards.map GuardMetaData.segments

variable {guards : List (GuardMetaData K)}

theorem lt_slot_guard_iff (hguards : (guardUserKeys guards).Pairwise (· < ·)) {i : Nat}
    {g : GuardMetaData K} (hg : guards[i]? = some g) (userKey : K) :
    i < slot (guardUserKeys guards) userKey ↔ g.guardKey.userKey ≤ userKey := by
  apply lt_slot_iff hguards
  rw [guardUserKeys, getElem?_map, hg]
  rfl

theorem slot_guardUserKeys_le (guards : List (GuardMetaData K)) (userKey : K) :
    slot (guardUserKeys guards) userKey ≤ guards.length := by
  have hslot := slot_le_length (guardUserKeys guards) userKey
  rwa [guardUserKeys, length_map] at hslot

/-- The binary search keeps the last guard up to the user key in its range. -/
theorem findGuardLoop_eq (hguards : (guardUserKeys guards).Pairwise (· < ·)) (userKey : K)
    {left right : Nat} (hleft : left ≤ slot (guardUserKeys guards) userKey - 1)
    (hright : slot (guardUserKeys guards) userKey - 1 ≤ right) (hlen : right < guards.length) :
    findGuardLoop guards userKey left right = slot (guardUserKeys guards) userKey - 1 := by
  fun_induction findGuardLoop guards userKey left right with
  | case1 left g hle hlt hg =>
    have := (lt_slot_guard_iff hguards hg userKey).mpr hle
    omega
  | case2 left g hle hlt hg =>
    have := mt (lt_slot_guard_iff hguards hg userKey).mp hle
    omega
  | case3 left hlt hnone =>
    have := getElem?_eq_none_iff.mp hnone
    omega
  | case4 left right hlt mid hlast g hg hbelow ih =>
    have := mt (lt_slot_guard_iff hguards hg userKey).mp (not_le.mpr hbelow)
    exact ih hleft (by omega) (by omega)
  | case5 left right hlt mid hlast g hg hbelow ih =>
    have := (lt_slot_guard_iff hguards hg userKey).mpr (not_lt.mp hbelow)
    exact ih (by omega) hright hlen
  | case6 left right hlt mid hlast hnone =>
    have := getElem?_eq_none_iff.mp hnone
    omega
  | case7 left right hlt => omega

/-- `FindGuard` returns the last guard up to the user key, or the first guard. -/
theorem findGuard_eq (hguards : (guardUserKeys guards).Pairwise (· < ·)) (userKey : K) :
    findGuard guards userKey = slot (guardUserKeys guards) userKey - 1 := by
  by_cases hnil : guards = []
  · subst hnil
    rfl
  · have hlen := length_pos_of_ne_nil hnil
    have hslot := slot_guardUserKeys_le guards userKey
    rw [findGuard, if_neg hnil]
    exact findGuardLoop_eq hguards userKey (by omega) (by omega) (by omega)

/-- A lookup reads the container of the part that the user key lies in. -/
theorem candidates_eq_container {v : LevelVersion K}
    (hguards : (guardUserKeys v.guards).Pairwise (· < ·)) (userKey : K) :
    v.containers[slot (guardUserKeys v.guards) userKey]? = some (v.candidates userKey) := by
  have hslot := slot_guardUserKeys_le v.guards userKey
  have hfind := findGuard_eq hguards userKey
  unfold LevelVersion.candidates LevelVersion.containers
  rw [hfind]
  rcases hg : v.guards[slot (guardUserKeys v.guards) userKey - 1]? with _ | g
  · have := getElem?_eq_none_iff.mp hg
    have hzero : slot (guardUserKeys v.guards) userKey = 0 := by omega
    simp [hzero]
  · have hpass := lt_slot_guard_iff hguards hg userKey
    rcases hs : slot (guardUserKeys v.guards) userKey with _ | i
    · rw [hs] at hpass
      have hbelow : userKey < g.guardKey.userKey := by
        rw [← not_le, ← hpass]
        omega
      simp [hbelow]
    · rw [hs] at hpass hg
      have habove : ¬ userKey < g.guardKey.userKey := by
        rw [not_lt, ← hpass]
        omega
      have hg' : v.guards[i]? = some g := by simpa using hg
      simp [habove, hg', segments]

theorem foldl_addToGuard (files : List (FileMetaData K)) (g : GuardMetaData K)
    (hnumbers : (g.files ++ files.map (·.number)).Nodup) :
    (files.foldl addToGuard g).files = g.files ++ files.map (·.number) ∧
      (files.foldl addToGuard g).fileMetas = g.fileMetas ++ files ∧
      (files.foldl addToGuard g).numberSegments = g.numberSegments + files.length := by
  induction files generalizing g with
  | nil => simp
  | cons f files ih =>
    have hnew : f.number ∉ g.files := by
      rw [map_cons, nodup_append] at hnumbers
      intro hmem
      exact hnumbers.2.2 _ hmem _ mem_cons_self rfl
    have hstep : addToGuard g f =
        { addToGuard g f with
          files := g.files ++ [f.number]
          fileMetas := g.fileMetas ++ [f]
          numberSegments := g.numberSegments + 1 } := by
      simp [addToGuard, hnew]
    obtain ⟨hfiles, hmetas, hsegments⟩ :=
      ih (addToGuard g f) (by rw [hstep]; simpa using hnumbers)
    rw [foldl_cons, hfiles, hmetas, hsegments, hstep]
    refine ⟨by simp, by simp, ?_⟩
    simp only [length_cons]
    omega

variable {g : GuardMetaData K}

/-- A new guard that was handed a run of files is read with exactly this run. -/
theorem segments_foldl_addToGuard (hnew : g.fileMetas = []) (files : List (FileMetaData K))
    (hnumbers : (files.map (·.number)).Nodup) :
    (files.foldl addToGuard (clearGuard g)).segments = files := by
  obtain ⟨-, h1, h2⟩ := foldl_addToGuard files (clearGuard g) (by simpa [clearGuard])
  rw [segments, h1, h2]
  simp [clearGuard, hnew]

/-- Whether a file ends before the key of guard `i`. -/
def endsBefore (guards : List (GuardMetaData K)) (i : Nat) (f : FileMetaData K) : Bool :=
  match guards[i]? with
  | some g => decide (f.largest < g.guardKey)
  | none => true

/-- The guards are filled with the runs of the files. -/
theorem segments_fillGuards (hnew : ∀ g ∈ guards, g.fileMetas = []) {k : Nat}
    {gs : List (GuardMetaData K)} (hsuffix : guards.drop k = g :: gs)
    (files : List (FileMetaData K)) (hnumbers : (files.map (·.number)).Nodup) :
    (fillGuards (g :: gs) files).map GuardMetaData.segments =
      runs (endsBefore guards) (k + 1) gs.length files := by
  have hg : g ∈ guards := mem_of_mem_drop (hsuffix ▸ mem_cons_self)
  induction gs generalizing k g files with
  | nil => simp [fillGuards, runs, segments_foldl_addToGuard (hnew g hg) files hnumbers]
  | cons g' gs ih =>
    have hsuffix' : guards.drop (k + 1) = g' :: gs := by
      rw [← drop_drop, hsuffix]
      rfl
    have hstage : endsBefore guards (k + 1) = fun f => decide (f.largest < g'.guardKey) := by
      have hget : guards[k + 1]? = some g' := by
        rw [← head?_drop, hsuffix']
        rfl
      funext f
      simp [endsBefore, hget]
    have hg' : g' ∈ guards := mem_of_mem_drop (hsuffix' ▸ mem_cons_self)
    have hrest := ih hsuffix' (files.dropWhile (endsBefore guards (k + 1)))
      (hnumbers.sublist ((dropWhile_sublist _).map _)) hg'
    rw [hstage] at hrest
    have htake := segments_foldl_addToGuard (hnew g hg)
      (files.takeWhile fun f => decide (f.largest < g'.guardKey))
      (hnumbers.sublist ((takeWhile_sublist _).map _))
    rw [fillGuards, map_cons, hrest, htake, length_cons, runs, hstage]

/-- A level as `SaveTo` hands it to `PopulateFilesToGuardsAndSentinels`: neither
the sentinel set nor a guard has files yet. -/
def LevelVersion.Unpopulated (v : LevelVersion K) : Prop :=
  v.sentinelFiles = [] ∧ ∀ g ∈ v.guards, g.fileMetas = []

theorem containers_populate {v : LevelVersion K} (hnew : v.Unpopulated)
    (hnumbers : (v.files.map (·.number)).Nodup) :
    v.populate.containers = runs (endsBefore v.guards) 0 v.guards.length v.files := by
  rcases hg : v.guards with _ | ⟨g, gs⟩
  · simp [LevelVersion.populate, LevelVersion.containers, hg, runs, hnew.1]
  · have hsuffix : (g :: gs).drop 0 = g :: gs := rfl
    have hfill := segments_fillGuards (hg ▸ hnew.2) hsuffix
      (v.files.dropWhile fun f => decide (f.largest < g.guardKey))
      (hnumbers.sublist ((dropWhile_sublist _).map _))
    have hstage : endsBefore (g :: gs) 0 = fun f => decide (f.largest < g.guardKey) := by
      funext f
      simp [endsBefore]
    simp only [LevelVersion.populate, LevelVersion.containers, hg, length_cons, runs, hstage, hfill]

/-- The files of a level lie, by user key, between guards. -/
def LevelVersion.FilesFit (v : LevelVersion K) : Prop :=
  ∀ f ∈ v.files, Fits (guardUserKeys v.guards) f.smallest.userKey f.largest.userKey

/-- The bounds of the files of a level are ordered. -/
def LevelVersion.BoundsOrdered (v : LevelVersion K) : Prop :=
  ∀ f ∈ v.files, f.smallest ≤ f.largest

/-- The files are filed where they are looked for: each one is in one container,
once, and every user key between its bounds leads there. -/
def LevelVersion.Agrees (v : LevelVersion K) : Prop :=
  ∀ f ∈ v.files,
    v.containers.flatten.count f = 1 ∧
      ∀ userKey, f.smallest.userKey ≤ userKey → userKey ≤ f.largest.userKey →
        f ∈ v.candidates userKey

/-- No guard is skipped: the first file that starts at or after the user key of a
guard does not end before the guard key. -/
def LevelVersion.NoGuardSkipped (v : LevelVersion K) : Prop :=
  ∀ g ∈ v.guards, ∀ f,
    v.files.find? (fun f => decide (g.guardKey.userKey ≤ f.smallest.userKey)) = some f →
      ¬ f.largest < g.guardKey

/-- The part of the level that a file starts in. -/
def LevelVersion.part (v : LevelVersion K) (f : FileMetaData K) : Nat :=
  slot (guardUserKeys v.guards) f.smallest.userKey

variable {v : LevelVersion K}

theorem pairwise_part (hfiles : OrderedSet.Increasing fileKey v.files) :
    v.files.Pairwise fun f f' => v.part f ≤ v.part f' := by
  apply hfiles.imp
  intro f f' hlt
  exact slot_mono _ (smallest_le_of_fileKey_le hlt.le)

/-- A file that fits and starts before a guard ends before it. -/
theorem endsBefore_of_part_le (hguards : (guardUserKeys v.guards).Pairwise (· < ·))
    {f : FileMetaData K} (hfit : Fits (guardUserKeys v.guards) f.smallest.userKey f.largest.userKey)
    {i : Nat} (hpart : v.part f ≤ i) : endsBefore v.guards i f = true := by
  unfold endsBefore
  rcases hg : v.guards[i]? with _ | g
  · rfl
  · have hlt : ¬ g.guardKey.userKey ≤ f.largest.userKey := by
      rw [← lt_slot_guard_iff hguards hg, ← hfit]
      exact not_lt.mpr hpart
    simpa using InternalKey.lt_of_userKey_lt (not_le.mp hlt)

/-- The runs of the files are the parts exactly if no guard is skipped. -/
theorem runs_parts_iff (hsorted : v.Sorted) (hfits : v.FilesFit) :
    (∀ j r, (runs (endsBefore v.guards) 0 v.guards.length v.files)[j]? = some r →
        ∀ f ∈ r, v.part f = j) ↔
      v.NoGuardSkipped := by
  have hruns : (∀ j r, (runs (endsBefore v.guards) 0 v.guards.length v.files)[j]? = some r →
        ∀ f ∈ r, v.part f = 0 + j) ↔
      ∀ j < v.guards.length, ∀ f, v.files.find? (fun f => decide (0 + j < v.part f)) = some f →
          endsBefore v.guards (0 + j) f = false := runs_iff
    (fun j f hf => endsBefore_of_part_le hsorted.guards_increasing (hfits f hf))
    (pairwise_part hsorted.files_increasing)
    (fun f _ => Nat.zero_le _)
    (fun f _ => (slot_guardUserKeys_le v.guards f.smallest.userKey).trans_eq (Nat.zero_add _).symm)
  simp only [Nat.zero_add] at hruns
  have hfind : ∀ {j : Nat} {g : GuardMetaData K}, v.guards[j]? = some g →
      (fun f : FileMetaData K => decide (j < v.part f)) =
        fun f => decide (g.guardKey.userKey ≤ f.smallest.userKey) := by
    intro j g hg
    funext f
    exact decide_eq_decide.mpr (lt_slot_guard_iff hsorted.guards_increasing hg _)
  rw [hruns]
  constructor
  · intro h g hg f hf
    obtain ⟨j, hj⟩ := getElem?_of_mem hg
    have hlt : j < v.guards.length := (List.getElem?_eq_some_iff.mp hj).1
    have := h j hlt f (by rw [hfind hj, hf])
    simpa [endsBefore, hj] using this
  · intro h j hlt f hf
    have hj : v.guards[j]? = some v.guards[j] := getElem?_eq_getElem hlt
    have := h _ (getElem_mem hlt) f (by rw [← hfind hj, hf])
    simpa [endsBefore, hj] using this

/-- **The files of a level that fit its guards are filed where they are looked
for exactly if no guard is skipped.** -/
theorem populate_agrees_iff
    (v : LevelVersion K)
    (hnew : v.Unpopulated)
    (hsorted : v.Sorted)
    (hbounds : v.BoundsOrdered)
    (hfits : v.FilesFit) : v.populate.Agrees ↔ v.NoGuardSkipped := by
  have hcontainers := containers_populate hnew hsorted.numbers_nodup
  have hkeys := guardUserKeys_populate v
  have hflat : v.populate.containers.flatten = v.files := by rw [hcontainers, flatten_runs]
  have hnodup : v.files.Nodup := hsorted.numbers_nodup.of_map
  have hlook : ∀ userKey, v.populate.containers[slot (guardUserKeys v.guards) userKey]? =
      some (v.populate.candidates userKey) := by
    intro userKey
    have := candidates_eq_container (v := v.populate)
      (by rw [hkeys]; exact hsorted.guards_increasing) userKey
    rwa [hkeys] at this
  rw [← runs_parts_iff hsorted hfits, ← hcontainers]
  unfold LevelVersion.Agrees
  rw [files_populate, hflat]
  constructor
  · intro h j r hj f hf
    have hmem : f ∈ v.files := by
      rw [← hflat]
      exact mem_flatten.mpr ⟨r, mem_of_getElem? hj, hf⟩
    have hfound := (h f hmem).2 f.smallest.userKey le_rfl
      (InternalKey.userKey_le_of_le (hbounds f hmem))
    exact eq_of_mem_blocks (hflat ▸ hnodup) (hlook f.smallest.userKey) hj hfound hf
  · intro h f hf
    refine ⟨count_eq_one_of_mem hnodup hf, ?_⟩
    intro userKey hlow hhigh
    obtain ⟨r, hr, hfr⟩ := mem_flatten.mp (hflat.symm ▸ hf)
    obtain ⟨j, hj⟩ := getElem?_of_mem hr
    have hpart : slot (guardUserKeys v.guards) userKey = j := by
      rw [(hfits f hf).slot_eq hlow hhigh, ← h j r hj f hfr]
      rfl
    have hcandidates := hlook userKey
    rw [hpart, hj] at hcandidates
    rwa [← some.inj hcandidates]

/-- A level with the guard `(1, 5)` and one file, whose only key has the user key of
the guard and the given sequence number. -/
def guardedLevel (sequence : Nat) : LevelVersion Nat :=
  { files := [⟨7, 100, ⟨1, sequence, .kTypeValue⟩, ⟨1, sequence, .kTypeValue⟩⟩]
    guards := [GuardMetaData.new ⟨1, 5, .kTypeValue⟩]
    sentinelFiles := []
    completeGuards := []
    numCompleteGuards := 0 }

variable (sequence : Nat)

theorem guardedLevel_sorted : (guardedLevel sequence).Sorted where
  guards_increasing := by simp [guardedLevel, guardUserKeys]
  files_increasing := by simp [guardedLevel, OrderedSet.Increasing]
  numbers_nodup := by simp [guardedLevel]

theorem guardedLevel_bounds : (guardedLevel sequence).BoundsOrdered := by
  simp [LevelVersion.BoundsOrdered, guardedLevel]

theorem guardedLevel_fits : (guardedLevel sequence).FilesFit := by
  simp [LevelVersion.FilesFit, guardedLevel, Fits]

theorem guardedLevel_unpopulated : (guardedLevel sequence).Unpopulated := by
  simp [LevelVersion.Unpopulated, guardedLevel, new]

/-- A key older than the guard is filed in the guard. -/
theorem populate_agrees_of_older_key : (guardedLevel 3).populate.Agrees := by
  apply (populate_agrees_iff (guardedLevel 3) (guardedLevel_unpopulated 3)
    (guardedLevel_sorted 3) (guardedLevel_bounds 3) (guardedLevel_fits 3)).mpr
  simp [LevelVersion.NoGuardSkipped, guardedLevel, new, InternalKey.lt_iff,
    InternalKey.tag, packSequenceAndType]

/-- A key newer than the guard ends before the guard key in the internal order, so
its file becomes a sentinel file, while the lookup reads the guard. -/
theorem not_populate_agrees_of_newer_key :
    (guardedLevel 7).Unpopulated ∧ (guardedLevel 7).Sorted ∧ (guardedLevel 7).BoundsOrdered ∧
      (guardedLevel 7).FilesFit ∧ ¬ (guardedLevel 7).populate.Agrees := by
  refine ⟨guardedLevel_unpopulated 7, guardedLevel_sorted 7, guardedLevel_bounds 7,
    guardedLevel_fits 7, ?_⟩
  intro h
  have hfound := (h _ mem_cons_self).2 1 (by decide) (by decide)
  simp [LevelVersion.candidates, LevelVersion.populate, guardedLevel, fillGuards, findGuard,
    findGuardLoop, new, clearGuard, InternalKey.lt_iff, InternalKey.tag,
    packSequenceAndType, ValueType.toNat] at hfound

end HotTLBApps.PebblesDB
