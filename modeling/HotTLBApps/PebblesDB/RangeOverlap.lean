import HotTLBApps.PebblesDB.CompactionInputs

/-!
# PebblesDB: which files overlap a range of user keys

`OverlapInLevel` asks whether a level has a file in a range; for a level above zero it
searches the files for the first one that does not end before the range, by halving.  The
files are sorted by their smallest keys, and files of one guard may overlap, so their
largest keys need not be sorted.

The bounds of a guard without files are empty keys, which have no user key.
-/

namespace HotTLBApps.PebblesDB

open List Option

variable {K : Type} [LinearOrder K]

/-- The loop of `FindFile`. -/
def findFileLoop
    (files : List (FileMetaData K)) (key : InternalKey K) : (fuel left right : Nat) → Nat
  | 0, _, right => right
  | fuel + 1, left, right =>
      if left < right then
        match files[(left + right) / 2]? with
        | some f =>
            if f.largest < key then findFileLoop files key fuel ((left + right) / 2 + 1) right
            else findFileLoop files key fuel left ((left + right) / 2)
        | none => right
      else right

def findFile (files : List (FileMetaData K)) (key : InternalKey K) : Nat :=
  findFileLoop files key files.length 0 files.length

/-- The indices that halving looks at on the way to an index; they do not depend on what is
found there. -/
def midpoints (i : Nat) : (fuel left right : Nat) → List Nat
  | 0, _, _ => []
  | fuel + 1, left, right =>
      if left < right then
        (left + right) / 2 ::
          (if (left + right) / 2 < i then midpoints i fuel ((left + right) / 2 + 1) right
            else midpoints i fuel left ((left + right) / 2))
      else []

/-- The earliest internal key of a user key. -/
def earliestKey (userKey : K) : InternalKey K where
  userKey := userKey
  sequence := kMaxSequenceNumber
  type := kValueTypeForSeek

/-- Neither `AfterFile` nor `BeforeFile`. -/
def FileMetaData.overlaps (userBegin userEnd : Option K) (f : FileMetaData K) : Bool :=
  overlapsRange userBegin userEnd f.smallest.userKey f.largest.userKey

def someFileOverlapsRange (disjointSortedFiles : Bool) (files : List (FileMetaData K))
    (userBegin userEnd : Option K) : Bool :=
  if disjointSortedFiles then
    let index := (userBegin.map fun k => findFile files (earliestKey k)).getD 0
    match files[index]? with
    | some f => userEnd.all fun k => decide (f.smallest.userKey ≤ k)
    | none => false
  else files.any (FileMetaData.overlaps userBegin userEnd)

def overlapInLevel (v : Version K) (level : Level) (userBegin userEnd : Option K) : Bool :=
  someFileOverlapsRange (decide (0 < level)) (v level).files userBegin userEnd

/-- `max_level_with_files` in `DBImpl::CompactRange`. -/
def maxLevelWithFiles (v : Version K) (userBegin userEnd : Option K) : Nat :=
  ((List.finRange kNumLevels).filter fun level => 0 < level).foldl
    (fun m level => if overlapInLevel v level userBegin userEnd then level.val else m) 1

variable {files : List (FileMetaData K)} {key key' : InternalKey K} {fuel left right : Nat}

theorem findFileLoop_bounds (hle : left ≤ right) : left ≤ findFileLoop files key fuel left right ∧
      findFileLoop files key fuel left right ≤ right := by
  fun_induction findFileLoop files key fuel left right with
  | case2 _ _ _ hlt f hf hbelow ih =>
    have hrest := ih (by omega)
    omega
  | case3 _ _ _ hlt f hf hbelow ih => omega
  | _ => exact ⟨hle, le_rfl⟩

variable {f : FileMetaData K}

/-- A file at which the search ends does not end before the key. -/
theorem le_largest_findFileLoop (hfuel : right ≤ fuel + left)
    (hright : ∀ f, files[right]? = some f → key ≤ f.largest)
    (hf : files[findFileLoop files key fuel left right]? = some f) : key ≤ f.largest := by
  fun_induction findFileLoop files key fuel left right with
  | case2 _ _ _ hlt g hmid hbelow ih => exact ih (by omega) hright hf
  | case3 _ _ _ hlt g hmid hbelow ih =>
    refine ih (by omega) ?_ hf
    intro g' hg'
    rw [hmid] at hg'
    cases hg'
    exact not_lt.mp hbelow
  | _ => exact hright f hf

/-- The search ends at an index exactly if the files on the way send it there. -/
theorem findFileLoop_eq_iff {i fuel left right : Nat} (hfuel : right ≤ fuel + left)
    (hleft : left ≤ i) (hright : i ≤ right) (hlength : right ≤ files.length) :
    findFileLoop files key fuel left right = i ↔
      ∀ m ∈ midpoints i fuel left right, ∀ f, files[m]? = some f → (f.largest < key ↔ m < i) := by
  induction fuel generalizing left right with
  | zero =>
    have heq : right = i := by omega
    simp [findFileLoop, midpoints, heq]
  | succ fuel ih =>
    rw [findFileLoop, midpoints]
    by_cases hlt : left < right
    · obtain ⟨f, hf⟩ : ∃ f, files[(left + right) / 2]? = some f :=
        ⟨_, getElem?_eq_getElem (by omega)⟩
      rw [if_pos hlt, if_pos hlt, forall_mem_cons, hf]
      simp only [some.injEq, forall_eq']
      by_cases hbelow : f.largest < key <;> by_cases hmid : (left + right) / 2 < i
      · rw [if_pos hbelow, if_pos hmid, ih (by omega) (by omega) hright hlength]
        simp [hbelow, hmid]
      · -- the search turns right although the index is on the left
        have hpast : (left + right) / 2 + 1 ≤
            findFileLoop files key fuel ((left + right) / 2 + 1) right :=
          (findFileLoop_bounds (by omega)).1
        rw [if_pos hbelow]
        constructor
        · intro hend
          omega
        · rintro ⟨hhead, -⟩
          exact absurd (hhead.mp hbelow) hmid
      · have hpast : findFileLoop files key fuel left ((left + right) / 2) ≤
            (left + right) / 2 := (findFileLoop_bounds (by omega)).2
        rw [if_neg hbelow]
        constructor
        · intro hend
          omega
        · rintro ⟨hhead, -⟩
          exact absurd (hhead.mpr hmid) hbelow
      · rw [if_neg hbelow, if_neg hmid, ih (by omega) hleft (by omega) (by omega)]
        simp [hbelow, hmid]
    · have heq : right = i := by omega
      rw [if_neg hlt, if_neg hlt]
      simp [heq]

theorem le_largest_findFile (hf : files[findFile files key]? = some f) : key ≤ f.largest := by
  refine le_largest_findFileLoop (by omega) ?_ hf
  intro g hg
  rw [getElem?_eq_none le_rfl] at hg
  cases hg

theorem findFile_eq_iff {i : Nat} (hi : i ≤ files.length) : findFile files key = i ↔
      ∀ m ∈ midpoints i files.length 0 files.length, ∀ f, files[m]? = some f →
        (f.largest < key ↔ m < i) :=
  findFileLoop_eq_iff (by omega) (Nat.zero_le _) hi le_rfl

variable {userBegin userEnd : Option K}

theorem FileMetaData.overlaps_iff : f.overlaps userBegin userEnd = true ↔
      (∀ k ∈ userBegin, k ≤ f.largest.userKey) ∧ ∀ k ∈ userEnd, f.smallest.userKey ≤ k := by
  simp [FileMetaData.overlaps, overlapsRange, Option.all_eq_true]

/-- If the level has a file in the range, then there is a file `g` that does not start after the
range and that halving gets to by the beginning of the range: on the way to it, just the files
before it end before the range.  There is no search if the range has no beginning. -/
def RangeFound (files : List (FileMetaData K)) (userBegin userEnd : Option K) : Prop :=
  (∃ f ∈ files, f.overlaps userBegin userEnd = true) →
    ∀ k ∈ userBegin, ∃ i g, files[i]? = some g ∧ (∀ k' ∈ userEnd, g.smallest.userKey ≤ k') ∧
      ∀ m ∈ midpoints i files.length 0 files.length, ∀ h, files[m]? = some h →
        (h.largest < earliestKey k ↔ m < i)

/-- **The search answers rightly for a range** exactly if it gets to a file that does not start
after the range. -/
theorem someFileOverlapsRange_correct_iff (hsorted : OrderedSet.Increasing fileKey files) :
    (someFileOverlapsRange true files userBegin userEnd = true ↔
        ∃ f ∈ files, f.overlaps userBegin userEnd = true) ↔
      RangeFound files userBegin userEnd := by
  cases userBegin with
  | none =>
    -- the first file starts before all others
    refine iff_of_true ?_ nofun
    cases files with
    | nil => simp [someFileOverlapsRange]
    | cons f files =>
      have hfirst : ∀ g ∈ f :: files, f.smallest.userKey ≤ g.smallest.userKey := by
        intro g hg
        rcases mem_cons.mp hg with rfl | hg
        · exact le_rfl
        · exact smallest_le_of_fileKey_le ((pairwise_cons.mp hsorted).1 g hg).le
      simp only [someFileOverlapsRange, if_true, map_none, getD_none, getElem?_cons_zero,
        Option.all_eq_true, decide_eq_true_iff, FileMetaData.overlaps_iff]
      constructor
      · intro hend
        exact ⟨f, mem_cons_self, nofun, hend⟩
      · rintro ⟨g, hg, -, hend⟩ k hk
        exact (hfirst g hg).trans (hend k hk)
  | some k =>
    have hanswer : someFileOverlapsRange true files (some k) userEnd = true ↔
        ∃ g, files[findFile files (earliestKey k)]? = some g ∧
          ∀ k' ∈ userEnd, g.smallest.userKey ≤ k' := by
      simp only [someFileOverlapsRange, if_true, map_some, getD_some]
      cases files[findFile files (earliestKey k)]? with
      | none => simp
      | some f => simp [Option.all_eq_true]
    have hsound : someFileOverlapsRange true files (some k) userEnd = true →
        ∃ f ∈ files, f.overlaps (some k) userEnd = true := by
      intro htrue
      obtain ⟨g, hg, hend⟩ := hanswer.mp htrue
      refine ⟨g, mem_of_getElem? hg, FileMetaData.overlaps_iff.mpr ⟨?_, hend⟩⟩
      rintro _ ⟨⟩
      exact InternalKey.userKey_le_of_le (le_largest_findFile hg)
    refine Iff.trans ⟨Iff.mpr, fun h => ⟨hsound, h⟩⟩ (imp_congr_right fun _ => hanswer.trans ?_)
    constructor
    · rintro ⟨g, hg, hend⟩ _ ⟨⟩
      have hi := (List.getElem?_eq_some_iff.mp hg).1
      exact ⟨_, g, hg, hend, (findFile_eq_iff hi.le).mp rfl⟩
    · intro hfound
      obtain ⟨i, g, hg, hend, hway⟩ := hfound k rfl
      have hi := (List.getElem?_eq_some_iff.mp hg).1
      rw [(findFile_eq_iff hi.le).mpr hway]
      exact ⟨g, hg, hend⟩

variable {v : Version K} {level : Level}

/-- A loop over increasing levels that keeps the last hit ends at or above every hit. -/
theorem le_foldl_lastHit {p : Level → Bool} {levels : List Level}
    (hincreasing : levels.Pairwise (· < ·)) (hmem : level ∈ levels) (hhit : p level = true)
    (m : Nat) : level.val ≤ levels.foldl (fun m level => if p level then level.val else m) m := by
  induction levels using reverseRecOn with
  | nil => cases hmem
  | append_singleton levels last ih =>
    obtain ⟨hinit, -, hlast⟩ := pairwise_append.mp hincreasing
    rw [foldl_append, foldl_cons, foldl_nil]
    obtain hmem | hmem := mem_append.mp hmem
    · have hlt : level < last := hlast level hmem last mem_cons_self
      split_ifs
      · exact Nat.le_of_lt hlt
      · exact ih hinit hmem
    · obtain rfl := mem_singleton.mp hmem
      rw [if_pos hhit]

/-- A version with two files at level 2, of user keys 1 to `limit` and 2 to 3. -/
def twoFileVersion (start limit : Nat) : Version Nat := fun level =>
  if level = 2 then
    LevelVersion.populate
      { files :=
          [⟨1, 100, ⟨1, 1, .kTypeValue⟩, ⟨limit, 2, .kTypeValue⟩⟩,
            ⟨2, 100, ⟨start, 3, .kTypeValue⟩, ⟨start + 1, 4, .kTypeValue⟩⟩]
        guards := []
        sentinelFiles := []
        completeGuards := []
        numCompleteGuards := 0 }
  else
    LevelVersion.empty

theorem twoFileVersion_sorted {start limit : Nat} (hstart : 1 < start)
    (level : Level) : (twoFileVersion start limit level).Sorted := by
  unfold twoFileVersion
  split_ifs
  · constructor
    · exact Pairwise.nil
    · simp [LevelVersion.populate, OrderedSet.Increasing, fileKey, Prod.Lex.toLex_lt_toLex,
        InternalKey.lt_of_userKey_lt, hstart]
    · simp [LevelVersion.populate]
  · constructor <;> simp [LevelVersion.empty, guardUserKeys, OrderedSet.Increasing]

/-- The bounds of a guard are those of its files. -/
structure GuardMetaData.Bounded (g : GuardMetaData K) : Prop where
  smallest_eq : g.smallest = (g.fileMetas.map (·.smallest)).min?
  largest_eq : g.largest = (g.fileMetas.map (·.largest)).max?

theorem min?_append_singleton {α : Type} [Min α] {l : List α} {m : α} (h : l.min? = some m)
    (a : α) : (l ++ [a]).min? = some (min m a) := by
  cases l with
  | nil => cases h
  | cons b l =>
    obtain rfl := some.inj h
    rw [cons_append, min?_cons', foldl_append]
    rfl

theorem exists_bounds {g : GuardMetaData K} (hmetas : g.fileMetas ≠ []) :
    ∃ start limit, (g.fileMetas.map (·.smallest)).min? = some start ∧
      (g.fileMetas.map (·.largest)).max? = some limit := by
  obtain ⟨start, hstart⟩ := ne_none_iff_exists'.mp
    (by simpa using hmetas : (g.fileMetas.map (·.smallest)).min? ≠ none)
  obtain ⟨limit, hlimit⟩ := ne_none_iff_exists'.mp
    (by simpa using hmetas : (g.fileMetas.map (·.largest)).max? ≠ none)
  exact ⟨start, limit, hstart, hlimit⟩

theorem bounded_addToGuard {g : GuardMetaData K} (hfiled : g.Filed) (h : g.Bounded)
    (f : FileMetaData K) : (addToGuard g f).Bounded := by
  unfold addToGuard
  split_ifs with hmem hempty
  · exact h
  · have hmetas : g.fileMetas = [] := by
      rw [hfiled.1] at hempty
      exact map_eq_nil_iff.mp hempty
    constructor <;> simp [hmetas]
  · have hmetas : g.fileMetas ≠ [] := by
      intro hnil
      exact hempty (by rw [hfiled.1, hnil, map_nil])
    obtain ⟨k, k', hk, hk'⟩ := exists_bounds hmetas
    constructor
    · rw [h.smallest_eq, hk, map_some, map_append, map_singleton,
        min?_append_singleton hk, min_comm, min_def_lt]
    · -- the maximum is the minimum of the dual order
      have hlargest := min?_append_singleton (α := (InternalKey K)ᵒᵈ) hk' f.largest
      rw [h.largest_eq, hk', map_some, map_append, map_singleton, ← max_def_lt]
      exact hlargest.symm

theorem bounded_foldl_addToGuard (files : List (FileMetaData K)) (key : InternalKey K)
    (hnumbers : (files.map (·.number)).Nodup) :
    (files.foldl addToGuard (clearGuard (GuardMetaData.new key))).Bounded := by
  induction files using reverseRecOn with
  | nil => constructor <;> rfl
  | append_singleton files f ih =>
    rw [foldl_append, foldl_cons, foldl_nil]
    have hinit : (files.map (·.number)).Nodup := by
      rw [map_append] at hnumbers
      exact hnumbers.of_append_left
    refine bounded_addToGuard ?_ (ih hinit) f
    apply filed_foldl_addToGuard
    · exact ⟨rfl, rfl⟩
    · simpa [clearGuard, GuardMetaData.new] using hinit

theorem bounded_saveTo {base : LevelVersion K} {st : LevelState K}
    (hnumbers : ((saveTo base st).files.map (·.number)).Nodup) :
    ∀ g ∈ (saveTo base st).guards, g.Bounded := by
  intro g hg
  rw [saveTo, files_populate] at hnumbers
  rw [saveTo, LevelVersion.populate] at hg
  split at hg
  next hnil =>
    rw [hnil] at hg
    cases hg
  next g' gs hguards =>
    obtain ⟨g₀, hg₀, l, hl, rfl⟩ := mem_fillGuards hg
    rw [← hguards] at hg₀
    obtain ⟨key, -, rfl⟩ := mem_map.mp hg₀
    refine bounded_foldl_addToGuard l key ?_
    exact hnumbers.sublist ((hl.trans (dropWhile_sublist _)).map _)

variable {v : LevelVersion K}

/-- Whether the files of a guard reach into the range; without files they do not. -/
def GuardMetaData.overlaps (userBegin userEnd : Option K) (g : GuardMetaData K) : Bool :=
  match (g.fileMetas.map (·.smallest)).min?, (g.fileMetas.map (·.largest)).max? with
  | some start, some limit => overlapsRange userBegin userEnd start.userKey limit.userKey
  | _, _ => false

/-- The guards with files are taken by the range of their files; a guard without files has
no bounds to read. -/
theorem overlappingGuards_eq {guards : List (GuardMetaData K)}
    (hbounded : ∀ g ∈ guards, g.Bounded) :
    overlappingGuards userBegin userEnd guards = if ∀ g ∈ guards, g.fileMetas ≠ [] then
        some (guards.filter (GuardMetaData.overlaps userBegin userEnd))
      else none := by
  induction guards with
  | nil => simp [overlappingGuards]
  | cons g guards ih =>
    have hg := hbounded g mem_cons_self
    rw [overlappingGuards, ih fun g hg => hbounded g (mem_cons_of_mem _ hg), hg.smallest_eq,
      hg.largest_eq]
    by_cases hempty : g.fileMetas = []
    · simp [hempty]
    · obtain ⟨k, k', hk, hk'⟩ := exists_bounds hempty
      have hoverlaps : g.overlaps userBegin userEnd =
          overlapsRange userBegin userEnd k.userKey k'.userKey := by
        simp only [GuardMetaData.overlaps, hk, hk']
      simp only [forall_mem_cons, hempty, ne_eq, not_false_eq_true, true_and,
        filter_cons, hoverlaps, hk, hk']
      split_ifs with hrest hrange
      · simp [hrange]
      · simp [hrange]
      · rfl

/-- **The inputs of a manual compaction are those of the range**, each file once, exactly
if no guard of the level is without files. -/
theorem getOverlappingInputsGuards_exact_iff
    (v : LevelVersion K)
    (hv : v.WellFormed)
    (hbounded : ∀ g ∈ v.guards, g.Bounded)
    (userBegin userEnd : Option K) :
    (∃ inputs, getOverlappingInputsGuards v userBegin userEnd = some inputs ∧
      inputs.sentinelInputs =
        (if ∃ f ∈ v.sentinelFiles, f.overlaps userBegin userEnd = true then v.sentinelFiles
          else []) ∧
      inputs.guardInputs = v.guards.filter (GuardMetaData.overlaps userBegin userEnd) ∧
      inputs.files = inputs.sentinelInputs ++ inputs.guardInputs.flatMap (·.fileMetas) ∧
      inputs.files.Nodup) ↔
    ∀ g ∈ v.guards, g.fileMetas ≠ [] := by
  constructor
  · rintro ⟨inputs, hinputs, -⟩
    obtain ⟨guards, hguards, -⟩ := map_eq_some_iff.mp hinputs
    rw [overlappingGuards_eq hbounded] at hguards
    by_contra hempty
    rw [if_neg hempty] at hguards
    cases hguards
  · intro hfiles
    have hguards : overlappingGuards userBegin userEnd v.guards =
        some (v.guards.filter (GuardMetaData.overlaps userBegin userEnd)) := by
      rw [overlappingGuards_eq hbounded, if_pos hfiles]
    obtain ⟨inputs, hinputs⟩ : ∃ inputs,
        getOverlappingInputsGuards v userBegin userEnd = some inputs := by
      rw [getOverlappingInputsGuards, hguards]
      exact ⟨_, rfl⟩
    have hfrom := from_getOverlappingInputsGuards hv hinputs
    have hsegments : inputs.guardInputs.map GuardMetaData.segments =
        inputs.guardInputs.map (·.fileMetas) :=
      map_congr_left fun g hg => (hfrom.guards_filed g hg).segments_eq
    refine ⟨inputs, hinputs, ?_, ?_, ?_, ?_⟩
    · rw [getOverlappingInputsGuards, hguards] at hinputs
      obtain rfl := some.inj hinputs
      exact if_congr any_eq_true rfl rfl
    · rw [getOverlappingInputsGuards, hguards] at hinputs
      obtain rfl := some.inj hinputs
      rfl
    · rw [LevelInputs.files, LevelInputs.containers, flatten_cons, hsegments, flatMap]
    · exact (hv.sorted.numbers_nodup.of_map _).sublist (hfrom.files_sublist hv)

/-- A level with the sentinel file 1 to 2 and the guard 5, which has the file 6 to 7 or was
committed without files. -/
def guardLevel (filled : Bool) : LevelVersion Nat :=
  (LevelVersion.empty.install
    { deletedFiles := ∅
      newFiles :=
        ⟨1, 100, ⟨1, 1, .kTypeValue⟩, ⟨2, 2, .kTypeValue⟩⟩ ::
          (if filled then [⟨2, 100, ⟨6, 3, .kTypeValue⟩, ⟨7, 4, .kTypeValue⟩⟩] else [])
      deletedGuards := ∅
      newGuards := []
      newCompleteGuards := [⟨5, 0, .kTypeGuard⟩] }).install
    { deletedFiles := ∅
      newFiles := []
      deletedGuards := ∅
      newGuards := [⟨5, 0, .kTypeGuard⟩]
      newCompleteGuards := [] }

theorem guardLevel_wellFormed (filled : Bool) : (guardLevel filled).WellFormed := by
  refine wellFormed_install (wellFormed_install wellFormed_empty rfl ?_ ?_) rfl ?_ ?_
  · cases filled <;> decide
  · unfold FreshNumbers
    cases filled <;> decide
  · cases filled <;> decide
  · unfold FreshNumbers
    cases filled <;> decide

theorem guardLevel_bounded (filled : Bool) : ∀ g ∈ (guardLevel filled).guards, g.Bounded :=
  bounded_saveTo (guardLevel_wellFormed filled).sorted.numbers_nodup

/-- With a file in the guard, the inputs for the range from 7 on are this file. -/
theorem getOverlappingInputsGuards_exact_iff_filled :
    ∃ inputs, getOverlappingInputsGuards (guardLevel true) (some 7) none = some inputs ∧
      inputs.files.map (·.number) = [2] := by
  have hexact := (getOverlappingInputsGuards_exact_iff (guardLevel true)
    (guardLevel_wellFormed true) (guardLevel_bounded true) (some 7) none).mpr (by decide)
  obtain ⟨inputs, hinputs, hsentinel, hguards, hfiles, -⟩ := hexact
  refine ⟨inputs, hinputs, ?_⟩
  rw [hfiles, hsentinel, hguards]
  decide

/-- The guard without files has no bounds, so there is no user key to compare. -/
theorem emptyGuard_has_no_bounds :
    (guardLevel false).WellFormed ∧ (∀ g ∈ (guardLevel false).guards, g.Bounded) ∧
      getOverlappingInputsGuards (guardLevel false) none none = none :=
  ⟨guardLevel_wellFormed false, guardLevel_bounded false, by decide⟩

end HotTLBApps.PebblesDB
