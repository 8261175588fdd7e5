import HotTLBApps.PebblesDB.GuardAssignment
import HotTLBApps.PebblesDB.VersionEdit

/-!
# PebblesDB: choosing a compaction (`PickCompactionForGuards`)

A compaction takes files of a level and of the next one and writes its outputs to
the next level.  A horizontal compaction takes files of one level only and writes
them back to it; in the model it has no next level.

`pickCompactionForGuards` takes the guards whose files do not fit the complete
guards of the level any more, and at the first level also those whose score asks
for it.  Of a guard that was taken for its score a horizontal compaction leaves
the larger files out.

`getOverlappingInputsGuards` takes the inputs of a manual compaction at one level.
`none` stands for the assertion on the length of a key that does not hold when a guard
without files is asked for its bounds.

Sums of file sizes are exact here.  The code divides them in floating point; the
results agree for sizes below `2 ^ 52`.
-/

namespace HotTLBApps.PebblesDB

variable {K : Type}

def nextLevel (level : Level) : Option Level :=
  if h : level.val + 1 < kNumLevels then some ⟨level.val + 1, h⟩ else none

def kMaxFilesPerGuardSentinel : Nat := 2

/-- `MaxFilesPerGuardForLevel`: a table with one value for all levels. -/
def maxFilesPerGuardForLevel (_level : Level) : Int :=
  -1

/-- The limit that a compaction of a level works with. -/
def maxFilesPerGuard (level : Level) : Int :=
  if maxFilesPerGuardForLevel level ≤ 0 then
    kMaxFilesPerGuardSentinel
  else
    maxFilesPerGuardForLevel level

def maxFileSizeForLevel (level : Level) : Nat :=
  match level.val with
  | 0 | 1 | 2 | 3 => 64 * 1048576
  | 4 => 128 * 1048576
  | 5 => 256 * 1048576
  | _ => 512 * 1048576

def totalFileSize (files : List (FileMetaData K)) : Nat :=
  (files.map (·.fileSize)).sum

/-- Whether a compaction of the level is horizontal: in the last level, and in the
one before it if the last one is much larger. -/
def isHorizontalCompaction (v : Version K) (level : Level) : Bool :=
  match nextLevel level with
  | none => true
  | some next =>
      decide (level.val = kNumLevels - 2) &&
        decide (0 < totalFileSize (v level).files) &&
          decide (25 < totalFileSize (v next).files / totalFileSize (v level).files)

/-- The compaction scores of the sentinel files and of the guards of a level. -/
structure LevelScores where
  sentinel : ℚ
  guards : Nat → ℚ

structure LevelInputs (K : Type) where
  sentinelInputs : List (FileMetaData K)
  guardInputs : List (GuardMetaData K)

def LevelInputs.empty : LevelInputs K :=
  { sentinelInputs := []
    guardInputs := [] }

/-- The sentinel files and the files of each guard. -/
def LevelInputs.containers (inputs : LevelInputs K) : List (List (FileMetaData K)) :=
  inputs.sentinelInputs :: inputs.guardInputs.map GuardMetaData.segments

/-- `inputs_` of a level: every file that is added to the sentinel files or to a
guard is added to it as well. -/
def LevelInputs.files (inputs : LevelInputs K) : List (FileMetaData K) :=
  inputs.containers.flatten

/-- `Compaction`; `next` is the level after `level` if the compaction is not
horizontal, and `completeGuards` the user keys at which its outputs are cut. -/
structure Compaction (K : Type) where
  level : Level
  next : Option Level
  inputs : LevelInputs K
  nextInputs : LevelInputs K
  completeGuards : List K

def Compaction.outputLevel (c : Compaction K) : Level :=
  c.next.getD c.level

/-- The files of a sentinel or guard that a horizontal compaction takes; `all` are
the files that the average size is taken of. -/
def horizontalFiles
    (addAll : Bool) (maxFiles : Int) (all files : List (FileMetaData K)) : List (FileMetaData K) :=
  let avgFileSize := totalFileSize all / kMaxFilesPerGuardSentinel
  files.filter fun f =>
    addAll || decide (f.fileSize < avgFileSize) ||
      -- The ratio to an average of zero is infinite or not a number.
      (decide (0 < avgFileSize) && decide (2 * f.fileSize ≤ 3 * avgFileSize)) ||
        decide (maxFiles = 1)

/-- A guard as an input: a copy with the files that a horizontal compaction takes,
or the guard itself. -/
def guardInput
    (horizontal : Bool) (maxFiles : Int) (g : GuardMetaData K) (addAll : Bool) : GuardMetaData K :=
  if horizontal then
    let files := horizontalFiles addAll maxFiles g.fileMetas g.segments
    { guardKey := g.guardKey
      numberSegments := files.length
      smallest := g.smallest
      largest := g.largest
      files := files.map (·.number)
      fileMetas := files }
  else
    g

variable [LinearOrder K]

/-- The user keys of the complete guards of a level, sorted and without duplicates.
The pass over the sorted guards is that of `MaybeAddGuard`. -/
def completeGuardsCopy (guards : List (InternalKey K)) : List K :=
  (maybeAddGuards ∅ none
    (guards.mergeSort fun g g' => decide (g.userKey ≤ g'.userKey))).map (·.userKey)

/-- A sentinel file reaches the first guard. -/
def exceedsSentinel (completeGuards : List K) (f : FileMetaData K) : Bool :=
  match completeGuards with
  | [] => false
  | firstGuardKey :: _ => decide (firstGuardKey ≤ f.largest.userKey)

/-- The sentinel files that are taken; `scored` holds for the first level. -/
def pickSentinelFiles
    (horizontal forceCompact scored : Bool) (maxFiles : Int) (score : ℚ) (completeGuards : List K)
    (files : List (FileMetaData K)) : List (FileMetaData K) :=
  let addAll := files.any (exceedsSentinel completeGuards)
  if addAll || (scored && (forceCompact || decide (1 ≤ score))) then
    if horizontal then horizontalFiles addAll maxFiles files files else files
  else
    []

/-- The search for the guard with a given key, which goes on where the last search
ended; a guard comes with its index. -/
def advanceGuards (guardKey : K) :
    List (GuardMetaData K × Nat) → Option (GuardMetaData K × Nat) × List (GuardMetaData K × Nat)
  | [] => (none, [])
  | g :: rest =>
      if g.1.guardKey.userKey = guardKey then
        (some g, rest)
      else if guardKey < g.1.guardKey.userKey then
        (none, g :: rest)
      else
        advanceGuards guardKey rest

/-- A file does not lie between a guard key and the next one. -/
def exceedsGuard (guardKey : K) (later : List K) (f : FileMetaData K) : Bool :=
  decide (f.smallest.userKey < guardKey) ||
    match later with
    | [] => false
    | nextGuardKey :: _ => decide (nextGuardKey ≤ f.largest.userKey)

/-- The guards that are taken, each with the flag that all its files are. -/
def pickGuards (forceCompact scored : Bool) (scores : Nat → ℚ) :
    List K → List (GuardMetaData K × Nat) → List (GuardMetaData K × Bool)
  | [], _ => []
  | guardKey :: later, guards =>
      match advanceGuards guardKey guards with
      | (none, rest) => pickGuards forceCompact scored scores later rest
      | (some (g, index), rest) =>
          if (g.fileMetas.take g.files.length).any (exceedsGuard guardKey later) then
            (g, true) :: pickGuards forceCompact scored scores later rest
          else if scored && (forceCompact || decide (1 ≤ scores index)) then
            (g, false) :: pickGuards forceCompact scored scores later rest
          else
            pickGuards forceCompact scored scores later rest

/-- The inputs that are taken from one level. -/
def pickLevelInputs (horizontal forceCompact scored : Bool) (level : Level) (scores : LevelScores)
    (v : LevelVersion K) : LevelInputs K :=
  let completeGuards := completeGuardsCopy v.completeGuards
  { sentinelInputs :=
      pickSentinelFiles horizontal forceCompact scored (maxFilesPerGuard level) scores.sentinel
        completeGuards v.sentinelFiles
    guardInputs :=
      (pickGuards forceCompact scored scores.guards completeGuards v.guards.zipIdx).map fun p =>
        guardInput horizontal (maxFilesPerGuard level) p.1 p.2 }

def horizontalCompaction (v : Version K) (scores : Level → LevelScores) (level : Level)
    (forceCompact : Bool) : Compaction K :=
  { level := level
    next := none
    inputs := pickLevelInputs true forceCompact true level (scores level) (v level)
    nextInputs := LevelInputs.empty
    completeGuards := completeGuardsCopy (v level).completeGuards }

/-- The compaction of files of a level and of the next one. -/
def verticalCompaction (v : Version K) (scores : Level → LevelScores) (level next : Level)
    (forceCompact : Bool) : Compaction K :=
  { level := level
    next := some next
    inputs := pickLevelInputs false forceCompact true level (scores level) (v level)
    nextInputs := pickLevelInputs false forceCompact false next (scores next) (v next)
    completeGuards := completeGuardsCopy (v next).completeGuards }

def pickCompactionForGuards (v : Version K) (scores : Level → LevelScores) (level : Level)
    (forceCompact : Bool) : Option (Compaction K) :=
  if (v level).files = [] then
    none
  else if isHorizontalCompaction v level then
    some (horizontalCompaction v scores level forceCompact)
  else
    (nextLevel level).map fun next => verticalCompaction v scores level next forceCompact

/-- A range of user keys overlaps the range that is asked for; a missing bound is
no bound. -/
def overlapsRange (userBegin userEnd : Option K) (start limit : K) : Bool :=
  userBegin.all (fun k => decide (k ≤ limit)) && userEnd.all fun k => decide (start ≤ k)

/-- The guards of `GetOverlappingInputsGuards`. -/
def overlappingGuards (userBegin userEnd : Option K) :
    List (GuardMetaData K) → Option (List (GuardMetaData K))
  | [] => some []
  | g :: guards =>
      match g.smallest, g.largest, overlappingGuards userBegin userEnd guards with
      | some start, some limit, some rest =>
          if overlapsRange userBegin userEnd start.userKey limit.userKey then
            some (g :: rest)
          else
            some rest
      | _, _, _ => none

def getOverlappingInputsGuards
    (v : LevelVersion K) (userBegin userEnd : Option K) : Option (LevelInputs K) :=
  (overlappingGuards userBegin userEnd v.guards).map fun guards =>
    { sentinelInputs :=
        if v.sentinelFiles.any (fun f =>
            overlapsRange userBegin userEnd f.smallest.userKey f.largest.userKey) then
          v.sentinelFiles
        else
          []
      guardInputs := guards }

end HotTLBApps.PebblesDB
