import HotTLBApps.PebblesDB.DbFormat

/-!
# PebblesDB: versions (`db/version_edit.h`, `db/version_set.h`)

The metadata of table files and guards, and a version as one record per level.
The levels of a version do not share anything, so most of the development is
about a single level.

Reference counts, seek budgets and the back pointer from a file to its guard are
left out: nothing that is modelled here reads them.  Of a complete guard only its
key is kept.
-/

namespace HotTLBApps.PebblesDB

universe u

def kNumLevels : Nat := 7

instance : NeZero kNumLevels :=
  ⟨by decide⟩

/-- `FileMetaData`, for any kind of keys. -/
structure FileOf (κ : Type u) where
  number : Nat
  fileSize : Nat
  smallest : κ
  largest : κ
deriving DecidableEq, Repr

abbrev FileMetaData (K : Type u) := FileOf (InternalKey K)

/-- `GuardMetaData`; a guard without files has no bounds. -/
structure GuardMetaData (K : Type u) where
  guardKey : InternalKey K
  numberSegments : Nat
  smallest : Option (InternalKey K)
  largest : Option (InternalKey K)
  files : List Nat
  fileMetas : List (FileMetaData K)
deriving DecidableEq, Repr

def GuardMetaData.new {K : Type u} (guardKey : InternalKey K) : GuardMetaData K :=
  { guardKey := guardKey
    numberSegments := 0
    smallest := none
    largest := none
    files := []
    fileMetas := [] }

/-- One level of a version: `files_`, `guards_`, `sentinel_files_`,
`complete_guards_` and `num_complete_guards_`. -/
structure LevelVersion (K : Type u) where
  files : List (FileMetaData K)
  guards : List (GuardMetaData K)
  sentinelFiles : List (FileMetaData K)
  completeGuards : List (InternalKey K)
  numCompleteGuards : Nat
deriving DecidableEq, Repr

def LevelVersion.empty {K : Type u} : LevelVersion K :=
  { files := []
    guards := []
    sentinelFiles := []
    completeGuards := []
    numCompleteGuards := 0 }

abbrev Version (K : Type u) := Fin kNumLevels → LevelVersion K

variable {K : Type u} [LinearOrder K]

/-- The loop of `FindGuard` over `guards[left .. right]`. -/
def findGuardLoop (guards : List (GuardMetaData K)) (userKey : K) (left right : Nat) : Nat :=
  if left < right then
    let mid := (left + right) / 2
    if left + 1 = right then
      match guards[right]? with
      | some g => if g.guardKey.userKey ≤ userKey then right else left
      | none => left
    else
      match guards[mid]? with
      | some g =>
          if userKey < g.guardKey.userKey then
            findGuardLoop guards userKey left (mid - 1)
          else
            findGuardLoop guards userKey mid right
      | none => left
  else
    right
termination_by right - left

/-- `FindGuard`, for the user key of the lookup key. -/
def findGuard (guards : List (GuardMetaData K)) (userKey : K) : Nat :=
  if guards = [] then 0 else findGuardLoop guards userKey 0 (guards.length - 1)

/-- The files that `Version::Get` looks at for a user key, before it sorts out
those whose bounds exclude the key: the sentinel files or those of a guard. -/
def LevelVersion.candidates (v : LevelVersion K) (userKey : K) : List (FileMetaData K) :=
  match v.guards[findGuard v.guards userKey]? with
  | none => v.sentinelFiles
  | some g =>
      if findGuard v.guards userKey = 0 ∧ userKey < g.guardKey.userKey then
        v.sentinelFiles
      else
        g.fileMetas.take g.numberSegments

end HotTLBApps.PebblesDB
