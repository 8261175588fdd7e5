import HotTLBApps.Lib.OrderedSet
import HotTLBApps.PebblesDB.Version

/-!
# PebblesDB: building versions (`VersionSet::Builder` of `db/version_set.cc`)

`apply` collects the changes of edits in sets, `saveTo` merges them with the
files and guards of the base version, and `populate` hands the files of a level
out to its guards.  All three work level by level; the model is that of one
level.

The sorted containers are those of `Lib/OrderedSet`: files are ordered by
smallest key and number, guards by the user key of their guard key, so that of
several guards with one user key the first one inserted stays.
-/

namespace HotTLBApps.PebblesDB

universe u

variable {K : Type u} [LinearOrder K]

/-- The order `BySmallestKey` of files. -/
def fileKey (f : FileMetaData K) : InternalKey K ×ₗ Nat :=
  toLex (f.smallest, f.number)

theorem smallest_le_of_fileKey_le {f f' : FileMetaData K} (h : fileKey f ≤ fileKey f') :
    f.smallest.userKey ≤ f'.smallest.userKey :=
  InternalKey.userKey_le_of_le (Prod.Lex.monotone_fst _ _ h)

/-- The order `BySmallestGuard` of guards. -/
def guardOrder (g : InternalKey K) : K :=
  g.userKey

/-- The part of a `VersionEdit` that concerns one level. -/
structure LevelEdit (K : Type u) where
  deletedFiles : Finset Nat
  newFiles : List (FileMetaData K)
  deletedGuards : Finset (InternalKey K)
  newGuards : List (InternalKey K)
  newCompleteGuards : List (InternalKey K)
deriving DecidableEq

/-- `LevelState`: the changes collected for one level. -/
structure LevelState (K : Type u) where
  deletedFiles : Finset Nat
  addedFiles : List (FileMetaData K)
  deletedGuards : Finset (InternalKey K)
  addedGuards : List (InternalKey K)
  addedCompleteGuards : List (InternalKey K)

def LevelState.empty : LevelState K :=
  { deletedFiles := ∅
    addedFiles := []
    deletedGuards := ∅
    addedGuards := []
    addedCompleteGuards := [] }

/-- A new file cancels a deletion of its number. -/
def addFile (st : LevelState K) (f : FileMetaData K) : LevelState K :=
  { st with
    deletedFiles := st.deletedFiles.erase f.number
    addedFiles := OrderedSet.insert fileKey f st.addedFiles }

def LevelState.apply (st : LevelState K) (edit : LevelEdit K) : LevelState K :=
  let deleted := { st with deletedFiles := st.deletedFiles ∪ edit.deletedFiles }
  let added := edit.newFiles.foldl addFile deleted
  { added with
    deletedGuards := added.deletedGuards ∪ edit.deletedGuards
    addedGuards := OrderedSet.insertAll guardOrder added.addedGuards edit.newGuards
    addedCompleteGuards :=
      OrderedSet.insertAll guardOrder added.addedCompleteGuards edit.newCompleteGuards }

/-- `MaybeAddGuard` and `MaybeAddCompleteGuard` for one guard after another;
`last` is the user key of the guard that was inserted last. -/
def maybeAddGuards (deleted : Finset (InternalKey K)) :
    Option K → List (InternalKey K) → List (InternalKey K)
  | _, [] => []
  | last, g :: gs =>
      if last = some g.userKey then
        maybeAddGuards deleted last gs
      else if g ∈ deleted then
        maybeAddGuards deleted last gs
      else
        g :: maybeAddGuards deleted (some g.userKey) gs

/-- The first position from `start` on where the user key decreases. -/
def unsortedStart (guards : List (InternalKey K)) (start : Nat) : Nat :=
  ((List.range guards.length).find? fun i =>
    decide (start ≤ i) &&
      match guards[i]?, guards[i - 1]? with
      | some g, some g' => decide (g.userKey < g'.userKey)
      | _, _ => false).getD guards.length

/-- Where `SaveTo` starts to look for unsorted complete guards. -/
def sortedStart (base : LevelVersion K) : Nat :=
  unsortedStart base.completeGuards
    (if base.numCompleteGuards = 0 then 1 else base.numCompleteGuards)

/-- The complete guards of the base that `SaveTo` adds to the edit, in the order
in which it adds them. -/
def completeGuardsForEdit (base : LevelVersion K) : List (InternalKey K) :=
  base.completeGuards.drop (sortedStart base) ++
    ((base.completeGuards.take (sortedStart base)).drop base.numCompleteGuards).reverse

def savedCompleteGuards (base : LevelVersion K) (st : LevelState K) : List (InternalKey K) :=
  if base.completeGuards = [] then
    st.addedCompleteGuards.filter fun g => decide (g ∉ st.deletedGuards)
  else
    let combined := OrderedSet.insertAll guardOrder st.addedCompleteGuards
      (base.completeGuards.drop (sortedStart base))
    maybeAddGuards st.deletedGuards none
      (OrderedSet.merge guardOrder (base.completeGuards.take (sortedStart base)) combined)

/-- The old file information of a guard is cleared, but for its `file_metas`. -/
def clearGuard (g : GuardMetaData K) : GuardMetaData K :=
  { g with files := [], numberSegments := 0 }

/-- One file that falls to a guard.  The first one sets the bounds of the guard,
the others widen them. -/
def addToGuard (g : GuardMetaData K) (f : FileMetaData K) : GuardMetaData K :=
  if f.number ∈ g.files then
    g
  else
    { g with
      files := g.files ++ [f.number]
      fileMetas := g.fileMetas ++ [f]
      numberSegments := g.numberSegments + 1
      smallest :=
        if g.files = [] then
          some f.smallest
        else
          g.smallest.map fun k => if f.smallest < k then f.smallest else k
      largest :=
        if g.files = [] then
          some f.largest
        else
          g.largest.map fun k => if k < f.largest then f.largest else k }

/-- `PopulateFilesToGuardsAndSentinels` from a guard on: its files are those up
to the first one whose largest key is not below the next guard key. -/
def fillGuards : List (GuardMetaData K) → List (FileMetaData K) → List (GuardMetaData K)
  | [], _ => []
  | [g], files => [files.foldl addToGuard (clearGuard g)]
  | g :: g' :: gs, files =>
      (files.takeWhile fun f => decide (f.largest < g'.guardKey)).foldl addToGuard
          (clearGuard g) ::
        fillGuards (g' :: gs) (files.dropWhile fun f => decide (f.largest < g'.guardKey))

/-- `PopulateFilesToGuardsAndSentinels`. -/
def LevelVersion.populate (v : LevelVersion K) : LevelVersion K :=
  match v.guards with
  | [] => { v with sentinelFiles := v.sentinelFiles ++ v.files }
  | g :: gs =>
      { v with
        sentinelFiles := v.files.takeWhile fun f => decide (f.largest < g.guardKey)
        guards := fillGuards (g :: gs)
          (v.files.dropWhile fun f => decide (f.largest < g.guardKey)) }

def saveTo (base : LevelVersion K) (st : LevelState K) : LevelVersion K :=
  let completeGuards := savedCompleteGuards base st
  LevelVersion.populate
    { files := (OrderedSet.merge fileKey base.files st.addedFiles).filter fun f =>
        decide (f.number ∉ st.deletedFiles)
      guards := (maybeAddGuards st.deletedGuards none
        (OrderedSet.merge guardOrder (base.guards.map (·.guardKey)) st.addedGuards)).map
          GuardMetaData.new
      sentinelFiles := []
      completeGuards := completeGuards
      numCompleteGuards := completeGuards.length }

/-- What one edit makes of a level: a new builder applies it and saves. -/
def LevelVersion.install (v : LevelVersion K) (edit : LevelEdit K) : LevelVersion K :=
  saveTo v (LevelState.empty.apply edit)

/-- The user keys that cut a level. -/
def guardUserKeys (guards : List (GuardMetaData K)) : List K :=
  guards.map fun g => g.guardKey.userKey

/-- What `SaveTo` guarantees of the lists of a level: guards increase by user key,
files are sorted and have different numbers. -/
@[mk_iff]
structure LevelVersion.Sorted (v : LevelVersion K) : Prop where
  guards_increasing : (guardUserKeys v.guards).Pairwise (· < ·)
  files_increasing : OrderedSet.Increasing fileKey v.files
  numbers_nodup : (v.files.map (·.number)).Nodup

end HotTLBApps.PebblesDB
