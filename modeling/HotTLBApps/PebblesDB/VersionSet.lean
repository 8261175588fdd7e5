import HotTLBApps.PebblesDB.Env
import HotTLBApps.PebblesDB.VersionEdit

/-!
# PebblesDB: the version set and its manifest (`VersionSet` of `db/version_set.cc`)

The state of a version set, the calls that change it, and recovery.

* `logAndApply` builds the next version from the current one and an edit, and
  writes the edit to the manifest; the first call writes a snapshot of the
  current version in front.  Writers may push complete guards while the manifest
  is written; they are carried over to the new version.
* `step` and `run` are the calls of a whole run, the other ones being those that
  hand out file numbers, advance the sequence number and push complete guards.
* `recover` reads a manifest back.

The manifest is the list of its records; how records are laid out in a file is
the subject of `LogWriter` and `LogReader`.  Only runs whose writes succeed are
modelled: `none` stands for an assertion that does not hold.
-/

namespace HotTLBApps.PebblesDB

variable {K : Type} [LinearOrder K]

/-- The part of an edit that concerns one level. -/
def VersionEdit.level (edit : Edit K) (level : Level) : LevelEdit K :=
  { deletedFiles :=
      (edit.deletedFiles.filter fun p => (ofLex p).1 = level).image fun p => (ofLex p).2
    newFiles := edit.newFiles.filterMap fun p => if p.1 = level then some p.2 else none
    deletedGuards := (edit.deletedGuards level).toFinset
    newGuards := edit.newGuards level
    newCompleteGuards := edit.newCompleteGuards level }

/-- The compaction pointers after `Builder::Apply`. -/
def applyCompactPointers (pointers : Level → Option (InternalKey K))
    (edit : Edit K) : Level → Option (InternalKey K) :=
  edit.compactPointers.foldl (fun t p => Function.update t p.1 (some p.2)) pointers

/-- The state of a `VersionSet`; `descriptorLog` holds the records of the manifest
that is written, if there is one. -/
structure VersionSet (K : Type) where
  current : Version K
  compactPointer : Level → Option (InternalKey K)
  nextFileNumber : Nat
  manifestFileNumber : Nat
  lastSequence : Nat
  logNumber : Nat
  prevLogNumber : Nat
  descriptorLog : Option (List (List UInt8))

/-- The numbers that `LogAndApply` sets in an edit. -/
def VersionEdit.setNumbers (edit : Edit K) (vs : VersionSet K) : Edit K :=
  { edit with
    logNumber := some (edit.logNumber.getD vs.logNumber)
    prevLogNumber := some (edit.prevLogNumber.getD vs.prevLogNumber)
    nextFileNumber := some vs.nextFileNumber
    lastSequence := some vs.lastSequence }

/-- The complete guards that `SaveTo` adds to an edit. -/
def VersionEdit.addCompleteGuardsFrom (edit : Edit K) (base : Version K) : Edit K :=
  { edit with
    newCompleteGuards := fun level =>
      edit.newCompleteGuards level ++ completeGuardsForEdit (base level) }

/-- The edit of `WriteSnapshot`. -/
def snapshotEdit (comparator : List UInt8) (pointers : Level → Option (InternalKey K))
    (current : Version K) : Edit K :=
  { VersionEdit.clear with
    comparator := some comparator
    compactPointers := byLevel fun level => (pointers level).toList
    newFiles := byLevel fun level => (current level).files
    newGuards := fun level => (current level).guards.map (·.guardKey)
    newCompleteGuards := fun level => (current level).completeGuards }

/-- `AddToCompleteGuards` for some guards. -/
def LevelVersion.pushGuards (v : LevelVersion K) (guards : List (InternalKey K)) : LevelVersion K :=
  { v with completeGuards := v.completeGuards ++ guards }

/-- The assertions of `LogAndApply`. -/
def VersionSet.acceptsLogNumber (vs : VersionSet K) (edit : Edit K) : Bool :=
  match edit.logNumber with
  | some number => decide (vs.logNumber ≤ number) && decide (number < vs.nextFileNumber)
  | none => true

/-- `LogAndApply`; `pushed` are the complete guards that writers push while the
manifest is written. -/
def VersionSet.logAndApply
    (codec : KeyCodec K) (comparator : List UInt8) (vs : VersionSet K) (edit : Edit K)
    (pushed : Level → List (InternalKey K)) : Option (VersionSet K) :=
  if vs.acceptsLogNumber edit then
    let edit := edit.setNumbers vs
    let pointers := applyCompactPointers vs.compactPointer edit
    let version : Version K := fun level =>
      (vs.current level).install (edit.level level)
    let edit := edit.addCompleteGuardsFrom vs.current
    let records :=
      match vs.descriptorLog with
      | some records => records
      | none => [(snapshotEdit comparator pointers vs.current).encodeTo codec.format]
    some
      { vs with
        current := fun level => (version level).pushGuards (pushed level)
        compactPointer := pointers
        logNumber := edit.logNumber.getD vs.logNumber
        prevLogNumber := edit.prevLogNumber.getD vs.prevLogNumber
        descriptorLog := some (records ++ [edit.encodeTo codec.format]) }
  else
    none

inductive VersionSet.Action (K : Type)
  | logAndApply (edit : Edit K) (pushed : Level → List (InternalKey K))
  | addToCompleteGuards (level : Level) (guard : InternalKey K)
  | newFileNumber
  | reuseFileNumber (number : Nat)
  | markFileNumberUsed (number : Nat)
  | setLastSequence (sequence : Nat)

def VersionSet.step (codec : KeyCodec K) (comparator : List UInt8)
    (vs : VersionSet K) : VersionSet.Action K → Option (VersionSet K)
  | .logAndApply edit pushed => vs.logAndApply codec comparator edit pushed
  | .addToCompleteGuards level guard =>
      some { vs with
        current := Function.update vs.current level
          ((vs.current level).pushGuards [guard]) }
  | .newFileNumber => some { vs with nextFileNumber := u64 (vs.nextFileNumber + 1) }
  | .reuseFileNumber number =>
      some { vs with
        nextFileNumber :=
          if vs.nextFileNumber = u64 (number + 1) then number else vs.nextFileNumber }
  | .markFileNumberUsed number =>
      some { vs with
        nextFileNumber :=
          if vs.nextFileNumber ≤ number then u64 (number + 1) else vs.nextFileNumber }
  | .setLastSequence sequence =>
      some { vs with
        lastSequence := if vs.lastSequence ≤ sequence then sequence else vs.lastSequence }

def VersionSet.run (codec : KeyCodec K) (comparator : List UInt8) (vs : VersionSet K)
    (actions : List (VersionSet.Action K)) : Option (VersionSet K) :=
  actions.foldlM (VersionSet.step codec comparator) vs

inductive RecoverError
  | decode (error : DecodeError)
  | comparatorMismatch (name : List UInt8)
  | corruption (msg : String)
deriving DecidableEq, Repr

/-- What `Recover` collects from the records of a manifest. -/
structure Recovery (K : Type) where
  builder : Level → LevelState K
  compactPointer : Level → Option (InternalKey K)
  logNumber : Option Nat
  prevLogNumber : Option Nat
  nextFile : Option Nat
  lastSequence : Option Nat

def Recovery.start : Recovery K :=
  { builder := fun _ => LevelState.empty
    compactPointer := fun _ => none
    logNumber := none
    prevLogNumber := none
    nextFile := none
    lastSequence := none }

/-- The effect of an edit that was decoded. -/
def Recovery.apply (r : Recovery K) (edit : Edit K) : Recovery K :=
  { builder := fun level => (r.builder level).apply (edit.level level)
    compactPointer := applyCompactPointers r.compactPointer edit
    logNumber := edit.logNumber.or r.logNumber
    prevLogNumber := edit.prevLogNumber.or r.prevLogNumber
    nextFile := edit.nextFileNumber.or r.nextFile
    lastSequence := edit.lastSequence.or r.lastSequence }

/-- The loop of `Recover` over the records. -/
def recoverRecords (codec : KeyCodec K) (comparator : List UInt8) :
    Recovery K → List (List UInt8) → Except RecoverError (Recovery K)
  | r, [] => .ok r
  | r, record :: records =>
      match VersionEdit.decodeFrom codec.format record with
      | .error e => .error (.decode e)
      | .ok edit =>
          if edit.comparator.all (fun name => decide (name = comparator)) then
            recoverRecords codec comparator (r.apply edit) records
          else
            .error (.comparatorMismatch (edit.comparator.getD []))

/-- The end of `Recover`: the checks, and the version set with the new version. -/
def Recovery.finish (r : Recovery K) : Except RecoverError (VersionSet K) :=
  match r.nextFile, r.logNumber, r.lastSequence with
  | none, _, _ => .error (.corruption "no meta-nextfile entry in descriptor")
  | some _, none, _ => .error (.corruption "no meta-lognumber entry in descriptor")
  | some _, some _, none => .error (.corruption "no last-sequence-number entry in descriptor")
  | some nextFile, some logNumber, some lastSequence =>
      .ok
        { current := fun level => saveTo LevelVersion.empty (r.builder level)
          compactPointer := r.compactPointer
          nextFileNumber := nextFile + 1
          manifestFileNumber := nextFile
          lastSequence := lastSequence
          logNumber := logNumber
          prevLogNumber := r.prevLogNumber.getD 0
          descriptorLog := none }

/-- `Recover`, for the records that the manifest is read back to. -/
def recover (codec : KeyCodec K) (comparator : List UInt8)
    (records : List (List UInt8)) : Except RecoverError (VersionSet K) :=
  match recoverRecords codec comparator Recovery.start records with
  | .error e => .error e
  | .ok r => r.finish

end HotTLBApps.PebblesDB
