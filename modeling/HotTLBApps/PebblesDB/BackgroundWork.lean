import HotTLBApps.Lib.Runs
import HotTLBApps.PebblesDB.Flush

/-!
# PebblesDB: a flush and a compaction at the same time (`db/db_impl.cc`, `LogAndApply`)

The thread that flushes memtables and the thread that runs compactions, as a machine whose
steps are the parts that are done while `mutex_` is held and the work in between.

* A flush takes the current version, reads the guards of its first level and reserves file
  numbers; it builds the tables, and then calls `LogAndApply`.
* A compaction picks its inputs from the current version and takes its complete guards as
  the new guards; it gets a file number for each of its outputs while it runs.
* `LogAndApply` builds a version from the one that is current when it starts.  It lets go of
  the mutex while the manifest is written, and the calls wait for each other.  The complete
  guards that writers push in the meantime are carried over to the new version.

The first flush adds the complete guards of the version it started from to its edit.  This
version is the current one until another one is installed, so that complete guards are
pushed to it as well: `live` says that it still is.

Only work that succeeds is modelled, with inputs that fit the buffer of their iterator.
-/

namespace HotTLBApps.PebblesDB

variable {K V : Type} [LinearOrder K]

/-- A version that `LogAndApply` has built and not installed yet, and how many complete
guards the levels of the version before it had. -/
structure PendingVersion (K : Type) where
  version : Version K
  sizes : Level → Nat

inductive FlushJob (K V : Type) [LinearOrder K]
  | idle
  | building (base : Version K) (live : Bool) (mem : MemTable K V) (numbers : List Nat)
  | built (base : Version K) (live : Bool) (files : List (FileMetaData K))
  | logging

inductive CompactionJob (K : Type)
  | idle
  | working (base : Version K) (c : Compaction K) (numbers : List Nat)
  | finished (base : Version K) (c : Compaction K) (files : List (FileMetaData K))
  | logging

structure BackgroundState (K V : Type) [LinearOrder K] where
  version : Version K
  tables : Tables K V
  nextFileNumber : Nat
  firstFlush : Bool
  flush : FlushJob K V
  compaction : CompactionJob K
  pending : Option (PendingVersion K)

inductive BackgroundAction (K V : Type) [LinearOrder K]
  | addToCompleteGuards (level : Level) (guard : InternalKey K)
  /-- A file number for another purpose. -/
  | newFileNumber
  | flushStart (mem : MemTable K V)
  | flushBuild (env : CompactionEnv K V)
  | flushLog
  | compactionStart (scores : Level → LevelScores) (level : Level) (forceCompact : Bool)
  /-- The number of the next output. -/
  | openOutput
  | compactionWork (env : CompactionEnv K V)
  | compactionLog
  /-- The end of `LogAndApply`. -/
  | logEnd

section

/-- A version with one more complete guard. -/
def Version.addToCompleteGuards
    (v : Version K) (level : Level) (guard : InternalKey K) : Version K :=
  Function.update v level ((v level).pushGuards [guard])

/-- A complete guard is pushed to the version that the flush started from, if this is still
the current one. -/
def FlushJob.addToCompleteGuards
    (level : Level) (guard : InternalKey K) : FlushJob K V → FlushJob K V
  | .building base live mem numbers =>
      .building (if live then base.addToCompleteGuards level guard else base) live mem numbers
  | .built base live files =>
      .built (if live then base.addToCompleteGuards level guard else base) live files
  | job => job

/-- A new version is installed. -/
def FlushJob.logEnd : FlushJob K V → FlushJob K V
  | .building base _ mem numbers => .building base false mem numbers
  | .built base _ files => .built base false files
  | _ => .idle

/-- A new version is installed. -/
def CompactionJob.logEnd : CompactionJob K → CompactionJob K
  | .working base c numbers => .working base c numbers
  | .finished base c files => .finished base c files
  | _ => .idle

def FlushJob.numbers : FlushJob K V → List Nat
  | .building _ _ _ numbers => numbers
  | .built _ _ files => files.map (·.number)
  | _ => []

def CompactionJob.numbers : CompactionJob K → List Nat
  | .working _ _ numbers => numbers
  | .finished _ _ files => files.map (·.number)
  | _ => []

/-- The version that is installed at the end of `LogAndApply`. -/
def PendingVersion.installed (p : PendingVersion K) (current : Version K) : Version K :=
  fun l => (p.version l).pushGuards ((current l).completeGuards.drop (p.sizes l))

/-- The version that `LogAndApply` builds from the current one. -/
def Version.pending (v : Version K) (edit : Edit K) : PendingVersion K :=
  { version := v.apply edit
    sizes := fun l => (v l).completeGuards.length }

/-- The numbers of the new tables. -/
def CompactionEnv.withNumbers
    (env : CompactionEnv K V) (numbers : List Nat) (next : Nat) : CompactionEnv K V :=
  { env with number := numbering numbers next }

/-- The files of a flush; the tables without contents are left out. -/
def flushFiles (env : CompactionEnv K V) (outputs : List (Output K V)) : List (FileMetaData K) :=
  (outputs.zipIdx.map env.outputFile).filter fun f => decide (0 < f.fileSize)

def flushEdit (first : Bool) (base : Version K) (files : List (FileMetaData K)) : Edit K :=
  { VersionEdit.clear with
    newFiles := files.map fun f => (0, f)
    newCompleteGuards := fun l => if first then (base l).completeGuards else [] }

variable (s : BackgroundState K V)

def BackgroundState.held : List Nat :=
  s.flush.numbers ++ s.compaction.numbers

/-- `AddToCompleteGuards` of the current version. -/
def BackgroundState.addToCompleteGuards
    (level : Level) (guard : InternalKey K) : BackgroundState K V :=
  { s with
    version := s.version.addToCompleteGuards level guard
    flush := s.flush.addToCompleteGuards level guard }

/-- `WriteLevel0TableGuards` up to the point where it lets go of the mutex. -/
def BackgroundState.flushStart (mem : MemTable K V) : BackgroundState K V :=
  { s with
    nextFileNumber := s.nextFileNumber + ((s.version 0).guards.length + 1)
    flush := .building s.version true mem
      (List.range' s.nextFileNumber ((s.version 0).guards.length + 1)) }

/-- `BuildLevel0Tables`. -/
def BackgroundState.flushBuild (env : CompactionEnv K V) (base : Version K) (live : Bool)
    (mem : MemTable K V) : BackgroundState K V :=
  { s with
    tables := env.writeTables s.tables
      (buildLevel0Tables (guardUserKeys (base 0).guards) mem.entries)
    flush := .built base live
      (flushFiles env (buildLevel0Tables (guardUserKeys (base 0).guards) mem.entries)) }

/-- The start of `LogAndApply` for a flush. -/
def BackgroundState.flushLog
    (base : Version K) (files : List (FileMetaData K)) : BackgroundState K V :=
  { s with
    firstFlush := false
    flush := .logging
    pending := some (s.version.pending (flushEdit s.firstFlush base files)) }

/-- The work of a compaction. -/
def BackgroundState.compactionWork
    (env : CompactionEnv K V) (base : Version K) (c : Compaction K) : BackgroundState K V :=
  { s with
    tables := env.writeTables s.tables (doCompactionWorkGuards base s.tables c env)
    compaction := .finished base c (DB.outputFiles ⟨base, s.tables⟩ c env) }

/-- The start of `LogAndApply` for a compaction. -/
def BackgroundState.compactionLog
    (base : Version K) (c : Compaction K) (files : List (FileMetaData K)) : BackgroundState K V :=
  { s with
    compaction := .logging
    pending := some (s.version.pending (c.edit false base files)) }

/-- The end of `LogAndApply`. -/
def BackgroundState.logEnd (p : PendingVersion K) : BackgroundState K V :=
  { s with
    version := p.installed s.version
    flush := s.flush.logEnd
    compaction := s.compaction.logEnd
    pending := none }

/-- One step; `none` when it is not possible. -/
def BackgroundState.step : BackgroundAction K V → Option (BackgroundState K V)
  | .addToCompleteGuards level guard => some (s.addToCompleteGuards level guard)
  | .newFileNumber => some { s with nextFileNumber := s.nextFileNumber + 1 }
  | .flushStart mem =>
      match s.flush with
      | .idle => some (s.flushStart mem)
      | _ => none
  | .flushBuild env =>
      match s.flush with
      | .building base live mem numbers =>
          some (s.flushBuild (env.withNumbers numbers s.nextFileNumber) base live mem)
      | _ => none
  | .flushLog =>
      match s.flush, s.pending with
      | .built base _ files, none => some (s.flushLog base files)
      | _, _ => none
  | .compactionStart scores level forceCompact =>
      match s.compaction, pickCompactionForGuards s.version scores level forceCompact with
      | .idle, some c => some { s with compaction := .working s.version c [] }
      | _, _ => none
  | .openOutput =>
      match s.compaction with
      | .working base c numbers =>
          some { s with
            nextFileNumber := s.nextFileNumber + 1
            compaction := .working base c (numbers ++ [s.nextFileNumber]) }
      | _ => none
  | .compactionWork env =>
      match s.compaction with
      | .working base c numbers =>
          if c.inputs.files.isEmpty && c.nextInputs.files.isEmpty then
            some { s with compaction := .idle }
          else if c.fitsBuffer = true ∧ (doCompactionWorkGuards base s.tables c
              (env.withNumbers numbers s.nextFileNumber)).length = numbers.length then
            some (s.compactionWork (env.withNumbers numbers s.nextFileNumber) base c)
          else
            none
      | _ => none
  | .compactionLog =>
      match s.compaction, s.pending with
      | .finished base c files, none => some (s.compactionLog base c files)
      | _, _ => none
  | .logEnd =>
      match s.pending with
      | some p => some (s.logEnd p)
      | none => none

/-- What the steps do, and when they are possible. -/
inductive BackgroundStep : BackgroundAction K V → BackgroundState K V → Prop
  | addToCompleteGuards {level : Level} {guard : InternalKey K} :
      BackgroundStep (.addToCompleteGuards level guard) (s.addToCompleteGuards level guard)
  | newFileNumber :
      BackgroundStep .newFileNumber { s with nextFileNumber := s.nextFileNumber + 1 }
  | flushStart {mem : MemTable K V}
      (hidle : s.flush = .idle) :
      BackgroundStep (.flushStart mem) (s.flushStart mem)
  | flushBuild {env : CompactionEnv K V} {base : Version K} {live : Bool}
      {mem : MemTable K V} {numbers : List Nat}
      (hjob : s.flush = .building base live mem numbers) :
      BackgroundStep (.flushBuild env)
        (s.flushBuild (env.withNumbers numbers s.nextFileNumber) base live mem)
  | flushLog {base : Version K} {live : Bool} {files : List (FileMetaData K)}
      (hjob : s.flush = .built base live files)
      (hpending : s.pending = none) :
      BackgroundStep .flushLog (s.flushLog base files)
  | compactionStart {scores : Level → LevelScores} {level : Level} {forceCompact : Bool}
      {c : Compaction K}
      (hidle : s.compaction = .idle)
      (hpick : pickCompactionForGuards s.version scores level forceCompact = some c) :
      BackgroundStep (.compactionStart scores level forceCompact)
        { s with compaction := .working s.version c [] }
  | openOutput {base : Version K} {c : Compaction K} {numbers : List Nat}
      (hjob : s.compaction = .working base c numbers) :
      BackgroundStep .openOutput
        { s with
          nextFileNumber := s.nextFileNumber + 1
          compaction := .working base c (numbers ++ [s.nextFileNumber]) }
  | withoutInputs {env : CompactionEnv K V} {base : Version K} {c : Compaction K}
      {numbers : List Nat}
      (hjob : s.compaction = .working base c numbers) :
      BackgroundStep (.compactionWork env) { s with compaction := .idle }
  | compactionWork {env : CompactionEnv K V} {base : Version K} {c : Compaction K}
      {numbers : List Nat}
      (hjob : s.compaction = .working base c numbers)
      (hlength : (doCompactionWorkGuards base s.tables c
        (env.withNumbers numbers s.nextFileNumber)).length = numbers.length) :
      BackgroundStep (.compactionWork env)
        (s.compactionWork (env.withNumbers numbers s.nextFileNumber) base c)
  | compactionLog {base : Version K} {c : Compaction K} {files : List (FileMetaData K)}
      (hjob : s.compaction = .finished base c files)
      (hpending : s.pending = none) :
      BackgroundStep .compactionLog (s.compactionLog base c files)
  | logEnd {p : PendingVersion K}
      (hpending : s.pending = some p) :
      BackgroundStep .logEnd (s.logEnd p)

variable {s} {s' : BackgroundState K V} {a : BackgroundAction K V}

/-- **What a step can do.** -/
theorem backgroundStep_of_step (h : s.step a = some s') : BackgroundStep s a s' := by
  cases a with
  | addToCompleteGuards | newFileNumber =>
    cases h
    constructor
  | compactionWork env =>
    simp only [BackgroundState.step] at h
    split at h
    · next hjob =>
        split_ifs at h with hempty hlength
        · cases h
          exact .withoutInputs hjob
        · cases h
          exact .compactionWork hjob hlength.2
    · cases h
  | _ =>
    simp only [BackgroundState.step] at h
    split at h
    · cases h
      constructor <;> assumption
    · cases h

end

def BackgroundState.opened : BackgroundState K V where
  version := fun _ => LevelVersion.empty
  tables := fun _ => []
  nextFileNumber := 2
  firstFlush := true
  flush := .idle
  compaction := .idle
  pending := none

end HotTLBApps.PebblesDB
