import Mathlib.Tactic
import HotTLBApps.Lib.Runs

/-!
# PebblesDB: writers, the memtable switch and the flush (`db/db_impl.cc`)

Calls of `DBImpl::Write`, the thread that flushes memtables, `DeleteObsoleteFiles` and the
creation of iterators, as a machine in which every step is what one thread does while it
holds a lock, or one access to a file.

A call takes the current log when it begins, and a ticket with its sequence numbers.  It
writes its batch to the log, and at the end it puts the batch into the memtable that is
current then.  `SequenceWriteBegin` makes a new log and a new memtable when the memtable
is full.

`WriteState.step` carries a step out.  What a step can do is said once, by `WriteStep` and
`writeStep_of_step`; the invariants of the runs are derived from that.
-/

namespace HotTLBApps.PebblesDB

open Function

section Machine

structure WriteCalls (ω : Type) where
  /-- How many entries the batch has; `none` for a call without a batch, which only asks for
  a new memtable. -/
  count : ω → Option Nat
  /-- `ApproximateMemoryUsage() <= write_buffer_size`, for a memtable with these batches. -/
  room : List ω → Bool

/-- By how much a call moves the sequence numbers, beside the one for its end. -/
def WriteCalls.diff {ω : Type} (calls : WriteCalls ω) (w : ω) : Nat :=
  (calls.count w).getD 0

inductive WriterPc
  | idle
  /-- The first part of `SequenceWriteBegin` is done; `log` is `w->log_`. -/
  | begun (log : Nat)
  /-- `SequenceWriteBegin` is done. -/
  | ticketed (log : Nat)
  /-- The batch was written to the log; `ok` is the status. -/
  | recorded (log : Nat) (ok : Bool)
  /-- `Write` returned. -/
  | returned (ok : Bool)
  deriving DecidableEq

inductive FlushPc (ω : Type)
  | waiting
  | started
  /-- The tables were built. -/
  | built (batches : List ω)
  /-- The edit was made; `LogAndApply` writes it to the manifest. -/
  | edited (batches : List ω) (logNumber : Nat)

/-- An iterator: its snapshot, the memtables that it reads, and what was in them when it was
created. -/
structure MemIterator (ω : Type) where
  snapshot : Nat
  memtables : List Nat
  seen : Nat → List ω

structure WriteState (ω : Type) where
  /-- The batches in each memtable. -/
  contents : Nat → List ω
  mem : Nat
  imm : Option Nat
  nextMem : Nat
  /-- The log files that exist, with the batches in them. -/
  logs : Nat → Option (List ω)
  logfileNumber : Nat
  nextFileNumber : Nat
  /-- `versions_->LogNumber()`. -/
  logNumber : Nat
  /-- The batches in the table files of the current version. -/
  tables : List ω
  bgError : Bool
  writersUpper : Nat
  lastSequence : Nat
  writers : ω → WriterPc
  /-- `w->start_sequence_`. -/
  start : ω → Nat
  flush : FlushPc ω
  iterators : List (MemIterator ω)

inductive WriteAction (ω : Type)
  /-- The part of `SequenceWriteBegin` under `mutex_`; whether a new log could be opened. -/
  | begin (w : ω) (opened : Bool)
  /-- The part of `SequenceWriteBegin` under `writers_mutex_`. -/
  | ticket (w : ω)
  /-- `AddRecord`, and `Sync` if it is asked for; whether `Sync` succeeded. -/
  | record (w : ω) (synced : Bool)
  /-- `SequenceWriteEnd`. -/
  | finish (w : ω)
  /-- The memtable to flush is taken, and file numbers are reserved. -/
  | flushStart (reserved : Nat)
  /-- `BuildLevel0Tables`; whether the tables could be built. -/
  | flushBuild (built : Bool)
  | flushEdit
  /-- The end of `LogAndApply`; whether the manifest was written. -/
  | flushInstall (written : Bool)
  | deleteObsoleteFiles
  | newIterator

variable {ω : Type} [DecidableEq ω] (calls : WriteCalls ω)

def WriteState.setWriter (s : WriteState ω) (w : ω) (pc : WriterPc) : WriteState ω :=
  { s with writers := update s.writers w pc }

def WriteState.switch (s : WriteState ω) : WriteState ω :=
  { s with
    logs := update s.logs s.nextFileNumber (some [])
    logfileNumber := s.nextFileNumber
    nextFileNumber := s.nextFileNumber + 1
    imm := some s.mem
    mem := s.nextMem
    nextMem := s.nextMem + 1
    contents := update s.contents s.nextMem [] }

/-- The first part of `SequenceWriteBegin`; `none` when the call waits. -/
def WriteState.begin (s : WriteState ω) (w : ω) (opened : Bool) : Option (WriteState ω) :=
  if s.bgError then
    some (s.setWriter w (.returned false))
  else if calls.count w ≠ none ∧ calls.room (s.contents s.mem) = true then
    some (s.setWriter w (.begun s.logfileNumber))
  else if s.imm ≠ none then
    none
  else if opened then
    some (s.switch.setWriter w (.begun s.nextFileNumber))
  else
    some (s.setWriter w (.returned false))

/-- The second part of `SequenceWriteBegin`. -/
def WriteState.ticket (s : WriteState ω) (w : ω) (log : Nat) : WriteState ω :=
  { s.setWriter w (.ticketed log) with
    writersUpper := s.writersUpper + (1 + calls.diff w)
    start := update s.start w (s.writersUpper + (1 + calls.diff w) - calls.diff w) }

/-- `AddRecord` to the log file `log`, if it exists. -/
def addRecord (logs : Nat → Option (List ω)) (log : Nat) (w : ω) : Nat → Option (List ω) :=
  update logs log ((logs log).map (· ++ [w]))

/-- The batch is written to the log, which may have been deleted.  A call without a batch
writes nothing. -/
def WriteState.record (s : WriteState ω) (w : ω) (log : Nat) (synced : Bool) : WriteState ω :=
  if calls.count w = none then
    s.setWriter w (.recorded log true)
  else
    { s.setWriter w (.recorded log synced) with
      logs := addRecord s.logs log w }

def setLastSequence (last seq : Nat) : Nat :=
  if last ≤ seq then seq else last

/-- `SequenceWriteEnd`. -/
def WriteState.finish (s : WriteState ω) (w : ω) (ok : Bool) : WriteState ω :=
  { s.setWriter w (.returned ok) with
    contents :=
      if ok = true ∧ calls.count w ≠ none then
        update s.contents s.mem (s.contents s.mem ++ [w])
      else
        s.contents
    bgError := s.bgError || !ok
    lastSequence := setLastSequence s.lastSequence (s.start w + calls.diff w) }

/-- The new version is current, and the memtable is dropped. -/
def WriteState.install (s : WriteState ω) (batches : List ω) (logNumber : Nat) : WriteState ω :=
  { s with
    tables := s.tables ++ batches
    logNumber := logNumber
    imm := none
    flush := .waiting }

/-- A flush that fails leaves the memtable to the next try. -/
def WriteState.flushFails (s : WriteState ω) : WriteState ω :=
  { s with
    bgError := true
    flush := .waiting }

/-- `DeleteObsoleteFiles`, for the logs; `PrevLogNumber()` is `0`. -/
def WriteState.deleteObsoleteFiles (s : WriteState ω) : WriteState ω :=
  if s.bgError then
    s
  else
    { s with logs := fun n => if n ≥ s.logNumber ∨ n = 0 then s.logs n else none }

/-- `NewInternalIterator`, called by `NewIterator` without a snapshot. -/
def WriteState.newIterator (s : WriteState ω) : WriteState ω :=
  { s with iterators := s.iterators ++ [{
      snapshot := s.lastSequence
      memtables := s.mem :: s.imm.toList
      seen := s.contents }] }

/-- One step; `none` when it is not possible. -/
def WriteState.step (s : WriteState ω) : WriteAction ω → Option (WriteState ω)
  | .begin w opened =>
      if s.writers w = .idle then s.begin calls w opened else none
  | .ticket w =>
      match s.writers w with
      | .begun log => some (s.ticket calls w log)
      | _ => none
  | .record w synced =>
      match s.writers w with
      | .ticketed log => some (s.record calls w log synced)
      | _ => none
  | .finish w =>
      match s.writers w with
      | .recorded _ ok => some (s.finish calls w ok)
      | _ => none
  | .flushStart reserved =>
      match s.flush with
      | .waiting =>
          if s.imm ≠ none then
            some { s with
              nextFileNumber := s.nextFileNumber + reserved
              flush := .started }
          else
            none
      | _ => none
  | .flushBuild built =>
      match s.flush, s.imm with
      | .started, some imm =>
          if built then
            some { s with flush := .built (s.contents imm) }
          else
            some s.flushFails
      | _, _ => none
  | .flushEdit =>
      match s.flush with
      | .built batches => some { s with flush := .edited batches s.logfileNumber }
      | _ => none
  | .flushInstall written =>
      match s.flush with
      | .edited batches logNumber =>
          if written then
            some (s.install batches logNumber)
          else
            some s.flushFails
      | _ => none
  | .deleteObsoleteFiles => some s.deleteObsoleteFiles
  | .newIterator => some s.newIterator

/-- The database after it was opened: an empty memtable and an empty log. -/
def WriteState.opened (logNumber lastSequence : Nat) : WriteState ω where
  contents := fun _ => []
  mem := 0
  imm := none
  nextMem := 1
  logs := fun n => if n = logNumber then some [] else none
  logfileNumber := logNumber
  nextFileNumber := logNumber + 1
  logNumber := logNumber
  tables := []
  bgError := false
  writersUpper := lastSequence
  lastSequence := lastSequence
  writers := fun _ => .idle
  start := fun _ => 0
  flush := .waiting
  iterators := []

/-- What the steps do, and when they are possible. -/
inductive WriteStep (s : WriteState ω) : WriteAction ω → WriteState ω → Prop
  | refused {w : ω} {opened : Bool}
      (hidle : s.writers w = .idle) :
      WriteStep s (.begin w opened) (s.setWriter w (.returned false))
  | entered {w : ω} {opened : Bool}
      (hidle : s.writers w = .idle) :
      WriteStep s (.begin w opened) (s.setWriter w (.begun s.logfileNumber))
  | switched {w : ω} {opened : Bool}
      (hidle : s.writers w = .idle)
      (himm : s.imm = none) :
      WriteStep s (.begin w opened) (s.switch.setWriter w (.begun s.nextFileNumber))
  | ticket {w : ω} {log : Nat}
      (hpc : s.writers w = .begun log) :
      WriteStep s (.ticket w) (s.ticket calls w log)
  | record {w : ω} {log : Nat} {synced : Bool}
      (hpc : s.writers w = .ticketed log) :
      WriteStep s (.record w synced) (s.record calls w log synced)
  | finish {w : ω} {log : Nat} {ok : Bool}
      (hpc : s.writers w = .recorded log ok) :
      WriteStep s (.finish w) (s.finish calls w ok)
  | flushStart {reserved : Nat} :
      WriteStep s (.flushStart reserved)
        { s with nextFileNumber := s.nextFileNumber + reserved, flush := .started }
  | flushBuild {imm : Nat}
      (himm : s.imm = some imm) :
      WriteStep s (.flushBuild true) { s with flush := .built (s.contents imm) }
  | flushEdit {batches : List ω}
      (hflush : s.flush = .built batches) :
      WriteStep s .flushEdit { s with flush := .edited batches s.logfileNumber }
  | flushInstall {batches : List ω} {logNumber : Nat}
      (hflush : s.flush = .edited batches logNumber) :
      WriteStep s (.flushInstall true) (s.install batches logNumber)
  | buildFails :
      WriteStep s (.flushBuild false) s.flushFails
  | installFails :
      WriteStep s (.flushInstall false) s.flushFails
  | deleteObsoleteFiles :
      WriteStep s .deleteObsoleteFiles s.deleteObsoleteFiles
  | newIterator :
      WriteStep s .newIterator s.newIterator

variable {calls} {s s' : WriteState ω} {a : WriteAction ω}

/-- **What a step can do.** -/
theorem writeStep_of_step (h : s.step calls a = some s') : WriteStep calls s a s' := by
  cases a with
  | begin w opened =>
    simp only [WriteState.step, WriteState.begin] at h
    split_ifs at h with hidle herror hroom himm hopened
    all_goals cases h
    · exact .refused hidle
    · exact .entered hidle
    · exact .switched hidle (not_not.mp himm)
    · exact .refused hidle
  | ticket | record | finish | flushEdit =>
    simp only [WriteState.step] at h
    split at h
    · cases h
      constructor
      assumption
    · cases h
  | flushStart reserved =>
    simp only [WriteState.step] at h
    split at h
    · split_ifs at h
      cases h
      exact .flushStart
    · cases h
  | flushBuild built =>
    simp only [WriteState.step] at h
    split at h
    · next himm =>
        cases built with
        | true => cases h; exact .flushBuild himm
        | false => cases h; exact .buildFails
    · cases h
  | flushInstall written =>
    simp only [WriteState.step] at h
    split at h
    · next hflush =>
        cases written with
        | true => cases h; exact .flushInstall hflush
        | false => cases h; exact .installFails
    · cases h
  | deleteObsoleteFiles | newIterator =>
    cases h
    constructor

theorem contents_finish_of_ne {w : ω} {ok : Bool} {m : Nat}
    (hm : m ≠ s.mem) : (s.finish calls w ok).contents m = s.contents m := by
  unfold WriteState.finish
  split_ifs
  · exact update_of_ne hm ..
  · rfl

theorem mem_contents_finish {w v : ω} {ok : Bool} {m : Nat} : v ∈ (s.finish calls w ok).contents m ↔
      v ∈ s.contents m ∨ v = w ∧ m = s.mem ∧ ok = true ∧ calls.count w ≠ none := by
  by_cases hm : m = s.mem
  · subst hm
    unfold WriteState.finish
    dsimp only
    split_ifs with hinsert
    · rw [update_self, List.mem_append, List.mem_singleton]
      tauto
    · tauto
  · rw [contents_finish_of_ne hm]
    tauto

end Machine

/-- Three calls with one entry each, to a database whose memtables are full after one batch. -/
def threeCalls : WriteCalls (Fin 3) where
  count := fun _ => some 1
  room := List.isEmpty

/-- A call of `Write` from its ticket to its end. -/
def writeMoves (w : Fin 3) : List (WriteAction (Fin 3)) :=
  [.ticket w, .record w true, .finish w]

end HotTLBApps.PebblesDB
