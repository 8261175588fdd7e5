import HotTLBApps.PebblesDB.PickCompaction
import HotTLBApps.PebblesDB.Table
import HotTLBApps.PebblesDB.VersionSet

/-!
# PebblesDB: running a compaction (`DoCompactionWorkGuards` of `db/db_impl.cc`)

The entries of the inputs are read in order, some are dropped, and the others are
written to new tables.

* `Compaction.entries`: the input iterator.  In each level it goes through the
  sentinel files and the guards one after another and merges the files of each of
  them; the two levels are merged as well.
* `dropEntry`: the decision to drop an entry, with what the loop remembers of the
  entries before it and the positions of `IsBaseLevelForKey`.
* `OutputState.add`: the decision to close the open table, which is made when a
  guard is passed and when the table is large enough.
* `DB.compact`: the outputs are installed as a new version.

`CrossesBoundary` is left out: nothing fills the boundaries of a compaction, so it
always returns false.  Only compactions whose reads and writes succeed are
modelled.
-/

namespace HotTLBApps.PebblesDB

variable {K V : Type} [LinearOrder K]

/-- What a compaction depends on besides the version: the oldest snapshot, the
garbage cutoff, the size of a table while it is written and when it is finished,
and the numbers of the new files. -/
structure CompactionEnv (K V : Type) where
  smallestSnapshot : Nat
  manualGarbageCutoff : Nat
  fileSize : List (Entry K V) → Nat
  finishedSize : List (Entry K V) → Nat
  number : Nat → Nat

/-- What `LevelGuardNumIterator` passes on at its positions, the sentinel files and the guards: the
file numbers above its own number, which is zero. -/
def LevelInputs.positions (inputs : LevelInputs K) : List (List Nat) :=
  if inputs.files.isEmpty then
    []
  else
    (inputs.sentinelInputs.map (·.number) ::
      inputs.guardInputs.map fun g => g.files.take g.numberSegments).map fun numbers =>
        numbers.filter fun number => decide (0 < number)

/-- `value()` writes 16 bytes for each file of a position and 8 more into `value_buf_`, which has
16384 bytes. -/
def LevelInputs.fitsBuffer (inputs : LevelInputs K) : Bool :=
  inputs.positions.all fun numbers => decide (16 * numbers.length + 8 ≤ 16384)

def LevelInputs.entries (tables : Tables K V) (inputs : LevelInputs K) : List (Entry K V) :=
  inputs.positions.flatMap fun numbers => mergeTables (numbers.map tables)

def Compaction.fitsBuffer (c : Compaction K) : Bool :=
  c.inputs.fitsBuffer && c.nextInputs.fitsBuffer

/-- `MakeInputIteratorForGuardsInALevel`, as far as `value_buf_` holds what is written to it. -/
def Compaction.entries (tables : Tables K V) (c : Compaction K) : List (Entry K V) :=
  mergeTables [c.inputs.entries tables, c.nextInputs.entries tables]

/-- The inner loop of `IsBaseLevelForKey`, over the files of a level from its
position on. -/
def advanceLevelPtr (userKey : K) : List (FileMetaData K) → Nat → Bool × Nat
  | [], ptr => (true, ptr)
  | f :: files, ptr =>
      if userKey ≤ f.largest.userKey then
        (!decide (f.smallest.userKey ≤ userKey), ptr)
      else
        advanceLevelPtr userKey files (ptr + 1)

/-- The levels that `IsBaseLevelForKey` looks at. -/
def levelsBeyond (level : Level) : List Level :=
  (List.finRange kNumLevels).filter fun l => decide (level.val + 2 ≤ l.val)

/-- The outer loop of `IsBaseLevelForKey`. -/
def isBaseLevelForKeyLoop
    (v : Version K) (userKey : K) : List Level → (Level → Nat) → Bool × (Level → Nat)
  | [], ptrs => (true, ptrs)
  | l :: levels, ptrs =>
      match advanceLevelPtr userKey ((v l).files.drop (ptrs l)) (ptrs l) with
      | (false, ptr) => (false, Function.update ptrs l ptr)
      | (true, ptr) => isBaseLevelForKeyLoop v userKey levels (Function.update ptrs l ptr)

def isBaseLevelForKey (v : Version K) (level : Level) (userKey : K)
    (levelPtrs : Level → Nat) : Bool × (Level → Nat) :=
  isBaseLevelForKeyLoop v userKey (levelsBeyond level) levelPtrs

/-- What the loop remembers of the entries that it has seen. -/
structure DropState (K : Type) where
  currentKey : Option K
  lastSequenceForKey : Nat
  levelPtrs : Level → Nat

def DropState.start : DropState K :=
  { currentKey := none
    lastSequenceForKey := kMaxSequenceNumber
    levelPtrs := fun _ => 0 }

/-- Whether an entry is dropped.  Keys that do not parse, of the type of guards,
are kept. -/
def dropEntry (v : Version K) (level : Level) (env : CompactionEnv K V) (st : DropState K)
    (e : Entry K V) : Bool × DropState K :=
  if e.key.type = .kTypeGuard then
    (false, { st with currentKey := none, lastSequenceForKey := kMaxSequenceNumber })
  else
    let lastSequence :=
      if st.currentKey = some e.userKey then st.lastSequenceForKey else kMaxSequenceNumber
    let result :=
      if lastSequence ≤ env.smallestSnapshot then
        (true, st.levelPtrs)
      else if e.key.type = .kTypeDeletion ∧ e.key.sequence ≤ env.smallestSnapshot then
        isBaseLevelForKey v level e.userKey st.levelPtrs
      else
        (false, st.levelPtrs)
    (result.1 && !(decide (lastSequence = kMaxSequenceNumber) &&
        decide (env.manualGarbageCutoff ≤ e.key.sequence)),
      { currentKey := some e.userKey
        lastSequenceForKey := e.key.sequence
        levelPtrs := result.2 })

def keptEntries (v : Version K) (level : Level)
    (env : CompactionEnv K V) : DropState K → List (Entry K V) → List (Entry K V)
  | _, [] => []
  | st, e :: entries =>
      match dropEntry v level env st e with
      | (true, st') => keptEntries v level env st' entries
      | (false, st') => e :: keptEntries v level env st' entries

/-- `CompactionState::Output`, with the entries of the table. -/
structure Output (K V : Type) where
  smallest : InternalKey K
  largest : InternalKey K
  entries : List (Entry K V)
deriving DecidableEq, Repr

/-- The open table, the finished ones and the guards that were not passed yet. -/
structure OutputState (K V : Type) where
  guards : List K
  builder : Option (Output K V)
  outputs : List (Output K V)

/-- `FinishCompactionOutputFile`. -/
def OutputState.finish (st : OutputState K V) : OutputState K V :=
  { st with
    builder := none
    outputs := st.outputs ++ st.builder.toList }

/-- An entry at or after the current guard closes the open table, unless it is
empty. -/
def OutputState.passGuards (st : OutputState K V) (userKey : K) : OutputState K V :=
  match st.guards with
  | [] => st
  | guardKey :: _ =>
      if guardKey ≤ userKey then
        { st.finish with
          guards := st.guards.dropWhile fun guardKey => decide (guardKey ≤ userKey) }
      else
        st

/-- An entry is added to the open table, or to a new one. -/
def OutputState.write (st : OutputState K V) (e : Entry K V) : OutputState K V :=
  { st with
    builder := some (match st.builder with
      | none => { smallest := e.key, largest := e.key, entries := [e] }
      | some out => { out with largest := e.key, entries := out.entries ++ [e] }) }

/-- A table that is large enough is closed. -/
def OutputState.closeFull
    (full : List (Entry K V) → Bool) (st : OutputState K V) : OutputState K V :=
  match st.builder with
  | none => st
  | some out => if full out.entries then st.finish else st

/-- The loop body for an entry that is kept. -/
def OutputState.add
    (full : List (Entry K V) → Bool) (st : OutputState K V) (e : Entry K V) : OutputState K V :=
  ((st.passGuards e.userKey).write e).closeFull full

def splitEntries (full : List (Entry K V) → Bool) (guards : List K)
    (entries : List (Entry K V)) : List (Output K V) :=
  (entries.foldl (OutputState.add full)
    { guards := guards, builder := none, outputs := [] }).finish.outputs

/-- A table has reached `MaxOutputFileSize`. -/
def CompactionEnv.full
    (env : CompactionEnv K V) (level : Level) (entries : List (Entry K V)) : Bool :=
  decide (maxFileSizeForLevel level ≤ env.fileSize entries)

/-- The loop body of `DoCompactionWorkGuards`. -/
def compactionStep
    (v : Version K) (level : Level) (env : CompactionEnv K V) (st : DropState K × OutputState K V)
    (e : Entry K V) : DropState K × OutputState K V :=
  match dropEntry v level env st.1 e with
  | (true, dropState) => (dropState, st.2)
  | (false, dropState) => (dropState, st.2.add (env.full level) e)

/-- The outputs of `DoCompactionWorkGuards`. -/
def doCompactionWorkGuards (v : Version K) (tables : Tables K V) (c : Compaction K)
    (env : CompactionEnv K V) : List (Output K V) :=
  ((c.entries tables).foldl (compactionStep v c.level env)
    (DropState.start,
      { guards := c.completeGuards, builder := none, outputs := [] })).2.finish.outputs

def CompactionEnv.outputFile (env : CompactionEnv K V) (p : Output K V × Nat) : FileMetaData K :=
  { number := env.number p.2
    fileSize := env.finishedSize p.1.entries
    smallest := p.1.smallest
    largest := p.1.largest }

/-- The table files after the outputs are written. -/
def CompactionEnv.writeTables
    (env : CompactionEnv K V) (tables : Tables K V) (outputs : List (Output K V)) : Tables K V :=
  fun number =>
    match outputs.zipIdx.find? fun p => decide (env.number p.2 = number) with
    | some p => p.1.entries
    | none => tables number

/-- `AddInputDeletions`. -/
def Compaction.inputDeletions (c : Compaction K) : Finset (Level ×ₗ Nat) :=
  (c.inputs.files.map (fun f => toLex (c.level, f.number)) ++
    c.next.toList.flatMap fun next =>
      c.nextInputs.files.map fun f => toLex (next, f.number)).toFinset

/-- The edit of a compaction: the deletions and outputs of
`InstallCompactionResults`, and the complete guards of its levels, which
`BackgroundCompactionGuards` adds unless the compaction is manual. -/
def Compaction.edit (c : Compaction K) (manual : Bool) (v : Version K)
    (outputs : List (FileMetaData K)) : Edit K :=
  { VersionEdit.clear with
    deletedFiles := c.inputDeletions
    newFiles := outputs.map fun f => (c.outputLevel, f)
    newGuards := fun l =>
      if manual = false ∧ (l = c.level ∨ c.next = some l) then (v l).completeGuards else [] }

/-- The version that `LogAndApply` builds from an edit. -/
def Version.apply (v : Version K) (edit : Edit K) : Version K :=
  fun level => (v level).install (edit.level level)

/-- Writers push complete guards to the current version at any time. -/
def Version.pushGuards (v : Version K) (pushed : Level → List (InternalKey K)) : Version K :=
  fun level => (v level).pushGuards (pushed level)

structure DB (K V : Type) where
  version : Version K
  tables : Tables K V

/-- A compaction is run and installed; `pushed` are the complete guards that are
pushed while it runs. -/
def DB.compact (db : DB K V) (c : Compaction K) (manual : Bool) (env : CompactionEnv K V)
    (pushed : Level → List (InternalKey K)) : DB K V :=
  if c.inputs.files.isEmpty && c.nextInputs.files.isEmpty then
    { db with version := db.version.pushGuards pushed }
  else
    let outputs := doCompactionWorkGuards db.version db.tables c env
    { version := (db.version.pushGuards pushed).apply
        (c.edit manual db.version (outputs.zipIdx.map env.outputFile))
      tables := env.writeTables db.tables outputs }

/-- A compaction as it runs; `none` if an input iterator writes past the end of `value_buf_`. -/
def DB.runCompaction (db : DB K V) (c : Compaction K) (manual : Bool) (env : CompactionEnv K V)
    (pushed : Level → List (InternalKey K)) : Option (DB K V) :=
  if c.fitsBuffer then some (db.compact c manual env pushed) else none

end HotTLBApps.PebblesDB
