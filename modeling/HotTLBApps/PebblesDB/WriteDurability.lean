import HotTLBApps.PebblesDB.WritePath

/-!
# PebblesDB: acknowledged writes are durable as long as no writer is overtaken by a switch

A write that returned `OK` has to be in a table of the current version, or in a log that
`Recover` replays.  `SequenceWriteBegin` takes the log for a call, and `SequenceWriteEnd`
takes the memtable, so that a memtable switch between the two puts the batch into a
memtable that outlives its log.

`InStep` says that no step does this.  In a run of such steps the memtables and the logs
stay paired (`Paired`), and every acknowledged write is durable.  The last theorem is a run
in which one step does it and a write is lost.
-/

namespace HotTLBApps.PebblesDB

open List Function Option WriteState

section

variable {ω : Type}

/-- The log file `n` exists and has the batch `w`. -/
def InLog (logs : Nat → Option (List ω)) (n : Nat) (w : ω) : Prop :=
  ∃ l, logs n = some l ∧ w ∈ l

variable {logs : Nat → Option (List ω)} {n k : Nat} {v : ω}

theorem addRecord_eq_some {log : Nat} {w : ω} {l : List ω} (h : addRecord logs log w n = some l) :
    ∃ l₀, logs n = some l₀ ∧ l₀ ⊆ l ∧ (n = log → w ∈ l) := by
  obtain ⟨rfl, h⟩ | ⟨hn, h⟩ := update_cases h
  · obtain ⟨l₀, hl₀, rfl⟩ := map_eq_some_iff.mp h
    exact ⟨l₀, hl₀, subset_append_left .., fun _ => mem_append_right _ (by simp)⟩
  · exact ⟨l, h, Subset.refl l, fun h => absurd h hn⟩

theorem exists_addRecord (h : ∃ l, logs n = some l) (log : Nat)
    (w : ω) : ∃ l, addRecord logs log w n = some l := by
  obtain ⟨l, hl⟩ := h
  unfold addRecord
  by_cases hn : n = log
  · subst hn
    exact ⟨l ++ [w], by rw [update_self, hl, map_some]⟩
  · exact ⟨l, by rw [update_of_ne hn, hl]⟩

theorem InLog.addRecord (h : InLog logs n v) (log : Nat)
    (w : ω) : InLog (addRecord logs log w) n v := by
  obtain ⟨l₀, hl₀, hv⟩ := h
  obtain ⟨l, hl⟩ := exists_addRecord ⟨l₀, hl₀⟩ log w
  obtain ⟨l₁, hl₁, hsub, _⟩ := addRecord_eq_some hl
  rw [hl₀] at hl₁
  cases hl₁
  exact ⟨l, hl, hsub hv⟩

theorem InLog.create (h : InLog logs n v) (hn : n ≠ k) : InLog (update logs k (some [])) n v := by
  obtain ⟨l, hl, hv⟩ := h
  exact ⟨l, by rw [update_of_ne hn, hl], hv⟩

theorem InLog.keep (h : InLog logs n v)
    (hn : n ≥ k) : InLog (fun n => if n ≥ k ∨ n = 0 then logs n else none) n v := by
  obtain ⟨l, hl, hv⟩ := h
  exact ⟨l, (if_pos (.inl hn)).trans hl, hv⟩

/-- The write is in a table of the current version, or in a log that `Recover` replays. -/
def WriteState.Durable (s : WriteState ω) (w : ω) : Prop :=
  w ∈ s.tables ∨ ∃ n, s.logNumber ≤ n ∧ InLog s.logs n w

/-- Every write that returned `OK` is durable. -/
def AllDurable (calls : WriteCalls ω) (s : WriteState ω) : Prop :=
  ∀ w, s.writers w = .returned true → calls.count w ≠ none → s.Durable w

/-- The log that has the batch which `SequenceWriteEnd` is going to insert. -/
def WriterPc.logged? : WriterPc → Option Nat
  | .recorded log true => some log
  | _ => none

/-- When `SequenceWriteEnd` inserts a batch, the log that the call took is still the current
one. -/
def InStep (calls : WriteCalls ω) (s : WriteState ω) : WriteAction ω → Prop
  | .finish w =>
      ∀ log ∈ (s.writers w).logged?, calls.count w ≠ none → log = s.logfileNumber
  | _ => True

instance (calls : WriteCalls ω) (s : WriteState ω) : DecidablePred (InStep calls s)
  | .finish w =>
      inferInstanceAs (Decidable
        (∀ log ∈ (s.writers w).logged?, calls.count w ≠ none → log = s.logfileNumber))
  | .begin _ _ | .ticket _ | .record _ _ | .flushStart _ | .flushBuild _ | .flushEdit
  | .flushInstall _ | .deleteObsoleteFiles | .newIterator => instDecidableTrue

/-- The log that a call took. -/
def WriterPc.log? : WriterPc → Option Nat
  | .begun log => some log
  | .ticketed log => some log
  | .recorded log _ => some log
  | _ => none

/-- What the flush thread has in hand is the memtable that is to be flushed, and the log it
makes the oldest one is the current one. -/
def WriteState.FlushOk (s : WriteState ω) : FlushPc ω → Prop
  | .built batches => ∃ m, s.imm = some m ∧ s.contents m = batches
  | .edited batches logNumber =>
      logNumber = s.logfileNumber ∧ ∃ m, s.imm = some m ∧ s.contents m = batches
  | _ => True

/-- **The memtables and the logs are paired.** -/
structure Paired (calls : WriteCalls ω) (s : WriteState ω) : Prop where
  logfileNumber_lt : s.logfileNumber < s.nextFileNumber
  logNumber_le : s.logNumber ≤ s.logfileNumber
  current : ∃ l, s.logs s.logfileNumber = some l
  captured : ∀ w log, (s.writers w).log? = some log → log < s.nextFileNumber
  recorded : ∀ w log ok, s.writers w = .recorded log ok → calls.count w ≠ none →
    ∀ l, s.logs log = some l → w ∈ l
  mem_lt : s.mem < s.nextMem
  mem : ∀ w ∈ s.contents s.mem, InLog s.logs s.logfileNumber w
  imm : ∀ m, s.imm = some m →
    m ≠ s.mem ∧ ∀ w ∈ s.contents m, ∃ n, s.logNumber ≤ n ∧ n ≤ s.logfileNumber ∧
      InLog s.logs n w
  acknowledged : ∀ w, s.writers w = .returned true → calls.count w ≠ none →
    w ∈ s.tables ∨ w ∈ s.contents s.mem ∨ ∃ m, s.imm = some m ∧ w ∈ s.contents m
  flush : s.FlushOk s.flush

variable {calls : WriteCalls ω} {s s' : WriteState ω} {a : WriteAction ω} {w : ω}

theorem Paired.opened (logNumber lastSequence : Nat) :
    Paired calls (WriteState.opened logNumber lastSequence) where
  logfileNumber_lt := Nat.lt_succ_self _
  logNumber_le := le_rfl
  current := ⟨[], if_pos rfl⟩
  captured := by
    nofun
  recorded := by
    nofun
  mem_lt := Nat.zero_lt_one
  mem := by
    nofun
  imm := by
    nofun
  acknowledged := by
    nofun
  flush := trivial

section

variable (h : Paired calls s)
include h

/-- Paired memtables and logs keep every acknowledged write. -/
theorem Paired.allDurable : AllDurable calls s := by
  intro w hpc hbatch
  obtain htables | hmem | ⟨m, hm, himm⟩ := h.acknowledged w hpc hbatch
  · exact .inl htables
  · exact .inr ⟨_, h.logNumber_le, h.mem w hmem⟩
  · obtain ⟨n, hn, _, hlog⟩ := (h.imm m hm).2 w himm
    exact .inr ⟨n, hn, hlog⟩

/-- A new memtable and a new log, while no memtable waits to be flushed. -/
theorem Paired.switch (himm : s.imm = none) : Paired calls s.switch where
  logfileNumber_lt := Nat.lt_succ_self _
  logNumber_le := h.logNumber_le.trans h.logfileNumber_lt.le
  current := ⟨[], update_self ..⟩
  captured := fun v log hv => (h.captured v log hv).trans (Nat.lt_succ_self _)
  recorded := by
    intro v log ok hv hbatch l hl
    -- the new file has a number that no call took
    have hne : log ≠ s.nextFileNumber :=
      (h.captured v log (by rw [show s.writers v = _ from hv]; rfl)).ne
    rw [show s.switch.logs = update s.logs s.nextFileNumber (some []) from rfl,
      update_of_ne hne] at hl
    exact h.recorded v log ok hv hbatch l hl
  mem_lt := Nat.lt_succ_self _
  mem := by
    intro v hv
    rw [show s.switch.contents s.switch.mem = [] from update_self ..] at hv
    cases hv
  imm := by
    intro m hm
    cases hm
    refine ⟨h.mem_lt.ne, ?_⟩
    intro v hv
    rw [show s.switch.contents s.mem = s.contents s.mem from
      update_of_ne h.mem_lt.ne ..] at hv
    exact ⟨s.logfileNumber, h.logNumber_le, h.logfileNumber_lt.le,
      (h.mem v hv).create h.logfileNumber_lt.ne⟩
  acknowledged := by
    intro v hv hbatch
    obtain htables | hmem | ⟨m, hm, _⟩ := h.acknowledged v hv hbatch
    · exact .inl htables
    · refine .inr (.inr ⟨s.mem, rfl, ?_⟩)
      rw [show s.switch.contents s.mem = s.contents s.mem from
        update_of_ne h.mem_lt.ne ..]
      exact hmem
    · rw [himm] at hm
      cases hm
  flush := by
    -- a flush that has something in hand has a memtable
    have hflush := h.flush
    show s.switch.FlushOk s.flush
    cases hpc : s.flush with
    | waiting => trivial
    | started => trivial
    | built batches =>
      rw [hpc] at hflush
      obtain ⟨m, hm, _⟩ := hflush
      rw [himm] at hm
      cases hm
    | edited batches logNumber =>
      rw [hpc] at hflush
      obtain ⟨_, m, hm, _⟩ := hflush
      rw [himm] at hm
      cases hm

/-- The tables are installed, and the logs before the current one are given up. -/
theorem Paired.install {batches : List ω} {logNumber : Nat}
    (hflush : s.flush = .edited batches logNumber) :
    Paired calls (s.install batches logNumber) := by
  have hbatches := h.flush
  rw [hflush] at hbatches
  obtain ⟨rfl, m, hm, rfl⟩ := hbatches
  exact {
    __ := h
    logNumber_le := le_rfl
    imm := by
      nofun
    acknowledged := by
      intro v hv hv'
      obtain htables | hmem | ⟨m', hm', himm⟩ := h.acknowledged v hv hv'
      · exact .inl (mem_append_left _ htables)
      · exact .inr (.inl hmem)
      · rw [hm] at hm'
        cases hm'
        exact .inl (mem_append_right _ himm)
    flush := trivial }

/-- The flush thread goes on, with what fits the state in hand. -/
theorem Paired.flushTo (p : FlushPc ω) (bgError : Bool) (reserved : Nat)
    (hpc : s.FlushOk p) : Paired calls { s with
      nextFileNumber := s.nextFileNumber + reserved, bgError := bgError, flush := p } where
  logfileNumber_lt := h.logfileNumber_lt.trans_le (Nat.le_add_right ..)
  __ := h
  captured := fun v log hv => (h.captured v log hv).trans_le (Nat.le_add_right ..)
  flush := hpc

/-- Only logs that are not needed are deleted. -/
theorem Paired.deleteObsoleteFiles : Paired calls s.deleteObsoleteFiles := by
  unfold WriteState.deleteObsoleteFiles
  split_ifs
  · exact h
  · exact {
      __ := h
      current := by
        obtain ⟨l, hl⟩ := h.current
        exact ⟨l, (if_pos (.inl h.logNumber_le)).trans hl⟩
      recorded := by
        intro v log ok hv hv' l hl
        dsimp only at hl
        split_ifs at hl
        exact h.recorded v log ok hv hv' l hl
      mem := fun v hv => (h.mem v hv).keep h.logNumber_le
      imm := by
        intro m hm
        refine ⟨(h.imm m hm).1, ?_⟩
        intro v hv
        obtain ⟨n, hn, hn', hlog⟩ := (h.imm m hm).2 v hv
        exact ⟨n, hn, hn', hlog.keep hn⟩ }

variable [DecidableEq ω]

/-- A call moves on, without anything written or acknowledged. -/
theorem Paired.move {pc : WriterPc}
    (hlog : ∀ log, pc.log? = some log → log < s.nextFileNumber)
    (hrecorded : ∀ log ok, pc = .recorded log ok → calls.count w = none)
    (hreturned : pc ≠ .returned true) (upper : Nat) (start : ω → Nat) :
    Paired calls { s.setWriter w pc with writersUpper := upper, start := start } where
  __ := h
  captured := by
    intro v log hv
    by_cases hvw : v = w
    · subst hvw
      exact hlog log (by simpa [setWriter] using hv)
    · exact h.captured v log (by simpa [setWriter, hvw] using hv)
  recorded := by
    intro v log ok hv hbatch l hl
    obtain ⟨rfl, hpc⟩ | ⟨_, hpc⟩ := update_cases hv
    · exact absurd (hrecorded log ok hpc) hbatch
    · exact h.recorded v log ok hpc hbatch l hl
  acknowledged := by
    intro v hv hbatch
    obtain ⟨rfl, hpc⟩ | ⟨_, hpc⟩ := update_cases hv
    · exact absurd hpc hreturned
    · exact h.acknowledged v hpc hbatch

theorem Paired.record {log : Nat} (hpc : s.writers w = .ticketed log)
    (synced : Bool) : Paired calls (s.record calls w log synced) := by
  have hlog : log < s.nextFileNumber := h.captured w log (by rw [hpc]; rfl)
  unfold WriteState.record
  split_ifs with hbatch
  · refine h.move ?_ (fun _ _ _ => hbatch) (by simp) s.writersUpper s.start
    intro log' hlog'
    cases hlog'
    exact hlog
  · exact {
      __ := h
      current := exists_addRecord h.current log w
      captured := by
        intro v log' hv
        by_cases hvw : v = w
        · subst hvw
          have heq : log' = log := by simpa [setWriter, WriterPc.log?] using hv.symm
          exact heq ▸ hlog
        · exact h.captured v log' (by simpa [setWriter, hvw] using hv)
      recorded := by
        intro v log' ok hv hv' l hl
        obtain ⟨l₀, hl₀, hsub, hadded⟩ := addRecord_eq_some hl
        obtain ⟨rfl, hnew⟩ | ⟨_, hold⟩ := update_cases hv
        · cases hnew
          exact hadded rfl
        · exact hsub (h.recorded v log' ok hold hv' l₀ hl₀)
      mem := fun v hv => (h.mem v hv).addRecord log w
      imm := by
        intro m hm
        refine ⟨(h.imm m hm).1, ?_⟩
        intro v hv
        obtain ⟨n, hn, hn', hv'⟩ := (h.imm m hm).2 v hv
        exact ⟨n, hn, hn', hv'.addRecord log w⟩
      acknowledged := by
        intro v hv hv'
        obtain ⟨_, hnew⟩ | ⟨_, hold⟩ := update_cases hv
        · cases hnew
        · exact h.acknowledged v hold hv' }

/-- **The batch is put into the current memtable**, when its log is the current one. -/
theorem Paired.finish {log : Nat} {ok : Bool}
    (hpc : s.writers w = .recorded log ok)
    (hok : InStep calls s (.finish w)) : Paired calls (s.finish calls w ok) where
  __ := h
  captured := by
    intro v log' hv
    change (update s.writers w (.returned ok) v).log? = some log' at hv
    rw [update_apply] at hv
    split_ifs at hv
    · cases hv
    · exact h.captured v log' hv
  recorded := by
    intro v log' ok' hv hv' l hl
    obtain ⟨_, hnew⟩ | ⟨_, hold⟩ := update_cases hv
    · cases hnew
    · exact h.recorded v log' ok' hold hv' l hl
  mem := by
    intro v hv
    obtain hold | ⟨rfl, _, rfl, hbatch⟩ := mem_contents_finish.mp hv
    · exact h.mem v hold
    · obtain ⟨l, hl⟩ := h.current
      have hlog : log = s.logfileNumber := hok log (by rw [hpc]; rfl) hbatch
      subst hlog
      exact ⟨l, hl, h.recorded v _ _ hpc hbatch l hl⟩
  imm := by
    intro m hm
    refine ⟨(h.imm m hm).1, ?_⟩
    intro v hv
    rw [contents_finish_of_ne (h.imm m hm).1] at hv
    exact (h.imm m hm).2 v hv
  acknowledged := by
    intro v hv hv'
    obtain ⟨rfl, hnew⟩ | ⟨_, hold⟩ := update_cases hv
    · cases hnew
      exact .inr (.inl (mem_contents_finish.mpr (.inr ⟨rfl, rfl, rfl, hv'⟩)))
    · obtain htables | hmem | ⟨m, hm, himm⟩ := h.acknowledged v hold hv'
      · exact .inl htables
      · exact .inr (.inl (mem_contents_finish.mpr (.inl hmem)))
      · exact .inr (.inr ⟨m, hm, mem_contents_finish.mpr (.inl himm)⟩)
  flush := by
    have hflush := h.flush
    show (s.finish calls w ok).FlushOk s.flush
    cases hpc : s.flush with
    | waiting => trivial
    | started => trivial
    | built batches =>
      rw [hpc] at hflush
      obtain ⟨m, hm, hcontents⟩ := hflush
      exact ⟨m, hm, (contents_finish_of_ne (h.imm m hm).1).trans hcontents⟩
    | edited batches logNumber =>
      rw [hpc] at hflush
      obtain ⟨hlog, m, hm, hcontents⟩ := hflush
      exact ⟨hlog, m, hm, (contents_finish_of_ne (h.imm m hm).1).trans hcontents⟩

/-- **A step keeps the memtables and the logs paired**, when it is in step. -/
theorem Paired.step (hok : InStep calls s a)
    (hstep : WriteStep calls s a s') : Paired calls s' := by
  cases hstep with
  | refused hidle => exact h.move (by simp [WriterPc.log?]) (by simp) (by simp) _ _
  | entered hidle =>
    refine h.move ?_ (by simp) (by simp) _ _
    intro log hlog
    cases hlog
    exact h.logfileNumber_lt
  | switched hidle himm =>
    refine (h.switch himm).move ?_ (by simp) (by simp) _ _
    intro log hlog
    cases hlog
    exact Nat.lt_succ_self _
  | ticket hpc =>
    refine h.move ?_ (by simp) (by simp) _ _
    intro log hlog
    cases hlog
    exact h.captured _ _ (by rw [hpc]; rfl)
  | record hpc => exact h.record hpc _
  | finish hpc => exact h.finish hpc hok
  | @flushStart reserved => exact h.flushTo .started s.bgError reserved trivial
  | @flushBuild imm himm => exact h.flushTo (.built (s.contents imm)) s.bgError 0 ⟨imm, himm, rfl⟩
  | @flushEdit batches hflush =>
    have hbatches := h.flush
    rw [hflush] at hbatches
    exact h.flushTo (.edited batches s.logfileNumber) s.bgError 0 ⟨rfl, hbatches⟩
  | flushInstall hflush => exact h.install hflush
  | buildFails | installFails => exact h.flushTo .waiting true 0 trivial
  | deleteObsoleteFiles => exact h.deleteObsoleteFiles
  | newIterator => exact { h with }

end

variable [DecidableEq ω]

/-- **Every acknowledged write is durable** in every run of writers, flushes and deletions of
files, when no `SequenceWriteEnd` inserts a batch whose log is not the current one any
more. -/
theorem allDurable_of_inStep
    {logNumber lastSequence : Nat}
    (hrun : Runs (WriteState.step calls) (InStep calls)
      (WriteState.opened logNumber lastSequence) s) : AllDurable calls s := by
  have hpaired : Paired calls s := by
    refine hrun.invariant (Paired.opened logNumber lastSequence) ?_
    intro s₁ a s₂ h hok hstep
    exact h.step hok (writeStep_of_step hstep)
  exact hpaired.allDurable

/-- The number of a log file has been given out. -/
theorem log_lt_step (h : ∀ n l, s.logs n = some l → n < s.nextFileNumber)
    (hstep : WriteStep calls s a s') : ∀ n l, s'.logs n = some l → n < s'.nextFileNumber := by
  intro n l hl
  cases hstep with
  | refused _ | entered _ | ticket _ | finish _ => exact h n l hl
  | flushBuild _ | flushEdit _ | flushInstall _ | buildFails | installFails | newIterator =>
    exact h n l hl
  | switched hidle himm =>
    by_cases hn : n = s.nextFileNumber
    · exact Nat.lt_succ_of_le hn.le
    · have hold : s.logs n = some l := (update_of_ne hn ..).symm.trans hl
      exact (h n l hold).trans (Nat.lt_succ_self _)
  | record hpc =>
    unfold record at hl ⊢
    split_ifs at hl ⊢
    · exact h n l hl
    · obtain ⟨l₀, hl₀, _⟩ := addRecord_eq_some hl
      exact h n l₀ hl₀
  | flushStart => exact (h n l hl).trans_le (Nat.le_add_right ..)
  | deleteObsoleteFiles =>
    unfold deleteObsoleteFiles at hl ⊢
    split_ifs at hl ⊢
    · exact h n l hl
    · dsimp only at hl
      split_ifs at hl
      exact h n l hl

theorem log_lt_of_run {ok : WriteState ω → WriteAction ω → Prop} {logNumber lastSequence : Nat}
    (hrun : Runs (WriteState.step calls) ok (WriteState.opened logNumber lastSequence) s) :
    ∀ n l, s.logs n = some l → n < s.nextFileNumber := by
  refine hrun.invariant ?_ fun s₁ a s₂ h _ hstep => log_lt_step h (writeStep_of_step hstep)
  intro n l hl
  have hn : n = logNumber := by
    by_contra hne
    rw [show (opened logNumber lastSequence).logs n = none from if_neg hne] at hl
    cases hl
  exact hn ▸ Nat.lt_succ_self _

end

/-- A flush, with the deletion of files after it. -/
def flushMoves : List (WriteAction (Fin 3)) :=
  [.flushStart 1, .flushBuild true, .flushEdit, .flushInstall true, .deleteObsoleteFiles]

/-- One call fills the memtable, the next one switches; both are durable after the flush. -/
theorem allDurable_of_inStep_threeCalls :
    ∃ s, Runs (WriteState.step threeCalls) (InStep threeCalls) (WriteState.opened 1 0) s ∧
      s.writers 0 = .returned true ∧ s.writers 2 = .returned true ∧ s.tables = [0] ∧
      AllDurable threeCalls s := by
  refine exists_runs_imp
    (P := fun s => s.writers 0 = .returned true ∧ s.writers 2 = .returned true ∧ s.tables = [0])
    ([.begin 0 true] ++ writeMoves 0 ++ [.begin 2 true] ++ writeMoves 2 ++ flushMoves)
    (by decide +kernel) fun s hrun ⟨h0, h2, htables⟩ => ?_
  exact ⟨h0, h2, htables, allDurable_of_inStep hrun⟩

/-- **A write is lost.**  Call 1 takes log 1 and is overtaken: call 0 fills the memtable and
call 2 switches to log 2.  Call 1 then writes to log 1 and puts its batch into the memtable
of log 2.  The flush of the other memtable lets log 1 be deleted. -/
theorem not_durable_overtaken :
    ∃ s, Runs (WriteState.step threeCalls) (fun _ _ => True) (WriteState.opened 1 0) s ∧
      s.writers 1 = .returned true ∧ ¬ s.Durable 1 ∧ ¬ AllDurable threeCalls s := by
  refine exists_runs_imp
    (P := fun s => s.writers 1 = .returned true ∧ s.tables = [0] ∧ s.logNumber = 2 ∧
      s.nextFileNumber = 4 ∧ s.logs 2 = some [] ∧ s.logs 3 = none)
    ([.begin 1 true, .begin 0 true] ++ writeMoves 0 ++ [.begin 2 true] ++ writeMoves 1 ++
      flushMoves) (by decide +kernel)
    fun s hrun ⟨hreturned, htables, hlogNumber, hnext, hlog2, hlog3⟩ => ?_
  have hlost : ¬ s.Durable 1 := by
    rintro (hin | ⟨n, hn, l, hl, hin⟩)
    · rw [htables] at hin
      exact absurd hin (by decide)
    · have hlt := log_lt_of_run hrun n l hl
      obtain rfl | rfl : n = 2 ∨ n = 3 := by omega
      · rw [hlog2] at hl
        cases hl
        cases hin
      · rw [hlog3] at hl
        cases hl
  exact ⟨hreturned, hlost, fun h => hlost (h 1 hreturned (by decide))⟩

end HotTLBApps.PebblesDB
