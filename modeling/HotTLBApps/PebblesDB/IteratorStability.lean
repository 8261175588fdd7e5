import HotTLBApps.PebblesDB.WritePath

/-!
# PebblesDB: what an iterator sees as long as no earlier write is under way

`NewIterator` without a snapshot reads at the last sequence number.  The sequence numbers
are given out before the batches are inserted, and the last sequence number is the largest
one of the calls that have ended.  So a call with smaller numbers may still be under way.
`GetSnapshot` waits for such calls, `NewInternalIterator` does not.

`Settled` says that no iterator is created in this situation.  In a run of such steps no
entry becomes visible to an iterator after it was created (`Stable`).  The last theorem is a
run in which an entry does.
-/

namespace HotTLBApps.PebblesDB

open List Function

section Stability

variable {ω : Type}

/-- The call has its sequence numbers, and has not ended. -/
def WriterPc.inFlight : WriterPc → Bool
  | .ticketed _ => true
  | .recorded _ _ => true
  | _ => false

/-- Every entry at or below the snapshot of an iterator that is in one of its memtables was
there when the iterator was created. -/
def Stable (calls : WriteCalls ω) (s : WriteState ω) : Prop :=
  ∀ it ∈ s.iterators, ∀ m ∈ it.memtables, ∀ w ∈ s.contents m,
    ∀ i < calls.diff w, s.start w + i ≤ it.snapshot → w ∈ it.seen m

/-- When an iterator is created, the entries of the calls that are under way are all after
the last sequence number. -/
def Settled (calls : WriteCalls ω) (s : WriteState ω) : WriteAction ω → Prop
  | .newIterator =>
      ∀ w, (s.writers w).inFlight = true → 0 < calls.diff w → s.lastSequence < s.start w
  | _ => True

instance [Fintype ω] (calls : WriteCalls ω) (s : WriteState ω) : DecidablePred (Settled calls s)
  | .newIterator =>
      inferInstanceAs (Decidable (∀ w, (s.writers w).inFlight = true → 0 < calls.diff w →
        s.lastSequence < s.start w))
  | .begin _ _ | .ticket _ | .record _ _ | .finish _ | .flushStart _ | .flushBuild _
  | .flushEdit | .flushInstall _ | .deleteObsoleteFiles => instDecidableTrue

/-- **What is still to come is after the snapshots.** -/
structure Ordered (calls : WriteCalls ω) (s : WriteState ω) : Prop where
  lastSequence_le : s.lastSequence ≤ s.writersUpper
  ended : ∀ w, (s.writers w).inFlight = true → s.start w + calls.diff w ≤ s.writersUpper
  returned : ∀ m, ∀ w ∈ s.contents m, ∃ ok, s.writers w = .returned ok
  snapshot_le : ∀ it ∈ s.iterators, it.snapshot ≤ s.writersUpper
  later : ∀ it ∈ s.iterators, ∀ w, (s.writers w).inFlight = true → 0 < calls.diff w →
    it.snapshot < s.start w
  seen : ∀ it ∈ s.iterators, ∀ m ∈ it.memtables, ∀ w ∈ s.contents m,
    w ∈ it.seen m ∨ (0 < calls.diff w → it.snapshot < s.start w)

variable {calls : WriteCalls ω} {s s' : WriteState ω} {a : WriteAction ω} {w : ω}

theorem Ordered.opened (logNumber lastSequence : Nat) :
    Ordered calls (WriteState.opened logNumber lastSequence) where
  lastSequence_le := le_rfl
  ended := by
    nofun
  returned := by
    nofun
  snapshot_le := by
    nofun
  later := by
    nofun
  seen := by
    nofun

/-- A step that hands out no sequence numbers, inserts nothing and creates no iterator. -/
theorem Ordered.frame (h : Ordered calls s) (hcontents : ∀ m, s'.contents m ⊆ s.contents m)
    (hwriters : ∀ w, s'.writers w = s.writers w ∨ (∀ ok, s.writers w ≠ .returned ok) ∧
        ((s'.writers w).inFlight = true → (s.writers w).inFlight = true))
    (hlast : s'.lastSequence = s.lastSequence) (hupper : s'.writersUpper = s.writersUpper)
    (hstart : s'.start = s.start) (hiterators : s'.iterators = s.iterators) : Ordered calls s' := by
  have hflight : ∀ w, (s'.writers w).inFlight = true → (s.writers w).inFlight = true := by
    intro w hw
    obtain heq | ⟨_, hback⟩ := hwriters w
    · rwa [heq] at hw
    · exact hback hw
  refine ⟨?_, ?_, ?_, ?_, ?_, ?_⟩
  · rw [hlast, hupper]
    exact h.lastSequence_le
  · intro w hw
    rw [hstart, hupper]
    exact h.ended w (hflight w hw)
  · intro m w hw
    obtain ⟨ok, hok⟩ := h.returned m w (hcontents m hw)
    obtain heq | ⟨hne, _⟩ := hwriters w
    · exact ⟨ok, heq.trans hok⟩
    · exact absurd hok (hne ok)
  · rw [hiterators, hupper]
    exact h.snapshot_le
  · intro it hit w hw
    rw [hstart]
    exact h.later it (hiterators ▸ hit) w (hflight w hw)
  · intro it hit m hm w hw
    rw [hstart]
    exact h.seen it (hiterators ▸ hit) m hm w (hcontents m hw)

variable [DecidableEq ω]

/-- A call that has not returned moves on, and is under way only if it was before. -/
theorem writers_setWriter {pc : WriterPc} (hreturned : ∀ ok, s.writers w ≠ .returned ok)
    (hflight : pc.inFlight = true → (s.writers w).inFlight = true) (v : ω) :
    (s.setWriter w pc).writers v = s.writers v ∨ (∀ ok, s.writers v ≠ .returned ok) ∧
        (((s.setWriter w pc).writers v).inFlight = true → (s.writers v).inFlight = true) := by
  by_cases hvw : v = w
  · subst hvw
    refine .inr ⟨hreturned, ?_⟩
    rw [show (s.setWriter v pc).writers v = pc from update_self ..]
    exact hflight
  · exact .inl (update_of_ne hvw ..)

/-- **The sequence numbers that a call gets are after every snapshot.** -/
theorem Ordered.ticket (h : Ordered calls s) {log : Nat}
    (hpc : s.writers w = .begun log) : Ordered calls (s.ticket calls w log) := by
  have hstart : ∀ v ≠ w, (s.ticket calls w log).start v = s.start v := fun v hv =>
    update_of_ne hv ..
  have hstart' : (s.ticket calls w log).start w = s.writersUpper + 1 :=
    (update_self ..).trans (by omega)
  have hupper : (s.ticket calls w log).writersUpper = s.writersUpper + (1 + calls.diff w) :=
    rfl
  have hwriters : ∀ v ≠ w, (s.ticket calls w log).writers v = s.writers v := fun v hv =>
    update_of_ne hv ..
  have hne : ∀ m, ∀ v ∈ s.contents m, v ≠ w := by
    rintro m v hv rfl
    obtain ⟨ok, hok⟩ := h.returned m v hv
    rw [hpc] at hok
    cases hok
  refine ⟨?_, ?_, ?_, ?_, ?_, ?_⟩
  · exact h.lastSequence_le.trans (by omega)
  · intro v hv
    by_cases hvw : v = w
    · subst hvw
      omega
    · rw [hwriters v hvw] at hv
      rw [hstart v hvw]
      exact (h.ended v hv).trans (by omega)
  · intro m v hv
    obtain ⟨ok, hok⟩ := h.returned m v hv
    exact ⟨ok, (hwriters v (hne m v hv)).trans hok⟩
  · intro it hit
    exact (h.snapshot_le it hit).trans (by omega)
  · intro it hit v hv hdiff
    by_cases hvw : v = w
    · subst hvw
      have := h.snapshot_le it hit
      omega
    · rw [hwriters v hvw] at hv
      rw [hstart v hvw]
      exact h.later it hit v hv hdiff
  · intro it hit m hm v hv
    rw [hstart v (hne m v hv)]
    exact h.seen it hit m hm v hv

/-- The batch that is inserted is after the snapshots of the iterators that exist. -/
theorem Ordered.finish (h : Ordered calls s) {log : Nat} {ok : Bool}
    (hpc : s.writers w = .recorded log ok) : Ordered calls (s.finish calls w ok) := by
  have hflight : (s.writers w).inFlight = true := by
    rw [hpc]
    rfl
  have hback : ∀ v, ((s.finish calls w ok).writers v).inFlight = true →
      (s.writers v).inFlight = true := by
    intro v hv
    by_cases hvw : v = w
    · exact hvw ▸ hflight
    · rwa [show (s.finish calls w ok).writers v = s.writers v from
        update_of_ne hvw ..] at hv
  refine ⟨?_, fun v hv => h.ended v (hback v hv), ?_, h.snapshot_le,
    fun it hit v hv => h.later it hit v (hback v hv), ?_⟩
  · have hend := h.ended w hflight
    have hlast := h.lastSequence_le
    show setLastSequence s.lastSequence (s.start w + calls.diff w) ≤ s.writersUpper
    unfold setLastSequence
    split_ifs <;> omega
  · intro m v hv
    by_cases hvw : v = w
    · exact ⟨ok, hvw ▸ update_self ..⟩
    · obtain hold | ⟨rfl, _⟩ := mem_contents_finish.mp hv
      · obtain ⟨ok', hok'⟩ := h.returned m v hold
        exact ⟨ok', (update_of_ne hvw ..).trans hok'⟩
      · exact absurd rfl hvw
  · intro it hit m hm v hv
    obtain hold | ⟨rfl, _⟩ := mem_contents_finish.mp hv
    · exact h.seen it hit m hm v hold
    · exact .inr (h.later it hit v hflight)

omit [DecidableEq ω] in
theorem Ordered.newIterator (h : Ordered calls s)
    (hok : Settled calls s .newIterator) : Ordered calls s.newIterator := by
  refine ⟨h.lastSequence_le, h.ended, h.returned, ?_, ?_, ?_⟩
  · intro it hit
    obtain hold | hnew := mem_append.mp hit
    · exact h.snapshot_le it hold
    · cases mem_singleton.mp hnew
      exact h.lastSequence_le
  · intro it hit v hv hdiff
    obtain hold | hnew := mem_append.mp hit
    · exact h.later it hold v hv hdiff
    · cases mem_singleton.mp hnew
      exact hok v hv hdiff
  · intro it hit m hm v hv
    obtain hold | hnew := mem_append.mp hit
    · exact h.seen it hold m hm v hv
    · cases mem_singleton.mp hnew
      exact .inl hv

/-- **A step keeps what is still to come after the snapshots.** -/
theorem Ordered.step (h : Ordered calls s) (hok : Settled calls s a)
    (hstep : WriteStep calls s a s') : Ordered calls s' := by
  cases hstep with
  | refused hidle | entered hidle =>
    refine h.frame (fun m => Subset.refl _) ?_ rfl rfl rfl rfl
    exact writers_setWriter (by simp [hidle]) (by simp [WriterPc.inFlight])
  | switched hidle himm =>
    refine h.frame ?_ ?_ rfl rfl rfl rfl
    · intro m
      by_cases hm : m = s.nextMem
      · subst hm
        rw [show (s.switch.setWriter _ _).contents s.nextMem = [] from
          update_self ..]
        exact nil_subset _
      · rw [show (s.switch.setWriter _ _).contents m = s.contents m from
          update_of_ne hm ..]
        exact Subset.refl _
    · have hidle' : s.switch.writers _ = .idle := hidle
      exact writers_setWriter (by simp [hidle']) (by simp [WriterPc.inFlight])
  | ticket hpc => exact h.ticket hpc
  | record hpc =>
    unfold WriteState.record
    split_ifs
    all_goals
      refine h.frame (fun m => Subset.refl _) ?_ rfl rfl rfl rfl
      exact writers_setWriter (by simp [hpc]) (by simp [hpc, WriterPc.inFlight])
  | finish hpc => exact h.finish hpc
  | flushStart | flushBuild _ | flushEdit _ | flushInstall _ | buildFails | installFails =>
    exact h.frame (fun m => Subset.refl _) (fun w => .inl rfl) rfl rfl rfl rfl
  | deleteObsoleteFiles =>
    unfold WriteState.deleteObsoleteFiles
    split_ifs
    all_goals
      exact h.frame (fun m => Subset.refl _) (fun w => .inl rfl) rfl rfl rfl rfl
  | newIterator => exact h.newIterator hok

/-- **No entry becomes visible to an iterator after it was created**, in every run of writers,
flushes and iterators, when no iterator is created while a call with sequence numbers up to
the last one is under way. -/
theorem stable_of_settled
    {logNumber lastSequence : Nat}
    (hrun : Runs (WriteState.step calls) (Settled calls)
      (WriteState.opened logNumber lastSequence) s) : Stable calls s := by
  have hordered : Ordered calls s := by
    refine hrun.invariant (Ordered.opened logNumber lastSequence) ?_
    intro s₁ a s₂ h hok hstep
    exact h.step hok (writeStep_of_step hstep)
  intro it hit m hm w hw i hi hle
  obtain hseen | hlater := hordered.seen it hit m hm w hw
  · exact hseen
  · omega

end Stability

/-- An iterator is created between two calls, and the second one inserts into its
memtable. -/
theorem stable_of_settled_threeCalls :
    ∃ s, Runs (WriteState.step threeCalls) (Settled threeCalls) (WriteState.opened 1 0) s ∧
      s.contents 0 = [0, 1] ∧ s.iterators.map (·.snapshot) = [2] ∧ Stable threeCalls s := by
  refine exists_runs_imp
    (P := fun s => s.contents 0 = [0, 1] ∧ s.iterators.map (·.snapshot) = [2])
    ([.begin 0 true, .begin 1 true] ++ writeMoves 0 ++ [.newIterator] ++ writeMoves 1)
    (by decide +kernel) fun s hrun ⟨hcontents, hsnapshot⟩ => ?_
  exact ⟨hcontents, hsnapshot, stable_of_settled hrun⟩

/-- **An entry becomes visible later.**  Call 1 gets its sequence numbers before call 2, which
ends first.  The iterator that is created then reads at the end of call 2, and the entry of
call 1, with a smaller number, comes into its memtable afterwards. -/
theorem not_stable_earlier_call :
    ∃ s, Runs (WriteState.step threeCalls) (fun _ _ => True) (WriteState.opened 1 0) s ∧
      ¬ Stable threeCalls s := by
  refine exists_runs_imp
    (P := fun s => ∃ it ∈ s.iterators, ∃ m ∈ it.memtables, 1 ∈ s.contents m ∧
      s.start 1 ≤ it.snapshot ∧ 1 ∉ it.seen m)
    ([.begin 1 true, .ticket 1, .begin 2 true] ++ writeMoves 2 ++
      [.newIterator, .record 1 true, .finish 1])
    (by decide +kernel) fun s _ ⟨it, hit, m, hm, hin, hle, hunseen⟩ h => ?_
  exact hunseen (h it hit m hm 1 hin 0 (by decide) hle)

end HotTLBApps.PebblesDB
