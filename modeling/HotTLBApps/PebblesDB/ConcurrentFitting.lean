import HotTLBApps.PebblesDB.BackgroundWork
import HotTLBApps.PebblesDB.GuardFitting

/-!
# PebblesDB: files fit the guards while a flush and a compaction run at the same time

A flush cuts its tables at the guards that it read when it started, and a compaction takes
the files that do not fit the new guards as it finds them when it starts.  Either one may be
installed after the other, and then meets guards or files that it has not seen.

`Apart` says that no guard that a flush has not seen lies inside one of its files, and no
guard that a compaction installs inside a file that it has not seen.  In a run of such steps
the files of every level fit its guards.  The last theorem is a run of a flush and a
compaction after which a file does not.
-/

namespace HotTLBApps.PebblesDB

open OrderedSet Intervals List Function BackgroundState

variable {K V : Type} [LinearOrder K]

/-- A guard lies inside a file: the file starts before it and does not end before it. -/
def FileMetaData.CutBy (f : FileMetaData K) (guardKey : K) : Prop :=
  f.smallest.userKey < guardKey ∧ guardKey ≤ f.largest.userKey

instance (f : FileMetaData K) (guardKey : K) : Decidable (f.CutBy guardKey) :=
  inferInstanceAs (Decidable (_ ∧ _))

theorem fits_iff_not_cutBy {f : FileMetaData K} {keys : List K}
    (hbounds : f.smallest.userKey ≤ f.largest.userKey) :
    Fits keys f.smallest.userKey f.largest.userKey ↔ ∀ k ∈ keys, ¬ f.CutBy k := by
  rw [fits_iff hbounds]
  refine forall₂_congr fun k _ => ?_
  rw [FileMetaData.CutBy, not_and', not_lt]

/-- A version whose files fit the guards, whose metadata tells what the tables hold, and
whose file numbers were handed out and are not held by anyone. -/
structure SoundVersion
    (tables : Tables K V) (next : Nat) (held : List Nat) (v : Version K) : Prop where
  levels : ∀ l, (v l).WellFormed
  fits : ∀ l, (v l).FilesFit
  tables : ∀ l, TablesOf tables (v l)
  numbers : ∀ l, ∀ f ∈ (v l).files, f.number < next ∧ f.number ∉ held

variable {tables : Tables K V} {next : Nat} {held : List Nat} {v w : Version K}

section

variable (h : SoundVersion tables next held v)
include h

theorem SoundVersion.mono {next' : Nat} {held' : List Nat} (hnext : next ≤ next')
    (hheld : ∀ n ∈ held', n ∈ held ∨ next ≤ n) : SoundVersion tables next' held' v := by
  refine { h with numbers := ?_ }
  intro l f hf
  obtain ⟨hlt, hfree⟩ := h.numbers l f hf
  refine ⟨hlt.trans_le hnext, fun hmem => ?_⟩
  obtain hold | hnew := hheld _ hmem
  · exact hfree hold
  · omega

theorem SoundVersion.write {env : CompactionEnv K V}
    (hfree : ∀ n < next, n ∉ held → ∀ i, n ≠ env.number i) (outputs : List (Output K V)) :
    SoundVersion (env.writeTables tables outputs) next held v := by
  refine { h with tables := ?_ }
  intro l f hf
  obtain ⟨hlt, hnot⟩ := h.numbers l f hf
  rw [writeTables_of_ne _ _ (hfree _ hlt hnot)]
  exact h.tables l f hf

theorem SoundVersion.pushGuards (pushed : Level → List (InternalKey K)) :
    SoundVersion tables next held (v.pushGuards pushed) :=
  { h with levels := fun l => wellFormed_pushGuards (h.levels l) (pushed l) }

/-- **An edit keeps a version sound**, if its files are new and described, its guards are
complete guards, and no guard lies inside a file afterwards. -/
theorem SoundVersion.apply {edit : Edit K} (hdeleted : ∀ l, (edit.level l).deletedGuards = ∅)
    (hguards : ∀ l, ∀ u ∈ (edit.level l).newGuards.map (·.userKey),
      u ∈ (v l).completeGuards.map (·.userKey)) (hfresh : ∀ l, FreshNumbers (v l) (edit.level l))
    (hnew : ∀ l, ∀ f ∈ (edit.level l).newFiles,
      (0 < f.number ∧ f.Describes (tables f.number)) ∧ f.number < next ∧ f.number ∉ held)
    (hcut : ∀ l f, f ∈ (v l).files ∧ f.number ∉ (edit.level l).deletedFiles ∨
        f ∈ (edit.level l).newFiles →
      ∀ u, u ∈ guardUserKeys (v l).guards ∨ u ∈ (edit.level l).newGuards.map (·.userKey) →
        ¬ f.CutBy u) : SoundVersion tables next held (v.apply edit) := by
  have hmem : ∀ l f, f ∈ (v.apply edit l).files ↔
      f ∈ (v l).files ∧ f.number ∉ (edit.level l).deletedFiles ∨
        f ∈ (edit.level l).newFiles := fun l f => mem_files_install (hfresh l)
  have htables : ∀ l, TablesOf tables (v.apply edit l) := by
    intro l f hf
    obtain ⟨hold, _⟩ | hadded := (hmem l f).mp hf
    · exact h.tables l f hold
    · exact (hnew l f hadded).1
  refine ⟨fun l => wellFormed_install (h.levels l) (hdeleted l) (hguards l) (hfresh l), ?_,
    htables, ?_⟩
  · intro l f hf
    rw [fits_iff_not_cutBy (htables l f hf).2.bounds_le]
    intro u hu
    exact hcut l f ((hmem l f).mp hf) u
      (((guardUserKeys_install (hdeleted l) (h.levels l).sorted.guards_increasing).2 u).mp hu)
  · intro l f hf
    obtain ⟨hold, _⟩ | hadded := (hmem l f).mp hf
    · exact h.numbers l f hold
    · exact (hnew l f hadded).2

end

/-- Nothing of a version was lost since, and no guard has been added. -/
structure Since (base v : Version K) : Prop where
  files : ∀ l, (base l).files ⊆ (v l).files
  guards : ∀ l, guardUserKeys (v l).guards = guardUserKeys (base l).guards
  complete : ∀ l, ∀ u ∈ (base l).completeGuards.map (·.userKey),
    u ∈ (v l).completeGuards.map (·.userKey)

omit [LinearOrder K] in
theorem Since.refl (v : Version K) : Since v v :=
  ⟨fun _ => Subset.refl _, fun _ => rfl, fun _ _ hu => hu⟩

omit [LinearOrder K] in
theorem Since.trans {u : Version K} (huv : Since u v) (hvw : Since v w) : Since u w where
  files := fun l => Subset.trans (huv.files l) (hvw.files l)
  guards := fun l => (hvw.guards l).trans (huv.guards l)
  complete := fun l x hx => hvw.complete l x (huv.complete l x hx)

omit [LinearOrder K] in
theorem Since.pushGuards (h : Since v w) (pushed : Level → List (InternalKey K)) :
    Since (v.pushGuards pushed) (w.pushGuards pushed) := by
  refine { h with complete := ?_ }
  intro l u hu
  change u ∈ ((w l).completeGuards ++ pushed l).map (·.userKey)
  change u ∈ ((v l).completeGuards ++ pushed l).map (·.userKey) at hu
  rw [map_append, mem_append] at hu ⊢
  exact hu.imp_left (h.complete l u)

omit [LinearOrder K] in
theorem addToCompleteGuards_eq (v : Version K) (level : Level) (guard : InternalKey K) :
    v.addToCompleteGuards level guard =
      v.pushGuards fun l => if l = level then [guard] else [] := by
  funext l
  by_cases hl : l = level
  · subst hl
    simp [Version.addToCompleteGuards, Version.pushGuards]
  · simp [Version.addToCompleteGuards, Version.pushGuards, hl, LevelVersion.pushGuards]

theorem installed_pending (v : Version K)
    (edit : Edit K) : (v.pending edit).installed v = v.apply edit := by
  funext l
  simp [PendingVersion.installed, Version.pending, LevelVersion.pushGuards]

omit [LinearOrder K] in
/-- What is pushed in the meantime is pushed to the new version. -/
theorem installed_addToCompleteGuards {p : PendingVersion K}
    (hsizes : ∀ l, p.sizes l ≤ (v l).completeGuards.length) (level : Level)
    (guard : InternalKey K) :
    p.installed (v.addToCompleteGuards level guard) =
      (p.installed v).addToCompleteGuards level guard := by
  funext l
  rw [addToCompleteGuards_eq, addToCompleteGuards_eq]
  simp [PendingVersion.installed, Version.pushGuards, LevelVersion.pushGuards,
    drop_append_of_le_length (hsizes l)]

def FlushJob.Ok (tables : Tables K V) : FlushJob K V → Prop
  | .building base _ _ numbers =>
      (guardUserKeys (base 0).guards).Pairwise (· < ·) ∧
        numbers.length = (base 0).guards.length + 1
  | .built base _ files =>
      ∀ f ∈ files, f.Describes (tables f.number) ∧
        ∀ u ∈ guardUserKeys (base 0).guards, ¬ f.CutBy u
  | _ => True

/-- A compaction was picked from a version of which nothing has been lost. -/
structure PickedFrom (base : Version K) (c : Compaction K) (current : Version K) : Prop where
  picked : ∃ scores level forceCompact,
    pickCompactionForGuards base scores level forceCompact = some c
  levels : ∀ l, (base l).WellFormed
  fits : ∀ l, (base l).FilesFit
  since : Since base current

theorem PickedFrom.of_since {base v w : Version K} {c : Compaction K} (h : PickedFrom base c v)
    (hvw : Since v w) : PickedFrom base c w :=
  { h with since := h.since.trans hvw }

def CompactionJob.Ok (tables : Tables K V) (current : Version K) : CompactionJob K → Prop
  | .working base c _ => PickedFrom base c current
  | .finished base c files =>
      PickedFrom base c current ∧
        ∀ f ∈ files, f.Describes (tables f.number) ∧
          Fits c.completeGuards f.smallest.userKey f.largest.userKey
  | _ => True

/-- **The invariant of the background work.** -/
structure BackgroundState.Inv (s : BackgroundState K V) : Prop where
  held_nodup : s.held.Nodup
  held_lt : ∀ n ∈ s.held, 0 < n ∧ n < s.nextFileNumber
  next_pos : 0 < s.nextFileNumber
  version : SoundVersion s.tables s.nextFileNumber s.held s.version
  sizes : ∀ p, s.pending = some p → ∀ l, p.sizes l ≤ (s.version l).completeGuards.length
  pending : ∀ p, s.pending = some p →
    SoundVersion s.tables s.nextFileNumber s.held (p.installed s.version)
  -- the compaction does not go on working while its own edit is logged
  since : ∀ p, s.pending = some p → s.compaction ≠ .logging →
    Since s.version (p.installed s.version)
  flush : s.flush.Ok s.tables
  compaction : s.compaction.Ok s.tables s.version

/-- No guard that the flush has not seen lies inside one of its files. -/
def FlushJob.Apart (current : Version K) : FlushJob K V → Prop
  | .built base _ files =>
      ∀ u ∈ guardUserKeys (current 0).guards, u ∉ guardUserKeys (base 0).guards →
        ∀ f ∈ files, ¬ f.CutBy u
  | _ => True

/-- No guard that the compaction installs lies inside a file that it has not seen. -/
def CompactionJob.Apart (current : Version K) : CompactionJob K → Prop
  | .finished base c _ =>
      ∀ l, l = c.level ∨ c.next = some l → ∀ u ∈ (base l).completeGuards.map (·.userKey),
        ∀ f ∈ (current l).files, f ∉ (base l).files → ¬ f.CutBy u
  | _ => True

/-- When a job is installed, guards and files that were not seen are apart. -/
def Apart (s : BackgroundState K V) : BackgroundAction K V → Prop
  | .flushLog => s.flush.Apart s.version
  | .compactionLog => s.compaction.Apart s.version
  | _ => True

instance (current : Version K) : DecidablePred (FlushJob.Apart current : FlushJob K V → Prop)
  | .built base _ files =>
      inferInstanceAs (Decidable (∀ u ∈ guardUserKeys (current 0).guards,
        u ∉ guardUserKeys (base 0).guards → ∀ f ∈ files, ¬ f.CutBy u))
  | .idle | .building _ _ _ _ | .logging => instDecidableTrue

instance (current : Version K) : DecidablePred (CompactionJob.Apart current)
  | .finished base c _ =>
      inferInstanceAs (Decidable (∀ l, l = c.level ∨ c.next = some l →
        ∀ u ∈ (base l).completeGuards.map (·.userKey),
          ∀ f ∈ (current l).files, f ∉ (base l).files → ¬ f.CutBy u))
  | .idle | .working _ _ _ | .logging => instDecidableTrue

instance (s : BackgroundState K V) : DecidablePred (Apart s)
  | .flushLog => inferInstanceAs (Decidable (s.flush.Apart s.version))
  | .compactionLog => inferInstanceAs (Decidable (s.compaction.Apart s.version))
  | .addToCompleteGuards _ _ | .newFileNumber | .flushStart _ | .flushBuild _
  | .compactionStart _ _ _ | .openOutput | .compactionWork _ | .logEnd => instDecidableTrue

theorem BackgroundState.inv_opened : (BackgroundState.opened : BackgroundState K V).Inv where
  held_nodup := nodup_nil
  held_lt := nofun
  next_pos := Nat.zero_lt_two
  version := ⟨fun _ => wellFormed_empty, nofun, nofun, nofun⟩
  sizes := nofun
  pending := nofun
  since := nofun
  flush := trivial
  compaction := trivial

variable {s s' : BackgroundState K V} {a : BackgroundAction K V}

theorem FlushJob.Ok.addToCompleteGuards {job : FlushJob K V} (h : job.Ok tables) (level : Level)
    (guard : InternalKey K) : (job.addToCompleteGuards level guard).Ok tables := by
  have hguards : ∀ base : Version K,
      (base.addToCompleteGuards level guard 0).guards = (base 0).guards := by
    intro base
    rw [addToCompleteGuards_eq]
    rfl
  cases job with
  | idle | logging => trivial
  | building base live mem numbers =>
    cases live with
    | false => exact h
    | true =>
      change (guardUserKeys (base.addToCompleteGuards level guard 0).guards).Pairwise _ ∧
        _ = (base.addToCompleteGuards level guard 0).guards.length + 1
      rw [hguards]
      exact h
  | built base live files =>
    cases live with
    | false => exact h
    | true =>
      intro f hf
      rw [if_pos rfl, hguards]
      exact h f hf

variable {job : CompactionJob K}

theorem CompactionJob.Ok.of_since (h : job.Ok tables v)
    (hvw : Since v w) : job.Ok tables w := by
  cases job with
  | idle | logging => trivial
  | working base c numbers => exact PickedFrom.of_since h hvw
  | finished base c files => exact ⟨PickedFrom.of_since h.1 hvw, h.2⟩

theorem BackgroundState.Inv.addToCompleteGuards (h : s.Inv) (level : Level)
    (guard : InternalKey K) : (s.addToCompleteGuards level guard).Inv := by
  have hheld : (s.addToCompleteGuards level guard).held = s.held := by
    change (s.flush.addToCompleteGuards level guard).numbers ++ _ = s.flush.numbers ++ _
    cases s.flush <;> rfl
  have hsince : ∀ v : Version K, Since v (v.addToCompleteGuards level guard) := by
    intro v
    rw [addToCompleteGuards_eq]
    refine { Since.refl v with complete := fun l u hu => ?_ }
    change u ∈ ((v l).completeGuards ++ _).map (·.userKey)
    rw [map_append]
    exact mem_append_left _ hu
  refine ⟨hheld ▸ h.held_nodup, hheld ▸ h.held_lt, h.next_pos, ?_, ?_, ?_, ?_,
    h.flush.addToCompleteGuards level guard, h.compaction.of_since (hsince s.version)⟩
  · rw [hheld]
    change SoundVersion s.tables s.nextFileNumber s.held
      (s.version.addToCompleteGuards level guard)
    rw [addToCompleteGuards_eq]
    exact h.version.pushGuards _
  · intro p hp l
    refine (h.sizes p hp l).trans ?_
    change _ ≤ (s.version.addToCompleteGuards level guard l).completeGuards.length
    rw [addToCompleteGuards_eq]
    simp [Version.pushGuards, LevelVersion.pushGuards]
  · intro p hp
    rw [hheld]
    change SoundVersion s.tables s.nextFileNumber s.held
      (p.installed (s.version.addToCompleteGuards level guard))
    rw [installed_addToCompleteGuards (h.sizes p hp), addToCompleteGuards_eq]
    exact (h.pending p hp).pushGuards _
  · intro p hp hjob
    change Since (s.version.addToCompleteGuards level guard)
      (p.installed (s.version.addToCompleteGuards level guard))
    rw [installed_addToCompleteGuards (h.sizes p hp), addToCompleteGuards_eq,
      addToCompleteGuards_eq]
    exact (h.since p hp hjob).pushGuards _

variable {flush : FlushJob K V} {compaction : CompactionJob K}

/-- The compaction or the flush comes to hold other numbers, and new ones are handed out. -/
theorem BackgroundState.Inv.rehold (h : s.Inv) (hnext : s.nextFileNumber ≤ next)
    (hnodup : (flush.numbers ++ compaction.numbers).Nodup)
    (hlt : ∀ n ∈ flush.numbers ++ compaction.numbers, n < next)
    (hheld : ∀ n ∈ flush.numbers ++ compaction.numbers, n ∈ s.held ∨ s.nextFileNumber ≤ n)
    (hlogging : compaction ≠ .logging → s.compaction ≠ .logging) (hflush : flush.Ok s.tables)
    (hcompaction : compaction.Ok s.tables s.version) : BackgroundState.Inv { s with
      nextFileNumber := next, flush := flush, compaction := compaction } where
  held_nodup := hnodup
  held_lt := by
    intro n hn
    refine ⟨?_, hlt n hn⟩
    obtain hold | hnew := hheld n hn
    · exact (h.held_lt n hold).1
    · exact h.next_pos.trans_le hnew
  next_pos := h.next_pos.trans_le hnext
  version := h.version.mono hnext hheld
  sizes := h.sizes
  pending := fun p hp => (h.pending p hp).mono hnext hheld
  since := fun p hp hjob => h.since p hp (hlogging hjob)
  flush := hflush
  compaction := hcompaction

theorem BackgroundState.Inv.flushStart (h : s.Inv)
    (mem : MemTable K V) : (s.flushStart mem).Inv := by
  have hcompaction : ∀ n ∈ s.compaction.numbers, n < s.nextFileNumber := fun n hn =>
    (h.held_lt n (mem_append_right _ hn)).2
  refine h.rehold (Nat.le_add_right ..) ?_ ?_ ?_ (fun hjob => hjob) ?_ h.compaction
  · refine nodup_append.mpr ⟨nodup_range', ?_, ?_⟩
    · exact (nodup_append.mp h.held_nodup).2.1
    · intro n hn m hm
      have hlow := (mem_range'_1.mp hn).1
      have hhigh := hcompaction m hm
      omega
  · intro n hn
    obtain hn | hn := mem_append.mp hn
    · have := mem_range'_1.mp hn
      omega
    · have := hcompaction n hn
      omega
  · intro n hn
    obtain hn | hn := mem_append.mp hn
    · exact .inr (mem_range'_1.mp hn).1
    · exact .inl (mem_append_right _ hn)
  · exact ⟨(h.version.levels 0).sorted.guards_increasing, length_range'⟩

theorem BackgroundState.Inv.newFileNumber
    (h : s.Inv) : BackgroundState.Inv { s with nextFileNumber := s.nextFileNumber + 1 } :=
  h.rehold (Nat.le_succ _) h.held_nodup (fun n hn => (h.held_lt n hn).2.trans (Nat.lt_succ_self _))
    (fun _ hn => .inl hn) (fun hjob => hjob) h.flush h.compaction

/-- A compaction that holds no numbers. -/
theorem BackgroundState.Inv.setCompaction (h : s.Inv) (hnumbers : job.numbers = [])
    (hlogging : s.compaction ≠ .logging)
    (hjob : job.Ok s.tables s.version) : BackgroundState.Inv { s with compaction := job } := by
  have hheld : (s.flush.numbers ++ job.numbers).Sublist s.held := by
    rw [hnumbers, append_nil]
    exact sublist_append_left ..
  exact h.rehold le_rfl (h.held_nodup.sublist hheld)
    (fun n hn => (h.held_lt n (hheld.mem hn)).2) (fun n hn => .inl (hheld.mem hn))
    (fun _ => hlogging) h.flush hjob

variable {base : Version K} {c : Compaction K} {numbers : List Nat}

theorem BackgroundState.Inv.openOutput (h : s.Inv) (hjob : s.compaction = .working base c numbers) :
    BackgroundState.Inv { s with
      nextFileNumber := s.nextFileNumber + 1
      compaction := .working base c (numbers ++ [s.nextFileNumber]) } := by
  have hheld : s.held = s.flush.numbers ++ numbers := by
    rw [held, hjob]
    rfl
  have hsplit : s.flush.numbers ++ (numbers ++ [s.nextFileNumber]) =
      s.held ++ [s.nextFileNumber] := by
    rw [hheld, append_assoc]
  have hcompaction := h.compaction
  rw [hjob] at hcompaction
  refine h.rehold (Nat.le_succ _) ?_ ?_ ?_ (by simp [hjob]) h.flush hcompaction
  all_goals rw [CompactionJob.numbers, hsplit]
  · refine nodup_append.mpr ⟨h.held_nodup, nodup_singleton _, ?_⟩
    intro n hn m hm
    have hlt := (h.held_lt n hn).2
    rw [mem_singleton.mp hm]
    omega
  · intro n hn
    obtain hn | hn := mem_append.mp hn
    · exact (h.held_lt n hn).2.trans (Nat.lt_succ_self _)
    · rw [mem_singleton.mp hn]
      exact Nat.lt_succ_self _
  · intro n hn
    obtain hn | hn := mem_append.mp hn
    · exact .inl hn
    · exact .inr (mem_singleton.mp hn).ge

variable {env : CompactionEnv K V}

/-- Tables are written under numbers that no file has, and the jobs hold fewer numbers
than before. -/
theorem BackgroundState.Inv.write (h : s.Inv)
    (hfree : ∀ n < s.nextFileNumber, n ∉ s.held → ∀ i, n ≠ env.number i)
    (outputs : List (Output K V)) (hheld : (flush.numbers ++ compaction.numbers).Sublist s.held)
    (hlogging : compaction ≠ .logging → s.compaction ≠ .logging)
    (hflush : flush.Ok (env.writeTables s.tables outputs))
    (hcompaction : compaction.Ok (env.writeTables s.tables outputs) s.version) :
    BackgroundState.Inv { s with
      tables := env.writeTables s.tables outputs, flush := flush, compaction := compaction } where
  held_nodup := h.held_nodup.sublist hheld
  held_lt := fun n hn => h.held_lt n (hheld.mem hn)
  __ := h
  version := (h.version.write hfree outputs).mono le_rfl
    fun _ hn => .inl (hheld.mem hn)
  pending := fun p hp => ((h.pending p hp).write hfree outputs).mono le_rfl
    fun _ hn => .inl (hheld.mem hn)
  since := fun p hp hjob => h.since p hp (hlogging hjob)
  flush := hflush
  compaction := hcompaction

/-- What the flush relies on is not written to by others. -/
theorem FlushJob.Ok.write {job : FlushJob K V} (h : job.Ok tables)
    (hne : ∀ n ∈ job.numbers, ∀ i, n ≠ env.number i)
    (outputs : List (Output K V)) : job.Ok (env.writeTables tables outputs) := by
  cases job with
  | idle | logging => trivial
  | building base live mem numbers => exact h
  | built base live files =>
    intro f hf
    rw [writeTables_of_ne _ _ (hne _ (mem_map_of_mem hf))]
    exact h f hf

/-- What the compaction relies on is not written to by others. -/
theorem CompactionJob.Ok.write (h : job.Ok tables v)
    (hne : ∀ n ∈ job.numbers, ∀ i, n ≠ env.number i)
    (outputs : List (Output K V)) : job.Ok (env.writeTables tables outputs) v := by
  cases job with
  | idle | logging => trivial
  | working base c numbers => exact h
  | finished base c files =>
    refine ⟨h.1, ?_⟩
    intro f hf
    rw [writeTables_of_ne _ _ (hne _ (mem_map_of_mem hf))]
    exact h.2 f hf

omit [LinearOrder K] in
theorem numbers_sublist {outputs : List (Output K V)} (hlength : outputs.length ≤ numbers.length) :
    ((outputs.zipIdx.map (env.withNumbers numbers next).outputFile).map (·.number)).Sublist
      numbers := by
  rw [map_number_outputFile]
  change ((range outputs.length).map (numbering numbers next)).Sublist numbers
  rw [map_numbering_range hlength]
  exact take_sublist ..

/-- **The tables of a flush lie between the guards that it read.** -/
theorem BackgroundState.Inv.flushBuild (h : s.Inv) {live : Bool} {mem : MemTable K V}
    (hjob : s.flush = .building base live mem numbers) (env : CompactionEnv K V) :
    (s.flushBuild (env.withNumbers numbers s.nextFileNumber) base live mem).Inv := by
  have hheld : s.held = numbers ++ s.compaction.numbers := by
    rw [held, hjob]
    rfl
  obtain ⟨hnodup, _, hdisjoint⟩ := nodup_append.mp (hheld ▸ h.held_nodup)
  have hlt : ∀ n ∈ numbers, n < s.nextFileNumber := fun n hn =>
    (h.held_lt n (hheld ▸ mem_append_left _ hn)).2
  have hok := h.flush
  rw [hjob] at hok
  obtain ⟨hguards, hlength⟩ := hok
  have houtputs : (buildLevel0Tables (guardUserKeys (base 0).guards) mem.entries).length ≤
      numbers.length := by
    have := length_buildLevel0Tables_le (guardUserKeys (base 0).guards) mem.entries
    rw [hlength]
    rwa [guardUserKeys, length_map] at this
  refine h.write ?_ _ ?_ (fun hjob => hjob) ?_ (h.compaction.write ?_ _)
  · intro n hn hfree
    exact ne_numbering hn fun hmem => hfree (hheld ▸ mem_append_left _ hmem)
  · rw [hheld]
    exact ((filter_sublist.map _).trans (numbers_sublist houtputs)).append_right _
  · intro f hf
    obtain ⟨p, hp, rfl⟩ := mem_map.mp (mem_of_mem_filter hf)
    have hout := fst_mem_of_mem_zipIdx hp
    have hinjective : Injective (env.withNumbers numbers s.nextFileNumber).number :=
      numbering_injective hnodup hlt
    have hdescribes := describes_written hinjective s.tables hp
      (wellFormed_buildLevel0Tables hout)
      (mem.nondecreasing.sublist (sublist_buildLevel0Tables hout))
    refine ⟨hdescribes, ?_⟩
    rw [← fits_iff_not_cutBy hdescribes.bounds_le]
    exact fits_buildLevel0Tables hguards mem hout
  · intro n hn
    have hlt' := (h.held_lt n (hheld ▸ mem_append_right _ hn)).2
    exact ne_numbering hlt' fun hmem => hdisjoint n hmem n hn rfl

theorem BackgroundState.Inv.wellFormed_base (h : s.Inv) (hpicked : PickedFrom base c s.version) :
    DB.WellFormed (⟨base, s.tables⟩ : DB K V) where
  levels := hpicked.levels
  tables := fun l f hf => h.version.tables l f (hpicked.since.files l hf)

/-- The outputs of a compaction lie between the complete guards that it took. -/
theorem BackgroundState.Inv.compactionWork (h : s.Inv)
    (hjob : s.compaction = .working base c numbers) (env : CompactionEnv K V)
    (hlength : (doCompactionWorkGuards base s.tables c
      (env.withNumbers numbers s.nextFileNumber)).length = numbers.length) :
    (s.compactionWork (env.withNumbers numbers s.nextFileNumber) base c).Inv := by
  have hheld : s.held = s.flush.numbers ++ numbers := by
    rw [held, hjob]
    rfl
  obtain ⟨_, hnodup, hdisjoint⟩ := nodup_append.mp (hheld ▸ h.held_nodup)
  have hlt : ∀ n ∈ numbers, n < s.nextFileNumber := fun n hn =>
    (h.held_lt n (hheld ▸ mem_append_right _ hn)).2
  have hpicked := h.compaction
  rw [hjob] at hpicked
  have hdb := h.wellFormed_base hpicked
  obtain ⟨scores, level, forceCompact, hpick⟩ := hpicked.picked
  have hc : c.From base := from_pickCompactionForGuards hpicked.levels hpick
  refine h.write ?_ _ ?_ (by simp [hjob]) (h.flush.write ?_ _) ⟨hpicked, ?_⟩
  · intro n hn hfree
    exact ne_numbering hn fun hmem => hfree (hheld ▸ mem_append_right _ hmem)
  · rw [hheld]
    exact (numbers_sublist hlength.le).append_left _
  · intro n hn
    have hlt' := (h.held_lt n (hheld ▸ mem_append_left _ hn)).2
    exact ne_numbering hlt' fun hmem => hdisjoint n hn n hmem rfl
  · intro f hf
    have hfits := fits_of_mem_outputFiles hc hdb hpicked.fits (by
      rw [completeGuards_pickCompactionForGuards hpick]
      exact (completeGuardsCopy_spec _).1) hf
    obtain ⟨p, hp, rfl⟩ := mem_map.mp hf
    have hdescribes := describes_outputFile hc hdb hpicked.fits hp
    have hinjective : Injective (env.withNumbers numbers s.nextFileNumber).number :=
      numbering_injective hnodup hlt
    exact ⟨describes_written hinjective s.tables hp ⟨hdescribes.smallest, hdescribes.largest⟩
      hdescribes.sorted, hfits⟩

/-- The start of `LogAndApply`: a version is built from the current one, and the job that
called it holds no numbers any more. -/
theorem BackgroundState.Inv.log (h : s.Inv) {first : Bool} (edit : Edit K)
    (hheld : (flush.numbers ++ compaction.numbers).Sublist s.held)
    (hpending : SoundVersion s.tables s.nextFileNumber (flush.numbers ++ compaction.numbers)
      (s.version.apply edit))
    (hsince : compaction ≠ .logging → Since s.version (s.version.apply edit))
    (hflush : flush.Ok s.tables) (hcompaction : compaction.Ok s.tables s.version) :
    BackgroundState.Inv { s with
      firstFlush := first, flush := flush, compaction := compaction
      pending := some (s.version.pending edit) } where
  held_nodup := h.held_nodup.sublist hheld
  held_lt := fun n hn => h.held_lt n (hheld.mem hn)
  next_pos := h.next_pos
  version := h.version.mono le_rfl fun _ hn => .inl (hheld.mem hn)
  sizes := by
    intro p hp l
    cases hp
    exact le_rfl
  pending := by
    intro p hp
    cases hp
    rw [installed_pending]
    exact hpending
  since := by
    intro p hp hjob
    cases hp
    rw [installed_pending]
    exact hsince hjob
  flush := hflush
  compaction := hcompaction

/-- New files, at the level they are for, have new numbers. -/
theorem SoundVersion.freshNumbers
    (h : SoundVersion tables next held v) {edit : LevelEdit K} (l : Level) {P : Prop} [Decidable P]
    {files : List (FileMetaData K)} (hnew : edit.newFiles = if P then files else [])
    (hnodup : (files.map (·.number)).Nodup) (hheld : ∀ f ∈ files, f.number ∈ held) :
    FreshNumbers (v l) edit := by
  refine freshNumbers_of_unused (h.levels l).sorted.numbers_nodup hnew hnodup ?_
  intro f hf f' hf' heq
  exact (h.numbers l f hf).2 (heq ▸ hheld f' hf')

section Flush

variable {first : Bool} {files : List (FileMetaData K)} {l : Level}

omit [LinearOrder K] in
theorem newFiles_flushEdit :
    ((flushEdit first base files).level l).newFiles = if l = 0 then files else [] := by
  change (files.map fun f => ((0 : Level), f)).filterMap _ = _
  rw [filterMap_map]
  split_ifs with hl
  · subst hl
    simp
  · simp [Ne.symm hl]

omit [LinearOrder K] in
theorem deletedGuards_flushEdit : ((flushEdit first base files).level l).deletedGuards = ∅ := by
  simp [VersionEdit.level, flushEdit, VersionEdit.clear]

theorem since_flushEdit (hlevels : ∀ l, (v l).WellFormed)
    (hfresh : ∀ l, FreshNumbers (v l) ((flushEdit first base files).level l)) :
    Since v (v.apply (flushEdit first base files)) where
  files := by
    intro l f hf
    refine (mem_files_install (hfresh l)).mpr (.inl ⟨hf, ?_⟩)
    simp [VersionEdit.level, flushEdit, VersionEdit.clear]
  guards := by
    intro l
    obtain ⟨hincreasing, hmem⟩ := guardUserKeys_install
      (@deletedGuards_flushEdit K base first files l) (hlevels l).sorted.guards_increasing
    refine Pairwise.eq_of_mem_iff hincreasing (hlevels l).sorted.guards_increasing ?_
    intro u
    refine (hmem u).trans ?_
    simp [VersionEdit.level, flushEdit, VersionEdit.clear]
  complete := by
    intro l u hu
    exact (mem_completeGuards_install deletedGuards_flushEdit).mpr (.inl hu)

/-- The files of a flush are added when no guard of the first level lies inside one. -/
theorem SoundVersion.flushEdit (h : SoundVersion tables next held v)
    (hfresh : ∀ l, FreshNumbers (v l) ((flushEdit first base files).level l))
    (hnew : ∀ f ∈ files, (0 < f.number ∧ f.Describes (tables f.number)) ∧ f.number < next ∧
      f.number ∉ held) (hcut : ∀ f ∈ files, ∀ u ∈ guardUserKeys (v 0).guards, ¬ f.CutBy u) :
    SoundVersion tables next held (v.apply (flushEdit first base files)) := by
  refine h.apply (fun l => deletedGuards_flushEdit) nofun hfresh ?_ ?_
  · intro l f hf
    rw [newFiles_flushEdit, mem_ite_nil_right] at hf
    exact hnew f hf.2
  · intro l f hf u hu
    obtain hu | hu := hu
    · obtain ⟨hold, _⟩ | hadded := hf
      · exact (fits_iff_not_cutBy (h.tables l f hold).2.bounds_le).mp (h.fits l f hold) u hu
      · rw [newFiles_flushEdit, mem_ite_nil_right] at hadded
        obtain ⟨rfl, hadded⟩ := hadded
        exact hcut f hadded u hu
    · cases hu

end Flush

/-- **The files of a flush are added**, when no guard that it has not seen lies inside one. -/
theorem BackgroundState.Inv.flushLog (h : s.Inv) {live : Bool} {files : List (FileMetaData K)}
    (hjob : s.flush = .built base live files)
    (hapart : s.flush.Apart s.version) : (s.flushLog base files).Inv := by
  have hheld : s.held = files.map (·.number) ++ s.compaction.numbers := by
    rw [held, hjob]
    rfl
  obtain ⟨hnodup, _, hdisjoint⟩ := nodup_append.mp (hheld ▸ h.held_nodup)
  have hok := h.flush
  rw [hjob] at hok hapart
  have hnumber : ∀ f ∈ files, f.number ∈ s.held := fun f hf =>
    hheld ▸ mem_append_left _ (mem_map_of_mem hf)
  have hfresh : ∀ l, FreshNumbers (s.version l)
      ((flushEdit s.firstFlush base files).level l) :=
    fun l => h.version.freshNumbers l newFiles_flushEdit hnodup hnumber
  have hsub : ([] ++ s.compaction.numbers).Sublist s.held := by
    rw [hheld]
    exact sublist_append_right ..
  refine h.log _ hsub ?_ (fun _ => since_flushEdit h.version.levels hfresh) trivial
    h.compaction
  refine (h.version.mono le_rfl fun _ hn => .inl (hsub.mem hn)).flushEdit hfresh ?_ ?_
  · intro f hf
    have hlt := h.held_lt _ (hnumber f hf)
    exact ⟨⟨hlt.1, (hok f hf).1⟩, hlt.2, fun hmem =>
      hdisjoint _ (mem_map_of_mem hf) _ hmem rfl⟩
  · intro f hf u hu
    by_cases hseen : u ∈ guardUserKeys (base 0).guards
    · exact (hok f hf).2 u hseen
    · exact hapart u hu hseen f hf

/-- **A compaction is installed**, when none of its guards lies inside a file that it has
not seen. -/
theorem BackgroundState.Inv.compactionLog (h : s.Inv) {files : List (FileMetaData K)}
    (hjob : s.compaction = .finished base c files)
    (hapart : s.compaction.Apart s.version) : (s.compactionLog base c files).Inv := by
  have hheld : s.held = s.flush.numbers ++ files.map (·.number) := by
    rw [held, hjob]
    rfl
  obtain ⟨_, hnodup, hdisjoint⟩ := nodup_append.mp (hheld ▸ h.held_nodup)
  have hok := h.compaction
  rw [hjob] at hok hapart
  obtain ⟨hpicked, hfiles⟩ := hok
  have hdb := h.wellFormed_base hpicked
  obtain ⟨scores, level, forceCompact, hpick⟩ := hpicked.picked
  have hc : c.From base := from_pickCompactionForGuards hpicked.levels hpick
  have hnumber : ∀ f ∈ files, f.number ∈ s.held := fun f hf =>
    hheld ▸ mem_append_right _ (mem_map_of_mem hf)
  have hsub : (s.flush.numbers ++ []).Sublist s.held := by
    rw [hheld, append_nil]
    exact sublist_append_left ..
  have hguard : ∀ {l u}, u ∈ ((c.edit false base files).level l).newGuards.map (·.userKey) →
      (l = c.level ∨ c.next = some l) ∧ u ∈ (base l).completeGuards.map (·.userKey) := by
    intro l u hu
    rw [newGuards_edit] at hu
    split_ifs at hu with hadopts
    · exact ⟨hadopts.2, hu⟩
    · cases hu
  refine h.log _ hsub ?_ (fun hne => absurd rfl hne) h.flush trivial
  refine (h.version.mono le_rfl fun _ hn => .inl (hsub.mem hn)).apply
    (fun l => deletedGuards_edit) ?_
    (fun l => h.version.freshNumbers l newFiles_edit hnodup hnumber) ?_ ?_
  · intro l u hu
    exact hpicked.since.complete l u (hguard hu).2
  · intro l f hf
    rw [newFiles_edit, mem_ite_nil_right] at hf
    have hlt := h.held_lt _ (hnumber f hf.2)
    refine ⟨⟨hlt.1, (hfiles f hf.2).1⟩, hlt.2, fun hmem => ?_⟩
    rw [append_nil] at hmem
    exact hdisjoint _ hmem _ (mem_map_of_mem hf.2) rfl
  · intro l f hf u hu
    obtain ⟨hold, hkept⟩ | hnew := hf
    · have hbounds := (h.version.tables l f hold).2.bounds_le
      obtain hu | hu := hu
      · exact (fits_iff_not_cutBy hbounds).mp (h.version.fits l f hold) u hu
      · obtain ⟨hadopts, hu⟩ := hguard hu
        by_cases hseen : f ∈ (base l).files
        · have hstays : ¬ c.Takes l f := fun htakes =>
            hkept ((takes_iff hc hdb hseen).mpr htakes)
          exact (fits_iff_not_cutBy hbounds).mp
            (fits_of_not_takes hdb hpick hadopts hseen hstays) u
            (((completeGuardsCopy_spec _).2 u).mpr hu)
        · exact hapart l hadopts u hu f hold hseen
    · rw [newFiles_edit, mem_ite_nil_right] at hnew
      obtain ⟨rfl, hnew⟩ := hnew
      refine (fits_iff_not_cutBy (hfiles f hnew).1.bounds_le).mp (hfiles f hnew).2 u ?_
      rw [completeGuards_pickCompactionForGuards hpick, (completeGuardsCopy_spec _).2 u]
      obtain hu | hu := hu
      · rw [hpicked.since.guards] at hu
        exact (hpicked.levels _).guards_complete u hu
      · exact (hguard hu).2

theorem BackgroundState.Inv.logEnd (h : s.Inv) {p : PendingVersion K}
    (hpending : s.pending = some p) : (s.logEnd p).Inv := by
  have hflush : s.flush.logEnd.numbers = s.flush.numbers := by cases s.flush <;> rfl
  have hcompaction : s.compaction.logEnd.numbers = s.compaction.numbers := by
    cases s.compaction <;> rfl
  have hheld : (s.logEnd p).held = s.held := by
    change s.flush.logEnd.numbers ++ s.compaction.logEnd.numbers = _
    rw [hflush, hcompaction]
    rfl
  refine ⟨hheld ▸ h.held_nodup, hheld ▸ h.held_lt, h.next_pos, ?_, nofun, nofun, nofun, ?_, ?_⟩
  · rw [hheld]
    exact h.pending p hpending
  · have hok := h.flush
    change s.flush.logEnd.Ok s.tables
    cases hjob : s.flush with
    | idle | logging => trivial
    | building | built =>
      rw [hjob] at hok
      exact hok
  · have hok := h.compaction
    have hsince := h.since p hpending
    change s.compaction.logEnd.Ok s.tables (p.installed s.version)
    cases hjob : s.compaction with
    | idle | logging => trivial
    | working | finished =>
      rw [hjob] at hok hsince
      exact hok.of_since (hsince (by simp))

/-- **A step keeps the invariant**, when guards and files stay apart. -/
theorem BackgroundState.Inv.step (h : s.Inv) (hapart : Apart s a)
    (hstep : BackgroundStep s a s') : s'.Inv := by
  cases hstep with
  | addToCompleteGuards => exact h.addToCompleteGuards _ _
  | newFileNumber => exact h.newFileNumber
  | flushStart hidle => exact h.flushStart _
  | flushBuild hjob => exact h.flushBuild hjob _
  | flushLog hjob hpending => exact h.flushLog hjob hapart
  | compactionStart hidle hpick =>
    refine h.setCompaction rfl (by simp [hidle]) ?_
    exact ⟨⟨_, _, _, hpick⟩, h.version.levels, h.version.fits, Since.refl _⟩
  | openOutput hjob => exact h.openOutput hjob
  | withoutInputs hjob => exact h.setCompaction rfl (by simp [hjob]) trivial
  | compactionWork hjob hlength => exact h.compactionWork hjob _ hlength
  | compactionLog hjob hpending => exact h.compactionLog hjob hapart
  | logEnd hpending => exact h.logEnd hpending

/-- **The files of every level fit its guards** in every run of flushes and compactions, when
no guard that a flush has not seen lies inside one of its files and no guard that a compaction
installs inside a file that it has not seen. -/
theorem filesFit_of_apart
    (hrun : Runs BackgroundState.step Apart (BackgroundState.opened : BackgroundState K V) s)
    (l : Level) : (s.version l).FilesFit := by
  have hinv : s.Inv := by
    refine hrun.invariant BackgroundState.inv_opened ?_
    intro s₁ a s₂ h hapart hstep
    exact h.step hapart (backgroundStep_of_step hstep)
  exact hinv.version.fits l

/-- A memtable with three keys, the second of which is a guard. -/
def guardedMem : MemTable Nat Nat where
  entries := [⟨⟨3, 1, .kTypeValue⟩, 30⟩, ⟨⟨5, 2, .kTypeValue⟩, 50⟩, ⟨⟨7, 4, .kTypeValue⟩, 70⟩]
  sorted := by
    simp [Increasing, InternalKey.lt_of_userKey_lt]

def memOfTwo (a b : Nat) (h : a < b) : MemTable Nat Nat where
  entries := [⟨⟨a, 5, .kTypeValue⟩, 0⟩, ⟨⟨b, 6, .kTypeValue⟩, 0⟩]
  sorted := List.pairwise_pair.mpr (InternalKey.lt_of_userKey_lt h)

/-- Tables that are never full, in a database without snapshots. -/
def plainEnv : CompactionEnv Nat Nat :=
  { smallestSnapshot := 10
    manualGarbageCutoff := 0
    fileSize := fun _ => 0
    finishedSize := List.length
    number := id }

/-- The guard is pushed to all levels and a memtable is flushed.  A compaction of the first
level starts, and while it runs, the next flush.  The compaction is installed first. -/
def raceMoves (mem : MemTable Nat Nat) : List (BackgroundAction Nat Nat) :=
  (List.finRange kNumLevels).map (fun l => .addToCompleteGuards l ⟨5, 3, .kTypeValue⟩) ++
    [.flushStart guardedMem, .flushBuild plainEnv, .flushLog, .logEnd,
      .compactionStart (fun _ => ⟨0, fun _ => 0⟩) 0 false, .flushStart mem, .openOutput,
      .openOutput, .compactionWork plainEnv, .compactionLog, .logEnd,
      .flushBuild plainEnv, .flushLog, .logEnd]

/-- The second memtable lies behind the guard. -/
theorem filesFit_of_apart_race :
    ∃ s, Runs BackgroundState.step Apart (BackgroundState.opened : BackgroundState Nat Nat) s ∧
      guardUserKeys (s.version 0).guards = [5] ∧ (s.version 0).files.length = 1 ∧
      (s.version 0).FilesFit := by
  refine exists_runs_imp
    (P := fun s => guardUserKeys (s.version 0).guards = [5] ∧ (s.version 0).files.length = 1)
    (raceMoves (memOfTwo 6 8 (by decide))) (by decide +kernel) fun s hrun ⟨hguards, hfiles⟩ => ?_
  exact ⟨hguards, hfiles, filesFit_of_apart hrun 0⟩

/-- **A file does not fit.**  The second flush read no guards, and its file reaches from
before the guard, which the compaction has installed in the meantime, to behind it. -/
theorem not_filesFit_race : ∃ s, Runs BackgroundState.step (fun _ _ => True)
        (BackgroundState.opened : BackgroundState Nat Nat) s ∧
      ¬ (s.version 0).FilesFit :=
  exists_runs (raceMoves (memOfTwo 4 6 (by decide))) (by decide +kernel)

end HotTLBApps.PebblesDB
