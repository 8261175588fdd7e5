import HotTLBApps.Lib.Runs
import HotTLBApps.PebblesDB.LogSpace
import Mathlib

/-!
# PebblesDB: threads that add records to one log

`AddRecord` takes no lock: each thread reads `offset_`, computes the end of its record,
claims the range by a compare-and-swap and then makes its `WriteAt` calls.

* `recordEnd_startOf`, `recordEnd_rest`: the fragment loop does not move the end of a record;
* `WriterState.Separate.step`: the ranges follow one another.
-/

namespace HotTLBApps.PebblesDB
namespace Log

open List Function

/-- Where a thread is in `AddRecord`: before it reads `offset_`, with the value that it read,
and after its compare-and-swap at the top of the fragment loop or before a payload. -/
inductive WriterPhase
  | idle
  | called (slice : List UInt8)
  | reserving (slice : List UInt8) (startOffset : Nat)
  | fragment (range : Nat × Nat) (offset : Nat) (begin_ : Bool) (ptr : List UInt8)
  | payload (range : Nat × Nat) (offset : Nat) (ptr : List UInt8)

/-- A call of `WriteAt`, with the range that its thread has reserved. -/
structure WriteCall where
  range : Nat × Nat
  offset : Nat
  data : List UInt8

/-- The writer and its threads.  `reserved` are the ranges of the successful compare-and-swaps
and `written` the calls made so far. -/
structure WriterState (T : Type) where
  offset : Nat
  phase : T → WriterPhase
  reserved : List (Nat × Nat)
  written : List WriteCall

def WriterState.new {T : Type} : WriterState T :=
  ⟨0, fun _ => .idle, [], []⟩

/-- The steps of the threads; `ok` is what the call of `WriteAt` returns. -/
inductive WriterEvent (T : Type)
  | addRecord (t : T) (slice : List UInt8)
  | readOffset (t : T)
  | compareAndSwap (t : T)
  | writeAt (t : T) (ok : Bool)

namespace WriterState

variable {T : Type} [DecidableEq T] (ndebug : Bool) (crc : Crc32c)

/-- A thread goes on to another phase. -/
def goTo (s : WriterState T) (t : T) (phase : WriterPhase) : WriterState T :=
  { s with phase := Function.update s.phase t phase }

/-- A thread that has read the offset reserves its range. -/
def claim (s : WriterState T) (t : T) (slice : List UInt8) (endOffset : Nat) : WriterState T :=
  { s.goTo t (.fragment (s.offset, endOffset) s.offset true slice) with
    offset := endOffset
    reserved := s.reserved ++ [(s.offset, endOffset)] }

/-- A thread makes a call of `WriteAt` and goes on. -/
def wrote (s : WriterState T) (t : T) (call : WriteCall) (phase : WriterPhase) : WriterState T :=
  { s.goTo t phase with written := s.written ++ [call] }

/-- One step; `none` if it is not possible or an assertion ends the process.  A trailer is
filled whatever `WriteAt` returns. -/
def step (s : WriterState T) : WriterEvent T → Option (WriterState T)
  | .addRecord t slice =>
      match s.phase t with
      | .idle => some (s.goTo t (.called slice))
      | _ => none
  | .readOffset t =>
      match s.phase t with
      | .called slice => some (s.goTo t (.reserving slice s.offset))
      | _ => none
  | .compareAndSwap t =>
      match s.phase t with
      | .reserving slice startOffset =>
          match reserve ndebug startOffset slice.length with
          | none => none
          | some endOffset =>
              if s.offset = startOffset then some (s.claim t slice endOffset)
              else some (s.goTo t (.called slice))
      | _ => none
  | .writeAt t ok =>
      match s.phase t with
      | .fragment range offset begin_ ptr =>
          let leftover := kBlockSize - blockOffset offset
          let n := min ptr.length (avail offset)
          if leftover < kHeaderSize then
            some (s.wrote t ⟨range, offset, List.replicate leftover 0⟩
              (.fragment range (u64 (offset + leftover)) begin_ ptr))
          else
            some (s.wrote t
              ⟨range, offset, header crc (fragmentType begin_ (ptr.length == n)) (ptr.take n)⟩
              (if ok then .payload range offset ptr else .idle))
      | .payload range offset ptr =>
          let n := min ptr.length (avail offset)
          some (s.wrote t ⟨range, u64 (offset + kHeaderSize), ptr.take n⟩
            (if ok && 0 < ptr.length - n then
              .fragment range (u64 (offset + kHeaderSize + n)) false (ptr.drop n)
            else .idle))
      | _ => none

end WriterState

variable {offset n : Nat}

theorem startOf_of_room (h : kHeaderSize ≤ room offset) : startOf offset = offset := by
  rw [startOf, if_neg (by omega)]

theorem recordEnd_startOf (offset n : Nat) : recordEnd (startOf offset) n = recordEnd offset n := by
  simp only [recordEnd, startOf_of_room (kHeaderSize_le_room_startOf offset)]

theorem recordEnd_rest (h : kHeaderSize ≤ room offset) (hmore : 0 < n - min n (avail offset)) :
    recordEnd (offset + kHeaderSize + min n (avail offset)) (n - min n (avail offset)) =
      recordEnd offset n := by
  rw [avail_eq] at hmore ⊢
  rw [Nat.min_eq_right (by omega)]
  have hnext : startOf (offset + kHeaderSize + (room offset - kHeaderSize)) =
      offset + room offset := by
    rw [startOf, if_neg] <;> simp only [room_eq, kHeaderSize] at * <;> omega
  rw [recordEnd_eq, recordEnd_eq, hnext, startOf_of_room h, if_neg (by omega), if_neg (by omega)]
  simp only [room_eq, kHeaderSize] at *
  omega

variable {T : Type} [DecidableEq T] {ndebug : Bool} {crc : Crc32c}

/-- A call writes inside the range of its thread. -/
def WriteCall.Within (call : WriteCall) : Prop :=
  call.range.1 ≤ call.offset ∧ call.offset + call.data.length ≤ call.range.2

/-- What is left of the record of a thread lies inside a range that is reserved. -/
def WriterPhase.Inside (reserved : List (Nat × Nat)) : WriterPhase → Prop
  | .fragment range offset _ ptr =>
      range ∈ reserved ∧ range.1 ≤ offset ∧ recordEnd offset ptr.length ≤ range.2
  | .payload range offset ptr =>
      range ∈ reserved ∧ range.1 ≤ offset ∧ recordEnd offset ptr.length ≤ range.2 ∧
        kHeaderSize ≤ room offset
  | _ => True

namespace WriterState

/-- The record that is about to be reserved is not truncated and ends within 64 bits. -/
def Fits (s : WriterState T) : WriterEvent T → Prop
  | .compareAndSwap t =>
      ∀ slice, s.phase t = .reserving slice s.offset →
        ¬ Truncates s.offset ∧ nextOffset s.offset slice.length < 2 ^ 64
  | _ => True

/-- The ranges follow one another, and the threads stay inside them. -/
structure Separate (s : WriterState T) : Prop where
  ordered : s.reserved.Pairwise fun a b => a.2 ≤ b.1
  le_offset : ∀ r ∈ s.reserved, r.2 ≤ s.offset
  offset_lt : s.offset < 2 ^ 64
  inside : ∀ t, (s.phase t).Inside s.reserved
  written : ∀ call ∈ s.written, call.range ∈ s.reserved ∧ call.Within

variable {s s' : WriterState T} {event : WriterEvent T} {t : T} {phase : WriterPhase}

theorem Separate.goTo (h : s.Separate) (hphase : phase.Inside s.reserved) :
    (s.goTo t phase).Separate := by
  refine { h with inside := ?_ }
  exact (forall_update_iff s.phase fun _ p => p.Inside s.reserved).mpr
    ⟨hphase, fun t _ => h.inside t⟩

theorem Separate.wrote {call : WriteCall} (h : s.Separate) (hrange : call.range ∈ s.reserved)
    (hcall : call.Within) (hphase : phase.Inside s.reserved) : (s.wrote t call phase).Separate := by
  refine { h.goTo hphase with written := ?_ }
  simp only [WriterState.wrote, forall_mem_append, forall_mem_singleton]
  exact ⟨h.written, hrange, hcall⟩

/-- A range that is reserved at the offset. -/
theorem Separate.claim {slice : List UInt8} {endOffset : Nat} (h : s.Separate)
    (hfits : ¬ Truncates s.offset ∧ nextOffset s.offset slice.length < 2 ^ 64)
    (hreserve : reserve ndebug s.offset slice.length = some endOffset) :
    (s.claim t slice endOffset).Separate := by
  have hend : endOffset = nextOffset s.offset slice.length := by
    have hsum := add_startOf_of_reserve hfits.2 hreserve
    rw [roundupStart_eq hfits.1] at hsum
    omega
  have hrecord : recordEnd s.offset slice.length ≤ endOffset := hend ▸ Nat.le_add_right _ _
  have hstart := le_startOf s.offset
  have hheader := lt_recordEnd s.offset slice.length
  have hmore : ∀ p : WriterPhase, p.Inside s.reserved →
      p.Inside (s.reserved ++ [(s.offset, endOffset)]) := by
    intro p hp
    cases p with
    | fragment | payload => exact hp.imp_left (mem_append_left _)
    | idle | called | reserving => trivial
  refine ⟨?_, ?_, hend ▸ hfits.2, ?_, fun call hcall => (h.written call hcall).imp_left
    (mem_append_left _)⟩
  · simp only [WriterState.claim, pairwise_append, pairwise_singleton, mem_singleton, forall_eq]
    exact ⟨h.ordered, trivial, h.le_offset⟩
  · simp only [WriterState.claim, forall_mem_append, forall_mem_singleton]
    exact ⟨fun r hr => (h.le_offset r hr).trans (by omega), le_rfl⟩
  · refine (forall_update_iff s.phase fun _ p => p.Inside _).mpr
      ⟨?_, fun t _ => hmore _ (h.inside t)⟩
    exact ⟨mem_append_right _ mem_cons_self, le_rfl, hrecord⟩

theorem Separate.writeAt {ok : Bool} (h : s.Separate)
    (hstep : s.step ndebug crc (.writeAt t ok) = some s') : s'.Separate := by
  have hinside := h.inside t
  simp only [WriterState.step] at hstep
  split at hstep
  · rename_i range offset begin_ ptr hphase
    rw [hphase] at hinside
    obtain ⟨hrange, hfirst, hend⟩ := hinside
    have hlt := (h.le_offset range hrange).trans_lt h.offset_lt
    have hheader := lt_recordEnd offset ptr.length
    rw [blockOffset_room] at hstep
    by_cases htrailer : room offset < kHeaderSize
    · rw [if_pos htrailer] at hstep
      cases hstep
      have hstart : startOf offset = offset + room offset := by rw [startOf, if_pos htrailer]
      refine h.wrote hrange ⟨hfirst, ?_⟩ ?_
      · simp only [length_replicate]
        omega
      · rw [u64_of_lt (by omega), ← hstart]
        refine ⟨hrange, hfirst.trans (le_startOf offset), ?_⟩
        rwa [recordEnd_startOf]
    · rw [if_neg htrailer] at hstep
      cases hstep
      rw [startOf_of_room (not_lt.mp htrailer)] at hheader
      refine h.wrote hrange ⟨hfirst, ?_⟩ ?_
      · simp only [length_header]
        omega
      · split_ifs
        · exact ⟨hrange, hfirst, hend, not_lt.mp htrailer⟩
        · trivial
  · rename_i range offset ptr hphase
    rw [hphase] at hinside
    obtain ⟨hrange, hfirst, hend, hroom⟩ := hinside
    have hlt := (h.le_offset range hrange).trans_lt h.offset_lt
    have hpart : offset + kHeaderSize + min ptr.length (avail offset) ≤
        recordEnd offset ptr.length := by
      simp only [recordEnd, avail_eq, startOf_of_room hroom]
      split_ifs <;> omega
    cases hstep
    rw [u64_of_lt (by omega), u64_of_lt (by omega)]
    refine h.wrote hrange ⟨by simp only; omega, ?_⟩ ?_
    · simp only [length_take]
      omega
    · split_ifs with hmore
      · refine ⟨hrange, by omega, ?_⟩
        simp only [Bool.and_eq_true, decide_eq_true_eq] at hmore
        rwa [length_drop, recordEnd_rest hroom hmore.2]
      · trivial
  · cases hstep

theorem Separate.step (h : s.Separate) (hfits : s.Fits event)
    (hstep : s.step ndebug crc event = some s') : s'.Separate := by
  cases event with
  | addRecord t slice | readOffset t =>
    simp only [WriterState.step] at hstep
    split at hstep <;> cases hstep
    exact h.goTo trivial
  | compareAndSwap t =>
    simp only [WriterState.step] at hstep
    split at hstep
    · rename_i slice startOffset hphase
      split at hstep
      · cases hstep
      · rename_i endOffset hreserve
        split_ifs at hstep with hsame <;> cases hstep
        · subst hsame
          exact h.claim (hfits slice hphase) hreserve
        · exact h.goTo trivial
    · cases hstep
  | writeAt t ok => exact h.writeAt hstep

theorem step_compareAndSwap {slice : List UInt8} {startOffset endOffset : Nat}
    (hphase : s.phase t = .reserving slice startOffset)
    (hreserve : reserve ndebug startOffset slice.length = some endOffset) :
    s.step ndebug crc (.compareAndSwap t) = some (if s.offset = startOffset then
      s.claim t slice endOffset else s.goTo t (.called slice)) := by
  simp only [WriterState.step, hphase, hreserve]
  split_ifs <;> rfl

end WriterState

variable (ndebug crc)

/-- **The ranges of concurrent records are disjoint, and every `WriteAt` stays inside the
range of its call**, if no start is truncated and the log ends within 64 bits. -/
theorem reserved_disjoint
    {s : WriterState T}
    (hrun : Runs (WriterState.step ndebug crc) WriterState.Fits .new s) :
    s.reserved.Pairwise (fun a b => Disjoint (Set.Ico a.1 a.2) (Set.Ico b.1 b.2)) ∧
      ∀ call ∈ s.written, call.range ∈ s.reserved ∧ call.Within := by
  have hnew : WriterState.Separate (.new : WriterState T) :=
    ⟨Pairwise.nil, nofun, Nat.two_pow_pos 64, fun _ => trivial, nofun⟩
  have hs := hrun.invariant hnew fun _ _ _ h hfits hstep => h.step hfits hstep
  refine ⟨hs.ordered.imp fun hab => ?_, hs.written⟩
  rw [Set.Ico_disjoint_Ico]
  exact (min_le_left _ _).trans (hab.trans (le_max_right _ _))

/-- Two threads read the same offset.  The first one reserves its range, the compare-and-swap of the
second one fails, and it reserves the next range; then both write their headers. -/
theorem reserved_disjoint_two :
    ∃ s : WriterState Bool, Runs (WriterState.step false crc32c) WriterState.Fits .new s ∧
      s.reserved = [(0, 8), (8, 16)] ∧ s.written.map WriteCall.offset = [8, 0] ∧
        Disjoint (Set.Ico 0 8) (Set.Ico 8 16) ∧ ∀ call ∈ s.written, call.Within := by
  have hreserve : reserve false 0 1 = some 8 := by decide +kernel
  have hreserve' : reserve false 8 1 = some 16 := by decide +kernel
  have hcalled : Runs (WriterState.step false crc32c) WriterState.Fits .new _ :=
    (Runs.nil.snoc (i := WriterEvent.addRecord false [0]) trivial rfl).snoc
      (i := WriterEvent.addRecord true [1]) trivial rfl
  have hread := (hcalled.snoc (i := WriterEvent.readOffset false) trivial rfl).snoc
    (i := WriterEvent.readOffset true) trivial rfl
  have hfirst := hread.snoc (i := WriterEvent.compareAndSwap false)
    (by rintro _ ⟨⟩; exact ⟨fun h => absurd h.1 (by decide), by decide⟩)
    (WriterState.step_compareAndSwap (show _ = WriterPhase.reserving [0] 0 from rfl) hreserve)
  have hlost := hfirst.snoc (i := WriterEvent.compareAndSwap true) nofun
    (WriterState.step_compareAndSwap (show _ = WriterPhase.reserving [1] 0 from rfl) hreserve)
  have hagain := hlost.snoc (i := WriterEvent.readOffset true) trivial rfl
  have hsecond := hagain.snoc (i := WriterEvent.compareAndSwap true)
    (by rintro _ ⟨⟩; exact ⟨fun h => absurd h.1 (by decide), by decide⟩)
    (WriterState.step_compareAndSwap (show _ = WriterPhase.reserving [1] 8 from rfl) hreserve')
  have hwritten := (hsecond.snoc (i := WriterEvent.writeAt true true) trivial rfl).snoc
    (i := WriterEvent.writeAt false true) trivial rfl
  have hresult := reserved_disjoint false crc32c hwritten
  refine ⟨_, hwritten, rfl, rfl, ?_, fun call hcall => (hresult.2 call hcall).2⟩
  exact (pairwise_cons.mp hresult.1).1 (8, 16) mem_cons_self

/-- A thread that is idle reserves a range while the others wait. -/
theorem runs_reserve {s : WriterState T} {t : T} (slice : List UInt8) (endOffset : Nat)
    (hrun : Runs (WriterState.step ndebug crc) (fun _ _ => True) .new s)
    (hidle : s.phase t = .idle) (hreserve : reserve ndebug s.offset slice.length = some endOffset) :
    ∃ s', Runs (WriterState.step ndebug crc) (fun _ _ => True) .new s' ∧ s'.offset = endOffset ∧
      s'.reserved = s.reserved ++ [(s.offset, endOffset)] ∧ ∀ t' ≠ t, s'.phase t' = s.phase t' := by
  have hcalled := hrun.snoc (i := WriterEvent.addRecord t slice) trivial
    (by simp only [WriterState.step, hidle]; rfl)
  have hread := hcalled.snoc (i := WriterEvent.readOffset t) trivial
    (by simp only [WriterState.step, WriterState.goTo, update_self]; rfl)
  refine ⟨_, hread.snoc (i := WriterEvent.compareAndSwap t) trivial
    ((WriterState.step_compareAndSwap (update_self ..) hreserve).trans
      (congrArg some (if_pos rfl))), rfl, rfl, ?_⟩
  intro t' ht'
  simp [WriterState.claim, WriterState.goTo, ht']

/-- The first record ends three bytes before 4 GiB, the start of the second one is truncated
to 0, and the third one is reserved inside the first. -/
theorem truncated_ranges_overlap :
    ∃ s : WriterState (Fin 3), Runs (WriterState.step false crc32c) (fun _ _ => True) .new s ∧
      s.reserved = [(0, 2 ^ 32 - 3), (2 ^ 32 - 3, 8), (8, 16)] ∧
      ¬ s.reserved.Pairwise (fun a b => Disjoint (Set.Ico a.1 a.2) (Set.Ico b.1 b.2)) := by
  obtain ⟨huge, hlength⟩ : ∃ huge : List UInt8, huge.length = 131072 * 32761 - 3 :=
    ⟨_, length_replicate (a := 0)⟩
  obtain ⟨s₁, hrun₁, hoffset₁, hreserved₁, hphase₁⟩ :=
    runs_reserve false crc32c huge (2 ^ 32 - 3) (t := (0 : Fin 3)) Runs.nil rfl
      (by rw [hlength]; decide +kernel)
  obtain ⟨s₂, hrun₂, hoffset₂, hreserved₂, hphase₂⟩ :=
    runs_reserve false crc32c [0] 8 (t := 1) hrun₁ (hphase₁ 1 (by decide))
      (by rw [hoffset₁]; decide +kernel)
  obtain ⟨s₃, hrun₃, -, hreserved₃, -⟩ :=
    runs_reserve false crc32c [0] 16 (t := 2) hrun₂
      ((hphase₂ 2 (by decide)).trans (hphase₁ 2 (by decide))) (by rw [hoffset₂]; decide +kernel)
  have hreserved : s₃.reserved = [(0, 2 ^ 32 - 3), (2 ^ 32 - 3, 8), (8, 16)] := by
    rw [hreserved₃, hreserved₂, hreserved₁, hoffset₁, hoffset₂]
    rfl
  refine ⟨s₃, hrun₃, hreserved, ?_⟩
  rw [hreserved]
  simp [Set.Ico_disjoint_Ico]

end Log
end HotTLBApps.PebblesDB
