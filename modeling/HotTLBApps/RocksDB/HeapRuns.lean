import HotTLBApps.Lib.Runs
import HotTLBApps.Speedb.BinaryHeap

/-!
# RocksDB: runs of the binary heap (`util/heap.h`)

The header is the one that `Speedb/BinaryHeap` models.  Here its operations are called in any
order, and beside the heap stands what came in and what was taken out.
-/

namespace HotTLBApps.RocksDB
namespace HeapRuns

open Heap List Speedb Speedb.BinaryHeap

variable {α : Type*}

inductive Call (α : Type*)
  | push (value : α)
  | pop
  | replaceTop (value : α)
  | clear

/-- A heap, the elements that were put into it since the last `clear`, and those of them that
`top()` showed when they were removed. -/
structure Ledger (α : Type*) where
  heap : BinaryHeap α
  pushed : List α
  removed : List α

def Ledger.new : Ledger α :=
  ⟨.empty, [], []⟩

variable (cmp : α → α → Bool)

/-- `none` is a failed `assert(!empty())`. -/
def Ledger.call (s : Ledger α) : Call α → Option (Ledger α)
  | .push value => some ⟨s.heap.push cmp value, value :: s.pushed, s.removed⟩
  | .pop => s.heap.top?.map fun top => ⟨s.heap.pop cmp, s.pushed, top :: s.removed⟩
  | .replaceTop value => s.heap.top?.map fun top =>
      ⟨s.heap.replaceTop cmp value, value :: s.pushed, top :: s.removed⟩
  | .clear => some ⟨.empty, [], []⟩

structure Ledger.Inv (s : Ledger α) : Prop where
  ok : Ok cmp s.heap
  balance : (s.removed ++ s.heap.data).Perm s.pushed

variable {cmp} {s s' : Ledger α}

theorem Ledger.inv_new : (new : Ledger α).Inv cmp :=
  ⟨ok_empty, Perm.refl _⟩

theorem Ledger.Inv.call (hweak : ∀ l, StrictWeak cmp l) (h : s.Inv cmp) {c : Call α}
    (hcall : s.call cmp c = some s') : s'.Inv cmp := by
  have hloose : Loose cmp s.heap := h.ok.loose fun _ _ _ _ => rfl
  have hbalance := h.balance
  cases c with
  | push value =>
    cases hcall
    obtain ⟨hperm, hok⟩ := push_spec h.ok (hweak (value :: s.heap.data))
    refine ⟨hok, (hperm.append_left _).trans ?_⟩
    exact perm_middle.trans (hbalance.cons value)
  | pop =>
    obtain ⟨top, htop, rfl⟩ := Option.map_eq_some_iff.mp hcall
    obtain ⟨rest, hdata⟩ := head?_eq_some_iff.mp htop
    obtain ⟨hperm, hok⟩ := pop_spec hloose hdata (hweak rest)
    rw [hdata] at hbalance
    refine ⟨hok, ((hperm.append_left _).cons top).trans ?_⟩
    exact perm_middle.symm.trans hbalance
  | replaceTop value =>
    obtain ⟨top, htop, rfl⟩ := Option.map_eq_some_iff.mp hcall
    obtain ⟨rest, hdata⟩ := head?_eq_some_iff.mp htop
    obtain ⟨hperm, hok⟩ := replaceTop_spec hloose hdata (hweak (value :: rest))
    rw [hdata] at hbalance
    refine ⟨hok, ((hperm.append_left _).cons top).trans ?_⟩
    refine (perm_middle.cons top).trans ((Perm.swap _ _ _).trans (Perm.cons value ?_))
    exact perm_middle.symm.trans hbalance
  | clear =>
    cases hcall
    exact inv_new

/-- **After every sequence of calls** the heap holds what was pushed and not removed, its top
is a greatest element, a valid index in the cache names a greatest child of the root, and the
array is in heap order. -/
theorem heap_of_runs
    (hweak : ∀ l, StrictWeak cmp l)
    (hrun : Runs (Ledger.call cmp) (fun _ _ => True) .new s) :
    (s.removed ++ s.heap.data).Perm s.pushed ∧
      (∀ top, s.heap.top? = some top →
        top ∈ s.heap.data ∧ ∀ a ∈ s.heap.data, cmp top a = false) ∧
      (∀ c, s.heap.rootCmpCache = some c → c < s.heap.data.length →
        Greatest cmp s.heap.data 0 c) ∧
      IsHeap cmp s.heap.data := by
  have h : s.Inv cmp :=
    hrun.invariant Ledger.inv_new fun _ _ _ h _ hcall => h.call hweak hcall
  refine ⟨h.balance, fun top htop => ⟨mem_of_head? htop, fun a ha => ?_⟩, h.ok.cache, h.ok.isHeap⟩
  exact h.ok.isHeap.top (hweak _) htop ha

theorem heap_of_runs_cached : ∃ s : Ledger Nat,
    Runs (Ledger.call fun a b => decide (a < b)) (fun _ _ => True) .new s ∧
      s.heap.rootCmpCache = some 2 ∧ Greatest (fun a b => decide (a < b)) s.heap.data 0 2 := by
  have hweak : ∀ l, StrictWeak (fun a b : Nat => decide (a < b)) l := by
    refine fun l => ⟨fun a _ b _ => ?_, fun a _ b _ c _ => ?_⟩
    · simp only [decide_eq_true_eq, decide_eq_false_iff_not]
      omega
    · simp only [decide_eq_false_iff_not]
      omega
  refine exists_runs_imp (P := fun s => s.heap.rootCmpCache = some 2 ∧ 2 < s.heap.data.length)
    [.push 1, .push 3, .push 2, .replaceTop 3] (by decide) fun s hrun hs => ?_
  exact ⟨hs.1, (heap_of_runs hweak hrun).2.2.1 2 hs.1 hs.2⟩

end HeapRuns
end HotTLBApps.RocksDB
