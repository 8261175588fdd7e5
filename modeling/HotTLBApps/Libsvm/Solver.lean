import HotTLBApps.Lib.ArrayLoops
import Mathlib

/-!
# The SMO solver

`Solver` of `svm.cpp` over an ordered field: `min ½ αᵀQα + pᵀα` subject to `yᵀα = Δ`
and `0 ≤ α_t ≤ C_t`.  Every array of the object is a function on `Fin l`; `swap_index`
permutes all of them, the matrix included, so the object never sees the order of the
caller.  `-INF` and an index that was never set, `-1`, are `none`.

* `Problem`: the arguments of `Solve`, with the conditions its callers establish;
* `Solver`: the state of the object;
* `Solver.iteration`: one turn of the loop of `Solve`;
* `solve`: the whole of `Solve`.
-/

namespace HotTLBApps.Libsvm

open ArrayLoops Function

inductive Label
  | plus
  | minus
  deriving DecidableEq, Repr

/-- The values of `alpha_status`. -/
inductive AlphaStatus
  | lowerBound
  | upperBound
  | free
  deriving DecidableEq, Repr

/-- Has a name because definitions of several modules rest on it. -/
scoped instance atLeastTwo_two : Nat.AtLeastTwo 2 := inferInstance

section Defs

variable {K : Type*} [Field K] [LinearOrder K]

/-- `y` as a number. -/
def Label.val : Label → K
  | .plus => 1
  | .minus => -1

/-- The constant that replaces a curvature that is not positive. -/
def TAU : K :=
  1 / 1000000000000

end Defs

/-- The arguments of `Solve`. -/
structure Problem (K : Type*) [Field K] [LinearOrder K] (l : Nat) where
  Q : Fin l → Fin l → K
  p : Fin l → K
  y : Fin l → Label
  alpha : Fin l → K
  Cp : K
  Cn : K
  eps : K
  shrinking : Bool
  symmetric : ∀ t u, Q t u = Q u t
  Cp_pos : 0 < Cp
  Cn_pos : 0 < Cn
  eps_pos : 0 < eps
  alpha_nonneg : ∀ t, 0 ≤ alpha t
  alpha_le : ∀ t, alpha t ≤ if y t = .plus then Cp else Cn

structure Solver (K : Type*) (l : Nat) where
  activeSize : Nat
  activeSize_le : activeSize ≤ l
  y : Fin l → Label
  G : Fin l → K
  alphaStatus : Fin l → AlphaStatus
  alpha : Fin l → K
  Q : Fin l → Fin l → K
  QD : Fin l → K
  p : Fin l → K
  activeSet : Fin l → Fin l
  GBar : Fin l → K
  unshrink : Bool

namespace Solver

variable {K : Type*} [Field K] [LinearOrder K] {l : Nat}

def isUpperBound (s : Solver K l) (t : Fin l) : Prop :=
  s.alphaStatus t = .upperBound

def isLowerBound (s : Solver K l) (t : Fin l) : Prop :=
  s.alphaStatus t = .lowerBound

def isFree (s : Solver K l) (t : Fin l) : Prop :=
  s.alphaStatus t = .free

instance (s : Solver K l) : DecidablePred s.isUpperBound :=
  fun t => inferInstanceAs (Decidable (s.alphaStatus t = .upperBound))

instance (s : Solver K l) : DecidablePred s.isLowerBound :=
  fun t => inferInstanceAs (Decidable (s.alphaStatus t = .lowerBound))

instance (s : Solver K l) : DecidablePred s.isFree :=
  fun t => inferInstanceAs (Decidable (s.alphaStatus t = .free))

/-- `swap_index`: the two places change in every array and in the matrix. -/
def swapIndex (s : Solver K l) (i j : Fin l) : Solver K l :=
  { s with
    Q := fun t u => s.Q (Equiv.swap i j t) (Equiv.swap i j u)
    QD := s.QD ∘ Equiv.swap i j
    y := s.y ∘ Equiv.swap i j
    G := s.G ∘ Equiv.swap i j
    alphaStatus := s.alphaStatus ∘ Equiv.swap i j
    alpha := s.alpha ∘ Equiv.swap i j
    p := s.p ∘ Equiv.swap i j
    activeSet := s.activeSet ∘ Equiv.swap i j
    GBar := s.GBar ∘ Equiv.swap i j }

/-- The first loop: the part of the gradient that the bounded variables make. -/
def resetInactive (s : Solver K l) : Fin l → K :=
  (span l s.activeSize l).foldl (fun G j => update G j (s.GBar j + s.p j)) s.G

/-- The number of free variables of the active set. -/
def nrFree (s : Solver K l) : Nat :=
  (span l 0 s.activeSize).foldl (fun n j => if s.isFree j then n + 1 else n) 0

/-- The loop over the rows of the inactive variables. -/
def addByInactive (s : Solver K l) (G : Fin l → K) : Fin l → K :=
  (span l s.activeSize l).foldl
    (fun G i =>
      (span l 0 s.activeSize).foldl
        (fun G j => if s.isFree j then update G i (G i + s.alpha j * s.Q i j) else G)
        G)
    G

/-- The loop over the rows of the free variables. -/
def addByFree (s : Solver K l) (G : Fin l → K) : Fin l → K :=
  (span l 0 s.activeSize).foldl
    (fun G i =>
      if s.isFree i then
        (span l s.activeSize l).foldl
          (fun G j => update G j (G j + s.alpha i * s.Q i j)) G
      else G)
    G

def reconstructGradient (s : Solver K l) : Solver K l :=
  if s.activeSize = l then s
  else if s.nrFree * l > 2 * s.activeSize * (l - s.activeSize) then
    { s with G := s.addByInactive s.resetInactive }
  else
    { s with G := s.addByFree s.resetInactive }

/-- `reconstruct_gradient` followed by `active_size = l`. -/
def unshrinkAll (s : Solver K l) : Solver K l :=
  { s.reconstructGradient with activeSize := l, activeSize_le := Nat.le_refl l }

/-- What `select_working_set` reports; `none` is the index `-1`. -/
inductive Selection (l : Nat)
  | optimal
  | pair (i j : Option (Fin l))

/-- `v >= m` for a maximum that starts at `-INF`. -/
def atLeast (v : K) : Option K → Prop
  | none => True
  | some m => m ≤ v

instance (v : K) : DecidablePred (atLeast v)
  | none => inferInstanceAs (Decidable True)
  | some m => inferInstanceAs (Decidable (m ≤ v))

/-- The test for `Gmax` and `Gmax_idx`: the variable can move up along `y`. -/
def canRise (s : Solver K l) (t : Fin l) : Prop :=
  match s.y t with
  | .plus => ¬ s.isUpperBound t
  | .minus => ¬ s.isLowerBound t

/-- The test for `Gmax2` and `Gmin_idx`: the variable can move down along `y`. -/
def canFall (s : Solver K l) (t : Fin l) : Prop :=
  match s.y t with
  | .plus => ¬ s.isLowerBound t
  | .minus => ¬ s.isUpperBound t

instance (s : Solver K l) : DecidablePred s.canRise := fun t =>
  match h : s.y t with
  | .plus => decidable_of_iff (¬ s.isUpperBound t) (by simp [canRise, h])
  | .minus => decidable_of_iff (¬ s.isLowerBound t) (by simp [canRise, h])

instance (s : Solver K l) : DecidablePred s.canFall := fun t =>
  match h : s.y t with
  | .plus => decidable_of_iff (¬ s.isLowerBound t) (by simp [canFall, h])
  | .minus => decidable_of_iff (¬ s.isUpperBound t) (by simp [canFall, h])

/-- `G[t]` with the sign of `y[t]`. -/
def yG (s : Solver K l) (t : Fin l) : K :=
  match s.y t with
  | .plus => s.G t
  | .minus => -s.G t

/-- The loop that finds `Gmax` and `Gmax_idx`. -/
def findMax (s : Solver K l) : Option (K × Fin l) :=
  (span l 0 s.activeSize).foldl
    (fun m t =>
      if s.canRise t ∧ atLeast (-s.yG t) (m.map Prod.fst) then some (-s.yG t, t) else m)
    none

/-- The curvature along the pair, in the loop that finds `Gmin_idx`. -/
def quadCoef (s : Solver K l) (i j : Fin l) : K :=
  match s.y j with
  | .plus => s.QD i + s.QD j - 2 * (s.y i).val * s.Q i j
  | .minus => s.QD i + s.QD j + 2 * (s.y i).val * s.Q i j

def objDiff (gradDiff quadCoef : K) : K :=
  if quadCoef > 0 then -(gradDiff * gradDiff) / quadCoef
  else -(gradDiff * gradDiff) / TAU

/-- `obj_diff <= obj_diff_min` for a minimum that starts at `INF`. -/
def atMost (v : K) : Option K → Prop
  | none => True
  | some m => v ≤ m

instance (v : K) : DecidablePred (atMost v)
  | none => inferInstanceAs (Decidable True)
  | some m => inferInstanceAs (Decidable (v ≤ m))

/-- One turn of the loop that finds `Gmax2`, and `Gmin_idx` with `obj_diff_min`.  With
`Gmax = -INF` the difference is `-INF` and nothing is read through `Gmax_idx`. -/
def findMinStep (s : Solver K l) (max : Option (K × Fin l)) (m : Option K × Option (K × Fin l))
    (j : Fin l) : Option K × Option (K × Fin l) :=
  if s.canFall j then
    (if atLeast (s.yG j) m.1 then some (s.yG j) else m.1,
      match max with
      | none => m.2
      | some (gmax, i) =>
          if gmax + s.yG j > 0 ∧
              atMost (objDiff (gmax + s.yG j) (s.quadCoef i j)) (m.2.map Prod.fst) then
            some (objDiff (gmax + s.yG j) (s.quadCoef i j), j)
          else m.2)
  else m

/-- `Gmax+Gmax2 < eps`. -/
def gapBelow (eps : K) : Option K → Option K → Prop
  | some g₁, some g₂ => g₁ + g₂ < eps
  | _, _ => True

instance (eps : K) : (g₁ g₂ : Option K) → Decidable (gapBelow eps g₁ g₂)
  | some g₁, some g₂ => inferInstanceAs (Decidable (g₁ + g₂ < eps))
  | some _, none => inferInstanceAs (Decidable True)
  | none, _ => inferInstanceAs (Decidable True)

/-- The second loop of `select_working_set`. -/
def findMin (s : Solver K l) : Option K × Option (K × Fin l) :=
  (span l 0 s.activeSize).foldl (s.findMinStep s.findMax) (none, none)

def selectWorkingSet (P : Problem K l) (s : Solver K l) : Selection l :=
  if gapBelow P.eps (s.findMax.map Prod.fst) s.findMin.1 then .optimal
  else .pair (s.findMax.map Prod.snd) (s.findMin.2.map Prod.snd)

/-- `a > m` for a maximum that starts at `-INF`. -/
def above (a : K) : Option K → Prop
  | none => True
  | some m => m < a

instance (a : K) : DecidablePred (above a)
  | none => inferInstanceAs (Decidable True)
  | some m => inferInstanceAs (Decidable (m < a))

/-- The test of `be_shrunk` on the values at one place. -/
def shrinkTest (g : K) (gmax₁ gmax₂ : Option K) : AlphaStatus → Label → Prop
  | .upperBound, .plus => above (-g) gmax₁
  | .upperBound, .minus => above (-g) gmax₂
  | .lowerBound, .plus => above g gmax₂
  | .lowerBound, .minus => above g gmax₁
  | .free, _ => False

instance (g : K) (gmax₁ gmax₂ : Option K) :
    (status : AlphaStatus) → (y : Label) → Decidable (shrinkTest g gmax₁ gmax₂ status y)
  | .upperBound, .plus => inferInstanceAs (Decidable (above (-g) gmax₁))
  | .upperBound, .minus => inferInstanceAs (Decidable (above (-g) gmax₂))
  | .lowerBound, .plus => inferInstanceAs (Decidable (above g gmax₂))
  | .lowerBound, .minus => inferInstanceAs (Decidable (above g gmax₁))
  | .free, .plus => inferInstanceAs (Decidable False)
  | .free, .minus => inferInstanceAs (Decidable False)

def beShrunk (s : Solver K l) (gmax₁ gmax₂ : Option K) (i : Fin l) : Prop :=
  shrinkTest (s.G i) gmax₁ gmax₂ (s.alphaStatus i) (s.y i)

instance (s : Solver K l) (gmax₁ gmax₂ : Option K) : DecidablePred (s.beShrunk gmax₁ gmax₂) :=
  fun i => inferInstanceAs (Decidable (shrinkTest (s.G i) gmax₁ gmax₂ (s.alphaStatus i) (s.y i)))

/-- The loop of `do_shrinking` that finds the maximal violating pair. -/
def maxViolations (s : Solver K l) : Option K × Option K :=
  (span l 0 s.activeSize).foldl
    (fun m i =>
      (if s.canRise i ∧ atLeast (-s.yG i) m.1 then some (-s.yG i) else m.1,
        if s.canFall i ∧ atLeast (s.yG i) m.2 then some (s.yG i) else m.2))
    (none, none)

/-- `Gmax1 + Gmax2 <= bound`. -/
def sumAtMost (bound : K) : Option K → Option K → Prop
  | some g₁, some g₂ => g₁ + g₂ ≤ bound
  | _, _ => True

instance (bound : K) : (g₁ g₂ : Option K) → Decidable (sumAtMost bound g₁ g₂)
  | some g₁, some g₂ => inferInstanceAs (Decidable (g₁ + g₂ ≤ bound))
  | some _, none => inferInstanceAs (Decidable True)
  | none, _ => inferInstanceAs (Decidable True)

/-- The inner loop of `do_shrinking`: `n` is `active_size`, which comes down to the last
variable that stays, or to `i`. -/
def backOff (s : Solver K l) (gmax₁ gmax₂ : Option K) (i : Fin l) : (n : Nat) → n < l → Solver K l
  | 0, _ => { s with activeSize := 0, activeSize_le := Nat.zero_le l }
  | n + 1, h =>
      if i.val < n + 1 then
        if s.beShrunk gmax₁ gmax₂ ⟨n + 1, h⟩ then
          backOff s gmax₁ gmax₂ i n (Nat.lt_of_succ_lt h)
        else
          swapIndex { s with activeSize := n + 1, activeSize_le := Nat.le_of_lt h } i ⟨n + 1, h⟩
      else
        { s with activeSize := n + 1, activeSize_le := Nat.le_of_lt h }

/-- One turn of the outer loop of `do_shrinking`. -/
def shrinkAt (gmax₁ gmax₂ : Option K) (s : Solver K l) (i : Fin l) : Solver K l :=
  if h : i.val < s.activeSize ∧ s.beShrunk gmax₁ gmax₂ i then
    s.backOff gmax₁ gmax₂ i (s.activeSize - 1)
      (Nat.lt_of_lt_of_le (Nat.sub_one_lt (Nat.ne_zero_of_lt h.1)) s.activeSize_le)
  else s

/-- The step of `do_shrinking` that takes every variable back once. -/
def unshrinkOnce (P : Problem K l) (gmax₁ gmax₂ : Option K) (s : Solver K l) : Solver K l :=
  if s.unshrink = false ∧ sumAtMost (P.eps * 10) gmax₁ gmax₂ then
    unshrinkAll { s with unshrink := true }
  else s

/-- `do_shrinking`.  The loop runs while `i < active_size`; as `active_size` never grows
there, the turns after its end do nothing. -/
def doShrinking (P : Problem K l) (s : Solver K l) : Solver K l :=
  (List.finRange l).foldl (shrinkAt s.maxViolations.1 s.maxViolations.2)
    (s.unshrinkOnce P s.maxViolations.1 s.maxViolations.2)

def getC (P : Problem K l) (s : Solver K l) (i : Fin l) : K :=
  if s.y i = .plus then P.Cp else P.Cn

/-- The status that `update_alpha_status` gives. -/
def statusOf (alpha c : K) : AlphaStatus :=
  if alpha ≥ c then .upperBound
  else if alpha ≤ 0 then .lowerBound
  else .free

def updateAlphaStatus (P : Problem K l) (s : Solver K l) (i : Fin l) : Solver K l :=
  { s with alphaStatus := update s.alphaStatus i (statusOf (s.alpha i) (s.getC P i)) }

/-- The curvature that is divided by. -/
def positiveCoef (quadCoef : K) : K :=
  if quadCoef ≤ 0 then TAU else quadCoef

/-- The two new values for variables of different labels, moved by `delta` and clipped. -/
def clipDifferent (ai aj delta ci cj : K) : K × K :=
  let diff := ai - aj
  let a := (ai + delta, aj + delta)
  let b :=
    if diff > 0 then
      if a.2 < 0 then (diff, 0) else a
    else
      if a.1 < 0 then (0, -diff) else a
  if diff > ci - cj then
    if b.1 > ci then (ci, ci - diff) else b
  else
    if b.2 > cj then (cj + diff, cj) else b

/-- The two new values for variables of one label, moved by `delta` and clipped. -/
def clipSame (ai aj delta ci cj : K) : K × K :=
  let sum := ai + aj
  let a := (ai - delta, aj + delta)
  let b :=
    if sum > ci then
      if a.1 > ci then (ci, sum - ci) else a
    else
      if a.2 < 0 then (sum, 0) else a
  if sum > cj then
    if b.2 > cj then (sum - cj, cj) else b
  else
    if b.1 < 0 then (0, sum) else b

/-- The new values of `alpha[i]` and `alpha[j]`. -/
def newAlphas (P : Problem K l) (s : Solver K l) (i j : Fin l) : K × K :=
  if s.y i ≠ s.y j then
    clipDifferent (s.alpha i) (s.alpha j)
      ((-s.G i - s.G j) / positiveCoef (s.QD i + s.QD j + 2 * s.Q i j))
      (s.getC P i) (s.getC P j)
  else
    clipSame (s.alpha i) (s.alpha j)
      ((s.G i - s.G j) / positiveCoef (s.QD i + s.QD j - 2 * s.Q i j))
      (s.getC P i) (s.getC P j)

/-- The loop that updates `G` on the active set. -/
def updateG (s : Solver K l) (i j : Fin l) (deltaI deltaJ : K) : Fin l → K :=
  (span l 0 s.activeSize).foldl
    (fun G k => update G k (G k + (s.Q i k * deltaI + s.Q j k * deltaJ))) s.G

/-- The loops that update `G_bar` when a variable enters or leaves its upper bound. -/
def updateGBar
    (wasUpper isUpper : Prop) [Decidable wasUpper] [Decidable isUpper] (c : K) (row : Fin l → K)
    (GBar : Fin l → K) : Fin l → K :=
  if wasUpper ↔ isUpper then GBar
  else if wasUpper then
    (span l 0 l).foldl (fun G k => update G k (G k - c * row k)) GBar
  else
    (span l 0 l).foldl (fun G k => update G k (G k + c * row k)) GBar

/-- `alpha[i]`, `alpha[j]` and `G` after the step on the pair. -/
def moveAlphas (P : Problem K l) (s : Solver K l) (i j : Fin l) : Solver K l :=
  { s with
    alpha := update (update s.alpha i (s.newAlphas P i j).1)
      j (s.newAlphas P i j).2
    G := s.updateG i j ((s.newAlphas P i j).1 - s.alpha i) ((s.newAlphas P i j).2 - s.alpha j) }

/-- The two calls of `update_alpha_status`. -/
def refreshStatus (P : Problem K l) (s : Solver K l) (i j : Fin l) : Solver K l :=
  (s.updateAlphaStatus P i).updateAlphaStatus P j

/-- The body of the loop of `Solve` after a pair is selected. -/
def updatePair (P : Problem K l) (s : Solver K l) (i j : Fin l) : Solver K l :=
  { (s.moveAlphas P i j).refreshStatus P i j with
    GBar :=
      updateGBar (s.isUpperBound j) (((s.moveAlphas P i j).refreshStatus P i j).isUpperBound j)
        (s.getC P j) (s.Q j)
        (updateGBar (s.isUpperBound i)
          (((s.moveAlphas P i j).refreshStatus P i j).isUpperBound i)
          (s.getC P i) (s.Q i) s.GBar) }

/-- What one turn of the loop of `Solve` ends with: another turn, the `break`, or an access
at the index `-1`. -/
inductive Iteration (K : Type*) (l : Nat)
  | next (s : Solver K l) (counter : Int)
  | leave (s : Solver K l)
  | fault

/-- A turn that works on the pair that was selected. -/
def work (P : Problem K l) (s : Solver K l)
    (counter : Int) : Option (Fin l) → Option (Fin l) → Iteration K l
  | some i, some j => .next (s.updatePair P i j) counter
  | _, _ => .fault

/-- `do_shrinking` when `counter` says so. -/
def shrinkIfDue (P : Problem K l) (s : Solver K l) (counter : Int) : Solver K l :=
  if counter - 1 = 0 ∧ P.shrinking then s.doShrinking P else s

/-- `counter` after `--counter` and its reset. -/
def nextCounter (l : Nat) (counter : Int) : Int :=
  if counter - 1 = 0 then min (l : Int) 1000 else counter - 1

/-- One turn of the loop of `Solve`. -/
def iteration (P : Problem K l) (s : Solver K l) (counter : Int) : Iteration K l :=
  match (s.shrinkIfDue P counter).selectWorkingSet P with
  | .pair i j => (s.shrinkIfDue P counter).work P (nextCounter l counter) i j
  | .optimal =>
      match (s.shrinkIfDue P counter).unshrinkAll.selectWorkingSet P with
      | .optimal => .leave (s.shrinkIfDue P counter).unshrinkAll
      | .pair i j => (s.shrinkIfDue P counter).unshrinkAll.work P 1 i j

/-- The loop that adds the rows of the variables that are not zero to `G` and those at the
upper bound to `G_bar`. -/
def initialGradients (P : Problem K l) (status : Fin l → AlphaStatus) : (Fin l → K) × (Fin l → K) :=
  (span l 0 l).foldl
    (fun (G : (Fin l → K) × (Fin l → K)) i =>
      if status i ≠ .lowerBound then
        ((span l 0 l).foldl
          (fun G j => update G j (G j + P.alpha i * P.Q i j)) G.1,
          if status i = .upperBound then
            (span l 0 l).foldl
              (fun G j => update G j
                (G j + (if P.y i = .plus then P.Cp else P.Cn) * P.Q i j)) G.2
          else G.2)
      else G)
    (P.p, fun _ => 0)

/-- The object when the loop of `Solve` starts. -/
def initial (P : Problem K l) : Solver K l :=
  let status := fun t => statusOf (P.alpha t) (if P.y t = .plus then P.Cp else P.Cn)
  { activeSize := l
    activeSize_le := Nat.le_refl l
    y := P.y
    G := (initialGradients P status).1
    alphaStatus := status
    alpha := P.alpha
    Q := P.Q
    QD := fun t => P.Q t t
    p := P.p
    activeSet := id
    GBar := (initialGradients P status).2
    unshrink := false }

/-- How the loop of `Solve` ended. -/
inductive Exit
  | converged
  | maxIter
  deriving DecidableEq, Repr

/-- The loop of `Solve` with the number of turns that are left; `none` is an access out of
bounds. -/
def solveLoop (P : Problem K l) : Nat → Solver K l → Int → Option (Solver K l × Exit)
  | 0, s, _ => some (s, .maxIter)
  | n + 1, s, counter =>
      match s.iteration P counter with
      | .next s' counter' => solveLoop P n s' counter'
      | .leave s' => some (s', .converged)
      | .fault => none

def maxIter (l : Nat) : Nat :=
  max 10000000 (if l > 2147483647 / 100 then 2147483647 else 100 * l)

/-- The gradient of every variable before the objective is computed. -/
def finish (s : Solver K l) : Exit → Solver K l
  | .converged => s
  | .maxIter => if s.activeSize < l then s.unshrinkAll else s

/-- One turn of the loop of `calculate_rho` on `ub`, `lb`, `nr_free` and `sum_free`; `none`
is `INF` for the first and `-INF` for the second. -/
def rhoStep (s : Solver K l) (r : Option K × Option K × Nat × K)
    (i : Fin l) : Option K × Option K × Nat × K :=
  match s.alphaStatus i, s.y i with
  | .upperBound, .minus | .lowerBound, .plus =>
      (some ((r.1.map (min · (s.yG i))).getD (s.yG i)), r.2)
  | .upperBound, .plus | .lowerBound, .minus =>
      (r.1, some ((r.2.1.map (max · (s.yG i))).getD (s.yG i)), r.2.2)
  | .free, _ => (r.1, r.2.1, r.2.2.1 + 1, r.2.2.2 + s.yG i)

/-- `calculate_rho`; `none` is a value that is not finite. -/
def calculateRho (s : Solver K l) : Option K :=
  match (span l 0 s.activeSize).foldl s.rhoStep (none, none, 0, 0) with
  | (ub, lb, 0, _) => ub.bind fun u => lb.map fun v => (u + v) / 2
  | (_, _, n + 1, sumFree) => some (sumFree / (n + 1 : Nat))

/-- The objective value that is reported. -/
def objective (s : Solver K l) : K :=
  (span l 0 l).foldl (fun v i => v + s.alpha i * (s.G i + s.p i)) 0 / 2

/-- The solution in the order of the caller. -/
def putBack (P : Problem K l) (s : Solver K l) : Fin l → K :=
  (span l 0 l).foldl (fun a i => update a (s.activeSet i) (s.alpha i)) P.alpha

end Solver

/-- What `Solve` hands back. -/
structure Solution (K : Type*) (l : Nat) where
  alpha : Fin l → K
  obj : K
  rho : Option K
  upperBoundP : K
  upperBoundN : K
  exit : Solver.Exit

def solve
    {K : Type*} [Field K] [LinearOrder K] {l : Nat} (P : Problem K l) : Option (Solution K l) :=
  (Solver.solveLoop P (Solver.maxIter l) (Solver.initial P) (min (l : Int) 1000 + 1)).map
    fun r =>
      { alpha := (r.1.finish r.2).putBack P
        obj := (r.1.finish r.2).objective
        rho := (r.1.finish r.2).calculateRho
        upperBoundP := P.Cp
        upperBoundN := P.Cn
        exit := r.2 }

end HotTLBApps.Libsvm
