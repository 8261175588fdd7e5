import HotTLBApps.Libsvm.GroupClasses

/-!
# LIBSVM: packing and using a classification model (`svm_train`, `svm_predict_values`)

For each pair of classes a subproblem is solved.  The model keeps the examples that have a
nonzero coefficient in one of their pairs, class by class, and their coefficients in
`nr_class - 1` rows: those of pair `(i, j)` for class `i` are in row `j - 1`, and those for class
`j` in row `i`.

The solver is a parameter that returns as many coefficients as there are examples, and the
kernel is any function.  The numbers are those of any ordered ring.  Probability estimates and
`sv_indices` are left out.
-/

namespace HotTLBApps.Libsvm

open Slices List

/-- The pairs of classes, in the order of the loops. -/
def pairs (n : Nat) : List (Nat × Nat) :=
  (range n).flatMap fun i => (range' (i + 1) (n - (i + 1))).map fun j => (i, j)

variable {X R : Type}

/-- `svm_problem`; the labels are those after the conversion to `int`. -/
structure SvmProblem (X : Type) where
  x : List X
  y : List Int
  length_eq : x.length = y.length

structure DecisionFunction (R : Type) where
  alpha : List R
  rho : R

/-- `svm_train_one` for the classes `i` and `j`: one coefficient for each example of the
subproblem, whatever they are. -/
def TrainOne (X R : Type) : Type :=
  (i j : Nat) → (sub : List (X × Int)) →
    { f : DecisionFunction R // f.alpha.length = sub.length }

structure SvmModel (X R : Type) where
  nrClass : Nat
  label : List Int
  rho : List R
  nSV : List Nat
  SV : List (Option X)
  svCoef : List (List (Option R))

variable [Ring R] [LinearOrder R]

def subProblem (x : List X) (classes : Classes) (i j : Nat) : Option (List (X × Int)) := do
  let si ← classes.start[i]?
  let sj ← classes.start[j]?
  let ci ← classes.count[i]?
  let cj ← classes.count[j]?
  let positive ← (range ci).mapM fun k => x[si + k]?
  let negative ← (range cj).mapM fun k => x[sj + k]?
  some (positive.map (·, 1) ++ negative.map (·, -1))

/-- The loop that marks the examples of a class with a nonzero coefficient. -/
def markNonzero (alpha : List R) (s first count : Nat) (nonzero : List Bool) : Option (List Bool) :=
  (range count).foldlM (fun nonzero k => do
    let marked ← nonzero[s + k]?
    let a ← alpha[first + k]?
    if !marked && 0 < |a| then write? nonzero (s + k) true else some nonzero) nonzero

def trainPair (trainOne : TrainOne X R) (x : List X) (classes : Classes)
    (state : List Bool × List (DecisionFunction R))
    (pair : Nat × Nat) : Option (List Bool × List (DecisionFunction R)) := do
  let sub ← subProblem x classes pair.1 pair.2
  let si ← classes.start[pair.1]?
  let sj ← classes.start[pair.2]?
  let ci ← classes.count[pair.1]?
  let cj ← classes.count[pair.2]?
  -- the array of decision functions has a place for each pair
  if state.2.length < classes.label.length * (classes.label.length - 1) / 2 then
    let nonzero ← markNonzero (trainOne pair.1 pair.2 sub).1.alpha si 0 ci state.1
    let nonzero ← markNonzero (trainOne pair.1 pair.2 sub).1.alpha sj ci cj nonzero
    some (nonzero, state.2 ++ [(trainOne pair.1 pair.2 sub).1])
  else
    none

def countSV (nonzero : List Bool) (s count : Nat) : Option Nat :=
  (range count).foldlM (fun nSV k => do
    let marked ← nonzero[s + k]?
    if marked then some (nSV + 1) else some nSV) 0

/-- A value is stored at the next place if it is marked. -/
def storeMarked {α : Type} (state : Nat × List (Option α)) (marked : Option Bool)
    (value : Option α) : Option (Nat × List (Option α)) := do
  if ← marked then
    let a ← value
    let buffer ← write? state.2 state.1 (some a)
    some (state.1 + 1, buffer)
  else
    some state

def collectSV (nonzero : List Bool) (x : List X) (total : Nat) : Option (List (Option X)) := do
  let filled ← (range x.length).foldlM
    (fun state i => storeMarked state nonzero[i]? x[i]?) (0, malloc total)
  some filled.2

/-- The loop that stores the coefficients of the kept examples of a class, from `q` on. -/
def storeCoef (nonzero : List Bool) (alpha : List R) (s first count q : Nat)
    (row : List (Option R)) : Option (List (Option R)) := do
  let filled ← (range count).foldlM
    (fun state k => storeMarked state nonzero[s + k]? alpha[first + k]?) (q, row)
  some filled.2

def storePair
    (classes : Classes) (nonzero : List Bool) (f : List (DecisionFunction R)) (nzStart : List Nat)
    (svCoef : List (List (Option R)))
    (entry : (Nat × Nat) × Nat) : Option (List (List (Option R))) := do
  let si ← classes.start[entry.1.1]?
  let sj ← classes.start[entry.1.2]?
  let ci ← classes.count[entry.1.1]?
  let cj ← classes.count[entry.1.2]?
  let decision ← f[entry.2]?
  let qi ← nzStart[entry.1.1]?
  let row ← svCoef[entry.1.2 - 1]?
  let row ← storeCoef nonzero decision.alpha si 0 ci qi row
  let svCoef ← write? svCoef (entry.1.2 - 1) row
  let qj ← nzStart[entry.1.2]?
  let row ← svCoef[entry.1.1]?
  let row ← storeCoef nonzero decision.alpha sj ci cj qj row
  write? svCoef entry.1.1 row

def permuted (prob : SvmProblem X) (perm : List (Option Nat)) : Option (List X) :=
  (range prob.x.length).mapM fun i => (load perm i).bind fun k => prob.x[k]?

/-- `svm_train`, for classification. -/
def svmTrain (trainOne : TrainOne X R) (prob : SvmProblem X) : Option (SvmModel X R) := do
  let classes ← svmGroupClasses prob.y
  let n := classes.label.length
  let x ← permuted prob classes.perm
  let trained ← (pairs n).foldlM (trainPair trainOne x classes)
    (replicate x.length false, [])
  let rho ← (range (n * (n - 1) / 2)).mapM fun p => trained.2[p]?.map DecisionFunction.rho
  let nSV ← (range n).mapM fun i =>
    classes.start[i]?.bind fun s => classes.count[i]?.bind fun c => countSV trained.1 s c
  let SV ← collectSV trained.1 x nSV.sum
  let nzStart ← startsOf nSV
  let svCoef ← (pairs n).zipIdx.foldlM (storePair classes trained.1 trained.2 nzStart)
    (replicate (n - 1) (malloc nSV.sum))
  some
    { nrClass := n
      label := classes.label
      rho := rho
      nSV := nSV
      SV := SV
      svCoef := svCoef }

def addTerms (coef : List (Option R)) (kvalue : List R) (s count : Nat) (sum : R) : Option R :=
  (range count).foldlM (fun sum k => do
    let a ← load coef (s + k)
    let v ← kvalue[s + k]?
    some (sum + a * v)) sum

def addVote (vote : List Nat) (i : Nat) : Option (List Nat) :=
  vote[i]?.bind fun v => write? vote i (v + 1)

/-- The decision value of a pair, and its vote. -/
def predictPair
    (model : SvmModel X R) (kvalue : List R) (start : List Nat) (state : List R × List Nat)
    (entry : (Nat × Nat) × Nat) : Option (List R × List Nat) := do
  let si ← start[entry.1.1]?
  let sj ← start[entry.1.2]?
  let ci ← model.nSV[entry.1.1]?
  let cj ← model.nSV[entry.1.2]?
  let coef1 ← model.svCoef[entry.1.2 - 1]?
  let coef2 ← model.svCoef[entry.1.1]?
  let sum ← addTerms coef1 kvalue si ci 0
  let sum ← addTerms coef2 kvalue sj cj sum
  let rho ← model.rho[entry.2]?
  let vote ← addVote state.2 (if 0 < sum - rho then entry.1.1 else entry.1.2)
  some (state.1 ++ [sum - rho], vote)

/-- `svm_predict_values`, for classification: the decision values, and the label with the most
votes. -/
def svmPredictValues
    (kernel : X → X → R) (model : SvmModel X R) (z : X) : Option (List R × Int) := do
  let kvalue ← (range model.SV.length).mapM fun i => (load model.SV i).map (kernel z)
  let start ← startsOf model.nSV
  let decided ← (pairs model.nrClass).zipIdx.foldlM (predictPair model kvalue start)
    ([], replicate model.nrClass 0)
  let voteMaxIdx ← (range' 1 (model.nrClass - 1)).foldlM (fun best i => do
    let v ← decided.2[i]?
    let b ← decided.2[best]?
    if b < v then some i else some best) 0
  let label ← model.label[voteMaxIdx]?
  some (decided.1, label)

end HotTLBApps.Libsvm
