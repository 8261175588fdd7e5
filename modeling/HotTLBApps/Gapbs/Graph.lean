import Mathlib

/-!
# GAPBS: graphs (`src/graph.h`)

A graph as the kernels see it: for every vertex the list of its outgoing and of its
incoming neighbours.  How these lists lie in one array is modelled where graphs are
built.

The vertices of a graph with `n` vertices are the numbers below `n`.
-/

namespace HotTLBApps.Gapbs

-- These have names because definitions of several modules rest on them.
scoped instance wellFoundedLT_fin (n : Nat) : WellFoundedLT (Fin n) := inferInstance
scoped instance neZero_four : NeZero 4 := inferInstance

/-- `CSRGraph`; `Dest` is the type of the neighbours. -/
@[ext]
structure CSRGraph (n : Nat) (Dest : Type) where
  directed : Bool
  outNeigh : Fin n → List Dest
  inNeigh : Fin n → List Dest
  /-- The constructor for undirected graphs uses one structure for both. -/
  inNeigh_eq : directed = false → inNeigh = outNeigh

abbrev Graph (n : Nat) := CSRGraph n (Fin n)

namespace CSRGraph

variable {n : Nat} {Dest : Type}

def outDegree (g : CSRGraph n Dest) (u : Fin n) : Nat :=
  (g.outNeigh u).length

def numEdges (g : CSRGraph n Dest) : Nat :=
  if g.directed then
    ((List.finRange n).map g.outDegree).sum
  else
    ((List.finRange n).map g.outDegree).sum / 2

def numEdgesDirected (g : CSRGraph n Dest) : Nat :=
  if g.directed then g.numEdges else 2 * g.numEdges

end CSRGraph

/-- The incoming neighbours are the inverse of the outgoing ones. -/
def Graph.Inverse {n : Nat} (g : Graph n) : Prop :=
  ∀ u v, v ∈ g.inNeigh u ↔ u ∈ g.outNeigh v

end HotTLBApps.Gapbs
