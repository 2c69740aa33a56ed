import Mathlib.Algebra.BigOperators.Group.List.Basic
import Mathlib.Algebra.GroupWithZero.Nat
import Mathlib.Data.Finset.Card
import Mathlib.Data.Nat.Bits
import Mathlib.Logic.Function.Basic

/-!
# Graph/Components — `StronglyConnectedComponentsFinder`

A graph on `0, …, numNodes - 1`, with the edges of each node in the order its iterator gives them.
The finder is the iterative depth-first search of the source: its three labels are the control
states, and an iterator on the `vf` stack is a node with the edges not yet passed, the current one
first.  One array holds all marks: `0` for a node not seen; for a node on a stack the least index it
is known to reach, odd as soon as that is not its own; and, from `2 * numNodes + 1` up, the
component.

The two stacks grow towards each other in one buffer in the source.  They are two lists here, and
the sentry below the `vb` stack is its end.
-/

namespace Dsom

namespace Scc

/-- `StronglyConnectedComponentsFinder`. -/
structure Finder where
  rindexComposite : ℕ → ℕ
  index : ℕ
  componentIndex : ℕ
  vf : List (ℕ × List ℕ)
  vb : List ℕ

/-- The labels of `FindSccFromNode`. -/
inductive Label where
  | visitNewNode (nodeOrd : ℕ)
  | continueIterateEdges
  | finishedVisitingEdges
  deriving DecidableEq

namespace Finder

/-- `IsRoot`. -/
def isRoot (s : Finder) (nodeOrd : ℕ) : Bool := s.rindexComposite nodeOrd % 2 = 0

/-- Where the search goes with the remaining edges of the node on top. -/
def nextLabel (s : Finder) : List ℕ → Label
  | [] => .finishedVisitingEdges
  | neighborOrd :: _ =>
      if s.rindexComposite neighborOrd = 0 then .visitNewNode neighborOrd
      else .continueIterateEdges

/-- `PushVfTop` of a new node. -/
def enter (edges : ℕ → List ℕ) (s : Finder) (nodeOrd : ℕ) : Finder where
  rindexComposite := Function.update s.rindexComposite nodeOrd s.index
  index := s.index + 2
  componentIndex := s.componentIndex
  vf := (nodeOrd, edges nodeOrd) :: s.vf
  vb := s.vb

/-- The current edge leads to `neighborOrd`: lower the mark of the node on top, and advance. -/
def examine (s : Finder) (nodeOrd neighborOrd : ℕ) (rest : List ℕ) (vf : List (ℕ × List ℕ)) :
    Finder where
  rindexComposite :=
    if s.rindexComposite neighborOrd ||| 1 < s.rindexComposite nodeOrd then
      Function.update s.rindexComposite nodeOrd (s.rindexComposite neighborOrd ||| 1)
    else s.rindexComposite
  index := s.index
  componentIndex := s.componentIndex
  vf := (nodeOrd, rest) :: vf
  vb := s.vb

end Finder

/-- The loop over the `vb` stack that gives the component `c` to the nodes above a root. -/
def popComponent (rootIndex c : ℕ) : List ℕ → (ℕ → ℕ) → List ℕ × (ℕ → ℕ)
  | [], rindex => ([], rindex)
  | w :: vb, rindex =>
      if rindex w ≤ rootIndex then (w :: vb, rindex)
      else popComponent rootIndex c vb (Function.update rindex w c)

namespace Finder

/-- The node on top is finished: `vf` is what is below it. -/
def leave (s : Finder) (nodeOrd : ℕ) (vf : List (ℕ × List ℕ)) : Finder :=
  if s.isRoot nodeOrd then
    let r := popComponent (s.rindexComposite nodeOrd) s.componentIndex s.vb s.rindexComposite
    { s with
      rindexComposite := Function.update r.2 nodeOrd s.componentIndex
      componentIndex := s.componentIndex - 2
      vf := vf
      vb := r.1 }
  else { s with vf := vf, vb := nodeOrd :: s.vb }

/-- One stretch of `FindSccFromNode` from a label to the next; `none` is the return. -/
def step (edges : ℕ → List ℕ) (s : Finder) : Label → Option Label × Finder
  | .visitNewNode nodeOrd =>
      let s := s.enter edges nodeOrd
      (some (s.nextLabel (edges nodeOrd)), s)
  | .continueIterateEdges =>
      match s.vf with
      | (nodeOrd, neighborOrd :: rest) :: vf =>
          let s := s.examine nodeOrd neighborOrd rest vf
          (some (s.nextLabel rest), s)
      | _ => (none, s)
  | .finishedVisitingEdges =>
      match s.vf with
      | (nodeOrd, _) :: vf => (if vf = [] then none else some .continueIterateEdges,
          s.leave nodeOrd vf)
      | [] => (none, s)

/-- The search from a label on. -/
def run (edges : ℕ → List ℕ) : ℕ → Label → Finder → Option Finder
  | 0, _, _ => none
  | fuel + 1, label, s =>
      match s.step edges label with
      | (none, s) => some s
      | (some label, s) => run edges fuel label s

end Finder

section Run

variable (numNodes : ℕ) (edges : ℕ → List ℕ)

/-- Every stretch enters a node, passes an edge or leaves a node. -/
def searchFuel : ℕ := ((List.range numNodes).map fun v => (edges v).length + 2).sum + 1

/-- `FindSccFromNode`. -/
def findSccFromNode (s : Finder) (nodeOrd : ℕ) : Option Finder :=
  s.run edges (searchFuel numNodes edges) (.visitNewNode nodeOrd)

/-- The finder before the search. -/
def initialFinder : Finder where
  rindexComposite := fun _ => 0
  index := 2
  componentIndex := 4 * numNodes - 1
  vf := []
  vb := []

/-- The loop of `RunImpl` over the entry nodes. -/
def searchAll : List ℕ → Finder → Option Finder
  | [], s => some s
  | entryNode :: rest, s =>
      if s.rindexComposite entryNode = 0 then
        (findSccFromNode numNodes edges s entryNode).bind (searchAll rest)
      else searchAll rest s

/-- `FinishComputation`: the number of components and the component of each node. -/
def finishComputation (s : Finder) : ℕ × (ℕ → ℕ) :=
  ((4 * numNodes - s.componentIndex) / 2,
    fun nodeOrd => (4 * numNodes - s.rindexComposite nodeOrd) / 2)

/-- `ComputeForGenericGraph`. -/
def computeForGenericGraph : Option (ℕ × (ℕ → ℕ)) :=
  (searchAll numNodes edges (List.range numNodes) (initialFinder numNodes)).map
    (finishComputation numNodes)

end Run

end Scc

end Dsom
