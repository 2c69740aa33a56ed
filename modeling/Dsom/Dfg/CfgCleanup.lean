import Dsom.Foundations.Traces
import Mathlib.Data.List.Basic
import Mathlib.Logic.Function.Basic
import Mathlib.Logic.Relation
import Mathlib.Tactic.Common

/-!
# Dfg/CfgCleanup — the cleanup of the control flow graph

Blocks that hold nothing but a `Nop` are bypassed, unreachable blocks are removed, and a block that
is the only successor of its only predecessor is merged into it.

The fields of `BasicBlock` and of `Node` are functions of the block and of the node.  The loops that
may not end have fuel: `none` is a run that has not ended yet.
-/

namespace Dsom

namespace CfgCleanup

/-- What the pass reads and writes of a node. -/
structure Node where
  isNoop : Bool
  numInputs : ℕ
  isPrependVariadicRes : Bool
  isNodeGeneratesVR : Bool
  isNodeAccessesVR : Bool
  variadicResultInputNode : Option ℕ
  deriving DecidableEq

namespace Node

variable (node : Node)

/-- A `Nop` without inputs. -/
def isEmptyNop : Bool := node.isNoop && node.numInputs == 0

/-- The node takes over the variadic result of the block before. -/
def inheritsVarRes : Bool := node.isPrependVariadicRes && node.variadicResultInputNode.isNone

end Node

/-- The control flow graph, with the scratch fields of the pass. -/
structure Graph where
  /-- `m_blocks`; the first is the entry. -/
  blocks : List ℕ
  node : ℕ → Node
  nodes : ℕ → List ℕ
  terminator : ℕ → Option ℕ
  successors : ℕ → List ℕ
  predOrdForSuccessors : ℕ → ℕ → ℕ
  predecessors : ℕ → List ℕ
  isReachable : ℕ → Bool
  /-- `m_replacement`; null marks a block that was merged away. -/
  replacement : ℕ → Option ℕ

namespace Graph

variable (g : Graph)

/-- `GetEntryBB`. -/
def getEntryBB : ℕ := g.blocks.headD 0

/-- `m_replacement` of a block changes. -/
def setReplacement (bb : ℕ) (r : Option ℕ) : Graph :=
  { g with replacement := Function.update g.replacement bb r }

/-- `m_successors[succIdx] = succ`. -/
def setSuccessor (bb succIdx succ : ℕ) : Graph :=
  { g with successors := Function.update g.successors bb ((g.successors bb).set succIdx succ) }

/-! ## Bypassing empty blocks

A block is empty if it does nothing and goes on to one successor. -/

/-- `GetReplacement`: the block at the end of the replacements, with path compression. -/
def getReplacement : ℕ → Graph → ℕ → Option (ℕ × Graph)
  | 0, _, _ => none
  | fuel + 1, g, bb =>
    match g.replacement bb with
    | none => none
    | some r =>
      if r = bb then some (bb, g)
      else
        match getReplacement fuel g r with
        | none => none
        | some (result, g) => some (result, g.setReplacement bb (some result))

/-- `IsTriviallyEmptyBlock`: a lone `Nop` without inputs. -/
def isTriviallyEmptyBlock (bb : ℕ) : Bool :=
  match g.nodes bb with
  | [n] => (g.node n).isEmptyNop
  | _ => false

/-- A trivially empty block is replaced by its successor, unless that is the block itself; the flag
says that there is such a block. -/
def markEmptyBlock (s : Graph × Bool) (bb : ℕ) : Graph × Bool :=
  if s.1.isTriviallyEmptyBlock bb then
    match s.1.successors bb with
    | succ :: _ => if succ ≠ bb then (s.1.setReplacement bb (some succ), true) else s
    | [] => s
  else s

/-- The loop that skips the entry. -/
def markEmptyBlocks : Graph × Bool := g.blocks.tail.foldl markEmptyBlock (g, false)

/-- A successor of a block gives way to its replacement. -/
def redirectSuccessor (fuel bb : ℕ) (g : Graph) (succIdx : ℕ) : Option Graph :=
  match (g.successors bb)[succIdx]? with
  | none => some g
  | some succBlock =>
    match getReplacement fuel g succBlock with
    | none => none
    | some (r, g) => if r ≠ succBlock then some (g.setSuccessor bb succIdx r) else some g

/-- The successors of a block that stays. -/
def redirectSuccessors (fuel : ℕ) (g : Graph) (bb : ℕ) : Option Graph :=
  if g.replacement bb ≠ some bb then some g
  else (List.range (g.successors bb).length).foldlM (redirectSuccessor fuel bb) g

/-- The first half of the pass; no block is redirected if none is empty. -/
def bypassEmptyBlocks (fuel : ℕ) : Option Graph :=
  let g := g.blocks.foldl (fun g bb => g.setReplacement bb (some bb)) g
  let (g, hasEmptyBlocks) := g.markEmptyBlocks
  if hasEmptyBlocks then g.blocks.foldlM (redirectSuccessors fuel) g else some g

/-! ## Reachability -/

/-- A successor is marked and put on the worklist, if it is not marked. -/
def markReachable (s : Graph × List ℕ) (succ : ℕ) : Graph × List ℕ :=
  if s.1.isReachable succ then s
  else ({ s.1 with isReachable := Function.update s.1.isReachable succ true }, succ :: s.2)

/-- The loop over the worklist; the head of the list is its back. -/
def reachLoop : ℕ → Graph → List ℕ → Option Graph
  | _, g, [] => some g
  | 0, _, _ :: _ => none
  | fuel + 1, g, bb :: worklist =>
    let (g, worklist) := (g.successors bb).foldl markReachable (g, worklist)
    reachLoop fuel g worklist

/-- The edge to a successor is entered in the list of its predecessors, once for two edges. -/
def addPredecessor (bb : ℕ) (g : Graph) (i succ : ℕ) : Graph :=
  if i = 1 ∧ (g.successors bb)[0]? = some succ then
    { g with
      predOrdForSuccessors := Function.update g.predOrdForSuccessors bb
        (Function.update (g.predOrdForSuccessors bb) i (g.predOrdForSuccessors bb 0)) }
  else
    { g with
      predOrdForSuccessors := Function.update g.predOrdForSuccessors bb
        (Function.update (g.predOrdForSuccessors bb) i (g.predecessors succ).length)
      predecessors := Function.update g.predecessors succ (g.predecessors succ ++ [bb]) }

/-- A block that is reached is a predecessor of its successors. -/
def addPredecessors (g : Graph) (bb : ℕ) : Graph :=
  if g.isReachable bb then
    (g.successors bb).zipIdx.foldl (fun g (succ, i) => addPredecessor bb g i succ) g
  else g

/-- `ComputeReachabilityAndPredecessors`. -/
def computeReachabilityAndPredecessors (fuel : ℕ) : Option Graph :=
  let g := g.blocks.foldl (fun g bb =>
    { g with
      isReachable := Function.update g.isReachable bb false
      predecessors := Function.update g.predecessors bb [] }) g
  let g := { g with isReachable := Function.update g.isReachable g.getEntryBB true }
  (reachLoop fuel g [g.getEntryBB]).map fun g => g.blocks.foldl addPredecessors g

/-- `RemoveTriviallyUnreachableBlocks`. -/
def removeTriviallyUnreachableBlocks : Graph :=
  { g with blocks := g.blocks.filter fun bb => g.isReachable bb }

/-! ## Merging

A block with one successor takes in that successor where it is its only predecessor. -/

/-- The loop over the nodes of a successor that is merged into a block. -/
structure MergeState where
  nodes : List ℕ
  inheritVarResNode : Option ℕ
  lastVarResProducingNode : Option ℕ
  node : ℕ → Node

/-- `SetVariadicResultInputNode`. -/
def MergeState.setVariadicResultInputNode (s : MergeState) (n : ℕ) (input : Option ℕ) :
    MergeState :=
  { s with node := Function.update s.node n { s.node n with variadicResultInputNode := input } }

/-- One node of the successor; `originalNodes` are those of the block. -/
def mergeNode (originalNodes : List ℕ) (s : MergeState) (n : ℕ) : MergeState :=
  if (s.node n).inheritsVarRes then
    match originalNodes.reverse.find? fun other => (s.node other).isNodeGeneratesVR with
    | some last => { s with inheritVarResNode := some n, lastVarResProducingNode := some last }
    | none => { s with nodes := s.nodes ++ [n] }
  else
    let s :=
      if (s.node n).isNodeAccessesVR ∧ (s.node n).variadicResultInputNode = s.inheritVarResNode then
        s.setVariadicResultInputNode n s.lastVarResProducingNode
      else s
    { s with nodes := s.nodes ++ [n] }

/-- The nodes of a block with those of a successor behind them. -/
def mergedNodes (this bb : ℕ) : MergeState :=
  (g.nodes bb).foldl (mergeNode (g.nodes this)) ⟨g.nodes this, none, none, g.node⟩

/-- `MergeSuccessorBlock`. -/
def mergeSuccessorBlock (this bb : ℕ) : Graph :=
  let merged := g.mergedNodes this bb
  let succs := g.successors bb
  { g with
    node := merged.node
    nodes := Function.update g.nodes this merged.nodes
    terminator := if succs.length ≠ 1 then Function.update g.terminator this (g.terminator bb)
      else g.terminator
    successors := Function.update (Function.update g.successors this succs) bb []
    predOrdForSuccessors := Function.update g.predOrdForSuccessors this fun i =>
      if i < succs.length then g.predOrdForSuccessors bb i else g.predOrdForSuccessors this i
    -- every successor now has this block in the place of the one that is merged
    predecessors := Function.update (succs.zipIdx.foldl (fun predecessors (succ, i) =>
      Function.update predecessors succ
        ((predecessors succ).set (g.predOrdForSuccessors bb i) this)) g.predecessors) bb [] }

/-- The only predecessor leads nowhere else. -/
def blockCanBeMergedIntoPredecessor (bb : ℕ) : Bool :=
  match g.predecessors bb with
  | [pred] => (g.successors pred).length == 1
  | _ => false

/-- The loop that merges a chain of blocks into its first. -/
def mergeChain : ℕ → Graph → ℕ → Option Graph
  | 0, _, _ => none
  | fuel + 1, g, bb =>
    match g.successors bb with
    | [succ] =>
      if (g.predecessors succ).length = 1 then
        mergeChain fuel ((g.mergeSuccessorBlock bb succ).setReplacement succ none) bb
      else some g
    | _ => some g

/-- A chain of blocks is merged at the block where it begins. -/
def mergeBlock (fuel : ℕ) (g : Graph) (bb : ℕ) : Option Graph :=
  if g.replacement bb = none then some g
  else if g.blockCanBeMergedIntoPredecessor bb then some g
  else mergeChain fuel g bb

/-- The blocks that were merged away are deleted. -/
def removeDeletedBlocks : Graph :=
  { g with blocks := g.blocks.filter fun bb => (g.replacement bb).isSome }

/-- `RunCleanupControlFlowGraphPass`. -/
def run (fuel : ℕ) : Option Graph :=
  (g.bypassEmptyBlocks fuel).bind fun g =>
  (g.computeReachabilityAndPredecessors fuel).bind fun g =>
  let g := g.removeTriviallyUnreachableBlocks
  (g.blocks.foldlM (mergeBlock fuel) g).map removeDeletedBlocks

end Graph

/-! ## Execution

A block runs its nodes and takes one of its successors; what is observed is the nodes. -/

/-- What is seen of a run: the nodes, which way a branch goes, and the end. -/
inductive Event where
  | node (n : ℕ)
  | branch (taken : Bool)
  | exit
  deriving DecidableEq

namespace Graph

/-- A block is executed: its nodes, and then the next of the decisions if it is a branch. Only the
nodes that are kept are seen. -/
def execBlock (g : Graph) (keep : ℕ → Bool) (decisions : ℕ → Bool) (s : ℕ × ℕ) :
    List Event × Option (ℕ × ℕ) :=
  let events := ((g.nodes s.1).filter keep).map .node
  match g.successors s.1 with
  | [] => (events ++ [.exit], none)
  | [succ] => (events, some (succ, s.2))
  | fallthrough :: target :: _ =>
    (events ++ [.branch (decisions s.2)],
      some (if decisions s.2 then target else fallthrough, s.2 + 1))

/-- Two graphs show the same nodes, branches and end of every run from the entry. -/
def SameRuns (g : Graph) (keep : ℕ → Bool) (g' : Graph) (keep' : ℕ → Bool) : Prop :=
  ∀ decisions, Traces.Agree (g.execBlock keep decisions) (g.getEntryBB, 0)
    (g'.execBlock keep' decisions) (g'.getEntryBB, 0)

/-- An edge between blocks. -/
def Succ (g : Graph) (b b' : ℕ) : Prop := b' ∈ g.successors b

/-- A block is reached from another. -/
def Reach (g : Graph) : ℕ → ℕ → Prop := Relation.ReflTransGen g.Succ

/-- An edge from a trivially empty block to another block. -/
def EmptyStep (g : Graph) (b b' : ℕ) : Prop :=
  b ∈ g.blocks ∧ g.isTriviallyEmptyBlock b ∧ g.Succ b b' ∧ b ≠ b'

/-- What holds of every graph that the pass is given. -/
structure WellFormed (g : Graph) : Prop where
  nonempty : g.blocks ≠ []
  nodup : g.blocks.Nodup
  closed : ∀ b ∈ g.blocks, ∀ b' ∈ g.successors b, b' ∈ g.blocks
  le_two : ∀ b ∈ g.blocks, (g.successors b).length ≤ 2
  /-- A trivially empty block has no terminator that could branch or return. -/
  empty : ∀ b ∈ g.blocks, b ≠ g.getEntryBB → g.isTriviallyEmptyBlock b →
    (g.successors b).length = 1
  /-- A node is in the graph once. -/
  nodup_nodes : (g.blocks.flatMap g.nodes).Nodup
  /-- The entry block has no predecessors. -/
  entry : ∀ b ∈ g.blocks, g.getEntryBB ∉ g.successors b

end Graph

end CfgCleanup

end Dsom
