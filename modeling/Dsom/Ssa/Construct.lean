import Dsom.Dfg.CfgReach
import Dsom.Dfg.PhantomInsertion
import Dsom.Foundations.Arena
import Dsom.Foundations.UnionFind

/-!
# Ssa/Construct — block-local SSA form

`InitializeBlockLocalSSAFormAndSetupLogicalVariables` of `drt/dfg_construct_block_local_ssa.cpp`.
Values of different blocks are passed in locals.  The pass first leaves at most one `GetLocal` and
one `SetLocal` of every local in a block; then it builds a graph of `Phi`s that says which stores
flow to which loads, and with its help removes stores that nobody reads and loads that can only see
`UndefValue`; last, loads and stores between which a value can flow get one logical variable.

What the pass writes to is `State`.  The loops over worklists have fuel: `none` is a run that has
not ended yet.
-/

namespace Dsom

namespace LocalSsa

/-! ## The graph -/

/-- An input of a node. -/
structure Edge where
  value : Ir.Value
  useKind : ℕ
  needsTypeCheck : Bool
  deriving DecidableEq

/-- `LocalIdentifier`: a frame, and a location in it. -/
structure LocalIdentifier where
  inlinedCallFrame : ℕ
  location : ℕ
  deriving DecidableEq

/-- The kinds of nodes this pass tells apart. -/
inductive NodeKind where
  | getLocal (ident : LocalIdentifier)
  | setLocal (ident : LocalIdentifier)
  | createCapturedVar (localOrdForOsrExit : ℕ)
  | getCapturedVar (localOrdForOsrExit : ℕ)
  | setCapturedVar (localOrdForOsrExit : ℕ)
  | nop
  | other
  deriving DecidableEq

/-- A node: its kind and its inputs. -/
structure Node where
  kind : NodeKind
  inputs : List Edge
  deriving DecidableEq

/-- `ConvertToNop`: only the inputs that need a type check are kept. -/
def Node.convertToNop (node : Node) : Node where
  kind := .nop
  inputs := node.inputs.filter fun e => e.needsTypeCheck

/-- The graph that the pass is given. -/
structure Graph where
  cfg : CfgCleanup.Graph
  node : ℕ → Node
  undefValue : ℕ
  /-- `GetTotalNumLocals`. -/
  numLocals : ℕ
  virtualRegister : LocalIdentifier → ℕ
  interpreterSlot : LocalIdentifier → ℕ
  /-- `IsSetLocalLocationLiveAtHead`. -/
  isLiveAtHead : ℕ → LocalIdentifier → Bool

/-- `PhiOrNode`; of a node it is known what kind it is. -/
inductive PhiOrNode where
  | null
  | getLocal (node : ℕ)
  | setLocal (node : ℕ)
  | undefValue
  | phi (ord : ℕ)
  deriving DecidableEq

/-- A `Phi` or a `GetLocal`, to which a store would flow. -/
def PhiOrNode.isUser : PhiOrNode → Bool
  | .phi _ => true
  | .getLocal _ => true
  | _ => false

/-- `Phi`: the value of a local at the start of a block. -/
structure Phi where
  basicBlock : ℕ
  localOrd : ℕ
  originNode : ℕ
  children : List PhiOrNode
  canSeeSetLocal : Bool
  maybeUndefVal : Bool

/-- The state of the pass: the nodes, the events of the locals at both ends of each block, and the
`Phi`s. -/
structure State where
  node : ℕ → Node
  replacement : ℕ → Option Ir.Value
  isReferenced : ℕ → Bool
  localInfoAtHead : ℕ → ℕ → PhiOrNode
  localInfoAtTail : ℕ → ℕ → PhiOrNode
  phis : Arena Phi
  /-- `GetDataFlowInfoForGetLocal`. -/
  dataFlowInfo : ℕ → Option ℕ

/-! ## Replacements

Inputs that refer to a replaced load are replaced on the way. -/

/-- `ReplaceOperandBasedOnReplacement`. -/
def replaceValue (replacement : ℕ → Option Ir.Value) : Ir.Value → Ir.Value
  | .constant n => .constant n
  | .ssa n outputOrd => (replacement n).getD (.ssa n outputOrd)

/-- An input, with its value replaced. -/
def replaceOperand (replacement : ℕ → Option Ir.Value) (e : Edge) : Edge :=
  { e with value := replaceValue replacement e.value }

/-- `DoReplacementForInputs`. -/
def Node.doReplacementForInputs (replacement : ℕ → Option Ir.Value) (node : Node) : Node :=
  { node with inputs := node.inputs.map (replaceOperand replacement) }

/-- `SetNodeReferenced` for the operand of an edge. -/
def setReferenced (isReferenced : ℕ → Bool) (e : Edge) : ℕ → Bool :=
  match e.value with
  | .constant _ => isReferenced
  | .ssa n _ => Function.update isReferenced n true

/-- `GetSoleInput().GetValue()`. -/
def Graph.soleInput (g : Graph) (node : Node) : Ir.Value :=
  (node.inputs.head?.map Edge.value).getD (.constant g.undefValue)

/-! ## Local operations in a block

At most one load and one store of a local stay in a block. -/

/-- What is written while one block is canonicalized. -/
structure BlockState where
  node : ℕ → Node
  replacement : ℕ → Option Ir.Value
  isReferenced : ℕ → Bool
  head : ℕ → PhiOrNode
  tail : ℕ → PhiOrNode

namespace BlockState

/-- `ConvertToNop`. -/
def convertToNop (s : BlockState) (n : ℕ) : BlockState :=
  { s with node := Function.update s.node n (s.node n).convertToNop }

/-- A `GetLocal` gives way to a value. -/
def replaceBy (s : BlockState) (n : ℕ) (value : Ir.Value) : BlockState :=
  { s with
    replacement := Function.update s.replacement n (some value)
    node := Function.update s.node n (s.node n).convertToNop }

/-- The first event of a local in the block. -/
def setHead (s : BlockState) (localOrd : ℕ) (event : PhiOrNode) : BlockState :=
  { s with head := Function.update s.head localOrd event }

/-- The last event of a local in the block. -/
def setTail (s : BlockState) (localOrd : ℕ) (event : PhiOrNode) : BlockState :=
  { s with tail := Function.update s.tail localOrd event }

/-- `DoReplacementForInputsAndSetReferenceBit`. -/
def doReplacementForInputs (s : BlockState) (n : ℕ) : BlockState :=
  let node := (s.node n).doReplacementForInputs s.replacement
  { s with
    node := Function.update s.node n node
    isReferenced := node.inputs.foldl setReferenced s.isReferenced }

/-- A store: the last event becomes this one, and a store before it is dropped. -/
def canonicalizeSetLocal (s : BlockState) (n localOrd : ℕ) : BlockState :=
  match s.tail localOrd with
  | .getLocal _ => s.setTail localOrd (.setLocal n)
  | .undefValue => (s.setHead localOrd (.setLocal n)).setTail localOrd (.setLocal n)
  | .setLocal m =>
    -- the previous store is overwritten unread
    let s := if s.head localOrd = .setLocal m then s.setHead localOrd (.setLocal n) else s
    (s.convertToNop m).setTail localOrd (.setLocal n)
  | .null => (s.setHead localOrd (.setLocal n)).setTail localOrd (.setLocal n)
  | .phi _ => s

end BlockState

namespace Graph

variable (g : Graph)

/-- A load: what it loads is known, or this is the first event of the local. -/
def canonicalizeGetLocal (s : BlockState) (n localOrd : ℕ) : BlockState :=
  match s.tail localOrd with
  | .getLocal m => s.replaceBy n (.ssa m 0)
  | .setLocal m => s.replaceBy n (g.soleInput (s.node m))
  | .undefValue => s.replaceBy n (.constant g.undefValue)
  | .null => (s.setHead localOrd (.getLocal n)).setTail localOrd (.getLocal n)
  | .phi _ => s

/-- The first loop over the nodes of a block. -/
def canonicalizeNode (s : BlockState) (n : ℕ) : BlockState :=
  let s := s.doReplacementForInputs n
  match (s.node n).kind with
  | .getLocal ident => g.canonicalizeGetLocal s n (g.virtualRegister ident)
  | .setLocal ident => s.canonicalizeSetLocal n (g.virtualRegister ident)
  | _ => s

/-- The second loop. -/
def removeDeadGetLocal (s : BlockState) (n : ℕ) : BlockState :=
  match (s.node n).kind with
  | .getLocal ident =>
    if s.isReferenced n then s
    else
      let localOrd := g.virtualRegister ident
      let s := if s.tail localOrd = .getLocal n then
          (s.setHead localOrd .null).setTail localOrd .null
        else s.setHead localOrd (s.tail localOrd)
      s.convertToNop n
  | _ => s

/-- `CanonicalizeLocalOperationsInBasicBlock`: the nodes in their order, then the loads nothing
uses. -/
def canonicalizeLocalOperationsInBasicBlock (s : State) (bb : ℕ) : State :=
  let event : PhiOrNode := if bb = g.cfg.getEntryBB then .undefValue else .null
  let b : BlockState := ⟨s.node, s.replacement, s.isReferenced, fun _ => event, fun _ => event⟩
  let b := (g.cfg.nodes bb).foldl g.canonicalizeNode b
  let b := (g.cfg.nodes bb).foldl g.removeDeadGetLocal b
  { s with
    node := b.node
    replacement := b.replacement
    isReferenced := b.isReferenced
    localInfoAtHead := Function.update s.localInfoAtHead bb b.head
    localInfoAtTail := Function.update s.localInfoAtTail bb b.tail }

/-- `AllocateStateArraysForLocals`, and `ClearAllReplacementsAndIsReferencedBit`. -/
def initialState : State where
  node := g.node
  replacement _ := none
  isReferenced _ := false
  localInfoAtHead _ _ := .null
  localInfoAtTail _ _ := .null
  phis := ⟨0, fun _ => ⟨0, 0, 0, [], false, false⟩⟩
  dataFlowInfo _ := none

/-- All blocks, one after the other. -/
def canonicalizeAllLocalOperations : State :=
  g.cfg.blocks.foldl g.canonicalizeLocalOperationsInBasicBlock g.initialState

end Graph

/-! ## The graph of `Phi`s

A worklist goes from the loads up to the stores. -/

namespace State

/-- `AllocatePhi`. -/
def allocatePhi (s : State) (numChildren bb localOrd originNode : ℕ) : State :=
  { s with
    phis := s.phis.push ⟨bb, localOrd, originNode, List.replicate numChildren .null, false, false⟩ }

/-- `phi->IncomingValue(predOrd) = value`. -/
def setIncomingValue (s : State) (phi predOrd : ℕ) (value : PhiOrNode) : State :=
  { s with
    phis := s.phis.modify phi fun p => { p with children := p.children.set predOrd value } }

/-- Write what a local holds at the head of a block. -/
def setHead (s : State) (bb localOrd : ℕ) (value : PhiOrNode) : State :=
  { s with
    localInfoAtHead := Function.update s.localInfoAtHead bb
      (Function.update (s.localInfoAtHead bb) localOrd value) }

/-- Write what a local holds at the tail of a block. -/
def setTail (s : State) (bb localOrd : ℕ) (value : PhiOrNode) : State :=
  { s with
    localInfoAtTail := Function.update s.localInfoAtTail bb
      (Function.update (s.localInfoAtTail bb) localOrd value) }

end State

/-- `allPhis` are the `Phi`s that were allocated, in this order. The head of a worklist is its
back. -/
structure Work where
  state : State
  q : List ℕ
  q2 : List ℕ
  q3 : List ℕ
  hasPhiReferenceUndefValue : Bool

namespace Graph

variable (g : Graph)

/-- A `Phi` for a `GetLocal`. -/
def createPhi (bb : ℕ) (w : Work) (n : ℕ) : Work :=
  match (w.state.node n).kind with
  | .getLocal ident =>
    let phi := w.state.phis.size
    let s := w.state.allocatePhi (g.cfg.predecessors bb).length bb (g.virtualRegister ident) n
    { w with
      state := { s with dataFlowInfo := Function.update s.dataFlowInfo n (some phi) }
      q := phi :: w.q }
  | _ => w

/-- Every load gets a `Phi`, and all of these wait. -/
def createPhis (s : State) : Work :=
  g.cfg.blocks.foldl (fun w bb => (g.cfg.nodes bb).foldl (g.createPhi bb) w) ⟨s, [], [], [], false⟩

/-- One value that comes in at a `Phi`; a block in which the local is not touched gets a `Phi`. -/
def visitIncomingValue (phi localOrd : ℕ) (w : Work) (pred predOrd : ℕ) : Work :=
  match w.state.localInfoAtTail pred localOrd with
  | .null =>
    let incomingPhi := w.state.phis.size
    let s := w.state.allocatePhi (g.cfg.predecessors pred).length pred localOrd
      (w.state.phis.get phi).originNode
    let s := (s.setHead pred localOrd (.phi incomingPhi)).setTail pred localOrd (.phi incomingPhi)
    { w with state := s.setIncomingValue phi predOrd (.phi incomingPhi), q := incomingPhi :: w.q }
  | .getLocal n =>
    match w.state.dataFlowInfo n with
    | some incomingPhi =>
      { w with state := w.state.setIncomingValue phi predOrd (.phi incomingPhi) }
    | none => w
  | .setLocal n =>
    let s := { w.state with phis := w.state.phis.modify phi ({ · with canSeeSetLocal := true }) }
    { w with state := s.setIncomingValue phi predOrd (.setLocal n) }
  | .undefValue =>
    let s := { w.state with phis := w.state.phis.modify phi ({ · with maybeUndefVal := true }) }
    { w with
      state := s.setIncomingValue phi predOrd .undefValue
      q3 := phi :: w.q3
      hasPhiReferenceUndefValue := true }
  | .phi incomingPhi =>
    { w with state := w.state.setIncomingValue phi predOrd (.phi incomingPhi) }

/-- A `Phi` looks at all predecessors of its block. -/
def visitPhi (w : Work) (phi : ℕ) : Work :=
  let p := w.state.phis.get phi
  let w := (g.cfg.predecessors p.basicBlock).zipIdx.foldl
    (fun w (pred, predOrd) => g.visitIncomingValue phi p.localOrd w pred predOrd) w
  if (w.state.phis.get phi).canSeeSetLocal then { w with q2 := phi :: w.q2 } else w

/-- The loop over the worklist `q`. -/
def phiLoop : ℕ → Work → Option Work
  | 0, w => if w.q.isEmpty then some w else none
  | fuel + 1, w =>
    match w.q with
    | [] => some w
    | phi :: q => phiLoop fuel (g.visitPhi { w with q := q } phi)

/-- `ForEachPhiSuccessor`: the `Phi`s at which a `Phi` comes in, and where. -/
def phiSuccessors (s : State) (phi : ℕ) : List (ℕ × ℕ) :=
  let p := s.phis.get phi
  match s.localInfoAtTail p.basicBlock p.localOrd with
  | .setLocal _ => []
  | _ =>
    (g.cfg.successors p.basicBlock).zipIdx.filterMap fun (succ, succOrd) =>
      let incomingOrd := g.cfg.predOrdForSuccessors p.basicBlock succOrd
      match s.localInfoAtHead succ p.localOrd with
      | .getLocal n => (s.dataFlowInfo n).map (·, incomingOrd)
      | .phi succPhi => some (succPhi, incomingOrd)
      | _ => none

end Graph

/-- One of the two flags of a `Phi`. -/
structure Flag where
  get : Phi → Bool
  raise : Phi → Phi

/-- `!IsTriviallyUndefValue`. -/
def canSeeSetLocal : Flag := ⟨Phi.canSeeSetLocal, ({ · with canSeeSetLocal := true })⟩

/-- `MaybeUndefValue`. -/
def maybeUndefVal : Flag := ⟨Phi.maybeUndefVal, ({ · with maybeUndefVal := true })⟩

namespace Graph

variable (g : Graph)

/-- A flag is raised at a successor, which is put on the worklist if it was not raised before. -/
def raiseFlag (flag : Flag) (s : State × List ℕ) (succPhi : ℕ) : State × List ℕ :=
  if flag.get (s.1.phis.get succPhi) then s
  else ({ s.1 with phis := s.1.phis.modify succPhi flag.raise }, succPhi :: s.2)

/-- The loops over `q2` and `q3`. -/
def propagateFlag (flag : Flag) : ℕ → State → List ℕ → Option State
  | _, s, [] => some s
  | 0, _, _ :: _ => none
  | fuel + 1, s, phi :: q =>
    let (s, q) := ((g.phiSuccessors s phi).map Prod.fst).foldl (raiseFlag flag) (s, q)
    propagateFlag flag fuel s q

/-- Both flags of all `Phi`s; without an `UndefValue`, a store flows to every `Phi`. -/
def computeFlags (fuel : ℕ) (w : Work) : Option State :=
  if w.hasPhiReferenceUndefValue then
    (g.propagateFlag canSeeSetLocal fuel w.state w.q2).bind fun s =>
      g.propagateFlag maybeUndefVal fuel s w.q3
  else
    some ((List.range w.state.phis.size).foldl
      (fun s phi => { s with phis := s.phis.modify phi canSeeSetLocal.raise }) w.state)

/-- A `Phi` to which no store flows is replaced by `UndefValue`. -/
def replaceTriviallyUndefPhi (s : State) (phi : ℕ) : State :=
  let p := s.phis.get phi
  if p.canSeeSetLocal then s
  else
    let s := (g.phiSuccessors s phi).foldl
      (fun s (succPhi, incomingOrd) => s.setIncomingValue succPhi incomingOrd .undefValue) s
    if s.localInfoAtHead p.basicBlock p.localOrd = .phi phi then
      (s.setHead p.basicBlock p.localOrd .undefValue).setTail p.basicBlock p.localOrd .undefValue
    else s

/-! ## Dead stores and undefined loads

What no store flows to is undefined; what flows to no load is dead. -/

/-- `IsSetLocalBytecodeLiveAtTail`. -/
def isSetLocalBytecodeLiveAtTail (bb : ℕ) (ident : LocalIdentifier) : Bool :=
  (g.cfg.successors bb).any fun succ => g.isLiveAtHead succ ident

end Graph

namespace State

/-- `ConvertToNop` of one node of the graph. -/
def convertToNop (s : State) (n : ℕ) : State :=
  { s with node := Function.update s.node n (s.node n).convertToNop }

/-- A store that nobody reads. -/
def removeDeadSetLocal (s : State) (bb n localOrd : ℕ) : State :=
  let s := if s.localInfoAtHead bb localOrd = .setLocal n then
      (s.setHead bb localOrd .null).setTail bb localOrd .null
    else s.setTail bb localOrd (s.localInfoAtHead bb localOrd)
  s.convertToNop n

/-- The `Phi` of a `GetLocal` is trivially `UndefValue`. -/
def isTriviallyUndefGetLocal (s : State) (n : ℕ) : Bool :=
  match s.dataFlowInfo n with
  | some phi => !(s.phis.get phi).canSeeSetLocal
  | none => false

end State

namespace Graph

variable (g : Graph)

/-- A load that can only see `UndefValue`. -/
def removeUndefGetLocal (bb : ℕ) (s : State) (n localOrd : ℕ) : State :=
  let s := if s.localInfoAtTail bb localOrd = .getLocal n then
      (s.setHead bb localOrd .undefValue).setTail bb localOrd .undefValue
    else s.setHead bb localOrd (s.localInfoAtTail bb localOrd)
  { s with
    replacement := Function.update s.replacement n (some (.constant g.undefValue)) }.convertToNop n

/-- The last loop over the nodes of a block; the flag is `hasReplacement`. -/
def pruneNode (bb : ℕ) (s : State × Bool) (n : ℕ) : State × Bool :=
  let (s, hasReplacement) := s
  let s := if hasReplacement then
      { s with node := Function.update s.node n ((s.node n).doReplacementForInputs s.replacement) }
    else s
  match (s.node n).kind with
  | .getLocal ident =>
    if s.isTriviallyUndefGetLocal n then
      (g.removeUndefGetLocal bb s n (g.virtualRegister ident), true)
    else (s, hasReplacement)
  | .setLocal ident =>
    let localOrd := g.virtualRegister ident
    let hasUsers := (g.cfg.successors bb).any fun succ =>
      (s.localInfoAtHead succ localOrd).isUser
    if !hasUsers && !g.isSetLocalBytecodeLiveAtTail bb ident then
      (s.removeDeadSetLocal bb n localOrd, hasReplacement)
    else (s, hasReplacement)
  | _ => (s, hasReplacement)

/-- The loads and stores of a block that nothing needs become `Nop`s. -/
def pruneBlock (s : State) (bb : ℕ) : State :=
  ((g.cfg.nodes bb).foldl (g.pruneNode bb) (s, false)).1

/-- `BuildPhiDataFlowGraph`. -/
def buildPhiDataFlowGraph (fuel : ℕ) (s : State) : Option State :=
  (g.phiLoop fuel (g.createPhis s)).bind fun w =>
  (g.computeFlags fuel w).map fun s =>
  let s := if w.hasPhiReferenceUndefValue then
      (List.range s.phis.size).foldl g.replaceTriviallyUndefPhi s
    else s
  g.cfg.blocks.foldl g.pruneBlock s

end Graph

/-! ## Removing `Nop`s -/

/-- A `Nop` without inputs. -/
def Node.isEmptyNop (node : Node) : Bool := node.kind == .nop && node.inputs.isEmpty

/-- `RemoveEmptyNopNodes`; a block does not become empty. -/
def removeEmptyNopNodes (node : ℕ → Node) (l : List ℕ) : List ℕ :=
  let kept := l.filter fun n => !(node n).isEmptyNop
  if kept.isEmpty then l.getLast?.toList else kept

/-- `RemoveNopNodes`: the graph that the pass leaves. -/
def Graph.removeNopNodes (g : Graph) (s : State) : Graph :=
  { g with
    node := s.node
    cfg := { g.cfg with
      nodes := fun bb =>
        if bb ∈ g.cfg.blocks then removeEmptyNopNodes s.node (g.cfg.nodes bb)
        else g.cfg.nodes bb } }

end LocalSsa

end Dsom
