import Dsom.Foundations.Groups
import Dsom.Graph.Components
import Dsom.Graph.Condensation

/-!
# Dfg/Prediction — prediction propagation

Every output of every node of a graph in block-local SSA form, every logical variable and every
captured variable has a prediction, a mask of the types it may have.  The pass sets up the rules by
which the predictions grow and runs them to their fixpoint: rules whose inputs are final are run at
once, and the others block by block, in the order of the condensation of the graph of blocks and
variables.

`BasicBlockPropagationRules` is a `Group`: its guards are the rules for `GetLocal` and for the
private copies of captured variables, and its rules are the updates of the node rules, one after
the other. The type deduction functions of guest language nodes are generated by the build and are
a part of the graph here.
-/

namespace Dsom

namespace Prediction

open Rules

/-! ## Masks and cells

What the pass predicts: the outputs of the nodes, the constants, and the variables. -/

/-- `TypeMaskTy`. -/
structure TypeMask where
  bits : BitVec 32
  deriving DecidableEq

namespace TypeMask

instance : Max TypeMask := ⟨fun a b => ⟨a.bits ||| b.bits⟩⟩

/-- Masks are ordered as sets of types. -/
instance : SemilatticeSup TypeMask :=
  SemilatticeSup.mk' (fun a b => congrArg mk (BitVec.or_comm a.bits b.bits))
    (fun a b c => congrArg mk (BitVec.or_assoc a.bits b.bits c.bits))
    (fun a => congrArg mk (BitVec.or_self (x := a.bits)))

/-- `tBottom`. -/
instance : OrderBot TypeMask where
  bot := ⟨0⟩
  bot_le a := congrArg mk (BitVec.zero_or (x := a.bits))

instance : Finite TypeMask :=
  Finite.of_injective (fun m => m.bits.toFin) fun m m' h => by
    cases m
    cases m'
    exact congrArg mk (BitVec.toFin_inj.mp h)

end TypeMask

/-- The masks that the pass itself uses; they come from the language's list of types. -/
structure TypeMasks where
  tFunction : TypeMask
  tOpaque : TypeMask
  tGarbage : TypeMask
  tBoxedValueTop : TypeMask

/-- Where the prediction of a node output or of a variable is kept. -/
inductive Cell where
  | constantLike (ord : ℕ)
  | output (bbOrd nodeIdx outputOrd : ℕ)
  | logicalVar (ord : ℕ)
  | capturedVar (ord : ℕ)
  deriving DecidableEq

/-- …and the private copies of captured variables that only the pass uses. -/
inductive Loc where
  | cell (c : Cell)
  | privateCopy (bbOrd cvOrd : ℕ)
  deriving DecidableEq

/-- All predictions. -/
abbrev Store := Loc → TypeMask

/-! ## The graph -/

/-- The nodes that are in no basic block. -/
inductive ConstantLike where
  /-- With `GetTypeForBoxedValue` of the value. -/
  | constant (type : TypeMask)
  | unboxedConstant
  | undefValue
  | argument
  | getNumVariadicArgs
  | getKthVariadicArg
  | getFunctionObject

/-- The node that produces a value: in block-local SSA form a constant-like node or a node of the
same block. -/
inductive Operand where
  | constantLike (ord : ℕ)
  | node (nodeIdx : ℕ)

/-- `Value`. -/
structure Value where
  operand : Operand
  outputOrd : ℕ

/-- How the prediction of an output of a guest language node is found. -/
inductive TypeDeduction where
  | valueProfile
  | constant (mask : TypeMask)
  /-- A generated function of the masks of the inputs; an input that is not there has no mask. -/
  | function (f : List (Option TypeMask) → TypeMask)

/-- The output is one of `m_valueProfileOrds`. -/
def TypeDeduction.isValueProfile : TypeDeduction → Bool
  | .valueProfile => true
  | _ => false

/-- What the pass looks at in a node. -/
inductive Node where
  /-- A guest language node: the inputs its propagation function reads, and its outputs. -/
  | guest (inputs : List (Option Value)) (hasDirectOutput : Bool) (outputs : List TypeDeduction)
  /-- `Nop`, `ShadowStore`, `Phantom`, `SetUpvalue`, `Return` and the like. -/
  | noOutput
  | getLocal (lvOrd : ℕ)
  | setLocal (lvOrd : ℕ) (input : Value)
  /-- Without an input for the mutable self-reference of a closure. -/
  | createCapturedVar (cvOrd : ℕ) (input : Option Value)
  | getCapturedVar (cvOrd : ℕ)
  | setCapturedVar (cvOrd : ℕ) (input : Value)
  | getKthVariadicRes
  | getNumVariadicRes
  | i64SubSaturateToZero
  | createFunctionObject
  | getUpvalue

/-- `Graph`. -/
structure Graph where
  constantLikeNodes : List ConstantLike
  blocks : List (List Node)
  numLogicalVars : ℕ
  numCapturedVars : ℕ

namespace Graph

variable (g : Graph)

/-- The number of basic blocks. -/
def numBBs : ℕ := g.blocks.length

/-- The node of a logical variable in the graph of the plan. -/
def lvNode (lvOrd : ℕ) : ℕ := g.numBBs + lvOrd

/-- `m_cvNodeOffset` and on: the node of a captured variable. -/
def cvNode (cvOrd : ℕ) : ℕ := g.numBBs + g.numLogicalVars + cvOrd

/-- Prediction nodes: one for each block, logical variable and captured variable. -/
def numNodes : ℕ := g.numBBs + g.numLogicalVars + g.numCapturedVars

end Graph

/-- `GetPredictionAddressForInputOperand`. -/
def Value.cell (bbOrd : ℕ) (v : Value) : Cell :=
  match v.operand with
  | .constantLike ord => .constantLike ord
  | .node nodeIdx => .output bbOrd nodeIdx v.outputOrd

/-! ## Rules -/

/-- `SssdPropagationFn` and `GetVariablePropagationRule`: from one field to one field. -/
def sssd (dst src : Loc) : Rule Loc TypeMask where
  dst := dst
  val σ := σ src

/-- The masks of the inputs of a guest language node. -/
def inputMasks (bbOrd : ℕ) (inputs : List (Option Value)) (σ : Store) : List (Option TypeMask) :=
  inputs.map fun input => input.map fun v => σ (.cell (v.cell bbOrd))

/-- The outputs of a guest language node with their ordinals, which start at `1` if there is no
direct output. -/
def outputOrds (hasDirectOutput : Bool) (outputs : List TypeDeduction) : List (TypeDeduction × ℕ) :=
  outputs.zipIdx (if hasDirectOutput then 0 else 1)

/-- The generated propagation function: one update for every output that has a function. -/
def propagationFn (bbOrd nodeIdx : ℕ) (inputs : List (Option Value)) (hasDirectOutput : Bool)
    (outputs : List TypeDeduction) : List (Rule Loc TypeMask) :=
  (outputOrds hasDirectOutput outputs).filterMap fun output =>
    match output.1 with
    | .function f => some
        { dst := .cell (.output bbOrd nodeIdx output.2)
          val := fun σ => f (inputMasks bbOrd inputs σ) }
    | _ => none

/-! ## Setting up a basic block

A rule whose inputs are known for good is run at once; the others are kept for the loop. -/

/-- `PredictionPropagationPass`, with what it keeps while it goes through a block. -/
structure Pass where
  predictions : Store
  /-- The edges of `m_planFinder`. -/
  edges : ℕ → List ℕ
  gvRuleBuffer : List (Guard Loc)
  nodeRuleBuffer : List (List (Rule Loc TypeMask))
  nodeReferenced : ℕ → Bool
  cvSeen : List ℕ

namespace Pass

/-- `AddEdge`. -/
def addEdge (s : Pass) (source dest : ℕ) : Pass :=
  { s with edges := Function.update s.edges source (s.edges source ++ [dest]) }

/-- `*prediction = mask`. -/
def setPrediction (s : Pass) (loc : Loc) (mask : TypeMask) : Pass :=
  { s with predictions := Function.update s.predictions loc mask }

/-- `IsNodeReferenced` of the operand: it needs to be fixpointed.  Constant-like nodes never do. -/
def isReferenced (s : Pass) (v : Value) : Bool :=
  match v.operand with
  | .constantLike _ => false
  | .node nodeIdx => s.nodeReferenced nodeIdx

/-- Write the flag of one prediction node. -/
def setReferenced (s : Pass) (nodeIdx : ℕ) (referenced : Bool) : Pass :=
  { s with nodeReferenced := Function.update s.nodeReferenced nodeIdx referenced }

/-- `AddOrRunRule`. -/
def addOrRunRule (s : Pass) (nodeIdx : ℕ) (mustAdd : Bool) (rule : List (Rule Loc TypeMask)) :
    Pass :=
  if mustAdd then
    { s.setReferenced nodeIdx true with nodeRuleBuffer := s.nodeRuleBuffer ++ [rule] }
  else { s with predictions := runAll rule s.predictions }

end Pass

section Process

variable (masks : TypeMasks) (noValueProfile : Bool) (g : Graph) (bbOrd nodeIdx : ℕ)

/-- `ProcessGetLocal`. -/
def processGetLocal (lvOrd : ℕ) (s : Pass) : Pass :=
  let prediction := Loc.cell (.output bbOrd nodeIdx 0)
  let s := (s.setPrediction prediction ⊥).setReferenced nodeIdx true
  let s : Pass := { s with gvRuleBuffer := s.gvRuleBuffer ++
    [{ var := .cell (.logicalVar lvOrd), copy := prediction }] }
  s.addEdge (g.lvNode lvOrd) bbOrd

/-- `ProcessSetLocal`. -/
def processSetLocal (lvOrd : ℕ) (input : Value) (s : Pass) : Pass :=
  let s := s.addOrRunRule nodeIdx (s.isReferenced input)
    [sssd (.cell (.logicalVar lvOrd)) (.cell (input.cell bbOrd))]
  s.addEdge bbOrd (g.lvNode lvOrd)

/-- `ProcessCreateCapturedVar`. -/
def processCreateCapturedVar (cvOrd : ℕ) (input : Option Value) (s : Pass) : Pass :=
  let cvPred := Loc.cell (.capturedVar cvOrd)
  let s := match input with
    | none => s.setPrediction cvPred (s.predictions cvPred ⊔ masks.tFunction)
    | some input => s.addOrRunRule nodeIdx (s.isReferenced input)
        [sssd cvPred (.cell (input.cell bbOrd))]
  let s := s.setPrediction (.cell (.output bbOrd nodeIdx 0)) masks.tOpaque
  s.addEdge bbOrd (g.cvNode cvOrd)

/-- `ProcessGetCapturedVar`. -/
def processGetCapturedVar (cvOrd : ℕ) (s : Pass) : Pass :=
  let cvPred := Loc.cell (.capturedVar cvOrd)
  let s :=
    if cvOrd ∈ s.cvSeen then s
    else
      let prediction := Loc.privateCopy bbOrd cvOrd
      let s : Pass := { s with cvSeen := cvOrd :: s.cvSeen }
      let s := s.setPrediction prediction ⊥
      let s : Pass := { s with gvRuleBuffer := s.gvRuleBuffer ++
        [{ var := cvPred, copy := prediction }] }
      s.addEdge (g.cvNode cvOrd) bbOrd
  let prediction := Loc.cell (.output bbOrd nodeIdx 0)
  (s.setPrediction prediction ⊥).addOrRunRule nodeIdx true [sssd prediction cvPred]

/-- `ProcessSetCapturedVar`. -/
def processSetCapturedVar (cvOrd : ℕ) (input : Value) (s : Pass) : Pass :=
  let s := s.addOrRunRule nodeIdx (s.isReferenced input)
    [sssd (.cell (.capturedVar cvOrd)) (.cell (input.cell bbOrd))]
  s.addEdge bbOrd (g.cvNode cvOrd)

/-- `ProcessGetKthVariadicRes` and the other nodes with one output that is known beforehand. -/
def processFixed (mask : TypeMask) (s : Pass) : Pass :=
  s.setPrediction (.cell (.output bbOrd nodeIdx 0)) mask

/-- The prediction that `SetupPredictionPropagationData` or the value profile gives an output. -/
def initialMask : TypeDeduction → TypeMask
  | .valueProfile => masks.tBoxedValueTop
  | .constant mask => mask
  | .function _ => ⊥

/-- `ProcessGuestLanguageNode`; without `noValueProfile` an output that is to be value-profiled is
not implemented, and the pass stops. -/
def processGuestLanguageNode (inputs : List (Option Value)) (hasDirectOutput : Bool)
    (outputs : List TypeDeduction) (s : Pass) : Option Pass :=
  if outputs = [] then some s
  else if outputs.any TypeDeduction.isValueProfile && !noValueProfile then none
  else
    let mustFixpoint := inputs.any fun input => input.any s.isReferenced
    let s := (outputOrds hasDirectOutput outputs).foldl
      (fun s output => s.setPrediction (.cell (.output bbOrd nodeIdx output.2))
        (initialMask masks output.1)) s
    let rule := propagationFn bbOrd nodeIdx inputs hasDirectOutput outputs
    if rule.isEmpty then some s else some (s.addOrRunRule nodeIdx mustFixpoint rule)

/-- The body of the loop of `ProcessBasicBlock`. -/
def processNode (node : Node) (s : Pass) : Option Pass :=
  let s := s.setReferenced nodeIdx false
  match node with
  | .guest inputs hasDirectOutput outputs =>
      processGuestLanguageNode masks noValueProfile bbOrd nodeIdx inputs hasDirectOutput outputs s
  | .noOutput => some s
  | .getLocal lvOrd => some (processGetLocal g bbOrd nodeIdx lvOrd s)
  | .setLocal lvOrd input => some (processSetLocal g bbOrd nodeIdx lvOrd input s)
  | .createCapturedVar cvOrd input =>
      some (processCreateCapturedVar masks g bbOrd nodeIdx cvOrd input s)
  | .getCapturedVar cvOrd => some (processGetCapturedVar g bbOrd nodeIdx cvOrd s)
  | .setCapturedVar cvOrd input => some (processSetCapturedVar g bbOrd nodeIdx cvOrd input s)
  | .getKthVariadicRes => some (processFixed bbOrd nodeIdx masks.tBoxedValueTop s)
  | .getNumVariadicRes => some (processFixed bbOrd nodeIdx masks.tOpaque s)
  | .i64SubSaturateToZero => some (processFixed bbOrd nodeIdx masks.tOpaque s)
  | .createFunctionObject => some (processFixed bbOrd nodeIdx masks.tFunction s)
  | .getUpvalue => some (processFixed bbOrd nodeIdx masks.tBoxedValueTop s)

end Process

section RunPropagation

variable (masks : TypeMasks) (noValueProfile : Bool) (g : Graph)

/-- The loop over the nodes of one block. -/
def processNodes (bbOrd : ℕ) : ℕ → List Node → Pass → Option Pass
  | _, [], s => some s
  | nodeIdx, node :: nodes, s =>
      (processNode masks noValueProfile g bbOrd nodeIdx node s).bind
        (processNodes bbOrd (nodeIdx + 1) nodes)

/-- `ProcessBasicBlock`. -/
def processBasicBlock (bbOrd : ℕ) (nodes : List Node) (s : Pass) :
    Option (Pass × Group Loc TypeMask) :=
  (processNodes masks noValueProfile g bbOrd 0 nodes
    { s with gvRuleBuffer := [], nodeRuleBuffer := [], cvSeen := [] }).map fun s =>
      (s, { guards := s.gvRuleBuffer, rules := s.nodeRuleBuffer.flatten })

/-- The loop over the blocks, with the group of rules each block gives. -/
def processBasicBlocks : ℕ → List (List Node) → Pass → Option (Pass × List (Group Loc TypeMask))
  | _, [], s => some (s, [])
  | bbOrd, nodes :: blocks, s => do
      let (s, r) ← processBasicBlock masks noValueProfile g bbOrd nodes s
      let (s, rs) ← processBasicBlocks (bbOrd + 1) blocks s
      return (s, r :: rs)

/-- `ProcessAllConstantLikeNodes`. -/
def constantLikeMask : ConstantLike → TypeMask
  | .constant type => type
  | .unboxedConstant => masks.tOpaque
  | .undefValue => masks.tGarbage
  | .argument => masks.tBoxedValueTop
  | .getNumVariadicArgs => masks.tOpaque
  | .getKthVariadicArg => masks.tBoxedValueTop
  | .getFunctionObject => masks.tOpaque

/-- The pass after `ProcessAllConstantLikeNodes`. -/
def initialPass : Pass where
  predictions := fun
    | .cell (.constantLike ord) =>
        (g.constantLikeNodes.map (constantLikeMask masks)).getD ord ⊥
    | _ => ⊥
  edges := fun _ => []
  gvRuleBuffer := []
  nodeRuleBuffer := []
  nodeReferenced := fun _ => false
  cvSeen := []

/-- `ComputePlan`. -/
def computePlan (edges : ℕ → List ℕ) : Option (List (Item ℕ)) :=
  (Scc.computeForGenericGraph g.numNodes edges).map fun (numSCCs, sccInfo) =>
    let info := Condensation.compute edges g.numNodes numSCCs sccInfo false
    info.components.filterMap fun span =>
      let bbs := span.filter (· < g.numBBs)
      if bbs.length > 0 then
        some { range := bbs, runOnceIsEnough := bbs.length = 1 && span.length = 1 }
      else none

/-- `RunPropagation`: the predictions of all nodes and variables. -/
def runPropagation (fuel : ℕ) : Option (Cell → TypeMask) := do
  let (s, rules) ← processBasicBlocks masks noValueProfile g 0 g.blocks (initialPass masks g)
  let plan ← computePlan g s.edges
  let predictions ← runPlan (fun bbOrd => rules.getD bbOrd ⟨[], []⟩) fuel plan s.predictions
  return fun c => predictions (.cell c)

end RunPropagation

end Prediction

end Dsom
