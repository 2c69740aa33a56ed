import Mathlib.Data.List.Basic
import Mathlib.Logic.Function.Basic
import Mathlib.Tactic.Common

/-!
# RegAlloc/RegisterBank — which bank of registers each operand uses

A value that a node may take from either bank is left *undecided*: the use goes on the pending list
of the value, and the list is patched when a use that has no choice comes, or when all registers are
flushed.  What the pass is told about the values is a list of requests (`Graph.requests`), cut by
the flushes into epochs; `run_eq` says that the pass handles them one after another.
-/

namespace Dsom

namespace RegBank

/-! ## The variants of the generated code -/

/-- `DfgNodeOperandRegBankPref`, with what the pass asserts of the ones it meets. -/
structure OperandRegBankPref where
  gprAllowed : Bool
  fprAllowed : Bool
  gprPreferred : Bool
  allowed : (gprAllowed || fprAllowed) = true

namespace OperandRegBankPref

variable (pref : OperandRegBankPref)

/-- `HasChoices`: either bank will do. -/
def hasChoices : Bool := pref.gprAllowed && pref.fprAllowed

/-- The code exists for an operand in this bank. -/
def Allows (useGPR : Bool) : Prop :=
  (if useGPR then pref.gprAllowed else pref.fprAllowed) = true

variable {pref}

theorem allows_of_hasChoices (h : pref.hasChoices = true) (useGPR : Bool) :
    pref.Allows useGPR := by
  rw [hasChoices, Bool.and_eq_true] at h
  cases useGPR
  · exact h.2
  · exact h.1

theorem allows_gprAllowed : pref.Allows pref.gprAllowed := by
  have := pref.allowed
  cases h : pref.gprAllowed <;> simp_all [Allows]

end OperandRegBankPref

/-- `DfgVariantTraits` of a variant with register allocation. -/
structure VariantTraits where
  numOperandsForRA : ℕ
  operand : ℕ → OperandRegBankPref
  output : Option OperandRegBankPref

/-- The nodes that one generated function implements. -/
inductive StandardKind where
  | getLocal
  | setLocal
  | createCapturedVar
  | getCapturedVar
  | setCapturedVar
  | getKthVariadicRes
  | getNumVariadicRes
  | checkU64InBound
  | i64SubSaturateToZero
  | getUpvalueImmutable
  | getUpvalueMutable
  | setUpvalue
  deriving DecidableEq

/-- The kinds of the nodes that are in a block. -/
inductive NodeKind where
  | standard (kind : StandardKind)
  | nop
  | shadowStore
  | shadowStoreUndefToRange
  | phantom
  | createVariadicRes
  | prependVariadicRes
  | createFunctionObject
  | ret
  | guest (bcKind dfgVariantOrd : ℕ)
  deriving DecidableEq

/-- What the build generates: the operand of each type check, the traits of the standard nodes, and
of every bytecode its operands that are no range and its variants; `none` disables register
allocation. -/
structure Tables where
  firstUnprovenUseKind : ℕ
  typeCheckOperand : ℕ → OperandRegBankPref
  codegenInfoForBuiltinNodeKind : StandardKind → VariantTraits
  bytecodeNumFixedSSAOperands : ℕ → ℕ
  codegenInfoForDfgVariant : ℕ → ℕ → Option VariantTraits

/-! ## The graph -/

/-- A node and an output of it. -/
abbrev Value := ℕ × ℕ

/-- `Edge`, without the decision that the pass writes. -/
structure Edge where
  operand : ℕ
  outputOrd : ℕ
  useKind : ℕ
  isStaticallyProven : Bool

/-- The value that comes in at an edge. -/
def Edge.value (e : Edge) : Value := (e.operand, e.outputOrd)

/-- A node, as far as this pass looks at it. -/
structure Node where
  kind : NodeKind
  numInputs : ℕ
  inputEdge : ℕ → Edge
  hasDirectOutput : Bool
  numExtraOutputs : ℕ

/-- `IsOutputOrdValid`: the direct output is number zero. -/
def Node.isOutputOrdValid (node : Node) (outputOrd : ℕ) : Bool :=
  (outputOrd == 0 && node.hasDirectOutput)
    || (decide (1 ≤ outputOrd) && decide (outputOrd ≤ node.numExtraOutputs))

/-- The blocks of a graph, and the constants that stand outside of them. -/
structure Graph where
  node : ℕ → Node
  blocks : List (List ℕ)
  constantLikeNodes : List ℕ

/-- Where a decision is written: `BFM_shouldUseGpr` of an edge, `Flags_OutputUseGPR` of a node. -/
inductive Slot where
  | edge (n inputOrd : ℕ)
  | output (n : ℕ)
  deriving DecidableEq

/-! ## What is known about a value

It is kept for one epoch, with the uses that wait for the decision. -/

/-- Where a value is available in the current epoch. -/
inductive State where
  | undecided
  | inFPR
  | inGPR
  | inGPRAndFPR
  deriving DecidableEq

/-- The state when the value is available in one bank. -/
def State.one (useGPR : Bool) : State := if useGPR then .inGPR else .inFPR

/-- The state when the value becomes available in one more bank: the bits are joined. -/
def State.join : State → Bool → State
  | .undecided, useGPR => .one useGPR
  | .inFPR, false => .inFPR
  | .inGPR, true => .inGPR
  | _, _ => .inGPRAndFPR

/-- `RegBankAvailabilityInfo`. -/
structure RegBankAvailabilityInfo where
  epoch : ℕ
  state : State
  preferenceCount : BitVec 16
  pendingChoices : List Slot

/-- The constructor; of its fields only the epoch is set and read. -/
def RegBankAvailabilityInfo.fresh : RegBankAvailabilityInfo := ⟨0, .undecided, 0, []⟩

/-- What one use adds to the preference count. -/
def vote (prefersGPR : Bool) : BitVec 16 := if prefersGPR then 1 else -1

/-- `RegisterBankAssignmentPass`, with the decisions written so far. -/
structure Pass where
  info : Value → RegBankAvailabilityInfo
  allPendingInfo : List Value
  epoch : ℕ
  useGPR : Slot → Bool

namespace Pass

variable (s : Pass)

/-- `SetShouldUseGPR` and `SetOutputRegisterBankDecision`. -/
def setUseGPR (slot : Slot) (useGPR : Bool) : Pass :=
  { s with useGPR := Function.update s.useGPR slot useGPR }

/-- What is known of a value changes. -/
def setInfo (v : Value) (info : RegBankAvailabilityInfo) : Pass :=
  { s with info := Function.update s.info v info }

/-- `UpdateAllPendingChoices`. -/
def updateAllPendingChoices (v : Value) (useGPR : Bool) : Pass :=
  (s.info v).pendingChoices.foldl (fun s slot => s.setUseGPR slot useGPR) s

/-- `RegBankAvailabilityInfo::ProcessUndecidedOutput`, for the direct output of a node. -/
def processUndecidedOutput (n : ℕ) (prefersGPR : Bool) : Pass :=
  { s.setInfo (n, 0) ⟨s.epoch, .undecided, vote prefersGPR, [.output n]⟩ with
    allPendingInfo := s.allPendingInfo ++ [(n, 0)] }

/-- `RegBankAvailabilityInfo::ProcessUndecidedUse`. -/
def processUndecidedUse (v : Value) (slot : Slot) (prefersGPR : Bool) : Pass :=
  if s.epoch ≠ (s.info v).epoch then
    { s.setInfo v ⟨s.epoch, .undecided, vote prefersGPR, [slot]⟩ with
      allPendingInfo := s.allPendingInfo ++ [v] }
  else if (s.info v).state = .undecided then
    s.setInfo v { s.info v with
      preferenceCount := (s.info v).preferenceCount + vote prefersGPR
      pendingChoices := slot :: (s.info v).pendingChoices }
  else
    s.setUseGPR slot
      ((s.info v).state = .inGPR || ((s.info v).state = .inGPRAndFPR && prefersGPR))

/-- `RegBankAvailabilityInfo::ProcessMandetoryRegBankChoice`. -/
def processMandetoryRegBankChoice (v : Value) (mustUseGPR : Bool) : Pass :=
  if s.epoch ≠ (s.info v).epoch then
    s.setInfo v { s.info v with epoch := s.epoch, state := .one mustUseGPR }
  else if (s.info v).state = .undecided then
    (s.setInfo v { s.info v with state := .one mustUseGPR }).updateAllPendingChoices v mustUseGPR
  else
    s.setInfo v { s.info v with state := (s.info v).state.join mustUseGPR }

/-- `RegBankAvailabilityInfo::Finalize`: the uses that prefer a bank decide. -/
def finalize (v : Value) : Pass :=
  if (s.info v).state = .undecided then
    s.updateAllPendingChoices v (decide (0 ≤ (s.info v).preferenceCount.toInt))
  else s

/-- `FinishUpAndAdvanceToNextEpoch`: what was left undecided is decided now. -/
def finishUpAndAdvanceToNextEpoch : Pass :=
  let s := s.allPendingInfo.foldl finalize s
  { s with allPendingInfo := [], epoch := s.epoch + 1 }

end Pass

/-! ## The pass

An operand asks for a bank, or takes the one its value is in. -/

section Process

variable (tables : Tables) (g : Graph)

/-- `NeedsTypeCheck`. -/
def needsTypeCheck (e : Edge) : Bool :=
  !e.isStaticallyProven && decide (tables.firstUnprovenUseKind ≤ e.useKind)

/-- Whether the operand of a type check is wanted in a general register. -/
def shouldTypeCheckOperandUseGPR (useKind : ℕ) : Bool :=
  (tables.typeCheckOperand useKind).gprAllowed

/-- The loop over the inputs of a node from one of them on. -/
def forInputEdges (n first : ℕ) (f : Pass → ℕ → Pass) (s : Pass) : Pass :=
  (List.range' first ((g.node n).numInputs - first)).foldl f s

variable (s : Pass) (n : ℕ)

/-- The infos of the outputs of a node are allocated. -/
def allocateInfo : Pass :=
  { s with info := fun v =>
      if v.1 = n ∧ (g.node n).isOutputOrdValid v.2 then .fresh else s.info v }

/-- An output whose bank is given. -/
def processDirectOutputWithMandetoryRegBank (mustUseGpr : Bool) : Pass :=
  (s.setUseGPR (.output n) mustUseGpr).processMandetoryRegBankChoice (n, 0) mustUseGpr

/-- An output that may be in either bank. -/
def processUndecidedDirectOutput (prefersGpr : Bool) : Pass :=
  s.processUndecidedOutput n prefersGpr

variable (i : ℕ)

/-- A type check, whose bank is given. -/
def processTypeCheck (mustUseGpr : Bool) : Pass :=
  s.processMandetoryRegBankChoice ((g.node n).inputEdge i).value mustUseGpr

/-- A use whose bank is given. -/
def processUseWithMandetoryRegBank (mustUseGpr : Bool) : Pass :=
  (s.setUseGPR (.edge n i) mustUseGpr).processMandetoryRegBankChoice
    ((g.node n).inputEdge i).value mustUseGpr

/-- A use that may be in either bank. -/
def processUndecidedUse (prefersGpr : Bool) : Pass :=
  s.processUndecidedUse ((g.node n).inputEdge i).value (.edge n i) prefersGpr

/-- An operand of a variant with register allocation. -/
def processOperand (pref : OperandRegBankPref) : Pass :=
  if pref.hasChoices then processUndecidedUse g s n i pref.gprPreferred
  else processUseWithMandetoryRegBank g s n i pref.gprAllowed

/-- The output of a variant with register allocation. -/
def processOutput (pref : OperandRegBankPref) : Pass :=
  if pref.hasChoices then processUndecidedDirectOutput s n pref.gprPreferred
  else processDirectOutputWithMandetoryRegBank s n pref.gprAllowed

/-- A variant with register allocation: its output, then its operands. -/
def processVariant (info : VariantTraits) (numOperands : ℕ) : Pass :=
  let s := match info.output with
    | some pref => processOutput s n pref
    | none => s
  (List.range numOperands).foldl (fun s i => processOperand g s n i (info.operand i)) s

/-- The type checks on the inputs of a node. -/
def processTypeChecks : Pass :=
  forInputEdges g n 0 (fun s i =>
    let e := (g.node n).inputEdge i
    if needsTypeCheck tables e then
      processTypeCheck g s n i (shouldTypeCheckOperandUseGPR tables e.useKind)
    else s) s

/-- What `ProcessBasicBlock` does with a node. -/
def processNode : Pass :=
  let s := allocateInfo g s n
  let s := processTypeChecks tables g s n
  match (g.node n).kind with
  | .standard kind =>
    let info := tables.codegenInfoForBuiltinNodeKind kind
    processVariant g s n info info.numOperandsForRA
  | .nop | .shadowStore | .shadowStoreUndefToRange | .phantom => s
  | .createVariadicRes =>
    forInputEdges g n 0 (fun s i =>
      if i = 0 then processUseWithMandetoryRegBank g s n i true
      else processUndecidedUse g s n i true) s
  | .prependVariadicRes => forInputEdges g n 0 (fun s i => processUndecidedUse g s n i true) s
  | .createFunctionObject =>
    -- the first component of the node disables register allocation
    let s := s.finishUpAndAdvanceToNextEpoch
    let s := forInputEdges g n 0 (fun s i =>
      if i < 2 then processUseWithMandetoryRegBank g s n i true
      else processUndecidedUse g s n i true) s
    processDirectOutputWithMandetoryRegBank s n true
  | .ret =>
    (forInputEdges g n 0 (fun s i =>
      processUndecidedUse g s n i true) s).finishUpAndAdvanceToNextEpoch
  | .guest bcKind dfgVariantOrd =>
    let numFixed := tables.bytecodeNumFixedSSAOperands bcKind
    -- the range operands are stored before the node runs
    let s := forInputEdges g n numFixed (fun s i => processUndecidedUse g s n i true) s
    match tables.codegenInfoForDfgVariant bcKind dfgVariantOrd with
    | some info => processVariant g s n info numFixed
    | none => s.finishUpAndAdvanceToNextEpoch

/-- The nodes of a block in their order, and its end. -/
def processBasicBlock (block : List ℕ) : Pass :=
  (block.foldl (processNode tables g) s).finishUpAndAdvanceToNextEpoch

/-- `RunRegisterBankAssignmentPass`, on a graph whose slots hold `useGPR`. -/
def run (useGPR : Slot → Bool) : Pass :=
  g.blocks.foldl (processBasicBlock tables g)
    (g.constantLikeNodes.foldl (fun s n => s.setInfo (n, 0) .fresh)
      ⟨fun _ => .fresh, [], 1, useGPR⟩)

end Process

/-! ## The requests

What the pass asks for, in order; a request is for one slot at most. -/

/-- What the pass is told, one after another.  A request that is mandatory has no slot when it is a
type check. -/
inductive Request where
  | allocate (n : ℕ)
  | mandatory (v : Value) (slot : Option Slot) (useGPR : Bool)
  | flexible (v : Value) (slot : Slot) (prefersGPR : Bool)
  | output (n : ℕ) (prefersGPR : Bool)
  | flush

namespace Request

/-- The slot that a request decides. -/
def slot? : Request → Option Slot
  | .mandatory _ slot _ => slot
  | .flexible _ slot _ => some slot
  | .output n _ => some (.output n)
  | _ => none

/-- The value that a request is about. -/
def value? : Request → Option Value
  | .mandatory v _ _ => some v
  | .flexible v _ _ => some v
  | .output n _ => some (n, 0)
  | _ => none

/-- The node whose infos a request starts anew. -/
def defines? : Request → Option ℕ
  | .allocate n => some n
  | .output n _ => some n
  | _ => none

/-- What may come after what: no slot is decided twice, and nothing is asked of a value before it
is there. -/
def Before (r r' : Request) : Prop :=
  (∀ slot ∈ r.slot?, slot ∉ r'.slot?) ∧ ∀ n ∈ r'.defines?, ∀ v ∈ r.value?, v.1 ≠ n

end Request

/-- One request is handled. -/
def step (g : Graph) (s : Pass) : Request → Pass
  | .allocate n => allocateInfo g s n
  | .mandatory v slot useGPR =>
    (slot.elim s fun slot => s.setUseGPR slot useGPR).processMandetoryRegBankChoice v useGPR
  | .flexible v slot prefersGPR => s.processUndecidedUse v slot prefersGPR
  | .output n prefersGPR => s.processUndecidedOutput n prefersGPR
  | .flush => s.finishUpAndAdvanceToNextEpoch

section Requests

variable (tables : Tables) (g : Graph) (n : ℕ)

/-- An operand that has to be in one bank. -/
def mustUse (useGPR : Bool) (i : ℕ) : Request :=
  .mandatory ((g.node n).inputEdge i).value (some (.edge n i)) useGPR

/-- An operand that may be in either bank. -/
def mayUse (i : ℕ) : Request := .flexible ((g.node n).inputEdge i).value (.edge n i) true

/-- The request of an operand of a variant. -/
def operandRequest (pref : OperandRegBankPref) (i : ℕ) : Request :=
  if pref.hasChoices then .flexible ((g.node n).inputEdge i).value (.edge n i) pref.gprPreferred
  else mustUse g n pref.gprAllowed i

/-- The request of the output of a variant. -/
def outputRequest (pref : OperandRegBankPref) : Request :=
  if pref.hasChoices then .output n pref.gprPreferred
  else .mandatory (n, 0) (some (.output n)) pref.gprAllowed

/-- What a variant of a node asks for: its output first, then its operands. -/
def variantRequests (info : VariantTraits) (numOperands : ℕ) : List Request :=
  info.output.toList.map (outputRequest n)
    ++ (List.range numOperands).map fun i => operandRequest g n (info.operand i) i

/-- The request of the type check of an input. -/
def checkRequest (i : ℕ) : Option Request :=
  let e := (g.node n).inputEdge i
  if needsTypeCheck tables e then
    some (.mandatory e.value none (shouldTypeCheckOperandUseGPR tables e.useKind))
  else none

/-- The inputs of a node from one of them on. -/
def inputsFrom (first : ℕ) : List ℕ := List.range' first ((g.node n).numInputs - first)

/-- The requests of a node after its type checks. -/
def bodyRequests : List Request :=
  match (g.node n).kind with
  | .standard kind =>
    let info := tables.codegenInfoForBuiltinNodeKind kind
    variantRequests g n info info.numOperandsForRA
  | .nop | .shadowStore | .shadowStoreUndefToRange | .phantom => []
  | .createVariadicRes =>
    (inputsFrom g n 0).map fun i => if i = 0 then mustUse g n true i else mayUse g n i
  | .prependVariadicRes => (inputsFrom g n 0).map (mayUse g n)
  | .createFunctionObject =>
    .flush :: ((inputsFrom g n 0).map fun i => if i < 2 then mustUse g n true i else mayUse g n i)
      ++ [.mandatory (n, 0) (some (.output n)) true]
  | .ret => (inputsFrom g n 0).map (mayUse g n) ++ [.flush]
  | .guest bcKind dfgVariantOrd =>
    let numFixed := tables.bytecodeNumFixedSSAOperands bcKind
    (inputsFrom g n numFixed).map (mayUse g n) ++
      match tables.codegenInfoForDfgVariant bcKind dfgVariantOrd with
      | some info => variantRequests g n info numFixed
      | none => [.flush]

/-- What a node asks for: its outputs, the checks of its operands, and the operands themselves. -/
def nodeRequests : List Request :=
  .allocate n :: ((inputsFrom g n 0).filterMap (checkRequest tables g n) ++ bodyRequests tables g n)

/-- What a block asks for, with its end. -/
def blockRequests (block : List ℕ) : List Request :=
  block.flatMap (nodeRequests tables g) ++ [.flush]

/-- The requests of the whole pass. -/
def requests : List Request := g.blocks.flatMap (blockRequests tables g)

end Requests

/-! ## The pass handles its requests

The pass is the fold of one step over the requests of the graph. -/

section Handles

variable (tables : Tables) (g : Graph) (s : Pass) (n : ℕ)

theorem processOperand_eq (i : ℕ) (pref : OperandRegBankPref) :
    processOperand g s n i pref = step g s (operandRequest g n pref i) := by
  rw [processOperand, operandRequest]
  split <;> rfl

theorem processOutput_eq (pref : OperandRegBankPref) :
    processOutput s n pref = step g s (outputRequest n pref) := by
  rw [processOutput, outputRequest]
  split <;> rfl

theorem processVariant_eq (info : VariantTraits) (numOperands : ℕ) :
    processVariant g s n info numOperands
      = (variantRequests g n info numOperands).foldl (step g) s := by
  rw [processVariant, variantRequests, List.foldl_append, List.foldl_map]
  simp only [processOperand_eq]
  cases info.output with
  | none => rfl
  | some pref => simp [processOutput_eq g]

theorem processTypeChecks_eq :
    processTypeChecks tables g s n
      = ((inputsFrom g n 0).filterMap (checkRequest tables g n)).foldl (step g) s := by
  rw [processTypeChecks, forInputEdges, List.foldl_filterMap]
  refine List.foldl_ext _ _ _ fun s i _ => ?_
  simp only [checkRequest]
  split <;> rfl

/-- A loop in which the inputs up to some are mandatory. -/
theorem forInputEdges_eq (first : ℕ) (p : ℕ → Prop) [DecidablePred p] :
    forInputEdges g n first (fun s i =>
        if p i then processUseWithMandetoryRegBank g s n i true
        else processUndecidedUse g s n i true) s
      = ((inputsFrom g n first).map fun i =>
          if p i then mustUse g n true i else mayUse g n i).foldl (step g) s := by
  rw [forInputEdges, List.foldl_map]
  refine List.foldl_ext _ _ _ fun s i _ => ?_
  split <;> rfl

theorem forInputEdges_mayUse (first : ℕ) :
    forInputEdges g n first (fun s i => processUndecidedUse g s n i true) s
      = ((inputsFrom g n first).map (mayUse g n)).foldl (step g) s := by
  rw [forInputEdges, List.foldl_map]
  rfl

/-- A node is its requests. -/
theorem processNode_eq :
    processNode tables g s n = (nodeRequests tables g n).foldl (step g) s := by
  rw [processNode, nodeRequests, List.foldl_cons, List.foldl_append, ← processTypeChecks_eq,
    bodyRequests]
  change _ = List.foldl _ (processTypeChecks tables g (allocateInfo g s n) n) _
  generalize processTypeChecks tables g (allocateInfo g s n) n = s
  cases (g.node n).kind with
  | standard kind => exact processVariant_eq g s n _ _
  | nop | shadowStore | shadowStoreUndefToRange | phantom => rfl
  | createVariadicRes => exact forInputEdges_eq g s n 0 _
  | prependVariadicRes => exact forInputEdges_mayUse g s n 0
  | createFunctionObject =>
    simp only [forInputEdges_eq, List.cons_append, List.foldl_cons, List.foldl_append]
    rfl
  | ret =>
    simp only [forInputEdges_mayUse, List.foldl_append]
    rfl
  | guest bcKind dfgVariantOrd =>
    simp only [forInputEdges_mayUse, List.foldl_append]
    cases tables.codegenInfoForDfgVariant bcKind dfgVariantOrd with
    | none => rfl
    | some info => exact processVariant_eq g _ n info _

/-- A block is the requests of its nodes. -/
theorem processBasicBlock_eq (block : List ℕ) :
    processBasicBlock tables g s block = (blockRequests tables g block).foldl (step g) s := by
  rw [processBasicBlock, blockRequests, List.foldl_append, List.foldl_flatMap,
    funext₂ (processNode_eq tables g)]
  rfl

/-- The state in which the pass starts: nothing is known about any value. -/
def start (useGPR : Slot → Bool) : Pass := ⟨fun _ => .fresh, [], 1, useGPR⟩

theorem foldl_fresh (constants : List ℕ) (useGPR : Slot → Bool) :
    constants.foldl (fun s n => s.setInfo (n, 0) .fresh) (start useGPR) = start useGPR := by
  induction constants with
  | nil => rfl
  | cons n constants ih =>
    have hsame : (start useGPR).setInfo (n, 0) .fresh = start useGPR := by
      simp [Pass.setInfo, start]
    rw [List.foldl_cons, hsame, ih]

/-- **The pass handles its requests** one after another. -/
theorem run_eq (useGPR : Slot → Bool) :
    run tables g useGPR = (requests tables g).foldl (step g) (start useGPR) := by
  rw [run, requests, List.foldl_flatMap, funext₂ (processBasicBlock_eq tables g)]
  exact congrArg (fun s => List.foldl _ s g.blocks) (foldl_fresh g.constantLikeNodes useGPR)

end Handles

end RegBank

end Dsom
