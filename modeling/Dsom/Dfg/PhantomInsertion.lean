import Dsom.Dfg.InlinedFrame
import Dsom.Foundations.Ensures

/-!
# Dfg/PhantomInsertion — keeping values alive for OSR exits

`RunPhantomInsertionPass` of `drt/dfg_phantom_insertion.cpp`, on one basic block.  A `ShadowStore`
says which SSA value an interpreter slot holds from here on.  While the slot may be read by an OSR
exit the value must stay alive, so when the slot dies the pass looks for the last node that may
exit: if the value was not used since, a `Phantom` that uses it goes right after that node.
-/

namespace Dsom

namespace Ir

/-- A constant-like node, or an output of a node of the block, by the index of the node. -/
inductive Value where
  | constant (node : ℕ)
  | ssa (node outputOrd : ℕ)
  deriving DecidableEq

namespace Value

/-- The value is not a constant-like node. -/
def IsSsa : Value → Prop
  | constant _ => False
  | ssa _ _ => True

instance : (v : Value) → Decidable v.IsSsa
  | constant _ => isFalse id
  | ssa _ _ => isTrue trivial

end Value

/-- An input edge; `needsCheck` is a type check, or `UseKind_AlwaysOsrExit`. -/
structure Edge where
  value : Value
  needsCheck : Bool
  deriving DecidableEq

/-- `CodeOrigin`: an inlined call frame and a bytecode of its function. -/
structure CodeOrigin where
  inlinedCallFrame : ℕ
  bytecodeIndex : ℕ
  deriving DecidableEq

/-- `OsrExitDestination`. -/
inductive OsrExitDestination where
  | normal (dest : CodeOrigin)
  | branch (origin : CodeOrigin)
  deriving DecidableEq

/-- The exit leaves to the target of a branch. -/
def OsrExitDestination.IsBranchDest : OsrExitDestination → Prop
  | normal _ => False
  | branch _ => True

instance : (d : OsrExitDestination) → Decidable d.IsBranchDest
  | .normal _ => isFalse id
  | .branch _ => isTrue trivial

/-- What the pass asks of a node's kind. -/
inductive NodeKind where
  | shadowStore (interpreterSlotOrd : ℕ)
  | shadowStoreUndefToRange (startInterpSlotOrd rangeLength : ℕ)
  | setLocal (interpreterSlotOrd : ℕ)
  | phantom
  | other
  deriving DecidableEq

/-- `Node`: what the pass reads of it. -/
structure Node where
  kind : NodeKind
  inputs : List Edge
  hasDirectOutput : Bool
  numExtraOutputs : ℕ
  mayOsrExitNotConsideringChecks : Bool
  osrExitDest : OsrExitDestination
  deriving DecidableEq

namespace Node

/-- `MayOsrExit`: the node's own flag, or one of its inputs is checked. -/
def MayOsrExit (node : Node) : Prop :=
  node.mayOsrExitNotConsideringChecks = true ∨ ∃ e ∈ node.inputs, e.needsCheck = true

instance (node : Node) : Decidable node.MayOsrExit := inferInstanceAs (Decidable (_ ∨ _))

/-- The node has an input edge from the value. -/
def Uses (node : Node) (v : Value) : Prop := ∃ e ∈ node.inputs, e.value = v

instance (node : Node) (v : Value) : Decidable (node.Uses v) :=
  inferInstanceAs (Decidable (∃ e ∈ _, _))

/-- The node, at index `nodeIdx`, outputs the value. -/
def Defines (node : Node) (nodeIdx : ℕ) : Value → Prop
  | .constant _ => False
  | .ssa n outputOrd => n = nodeIdx ∧
      (if node.hasDirectOutput then 0 else 1) ≤ outputOrd ∧ outputOrd ≤ node.numExtraOutputs

instance (node : Node) (nodeIdx : ℕ) : (v : Value) → Decidable (node.Defines nodeIdx v)
  | .constant _ => isFalse id
  | .ssa _ _ => inferInstanceAs (Decidable (_ ∧ _ ∧ _))

/-- `CreatePhantomNode`, with the exit destination of the exiting node. -/
def createPhantomNode (value : Value) (exitingNode : Node) : Node where
  kind := .phantom
  inputs := [⟨value, false⟩]
  hasDirectOutput := false
  numExtraOutputs := 0
  mayOsrExitNotConsideringChecks := false
  osrExitDest := exitingNode.osrExitDest

/-- A Phantom uses the value it was made for. -/
@[simp] theorem createPhantomNode_uses {v w : Value} {node : Node} :
    (createPhantomNode v node).Uses w ↔ v = w := by
  simp [Uses, createPhantomNode]

/-- A Phantom does not exit. -/
theorem createPhantomNode_not_mayOsrExit (v : Value) (node : Node) :
    ¬ (createPhantomNode v node).MayOsrExit := by
  simp [MayOsrExit, createPhantomNode]

end Node

/-- A basic block, with what the graph knows about interpreter slots: the frames its exits lead to,
and what each slot holds at the tail of the block. -/
structure BasicBlock where
  numInterpreterSlots : ℕ
  undefValue : ℕ
  frames : ℕ → InlinedCallFrame
  tail : ℕ → VirtualRegisterMappingInfo
  nodes : List Node

namespace BasicBlock

variable (bb : BasicBlock)

/-- `CodeOriginLivenessInfo::IsLive`. -/
def isLive (origin : CodeOrigin) (slot : ℕ) : Bool :=
  let f := bb.frames origin.inlinedCallFrame
  if slot < f.baseInterpreterFrameSlot then
    (f.virtualRegisterMappingBeforeThisFrame.getD slot .dead).isLive
  else if f.numBytecodeLocals ≤ slot - f.baseInterpreterFrameSlot then false
  else f.codeBlock.liveness origin.bytecodeIndex .beforeUse (slot - f.baseInterpreterFrameSlot)

/-- The slot is live where an exit leads to; after a branch, at the tail of the block. -/
def destLive : OsrExitDestination → ℕ → Bool
  | .normal origin, slot => bb.isLive origin slot
  | .branch _, slot => (bb.tail slot).isLive

end BasicBlock

namespace PhantomInsertion

/-- The fields of `PhantomInsertionPassImpl` that change.  `m_interpSlotHasValue` is where
`interpSlotVal` has a value. -/
structure State where
  interpSlotVal : ℕ → Option Value
  interpSlotSavedToDfgSlot : ℕ → Bool
  lastExitOrd : ℕ
  lastExitDest : Option OsrExitDestination
  nodeIndexOfLastExitDest : Option ℕ
  seenBranchDest : Bool
  lastUseExitOrd : Value → ℕ
  inserts : List (ℕ × Node)

/-- The state at the tail of the block, before the walk backward. -/
def State.init : State where
  interpSlotVal _ := none
  interpSlotSavedToDfgSlot _ := false
  lastExitOrd := 1
  lastExitDest := none
  nodeIndexOfLastExitDest := none
  seenBranchDest := false
  lastUseExitOrd _ := 0
  inserts := []

variable (bb : BasicBlock)

/-- The `Phantom` a death needs: right after the last node that may exit, if the value was not used
since. -/
def phantomFor (st : State) : Value → Option (List (ℕ × Node))
  | .constant _ => some []
  | v@(.ssa _ _) =>
    testAssert (st.lastUseExitOrd v ≠ 0) <|
    if st.lastUseExitOrd v < st.lastExitOrd then
      st.nodeIndexOfLastExitDest.bind fun m => (bb.nodes[m]?).map fun exitingNode =>
        [(m + 1, Node.createPhantomNode v exitingNode)]
    else some []

/-- `ProcessInterpreterSlotDeath`. -/
def processInterpreterSlotDeath (interpSlotOrd : ℕ) (st : State) : Option State :=
  testAssert (interpSlotOrd < bb.numInterpreterSlots) <|
  (st.interpSlotVal interpSlotOrd).bind fun value =>
  (phantomFor bb st value).map fun phantoms =>
  { st with
    interpSlotVal := Function.update st.interpSlotVal interpSlotOrd none
    inserts := st.inserts ++ phantoms }

/-- The death of every slot of a list that has a value and satisfies a condition. -/
def processDeaths (slots : List ℕ) (dead : ℕ → Bool) (st : State) : Option State :=
  slots.foldlM (fun st slot =>
    if (st.interpSlotVal slot).isSome ∧ dead slot = true then processInterpreterSlotDeath bb slot st
    else some st) st

/-- The interpreter slots of the block. -/
def allSlots : List ℕ := List.range bb.numInterpreterSlots

/-- The slot has a value, or was saved by a `SetLocal`. -/
def State.Known (st : State) (slot : ℕ) : Prop :=
  (st.interpSlotVal slot).isSome ∨ st.interpSlotSavedToDfgSlot slot = true

instance (st : State) (slot : ℕ) : Decidable (st.Known slot) := inferInstanceAs (Decidable (_ ∨ _))

/-- `handleOsrExitDest`. -/
def handleOsrExitDest (newDest : OsrExitDestination) (st : State) : Option State :=
  match newDest with
  | .branch _ =>
    testAssert (st.seenBranchDest = true → st.lastExitDest = some newDest) <|
    if st.seenBranchDest then some st
    else processDeaths bb (allSlots bb) (fun slot => !(bb.tail slot).isLive)
      { st with seenBranchDest := true }
  | .normal new =>
    testAssert (∀ slot < bb.numInterpreterSlots,
      st.interpSlotSavedToDfgSlot slot = true → bb.isLive new slot = true) <|
    testAssert (st.seenBranchDest = false) <|
    match st.lastExitDest with
    | none => processDeaths bb (allSlots bb) (fun slot => !bb.isLive new slot) st
    | some (.branch _) => none
    | some (.normal old) =>
      if new = old then some st
      else if old.inlinedCallFrame = new.inlinedCallFrame then
        -- everything before the frame is unchanged
        let f := bb.frames old.inlinedCallFrame
        let liveness := fun origin slot =>
          f.codeBlock.liveness (CodeOrigin.bytecodeIndex origin) .beforeUse
            (slot - f.baseInterpreterFrameSlot)
        let locals := (List.range f.numBytecodeLocals).map (f.baseInterpreterFrameSlot + ·)
        testAssert (∀ slot ∈ locals, liveness new slot = true → liveness old slot = false →
          st.Known slot) <|
        processDeaths bb locals (fun slot => liveness old slot && !liveness new slot) st
      else
        testAssert (∀ slot < bb.numInterpreterSlots, bb.isLive old slot = false →
          bb.isLive new slot = true → st.Known slot) <|
        processDeaths bb (allSlots bb) (fun slot => bb.isLive old slot && !bb.isLive new slot) st

/-- `processShadowStore`. -/
def processShadowStore (slot : ℕ) (value : Value) (st : State) : Option State :=
  testAssert (slot < bb.numInterpreterSlots ∧ st.interpSlotSavedToDfgSlot slot = false) <|
  (if (st.interpSlotVal slot).isSome then processInterpreterSlotDeath bb slot st
    else some st).map fun st =>
  { st with interpSlotVal := Function.update st.interpSlotVal slot (some value) }

/-- What a node does to the interpreter slots. -/
def processNodeKind (node : Node) (st : State) : Option State :=
  match node.kind with
  | .shadowStore slot =>
    match node.inputs with
    | [e] => processShadowStore bb slot e.value st
    | _ => none
  | .shadowStoreUndefToRange start len =>
    (List.range len).foldlM (fun st i =>
      processShadowStore bb (start + i) (.constant bb.undefValue) st) st
  | .setLocal slot =>
    match node.inputs with
    | [e] =>
      testAssert (slot < bb.numInterpreterSlots ∧ st.interpSlotSavedToDfgSlot slot = false) <|
      testAssert (st.interpSlotVal slot = some e.value) <|
      some { st with
        interpSlotVal := Function.update st.interpSlotVal slot none
        interpSlotSavedToDfgSlot := Function.update st.interpSlotSavedToDfgSlot slot true }
    | _ => none
  | _ => some st

/-- The uses and outputs of a node: if it may exit, they already count for the next ordinal. -/
def updateLastUse (nodeIdx : ℕ) (node : Node) (st : State) : State :=
  { st with lastUseExitOrd := fun v =>
      if node.Uses v ∨ node.Defines nodeIdx v then
        if node.MayOsrExit then st.lastExitOrd + 1 else st.lastExitOrd
      else st.lastUseExitOrd v }

/-- One round of the loop of `ProcessBasicBlock`. -/
def processNode (nodeIdx : ℕ) (node : Node) (st : State) : Option State :=
  (processNodeKind bb node (updateLastUse nodeIdx node st)).bind fun st =>
  if node.MayOsrExit then
    (handleOsrExitDest bb node.osrExitDest st).map fun st =>
    { st with
      lastExitOrd := st.lastExitOrd + 1
      lastExitDest := some node.osrExitDest
      nodeIndexOfLastExitDest := some nodeIdx }
  else some st

/-- The loop over the nodes of the block, with the index of the next one. -/
def processNodes : ℕ → List Node → State → Option State
  | _, [], st => some st
  | nodeIdx, node :: rest, st =>
      (processNode bb nodeIdx node st).bind (processNodes (nodeIdx + 1) rest)

/-- What the slots must look like at the tail: a value that is not saved is dead, or the constant
the slot is known to hold. -/
def TailOK (st : State) : Prop :=
  (∀ slot < bb.numInterpreterSlots, ∀ v ∈ st.interpSlotVal slot, (bb.tail slot).isLive = true →
    ∃ c ∈ (match bb.tail slot with | .unmapped c => some c | _ => none), v = .constant c) ∧
  ∀ slot < bb.numInterpreterSlots, st.interpSlotSavedToDfgSlot slot = true →
    (bb.tail slot).isLive = true

instance (st : State) : Decidable (TailOK bb st) := inferInstanceAs (Decidable (_ ∧ _))

/-- `BatchedInsertions::Commit`: the insertions before each node, in the order they were added. -/
def commit (inserts : List (ℕ × Node)) : ℕ → List Node → List Node
  | k, [] => (inserts.filter (·.1 = k)).map Prod.snd
  | k, node :: rest =>
    (inserts.filter (·.1 = k)).map Prod.snd ++ node :: commit inserts (k + 1) rest

/-- `ProcessBasicBlock`, up to `AssertConsistency`; `none` is a failed assertion. -/
def processBasicBlock : Option (List Node) :=
  (processNodes bb 0 bb.nodes .init).bind fun st =>
  testAssert (TailOK bb st) <|
  (processDeaths bb (allSlots bb) (fun _ => true) st).map fun st => commit st.inserts 0 bb.nodes

end PhantomInsertion

end Ir

end Dsom
