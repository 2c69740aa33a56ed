import Dsom.Foundations.FreeList
import Dsom.Compiler.Compile
import Mathlib.Algebra.Group.Nat.Defs

/-!
# Dfg/InlinedFrame — the frames of a speculative inlining tree

A frame keeps its variadic arguments, a header of four slots and its locals in consecutive slots of
the interpreter's stack, and a virtual register for each slot that is not a constant.  `inlineCall`
is the part of `TrySpeculativeInliningSlowPath` that lays out a callee: its base slot, its registers
(`VirtualRegisterAllocator`), and what it records about the slots below its base.
-/

namespace Dsom

/-- `VirtualRegisterMappingInfo`: what an interpreter slot holds. -/
inductive VirtualRegisterMappingInfo where
  | dead
  | vreg (ord : ℕ)
  | unmapped (value : ℕ)
  deriving DecidableEq

namespace VirtualRegisterMappingInfo

/-- `IsLive`. -/
def isLive : VirtualRegisterMappingInfo → Bool
  | dead => false
  | _ => true

/-- `GetVirtualRegister`, of a slot that has one. -/
def vreg? : VirtualRegisterMappingInfo → Option ℕ
  | vreg ord => some ord
  | _ => none

@[simp] theorem vreg?_dead : vreg? dead = none := rfl

@[simp] theorem vreg?_vreg (r : ℕ) : vreg? (vreg r) = some r := rfl

/-- A slot that holds a constant is in no register. -/
@[simp] theorem vreg?_unmapped (v : ℕ) : vreg? (unmapped v) = none := rfl

end VirtualRegisterMappingInfo

/-- `BytecodeLiveness::CalculationPoint`. -/
inductive CalculationPoint where
  | beforeUse
  | afterUse
  deriving DecidableEq

/-- A function that may be inlined. -/
structure CodeBlock where
  numFixedArguments : ℕ
  stackFrameNumSlots : ℕ
  hasVariadicArguments : Bool
  /-- `GetLiveness`. -/
  liveness : ℕ → CalculationPoint → ℕ → Bool
  fixed_le : numFixedArguments ≤ stackFrameNumSlots

/-- `InlinedCallFrame`, with the state of the register allocator in which its body is translated and
the liveness of its caller's locals at the call. -/
structure InlinedCallFrame where
  codeBlock : CodeBlock
  parentFrame : Option ℕ
  parentFrameForReturn : Option ℕ
  isTailCall : Bool
  maxVariadicArguments : ℕ
  baseInterpreterFrameSlot : ℕ
  localToRegisterMap : List ℕ
  variadicArgumentToRegisterMap : List ℕ
  functionObjectVR : Option ℕ
  numVarArgsVR : Option ℕ
  virtualRegisterMappingBeforeThisFrame : List VirtualRegisterMappingInfo
  parentFrameLocalLiveness : ℕ → Bool
  vrState : FreeList

namespace InlinedCallFrame

variable (f : InlinedCallFrame)

/-- `GetNumBytecodeLocals`. -/
def numBytecodeLocals : ℕ := f.codeBlock.stackFrameNumSlots

/-- `GetInterpreterSlotForFrameStart`, which is 0 for the root frame. -/
def frameStart : ℕ :=
  f.baseInterpreterFrameSlot - numSlotsForStackFrameHeader - f.maxVariadicArguments

/-- `GetInterpreterSlotForFrameEnd`. -/
def frameEnd : ℕ := f.baseInterpreterFrameSlot + f.numBytecodeLocals

/-- `GetRegisterForLocalOrd`. -/
def getRegisterForLocalOrd (localOrd : ℕ) : ℕ := f.localToRegisterMap.getD localOrd 0

/-- The registers of the slots before the base: variadic arguments, function object, argument
count. -/
def headRegisters : List ℕ :=
  f.variadicArgumentToRegisterMap ++ f.functionObjectVR.toList ++ f.numVarArgsVR.toList

/-- All registers of a frame. -/
def registers : List ℕ := f.localToRegisterMap ++ f.headRegisters

/-- The registers that hold live slots of the ancestors. -/
def ancestorRegisters : List ℕ :=
  (f.virtualRegisterMappingBeforeThisFrame.take f.frameStart).filterMap
    VirtualRegisterMappingInfo.vreg?

end InlinedCallFrame

/-- `CreateRootFrame`. -/
def createRootFrame (codeBlock : CodeBlock) : InlinedCallFrame :=
  let (regs, vra) := FreeList.assign (List.replicate codeBlock.stackFrameNumSlots none) ⟨[], 0⟩
  { codeBlock
    parentFrame := none
    parentFrameForReturn := none
    isTailCall := false
    maxVariadicArguments := 0
    baseInterpreterFrameSlot := 0
    localToRegisterMap := regs
    variadicArgumentToRegisterMap := []
    functionObjectVR := none
    numVarArgsVR := none
    virtualRegisterMappingBeforeThisFrame := []
    parentFrameLocalLiveness := fun _ => false
    vrState := vra }

/-- Locals of the caller that are passed on as arguments, from `rangeLocationInArgs` on. -/
structure RangeArgs where
  rangeStart : ℕ
  rangeLen : ℕ
  rangeLocationInArgs : ℕ
  deriving DecidableEq

/-- A call that is inlined: the trait of its bytecode, and its only target. -/
structure CallSite where
  bcIndex : ℕ
  isTailCall : Bool
  isInPlaceCall : Bool
  returnContinuationIsTrivial : Bool
  rangeArgs : Option RangeArgs
  numExtraOutputs : ℕ
  appendsVariadicResultsToArgs : Bool
  /-- The number of variadic results, if it is known. -/
  staticVariadicRes : Option ℕ
  maxObservedNumVariadicArgs : ℕ
  /-- The function object of a direct call; a closure call has none. -/
  directCallTarget : Option ℕ
  callee : CodeBlock

namespace CallSite

variable (site : CallSite) (caller : InlinedCallFrame)

/-- What the inliner asserts about a call. -/
structure Legal : Prop where
  range : ∀ r ∈ site.rangeArgs, numSlotsForStackFrameHeader ≤ r.rangeStart ∧
    r.rangeStart + r.rangeLen ≤ caller.numBytecodeLocals
  inPlace : site.isTailCall = false → site.isInPlaceCall = true →
    ∃ r ∈ site.rangeArgs, r.rangeLocationInArgs = 0

/-- `numStaticArgs`. -/
def numStaticArgs : ℕ := site.numExtraOutputs + (site.rangeArgs.map RangeArgs.rangeLen).getD 0

/-- `canStaticallyDetermineNumVarArgs`. -/
def canStaticallyDetermineNumVarArgs : Bool :=
  !site.callee.hasVariadicArguments || !site.appendsVariadicResultsToArgs
    || site.staticVariadicRes.isSome

/-- `maxNumVarArgs`. -/
def maxNumVarArgs : ℕ :=
  if !site.callee.hasVariadicArguments then 0
  else if !site.appendsVariadicResultsToArgs then
    site.numStaticArgs - site.callee.numFixedArguments
  else
    match site.staticVariadicRes with
    | some numStaticVariadicRes =>
        site.numStaticArgs + numStaticVariadicRes - site.callee.numFixedArguments
    | none =>
        max (site.numStaticArgs - site.callee.numFixedArguments) site.maxObservedNumVariadicArgs

/-- `argValueListLength`. -/
def argValueListLength : ℕ := site.callee.numFixedArguments + site.maxNumVarArgs

/-- `rangeStart`, of a call in place. -/
def rangeStart : ℕ := (site.rangeArgs.map RangeArgs.rangeStart).getD 0

/-- `newFrameInterpreterBaseOrd`. -/
def newFrameInterpreterBaseOrd : ℕ :=
  if site.isTailCall then
    caller.frameStart + site.maxNumVarArgs + numSlotsForStackFrameHeader
  else if site.isInPlaceCall then
    caller.baseInterpreterFrameSlot + site.rangeStart + site.maxNumVarArgs
  else caller.frameEnd + site.maxNumVarArgs + numSlotsForStackFrameHeader

/-- `canReuseRangeArgRegs`, with the range. -/
def reusedRange : Option RangeArgs :=
  if site.isTailCall || site.isInPlaceCall then site.rangeArgs else none

/-- `numSurvivingLocalsInCurrentFrame`. -/
def numSurvivingLocals : ℕ :=
  if site.isTailCall then 0
  else if site.isInPlaceCall then site.rangeStart - numSlotsForStackFrameHeader
  else caller.numBytecodeLocals

/-- `parentFrameLocalLiveness`. -/
def parentFrameLocalLiveness (localOrd : ℕ) : Bool :=
  caller.codeBlock.liveness site.bcIndex
    (if site.returnContinuationIsTrivial then .afterUse else .beforeUse) localOrd

/-- The register of a local is passed on to the callee. -/
def isPassed (localOrd : ℕ) : Bool :=
  match site.reusedRange with
  | none => false
  | some r => r.rangeStart ≤ localOrd ∧ localOrd < r.rangeStart + r.rangeLen ∧
      r.rangeLocationInArgs + (localOrd - r.rangeStart) < site.argValueListLength

/-- The locals whose registers are given back. -/
def freedLocals : List ℕ :=
  if site.isTailCall then
    (List.range caller.numBytecodeLocals).filter fun localOrd => !site.isPassed localOrd
  else
    (List.range' (site.numSurvivingLocals caller)
      (caller.numBytecodeLocals - site.numSurvivingLocals caller)).filter
        (fun localOrd => !site.isPassed localOrd)
    ++ (List.range (site.numSurvivingLocals caller)).filter
        fun localOrd => !site.parentFrameLocalLiveness caller localOrd

/-- The registers given back, in their order. -/
def freedRegisters : List ℕ :=
  (if site.isTailCall then caller.headRegisters else [])
    ++ (site.freedLocals caller).map caller.getRegisterForLocalOrd

/-- Which register of the caller an argument comes with. -/
def argRegister (r : RangeArgs) (ordInArgSeq : ℕ) : Option ℕ :=
  if r.rangeLocationInArgs ≤ ordInArgSeq ∧ ordInArgSeq < r.rangeLocationInArgs + r.rangeLen then
    some (caller.getRegisterForLocalOrd (r.rangeStart + (ordInArgSeq - r.rangeLocationInArgs)))
  else none

/-- The registers of the locals and of the variadic arguments. -/
def assignLocals (vrState : FreeList) : List ℕ × List ℕ × FreeList :=
  match site.reusedRange with
  | some r =>
      let (args, vrState) :=
        FreeList.assign ((List.range site.argValueListLength).map (argRegister caller r)) vrState
      let (rest, vrState) := FreeList.assign
        (List.replicate (site.callee.stackFrameNumSlots - site.callee.numFixedArguments) none)
        vrState
      (args.take site.callee.numFixedArguments ++ rest, args.drop site.callee.numFixedArguments,
        vrState)
  | none =>
      let (locals, vrState) :=
        FreeList.assign (List.replicate site.callee.stackFrameNumSlots none) vrState
      let (varArgs, vrState) := FreeList.assign (List.replicate site.maxNumVarArgs none) vrState
      (locals, varArgs, vrState)

/-- A register, unless the slot is a constant. -/
def assignUnless (isConstant : Bool) (vrState : FreeList) : Option ℕ × FreeList :=
  if isConstant then (none, vrState) else (some vrState.allocate.1, vrState.allocate.2)

/-- The slots of the caller that the call leaves alone. -/
def survivingSlots : List VirtualRegisterMappingInfo :=
  if site.isTailCall then caller.virtualRegisterMappingBeforeThisFrame.take caller.frameStart
  else caller.virtualRegisterMappingBeforeThisFrame
    ++ (List.range (site.numSurvivingLocals caller)).map fun localOrd =>
      if site.parentFrameLocalLiveness caller localOrd then
        .vreg (caller.getRegisterForLocalOrd localOrd)
      else .dead

end CallSite

/-- `GetParentFrameForReturn`. -/
def parentFrameForReturn (callerOrd : ℕ) (caller : InlinedCallFrame) (site : CallSite) : Option ℕ :=
  if site.isTailCall then caller.parentFrameForReturn else some callerOrd

/-- The header of a frame; its return address is not filled in yet. -/
def stackFrameHeader (frames : List InlinedCallFrame) (site : CallSite)
    (functionObjectVR numVarArgsVR returnTo : Option ℕ) : List VirtualRegisterMappingInfo :=
  [match functionObjectVR with
    | some r => .vreg r
    | none => .unmapped (site.directCallTarget.getD 0),
   match numVarArgsVR with
    | some r => .vreg r
    | none => .unmapped site.maxNumVarArgs,
   .unmapped 0,
   .unmapped (match returnTo with
    | some ord => (frames[ord]?.map InlinedCallFrame.baseInterpreterFrameSlot).getD 0
    | none => 2 ^ 30 - 1)]

/-- The frame of a call that is inlined. -/
def inlineCall (frames : List InlinedCallFrame) (callerOrd : ℕ) (caller : InlinedCallFrame)
    (site : CallSite) : InlinedCallFrame :=
  let freed := (site.freedRegisters caller).foldl FreeList.deallocate caller.vrState
  let (locals, varArgs, vrState) := site.assignLocals caller freed
  let (numVarArgsVR, vrState) :=
    CallSite.assignUnless site.canStaticallyDetermineNumVarArgs vrState
  let (functionObjectVR, vrState) := CallSite.assignUnless site.directCallTarget.isSome vrState
  { codeBlock := site.callee
    parentFrame := some callerOrd
    parentFrameForReturn := parentFrameForReturn callerOrd caller site
    isTailCall := site.isTailCall
    maxVariadicArguments := site.maxNumVarArgs
    baseInterpreterFrameSlot := site.newFrameInterpreterBaseOrd caller
    localToRegisterMap := locals
    variadicArgumentToRegisterMap := varArgs
    functionObjectVR
    numVarArgsVR
    virtualRegisterMappingBeforeThisFrame := site.survivingSlots caller
      ++ varArgs.map .vreg
      ++ stackFrameHeader frames site functionObjectVR numVarArgsVR
        (parentFrameForReturn callerOrd caller site)
    parentFrameLocalLiveness := site.parentFrameLocalLiveness caller
    vrState }

/-- **The trees of inlined frames**, by their ordinals: any legal call of any frame may be inlined
next. -/
inductive InlineTree : List InlinedCallFrame → Prop
  | root (codeBlock : CodeBlock) : InlineTree [createRootFrame codeBlock]
  | inline {frames : List InlinedCallFrame} {callerOrd : ℕ} {caller : InlinedCallFrame}
      {site : CallSite} : InlineTree frames → frames[callerOrd]? = some caller →
      site.Legal caller → InlineTree (frames ++ [inlineCall frames callerOrd caller site])

end Dsom
