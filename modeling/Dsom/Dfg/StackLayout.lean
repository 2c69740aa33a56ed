import Dsom.Dfg.InlineTree

/-!
# Dfg/StackLayout — `StackLayoutPlanningPass`

Each slot of an inlined frame that some `SetLocal` writes gets a physical slot.  The frames are
planned in the order of their ordinals, a frame after its parent: it may take the physical slots of
the parent's slots that are dead during the call (those of its own virtual registers first), then
those its parent has left over, then new ones.
-/

namespace Dsom

/-- An entry of `m_info`. -/
inductive SlotInfo where
  /-- No `SetLocal` writes the slot. -/
  | unused
  /-- The slot needs a physical slot. -/
  | needed
  | physical (ord : ℕ)
  | constant
  deriving DecidableEq, Inhabited

/-- `IsSlotLiveAndMapped`, with the physical slot. -/
def SlotInfo.physical? : SlotInfo → Option ℕ
  | physical ord => some ord
  | _ => none

/-- `InterpreterFrameLocation`. -/
inductive InterpreterFrameLocation where
  | local (localOrd : ℕ)
  | varArg (varArgOrd : ℕ)
  | functionObject
  | numVarArgs
  deriving DecidableEq

/-- A `GetLocal` or a `SetLocal` of the graph. -/
structure LocalOp where
  frameOrd : ℕ
  location : InterpreterFrameLocation
  isSetLocal : Bool
  deriving DecidableEq

namespace InlinedCallFrame

variable (f : InlinedCallFrame)

/-- `m_stackBaseIdx`. -/
def stackBaseIdx : ℕ := f.baseInterpreterFrameSlot - f.frameStart

/-- `m_frameLength`. -/
def frameLength : ℕ := f.stackBaseIdx + f.numBytecodeLocals

/-- `GetInfoAddrForLocation`, as an index. -/
def infoIdx : InterpreterFrameLocation → ℕ
  | .local localOrd => f.stackBaseIdx + localOrd
  | .varArg varArgOrd => varArgOrd
  | .functionObject => f.stackBaseIdx - numSlotsForStackFrameHeader
  | .numVarArgs => f.stackBaseIdx - numSlotsForStackFrameHeader + 1

/-- A slot of the header that holds a constant. -/
def isConstantSlot (idx : ℕ) : Bool :=
  f.maxVariadicArguments ≤ idx ∧ idx < f.stackBaseIdx ∧
    (f.virtualRegisterMappingBeforeThisFrame.getD (f.frameStart + idx) .dead).isLive ∧
    (f.virtualRegisterMappingBeforeThisFrame.getD (f.frameStart + idx) .dead).vreg? = none

/-- `m_info` before slots are assigned. -/
def initInfo (ord : ℕ) (localOps : List LocalOp) : List SlotInfo :=
  (List.range f.frameLength).map fun idx =>
    if localOps.any fun op => op.isSetLocal ∧ op.frameOrd = ord ∧ f.infoIdx op.location = idx then
      .needed
    else if f.isConstantSlot idx then .constant else .unused

/-- The virtual register of a slot of the frame. -/
def vregForSlot (idx : ℕ) : ℕ :=
  if idx < f.stackBaseIdx then
    ((f.virtualRegisterMappingBeforeThisFrame.getD (f.frameStart + idx) .dead).vreg?).getD 0
  else f.getRegisterForLocalOrd (idx - f.stackBaseIdx)

end InlinedCallFrame

/-- `VRegAwarePhysicalSlotFreeList`. -/
structure VRegAwareFreeList where
  phySlotForVReg : ℕ → Option ℕ
  availableVRegs : List ℕ

namespace VRegAwareFreeList

/-- No slot is free. -/
def empty : VRegAwareFreeList := ⟨fun _ => none, []⟩

/-- `AddFree`. -/
def addFree (l : VRegAwareFreeList) (slot : ℕ × ℕ) : VRegAwareFreeList :=
  { phySlotForVReg := Function.update l.phySlotForVReg slot.1 (some slot.2)
    availableVRegs := l.availableVRegs ++ [slot.1] }

/-- `ConsumePhySlotForVReg`. -/
def consume (l : VRegAwareFreeList) (vregOrd : ℕ) : VRegAwareFreeList :=
  { l with phySlotForVReg := Function.update l.phySlotForVReg vregOrd none }

@[simp] theorem phySlotForVReg_addFree (l : VRegAwareFreeList) (slot : ℕ × ℕ) :
    (l.addFree slot).phySlotForVReg
      = Function.update l.phySlotForVReg slot.1 (some slot.2) := rfl

@[simp] theorem availableVRegs_addFree (l : VRegAwareFreeList) (slot : ℕ × ℕ) :
    (l.addFree slot).availableVRegs = l.availableVRegs ++ [slot.1] := rfl

@[simp] theorem phySlotForVReg_consume (l : VRegAwareFreeList) (v : ℕ) :
    (l.consume v).phySlotForVReg = Function.update l.phySlotForVReg v none := rfl

/-- One vreg of `AddAllRemainingPhySlotsToFreeList`. -/
def addRemaining (s : VRegAwareFreeList × FreeList) (vregOrd : ℕ) : VRegAwareFreeList × FreeList :=
  match s.1.phySlotForVReg vregOrd with
  | some ord => (s.1.consume vregOrd, s.2.deallocate ord)
  | none => s

/-- `AddAllRemainingPhySlotsToFreeList`. -/
def addAllRemaining (l : VRegAwareFreeList) (freeList : FreeList) : FreeList :=
  (l.availableVRegs.foldl addRemaining (l, freeList)).2

end VRegAwareFreeList

/-- `InlinedFramePhysicalSlotInfo`: the slots, and the physical slots that are free. -/
structure FrameSlots where
  info : List SlotInfo
  physicalSlots : FreeList
  deriving Inhabited

/-- The slots of the parent whose physical slots are free during the call. -/
def freedSlots (parent f : InlinedCallFrame) (parentInfo : List SlotInfo) : List (ℕ × ℕ) :=
  (List.range parentInfo.length).filterMap fun idx =>
    if idx < f.frameStart - parent.frameStart ∧
        (f.virtualRegisterMappingBeforeThisFrame.getD
        (parent.frameStart + idx) .dead).isLive then none
    else ((parentInfo.getD idx default).physical?).map fun ord => (parent.vregForSlot idx, ord)

/-- The slots of the frame that take over the physical slot of their virtual register. -/
def reuseSlots (f : InlinedCallFrame) : ℕ → List SlotInfo → VRegAwareFreeList →
    List SlotInfo × VRegAwareFreeList
  | _, [], l => ([], l)
  | idx, .needed :: rest, l =>
      match l.phySlotForVReg (f.vregForSlot idx) with
      | some ord =>
          let (rest, l) := reuseSlots f (idx + 1) rest (l.consume (f.vregForSlot idx))
          (.physical ord :: rest, l)
      | none =>
          let (rest, l) := reuseSlots f (idx + 1) rest l
          (.needed :: rest, l)
  | idx, slot :: rest, l =>
      let (rest, l) := reuseSlots f (idx + 1) rest l
      (slot :: rest, l)

/-- The slots that are still without a physical slot get one. -/
def assignSlots : List SlotInfo → FreeList → List SlotInfo × FreeList
  | [], a => ([], a)
  | .needed :: rest, a =>
      let (slots, a') := assignSlots rest a.allocate.2
      (.physical a.allocate.1 :: slots, a')
  | slot :: rest, a =>
      let (slots, a') := assignSlots rest a
      (slot :: slots, a')

section Plan

variable (firstDfgPhysicalSlotForLocal : ℕ) (frames : List InlinedCallFrame)
    (localOps : List LocalOp)

/-- The plan of one frame, after those of the frames before it. -/
def planFrame (planned : List FrameSlots) (ord : ℕ) (f : InlinedCallFrame) : FrameSlots :=
  let info := f.initInfo ord localOps
  match f.parentFrame with
  | none =>
      let (info, physicalSlots) := assignSlots info ⟨[], firstDfgPhysicalSlotForLocal⟩
      { info, physicalSlots }
  | some parentOrd =>
      let parentSlots := planned.getD parentOrd default
      let freed := match frames[parentOrd]? with
        | some parent => freedSlots parent f parentSlots.info
        | none => []
      let (info, l) := reuseSlots f 0 info (freed.foldl VRegAwareFreeList.addFree .empty)
      let (info, physicalSlots) := assignSlots info (l.addAllRemaining parentSlots.physicalSlots)
      { info, physicalSlots }

/-- The plans of the first frames. -/
def planFrames : ℕ → List FrameSlots
  | 0 => []
  | ord + 1 =>
      match frames[ord]? with
      | some f => planFrames ord
          ++ [planFrame firstDfgPhysicalSlotForLocal frames localOps (planFrames ord) ord f]
      | none => planFrames ord

/-- `m_numTotalPhysicalSlots`. -/
def numTotalPhysicalSlots (plan : List FrameSlots) : ℕ :=
  plan.foldl (fun n slots => max n slots.physicalSlots.firstAvailableOrdinal) 0

/-- `RunPassImpl`; the limit of the number of slots aborts. -/
def runStackLayoutPlanningPass : Option (List FrameSlots × ℕ) :=
  let plan := planFrames firstDfgPhysicalSlotForLocal frames localOps frames.length
  if numTotalPhysicalSlots plan < 32400 then some (plan, numTotalPhysicalSlots plan) else none

end Plan

end Dsom
