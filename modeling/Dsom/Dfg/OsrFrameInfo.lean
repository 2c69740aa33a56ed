import Dsom.Dfg.StackLayout

/-!
# Dfg/OsrFrameInfo — the interpreter's frames at an OSR exit

The stack layout records for each inlined frame where its slots are: in the constant table, or in a
physical slot.  `reconstructInterpreterFramesBaseInfo` fills the slots of the interpreter from these
records, from the innermost frame outwards, and cuts each frame off where its callee starts.

A record has its start and its length in 16 bits.  The record of the parent is named by the ordinal
of its frame.
-/

namespace Dsom

/-! ## The constant table

The ordinals are negative: the boxed constants from -1 down, then the unboxed ones. -/

/-- A `Constant` or an `UnboxedConstant` node; there is one node for a value. -/
inductive ConstantNode where
  | boxed (value : ℕ)
  | unboxed (value : ℕ)
  deriving DecidableEq

/-- `m_finalConstantTable` and `m_constantTableForUnboxedConstants`. -/
structure ConstantTable where
  boxed : List ℕ
  unboxed : List ℕ

namespace ConstantTable

variable (t : ConstantTable)

/-- `ReserveSlotInConstantTable`. -/
def reserve : ConstantNode → ConstantTable
  | .boxed value => if value ∈ t.boxed then t else { t with boxed := t.boxed ++ [value] }
  | .unboxed value => if value ∈ t.unboxed then t else { t with unboxed := t.unboxed ++ [value] }

/-- The table after `FinalizeConstantTable`. -/
def final : List ℕ := t.boxed ++ t.unboxed

/-- `GetOrdInConstantTable`, after `FinalizeConstantTable`. -/
def ord : ConstantNode → ℤ
  | .boxed value => -(t.boxed.idxOf value : ℤ) - 1
  | .unboxed value => -(t.unboxed.idxOf value : ℤ) - 1 - t.boxed.length

end ConstantTable

/-- The constants in the header of a frame. -/
def InlinedCallFrame.headerConstants (f : InlinedCallFrame) : List ConstantNode :=
  if f.parentFrame.isNone then []
  else (List.range numSlotsForStackFrameHeader).filterMap fun ord =>
    match f.virtualRegisterMappingBeforeThisFrame[f.baseInterpreterFrameSlot
        - numSlotsForStackFrameHeader + ord]? with
    | some (.unmapped value) => some (.unboxed value)
    | _ => none

/-! ## The records

One for every frame, with a 16-bit number for each of its slots. -/

/-- `DfgInlinedCallFrameOsrInfo`. -/
structure DfgInlinedCallFrameOsrInfo where
  parentFrameOsrInfo : Option ℕ
  frameStartSlot : ℕ
  frameBaseSlot : ℕ
  frameFullLength : ℕ
  values : List ℤ

namespace DfgInlinedCallFrameOsrInfo

variable (info : DfgInlinedCallFrameOsrInfo)

/-- `GetInterpreterFramesTotalNumSlots`. -/
def getInterpreterFramesTotalNumSlots : ℕ := info.frameStartSlot + info.frameFullLength

end DfgInlinedCallFrameOsrInfo

/-- What is recorded for a slot; `vrmi` is what the frame knows about it. -/
def SlotInfo.value (t : ConstantTable) (vrmi : VirtualRegisterMappingInfo) : SlotInfo → ℤ
  | unused => 0
  | needed => 1
  | physical ord => ord
  | constant =>
    match vrmi with
    | .unmapped value => t.ord (.unboxed value)
    | _ => 0

/-- The record of a frame. -/
def osrInfo (t : ConstantTable) (f : InlinedCallFrame) (slots : FrameSlots) :
    DfgInlinedCallFrameOsrInfo where
  parentFrameOsrInfo := f.parentFrame
  frameStartSlot := f.frameStart % 2 ^ 16
  frameBaseSlot := (f.frameStart + f.stackBaseIdx) % 2 ^ 16
  frameFullLength := f.frameLength % 2 ^ 16
  values := slots.info.mapIdx fun idx slot => (slot.value t
    (f.virtualRegisterMappingBeforeThisFrame.getD (f.frameStart + idx) .dead)).bmod (2 ^ 16)

/-- `StackLayoutPlanningResult`. -/
structure StackLayoutPlanningResult where
  constantTable : ConstantTable
  plan : List FrameSlots
  numTotalPhysicalSlots : ℕ
  inlineFrameOsrInfo : List DfgInlinedCallFrameOsrInfo

/-- `x_dfg_reg_alloc_num_gprs` and `x_dfg_reg_alloc_num_fprs`. -/
def regSpillAreaNumSlots : ℕ := 7 + 6

/-- `RunPass`, on a graph with the constants `operands`; a table that is too long aborts. -/
def runPass (numFixedArgsInRootFunction : ℕ) (frames : List InlinedCallFrame)
    (localOps : List LocalOp) (operands : List ConstantNode) : Option StackLayoutPlanningResult :=
  let t := (frames.flatMap InlinedCallFrame.headerConstants ++ operands).foldl
    ConstantTable.reserve ⟨[], []⟩
  if t.final.length < 32400 then
    (runStackLayoutPlanningPass (numFixedArgsInRootFunction + regSpillAreaNumSlots) frames
      localOps).map fun r => ⟨t, r.1, r.2, List.zipWith (osrInfo t) frames r.1⟩
  else none

/-! ## Reconstruction

From the innermost frame outward, along the parents. -/

section Reconstruct

variable {V : Type} (constantTableEnd dfgStackBase : ℤ → V)

/-- What is stored for a recorded value. -/
def loadValue (val : ℤ) : V := if val < 0 then constantTableEnd val else dfgStackBase val

/-- One round of the loop: the slots from `frameStart` to `frameEnd`.  `none` is a read behind the
end of `m_values`. -/
def fillValues (curFrame : DfgInlinedCallFrameOsrInfo) (frameStart frameEnd : ℕ) :
    Option (List (ℕ × V)) :=
  (List.range ((frameEnd + 2 ^ 64 - frameStart) % 2 ^ 64)).mapM fun i =>
    (curFrame.values[i]?).map fun val =>
      (frameStart + i, loadValue constantTableEnd dfgStackBase val)

/-- `ReconstructInterpreterFramesBaseInfoImpl`, with `fuel` for the loop: what is stored to which
slot, in order. -/
def reconstructLoop (infos : List DfgInlinedCallFrameOsrInfo) :
    ℕ → DfgInlinedCallFrameOsrInfo → ℕ → ℕ → Option (List (ℕ × V))
  | fuel, curFrame, frameStart, frameEnd => do
    let written ← fillValues constantTableEnd dfgStackBase curFrame frameStart frameEnd
    if frameStart = 0 then some written
    else
      match fuel with
      | 0 => none
      | fuel + 1 => do
        let parentOrd ← curFrame.parentFrameOsrInfo
        let parent ← infos[parentOrd]?
        let rest ← reconstructLoop infos fuel parent parent.frameStartSlot frameStart
        some (written ++ rest)

/-- `ReconstructInterpreterFramesBaseInfo`. -/
def reconstructInterpreterFramesBaseInfo (infos : List DfgInlinedCallFrameOsrInfo)
    (info : DfgInlinedCallFrameOsrInfo) : Option (List (ℕ × V)) :=
  reconstructLoop constantTableEnd dfgStackBase infos infos.length info info.frameStartSlot
    (info.frameStartSlot + info.frameFullLength)

end Reconstruct

end Dsom
