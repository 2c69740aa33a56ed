import Dsom.Jit.BranchInst
import Mathlib.Data.List.Basic

/-!
# Jit/CodeLayout — the order of the blocks and their code

The blocks are put in the order in which a depth-first search finds them.  The first pass decides
for every block where its code begins, how it ends and how it is padded; the second pass emits the
code.  The code of the nodes of a block is not described: an operation of the codegen log writes a
number of bytes that is known, and maybe a few more that are overwritten later.  What it writes to
the slow path and to the data section, which lie elsewhere, is left out.
-/

namespace Dsom

namespace CodeLayout

open X64

/-- The blocks of a function, the entry first, and the successors of each. -/
structure Graph where
  blocks : List ℕ
  successors : ℕ → List ℕ

namespace Graph

variable (g : Graph)

/-- `GetEntryBB`. -/
def getEntryBB : ℕ := g.blocks.headD 0

/-- What `CheckCfgConsistent` and the search check of a graph. -/
structure WellFormed : Prop where
  nonempty : g.blocks ≠ []
  nodup : g.blocks.Nodup
  closed : ∀ b ∈ g.blocks, ∀ s ∈ g.successors b, s ∈ g.blocks
  le_two : ∀ b ∈ g.blocks, (g.successors b).length ≤ 2
  /-- The entry block has no predecessors. -/
  entry : ∀ b ∈ g.blocks, g.getEntryBB ∉ g.successors b

/-- One block follows another. -/
def Succ (b b' : ℕ) : Prop := b' ∈ g.successors b

/-- Some path leads from one block to another. -/
def Reach : ℕ → ℕ → Prop := Relation.ReflTransGen g.Succ

end Graph

/-! ## Terminators -/

/-- How a block can end. -/
inductive Kind where
  | condBr
  | uncondBr
  | noSuccessor
  | endOfEnum
  deriving DecidableEq

/-- Where the branch decision is at the end of a block. -/
inductive TestValue where
  | reg (testReg : Fin 16)
  | slot (testPhysicalSlot : BitVec 16)
  deriving DecidableEq

/-- `BasicBlockTerminatorCodegenInfo`; there is a test value once it is initialized. -/
structure TerminatorInfo where
  kind : Kind := .endOfEnum
  isTestForNonZero : Bool := false
  isDefaultTargetFallthrough : Bool := false
  testValue : Option TestValue := none
  defaultTargetOrd : ℕ := 2 ^ 32 - 1
  branchTargetOrd : ℕ := 2 ^ 32 - 1
  deriving DecidableEq

namespace TerminatorInfo

variable (t : TerminatorInfo)

/-- `InitUnconditionalBranch`: nothing is emitted if the target is the next block. -/
def initUnconditionalBranch (selfOrd destOrd : ℕ) : TerminatorInfo :=
  { t with
    kind := .uncondBr
    isDefaultTargetFallthrough := selfOrd + 1 = destOrd
    defaultTargetOrd := destOrd }

/-- Branch to `branchDestOrd` if the test value is not zero. -/
def initCondBranch (selfOrd defaultDestOrd branchDestOrd : ℕ) : TerminatorInfo :=
  if defaultDestOrd = branchDestOrd then t.initUnconditionalBranch selfOrd defaultDestOrd
  else if branchDestOrd = selfOrd + 1 then
    -- the test is for zero, so that the default is the block that follows
    { t with
      kind := .condBr
      isTestForNonZero := false
      isDefaultTargetFallthrough := true
      defaultTargetOrd := branchDestOrd
      branchTargetOrd := defaultDestOrd }
  else
    { t with
      kind := .condBr
      isTestForNonZero := true
      isDefaultTargetFallthrough := defaultDestOrd = selfOrd + 1
      defaultTargetOrd := defaultDestOrd
      branchTargetOrd := branchDestOrd }

/-- `InitNoSuccessor`. -/
def initNoSuccessor : TerminatorInfo := { t with kind := .noSuccessor }

/-- `SetConditionValueAsReg` and `SetConditionValueAsStackSlot`. -/
def setConditionValue (v : TestValue) : TerminatorInfo := { t with testValue := some v }

/-- `GetJITCodeLength`: the test, the branch, and the jump that may follow. -/
def getJITCodeLength : ℕ :=
  match t.kind with
  | .noSuccessor => 2
  | .uncondBr => if t.isDefaultTargetFallthrough then 0 else 5
  | _ =>
    (match t.testValue with
      | some (.reg _) => 3
      | _ => 8) + 6 + if t.isDefaultTargetFallthrough then 0 else 5

end TerminatorInfo

/-- `BasicBlockCodegenInfo`. -/
structure BlockInfo where
  bb : ℕ
  terminatorInfo : TerminatorInfo := {}
  fastPathStartOffset : ℕ := 2 ^ 32 - 1
  expectedFastPathOffsetAfterLogReplay : ℕ := 0
  isOnDfsStack : Bool := false
  isReachedByBackEdge : Bool := false
  shouldPadFastPathTo16ByteAlignmentAtEnd : Bool := false
  addNopBytesAtEnd : ℕ := 255

/-! ## The order of the blocks

By a depth-first search that puts the default successor next. -/

/-- `m_bbOrder` and `m_ordInCodegenOrder`. -/
structure Plan where
  bbOrder : List BlockInfo
  ordInCodegenOrder : ℕ → Option ℕ

namespace Plan

variable (p : Plan)

/-- A block that was found is the last. -/
def push (bb : ℕ) : Plan where
  bbOrder := p.bbOrder ++ [{ bb := bb, isOnDfsStack := true }]
  ordInCodegenOrder := fun b => if b = bb then some p.bbOrder.length else p.ordInCodegenOrder b

/-- One block of the plan changes. -/
def modify (ord : ℕ) (f : BlockInfo → BlockInfo) : Plan :=
  { p with bbOrder := p.bbOrder.modify ord f }

/-- An edge leads to a block that was found before. -/
def markBackEdge (ord : ℕ) : Plan := p.modify ord fun info =>
  if info.isOnDfsStack then { info with isReachedByBackEdge := true } else info

/-- A block is left, and it is known how it ends. -/
def leave (ord : ℕ) (init : TerminatorInfo → TerminatorInfo) : Plan := p.modify ord fun info =>
  { info with terminatorInfo := init info.terminatorInfo, isOnDfsStack := false }

end Plan

/-- `DfsBasicBlock`: the place of a block in the order. -/
def dfsBasicBlock (g : Graph) : ℕ → Plan → ℕ → Option (ℕ × Plan)
  | 0, _, _ => none
  | fuel + 1, p, bb =>
    match p.ordInCodegenOrder bb with
    | some ord => some (ord, p.markBackEdge ord)
    | none =>
      let selfOrd := p.bbOrder.length
      let p := p.push bb
      match g.successors bb with
      | [] => some (selfOrd, p.leave selfOrd fun t => t.initNoSuccessor)
      | [succ] =>
        (dfsBasicBlock g fuel p succ).map fun (destOrd, p) =>
          (selfOrd, p.leave selfOrd fun t => t.initUnconditionalBranch selfOrd destOrd)
      | defaultSucc :: branchSucc :: _ =>
        (dfsBasicBlock g fuel p defaultSucc).bind fun (defaultDestOrd, p) =>
        (dfsBasicBlock g fuel p branchSucc).map fun (branchDestOrd, p) =>
          (selfOrd, p.leave selfOrd fun t => t.initCondBranch selfOrd defaultDestOrd branchDestOrd)

/-- A block before one that a back edge leads to is padded. -/
def padBlocks : List BlockInfo → List BlockInfo
  | info :: next :: rest =>
    { info with
      shouldPadFastPathTo16ByteAlignmentAtEnd :=
        info.shouldPadFastPathTo16ByteAlignmentAtEnd || next.isReachedByBackEdge } ::
      padBlocks (next :: rest)
  | l => l

/-- `PlanBasicBlockOrder`. -/
def planBasicBlockOrder (fuel : ℕ) (g : Graph) : Option (List BlockInfo) :=
  (dfsBasicBlock g fuel ⟨[], fun _ => none⟩ g.getEntryBB).map fun (_, p) => padBlocks p.bbOrder

/-! ## The first pass

It adds up the lengths of the code. -/

/-- The code of a part of a block: its length, and what it writes to an address and after it. -/
structure CodegenOp where
  len : ℕ
  doCodegen : Memory → ℕ → Memory
  /-- At most seven bytes after the code may be overwritten. -/
  frame : ∀ mem addr a, a < addr ∨ addr + len + 7 ≤ a → doCodegen mem addr a = mem a

/-- What the layout is given: the function entry and, for every block, its codegen log and the place
of its branch decision. -/
structure Input where
  functionEntry : CodegenOp
  codegenLog : ℕ → List CodegenOp
  conditionValue : ℕ → TestValue
  jitRegionStart : ℕ
  totalJitDataSectionLen : ℕ

/-- Padding up to a multiple of 16. -/
def roundUp16 (n : ℕ) : ℕ := (n + 15) / 16 * 16

/-- `ProcessBasicBlock`, as far as it lays out the block: the length of the code before the block
becomes that of the code with the block. -/
def processBasicBlock (g : Graph) (input : Input) (fastPathLength : ℕ) (cbb : BlockInfo) :
    ℕ × BlockInfo :=
  let start := fastPathLength
  let fastPathLength := fastPathLength + ((input.codegenLog cbb.bb).map CodegenOp.len).sum
  let replayed := fastPathLength
  let terminatorInfo := if (g.successors cbb.bb).length = 2 then
      cbb.terminatorInfo.setConditionValue (input.conditionValue cbb.bb)
    else cbb.terminatorInfo
  let fastPathLength := fastPathLength + terminatorInfo.getJITCodeLength
  let nops := if cbb.shouldPadFastPathTo16ByteAlignmentAtEnd then
      roundUp16 fastPathLength - fastPathLength
    else 0
  (fastPathLength + nops, { cbb with
    terminatorInfo := terminatorInfo
    fastPathStartOffset := start
    expectedFastPathOffsetAfterLogReplay := replayed
    addNopBytesAtEnd := nops })

/-- The loop over the blocks. -/
def processBlocks (g : Graph) (input : Input) : ℕ → List BlockInfo → ℕ × List BlockInfo
  | fastPathLength, [] => (fastPathLength, [])
  | fastPathLength, cbb :: rest =>
    let (fastPathLength, cbb) := processBasicBlock g input fastPathLength cbb
    let (fastPathLength, rest) := processBlocks g input fastPathLength rest
    (fastPathLength, cbb :: rest)

/-- The length of the fast path, and the blocks in their order. -/
structure Layout where
  totalJitFastPathSectionLen : ℕ
  bbOrder : List BlockInfo

/-- The first pass: an order of the blocks, and then their offsets. -/
def layout (fuel : ℕ) (g : Graph) (input : Input) : Option Layout :=
  (planBasicBlockOrder fuel g).map fun bbOrder =>
    let (len, bbOrder) := processBlocks g input input.functionEntry.len bbOrder
    ⟨len, bbOrder⟩

/-! ## The second pass

It emits the code at the addresses that are known by then. -/

/-- The address of the fast path. -/
def Input.fastPathBaseAddr (input : Input) : ℕ :=
  input.jitRegionStart + roundUp16 (if 0 < input.totalJitDataSectionLen
    then input.totalJitDataSectionLen + 7 else input.totalJitDataSectionLen)

/-- One operation of the log writes its code and goes on behind it. -/
def runCodegenOp (c : CodePtr) (op : CodegenOp) : CodePtr :=
  ⟨op.doCodegen c.mem c.addr, c.addr + op.len⟩

/-- The test of the branch decision. -/
def TestValue.emit (v : TestValue) (c : CodePtr) : CodePtr :=
  match v with
  | .reg testReg => c.emitTestRegRegInstruction testReg
  | .slot testPhysicalSlot =>
    -- `%rbx` is the base of the stack
    c.emitI64CmpBaseImm32OffsetZeroInstruction 3 (8 * testPhysicalSlot.setWidth 32)

/-- `EmitJITCode`; `none` if a target is too far away. -/
def TerminatorInfo.emitJITCode (t : TerminatorInfo) (jitFastPathBaseAddr : ℕ)
    (bbOrder : List BlockInfo) (c : CodePtr) : Option CodePtr :=
  let getDestAddr (bbOrd : ℕ) : Option ℕ :=
    (bbOrder[bbOrd]?).map fun info => jitFastPathBaseAddr + info.fastPathStartOffset
  let emitDefault (c : CodePtr) : Option CodePtr :=
    if t.isDefaultTargetFallthrough then some c
    else (getDestAddr t.defaultTargetOrd).bind c.emitJmpInstruction
  match t.kind with
  | .noSuccessor => some c.emitUd2Instruction
  | .uncondBr => emitDefault c
  | .condBr =>
    match t.testValue with
    | none => none
    | some v =>
      let c := v.emit c
      ((getDestAddr t.branchTargetOrd).bind fun dest =>
        if t.isTestForNonZero then c.emitJneInstruction dest else c.emitJeInstruction dest).bind
        emitDefault
  | .endOfEnum => none

/-- `CodegenBasicBlock`. -/
def codegenBasicBlock (input : Input) (bbOrder : List BlockInfo) (c : CodePtr) (cbb : BlockInfo) :
    Option CodePtr :=
  let c := (input.codegenLog cbb.bb).foldl runCodegenOp c
  (cbb.terminatorInfo.emitJITCode input.fastPathBaseAddr bbOrder c).map fun c =>
    if 0 < cbb.addNopBytesAtEnd then c.store (getX64MultiByteNOPInst cbb.addNopBytesAtEnd) else c

/-- `DoCodegen`: the function entry, the blocks, and what fills the gap after them. -/
def doCodegen (input : Input) (lay : Layout) (mem : Memory) : Option CodePtr :=
  let c := runCodegenOp ⟨mem, input.fastPathBaseAddr⟩ input.functionEntry
  (lay.bbOrder.foldlM (codegenBasicBlock input lay.bbOrder) c).map fun c =>
    (c.emitUd2Instruction).store (getX64MultiByteNOPInst 5)

end CodeLayout

end Dsom
