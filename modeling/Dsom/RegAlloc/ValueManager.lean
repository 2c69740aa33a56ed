import Dsom.Osr.MapBuilder
import Dsom.Foundations.Ensures
import Mathlib.Data.Finset.Card
import Mathlib.Order.Interval.Finset.Nat

/-!
# RegAlloc/ValueManager — where each SSA value lives while a block is compiled

`RegAllocValueManager` of `drt/dfg_reg_alloc_value_manager.h` tracks, for every SSA value of one
basic block, its register in either bank and its spill slot, and keeps the OSR exit map pointing at
one of them.  An operation is a partial function on the manager; `none` is a failed assertion.

Every operation also logs code.  `machine` is what the logged code leaves in the registers and the
frame: the SSA value each location holds, if any.
-/

namespace Dsom

namespace RegAlloc

/-- The template parameter `forGprState`. -/
inductive RegBank where
  | gpr
  | fpr
  deriving DecidableEq

/-- `x_dfg_reg_alloc_num_gprs` and `x_dfg_reg_alloc_num_fprs`. -/
def RegBank.numRegs : RegBank → ℕ
  | .gpr => 7
  | .fpr => 6

/-- The other bank. -/
def RegBank.other : RegBank → RegBank
  | .gpr => .fpr
  | .fpr => .gpr

/-- A register, by its ordinal in the list of its bank. -/
structure Reg where
  bank : RegBank
  ord : ℕ
  deriving DecidableEq

/-- What code can read and write. -/
inductive Loc where
  | reg (r : Reg)
  | stack (physicalSlot : ℕ)
  | tempReg
  deriving DecidableEq

/-- **The physical frame**: the register spill area, the locals, then the spill slots. -/
structure FrameLayout where
  numTotalShadowStackSlots : ℕ
  firstRegSpillPhysicalSlot : ℕ
  numPhysicalSlotsForLocals : ℕ
  fits : firstRegSpillPhysicalSlot + RegBank.gpr.numRegs + RegBank.fpr.numRegs
    + numPhysicalSlotsForLocals < 2 ^ 16

namespace FrameLayout

/-- The general registers are spilled first. -/
def firstGprRegisterPhysicalSlot (l : FrameLayout) : ℕ := l.firstRegSpillPhysicalSlot

/-- The floating-point registers follow them. -/
def firstFprRegisterPhysicalSlot (l : FrameLayout) : ℕ :=
  l.firstGprRegisterPhysicalSlot + RegBank.gpr.numRegs

/-- The locals follow the registers. -/
def firstLocalPhysicalSlot (l : FrameLayout) : ℕ :=
  l.firstFprRegisterPhysicalSlot + RegBank.fpr.numRegs

/-- The spill slots are behind everything else. -/
def firstStackSpillPhysicalSlot (l : FrameLayout) : ℕ :=
  l.firstLocalPhysicalSlot + l.numPhysicalSlotsForLocals

/-- `GetPhysicalSlotForRegisterFromListOrd`. -/
def physicalSlotForRegister (l : FrameLayout) (r : Reg) : ℕ :=
  match r.bank with
  | .gpr => l.firstGprRegisterPhysicalSlot + r.ord
  | .fpr => l.firstFprRegisterPhysicalSlot + r.ord

/-- The location a value of the OSR exit map names. -/
def recoveryLocation (l : FrameLayout) (ident : BitVec 16) : Loc :=
  if l.firstGprRegisterPhysicalSlot ≤ ident.toNat ∧ ident.toNat <
    l.firstFprRegisterPhysicalSlot then
    .reg ⟨.gpr, ident.toNat - l.firstGprRegisterPhysicalSlot⟩
  else if l.firstFprRegisterPhysicalSlot ≤ ident.toNat ∧ ident.toNat < l.firstLocalPhysicalSlot then
    .reg ⟨.fpr, ident.toNat - l.firstFprRegisterPhysicalSlot⟩
  else .stack ident.toNat

end FrameLayout

/-- `ValueRegAllocInfo`: whether the value is constant-like, and then its identifier in the exit
map; the register that holds it in each bank; its spill slot; its next use in each bank. -/
structure ValueRegAllocInfo where
  constantIdentifier : Option (BitVec 16)
  reg : RegBank → Option ℕ
  physicalSpillSlot : Option ℕ
  nextUse : RegBank → Option ℕ

namespace ValueRegAllocInfo

/-- A value before it is born, or a constant before it is used. -/
def fresh (constantIdentifier : Option (BitVec 16)) (nextUse : RegBank → Option ℕ) :
    ValueRegAllocInfo := ⟨constantIdentifier, fun _ => none, none, nextUse⟩

/-- `IsConstantLikeNode`. -/
def IsConstantLikeNode (i : ValueRegAllocInfo) : Prop := i.constantIdentifier.isSome

instance (i : ValueRegAllocInfo) : Decidable i.IsConstantLikeNode :=
  inferInstanceAs (Decidable (_ = true))

/-- `IsConstantLikeNodeOrIsSpilled`: the value need not stay in a register. -/
def IsConstantLikeNodeOrIsSpilled (i : ValueRegAllocInfo) : Prop :=
  i.IsConstantLikeNode ∨ i.physicalSpillSlot.isSome

instance (i : ValueRegAllocInfo) : Decidable i.IsConstantLikeNodeOrIsSpilled :=
  inferInstanceAs (Decidable (_ ∨ _))

/-- `HasNoMoreUseInBothGprAndFpr`. -/
def HasNoMoreUseInBothGprAndFpr (i : ValueRegAllocInfo) : Prop :=
  i.nextUse .gpr = none ∧ i.nextUse .fpr = none

instance (i : ValueRegAllocInfo) : Decidable i.HasNoMoreUseInBothGprAndFpr :=
  inferInstanceAs (Decidable (_ ∧ _))

/-- `SetRegBankRegOrdInList` and `InvalidateRegBankRegister`. -/
def setReg (i : ValueRegAllocInfo) (b : RegBank) (ord : Option ℕ) : ValueRegAllocInfo :=
  { i with reg := Function.update i.reg b ord }

/-- `SetPhysicalSpillSlot`. -/
def setPhysicalSpillSlot (i : ValueRegAllocInfo) (value : ℕ) : ValueRegAllocInfo :=
  { i with physicalSpillSlot := some value }

/-- `SetNextUseInfoInRegBank`. -/
def setNextUse (i : ValueRegAllocInfo) (b : RegBank) (nextUse : Option ℕ) : ValueRegAllocInfo :=
  { i with nextUse := Function.update i.nextUse b nextUse }

@[simp] theorem setReg_reg_self (i : ValueRegAllocInfo) (b : RegBank) (ord : Option ℕ) :
    (i.setReg b ord).reg b = ord := by simp [setReg]

theorem setReg_reg_of_ne (i : ValueRegAllocInfo) {b b' : RegBank} (h : b' ≠ b) (ord : Option ℕ) :
    (i.setReg b ord).reg b' = i.reg b' := by simp [setReg, h]

@[simp] theorem setReg_setReg (i : ValueRegAllocInfo) (b : RegBank) (ord ord' : Option ℕ) :
    (i.setReg b ord).setReg b ord' = i.setReg b ord' := by simp [setReg]

end ValueRegAllocInfo

/-- `RegisterValue`: the state the test build tracks for a register, with the value it holds. -/
inductive RegisterValue where
  | scratch
  | duplication (v : ℕ)
  | ephemeral (v : ℕ)
  | inUse (v : ℕ)
  deriving DecidableEq

/-- The destination of a move, a load or a duplication. -/
def RegisterValue.IsScratchOrDuplication : RegisterValue → Prop
  | .scratch => True
  | .duplication _ => True
  | .ephemeral _ => False
  | .inUse _ => False

instance : (st : RegisterValue) → Decidable st.IsScratchOrDuplication
  | .scratch => isTrue trivial
  | .duplication _ => isTrue trivial
  | .ephemeral _ => isFalse id
  | .inUse _ => isFalse id

/-- The register holds a value. -/
def RegisterValue.IsInUse : RegisterValue → Prop
  | .inUse _ => True
  | _ => False

instance : (st : RegisterValue) → Decidable st.IsInUse
  | .scratch => isFalse id
  | .duplication _ => isFalse id
  | .ephemeral _ => isFalse id
  | .inUse _ => isTrue trivial

/-- The register holds a value for the node only. -/
def RegisterValue.IsEphemeral : RegisterValue → Prop
  | .ephemeral _ => True
  | _ => False

instance : (st : RegisterValue) → Decidable st.IsEphemeral
  | .scratch => isFalse id
  | .duplication _ => isFalse id
  | .ephemeral _ => isTrue trivial
  | .inUse _ => isFalse id

end RegAlloc

open RegAlloc

/-- `RegAllocValueManager`; SSA values are numbered.  `spillSlotFreeList` has its back first.  The
fields from `valuesBorn` to `disallowAllocationOfNewSpillSlots` are those of the test build.  The
source has no `handedOut`, the slots given away by `AllocateSpillSlotForTemporaryOrSSABornOnStack`
and `AllocatePhysicalRange` and not given back, and no `discarded`, the values that lost a register
without having a spill slot. -/
structure RegAllocValueManager where
  layout : FrameLayout
  osrExitMap : DfgOsrExitMapBuilder
  info : ℕ → ValueRegAllocInfo
  totalNumPhysicalSlots : ℕ
  historyMaxNumPhysicalSlots : ℕ
  spillSlotFreeList : List ℕ
  regValue : Reg → RegisterValue
  valuesBorn : Finset ℕ
  valuesDead : Finset ℕ
  constantsMaterialized : Finset ℕ
  constantsDead : Finset ℕ
  inUseSpillSlots : Finset ℕ
  freeSpillSlots : Finset ℕ
  disallowAllocationOfNewSpillSlots : Bool
  handedOut : Finset ℕ
  discarded : Finset ℕ
  machine : Loc → Option ℕ

namespace RegAllocValueManager

/-- `ResetForNewBasicBlock`, with the values of the block and their first uses. -/
def init (l : FrameLayout) (values : ℕ → Option (BitVec 16) × (RegBank → Option ℕ)) :
    RegAllocValueManager where
  layout := l
  osrExitMap := .init l.numTotalShadowStackSlots
  info v := .fresh (values v).1 (values v).2
  totalNumPhysicalSlots := l.firstStackSpillPhysicalSlot
  historyMaxNumPhysicalSlots := l.firstStackSpillPhysicalSlot
  spillSlotFreeList := []
  regValue _ := .scratch
  valuesBorn := ∅
  valuesDead := ∅
  constantsMaterialized := ∅
  constantsDead := ∅
  inUseSpillSlots := ∅
  freeSpillSlots := ∅
  disallowAllocationOfNewSpillSlots := false
  handedOut := ∅
  discarded := ∅
  machine _ := none

/-! ## Assertions -/

/-- A non-constant value between its birth and its death. -/
def Live (m : RegAllocValueManager) (v : ℕ) : Prop :=
  ¬ (m.info v).IsConstantLikeNode ∧ v ∈ m.valuesBorn ∧ v ∉ m.valuesDead

instance (m : RegAllocValueManager) (v : ℕ) : Decidable (m.Live v) :=
  inferInstanceAs (Decidable (_ ∧ _))

/-- A slot that values are spilled to. -/
def IsSpillSlot (m : RegAllocValueManager) (p : ℕ) : Prop :=
  m.layout.firstStackSpillPhysicalSlot ≤ p ∧ p < m.totalNumPhysicalSlots

instance (m : RegAllocValueManager) (p : ℕ) : Decidable (m.IsSpillSlot p) :=
  inferInstanceAs (Decidable (_ ∧ _))

/-- `AssertValueLiveAndRegInfoOK`. -/
def ValueLiveAndRegInfoOK (m : RegAllocValueManager) (v : ℕ) (constantMaybeUnmaterialized : Bool) :
    Prop :=
  (if (m.info v).IsConstantLikeNode then
      (constantMaybeUnmaterialized = false → v ∈ m.constantsMaterialized) ∧ v ∉ m.constantsDead
    else v ∈ m.valuesBorn ∧ v ∉ m.valuesDead ∧ ∀ p ∈ (m.info v).physicalSpillSlot,
      m.IsSpillSlot p ∧ p ∉ m.freeSpillSlots ∧ p ∈ m.inUseSpillSlots) ∧
  (∀ r ∈ (m.info v).reg .gpr, m.regValue ⟨.gpr, r⟩ = .inUse v) ∧
  ∀ r ∈ (m.info v).reg .fpr, m.regValue ⟨.fpr, r⟩ = .inUse v

instance (m : RegAllocValueManager) (v : ℕ) (maybe : Bool) :
    Decidable (m.ValueLiveAndRegInfoOK v maybe) :=
  inferInstanceAs (Decidable ((ite _ _ _) ∧ _))

/-- `AssertAllSpillSlotsAreAccounted`. -/
def AllSpillSlotsAreAccounted (m : RegAllocValueManager) : Prop :=
  m.freeSpillSlots.card + m.inUseSpillSlots.card + m.layout.firstStackSpillPhysicalSlot =
    m.totalNumPhysicalSlots ∧
  (∀ p ∈ m.freeSpillSlots, m.IsSpillSlot p) ∧ (∀ p ∈ m.inUseSpillSlots, m.IsSpillSlot p) ∧
  m.spillSlotFreeList.length = m.freeSpillSlots.card

instance (m : RegAllocValueManager) : Decidable m.AllSpillSlotsAreAccounted :=
  inferInstanceAs (Decidable (_ ∧ _ ∧ _ ∧ _))

/-! ## Parts of the operations

Several operations share these; an assertion that fails ends the run. -/

/-- The operations that log code: what one logged instruction writes. -/
def emit (m : RegAllocValueManager) (dst : Loc) (content : Option ℕ) : RegAllocValueManager :=
  { m with machine := Function.update m.machine dst content }

/-- What is known of a value changes. -/
def setInfo (m : RegAllocValueManager) (v : ℕ) (i : ValueRegAllocInfo) : RegAllocValueManager :=
  { m with info := Function.update m.info v i }

/-- What a register holds changes. -/
def setRegValue (m : RegAllocValueManager) (r : Reg) (st : RegisterValue) : RegAllocValueManager :=
  { m with regValue := Function.update m.regValue r st }

/-- A call of the OSR exit map builder. -/
def callOsrExitMap (m : RegAllocValueManager) (c : DfgOsrExitMapBuilder.Call) :
    Option RegAllocValueManager :=
  (m.osrExitMap.call c).map fun b => { m with osrExitMap := b }

/-- The frame becomes `n` slots long; its length is a `uint16_t`. -/
def growFrame (m : RegAllocValueManager) (n : ℕ) : Option RegAllocValueManager :=
  testAssert (n < 2 ^ 16) <| some { m with
    totalNumPhysicalSlots := n
    historyMaxNumPhysicalSlots := max m.historyMaxNumPhysicalSlots n }

/-- `AllocateSpillSlot`: the back of the free list, or a new slot at the end of the frame. -/
def allocateSpillSlot (m : RegAllocValueManager) : Option (ℕ × RegAllocValueManager) :=
  testAssert (m.spillSlotFreeList.length = m.freeSpillSlots.card) <|
  match m.spillSlotFreeList with
  | res :: rest =>
    testAssert (res ∈ m.freeSpillSlots ∧ res ∉ m.inUseSpillSlots ∧ m.IsSpillSlot res) <|
    some (res, { m with
      spillSlotFreeList := rest
      freeSpillSlots := m.freeSpillSlots.erase res
      inUseSpillSlots := insert res m.inUseSpillSlots })
  | [] =>
    testAssert (m.disallowAllocationOfNewSpillSlots = false) <|
    testAssert (m.totalNumPhysicalSlots ∉ m.freeSpillSlots ∧
      (∀ p ∈ m.freeSpillSlots, p < m.totalNumPhysicalSlots) ∧
      m.totalNumPhysicalSlots ∉ m.inUseSpillSlots ∧
      ∀ p ∈ m.inUseSpillSlots, p ≤ m.totalNumPhysicalSlots) <|
    (m.growFrame (m.totalNumPhysicalSlots + 1)).map fun m' => (m.totalNumPhysicalSlots,
      { m' with inUseSpillSlots := insert m.totalNumPhysicalSlots m.inUseSpillSlots })

/-- `DeallocateSpillSlot`. -/
def deallocateSpillSlot (m : RegAllocValueManager) (spillSlot : ℕ) : Option RegAllocValueManager :=
  testAssert (m.IsSpillSlot spillSlot) <|
  testAssert (m.spillSlotFreeList.length = m.freeSpillSlots.card) <|
  testAssert (spillSlot ∈ m.inUseSpillSlots ∧ spillSlot ∉ m.freeSpillSlots) <|
  some { m with
    spillSlotFreeList := spillSlot :: m.spillSlotFreeList
    inUseSpillSlots := m.inUseSpillSlots.erase spillSlot
    freeSpillSlots := insert spillSlot m.freeSpillSlots }

/-- The branch of `EvictRegister` that spills: a slot is allocated, every shadow slot associated
with the value is redirected to it, and the register is stored there. -/
def spill (m : RegAllocValueManager) (v : ℕ) (r : Reg) : Option RegAllocValueManager :=
  m.allocateSpillSlot.bind fun (spillSlot, m) =>
  testAssert (spillSlot < 0x7fff) <|
  ((m.setInfo v ((m.info v).setPhysicalSpillSlot spillSlot)).callOsrExitMap
    (.setForAllSlotsAssociatedWith v (BitVec.ofNat 16 spillSlot))).map fun m =>
  m.emit (.stack spillSlot) (m.machine (.reg r))

/-! ## The operations

The assertions `AssertShadowStackConsistencyForSSAValue` and
`AssertShadowStackSlotAssociatedWithSSAValue` are not asked of the caller here: what they check is
proved of every value that still has a use. -/

/-- `EvictRegister`. -/
def evictRegister (m : RegAllocValueManager) (v : ℕ) (r : Reg) (dueToTakenByOutput : Bool) :
    Option RegAllocValueManager :=
  testAssert (m.ValueLiveAndRegInfoOK v false) <|
  testAssert ((m.info v).reg r.bank = some r.ord ∧ r.ord < r.bank.numRegs) <|
  (if (m.info v).IsConstantLikeNodeOrIsSpilled then some m
    -- no more use: no need to spill
    else if (m.info v).HasNoMoreUseInBothGprAndFpr then
      some { m with discarded := insert v m.discarded }
    else m.spill v r).bind fun m =>
  testAssert (m.regValue r = .inUse v) <|
  some ((m.setInfo v ((m.info v).setReg r.bank none)).setRegValue r
    (if dueToTakenByOutput then .ephemeral v else .scratch))

/-- `RelocateRegister`. -/
def relocateRegister (m : RegAllocValueManager) (v : ℕ) (b : RegBank) (fromRegIdx toRegIdx : ℕ) :
    Option RegAllocValueManager :=
  testAssert (m.ValueLiveAndRegInfoOK v false) <|
  testAssert (fromRegIdx ≠ toRegIdx ∧ (m.info v).reg b = some fromRegIdx ∧
    fromRegIdx < b.numRegs ∧ toRegIdx < b.numRegs) <|
  (if (m.info v).IsConstantLikeNodeOrIsSpilled then some m
    else m.callOsrExitMap (.setForAllSlotsAssociatedWith v
      (BitVec.ofNat 16 (m.layout.physicalSlotForRegister ⟨b, toRegIdx⟩)))).bind fun m =>
  testAssert (m.regValue ⟨b, fromRegIdx⟩ = .inUse v) <|
  testAssert (m.regValue ⟨b, toRegIdx⟩).IsScratchOrDuplication <|
  some ((((m.emit (.reg ⟨b, toRegIdx⟩) (m.machine (.reg ⟨b, fromRegIdx⟩))).setInfo v
    ((m.info v).setReg b (some toRegIdx))).setRegValue ⟨b, fromRegIdx⟩ .scratch).setRegValue
    ⟨b, toRegIdx⟩ (.inUse v))

/-- `DuplicateRegister`, of the register that holds `v`. -/
def duplicateRegister (m : RegAllocValueManager) (v : ℕ) (b : RegBank) (fromRegIdx toRegIdx : ℕ) :
    Option RegAllocValueManager :=
  testAssert (fromRegIdx ≠ toRegIdx ∧ fromRegIdx < b.numRegs ∧ toRegIdx < b.numRegs) <|
  testAssert (m.regValue ⟨b, fromRegIdx⟩ = .inUse v ∧ m.ValueLiveAndRegInfoOK v false) <|
  testAssert (m.regValue ⟨b, toRegIdx⟩).IsScratchOrDuplication <|
  some ((m.emit (.reg ⟨b, toRegIdx⟩) (m.machine (.reg ⟨b, fromRegIdx⟩))).setRegValue ⟨b, toRegIdx⟩
    (.duplication v))

/-- What `LoadRegister` loads: the register of the other bank, the constant, or the spill slot. -/
def loadSource (m : RegAllocValueManager) (v : ℕ) (b : RegBank) : Option ℕ :=
  match (m.info v).reg b.other with
  | some ord => m.machine (.reg ⟨b.other, ord⟩)
  | none =>
    if (m.info v).IsConstantLikeNode then some v
    else (m.info v).physicalSpillSlot.bind fun spillSlot => m.machine (.stack spillSlot)

/-- `LoadRegister`. -/
def loadRegister (m : RegAllocValueManager) (v : ℕ) (r : Reg) : Option RegAllocValueManager :=
  testAssert (m.ValueLiveAndRegInfoOK v true) <|
  testAssert ((m.info v).reg r.bank = none ∧ r.ord < r.bank.numRegs) <|
  testAssert (((m.info v).reg r.bank.other).isSome ∨ (m.info v).IsConstantLikeNodeOrIsSpilled) <|
  testAssert (m.regValue r).IsScratchOrDuplication <|
  some (((({ m with
    constantsMaterialized :=
      if (m.info v).reg r.bank.other = none ∧ (m.info v).IsConstantLikeNode then
        insert v m.constantsMaterialized
      else m.constantsMaterialized } : RegAllocValueManager).emit (.reg r)
    (m.loadSource v r.bank)).setInfo v ((m.info v).setReg r.bank (some r.ord))).setRegValue r
    (.inUse v))

/-- `KillRegister`. -/
def killRegister (m : RegAllocValueManager) (v : ℕ) (r : Reg) : Option RegAllocValueManager :=
  testAssert (m.ValueLiveAndRegInfoOK v false) <|
  testAssert (m.info v).HasNoMoreUseInBothGprAndFpr <|
  testAssert ((m.info v).reg r.bank = some r.ord ∧ r.ord < r.bank.numRegs) <|
  testAssert (m.regValue r = .inUse v) <|
  some ((({ m with
    discarded :=
      if (m.info v).IsConstantLikeNodeOrIsSpilled then m.discarded
      else insert v m.discarded } : RegAllocValueManager).setInfo v
    ((m.info v).setReg r.bank none)).setRegValue r .scratch)

/-- `ProcessDeath`. -/
def processDeath (m : RegAllocValueManager) (v : ℕ) : Option RegAllocValueManager :=
  testAssert (m.ValueLiveAndRegInfoOK v false) <|
  testAssert ((m.info v).reg .gpr = none ∧ (m.info v).reg .fpr = none) <|
  testAssert (m.info v).HasNoMoreUseInBothGprAndFpr <|
  if (m.info v).IsConstantLikeNode then
    testAssert (v ∈ m.constantsMaterialized ∧ v ∉ m.constantsDead) <|
    some { m with constantsDead := insert v m.constantsDead }
  else
    (match (m.info v).physicalSpillSlot with
      | some spillSlot => m.deallocateSpillSlot spillSlot
      | none => some m).bind fun m =>
    testAssert (v ∈ m.valuesBorn ∧ v ∉ m.valuesDead) <|
    some { m with valuesDead := insert v m.valuesDead }

/-- What both births assert of the value. -/
def NotBornYet (m : RegAllocValueManager) (v : ℕ) : Prop :=
  ¬ (m.info v).IsConstantLikeNode ∧ (m.info v).reg .gpr = none ∧ (m.info v).reg .fpr = none ∧
  (m.info v).physicalSpillSlot = none ∧ v ∉ m.valuesBorn

instance (m : RegAllocValueManager) (v : ℕ) : Decidable (m.NotBornYet v) :=
  inferInstanceAs (Decidable (_ ∧ _ ∧ _ ∧ _ ∧ _))

/-- `ProcessBornInRegister`: the node has left its output in the register. -/
def processBornInRegister (m : RegAllocValueManager) (v : ℕ) (r : Reg) :
    Option RegAllocValueManager :=
  testAssert (m.NotBornYet v ∧ r.ord < r.bank.numRegs) <|
  testAssert (¬ (m.regValue r).IsInUse) <|
  some (((({ m with valuesBorn := insert v m.valuesBorn } : RegAllocValueManager).emit (.reg r)
    (some v)).setInfo v ((m.info v).setReg r.bank (some r.ord))).setRegValue r (.inUse v))

/-- `ProcessBornOnStack`: the node has left its output in the slot. -/
def processBornOnStack (m : RegAllocValueManager) (v physicalSlot : ℕ) :
    Option RegAllocValueManager :=
  testAssert (m.NotBornYet v) <|
  testAssert (m.IsSpillSlot physicalSlot ∧ physicalSlot < 0x7fff) <|
  testAssert (physicalSlot ∉ m.freeSpillSlots ∧ physicalSlot ∉ m.inUseSpillSlots) <|
  some ((({ m with
    inUseSpillSlots := insert physicalSlot m.inUseSpillSlots
    handedOut := m.handedOut.erase physicalSlot
    valuesBorn := insert v m.valuesBorn } : RegAllocValueManager).emit (.stack physicalSlot)
    (some v)).setInfo v ((m.info v).setPhysicalSpillSlot physicalSlot))

/-- The location a new `ShadowStore` recovers the value from: its spill slot once it has one, else
the register that holds it. -/
def recoverFrom (m : RegAllocValueManager) (v : ℕ) : Option ℕ :=
  match (m.info v).physicalSpillSlot with
  | some spillSlot => some spillSlot
  | none =>
    match (m.info v).reg .fpr with
    | some ord => some (m.layout.physicalSlotForRegister ⟨.fpr, ord⟩)
    | none => ((m.info v).reg .gpr).map fun ord => m.layout.physicalSlotForRegister ⟨.gpr, ord⟩

/-- `ProcessShadowStore`. -/
def processShadowStore (m : RegAllocValueManager) (v interpreterSlot : ℕ) :
    Option RegAllocValueManager :=
  testAssert (m.ValueLiveAndRegInfoOK v true) <|
  match (m.info v).constantIdentifier with
  | some ident =>
    ({ m with constantsMaterialized := insert v m.constantsMaterialized } :
      RegAllocValueManager).callOsrExitMap (.setAndDeassociate interpreterSlot ident)
  | none => (m.recoverFrom v).bind fun ident =>
    m.callOsrExitMap (.setAndAssociate v interpreterSlot (BitVec.ofNat 16 ident))

/-- `ProcessSetLocal`. -/
def processSetLocal (m : RegAllocValueManager) (v interpreterSlot physicalSlotForLocal : ℕ) :
    Option RegAllocValueManager :=
  testAssert (m.ValueLiveAndRegInfoOK v false) <|
  testAssert (m.layout.firstLocalPhysicalSlot ≤ physicalSlotForLocal ∧
    physicalSlotForLocal < m.layout.firstStackSpillPhysicalSlot) <|
  if (m.info v).IsConstantLikeNode then some m
  else m.callOsrExitMap (.setAndDeassociate interpreterSlot (BitVec.ofNat 16 physicalSlotForLocal))

/-- `AllocateSpillSlotForTemporaryOrSSABornOnStack`: the slot leaves the record. -/
def allocateSpillSlotForTemporaryOrSSABornOnStack (m : RegAllocValueManager) :
    Option (ℕ × RegAllocValueManager) :=
  m.allocateSpillSlot.bind fun (spillSlot, m) =>
  testAssert (spillSlot ∈ m.inUseSpillSlots) <|
  some (spillSlot, { m with
    inUseSpillSlots := m.inUseSpillSlots.erase spillSlot
    handedOut := insert spillSlot m.handedOut })

/-- `ReserveSpillSlots`: new slots at the end of the frame go to the free list. -/
def reserveSpillSlots (m : RegAllocValueManager) (desiredNumSlots : ℕ) :
    Option RegAllocValueManager :=
  testAssert (m.disallowAllocationOfNewSpillSlots = false ∧ m.AllSpillSlotsAreAccounted) <|
  if m.spillSlotFreeList.length < desiredNumSlots then
    (m.growFrame (m.totalNumPhysicalSlots + (desiredNumSlots - m.spillSlotFreeList.length))).bind
      fun m' =>
    testAssert (∀ p ∈ Finset.Ico m.totalNumPhysicalSlots m'.totalNumPhysicalSlots,
      p ∉ m.freeSpillSlots) <|
    some { m' with
      spillSlotFreeList :=
        (List.range' m.totalNumPhysicalSlots (desiredNumSlots - m.spillSlotFreeList.length)).reverse
          ++ m.spillSlotFreeList
      freeSpillSlots := m.freeSpillSlots ∪
        Finset.Ico m.totalNumPhysicalSlots m'.totalNumPhysicalSlots }
  else some m

/-- `AllocatePhysicalRange`: slots at the end of the frame that are not accounted for. -/
def allocatePhysicalRange (m : RegAllocValueManager) (desiredNumSlots : ℕ) :
    Option (ℕ × RegAllocValueManager) :=
  testAssert (m.disallowAllocationOfNewSpillSlots = false ∧ m.AllSpillSlotsAreAccounted) <|
  (m.growFrame (m.totalNumPhysicalSlots + desiredNumSlots)).map fun m' =>
  (m.totalNumPhysicalSlots, { m' with
    disallowAllocationOfNewSpillSlots := true
    handedOut := m.handedOut ∪ Finset.Ico m.totalNumPhysicalSlots m'.totalNumPhysicalSlots })

/-- `MarkUnaccountedPhysicalSlotAsFree`. -/
def markUnaccountedPhysicalSlotAsFree (m : RegAllocValueManager) (physicalSlot : ℕ) :
    Option RegAllocValueManager :=
  testAssert (m.IsSpillSlot physicalSlot) <|
  testAssert (m.freeSpillSlots.card = m.spillSlotFreeList.length) <|
  testAssert (physicalSlot ∉ m.inUseSpillSlots ∧ physicalSlot ∉ m.freeSpillSlots) <|
  some { m with
    freeSpillSlots := insert physicalSlot m.freeSpillSlots
    spillSlotFreeList := physicalSlot :: m.spillSlotFreeList
    handedOut := m.handedOut.erase physicalSlot }

/-- `ShrinkPhysicalFrameLength`, paired with `AllocatePhysicalRange`: the frame never loses more
than the slots after the locals. -/
def shrinkPhysicalFrameLength (m : RegAllocValueManager) (expectedCurrentSize newSize : ℕ) :
    Option RegAllocValueManager :=
  testAssert (m.disallowAllocationOfNewSpillSlots = true) <|
  testAssert (m.totalNumPhysicalSlots = expectedCurrentSize ∧ newSize ≤ expectedCurrentSize) <|
  testAssert ((∀ p ∈ m.freeSpillSlots, p < newSize) ∧ ∀ p ∈ m.inUseSpillSlots, p < newSize) <|
  testAssert (m.layout.firstStackSpillPhysicalSlot ≤ newSize) <|
  some { m with
    disallowAllocationOfNewSpillSlots := false
    totalNumPhysicalSlots := newSize
    handedOut := m.handedOut.filter (· < newSize) }

/-- `MaterializeConstantToTempReg`. -/
def materializeConstantToTempReg (m : RegAllocValueManager) (v : ℕ) : Option RegAllocValueManager :=
  testAssert ((m.info v).IsConstantLikeNode ∧ v ∉ m.constantsDead) <|
  some (({ m with constantsMaterialized := insert v m.constantsMaterialized } :
    RegAllocValueManager).emit .tempReg (some v))

/-- `UpdateRegisterStateAfterNodeExecutedAndOutputsBorn`, on one register. -/
def afterNode : RegisterValue → RegisterValue
  | .duplication _ => .scratch
  | st => st

/-- `UpdateRegisterStateAfterNodeExecutedAndOutputsBorn`: duplications become scratch. -/
def updateRegisterStateAfterNodeExecutedAndOutputsBorn (m : RegAllocValueManager) :
    Option RegAllocValueManager :=
  testAssert ((∀ ord < RegBank.gpr.numRegs, ¬ (m.regValue ⟨.gpr, ord⟩).IsEphemeral) ∧
    ∀ ord < RegBank.fpr.numRegs, ¬ (m.regValue ⟨.fpr, ord⟩).IsEphemeral) <|
  some { m with regValue := fun r => afterNode (m.regValue r) }

/-- `SetNextUseInfoInRegBank`, by the users of the manager: only at the value's current use, and to
a later one. -/
def setNextUseInfoInRegBank (m : RegAllocValueManager) (v : ℕ) (b : RegBank) (useIndex : ℕ)
    (nextUse : Option ℕ) : Option RegAllocValueManager :=
  testAssert ((m.info v).nextUse b = some useIndex ∧ ∀ u ∈ nextUse, useIndex < u) <|
  some (m.setInfo v ((m.info v).setNextUse b nextUse))

/-- No value lives there: a register that is not in use, a slot that is not in use. -/
def IsVacant (m : RegAllocValueManager) : Loc → Prop
  | .reg r => ¬ (m.regValue r).IsInUse
  | .stack p => p ∉ m.inUseSpillSlots
  | .tempReg => True

instance (m : RegAllocValueManager) : (dst : Loc) → Decidable (m.IsVacant dst)
  | .reg _ => inferInstanceAs (Decidable (¬ _))
  | .stack _ => inferInstanceAs (Decidable (¬ _))
  | .tempReg => isTrue trivial

/-- The code of a node may write every vacant location. -/
def clobber (m : RegAllocValueManager) (dst : Loc) (content : Option ℕ) :
    Option RegAllocValueManager :=
  testAssert (m.IsVacant dst) <| some (m.emit dst content)

/-! ## Runs

Any sequence of operations whose assertions hold. -/

/-- The calls the register allocator and the backend make, and the code they run. -/
inductive Op where
  | evictRegister (v : ℕ) (r : Reg) (dueToTakenByOutput : Bool)
  | relocateRegister (v : ℕ) (b : RegBank) (fromRegIdx toRegIdx : ℕ)
  | duplicateRegister (v : ℕ) (b : RegBank) (fromRegIdx toRegIdx : ℕ)
  | loadRegister (v : ℕ) (r : Reg)
  | killRegister (v : ℕ) (r : Reg)
  | processDeath (v : ℕ)
  | processBornInRegister (v : ℕ) (r : Reg)
  | processBornOnStack (v physicalSlot : ℕ)
  | processShadowStore (v interpreterSlot : ℕ)
  | processSetLocal (v interpreterSlot physicalSlotForLocal : ℕ)
  | allocateSpillSlotForTemporaryOrSSABornOnStack
  | reserveSpillSlots (desiredNumSlots : ℕ)
  | allocatePhysicalRange (desiredNumSlots : ℕ)
  | markUnaccountedPhysicalSlotAsFree (physicalSlot : ℕ)
  | shrinkPhysicalFrameLength (expectedCurrentSize newSize : ℕ)
  | materializeConstantToTempReg (v : ℕ)
  | updateRegisterStateAfterNodeExecutedAndOutputsBorn
  | setNextUseInfoInRegBank (v : ℕ) (b : RegBank) (useIndex : ℕ) (nextUse : Option ℕ)
  | clobber (dst : Loc) (content : Option ℕ)

/-- One operation on the state. -/
def step (m : RegAllocValueManager) : Op → Option RegAllocValueManager
  | .evictRegister v r dueToTakenByOutput => m.evictRegister v r dueToTakenByOutput
  | .relocateRegister v b fromRegIdx toRegIdx => m.relocateRegister v b fromRegIdx toRegIdx
  | .duplicateRegister v b fromRegIdx toRegIdx => m.duplicateRegister v b fromRegIdx toRegIdx
  | .loadRegister v r => m.loadRegister v r
  | .killRegister v r => m.killRegister v r
  | .processDeath v => m.processDeath v
  | .processBornInRegister v r => m.processBornInRegister v r
  | .processBornOnStack v physicalSlot => m.processBornOnStack v physicalSlot
  | .processShadowStore v interpreterSlot => m.processShadowStore v interpreterSlot
  | .processSetLocal v interpreterSlot physicalSlotForLocal =>
    m.processSetLocal v interpreterSlot physicalSlotForLocal
  | .allocateSpillSlotForTemporaryOrSSABornOnStack =>
    m.allocateSpillSlotForTemporaryOrSSABornOnStack.map Prod.snd
  | .reserveSpillSlots desiredNumSlots => m.reserveSpillSlots desiredNumSlots
  | .allocatePhysicalRange desiredNumSlots => (m.allocatePhysicalRange desiredNumSlots).map Prod.snd
  | .markUnaccountedPhysicalSlotAsFree physicalSlot =>
    m.markUnaccountedPhysicalSlotAsFree physicalSlot
  | .shrinkPhysicalFrameLength expectedCurrentSize newSize =>
    m.shrinkPhysicalFrameLength expectedCurrentSize newSize
  | .materializeConstantToTempReg v => m.materializeConstantToTempReg v
  | .updateRegisterStateAfterNodeExecutedAndOutputsBorn =>
    m.updateRegisterStateAfterNodeExecutedAndOutputsBorn
  | .setNextUseInfoInRegBank v b useIndex nextUse => m.setNextUseInfoInRegBank v b useIndex nextUse
  | .clobber dst content => m.clobber dst content

/-- A sequence of operations. -/
def run (m : RegAllocValueManager) : List Op → Option RegAllocValueManager
  | [] => some m
  | op :: ops => (m.step op).bind (run · ops)

end RegAllocValueManager

end Dsom
