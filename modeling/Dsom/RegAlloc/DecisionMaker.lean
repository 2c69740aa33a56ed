import Dsom.RegAlloc.SortingNetwork
import Dsom.RegAlloc.ValueManager
import Mathlib.Data.Finset.Image

/-!
# RegAlloc/DecisionMaker — which value each register holds

`RegAllocDecisionMaker` of `drt/dfg_reg_alloc_decision_maker.h`, one for each bank.  It decides what
is evicted, loaded and moved, by when the values are used next, and calls `RegEventCallbacks` to
have it done.  The callbacks here do nothing but what every implementation of them has to do: they
check what the comments in the source ask of the callers, change the register of the value, and
track what is in the registers.

A mask is the set of its bits.  `none` is a failed assertion, or a loop that has run out of fuel.
-/

namespace Dsom

open RegAlloc

/-! ## Next uses -/

/-- `x_noNextUse`. -/
def noNextUse : ℕ := 2 ^ 19 - 1

/-- `ValueNextUseInfo`, as a value keeps it. -/
structure ValueNextUseInfo where
  isAllFutureUseGhostUse : Bool
  nextUseIndex : ℕ
  lt : nextUseIndex < 2 ^ 19
  ghost : nextUseIndex = noNextUse → isAllFutureUseGhostUse = true

namespace ValueNextUseInfo

/-- A value that is not used any more. -/
def noMoreUse : ValueNextUseInfo := ⟨true, noNextUse, by decide, fun _ => rfl⟩

/-- The word of a register: the ghost bit, the next use, and room for the index. -/
def pack (isGhostUseOnly : Bool) (nextUseIndex : ℕ) : ℕ :=
  isGhostUseOnly.toNat <<< 31 ||| nextUseIndex <<< 12

/-- `m_value`: the registers are sorted by it. -/
def value (info : ValueNextUseInfo) : ℕ := pack info.isAllFutureUseGhostUse info.nextUseIndex

/-! The fields of a word. -/

/-- `GetNextUseIndex` of a word. -/
def nextUseIndexOf (word : ℕ) : ℕ := word >>> 12 % 2 ^ 19

/-- `GetCustomDataAsU8`: the index of the register. -/
def customDataAsU8 (word : ℕ) : ℕ := word % 2 ^ 8

/-- `GetCompositeValueWithLowerBitsCleared`: the word without the index and the scratch bit. -/
def compositeValueWithLowerBitsCleared (word : ℕ) : ℕ :=
  pack (word.testBit 31) (nextUseIndexOf word)

end ValueNextUseInfo

open ValueNextUseInfo

/-- `ValueUseRAInfo`; the next use is that after this one. -/
structure ValueUseRAInfo where
  ssaValue : ℕ
  isDuplicateEdge : Bool
  nextUseInfo : ValueNextUseInfo

/-! ## Masks -/

/-- The lowest register of a mask, if there is one. -/
def RegAllocDecisionMaker.countTrailingZeros (mask : Finset ℕ) : Option ℕ :=
  (List.range 16).find? (· ∈ mask)

/-- The first `k` bits of the mask. -/
def getFirstKOnesInUint8Val (mask : Finset ℕ) (k : ℕ) : Finset ℕ :=
  (((List.range 8).filter (· ∈ mask)).take k).toFinset

/-! ## The callbacks

What the allocator does elsewhere when a register changes: the values it has, and which register
each is in. -/

/-- `RegEventCallbacks` for one bank: the register of each value, as its `ValueRegAllocInfo` has it,
the value that each register is holding, and what is in the register besides. -/
structure RegEventCallbacks where
  valReg : ℕ → Option ℕ
  holder : ℕ → Option ℕ
  content : ℕ → Option ℕ

namespace RegEventCallbacks

variable (c : RegEventCallbacks)

/-- `v` leaves its register; the register is not overwritten. -/
def left (v regIdx : ℕ) : RegEventCallbacks :=
  { c with
    valReg := Function.update c.valReg v none
    holder := Function.update c.holder regIdx none }

/-- `v` comes into a register. -/
def entered (v regIdx : ℕ) (content : Option ℕ) : RegEventCallbacks where
  valReg := Function.update c.valReg v (some regIdx)
  holder := Function.update c.holder regIdx (some v)
  content := Function.update c.content regIdx content

/-- `EvictRegister`: the value is in the register before, and nowhere afterwards. -/
def evictRegister (v regIdx : ℕ) : Option RegEventCallbacks :=
  testAssert (c.valReg v = some regIdx ∧ c.holder regIdx = some v) <| some (c.left v regIdx)

/-- `RelocateRegister`: into a register that is free. -/
def relocateRegister (v fromRegIdx toRegIdx : ℕ) : Option RegEventCallbacks :=
  testAssert (c.valReg v = some fromRegIdx ∧ c.holder fromRegIdx = some v ∧
    c.holder toRegIdx = none) <|
  some ((c.left v fromRegIdx).entered v toRegIdx (c.content fromRegIdx))

/-- `LoadRegister`: the value comes into a free register. -/
def loadRegister (v regIdx : ℕ) : Option RegEventCallbacks :=
  testAssert (c.valReg v = none ∧ c.holder regIdx = none) <| some (c.entered v regIdx (some v))

/-- `KillRegister`. -/
def killRegister (v regIdx : ℕ) : Option RegEventCallbacks := c.evictRegister v regIdx

/-- `ProcessBornInRegister` of the value manager: the node has left its output in the register. -/
def processBornInRegister (v regIdx : ℕ) : Option RegEventCallbacks := c.loadRegister v regIdx

end RegEventCallbacks

/-! ## The state

Words in an order that is sorted now and then, and three masks. -/

/-- `nextUse` is the next use of a value in this bank, which its `ValueRegAllocInfo` keeps. -/
structure RegAllocDecisionMaker (bank : RegBank) where
  data : ℕ → ℕ
  regIdxToDataIdx : ℕ → ℕ
  isSorted : Bool
  numScratchRegs : ℕ
  scratchRegMask : Finset ℕ
  reservedRegMask : Finset ℕ
  outputRegMask : Finset ℕ
  regValues : ℕ → Option ℕ
  nextUse : ℕ → ValueNextUseInfo
  cbs : RegEventCallbacks

/-- `x_dfg_reg_alloc_num_group1_gprs`: `rsi` and `rdi`, at the end of the list. -/
def numGroup1Gprs : ℕ := 2

/-- The registers of group 1 are the last ones. -/
def firstGroup1GprIdx : ℕ := RegBank.gpr.numRegs - numGroup1Gprs

/-- All registers of a bank. -/
def RegAlloc.RegBank.fullMask (bank : RegBank) : Finset ℕ := Finset.range bank.numRegs

namespace RegAllocDecisionMaker

/-- The bit of a word that says that the register is free. -/
def isScratchMask : ℕ := 2 ^ 11

/-- The word of a register that holds no value. -/
def scratchWord (regIdx : ℕ) : ℕ := noMoreUse.value ||| isScratchMask ||| regIdx

variable {bank : RegBank} (s : RegAllocDecisionMaker bank)

/-- `Reset`, with the values of the block and their first uses. -/
def reset (nextUse : ℕ → ValueNextUseInfo) : RegAllocDecisionMaker bank where
  data i := (noMoreUse.value ||| isScratchMask) + i
  regIdxToDataIdx i := i
  isSorted := true
  numScratchRegs := bank.numRegs
  scratchRegMask := bank.fullMask
  reservedRegMask := ∅
  outputRegMask := ∅
  regValues _ := none
  nextUse := nextUse
  cbs := ⟨fun _ => none, fun _ => none, fun _ => none⟩

/-- `SortRegisters`, by the sorting network of the length of the bank. -/
def sortRegisters : RegAllocDecisionMaker bank :=
  if s.isSorted then s
  else
    let data := SortingNetwork.sortAscend bank.numRegs s.data
    { s with
      data := data
      regIdxToDataIdx := (List.range bank.numRegs).foldl
        (fun f i => Function.update f (customDataAsU8 (data i)) i) s.regIdxToDataIdx
      isSorted := true }

/-- `UpdateNextUseInfo`, of the register only. -/
def updateNextUseInfo (regIdx : ℕ) (use : ValueUseRAInfo) : RegAllocDecisionMaker bank :=
  { s with
    data := Function.update s.data (s.regIdxToDataIdx regIdx) (use.nextUseInfo.value ||| regIdx)
    isSorted := false }

/-- `UpdateValNextUseInfo`, of the value only. -/
def updateValNextUseInfo (v : ℕ) (info : ValueNextUseInfo) : RegAllocDecisionMaker bank :=
  { s with nextUse := Function.update s.nextUse v info }

/-! ## The primitives -/

/-- What `EvictRegisterImpl` does to its own fields. -/
def evicted (regIdx : ℕ) (cbs : RegEventCallbacks) : RegAllocDecisionMaker bank :=
  { s with
    regValues := Function.update s.regValues regIdx none
    data := Function.update s.data (s.regIdxToDataIdx regIdx) (scratchWord regIdx)
    numScratchRegs := s.numScratchRegs + 1
    scratchRegMask := insert regIdx s.scratchRegMask
    cbs := cbs }

/-- `m_isSorted` stays as it was.  Whether an eviction is `dueToTakenByOutput` only concerns the
assertions of the value manager. -/
def evictRegisterImpl (regIdx : ℕ) (dueToDeath : Bool) : Option (RegAllocDecisionMaker bank) :=
  testAssert (regIdx < bank.numRegs) <|
  (s.regValues regIdx).bind fun v =>
  (if dueToDeath then s.cbs.killRegister v regIdx else s.cbs.evictRegister v regIdx).map
    (s.evicted regIdx)

/-- What `LoadValueToGivenRegister` does to its own fields. -/
def loaded (v regIdx : ℕ) : RegAllocDecisionMaker bank :=
  { s with
    isSorted := false
    scratchRegMask := s.scratchRegMask.erase regIdx
    numScratchRegs := s.numScratchRegs - 1
    regValues := Function.update s.regValues regIdx (some v)
    data := Function.update s.data (s.regIdxToDataIdx regIdx) ((s.nextUse v).value + regIdx) }

/-- `LoadValueToGivenRegister`; an output is only reserved. -/
def loadValueToGivenRegister (v regIdx : ℕ) (isBornForOutput : Bool) :
    Option (RegAllocDecisionMaker bank) :=
  testAssert (s.cbs.valReg v = none ∧ regIdx ∈ s.scratchRegMask) <|
  if isBornForOutput then
    some { s.loaded v regIdx with outputRegMask := insert regIdx s.outputRegMask }
  else (s.cbs.loadRegister v regIdx).map fun cbs => { s.loaded v regIdx with cbs := cbs }

/-- Into the free register that comes first in the list. -/
def loadValueToRegister (v : ℕ) (isBornForOutput : Bool) :
    Option (ℕ × RegAllocDecisionMaker bank) :=
  (countTrailingZeros s.scratchRegMask).bind fun regIdx =>
  (s.loadValueToGivenRegister v regIdx isBornForOutput).map fun s => (regIdx, s)

/-- The value `v` of `regIdx` is moved to the scratch register `dstRegIdx`. -/
def relocated (v regIdx dstRegIdx : ℕ) (cbs : RegEventCallbacks) : RegAllocDecisionMaker bank :=
  { s with
    isSorted := false
    scratchRegMask := insert regIdx (s.scratchRegMask.erase dstRegIdx)
    data := Function.update
      (Function.update s.data (s.regIdxToDataIdx dstRegIdx)
        (compositeValueWithLowerBitsCleared (s.data (s.regIdxToDataIdx regIdx)) ||| dstRegIdx))
      (s.regIdxToDataIdx regIdx) (scratchWord regIdx)
    regValues := Function.update (Function.update s.regValues dstRegIdx (some v)) regIdx none
    cbs := cbs }

/-- One round of the loop of `RelocateToTurnAllGroup1GprIntoScratch`. -/
def relocateGroup1Gpr (regIdx : ℕ) : Option (RegAllocDecisionMaker bank) :=
  match s.regValues regIdx with
  | none => some s
  | some v =>
    (countTrailingZeros s.scratchRegMask).bind fun dstRegIdx =>
    testAssert (dstRegIdx < firstGroup1GprIdx) <|
    (s.cbs.relocateRegister v regIdx dstRegIdx).map (s.relocated v regIdx dstRegIdx)

/-- `RelocateToTurnAllGroup1GprIntoScratch`. -/
def relocateToTurnAllGroup1GprIntoScratch : Option (RegAllocDecisionMaker bank) :=
  testAssert (numGroup1Gprs ≤ s.numScratchRegs) <|
  (List.range' firstGroup1GprIdx numGroup1Gprs).foldlM
    (fun s regIdx => s.relocateGroup1Gpr regIdx) s

/-- The loop that evicts what is at some places of `m_data`. -/
def evictDataIdxs (dataIdxs : List ℕ) : Option (RegAllocDecisionMaker bank) :=
  dataIdxs.foldlM (fun s dataIdx =>
    s.evictRegisterImpl (customDataAsU8 (s.data dataIdx)) false) s

end RegAllocDecisionMaker

/-! ## Scratch and pass-through registers -/

/-- `RegAllocPassthruAndScratchRegInfo`.  The indices in group 1 count from its first register. -/
structure RegAllocPassthruAndScratchRegInfo where
  group1ScratchIdxMask : Finset ℕ
  group1PassthruIdxMask : Finset ℕ
  group2ScratchIdxMask : Finset ℕ
  group2PassthruIdxMask : Finset ℕ

namespace RegAllocPassthruAndScratchRegInfo

/-- The registers of group 1 in a mask, shifted down. -/
def group1IdxMask (mask : Finset ℕ) : Finset ℕ :=
  (mask.filter (firstGroup1GprIdx ≤ ·)).image (· - firstGroup1GprIdx)

/-- The registers of group 2 in a mask. -/
def group2IdxMask (mask : Finset ℕ) : Finset ℕ := mask.filter (· < firstGroup1GprIdx)

/-- The scratch registers in `change` are treated as pass-through registers. -/
def changeGroup1 (i : RegAllocPassthruAndScratchRegInfo) (change : Finset ℕ) :
    RegAllocPassthruAndScratchRegInfo :=
  { i with
    group1ScratchIdxMask := i.group1ScratchIdxMask \ change
    group1PassthruIdxMask := i.group1PassthruIdxMask ∪ change }

/-- Some scratch registers of group 2 are passed through instead. -/
def changeGroup2 (i : RegAllocPassthruAndScratchRegInfo) (change : Finset ℕ) :
    RegAllocPassthruAndScratchRegInfo :=
  { i with
    group2ScratchIdxMask := i.group2ScratchIdxMask \ change
    group2PassthruIdxMask := i.group2PassthruIdxMask ∪ change }

/-- `InitForGprState`: what is not wanted is given back, from group 2 first. -/
def initForGprState (numScratchRegs : ℕ) (scratchMask passthruMask : Finset ℕ)
    (numDesiredScratchRegs : ℕ) : RegAllocPassthruAndScratchRegInfo :=
  let i : RegAllocPassthruAndScratchRegInfo :=
    ⟨group1IdxMask scratchMask, group1IdxMask passthruMask, group2IdxMask scratchMask,
      group2IdxMask passthruMask⟩
  if numDesiredScratchRegs < numScratchRegs then
    let numToChange := numScratchRegs - numDesiredScratchRegs
    let numGroup2Scratches := i.group2ScratchIdxMask.card
    if numGroup2Scratches < numToChange then
      let i := i.changeGroup2 i.group2ScratchIdxMask
      i.changeGroup1
        (getFirstKOnesInUint8Val i.group1ScratchIdxMask (numToChange - numGroup2Scratches))
    else i.changeGroup2 (getFirstKOnesInUint8Val i.group2ScratchIdxMask numToChange)
  else i

/-- `InitForFprState`: there is one group only. -/
def initForFprState (numScratchRegs : ℕ) (scratchMask passthruMask : Finset ℕ)
    (numDesiredScratchRegs : ℕ) : RegAllocPassthruAndScratchRegInfo :=
  let i : RegAllocPassthruAndScratchRegInfo := ⟨scratchMask, passthruMask, ∅, ∅⟩
  if numDesiredScratchRegs < numScratchRegs then
    i.changeGroup1
      (getFirstKOnesInUint8Val i.group1ScratchIdxMask (numScratchRegs - numDesiredScratchRegs))
  else i

/-- `RegAllocPassthruAndScratchRegInfo`, for either bank. -/
def init (bank : RegBank) (numScratchRegs : ℕ) (scratchMask passthruMask : Finset ℕ)
    (numDesiredScratchRegs : ℕ) : RegAllocPassthruAndScratchRegInfo :=
  match bank with
  | .gpr => initForGprState numScratchRegs scratchMask passthruMask numDesiredScratchRegs
  | .fpr => initForFprState numScratchRegs scratchMask passthruMask numDesiredScratchRegs

end RegAllocPassthruAndScratchRegInfo

open RegAllocPassthruAndScratchRegInfo

/-! ## The operations -/

namespace RegAllocDecisionMaker

variable {bank : RegBank} (s : RegAllocDecisionMaker bank)

/-- No register is reserved, and all outputs are born. -/
def Idle : Prop := s.reservedRegMask = ∅ ∧ s.outputRegMask = ∅

instance : Decidable s.Idle := inferInstanceAs (Decidable (_ ∧ _))

/-- The registers of group 1 are only turned into scratch registers in the bank that has some. -/
def relocateIf (shouldRelocate : Bool) : Option (RegAllocDecisionMaker bank) :=
  if shouldRelocate then s.relocateToTurnAllGroup1GprIntoScratch else some s

/-- `IsForGprState() && shouldAlsoRelocateAllGroup1Gprs`. -/
def shouldRelocate (bank : RegBank) (shouldAlsoRelocateAllGroup1Gprs : Bool) : Bool :=
  decide (bank = .gpr) && shouldAlsoRelocateAllGroup1Gprs

/-- The part of `EvictUntil` that makes sure there are enough scratch registers. -/
def evictUntilScratch (desiredNumScratchRegs : ℕ) : Option (RegAllocDecisionMaker bank) :=
  let s := s.sortRegisters
  if s.numScratchRegs < desiredNumScratchRegs then
    ({ s with isSorted := s.isSorted && decide (s.numScratchRegs = 0) } :
      RegAllocDecisionMaker bank).evictDataIdxs
      (List.range' (bank.numRegs - desiredNumScratchRegs)
        (desiredNumScratchRegs - s.numScratchRegs))
  else some s

/-- `EvictUntil`: room for the registers a node wants, and what it is told of them. -/
def evictUntil (desiredNumScratchRegs : ℕ) (shouldAlsoRelocateAllGroup1Gprs : Bool) :
    Option (RegAllocPassthruAndScratchRegInfo × RegAllocDecisionMaker bank) :=
  let relocate := shouldRelocate bank shouldAlsoRelocateAllGroup1Gprs
  testAssert s.Idle <|
  testAssert ((relocate → numGroup1Gprs ≤ desiredNumScratchRegs) ∧
    desiredNumScratchRegs ≤ bank.numRegs) <|
  (if 0 < desiredNumScratchRegs then
    (s.evictUntilScratch desiredNumScratchRegs).bind fun s => s.relocateIf relocate
  else some s).map fun s =>
  (init bank s.numScratchRegs s.scratchRegMask (bank.fullMask \ s.scratchRegMask)
    desiredNumScratchRegs, s)

/-- `RegAllocTypecheckCodegenDecisions`. -/
structure TypecheckCodegenDecisions where
  inputRegIdx : ℕ
  nonOperandRegInfo : RegAllocPassthruAndScratchRegInfo

/-- What `WorkForCodegenCheck` evicts, except for the register of the operand. -/
def checkEvictions (numRegsToEvict : ℕ) (operandDataIdx : Option ℕ) : Option (List ℕ) :=
  let evictDataIdxBegin := bank.numRegs - numRegsToEvict
  let evictDataIdxEnd := bank.numRegs - s.numScratchRegs
  let skipsOperand := operandDataIdx.any fun i => evictDataIdxBegin ≤ i ∧ i < evictDataIdxEnd
  testAssert (skipsOperand → 0 < evictDataIdxBegin) <|
  let evictDataIdxBegin := evictDataIdxBegin - skipsOperand.toNat
  some ((List.range' evictDataIdxBegin (evictDataIdxEnd - evictDataIdxBegin)).filter
    fun i => operandDataIdx ≠ some i)

/-- The operand is loaded, or its register gets the next use. -/
def useCheckOperand (use : ValueUseRAInfo) : Option ℕ → Option (RegAllocDecisionMaker bank)
  | none =>
    ((s.updateValNextUseInfo use.ssaValue use.nextUseInfo).loadValueToRegister use.ssaValue
      false).map Prod.snd
  | some operandRegIdx =>
    testAssert (s.cbs.valReg use.ssaValue = some operandRegIdx) <|
    some ((s.updateValNextUseInfo use.ssaValue use.nextUseInfo).updateNextUseInfo operandRegIdx use)

/-- `WorkForCodegenCheck`: the operand comes into a register, and room is made for the check. -/
def workForCodegenCheck (use : ValueUseRAInfo) (requiredNumScratchRegs : ℕ)
    (shouldAlsoRelocateAllGroup1Gprs : Bool) :
    Option (TypecheckCodegenDecisions × RegAllocDecisionMaker bank) :=
  let relocate := shouldRelocate bank shouldAlsoRelocateAllGroup1Gprs
  testAssert s.Idle <|
  testAssert (use.isDuplicateEdge = false) <|
  let s := s.sortRegisters
  testAssert (relocate → numGroup1Gprs ≤ requiredNumScratchRegs) <|
  let operandRegIdx := s.cbs.valReg use.ssaValue
  let numRegsToEvict := requiredNumScratchRegs + operandRegIdx.isNone.toNat
  testAssert (numRegsToEvict ≤ bank.numRegs) <|
  let s : RegAllocDecisionMaker bank := { s with isSorted := false }
  (if s.numScratchRegs < numRegsToEvict then
    (s.checkEvictions numRegsToEvict (operandRegIdx.map s.regIdxToDataIdx)).bind s.evictDataIdxs
  else some s).bind fun s =>
  (s.useCheckOperand use operandRegIdx).bind fun s =>
  (s.relocateIf relocate).bind fun s =>
  (s.cbs.valReg use.ssaValue).map fun operandRegIdx =>
  (⟨operandRegIdx, init bank s.numScratchRegs s.scratchRegMask
    ((bank.fullMask \ s.scratchRegMask).erase operandRegIdx) requiredNumScratchRegs⟩, s)

/-- One round of the loop of `SpillEverything`; it ends when all registers are scratch. -/
def spillLoop : ℕ → RegAllocDecisionMaker bank → Option (RegAllocDecisionMaker bank)
  | 0, s => if s.scratchRegMask = bank.fullMask then some s else none
  | fuel + 1, s =>
    match countTrailingZeros (bank.fullMask \ s.scratchRegMask) with
    | none => some s
    | some regIdx => (s.evictRegisterImpl regIdx false).bind (spillLoop fuel)

/-- `SpillEverything`. -/
def spillEverything : Option (RegAllocDecisionMaker bank) :=
  testAssert s.Idle <| spillLoop bank.numRegs s

/-- `ProcessDeathEvent`: the register of a value without another use is given back. -/
def processDeathEvent (regIdx v : ℕ) : Option (RegAllocDecisionMaker bank) :=
  testAssert (s.regValues regIdx = some v ∧ (s.nextUse v).nextUseIndex = noNextUse) <|
  s.evictRegisterImpl regIdx true

/-- `ProcessHackyBorn`: an output gets a register. -/
def processHackyBorn (regIdx v : ℕ) : Option (RegAllocDecisionMaker bank) :=
  s.loadValueToGivenRegister v regIdx true

/-- The value manager is told that the outputs are born, in the registers that were chosen; then
`ClearOutputRegMaskAfterBornEvents`. -/
def outputsBorn : Option (RegAllocDecisionMaker bank) :=
  ((List.range bank.numRegs).foldlM (fun cbs regIdx =>
    if regIdx ∈ s.outputRegMask then
      (s.regValues regIdx).bind fun v => cbs.processBornInRegister v regIdx
    else some cbs) s.cbs).map fun cbs =>
  { s with
    outputRegMask := ∅
    cbs := cbs }

end RegAllocDecisionMaker

end Dsom
