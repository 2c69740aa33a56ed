import Dsom.Jit.BranchInst
import Dsom.Jit.MoveEncoding

/-!
# Jit/RegMoveInst — moves, spills and loads of registers

The encoders of `drt/dfg_reg_move_inst_generator.h`, which patch the registers and the displacement
into a template, and the functions that predict the length.  Each encoder stores the bytes of one
encoding (`Jit/MoveEncoding`).
-/

namespace Dsom

namespace X64

/-- `X64Reg`. -/
inductive X64Reg where
  | gpr (ord : Fin 16)
  | fpr (ord : Fin 32)
  deriving DecidableEq

namespace X64Reg

/-- `IsGPR`. -/
def isGPR : X64Reg → Bool
  | gpr _ => true
  | fpr _ => false

/-- `MachineOrd`, as the encoders use it. -/
def machineOrd : X64Reg → BitVec 32
  | gpr ord => BitVec.ofNat 32 ord
  | fpr ord => BitVec.ofNat 32 ord

/-- `x_dfg_stack_base_register`, which is `RBX`. -/
def dfgStackBaseRegister : X64Reg := gpr 3

end X64Reg

open X64Reg

/-- A bit of a template that is set if the register is an extended one. -/
def bitIf (mo bit : BitVec 32) : BitVec 32 := if mo &&& 8#32 ≠ 0#32 then bit else 0#32

/-! ## Lengths -/

/-- `GetRegisterMoveInstructionLength`, by the banks of the two registers. -/
def getRegisterMoveInstructionLength (srcReg dstReg : X64Reg) : ℕ :=
  if srcReg.isGPR && dstReg.isGPR then 3
  else if !srcReg.isGPR && !dstReg.isGPR then 3
  else 5

/-- `extraLength`: the displacement has four bytes instead of one. -/
def extraLength (offsetBytes : BitVec 32) : ℕ := if offsetBytes < 128#32 then 0 else 3

/-- `GetRegisterSpillOrLoadInstructionLength`, relative to the stack base. -/
def getRegisterSpillOrLoadInstructionLength (reg : X64Reg) (stackOffsetInBytes : BitVec 32) : ℕ :=
  if reg.isGPR then 4 + extraLength stackOffsetInBytes
  else 5 + (if dfgStackBaseRegister.machineOrd < 8#32 then 0 else 1)
    + extraLength stackOffsetInBytes

/-- `GetRegisterStoreToMemBaseOffsetInstLength`. -/
def getRegisterStoreToMemBaseOffsetInstLength (reg baseReg : X64Reg) (offsetBytes : BitVec 32) :
    ℕ :=
  if reg.isGPR then 4 + extraLength offsetBytes
  else 5 + extraLength offsetBytes + if baseReg.machineOrd < 8#32 then 0 else 1

/-- `GetRegisterLoadFromMemBaseOffsetInstLength`. -/
def getRegisterLoadFromMemBaseOffsetInstLength (reg baseReg : X64Reg) (offsetBytes : BitVec 32) :
    ℕ :=
  if reg.isGPR then 4 + extraLength offsetBytes
  else 5 + extraLength offsetBytes + if baseReg.machineOrd < 8#32 then 0 else 1

/-! ## The encoders

Each writes a pattern of bytes and patches the fields of the operands. -/

namespace CodePtr

variable (c : CodePtr)

/-- Stores at distances from `addr`, which then moves on by `instLen`. -/
def patch (stores : List (ℕ × List Byte)) (instLen : ℕ) : CodePtr × ℕ :=
  (⟨stores.foldl (fun mem s => mem.write (c.addr + s.1) s.2) c.mem, c.addr + instLen⟩, instLen)

/-- `static_cast<uint8_t>`. -/
def byte (v : BitVec 32) : Byte := v.setWidth 8

/-- `EmitGprToGprMoveInst`: the opcode with its prefix, then the byte for the registers. -/
def emitGprToGprMoveInst (srcReg dstReg : X64Reg) : CodePtr × ℕ :=
  let srcMO := srcReg.machineOrd
  let dstMO := dstReg.machineOrd
  c.patch [(0, store16 ((0x8948#32 ||| bitIf srcMO 4#32 ||| bitIf dstMO 1#32).setWidth 16)),
    (2, [byte (0xc0#32 ||| (srcMO &&& 7#32) <<< 3 ||| (dstMO &&& 7#32) <<< 0)])] 3

/-- `EmitGprToFprMoveInst`. -/
def emitGprToFprMoveInst (srcReg dstReg : X64Reg) : CodePtr × ℕ :=
  let srcMO := srcReg.machineOrd
  let dstMO := dstReg.machineOrd
  c.patch [(0, store32 (0x6e0f4866#32 ||| bitIf srcMO 0x100#32)),
    (4, [byte (0xc0#32 ||| (srcMO &&& 7#32) <<< 0 ||| dstMO <<< 3)])] 5

/-- `EmitFprToGprMoveInst`. -/
def emitFprToGprMoveInst (srcReg dstReg : X64Reg) : CodePtr × ℕ :=
  let srcMO := srcReg.machineOrd
  let dstMO := dstReg.machineOrd
  c.patch [(0, store32 (0x7e0f4866#32 ||| bitIf dstMO 0x100#32)),
    (4, [byte (0xc0#32 ||| srcMO <<< 3 ||| (dstMO &&& 7#32) <<< 0)])] 5

/-- `EmitFprToFprMoveInst`: no prefix, as only the low registers are used. -/
def emitFprToFprMoveInst (srcReg dstReg : X64Reg) : CodePtr × ℕ :=
  let srcMO := srcReg.machineOrd
  let dstMO := dstReg.machineOrd
  c.patch [(0, store16 0x280f#16),
    (2, [byte (0xc0#32 ||| srcMO <<< 0 ||| dstMO <<< 3)])] 3

/-- `EmitRegisterRegisterMoveInst`, by the banks of the two registers. -/
def emitRegisterRegisterMoveInst (srcReg dstReg : X64Reg) : CodePtr :=
  if srcReg.isGPR then
    if dstReg.isGPR then (c.emitGprToGprMoveInst srcReg dstReg).1
    else (c.emitGprToFprMoveInst srcReg dstReg).1
  else if dstReg.isGPR then (c.emitFprToGprMoveInst srcReg dstReg).1
  else (c.emitFprToFprMoveInst srcReg dstReg).1

/-- A general register and `disp8(base)`. -/
def emitGprMemBaseOffsetImm8Inst (template : BitVec 32) (reg baseReg : X64Reg)
    (offsetBytes : BitVec 32) : CodePtr × ℕ :=
  let stkMO := baseReg.machineOrd
  let regMO := reg.machineOrd
  c.patch [(0, store32 (template ||| bitIf stkMO 1#32 ||| (stkMO &&& 7#32) <<< 16
    ||| bitIf regMO 4#32 ||| (regMO &&& 7#32) <<< 19 ||| offsetBytes <<< 24))] 4

/-- A general register and `disp32(base)`; the second store overlaps the first. -/
def emitGprMemBaseOffsetImm32Inst (template : BitVec 32) (reg baseReg : X64Reg)
    (offsetBytes : BitVec 32) : CodePtr × ℕ :=
  let stkMO := baseReg.machineOrd
  let regMO := reg.machineOrd
  c.patch [(0, store32 (template ||| bitIf stkMO 1#32 ||| (stkMO &&& 7#32) <<< 16
    ||| bitIf regMO 4#32 ||| (regMO &&& 7#32) <<< 19)), (3, store32 offsetBytes)] 7

/-- A vector register and `disp8(base)`, with a template for the extended bases. -/
def emitFprMemBaseOffsetImm8Inst (extendedTemplate template : BitVec 32) (reg baseReg : X64Reg)
    (offsetBytes : BitVec 32) : CodePtr × ℕ :=
  let stkMO := baseReg.machineOrd
  let regMO := reg.machineOrd
  if 8#32 ≤ stkMO then
    c.patch [(0, store32 extendedTemplate),
      (4, store16 ((0x0040#32 ||| (stkMO &&& 7#32) <<< 0 ||| regMO <<< 3
        ||| offsetBytes <<< 8).setWidth 16))] 6
  else
    c.patch [(0, store32 (template ||| (stkMO &&& 7#32) <<< 24 ||| regMO <<< 27)),
      (4, [byte offsetBytes])] 5

/-- A vector register and `disp32(base)`. -/
def emitFprMemBaseOffsetImm32Inst (extendedTemplate template : BitVec 32) (reg baseReg : X64Reg)
    (offsetBytes : BitVec 32) : CodePtr × ℕ :=
  let stkMO := baseReg.machineOrd
  let regMO := reg.machineOrd
  if 8#32 ≤ stkMO then
    c.patch [(0, store32 extendedTemplate),
      (4, [byte (0x80#32 ||| (stkMO &&& 7#32) <<< 0 ||| regMO <<< 3)]),
      (5, store32 offsetBytes)] 9
  else
    c.patch [(0, store32 (template ||| (stkMO &&& 7#32) <<< 24 ||| regMO <<< 27)),
      (4, store32 offsetBytes)] 8

/-- `EmitGprStoreToMemBaseOffsetImm8Inst`. -/
def emitGprStoreToMemBaseOffsetImm8Inst : X64Reg → X64Reg → BitVec 32 → CodePtr × ℕ :=
  c.emitGprMemBaseOffsetImm8Inst 0x00408948#32

/-- `EmitGprStoreToMemBaseOffsetImm32Inst`. -/
def emitGprStoreToMemBaseOffsetImm32Inst : X64Reg → X64Reg → BitVec 32 → CodePtr × ℕ :=
  c.emitGprMemBaseOffsetImm32Inst 0x00808948#32

/-- `EmitFprStoreToMemBaseOffsetImm8Inst`. -/
def emitFprStoreToMemBaseOffsetImm8Inst : X64Reg → X64Reg → BitVec 32 → CodePtr × ℕ :=
  c.emitFprMemBaseOffsetImm8Inst 0x110f41f2#32 0x40110ff2#32

/-- `EmitFprStoreToMemBaseOffsetImm32Inst`. -/
def emitFprStoreToMemBaseOffsetImm32Inst : X64Reg → X64Reg → BitVec 32 → CodePtr × ℕ :=
  c.emitFprMemBaseOffsetImm32Inst 0x110f41f2#32 0x80110ff2#32

/-- `EmitGprLoadFromMemBaseOffsetImm8Inst`. -/
def emitGprLoadFromMemBaseOffsetImm8Inst : X64Reg → X64Reg → BitVec 32 → CodePtr × ℕ :=
  c.emitGprMemBaseOffsetImm8Inst 0x00408b48#32

/-- `EmitGprLoadFromMemBaseOffsetImm32Inst`. -/
def emitGprLoadFromMemBaseOffsetImm32Inst : X64Reg → X64Reg → BitVec 32 → CodePtr × ℕ :=
  c.emitGprMemBaseOffsetImm32Inst 0x00808b48#32

/-- `EmitFprLoadFromMemBaseOffsetImm8Inst`. -/
def emitFprLoadFromMemBaseOffsetImm8Inst : X64Reg → X64Reg → BitVec 32 → CodePtr × ℕ :=
  c.emitFprMemBaseOffsetImm8Inst 0x100f41f2#32 0x40100ff2#32

/-- `EmitFprLoadFromMemBaseOffsetImm32Inst`. -/
def emitFprLoadFromMemBaseOffsetImm32Inst : X64Reg → X64Reg → BitVec 32 → CodePtr × ℕ :=
  c.emitFprMemBaseOffsetImm32Inst 0x100f41f2#32 0x80100ff2#32

/-- `EmitRegisterStoreToMemBaseOffsetInstruction`: eight bits of displacement where they are enough.
-/
def emitRegisterStoreToMemBaseOffsetInstruction (reg baseReg : X64Reg) (offsetBytes : BitVec 32) :
    CodePtr :=
  if reg.isGPR then
    if offsetBytes < 128#32 then
      (c.emitGprStoreToMemBaseOffsetImm8Inst reg baseReg offsetBytes).1
    else (c.emitGprStoreToMemBaseOffsetImm32Inst reg baseReg offsetBytes).1
  else if offsetBytes < 128#32 then
    (c.emitFprStoreToMemBaseOffsetImm8Inst reg baseReg offsetBytes).1
  else (c.emitFprStoreToMemBaseOffsetImm32Inst reg baseReg offsetBytes).1

/-- `EmitRegisterLoadFromMemBaseOffsetInstruction`, likewise. -/
def emitRegisterLoadFromMemBaseOffsetInstruction (reg baseReg : X64Reg) (offsetBytes : BitVec 32) :
    CodePtr :=
  if reg.isGPR then
    if offsetBytes < 128#32 then
      (c.emitGprLoadFromMemBaseOffsetImm8Inst reg baseReg offsetBytes).1
    else (c.emitGprLoadFromMemBaseOffsetImm32Inst reg baseReg offsetBytes).1
  else if offsetBytes < 128#32 then
    (c.emitFprLoadFromMemBaseOffsetImm8Inst reg baseReg offsetBytes).1
  else (c.emitFprLoadFromMemBaseOffsetImm32Inst reg baseReg offsetBytes).1

/-- `EmitRegisterSpillToStackInst`, with the four functions it calls. -/
def emitRegisterSpillToStackInst (reg : X64Reg) (offsetBytes : BitVec 32) : CodePtr :=
  if reg.isGPR then
    if offsetBytes < 128#32 then
      (c.emitGprStoreToMemBaseOffsetImm8Inst reg dfgStackBaseRegister offsetBytes).1
    else (c.emitGprStoreToMemBaseOffsetImm32Inst reg dfgStackBaseRegister offsetBytes).1
  else if offsetBytes < 128#32 then
    (c.emitFprStoreToMemBaseOffsetImm8Inst reg dfgStackBaseRegister offsetBytes).1
  else (c.emitFprStoreToMemBaseOffsetImm32Inst reg dfgStackBaseRegister offsetBytes).1

/-- `EmitRegisterLoadFromStackInst`, with the four functions it calls. -/
def emitRegisterLoadFromStackInst (reg : X64Reg) (offsetBytes : BitVec 32) : CodePtr :=
  if reg.isGPR then
    if offsetBytes < 128#32 then
      (c.emitGprLoadFromMemBaseOffsetImm8Inst reg dfgStackBaseRegister offsetBytes).1
    else (c.emitGprLoadFromMemBaseOffsetImm32Inst reg dfgStackBaseRegister offsetBytes).1
  else if offsetBytes < 128#32 then
    (c.emitFprLoadFromMemBaseOffsetImm8Inst reg dfgStackBaseRegister offsetBytes).1
  else (c.emitFprLoadFromMemBaseOffsetImm32Inst reg dfgStackBaseRegister offsetBytes).1

/-! ## What is stored -/

variable {c}

/-- A store that overlaps the end of another one. -/
theorem write_write (mem : Memory) (addr : ℕ) (xs : List Byte) {ys zs : List Byte}
    (hle : ys.length ≤ zs.length) :
    (mem.write addr (xs ++ ys)).write (addr + xs.length) zs = mem.write addr (xs ++ zs) := by
  funext a
  rcases Nat.lt_or_ge a addr with ha | ha
  · rw [Memory.write_of_lt (by omega), Memory.write_of_lt ha, Memory.write_of_lt ha]
  rcases Nat.lt_or_ge a (addr + xs.length) with hx | hx
  · rw [Memory.write_of_lt hx, Memory.write, Memory.write, if_pos ha, if_pos ha,
      List.getElem?_append_left (by omega), List.getElem?_append_left (by omega)]
  rcases Nat.lt_or_ge a (addr + xs.length + zs.length) with hz | hz
  · rw [Memory.write, if_pos hx, Memory.write, if_pos ha, Memory.write, if_pos ha,
      List.getElem?_append_right (by omega), List.getElem?_append_right (by omega),
      show a - addr - xs.length = a - (addr + xs.length) by omega,
      List.getElem?_eq_getElem (show a - (addr + xs.length) < zs.length by omega)]
    rfl
  · rw [Memory.write_of_ge hz, Memory.write_of_ge (by rw [List.length_append]; omega),
      Memory.write_of_ge (by rw [List.length_append]; omega)]

/-- The second store goes on behind the first one, or overlaps its end. -/
theorem patch_cons {xs zs : List Byte} {stores : List (ℕ × List Byte)} {k instLen : ℕ}
    (hk : k ≤ xs.length) (hle : xs.length ≤ k + zs.length) :
    c.patch ((0, xs) :: (k, zs) :: stores) instLen
      = c.patch ((0, xs.take k ++ zs) :: stores) instLen := by
  have hmem : (c.mem.write c.addr xs).write (c.addr + k) zs
      = c.mem.write c.addr (xs.take k ++ zs) := by
    have h := write_write c.mem c.addr (xs.take k)
      (show (xs.drop k).length ≤ zs.length by rw [List.length_drop]; omega)
    rwa [List.take_append_drop, List.length_take_of_le hk] at h
  simp only [patch, List.foldl_cons, Nat.add_zero, hmem]

/-- One piece of bytes. -/
theorem patch_one {bytes : List Byte} {instLen : ℕ} (hlen : bytes.length = instLen) :
    (c.patch [(0, bytes)] instLen).1 = c.store bytes := by
  simp only [patch, List.foldl_cons, List.foldl_nil, Nat.add_zero, store, hlen]

/-- Two pieces, the second behind or over the end of the first. -/
theorem patch_two {xs zs : List Byte} {k instLen : ℕ} (hk : k ≤ xs.length)
    (hle : xs.length ≤ k + zs.length) (hlen : k + zs.length = instLen) :
    (c.patch [(0, xs), (k, zs)] instLen).1 = c.store (xs.take k ++ zs) := by
  rw [patch_cons hk hle, patch_one]
  rw [List.length_append, List.length_take_of_le hk, hlen]

/-- **An instruction is emitted**: its bytes are there, `addr` is behind them, and no other byte has
changed. -/
structure Emits (c c' : CodePtr) (inst : MoveInst) (instLen : ℕ) : Prop where
  addr : c'.addr = c.addr + instLen
  decode : decodeMove (c'.mem.window c.addr) = some (inst, instLen)
  frame : ∀ a, a < c.addr ∨ c.addr + instLen ≤ a → c'.mem a = c.mem a

/-- Storing an encoding emits the instruction it decodes to. -/
theorem emits_store {bytes : List Byte} {inst : MoveInst} {instLen : ℕ}
    (hlen : bytes.length = instLen) (hle : instLen ≤ 15)
    (hdecode : ∀ rest, decodeMove (bytes ++ rest) = some (inst, instLen)) :
    Emits c (c.store bytes) inst instLen := by
  obtain ⟨haddr, hholds, -⟩ := emitted_store c bytes
  obtain ⟨rest, hrest⟩ := hholds.window (hlen ▸ hle)
  refine ⟨hlen ▸ haddr, hrest ▸ hdecode rest, fun a ha => ?_⟩
  rcases ha with ha | ha
  · exact Memory.write_of_lt ha
  · exact Memory.write_of_ge (hlen ▸ ha)

/-! ## The bytes of the patched templates

A template is a constant of two or four bytes; the fields of the registers are shifted into it. -/

/-- The bytes of a union are the unions of the bytes. -/
theorem store32_or (v w : BitVec 32) :
    store32 (v ||| w) = List.zipWith (· ||| ·) (store32 v) (store32 w) := by
  simp [store32, BitVec.extractLsb'_or]

theorem store16_or (v w : BitVec 16) :
    store16 (v ||| w) = List.zipWith (· ||| ·) (store16 v) (store16 w) := by
  simp [store16, BitVec.extractLsb'_or]

theorem byte_or (v w : BitVec 32) : byte (v ||| w) = byte v ||| byte w := BitVec.setWidth_or

/-- The prefix bit of a register. -/
theorem bitIf_gpr (r : Fin 16) (bit : BitVec 32) :
    bitIf (gpr r).machineOrd bit = if extended r then bit else 0#32 := by
  have hextended : ∀ r : Fin 16, (gpr r).machineOrd &&& 8#32 ≠ 0#32 ↔ extended r = true := by
    decide
  simp only [bitIf, hextended]

/-- The low three bits of a register's number. -/
theorem machineOrd_and : ∀ r : Fin 16,
    (gpr r).machineOrd &&& 7#32 = (field r).setWidth 32 := by
  decide

/-- A low register has no more than three bits. -/
theorem machineOrd_fpr : ∀ r : Fin 32, r.val < 8 →
    (fpr r).machineOrd = (field r).setWidth 32 := by
  decide

/-! A field at the places where the templates have one. -/

theorem byte_shiftLeft_zero : ∀ f : BitVec 3, byte (f.setWidth 32 <<< 0) = f.setWidth 8 := by
  decide

theorem byte_shiftLeft_three : ∀ f : BitVec 3,
    byte (f.setWidth 32 <<< 3) = f.setWidth 8 <<< 3 := by
  decide

theorem store16_shiftLeft_zero : ∀ f : BitVec 3,
    store16 ((f.setWidth 32 <<< 0).setWidth 16) = [f.setWidth 8, 0#8] := by
  decide

theorem store16_shiftLeft_three : ∀ f : BitVec 3,
    store16 ((f.setWidth 32 <<< 3).setWidth 16) = [f.setWidth 8 <<< 3, 0#8] := by
  decide

theorem store32_shiftLeft_16 : ∀ f : BitVec 3,
    store32 (f.setWidth 32 <<< 16) = [0#8, 0#8, f.setWidth 8, 0#8] := by
  decide

theorem store32_shiftLeft_19 : ∀ f : BitVec 3,
    store32 (f.setWidth 32 <<< 19) = [0#8, 0#8, f.setWidth 8 <<< 3, 0#8] := by
  decide

theorem store32_shiftLeft_24 : ∀ f : BitVec 3,
    store32 (f.setWidth 32 <<< 24) = [0#8, 0#8, 0#8, f.setWidth 8] := by
  decide

theorem store32_shiftLeft_27 : ∀ f : BitVec 3,
    store32 (f.setWidth 32 <<< 27) = [0#8, 0#8, 0#8, f.setWidth 8 <<< 3] := by
  decide

theorem modRM_eq : ∀ (mod : BitVec 2) (reg rm : BitVec 3),
    modRM mod reg rm = mod.setWidth 8 <<< 6 ||| rm.setWidth 8 ||| reg.setWidth 8 <<< 3 := by
  decide

/-- The fields the other way round. -/
theorem modRM_eq' (mod : BitVec 2) (reg rm : BitVec 3) :
    modRM mod reg rm = mod.setWidth 8 <<< 6 ||| reg.setWidth 8 <<< 3 ||| rm.setWidth 8 := by
  rw [modRM_eq, BitVec.or_assoc, BitVec.or_comm (rm.setWidth 8), BitVec.or_assoc]

/-! ## Moves between registers -/

theorem gprToGpr_bytes (src dst : Fin 16) :
    store16 ((0x8948#32 ||| bitIf (gpr src).machineOrd 4#32
        ||| bitIf (gpr dst).machineOrd 1#32).setWidth 16)
      ++ [byte (0xc0#32 ||| ((gpr src).machineOrd &&& 7#32) <<< 3
        ||| ((gpr dst).machineOrd &&& 7#32) <<< 0)]
      = [rexW (extended src) (extended dst), 0x89#8, modRM 3#2 (field src) (field dst)] := by
  simp only [bitIf_gpr, machineOrd_and, BitVec.setWidth_or, store16_or, byte_or,
    byte_shiftLeft_zero, byte_shiftLeft_three, modRM_eq']
  cases extended src <;> cases extended dst <;> simp [store16, byte, rexW]

/-- Between two general registers. -/
theorem emits_gprToGpr (src dst : Fin 16) :
    Emits c (c.emitGprToGprMoveInst (gpr src) (gpr dst)).1 ⟨.mov, .gpr dst, .gpr src⟩ 3 := by
  have hstore : (c.emitGprToGprMoveInst (gpr src) (gpr dst)).1 = c.store _ :=
    (patch_two (by simp) (by simp) rfl).trans (congrArg c.store (gprToGpr_bytes src dst))
  have hform : oneByteForm none ⟨true, extended src, false, extended dst⟩ 0x89#8
      = some ⟨.mov, false, false, false⟩ := rfl
  rw [hstore]
  refine emits_store rfl (by decide) fun rest => ?_
  have hdecode := decodeMove_oneByte (by decide) hform
    (decodeOperands_of_decodeRm (decodeRm_reg (field src) (field dst) rest))
  simpa [regPlace_gpr] using hdecode

theorem gprToFpr_bytes (src : Fin 16) {dst : Fin 32} (hdst : dst.val < 8) :
    store32 (0x6e0f4866#32 ||| bitIf (gpr src).machineOrd 0x100#32)
      ++ [byte (0xc0#32 ||| ((gpr src).machineOrd &&& 7#32) <<< 0
        ||| (fpr dst).machineOrd <<< 3)]
      = [0x66#8, rexW false (extended src), 0x0f#8, 0x6e#8, modRM 3#2 (field dst) (field src)] := by
  simp only [bitIf_gpr, machineOrd_and, machineOrd_fpr dst hdst, store32_or, byte_or,
    byte_shiftLeft_zero, byte_shiftLeft_three, modRM_eq]
  cases extended src <;> simp [store32, byte, rexW]

/-- From a general register to a vector register. -/
theorem emits_gprToFpr (src : Fin 16) {dst : Fin 32} (hdst : dst.val < 8) :
    Emits c (c.emitGprToFprMoveInst (gpr src) (fpr dst)).1 ⟨.movq, .xmm dst, .gpr src⟩ 5 := by
  have hstore : (c.emitGprToFprMoveInst (gpr src) (fpr dst)).1 = c.store _ :=
    (patch_two (by simp) (by simp) rfl).trans (congrArg c.store (gprToFpr_bytes src hdst))
  have hform : twoByteForm (some 0x66#8) ⟨true, false, false, extended src⟩ 0x6e#8
      = some ⟨.movq, true, true, false⟩ := rfl
  rw [hstore]
  refine emits_store rfl (by decide) fun rest => ?_
  have hdecode := decodeMove_twoByte_rexW hform
    (decodeOperands_of_decodeRm (decodeRm_reg (field dst) (field src) rest))
  simpa [regPlace_gpr, regPlace_xmm dst hdst] using hdecode

theorem fprToGpr_bytes {src : Fin 32} (dst : Fin 16) (hsrc : src.val < 8) :
    store32 (0x7e0f4866#32 ||| bitIf (gpr dst).machineOrd 0x100#32)
      ++ [byte (0xc0#32 ||| (fpr src).machineOrd <<< 3
        ||| ((gpr dst).machineOrd &&& 7#32) <<< 0)]
      = [0x66#8, rexW false (extended dst), 0x0f#8, 0x7e#8, modRM 3#2 (field src) (field dst)] := by
  simp only [bitIf_gpr, machineOrd_and, machineOrd_fpr src hsrc, store32_or, byte_or,
    byte_shiftLeft_zero, byte_shiftLeft_three, modRM_eq']
  cases extended dst <;> simp [store32, byte, rexW]

/-- From a vector register to a general register. -/
theorem emits_fprToGpr {src : Fin 32} (dst : Fin 16) (hsrc : src.val < 8) :
    Emits c (c.emitFprToGprMoveInst (fpr src) (gpr dst)).1 ⟨.movq, .gpr dst, .xmm src⟩ 5 := by
  have hstore : (c.emitFprToGprMoveInst (fpr src) (gpr dst)).1 = c.store _ :=
    (patch_two (by simp) (by simp) rfl).trans (congrArg c.store (fprToGpr_bytes dst hsrc))
  have hform : twoByteForm (some 0x66#8) ⟨true, false, false, extended dst⟩ 0x7e#8
      = some ⟨.movq, false, true, false⟩ := rfl
  rw [hstore]
  refine emits_store rfl (by decide) fun rest => ?_
  have hdecode := decodeMove_twoByte_rexW hform
    (decodeOperands_of_decodeRm (decodeRm_reg (field src) (field dst) rest))
  simpa [regPlace_gpr, regPlace_xmm src hsrc] using hdecode

theorem fprToFpr_bytes {src dst : Fin 32} (hsrc : src.val < 8) (hdst : dst.val < 8) :
    store16 0x280f#16 ++ [byte (0xc0#32 ||| (fpr src).machineOrd <<< 0
        ||| (fpr dst).machineOrd <<< 3)]
      = [0x0f#8, 0x28#8, modRM 3#2 (field dst) (field src)] := by
  simp only [machineOrd_fpr src hsrc, machineOrd_fpr dst hdst, byte_or, byte_shiftLeft_zero,
    byte_shiftLeft_three, modRM_eq]
  simp [store16, byte]

/-- Between two vector registers. -/
theorem emits_fprToFpr {src dst : Fin 32} (hsrc : src.val < 8) (hdst : dst.val < 8) :
    Emits c (c.emitFprToFprMoveInst (fpr src) (fpr dst)).1 ⟨.movaps, .xmm dst, .xmm src⟩ 3 := by
  have hstore : (c.emitFprToFprMoveInst (fpr src) (fpr dst)).1 = c.store _ :=
    (patch_two (by simp) (by simp) rfl).trans
      (congrArg c.store (fprToFpr_bytes hsrc hdst))
  have hform : twoByteForm none ⟨false, false, false, false⟩ 0x28#8
      = some ⟨.movaps, true, true, true⟩ := rfl
  rw [hstore]
  refine emits_store rfl (by decide) fun rest => ?_
  have hdecode := decodeMove_twoByte_plain hform
    (decodeOperands_of_decodeRm (decodeRm_reg (field dst) (field src) rest))
  simpa [regPlace_xmm src hsrc, regPlace_xmm dst hdst] using hdecode

/-! ## Spills and loads

The same encoders serve both, with the direction in the opcode. -/

/-- A displacement of one byte is patched in behind the other bytes of a template. -/
theorem extractLsb'_or_shiftLeft (w d : BitVec 32) {n : ℕ} (hn : n + 8 ≤ 32) :
    (∀ k, k + 8 ≤ n → (w ||| d <<< n).extractLsb' k 8 = w.extractLsb' k 8)
      ∧ (w ||| d <<< n).extractLsb' n 8 = w.extractLsb' n 8 ||| d.extractLsb' 0 8 := by
  refine ⟨fun k hk => ?_, ?_⟩ <;> refine BitVec.eq_of_getLsbD_eq fun i hi => ?_ <;>
    simp only [BitVec.getLsbD_extractLsb', BitVec.getLsbD_or, BitVec.getLsbD_shiftLeft]
  · simp [show k + i < n by omega]
  · simp [hi, show n + i < 32 by omega]

theorem store32_or_shiftLeft {w : BitVec 32} {b₀ b₁ b₂ : Byte} (h : store32 w = [b₀, b₁, b₂, 0])
    (d : BitVec 32) : store32 (w ||| d <<< 24) = [b₀, b₁, b₂, d.extractLsb' 0 8] := by
  obtain ⟨hlow, hhigh⟩ := extractLsb'_or_shiftLeft w d (n := 24) (by omega)
  simp only [store32, List.cons.injEq] at h
  obtain ⟨rfl, rfl, rfl, h₃, -⟩ := h
  rw [store32, hlow 0 (by omega), hlow 8 (by omega), hlow 16 (by omega), hhigh, h₃]
  simp

theorem store16_or_shiftLeft {w : BitVec 32} {b₀ : Byte} (h : store16 (w.setWidth 16) = [b₀, 0])
    (d : BitVec 32) : store16 ((w ||| d <<< 8).setWidth 16) = [b₀, d.extractLsb' 0 8] := by
  obtain ⟨hlow, hhigh⟩ := extractLsb'_or_shiftLeft w d (n := 8) (by omega)
  have hset (v : BitVec 32) : store16 (v.setWidth 16) = [v.extractLsb' 0 8, v.extractLsb' 8 8] := by
    simp [store16, BitVec.extractLsb'_setWidth_of_le]
  rw [hset] at h ⊢
  simp only [List.cons.injEq] at h
  obtain ⟨rfl, h₁, -⟩ := h
  rw [hlow 0 (by omega), hhigh, h₁]
  simp

/-- A small displacement is not negative. -/
theorem toInt_disp8 {offsetBytes : BitVec 32} (h : offsetBytes < 128#32) :
    (offsetBytes.extractLsb' 0 8).toInt = (offsetBytes.toNat : ℤ) := by
  rw [BitVec.lt_def, BitVec.toNat_ofNat] at h
  rw [BitVec.toInt_eq_toNat_cond, BitVec.extractLsb'_toNat]
  simp only [Nat.shiftRight_zero]
  split_ifs <;> omega

/-- Nor is a larger one. -/
theorem toInt_disp32 {offsetBytes : BitVec 32} (h : offsetBytes ≤ 0x7fffffff#32) :
    offsetBytes.toInt = (offsetBytes.toNat : ℤ) := by
  rw [BitVec.le_def, BitVec.toNat_ofNat] at h
  rw [BitVec.toInt_eq_toNat_cond]
  split_ifs <;> omega

/-- The operand `offset(base)`. -/
def memOperand (base : Fin 16) (offsetBytes : BitVec 32) : Place :=
  .mem (some base) none offsetBytes.toNat

/-- A load from memory, or a store. -/
def memInst (op : MoveOp) (load : Bool) (place mem : Place) : MoveInst :=
  if load then ⟨op, place, mem⟩ else ⟨op, mem, place⟩

/-- `RSP` and `R12` have the field that announces another byte. -/
theorem field_ne : ∀ base : Fin 16, base ≠ 4 → base ≠ 12 → field base ≠ 4#3 := by decide

/-- The bytes of the short form for general registers. -/
theorem gprDisp8_bytes (load : Bool) (reg base : Fin 16) :
    store32 ((if load then 0x00408b48#32 else 0x00408948#32) ||| bitIf (gpr base).machineOrd 1#32
        ||| ((gpr base).machineOrd &&& 7#32) <<< 16 ||| bitIf (gpr reg).machineOrd 4#32
        ||| ((gpr reg).machineOrd &&& 7#32) <<< 19)
      = [rexW (extended reg) (extended base), if load then 0x8b#8 else 0x89#8,
        modRM 1#2 (field reg) (field base), 0] := by
  simp only [bitIf_gpr, machineOrd_and, store32_or, store32_shiftLeft_16, store32_shiftLeft_19,
    modRM_eq]
  cases load <;> cases extended reg <;> cases extended base <;> simp [store32, rexW]

/-- The bytes of the long form for general registers. -/
theorem gprDisp32_bytes (load : Bool) (reg base : Fin 16) :
    store32 ((if load then 0x00808b48#32 else 0x00808948#32) ||| bitIf (gpr base).machineOrd 1#32
        ||| ((gpr base).machineOrd &&& 7#32) <<< 16 ||| bitIf (gpr reg).machineOrd 4#32
        ||| ((gpr reg).machineOrd &&& 7#32) <<< 19)
      = [rexW (extended reg) (extended base), if load then 0x8b#8 else 0x89#8,
        modRM 2#2 (field reg) (field base), 0] := by
  simp only [bitIf_gpr, machineOrd_and, store32_or, store32_shiftLeft_16, store32_shiftLeft_19,
    modRM_eq]
  cases load <;> cases extended reg <;> cases extended base <;> simp [store32, rexW]

section Gpr

variable (load : Bool) (reg : Fin 16) {base : Fin 16} {offsetBytes : BitVec 32}

theorem oneByteForm_mov (r b : Bool) :
    oneByteForm none ⟨true, r, false, b⟩ (if load then 0x8b#8 else 0x89#8)
      = some ⟨.mov, load, false, false⟩ := by
  cases load <;> rfl

/-- A general register, with eight bits of displacement. -/
theorem emits_gprDisp8 (hbase : field base ≠ 4#3) (hoffset : offsetBytes < 128#32) :
    Emits c (c.emitGprMemBaseOffsetImm8Inst (if load then 0x00408b48#32 else 0x00408948#32)
        (gpr reg) (gpr base) offsetBytes).1
      (memInst .mov load (.gpr reg) (memOperand base offsetBytes)) 4 := by
  have hstore : (c.emitGprMemBaseOffsetImm8Inst (if load then 0x00408b48#32 else 0x00408948#32)
      (gpr reg) (gpr base) offsetBytes).1 = c.store _ :=
    (patch_one rfl).trans
      (congrArg c.store (store32_or_shiftLeft (gprDisp8_bytes load reg base) offsetBytes))
  rw [hstore]
  refine emits_store rfl (by decide) fun rest => ?_
  have hdecode := decodeMove_oneByte (by cases load <;> decide)
    (oneByteForm_mov load (extended reg) (extended base))
    (decodeOperands_of_decodeRm
      (decodeRm_disp8 (field reg) hbase (offsetBytes.extractLsb' 0 8) rest))
  simpa [regPlace, regOf_field, memInst, memOperand, toInt_disp8 hoffset] using hdecode

/-- A general register, with 32 bits. -/
theorem emits_gprDisp32 (hbase : field base ≠ 4#3) (hoffset : offsetBytes ≤ 0x7fffffff#32) :
    Emits c (c.emitGprMemBaseOffsetImm32Inst (if load then 0x00808b48#32 else 0x00808948#32)
        (gpr reg) (gpr base) offsetBytes).1
      (memInst .mov load (.gpr reg) (memOperand base offsetBytes)) 7 := by
  have hbytes := congrArg (fun l => l.take 3 ++ store32 offsetBytes) (gprDisp32_bytes load reg base)
  have hstore : (c.emitGprMemBaseOffsetImm32Inst (if load then 0x00808b48#32 else 0x00808948#32)
      (gpr reg) (gpr base) offsetBytes).1 = c.store _ :=
    (patch_two (by simp) (by simp) rfl).trans (congrArg c.store hbytes)
  rw [hstore]
  refine emits_store rfl (by decide) fun rest => ?_
  have hdecode := decodeMove_oneByte (by cases load <;> decide)
    (oneByteForm_mov load (extended reg) (extended base))
    (decodeOperands_of_decodeRm
      (decodeRm_disp32 (field reg) hbase offsetBytes rest))
  simpa [regPlace, regOf_field, memInst, memOperand, toInt_disp32 hoffset] using hdecode

end Gpr

theorem fprDisp8_bytes (load : Bool) {reg : Fin 32} (base : Fin 16) (hreg : reg.val < 8) :
    store32 ((if load then 0x40100ff2#32 else 0x40110ff2#32)
        ||| ((gpr base).machineOrd &&& 7#32) <<< 24 ||| (fpr reg).machineOrd <<< 27)
      = [0xf2#8, 0x0f#8, if load then 0x10#8 else 0x11#8, modRM 1#2 (field reg) (field base)] := by
  simp only [machineOrd_and, machineOrd_fpr reg hreg, store32_or, store32_shiftLeft_24,
    store32_shiftLeft_27, modRM_eq]
  cases load <;> simp [store32]

theorem fprDisp32_bytes (load : Bool) {reg : Fin 32} (base : Fin 16) (hreg : reg.val < 8) :
    store32 ((if load then 0x80100ff2#32 else 0x80110ff2#32)
        ||| ((gpr base).machineOrd &&& 7#32) <<< 24 ||| (fpr reg).machineOrd <<< 27)
      = [0xf2#8, 0x0f#8, if load then 0x10#8 else 0x11#8, modRM 2#2 (field reg) (field base)] := by
  simp only [machineOrd_and, machineOrd_fpr reg hreg, store32_or, store32_shiftLeft_24,
    store32_shiftLeft_27, modRM_eq]
  cases load <;> simp [store32]

/-- The prefix of an extended base register. -/
theorem fprExtended_bytes : ∀ load : Bool,
    store32 (if load then 0x100f41f2#32 else 0x110f41f2#32)
      = [0xf2#8, rexB, 0x0f#8, if load then 0x10#8 else 0x11#8] := by
  decide

theorem fprExtendedDisp8_bytes {reg : Fin 32} (base : Fin 16) (hreg : reg.val < 8) :
    store16 ((0x0040#32 ||| ((gpr base).machineOrd &&& 7#32) <<< 0
        ||| (fpr reg).machineOrd <<< 3).setWidth 16)
      = [modRM 1#2 (field reg) (field base), 0] := by
  simp only [machineOrd_and, machineOrd_fpr reg hreg, BitVec.setWidth_or, store16_or,
    store16_shiftLeft_zero, store16_shiftLeft_three, modRM_eq]
  simp [store16]

theorem fprExtendedDisp32_bytes {reg : Fin 32} (base : Fin 16) (hreg : reg.val < 8) :
    byte (0x80#32 ||| ((gpr base).machineOrd &&& 7#32) <<< 0 ||| (fpr reg).machineOrd <<< 3)
      = modRM 2#2 (field reg) (field base) := by
  simp only [machineOrd_and, machineOrd_fpr reg hreg, byte_or, byte_shiftLeft_zero,
    byte_shiftLeft_three, modRM_eq]
  simp [byte]

theorem byte_eq (v : BitVec 32) : byte v = v.extractLsb' 0 8 := by
  simp [byte, BitVec.setWidth_eq_extractLsb']

/-- The comparison of the encoders with an extended base. -/
theorem le_machineOrd : ∀ base : Fin 16, 8#32 ≤ (gpr base).machineOrd ↔ 8 ≤ base.val := by
  decide

section Fpr

variable (load : Bool) {reg : Fin 32} {base : Fin 16} {offsetBytes : BitVec 32}

theorem twoByteForm_movsd (b : Bool) :
    twoByteForm (some 0xf2#8) ⟨false, false, false, b⟩ (if load then 0x10#8 else 0x11#8)
      = some ⟨.movsd, load, true, true⟩ := by
  cases load <;> rfl

/-- The length of a `movsd` with a displacement of `n` bytes. -/
def movsdLength (base : Fin 16) (n : ℕ) : ℕ := 4 + n + if base.val < 8 then 0 else 1

/-- A vector register, with eight bits of displacement. -/
theorem emits_fprDisp8 (hreg : reg.val < 8) (hbase : field base ≠ 4#3)
    (hoffset : offsetBytes < 128#32) :
    Emits c (c.emitFprMemBaseOffsetImm8Inst (if load then 0x100f41f2#32 else 0x110f41f2#32)
        (if load then 0x40100ff2#32 else 0x40110ff2#32) (fpr reg) (gpr base) offsetBytes).1
      (memInst .movsd load (.xmm reg) (memOperand base offsetBytes)) (movsdLength base 1) := by
  rcases Nat.lt_or_ge base.val 8 with hlt | hge
  · have hbytes : _ ++ [byte offsetBytes] = _ := congrArg₂ (fun l d => l.take 4 ++ [d])
      (fprDisp8_bytes load base hreg) (byte_eq offsetBytes)
    have hstore : (c.emitFprMemBaseOffsetImm8Inst (if load then 0x100f41f2#32 else 0x110f41f2#32)
        (if load then 0x40100ff2#32 else 0x40110ff2#32) (fpr reg) (gpr base) offsetBytes).1
        = c.store _ :=
      (congrArg Prod.fst (if_neg (mt (le_machineOrd base).mp (Nat.not_le.mpr hlt)))).trans
        ((patch_two (by simp) (by simp) rfl).trans (congrArg c.store hbytes))
    rw [hstore, movsdLength, if_pos hlt]
    refine emits_store rfl (by decide) fun rest => ?_
    have hdecode := decodeMove_twoByte (twoByteForm_movsd load false)
      (decodeOperands_of_decodeRm
        (decodeRm_disp8 (field reg) hbase (offsetBytes.extractLsb' 0 8) rest))
    simpa [regPlace_xmm reg hreg, regOf_field_of_lt base hlt, memInst, memOperand,
      toInt_disp8 hoffset] using hdecode
  · have hbytes := congrArg₂ (fun l d => l.take 4 ++ d) (fprExtended_bytes load)
      (store16_or_shiftLeft (fprExtendedDisp8_bytes base hreg) offsetBytes)
    have hstore : (c.emitFprMemBaseOffsetImm8Inst (if load then 0x100f41f2#32 else 0x110f41f2#32)
        (if load then 0x40100ff2#32 else 0x40110ff2#32) (fpr reg) (gpr base) offsetBytes).1
        = c.store _ :=
      (congrArg Prod.fst (if_pos ((le_machineOrd base).mpr hge))).trans
        ((patch_two (by simp) (by simp) rfl).trans (congrArg c.store hbytes))
    rw [hstore, movsdLength, if_neg (Nat.not_lt.mpr hge)]
    refine emits_store rfl (by decide) fun rest => ?_
    have hdecode := decodeMove_twoByte_rexB (twoByteForm_movsd load true)
      (decodeOperands_of_decodeRm
        (decodeRm_disp8 (field reg) hbase (offsetBytes.extractLsb' 0 8) rest))
    have hext : regOf true (field base) = base := by
      have h := regOf_field base
      rwa [extended, decide_eq_true hge] at h
    simpa [regPlace_xmm reg hreg, hext, memInst, memOperand, toInt_disp8 hoffset] using hdecode

/-- A vector register, with 32 bits. -/
theorem emits_fprDisp32 (hreg : reg.val < 8) (hbase : field base ≠ 4#3)
    (hoffset : offsetBytes ≤ 0x7fffffff#32) :
    Emits c (c.emitFprMemBaseOffsetImm32Inst (if load then 0x100f41f2#32 else 0x110f41f2#32)
        (if load then 0x80100ff2#32 else 0x80110ff2#32) (fpr reg) (gpr base) offsetBytes).1
      (memInst .movsd load (.xmm reg) (memOperand base offsetBytes)) (movsdLength base 4) := by
  rcases Nat.lt_or_ge base.val 8 with hlt | hge
  · have hbytes := congrArg (fun l => l.take 4 ++ store32 offsetBytes)
      (fprDisp32_bytes load base hreg)
    have hstore : (c.emitFprMemBaseOffsetImm32Inst (if load then 0x100f41f2#32 else 0x110f41f2#32)
        (if load then 0x80100ff2#32 else 0x80110ff2#32) (fpr reg) (gpr base) offsetBytes).1
        = c.store _ :=
      (congrArg Prod.fst (if_neg (mt (le_machineOrd base).mp (Nat.not_le.mpr hlt)))).trans
        ((patch_two (by simp) (by simp) rfl).trans (congrArg c.store hbytes))
    rw [hstore, movsdLength, if_pos hlt]
    refine emits_store rfl (by decide) fun rest => ?_
    have hdecode := decodeMove_twoByte (twoByteForm_movsd load false)
      (decodeOperands_of_decodeRm
        (decodeRm_disp32 (field reg) hbase offsetBytes rest))
    simpa [regPlace_xmm reg hreg, regOf_field_of_lt base hlt, memInst, memOperand,
      toInt_disp32 hoffset] using hdecode
  · have hbytes := congrArg₂ (fun l d => (l.take 4 ++ [d]).take 5 ++ store32 offsetBytes)
      (fprExtended_bytes load) (fprExtendedDisp32_bytes base hreg)
    have hstore : (c.emitFprMemBaseOffsetImm32Inst (if load then 0x100f41f2#32 else 0x110f41f2#32)
        (if load then 0x80100ff2#32 else 0x80110ff2#32) (fpr reg) (gpr base) offsetBytes).1
        = c.store _ :=
      (congrArg Prod.fst ((if_pos ((le_machineOrd base).mpr hge)).trans
        (patch_cons (by simp) (by simp)))).trans
        ((patch_two (by simp) (by simp) rfl).trans (congrArg c.store hbytes))
    rw [hstore, movsdLength, if_neg (Nat.not_lt.mpr hge)]
    refine emits_store rfl (by decide) fun rest => ?_
    have hdecode := decodeMove_twoByte_rexB (twoByteForm_movsd load true)
      (decodeOperands_of_decodeRm
        (decodeRm_disp32 (field reg) hbase offsetBytes rest))
    have hext : regOf true (field base) = base := by
      have h := regOf_field base
      rwa [extended, decide_eq_true hge] at h
    simpa [regPlace_xmm reg hreg, hext, memInst, memOperand, toInt_disp32 hoffset] using hdecode

end Fpr

end CodePtr

/-! ## The encoders are exact -/

namespace X64Reg

/-- What the encoders assert of a register: only the first eight vector registers are used. -/
def Supported : X64Reg → Prop
  | gpr _ => True
  | fpr ord => ord.val < 8

/-- The operand of a register. -/
def place : X64Reg → Place
  | gpr ord => .gpr ord
  | fpr ord => .xmm ord

/-- The move of 64 bits between memory and a register. -/
def memOp : X64Reg → MoveOp
  | gpr _ => .mov
  | fpr _ => .movsd

/-- The operation that moves between registers. -/
def moveOp : X64Reg → X64Reg → MoveOp
  | gpr _, gpr _ => .mov
  | fpr _, fpr _ => .movaps
  | _, _ => .movq

end X64Reg

variable {c : CodePtr} {reg srcReg dstReg : X64Reg} {base : Fin 16} {offsetBytes : BitVec 32}

/-- The move between two supported registers. -/
theorem emits_registerMove (hsrc : srcReg.Supported) (hdst : dstReg.Supported) :
    c.Emits (c.emitRegisterRegisterMoveInst srcReg dstReg)
      ⟨moveOp srcReg dstReg, dstReg.place, srcReg.place⟩
      (getRegisterMoveInstructionLength srcReg dstReg) := by
  cases srcReg with
  | gpr src =>
    cases dstReg with
    | gpr dst => exact CodePtr.emits_gprToGpr src dst
    | fpr dst => exact CodePtr.emits_gprToFpr src hdst
  | fpr src =>
    cases dstReg with
    | gpr dst => exact CodePtr.emits_fprToGpr dst hsrc
    | fpr dst => exact CodePtr.emits_fprToFpr hsrc hdst

/-- The lengths of a store and of a load, which are the same. -/
theorem length_gpr (ord : Fin 16) :
    getRegisterStoreToMemBaseOffsetInstLength (gpr ord) (gpr base) offsetBytes
      = if offsetBytes < 128#32 then 4 else 7 := by
  simp only [getRegisterStoreToMemBaseOffsetInstLength, isGPR, extraLength, if_true]
  split_ifs <;> rfl

/-- The length that is computed for a vector register. -/
theorem length_fpr (ord : Fin 32) :
    getRegisterStoreToMemBaseOffsetInstLength (fpr ord) (gpr base) offsetBytes
      = CodePtr.movsdLength base (if offsetBytes < 128#32 then 1 else 4) := by
  have hbase : (gpr base).machineOrd < 8#32 ↔ base.val < 8 := by
    rw [← BitVec.not_le, CodePtr.le_machineOrd, Nat.not_le]
  simp only [getRegisterStoreToMemBaseOffsetInstLength, isGPR, extraLength, hbase,
    CodePtr.movsdLength, Bool.false_eq_true, if_false]
  split_ifs <;> rfl

/-- The store of a supported register. -/
theorem emits_registerStore (hreg : reg.Supported) (hsp : base ≠ 4) (h12 : base ≠ 12)
    (hoffset : offsetBytes ≤ 0x7fffffff#32) :
    c.Emits (c.emitRegisterStoreToMemBaseOffsetInstruction reg (gpr base) offsetBytes)
      ⟨reg.memOp, CodePtr.memOperand base offsetBytes, reg.place⟩
      (getRegisterStoreToMemBaseOffsetInstLength reg (gpr base) offsetBytes) := by
  have hfield := CodePtr.field_ne base hsp h12
  cases reg with
  | gpr ord =>
    rw [length_gpr, CodePtr.emitRegisterStoreToMemBaseOffsetInstruction,
      if_pos (by rfl)]
    split_ifs with h
    · exact CodePtr.emits_gprDisp8 false ord hfield h
    · exact CodePtr.emits_gprDisp32 false ord hfield hoffset
  | fpr ord =>
    rw [length_fpr, CodePtr.emitRegisterStoreToMemBaseOffsetInstruction,
      if_neg (by simp [isGPR])]
    split_ifs with h
    · exact CodePtr.emits_fprDisp8 false hreg hfield h
    · exact CodePtr.emits_fprDisp32 false hreg hfield hoffset

/-- The load of a supported register. -/
theorem emits_registerLoad (hreg : reg.Supported) (hsp : base ≠ 4) (h12 : base ≠ 12)
    (hoffset : offsetBytes ≤ 0x7fffffff#32) :
    c.Emits (c.emitRegisterLoadFromMemBaseOffsetInstruction reg (gpr base) offsetBytes)
      ⟨reg.memOp, reg.place, CodePtr.memOperand base offsetBytes⟩
      (getRegisterLoadFromMemBaseOffsetInstLength reg (gpr base) offsetBytes) := by
  have hfield := CodePtr.field_ne base hsp h12
  have hlength : getRegisterLoadFromMemBaseOffsetInstLength reg (gpr base) offsetBytes
      = getRegisterStoreToMemBaseOffsetInstLength reg (gpr base) offsetBytes := rfl
  cases reg with
  | gpr ord =>
    rw [hlength, length_gpr, CodePtr.emitRegisterLoadFromMemBaseOffsetInstruction,
      if_pos (by rfl)]
    split_ifs with h
    · exact CodePtr.emits_gprDisp8 true ord hfield h
    · exact CodePtr.emits_gprDisp32 true ord hfield hoffset
  | fpr ord =>
    rw [hlength, length_fpr, CodePtr.emitRegisterLoadFromMemBaseOffsetInstruction,
      if_neg (by simp [isGPR])]
    split_ifs with h
    · exact CodePtr.emits_fprDisp8 true hreg hfield h
    · exact CodePtr.emits_fprDisp32 true hreg hfield hoffset

/-- The length of a spill is that of a store whose base is `RBX`. -/
theorem length_spill :
    getRegisterSpillOrLoadInstructionLength reg offsetBytes
      = getRegisterStoreToMemBaseOffsetInstLength reg dfgStackBaseRegister offsetBytes := by
  cases reg with
  | gpr ord => rfl
  | fpr ord => exact Nat.add_right_comm _ _ _

/-- **The encoders are exact.**  For all registers that they support, every base but `RSP` and `R12`
and every offset below 2³¹, the bytes are those of the move, and there are as many as predicted. -/
theorem regMoveInst_exact (c : CodePtr) :
    (∀ srcReg dstReg : X64Reg, srcReg.Supported → dstReg.Supported →
      c.Emits (c.emitRegisterRegisterMoveInst srcReg dstReg)
        ⟨moveOp srcReg dstReg, dstReg.place, srcReg.place⟩
        (getRegisterMoveInstructionLength srcReg dstReg))
    ∧ (∀ (reg : X64Reg) (base : Fin 16) (offsetBytes : BitVec 32), reg.Supported → base ≠ 4 →
      base ≠ 12 → offsetBytes ≤ 0x7fffffff#32 →
      c.Emits (c.emitRegisterStoreToMemBaseOffsetInstruction reg (gpr base) offsetBytes)
          ⟨reg.memOp, CodePtr.memOperand base offsetBytes, reg.place⟩
          (getRegisterStoreToMemBaseOffsetInstLength reg (gpr base) offsetBytes)
        ∧ c.Emits (c.emitRegisterLoadFromMemBaseOffsetInstruction reg (gpr base) offsetBytes)
          ⟨reg.memOp, reg.place, CodePtr.memOperand base offsetBytes⟩
          (getRegisterLoadFromMemBaseOffsetInstLength reg (gpr base) offsetBytes))
    ∧ ∀ (reg : X64Reg) (offsetBytes : BitVec 32), reg.Supported → offsetBytes ≤ 0x7fffffff#32 →
      c.Emits (c.emitRegisterSpillToStackInst reg offsetBytes)
          ⟨reg.memOp, CodePtr.memOperand 3 offsetBytes, reg.place⟩
          (getRegisterSpillOrLoadInstructionLength reg offsetBytes)
        ∧ c.Emits (c.emitRegisterLoadFromStackInst reg offsetBytes)
          ⟨reg.memOp, reg.place, CodePtr.memOperand 3 offsetBytes⟩
          (getRegisterSpillOrLoadInstructionLength reg offsetBytes) := by
  refine ⟨fun _ _ => emits_registerMove, fun _ _ _ hreg hsp h12 hoffset => ⟨?_, ?_⟩,
    fun reg offsetBytes hreg hoffset => ?_⟩
  · exact emits_registerStore hreg hsp h12 hoffset
  · exact emits_registerLoad hreg hsp h12 hoffset
  · rw [length_spill]
    exact ⟨emits_registerStore hreg (by decide) (by decide) hoffset,
      emits_registerLoad hreg (by decide) (by decide) hoffset⟩

/-- `R9` to `XMM3`, `RDI` spilled to the last offset, and `XMM7` loaded from behind `R13`. -/
theorem regMoveInst_exact_registers :
    let c : CodePtr := ⟨fun _ => 0, 0⟩
    c.Emits (c.emitRegisterRegisterMoveInst (gpr 9) (fpr 3)) ⟨.movq, .xmm 3, .gpr 9⟩ 5
      ∧ c.Emits (c.emitRegisterSpillToStackInst (gpr 7) 0x7fffffff#32)
        ⟨.mov, .mem (some 3) none 0x7fffffff, .gpr 7⟩ 7
      ∧ c.Emits (c.emitRegisterLoadFromMemBaseOffsetInstruction (fpr 7) (gpr 13) 0#32)
        ⟨.movsd, .xmm 7, .mem (some 13) none 0⟩ 6 :=
  have h := regMoveInst_exact ⟨fun _ => 0, 0⟩
  ⟨h.1 (gpr 9) (fpr 3) trivial (by decide : 3 < 8),
    (h.2.2 (gpr 7) 0x7fffffff#32 trivial (by decide)).1,
    (h.2.1 (fpr 7) 13 0#32 (by decide : 7 < 8) (by decide) (by decide) (by decide)).2⟩

end X64

end Dsom
