import Dsom.Jit.X64
import Mathlib.Tactic.FinCases
import Mathlib.Tactic.IntervalCases

/-!
# Jit/BranchInst — emitting tests, branches and padding

`EmitJmpInstruction` and its siblings, `none` when the distance does not fit in the instruction, and
the table of `nop`s.  What each of them emits is decoded as the instruction it is named after.
-/

namespace Dsom

namespace X64

/-- Memory and the place where the next instruction is put. -/
structure CodePtr where
  mem : Memory
  addr : ℕ

namespace CodePtr

/-- Write the bytes at the pointer and step over them. -/
def store (c : CodePtr) (bytes : List Byte) : CodePtr :=
  ⟨c.mem.write c.addr bytes, c.addr + bytes.length⟩

/-- The place has moved by some bytes, which are there; nothing before them has changed. -/
structure Emitted (c : CodePtr) (bytes : List Byte) (c' : CodePtr) : Prop where
  addr : c'.addr = c.addr + bytes.length
  holds : c'.mem.Holds c.addr bytes
  frame : ∀ a < c.addr, c'.mem a = c.mem a

theorem emitted_store (c : CodePtr) (bytes : List Byte) : Emitted c bytes (c.store bytes) :=
  ⟨rfl, Memory.holds_write, fun _ h => Memory.write_of_lt h⟩

theorem Emitted.refl (c : CodePtr) : Emitted c [] c := ⟨rfl, Memory.holds_nil, fun _ _ => rfl⟩

/-- What was emitted stays when more is emitted. -/
theorem Emitted.trans {c c' c'' : CodePtr} {bytes bytes' : List Byte} (h : Emitted c bytes c')
    (h' : Emitted c' bytes' c'') : Emitted c (bytes ++ bytes') c'' := by
  refine ⟨?_, Memory.holds_append.mpr ⟨?_, ?_⟩, fun a ha => ?_⟩
  · rw [h'.addr, h.addr, List.length_append, Nat.add_assoc]
  · exact h.holds.congr fun a _ ha => h'.frame a (h.addr ▸ ha)
  · exact h.addr ▸ h'.holds
  · rw [h'.frame a (by rw [h.addr]; omega), h.frame a ha]

/-! ## The emitters

A distance that does not fit in 32 bits is an assertion failure. -/

variable (c : CodePtr)

/-- `testq %r64, %r64`. -/
def testRegReg (reg : Fin 16) : List Byte :=
  store16 (0x8548 + if 8 ≤ reg.val then 5 else 0) ++ [BitVec.ofNat 8 (0xc0 + reg.val % 8 * 9)]

/-- `EmitTestRegRegInstruction`. -/
def emitTestRegRegInstruction (reg : Fin 16) : CodePtr := c.store (testRegReg reg)

/-- `cmpq $0, imm32(%r64)`. -/
def i64CmpBaseImm32OffsetZero (baseReg : Fin 16) (offset : BitVec 32) : List Byte :=
  store16 (0x8348 + if 8 ≤ baseReg.val then 1 else 0) ++
    [BitVec.ofNat 8 (0xb8 + baseReg.val % 8)] ++ store32 offset ++ [0]

/-- `EmitI64CmpBaseImm32OffsetZeroInstruction`: compares the word in memory with zero. -/
def emitI64CmpBaseImm32OffsetZeroInstruction (baseReg : Fin 16) (offset : BitVec 32) : CodePtr :=
  c.store (i64CmpBaseImm32OffsetZero baseReg offset)

/-- An instruction with the distance from its end to a destination. -/
def emitRelative (opcode : List Byte) (destAddr : ℕ) : Option CodePtr :=
  (Signed.exact 32 (destAddr - (c.addr + opcode.length + 4 : ℕ))).map fun diff =>
    c.store (opcode ++ store32 diff)

/-- `EmitJneInstruction`: fails where the distance does not fit. -/
def emitJneInstruction (destAddr : ℕ) : Option CodePtr := c.emitRelative (store16 0x850f) destAddr

/-- `EmitJeInstruction`. -/
def emitJeInstruction (destAddr : ℕ) : Option CodePtr := c.emitRelative (store16 0x840f) destAddr

/-- `EmitJmpInstruction`. -/
def emitJmpInstruction (destAddr : ℕ) : Option CodePtr := c.emitRelative [0xe9] destAddr

/-- `EmitUd2Instruction`. -/
def emitUd2Instruction : CodePtr := c.store (store16 0x0b0f)

end CodePtr

/-- `GetX64MultiByteNOPInst`: the rows of the table, without the bytes that fill them up. -/
def getX64MultiByteNOPInst : ℕ → List Byte
  | 1 => [0x90]
  | 2 => [0x66, 0x90]
  | 3 => [0x0f, 0x1f, 0x00]
  | 4 => [0x0f, 0x1f, 0x40, 0x00]
  | 5 => [0x0f, 0x1f, 0x44, 0x00, 0x00]
  | 6 => [0x66, 0x0f, 0x1f, 0x44, 0x00, 0x00]
  | 7 => [0x0f, 0x1f, 0x80, 0x00, 0x00, 0x00, 0x00]
  | 8 => [0x0f, 0x1f, 0x84, 0x00, 0x00, 0x00, 0x00, 0x00]
  | 9 => [0x66, 0x0f, 0x1f, 0x84, 0x00, 0x00, 0x00, 0x00, 0x00]
  | 10 => [0x66, 0x2e, 0x0f, 0x1f, 0x84, 0x00, 0x00, 0x02, 0x00, 0x00]
  | 11 => [0x66, 0x66, 0x2e, 0x0f, 0x1f, 0x84, 0x00, 0x00, 0x02, 0x00, 0x00]
  | 12 => [0x66, 0x66, 0x66, 0x2e, 0x0f, 0x1f, 0x84, 0x00, 0x00, 0x02, 0x00, 0x00]
  | 13 => [0x66, 0x66, 0x66, 0x66, 0x2e, 0x0f, 0x1f, 0x84, 0x00, 0x00, 0x02, 0x00, 0x00]
  | 14 => [0x66, 0x66, 0x66, 0x66, 0x66, 0x2e, 0x0f, 0x1f, 0x84, 0x00, 0x00, 0x02, 0x00, 0x00]
  | 15 => [0x66, 0x66, 0x66, 0x66, 0x66, 0x66, 0x2e, 0x0f, 0x1f, 0x84, 0x00, 0x00, 0x02, 0x00, 0x00]
  | _ => []

/-! ## Decoding -/

section Decode

variable {rest : List Byte}

theorem decode_testRegReg (reg : Fin 16) :
    decode (CodePtr.testRegReg reg ++ rest) = some (.test reg reg, 3) := by
  fin_cases reg <;> rfl

/-- The stack pointer and `r12` as a base are encoded in another way. -/
theorem decode_i64CmpBaseImm32OffsetZero {baseReg : Fin 16} (hrsp : baseReg ≠ 4)
    (hr12 : baseReg ≠ 12) (offset : BitVec 32) :
    decode (CodePtr.i64CmpBaseImm32OffsetZero baseReg offset ++ rest)
      = some (.cmp baseReg offset 0, 8) := by
  have hmodrm : ∀ reg : Fin 16, reg ≠ 4 → reg ≠ 12 →
      let modrm := BitVec.ofNat 8 (0xb8 + reg.val % 8)
      (modrm.extractLsb' 6 2 = 2#2 ∧ modrm.extractLsb' 3 3 = 7#3 ∧ modrm.extractLsb' 0 3 ≠ 4#3) ∧
        regOf (8 ≤ reg.val) (modrm.extractLsb' 0 3) = reg := by decide
  have hopcode : ∀ reg : Fin 16, store16 (0x8348 + if 8 ≤ reg.val then 1 else 0)
      = [if 8 ≤ reg.val then 0x49#8 else 0x48#8, 0x83#8] := by decide
  obtain ⟨hmod, hreg⟩ := hmodrm baseReg hrsp hr12
  have hwide : decodeWide false (8 ≤ baseReg.val) (0x83#8 ::
      BitVec.ofNat 8 (0xb8 + baseReg.val % 8) :: (store32 offset ++ ([0] ++ rest)))
        = some (.cmp baseReg offset 0, 8) := by
    rw [decodeWide, if_neg (by decide +revert), if_pos ⟨rfl, hmod⟩, read32_store32, hreg]
    rfl
  rw [← hwide, CodePtr.i64CmpBaseImm32OffsetZero, hopcode]
  by_cases h : 8 ≤ baseReg.val
  · simp only [h, if_true]
    rfl
  · simp only [h, if_false]
    rfl

theorem decode_jne (diff : BitVec 32) :
    decode (store16 0x850f ++ store32 diff ++ rest) = some (.jne diff, 6) := by
  rw [List.append_assoc]
  change (read32 (store32 diff ++ rest)).map (fun disp => (Inst.jne disp, 6)) = _
  rw [read32_store32]
  rfl

theorem decode_je (diff : BitVec 32) :
    decode (store16 0x840f ++ store32 diff ++ rest) = some (.je diff, 6) := by
  rw [List.append_assoc]
  change (read32 (store32 diff ++ rest)).map (fun disp => (Inst.je disp, 6)) = _
  rw [read32_store32]
  rfl

theorem decode_jmp (diff : BitVec 32) :
    decode ([0xe9] ++ store32 diff ++ rest) = some (.jmp diff, 5) := by
  rw [List.append_assoc]
  change (read32 (store32 diff ++ rest)).map (fun disp => (Inst.jmp disp, 5)) = _
  rw [read32_store32]
  rfl

theorem decode_ud2 : decode (store16 0x0b0f ++ rest) = some (.ud2, 2) := rfl

/-- The padding is as long as it was asked to be. -/
theorem length_getX64MultiByteNOPInst {n : ℕ} (h : n ≤ 15) :
    (getX64MultiByteNOPInst n).length = n := by
  interval_cases n <;> rfl

/-- It is one instruction that does nothing. -/
theorem decode_getX64MultiByteNOPInst {n : ℕ} (hpos : 1 ≤ n) (h : n ≤ 15) :
    decode (getX64MultiByteNOPInst n ++ rest) = some (.nop, n) := by
  interval_cases n <;> rfl

end Decode

end X64

end Dsom
