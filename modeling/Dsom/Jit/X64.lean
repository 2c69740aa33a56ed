import Dsom.Foundations.Signed
import Mathlib.Logic.Relation
import Mathlib.Tactic.Common

/-!
# Jit/X64 — the instructions that branches are made of

A processor with bytes of memory, the general registers and the zero flag.  It runs `nop`, `jmp`,
`je`, `jne`, a `test` of registers and a `cmp` of memory with a number; everything else traps.
-/

namespace Dsom

namespace X64

/-- A byte of the code. -/
abbrev Byte := BitVec 8

/-- A byte for every address. -/
abbrev Memory := ℕ → Byte

/-! ## Memory -/

namespace Memory

/-- Bytes are written from an address on. -/
def write (mem : Memory) (addr : ℕ) (bytes : List Byte) : Memory := fun a =>
  if addr ≤ a then (bytes[a - addr]?).getD (mem a) else mem a

/-- The bytes from an address on. -/
def Holds (mem : Memory) (addr : ℕ) (bytes : List Byte) : Prop :=
  ∀ i b, bytes[i]? = some b → mem (addr + i) = b

variable {mem mem' : Memory} {addr a : ℕ} {bytes bytes' : List Byte}

theorem write_of_lt (h : a < addr) : mem.write addr bytes a = mem a :=
  if_neg (Nat.not_le.mpr h)

theorem write_of_ge (h : addr + bytes.length ≤ a) : mem.write addr bytes a = mem a := by
  rw [write, if_pos (by omega), List.getElem?_eq_none (by omega), Option.getD_none]

/-- What was written is held. -/
theorem holds_write : (mem.write addr bytes).Holds addr bytes := by
  intro i b hb
  rw [write, if_pos (Nat.le_add_right _ _), Nat.add_sub_cancel_left, hb, Option.getD_some]

theorem holds_nil : mem.Holds addr [] := nofun

/-- Holding two pieces one behind the other. -/
theorem holds_append :
    mem.Holds addr (bytes ++ bytes')
      ↔ mem.Holds addr bytes ∧ mem.Holds (addr + bytes.length) bytes' := by
  refine ⟨fun h => ⟨fun i b hb => h i b ?_, fun i b hb => ?_⟩, fun ⟨h, h'⟩ i b hb => ?_⟩
  · rw [List.getElem?_append_left (List.getElem?_eq_some_iff.mp hb).1, hb]
  · rw [Nat.add_assoc]
    refine h _ b ?_
    rw [List.getElem?_append_right (Nat.le_add_right _ _), Nat.add_sub_cancel_left, hb]
  · rcases Nat.lt_or_ge i bytes.length with hi | hi
    · exact h i b (by rwa [List.getElem?_append_left hi] at hb)
    · rw [List.getElem?_append_right hi] at hb
      rw [← h' _ b hb, Nat.add_assoc, Nat.add_sub_cancel' hi]

/-- Bytes that are not touched are still there. -/
theorem Holds.congr (h : mem.Holds addr bytes)
    (heq : ∀ a, addr ≤ a → a < addr + bytes.length → mem' a = mem a) : mem'.Holds addr bytes := by
  intro i b hb
  have hi := (List.getElem?_eq_some_iff.mp hb).1
  rw [heq _ (Nat.le_add_right _ _) (by omega), h i b hb]

/-- The eight bytes from an address on, the lowest first. -/
def load64 (mem : Memory) (addr : ℕ) : BitVec 64 :=
  (List.range 8).foldr (fun i v => v <<< 8 ||| (mem (addr + i)).setWidth 64) 0

/-- The longest instruction has 15 bytes. -/
def window (mem : Memory) (addr : ℕ) : List Byte := (List.range 15).map fun i => mem (addr + i)

/-- A short instruction is in the window that is decoded. -/
theorem Holds.window (h : mem.Holds addr bytes) (hlen : bytes.length ≤ 15) :
    ∃ rest, mem.window addr = bytes ++ rest := by
  refine ⟨(mem.window addr).drop bytes.length, ?_⟩
  have htake : (mem.window addr).take bytes.length = bytes := by
    refine List.ext_getElem? fun i => ?_
    rw [List.getElem?_take]
    split_ifs with hi
    · rw [Memory.window, List.getElem?_map, List.getElem?_range (by omega), Option.map_some,
        List.getElem?_eq_getElem hi, h i _ (List.getElem?_eq_getElem hi)]
    · rw [List.getElem?_eq_none (by omega)]
  conv_lhs => rw [← List.take_append_drop bytes.length (mem.window addr), htake]

end Memory

/-! ## Little-endian numbers -/

/-- A 16-bit word, the low byte first. -/
def store16 (v : BitVec 16) : List Byte := [v.extractLsb' 0 8, v.extractLsb' 8 8]

/-- A 32-bit word, the low byte first. -/
def store32 (v : BitVec 32) : List Byte :=
  [v.extractLsb' 0 8, v.extractLsb' 8 8, v.extractLsb' 16 8, v.extractLsb' 24 8]

@[simp] theorem length_store16 (v : BitVec 16) : (store16 v).length = 2 := rfl

@[simp] theorem length_store32 (v : BitVec 32) : (store32 v).length = 4 := rfl

/-- The first four bytes as a number. -/
def read32 : List Byte → Option (BitVec 32)
  | b₀ :: b₁ :: b₂ :: b₃ :: _ => some (b₃ ++ b₂ ++ b₁ ++ b₀)
  | _ => none

theorem read32_store32 (v : BitVec 32) (rest : List Byte) :
    read32 (store32 v ++ rest) = some v := by
  refine congrArg some (BitVec.eq_of_getLsbD_eq fun i hi => ?_)
  simp only [BitVec.getLsbD_append, BitVec.getLsbD_extractLsb']
  split_ifs <;> grind

/-! ## Instructions

Only those that the backend emits at the end of a block; the decoder fails on any other. -/

/-- The numbers of the registers can be written as numerals. -/
instance neZero_numRegisters : NeZero 16 := ⟨by decide⟩

/-- The instructions that a terminator may consist of. -/
inductive Inst where
  | nop
  | ud2
  | jmp (disp : BitVec 32)
  | je (disp : BitVec 32)
  | jne (disp : BitVec 32)
  /-- `testq` of two registers. -/
  | test (reg rm : Fin 16)
  /-- `cmpq` of a number with the memory at a displacement from a register. -/
  | cmp (base : Fin 16) (disp : BitVec 32) (imm : Byte)
  deriving DecidableEq

/-- The three bits of a register in an instruction, and the bit of the prefix that extends them. -/
def regOf (ext : Bool) (field : BitVec 3) : Fin 16 :=
  ⟨field.toNat + if ext then 8 else 0, by have := field.isLt; split <;> omega⟩

/-- The bytes after the `ModRM` byte of a `nop`, in the forms without a base of their own. -/
def nopOperandLength (modrm : Byte) : Option ℕ :=
  let sib := if modrm.extractLsb' 0 3 = 4#3 then 1 else 0
  if modrm.extractLsb' 6 2 = 0#2 ∧ modrm.extractLsb' 0 3 = 0#3 then some 0
  else if modrm.extractLsb' 6 2 = 1#2 then some (sib + 1)
  else if modrm.extractLsb' 6 2 = 2#2 then some (sib + 4)
  else none

/-- The instructions of two bytes, after the first. -/
def decodeTwoByte : List Byte → Option (Inst × ℕ)
  | [] => none
  | op :: bytes =>
    if op = 0x0b#8 then some (.ud2, 2)
    else if op = 0x84#8 then (read32 bytes).map fun disp => (.je disp, 6)
    else if op = 0x85#8 then (read32 bytes).map fun disp => (.jne disp, 6)
    else if op = 0x1f#8 then
      match bytes with
      | modrm :: _ => (nopOperandLength modrm).map fun n => (.nop, n + 3)
      | [] => none
    else none

/-- The instructions on 64 bits, after their `REX` prefix with the bits `R` and `B`. -/
def decodeWide (r b : Bool) : List Byte → Option (Inst × ℕ)
  | op :: modrm :: bytes =>
    if op = 0x85#8 ∧ modrm.extractLsb' 6 2 = 3#2 then
      some (.test (regOf r (modrm.extractLsb' 3 3)) (regOf b (modrm.extractLsb' 0 3)), 3)
    else if op = 0x83#8 ∧ modrm.extractLsb' 6 2 = 2#2 ∧ modrm.extractLsb' 3 3 = 7#3 ∧
        modrm.extractLsb' 0 3 ≠ 4#3 then
      (read32 bytes).bind fun disp => (bytes[4]?).map fun imm =>
        (.cmp (regOf b (modrm.extractLsb' 0 3)) disp imm, 8)
    else none
  | _ => none

/-- An instruction and its length. A `nop` may have prefixes. -/
def decode : List Byte → Option (Inst × ℕ)
  | [] => none
  | b :: bytes =>
    if b = 0x66#8 ∨ b = 0x2e#8 then
      match decode bytes with
      | some (.nop, n) => some (.nop, n + 1)
      | _ => none
    else if b = 0x90#8 then some (.nop, 1)
    else if b = 0xe9#8 then (read32 bytes).map fun disp => (.jmp disp, 5)
    else if b = 0x0f#8 then decodeTwoByte bytes
    else if b.extractLsb' 3 5 = 0b01001#5 ∧ b.getLsbD 1 = false then
      decodeWide (b.getLsbD 2) (b.getLsbD 0) bytes
    else none

/-! ## Execution

The flags are reduced to the zero flag. -/

/-- The part of a processor that these instructions see. -/
structure Cpu where
  pc : ℕ
  regs : Fin 16 → BitVec 64
  zf : Bool
  mem : Memory

namespace Cpu

/-- A branch is relative to the instruction after it. -/
def jump (s : Cpu) (n : ℕ) (disp : BitVec 32) : Cpu :=
  { s with pc := ((s.pc + n : ℕ) + disp.toInt : ℤ).toNat }

/-- One instruction that is `n` bytes long; `ud2` traps. -/
def exec (s : Cpu) (n : ℕ) : Inst → Option Cpu
  | .nop => some { s with pc := s.pc + n }
  | .ud2 => none
  | .jmp disp => some (s.jump n disp)
  | .je disp => some (if s.zf then s.jump n disp else { s with pc := s.pc + n })
  | .jne disp => some (if s.zf then { s with pc := s.pc + n } else s.jump n disp)
  | .test reg rm => some { s with pc := s.pc + n, zf := s.regs reg &&& s.regs rm == 0 }
  | .cmp base disp imm =>
    let value := s.mem.load64 (s.regs base + disp.signExtend 64).toNat
    some { s with pc := s.pc + n, zf := value == imm.signExtend 64 }

/-- The instruction at `pc` is executed; `none` is a trap. -/
def step (s : Cpu) : Option Cpu := (decode (s.mem.window s.pc)).bind fun (inst, n) => s.exec n inst

/-- The processor comes to another state. -/
def Reaches : Cpu → Cpu → Prop := Relation.ReflTransGen fun s s' => s.step = some s'

/-- The step of an instruction that stands in memory. -/
theorem step_eq {s : Cpu} {bytes : List Byte} {inst : Inst}
    (hholds : s.mem.Holds s.pc bytes) (hlen : bytes.length ≤ 15)
    (hdecode : ∀ rest, decode (bytes ++ rest) = some (inst, bytes.length)) :
    s.step = s.exec bytes.length inst := by
  obtain ⟨rest, hrest⟩ := hholds.window hlen
  rw [step, hrest, hdecode, Option.bind_some]

end Cpu

end X64

end Dsom
