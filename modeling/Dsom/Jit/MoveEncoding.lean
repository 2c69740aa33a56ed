import Dsom.Jit.X64

/-!
# Jit/MoveEncoding — how moves are encoded

Moves between registers and memory: an optional mandatory prefix, an optional `REX` byte, the
opcode, and a `ModRM` byte whose `r/m` operand is a register or an address.  `decodeMove` knows all
forms of addresses; the forms that a compiler emits for a register or for a displacement from a
register are `decodeRm_reg`, `decodeRm_disp8` and `decodeRm_disp32`.
-/

namespace Dsom

namespace X64

/-- An operand.  The displacement is signed, and the index is scaled by a power of two. -/
inductive Place where
  | gpr (r : Fin 16)
  | xmm (r : Fin 32)
  | mem (base : Option (Fin 16)) (index : Option (Fin 16 × BitVec 2)) (disp : ℤ)
  | ripRelative (disp : ℤ)
  deriving DecidableEq

/-- `mov` and `movq` are on 64 bits; `movsd` on the low 64 bits of a vector register. -/
inductive MoveOp where
  | mov
  | movq
  | movaps
  | movsd
  deriving DecidableEq

/-- A decoded move. -/
structure MoveInst where
  op : MoveOp
  dst : Place
  src : Place
  deriving DecidableEq

/-- What an opcode says: which operand is written, and which registers the fields name. -/
structure MoveForm where
  op : MoveOp
  regIsDst : Bool
  regIsXmm : Bool
  rmIsXmm : Bool
  deriving DecidableEq

/-- The bits of a `REX` prefix. -/
structure Rex where
  w : Bool
  r : Bool
  x : Bool
  b : Bool
  deriving DecidableEq

/-- The opcodes of one byte. -/
def oneByteForm (pfx : Option Byte) (rex : Rex) (opcode : Byte) : Option MoveForm :=
  if pfx = none ∧ rex.w then
    if opcode = 0x89#8 then some ⟨.mov, false, false, false⟩
    else if opcode = 0x8b#8 then some ⟨.mov, true, false, false⟩
    else none
  else none

/-- The opcodes behind `0F`. -/
def twoByteForm (pfx : Option Byte) (rex : Rex) (opcode : Byte) : Option MoveForm :=
  if pfx = some 0x66#8 ∧ rex.w then
    if opcode = 0x6e#8 then some ⟨.movq, true, true, false⟩
    else if opcode = 0x7e#8 then some ⟨.movq, false, true, false⟩
    else none
  else if pfx = some 0xf2#8 then
    if opcode = 0x10#8 then some ⟨.movsd, true, true, true⟩
    else if opcode = 0x11#8 then some ⟨.movsd, false, true, true⟩
    else none
  else if pfx = none then
    if opcode = 0x28#8 then some ⟨.movaps, true, true, true⟩ else none
  else none

/-- A register operand; these encodings only reach half of the vector registers. -/
def regPlace (isXmm : Bool) (r : Fin 16) : Place :=
  if isXmm then .xmm (r.castLE (by decide)) else .gpr r

/-- A displacement and its length, by the `mod` field. -/
def decodeDisp (mod : BitVec 2) (bytes : List Byte) : Option (ℤ × ℕ) :=
  if mod = 0#2 then some (0, 0)
  else if mod = 1#2 then (bytes.head?).map fun d => (d.toInt, 1)
  else (read32 bytes).map fun d => (d.toInt, 4)

/-- The operand `r/m`, and the length of what describes it. -/
def decodeRm (rex : Rex) (isXmm : Bool) : List Byte → Option (Place × ℕ)
  | [] => none
  | modrm :: bytes =>
    let mod := modrm.extractLsb' 6 2
    let rm := modrm.extractLsb' 0 3
    if mod = 3#2 then some (regPlace isXmm (regOf rex.b rm), 1)
    else if rm = 4#3 then
      match bytes with
      | [] => none
      | sib :: bytes =>
        let index := regOf rex.x (sib.extractLsb' 3 3)
        let index := if index = 4 then none else some (index, sib.extractLsb' 6 2)
        if mod = 0#2 ∧ sib.extractLsb' 0 3 = 5#3 then
          (read32 bytes).map fun d => (.mem none index d.toInt, 6)
        else (decodeDisp mod bytes).map fun (d, n) =>
          (.mem (some (regOf rex.b (sib.extractLsb' 0 3))) index d, 2 + n)
    else if mod = 0#2 ∧ rm = 5#3 then
      (read32 bytes).map fun d => (.ripRelative d.toInt, 5)
    else (decodeDisp mod bytes).map fun (d, n) => (.mem (some (regOf rex.b rm)) none d, 1 + n)

/-- The operands of an opcode. -/
def decodeOperands (rex : Rex) (form : MoveForm) (bytes : List Byte) : Option (MoveInst × ℕ) :=
  match bytes with
  | [] => none
  | modrm :: _ =>
    let reg := regPlace form.regIsXmm (regOf rex.r (modrm.extractLsb' 3 3))
    (decodeRm rex form.rmIsXmm bytes).map fun (rm, n) =>
      (if form.regIsDst then ⟨form.op, reg, rm⟩ else ⟨form.op, rm, reg⟩, n)

/-- Behind `0F`. -/
def decodeTwoByteOpcode (pfx : Option Byte) (rex : Rex) : List Byte → Option (MoveInst × ℕ)
  | [] => none
  | opcode :: bytes =>
    (twoByteForm pfx rex opcode).bind fun form =>
      (decodeOperands rex form bytes).map fun (inst, n) => (inst, n + 2)

/-- From the opcode on. -/
def decodeOpcode (pfx : Option Byte) (rex : Rex) : List Byte → Option (MoveInst × ℕ)
  | [] => none
  | b :: bytes =>
    if b = 0x0f#8 then decodeTwoByteOpcode pfx rex bytes
    else
      (oneByteForm pfx rex b).bind fun form =>
        (decodeOperands rex form bytes).map fun (inst, n) => (inst, n + 1)

/-- From the `REX` prefix on, which there need not be. -/
def decodeRex (pfx : Option Byte) : List Byte → Option (MoveInst × ℕ)
  | [] => none
  | b :: bytes =>
    if b.extractLsb' 4 4 = 4#4 then
      (decodeOpcode pfx ⟨b.getLsbD 3, b.getLsbD 2, b.getLsbD 1, b.getLsbD 0⟩ bytes).map
        fun (inst, n) => (inst, n + 1)
    else decodeOpcode pfx ⟨false, false, false, false⟩ (b :: bytes)

/-- **A move and its length**; `none` is any other instruction. -/
def decodeMove : List Byte → Option (MoveInst × ℕ)
  | [] => none
  | b :: bytes =>
    if b = 0x66#8 ∨ b = 0xf2#8 then
      (decodeRex (some b) bytes).map fun (inst, n) => (inst, n + 1)
    else decodeRex none (b :: bytes)

/-! ## The bytes of an encoding

A register's number is split into three bits of the operand byte and one bit of the prefix. -/

/-- A `REX` byte for 64 bits. -/
def rexW (r b : Bool) : Byte := 0b01001#5 ++ BitVec.ofBool r ++ 0#1 ++ BitVec.ofBool b

/-- A `REX` byte that only extends a base. -/
def rexB : Byte := 0x41#8

/-- The byte that names the registers of an instruction. -/
def modRM (mod : BitVec 2) (reg rm : BitVec 3) : Byte := mod ++ reg ++ rm

/-- The field for a register. -/
def field (ord : ℕ) : BitVec 3 := BitVec.ofNat 3 ord

/-- The bit of the prefix for a register. -/
def extended (ord : ℕ) : Bool := decide (8 ≤ ord)

/-- The two parts give the register back. -/
theorem regOf_field : ∀ r : Fin 16, regOf (extended r) (field r) = r := by decide

/-- A register without the bit of the prefix. -/
theorem regOf_field_of_lt : ∀ r : Fin 16, r.val < 8 → regOf false (field r) = r := by decide

theorem regPlace_gpr : ∀ r : Fin 16, regPlace false (regOf (extended r) (field r)) = .gpr r := by
  decide

theorem regPlace_xmm : ∀ r : Fin 32, r.val < 8 →
    regPlace true (regOf false (field r)) = .xmm r := by decide

section ModRM

variable (mod : BitVec 2) (reg rm : BitVec 3)

@[simp] theorem mod_modRM : (modRM mod reg rm).extractLsb' 6 2 = mod := by
  revert mod reg rm
  decide

@[simp] theorem reg_modRM : (modRM mod reg rm).extractLsb' 3 3 = reg := by
  revert mod reg rm
  decide

@[simp] theorem rm_modRM : (modRM mod reg rm).extractLsb' 0 3 = rm := by
  revert mod reg rm
  decide

end ModRM

variable {rex : Rex} {isXmm : Bool} {form : MoveForm} (reg : BitVec 3) {rm : BitVec 3}
  {inst : MoveInst} {place : Place} {n : ℕ}

theorem decodeRm_reg (rm : BitVec 3) (rest : List Byte) :
    decodeRm rex isXmm (modRM 3#2 reg rm :: rest) = some (regPlace isXmm (regOf rex.b rm), 1) := by
  simp [decodeRm]

/-- A memory operand with a displacement of eight bits. -/
theorem decodeRm_disp8 (hrm : rm ≠ 4#3) (d : Byte) (rest : List Byte) :
    decodeRm rex isXmm (modRM 1#2 reg rm :: d :: rest)
      = some (.mem (some (regOf rex.b rm)) none d.toInt, 2) := by
  simp [decodeRm, hrm, decodeDisp]

/-- A memory operand with one of 32 bits. -/
theorem decodeRm_disp32 (hrm : rm ≠ 4#3) (d : BitVec 32) (rest : List Byte) :
    decodeRm rex isXmm (modRM 2#2 reg rm :: (store32 d ++ rest))
      = some (.mem (some (regOf rex.b rm)) none d.toInt, 5) := by
  simp [decodeRm, hrm, decodeDisp, read32_store32]

variable {reg} {rest : List Byte}

/-- The two operands, in the order the form says. -/
theorem decodeOperands_of_decodeRm {mod : BitVec 2}
    (h : decodeRm rex form.rmIsXmm (modRM mod reg rm :: rest) = some (place, n)) :
    decodeOperands rex form (modRM mod reg rm :: rest)
      = some (if form.regIsDst then ⟨form.op, regPlace form.regIsXmm (regOf rex.r reg), place⟩
        else ⟨form.op, place, regPlace form.regIsXmm (regOf rex.r reg)⟩, n) := by
  simp [decodeOperands, h]

/-! ## Whole instructions -/

variable {r b : Bool} {opcode : Byte} {bytes : List Byte}

theorem rexW_bits : ∀ r b : Bool, rexW r b ≠ 0x66#8 ∧ rexW r b ≠ 0xf2#8
    ∧ (rexW r b).extractLsb' 4 4 = 4#4 ∧ (rexW r b).getLsbD 3 = true
    ∧ (rexW r b).getLsbD 2 = r ∧ (rexW r b).getLsbD 1 = false ∧ (rexW r b).getLsbD 0 = b := by
  decide

/-- The prefix byte is taken off. -/
theorem decodeRex_rexW (pfx : Option Byte) (r b : Bool) (bytes : List Byte) :
    decodeRex pfx (rexW r b :: bytes)
      = (decodeOpcode pfx ⟨true, r, false, b⟩ bytes).map fun (inst, n) => (inst, n + 1) := by
  obtain ⟨-, -, hrex, hw, hr, hx, hb⟩ := rexW_bits r b
  rw [decodeRex, if_pos hrex, hw, hr, hx, hb]

/-- `REX.W` and an opcode of one byte. -/
theorem decodeMove_oneByte (hopcode : opcode ≠ 0x0f#8)
    (hform : oneByteForm none ⟨true, r, false, b⟩ opcode = some form)
    (h : decodeOperands ⟨true, r, false, b⟩ form bytes = some (inst, n)) :
    decodeMove (rexW r b :: opcode :: bytes) = some (inst, n + 2) := by
  obtain ⟨h66, hf2, -⟩ := rexW_bits r b
  rw [decodeMove, if_neg (by simp [h66, hf2]), decodeRex_rexW, decodeOpcode, if_neg hopcode, hform,
    Option.bind_some, h]
  rfl

/-- The prefix `66`, `REX.W` and an opcode of two bytes. -/
theorem decodeMove_twoByte_rexW
    (hform : twoByteForm (some 0x66#8) ⟨true, r, false, b⟩ opcode = some form)
    (h : decodeOperands ⟨true, r, false, b⟩ form bytes = some (inst, n)) :
    decodeMove (0x66#8 :: rexW r b :: 0x0f#8 :: opcode :: bytes) = some (inst, n + 4) := by
  rw [decodeMove, if_pos (.inl rfl), decodeRex_rexW, decodeOpcode, if_pos rfl,
    decodeTwoByteOpcode]
  simp only [hform, Option.bind_some, h, Option.map_some]

/-- The prefix `F2` and an opcode of two bytes. -/
theorem decodeMove_twoByte
    (hform : twoByteForm (some 0xf2#8) ⟨false, false, false, false⟩ opcode = some form)
    (h : decodeOperands ⟨false, false, false, false⟩ form bytes = some (inst, n)) :
    decodeMove (0xf2#8 :: 0x0f#8 :: opcode :: bytes) = some (inst, n + 3) := by
  rw [decodeMove, if_pos (.inr rfl), decodeRex, if_neg (by decide), decodeOpcode, if_pos rfl,
    decodeTwoByteOpcode]
  simp only [hform, Option.bind_some, h, Option.map_some]

/-- The prefix `F2`, `REX.B` and an opcode of two bytes. -/
theorem decodeMove_twoByte_rexB
    (hform : twoByteForm (some 0xf2#8) ⟨false, false, false, true⟩ opcode = some form)
    (h : decodeOperands ⟨false, false, false, true⟩ form bytes = some (inst, n)) :
    decodeMove (0xf2#8 :: rexB :: 0x0f#8 :: opcode :: bytes) = some (inst, n + 4) := by
  rw [decodeMove, if_pos (.inr rfl), decodeRex, if_pos (by decide)]
  simp only [show rexB.getLsbD 3 = false by decide, show rexB.getLsbD 2 = false by decide,
    show rexB.getLsbD 1 = false by decide, show rexB.getLsbD 0 = true by decide]
  rw [decodeOpcode, if_pos rfl,
    decodeTwoByteOpcode]
  simp only [hform, Option.bind_some, h, Option.map_some]

/-- An opcode of two bytes. -/
theorem decodeMove_twoByte_plain
    (hform : twoByteForm none ⟨false, false, false, false⟩ opcode = some form)
    (h : decodeOperands ⟨false, false, false, false⟩ form bytes = some (inst, n)) :
    decodeMove (0x0f#8 :: opcode :: bytes) = some (inst, n + 2) := by
  rw [decodeMove, if_neg (by decide), decodeRex, if_neg (by decide), decodeOpcode, if_pos rfl,
    decodeTwoByteOpcode]
  simp only [hform, Option.bind_some, h, Option.map_some]

end X64

end Dsom
