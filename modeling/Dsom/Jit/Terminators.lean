import Dsom.Jit.CodeLayout

/-!
# Jit/Terminators — what the code at the end of a block does

The code that `EmitJITCode` emits has the length that `GetJITCodeLength` says, and goes where the
terminator says (`emitJITCode_spec`): to the start of a block, or to what follows when that is where
the default target is.
-/

namespace Dsom

namespace X64

namespace Cpu

variable {s : Cpu}

/-- The processor comes to an address; only the flag may have changed. -/
def Goes (s : Cpu) (pc : ℕ) : Prop := ∃ zf, s.Reaches { s with pc := pc, zf := zf }

theorem Goes.refl (s : Cpu) : s.Goes s.pc := ⟨s.zf, .refl⟩

/-- A step before. -/
theorem Goes.head {pc pc' : ℕ} {zf : Bool} (h : s.step = some { s with pc := pc, zf := zf })
    (hgoes : Goes { s with pc := pc, zf := zf } pc') : s.Goes pc' :=
  ⟨hgoes.choose, .head h hgoes.choose_spec⟩

/-- Going on from where the first steps lead. -/
theorem Goes.trans {pc pc' : ℕ} (h : s.Goes pc)
    (hgoes : ∀ zf, Goes { s with pc := pc, zf := zf } pc') : s.Goes pc' := by
  obtain ⟨zf, hreach⟩ := h
  obtain ⟨zf', hreach'⟩ := hgoes zf
  exact ⟨zf', hreach.trans hreach'⟩

/-- The distance in a branch leads to its destination. -/
theorem jump_eq {n dest : ℕ} {diff : BitVec 32} (h : diff.toInt = dest - (s.pc + n : ℕ)) :
    s.jump n diff = { s with pc := dest } := by
  rw [jump, h]
  congr
  omega

/-- A jump goes to its destination. -/
theorem step_jmp {diff : BitVec 32} {dest : ℕ} (h : s.mem.Holds s.pc ([0xe9] ++ store32 diff))
    (hdiff : diff.toInt = dest - (s.pc + 5 : ℕ)) : s.step = some { s with pc := dest } := by
  rw [step_eq h (Nat.le_of_ble_eq_true rfl) fun rest => decode_jmp diff]
  exact congrArg some (jump_eq hdiff)

/-- `jne` and `je`. -/
theorem step_branch (nonZero : Bool) {diff : BitVec 32} {dest : ℕ}
    (h : s.mem.Holds s.pc (store16 (if nonZero then 0x850f else 0x840f) ++ store32 diff))
    (hdiff : diff.toInt = dest - (s.pc + 6 : ℕ)) :
    s.step = some { s with pc := if s.zf = nonZero then s.pc + 6 else dest } := by
  cases nonZero with
  | true =>
    rw [step_eq h (Nat.le_of_ble_eq_true rfl) fun rest => decode_jne diff]
    change some (if s.zf then _ else s.jump 6 diff) = _
    rw [jump_eq hdiff]
    split_ifs <;> rfl
  | false =>
    rw [step_eq h (Nat.le_of_ble_eq_true rfl) fun rest => decode_je diff]
    change some (if s.zf then s.jump 6 diff else _) = _
    rw [jump_eq hdiff]
    cases s.zf <;> rfl

/-- The undefined instruction ends the run. -/
theorem step_ud2 (h : s.mem.Holds s.pc (store16 0x0b0f)) : s.step = none := by
  rw [step_eq h (Nat.le_of_ble_eq_true rfl) fun rest => decode_ud2]
  rfl

/-- Padding is passed over. -/
theorem goes_nop {n : ℕ} (hn : n ≤ 15) (h : s.mem.Holds s.pc (getX64MultiByteNOPInst n)) :
    s.Goes (s.pc + n) := by
  rcases Nat.eq_zero_or_pos n with rfl | hpos
  · exact .refl s
  · have hlen := length_getX64MultiByteNOPInst hn
    have hstep := step_eq h (hlen.le.trans hn) fun rest => by
      rw [hlen]
      exact decode_getX64MultiByteNOPInst hpos hn
    rw [hlen] at hstep
    exact .head hstep (.refl _)

end Cpu

/-- The distance to a destination fits if both are in one section of code. -/
theorem CodePtr.emitRelative_eq (c : CodePtr) (opcode : List Byte) {base total dest : ℕ}
    (htotal : total < 2 ^ 31) (hlo : base ≤ c.addr)
    (hhi : c.addr + opcode.length + 4 ≤ base + total)
    (hdest : base ≤ dest) (hdest' : dest ≤ base + total) :
    ∃ diff : BitVec 32, c.emitRelative opcode dest = some (c.store (opcode ++ store32 diff)) ∧
      diff.toInt = dest - (c.addr + (opcode.length + 4) : ℕ) := by
  have hexact := Signed.exact_eq_ofInt (w := 32) (n := dest - (c.addr + opcode.length + 4 : ℕ))
    (by decide) (by omega) (by omega)
  refine ⟨_, by rw [emitRelative, hexact, Option.map_some], ?_⟩
  exact Signed.exact_eq_some_iff.mp hexact

end X64

namespace CodeLayout

open X64 CodePtr

namespace TestValue

variable (v : TestValue)

/-- The branch decision, for a processor at the end of the block. -/
def read (s : Cpu) : BitVec 64 :=
  match v with
  | .reg testReg => s.regs testReg
  | .slot testPhysicalSlot =>
    s.mem.load64 (s.regs 3 + 8 * testPhysicalSlot.setWidth 64).toNat

/-- The instruction that tests it. -/
def bytes : List Byte :=
  match v with
  | .reg testReg => testRegReg testReg
  | .slot testPhysicalSlot => i64CmpBaseImm32OffsetZero 3 (8 * testPhysicalSlot.setWidth 32)

/-- The length of the test of the condition. -/
def length : ℕ :=
  match v with
  | .reg _ => 3
  | .slot _ => 8

/-- The test is as long as was computed. -/
@[simp] theorem length_bytes : v.bytes.length = v.length := by cases v <;> rfl

theorem emit_eq (c : CodePtr) : v.emit c = c.store v.bytes := by cases v <;> rfl

/-- The offset of a slot is small. -/
theorem signExtend_slot (slot : BitVec 16) :
    (8 * slot.setWidth 32 : BitVec 32).signExtend 64 = 8 * slot.setWidth 64 := by
  have hslot := slot.isLt
  have hsmall : (8#32 * slot.setWidth 32).toNat = 8 * slot.toNat := by
    rw [BitVec.toNat_mul, BitVec.toNat_setWidth, BitVec.toNat_ofNat]
    omega
  have hmsb : (8#32 * slot.setWidth 32).msb = false := by
    rw [BitVec.msb_eq_decide, hsmall]
    exact decide_eq_false (by omega)
  rw [BitVec.ofNat_eq_ofNat, BitVec.signExtend_eq_setWidth_of_msb_false hmsb]
  refine BitVec.eq_of_toNat_eq ?_
  rw [BitVec.toNat_setWidth, hsmall, BitVec.ofNat_eq_ofNat, BitVec.toNat_mul,
    BitVec.toNat_setWidth, BitVec.toNat_ofNat]
  simp only [Nat.reducePow, Nat.reduceMod]
  omega

/-- **The test** sets the flag when the branch decision is zero. -/
theorem step_eq {s : Cpu} (h : s.mem.Holds s.pc v.bytes) :
    s.step = some { s with pc := s.pc + v.length, zf := v.read s == 0 } := by
  cases v with
  | reg testReg =>
    rw [Cpu.step_eq h (Nat.le_of_ble_eq_true rfl) fun rest => decode_testRegReg testReg]
    change some { s with pc := s.pc + 3, zf := s.regs testReg &&& s.regs testReg == 0 } = _
    rw [BitVec.and_self]
    rfl
  | slot testPhysicalSlot =>
    rw [Cpu.step_eq h (Nat.le_of_ble_eq_true rfl) fun rest =>
      decode_i64CmpBaseImm32OffsetZero (by decide) (by decide) _]
    change some { s with
      pc := s.pc + 8
      zf := s.mem.load64 (s.regs 3 + BitVec.signExtend 64 _).toNat == _ } = _
    rw [signExtend_slot]
    rfl

end TestValue

namespace TerminatorInfo

variable (t : TerminatorInfo) (base : ℕ) (bbOrder : List BlockInfo)

/-- The address of a block. -/
def startAddr (ord : ℕ) : ℕ := base + (bbOrder[ord]?.map (·.fastPathStartOffset)).getD 0

/-- The address of the default target, for code that ends at `endAddr`. -/
def defaultAddr (endAddr : ℕ) : ℕ :=
  if t.isDefaultTargetFallthrough then endAddr else startAddr base bbOrder t.defaultTargetOrd

/-- Where a terminator leads. -/
def Control (endAddr : ℕ) (s : Cpu) : Prop :=
  match t.kind with
  | .noSuccessor => s.step = none
  | .uncondBr => s.Goes (t.defaultAddr base bbOrder endAddr)
  | .condBr => ∀ v, t.testValue = some v →
    s.Goes (if decide (v.read s ≠ 0) = t.isTestForNonZero
      then startAddr base bbOrder t.branchTargetOrd else t.defaultAddr base bbOrder endAddr)
  | .endOfEnum => False

/-- What the first pass has made of a terminator. -/
structure Ready : Prop where
  kind : t.kind ≠ .endOfEnum
  testValue : t.kind = .condBr → ∃ v, t.testValue = some v
  default : t.kind ≠ .noSuccessor → t.defaultTargetOrd < bbOrder.length
  branch : t.kind = .condBr → t.branchTargetOrd < bbOrder.length

variable {t base bbOrder} {total : ℕ}

/-- The blocks start in the section of the fast path. -/
def InSection (bbOrder : List BlockInfo) (total : ℕ) : Prop :=
  ∀ info ∈ bbOrder, info.fastPathStartOffset ≤ total

/-- The address of a block, and that it is in the section. -/
theorem getDestAddr_eq (base : ℕ) (hin : InSection bbOrder total) {ord : ℕ}
    (hord : ord < bbOrder.length) :
    (bbOrder[ord]?).map (fun info => base + info.fastPathStartOffset)
      = some (startAddr base bbOrder ord) ∧
    base ≤ startAddr base bbOrder ord ∧ startAddr base bbOrder ord ≤ base + total := by
  rw [startAddr, List.getElem?_eq_getElem hord]
  exact ⟨rfl, Nat.le_add_right _ _, Nat.add_le_add_left (hin _ (List.getElem_mem hord)) _⟩

/-- **The branch to the default target.** -/
theorem emitDefault_spec (hin : InSection bbOrder total) (htotal : total < 2 ^ 31)
    (hord : t.defaultTargetOrd < bbOrder.length) {c : CodePtr} (hlo : base ≤ c.addr)
    (hhi : (c.addr + if t.isDefaultTargetFallthrough then 0 else 5) ≤ base + total) :
    ∃ bytes c',
      (if t.isDefaultTargetFallthrough then some c
        else ((bbOrder[t.defaultTargetOrd]?).map fun info => base + info.fastPathStartOffset).bind
          c.emitJmpInstruction) = some c' ∧
      Emitted c bytes c' ∧ (bytes.length = if t.isDefaultTargetFallthrough then 0 else 5) ∧
      ∀ s : Cpu, s.pc = c.addr → s.mem.Holds c.addr bytes →
        s.Goes (t.defaultAddr base bbOrder c'.addr) := by
  simp only [defaultAddr]
  split_ifs with hfall
  · exact ⟨[], c, rfl, .refl c, rfl, fun s hpc _ => ⟨s.zf, hpc ▸ .refl⟩⟩
  · rw [if_neg hfall] at hhi
    obtain ⟨hdest, hge, hle⟩ := getDestAddr_eq base hin hord
    obtain ⟨diff, hemit, hdiff⟩ := c.emitRelative_eq [0xe9] htotal hlo hhi hge hle
    refine ⟨_, _, by rw [hdest]; exact hemit, emitted_store _ _, rfl, fun s hpc hholds => ?_⟩
    have hstep := Cpu.step_jmp (hpc ▸ hholds) (hpc ▸ hdiff)
    exact .head hstep (.refl _)

/-- **The code of a terminator.** -/
theorem emitJITCode_spec (hin : InSection bbOrder total) (htotal : total < 2 ^ 31)
    (hready : t.Ready bbOrder) {c : CodePtr} (hlo : base ≤ c.addr)
    (hhi : c.addr + t.getJITCodeLength ≤ base + total) :
    ∃ bytes c', t.emitJITCode base bbOrder c = some c' ∧ Emitted c bytes c' ∧
      bytes.length = t.getJITCodeLength ∧
      ∀ s : Cpu, s.pc = c.addr → s.mem.Holds c.addr bytes → t.Control base bbOrder c'.addr s := by
  cases hkind : t.kind with
  | endOfEnum => exact absurd hkind hready.kind
  | noSuccessor =>
    simp only [emitJITCode, getJITCodeLength, Control, hkind]
    exact ⟨_, _, rfl, emitted_store _ _, rfl, fun s hpc hholds => Cpu.step_ud2 (hpc ▸ hholds)⟩
  | uncondBr =>
    simp only [emitJITCode, getJITCodeLength, Control, hkind] at hhi ⊢
    exact emitDefault_spec hin htotal (hready.default (hkind ▸ nofun)) hlo hhi
  | condBr =>
    obtain ⟨v, hv⟩ := hready.testValue hkind
    have hlen : t.getJITCodeLength
        = v.length + 6 + if t.isDefaultTargetFallthrough then 0 else 5 := by
      rw [getJITCodeLength, hkind, hv]
      cases v <;> rfl
    rw [hlen] at hhi ⊢
    -- the test
    let c₁ := c.store v.bytes
    have haddr₁ : c₁.addr = c.addr + v.length := congrArg (c.addr + ·) v.length_bytes
    -- the branch
    let opcode := store16 (if t.isTestForNonZero then 0x850f else 0x840f)
    have hopcode : opcode.length = 2 := length_store16 _
    obtain ⟨hdest, hge, hle⟩ := getDestAddr_eq base hin (hready.branch hkind)
    obtain ⟨diff, hemit, hdiff⟩ := c₁.emitRelative_eq opcode htotal (by omega)
      (by omega) hge hle
    let c₂ := c₁.store (opcode ++ store32 diff)
    have haddr₂ : c₂.addr = c.addr + v.length + 6 := by
      rw [← haddr₁]
      exact congrArg (c₁.addr + ·) (by rw [List.length_append, hopcode, length_store32])
    -- the branch to the default target
    obtain ⟨bytes, c', hdefault, hemitted, hbytes, hgoes⟩ :=
      emitDefault_spec hin htotal (hready.default (hkind ▸ nofun))
        (show base ≤ c₂.addr by omega) (by omega)
    have hbranch : (if t.isTestForNonZero then c₁.emitJneInstruction
        (startAddr base bbOrder t.branchTargetOrd) else c₁.emitJeInstruction
        (startAddr base bbOrder t.branchTargetOrd)) = some c₂ := by
      rw [← hemit]
      cases hnz : t.isTestForNonZero <;> simp [opcode, hnz, emitJneInstruction, emitJeInstruction]
    refine ⟨v.bytes ++ ((opcode ++ store32 diff) ++ bytes), c', ?_,
      (emitted_store _ _).trans ((emitted_store _ _).trans hemitted), ?_, fun s hpc hholds => ?_⟩
    · simp only [emitJITCode, hkind, hv]
      rw [hdest, Option.bind_some]
      rw [v.emit_eq, hbranch, Option.bind_some]
      exact hdefault
    · rw [List.length_append, List.length_append, List.length_append, hbytes, hopcode,
        length_store32, TestValue.length_bytes, ← Nat.add_assoc]
    · obtain ⟨hholds₁, hholds⟩ := Memory.holds_append.mp hholds
      obtain ⟨hholds₂, hholds₃⟩ := Memory.holds_append.mp hholds
      rw [TestValue.length_bytes] at hholds₂ hholds₃
      simp only [Control, hkind]
      intro v' hv'
      obtain rfl := Option.some.inj (hv.symm.trans hv')
      refine .head (v.step_eq (hpc ▸ hholds₁)) ?_
      have hstep := Cpu.step_branch (s := { s with pc := s.pc + v.length, zf := v.read s == 0 })
        t.isTestForNonZero (hpc ▸ hholds₂) (by
          rw [hdiff, hopcode, haddr₁, hpc])
      refine .head hstep ?_
      have hiff : (v.read s == 0) = t.isTestForNonZero ↔
          ¬ decide (v.read s ≠ 0) = t.isTestForNonZero := by
        cases t.isTestForNonZero <;> simp
      by_cases htaken : decide (v.read s ≠ 0) = t.isTestForNonZero
      · rw [if_pos htaken, if_neg (hiff.not.mpr (not_not.mpr htaken))]
        exact .refl _
      · rw [if_neg htaken, if_pos (hiff.mpr htaken)]
        refine hgoes _ (by rw [haddr₂, hpc]) ?_
        rw [haddr₂]
        simpa [hopcode, Nat.add_assoc] using hholds₃

end TerminatorInfo

end CodeLayout

end Dsom
