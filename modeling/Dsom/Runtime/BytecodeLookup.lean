import Dsom.Foundations.BinarySearch
import Mathlib.Algebra.Group.Nat.Defs
import Mathlib.Data.List.GetD
import Mathlib.Tactic.Common

/-!
# Runtime/BytecodeLookup — the index of a bytecode, from the low half of its address

A `BaselineCodeBlock` keeps for every bytecode the low 32 bits of its address in the bytecode stream
of the owner.  They need not ascend: the stream may straddle a multiple of `2 ^ 32`.  Their
differences to the low bits of the owner's own address do (`offset_sbIndex`), and the search goes by
these.
-/

namespace Dsom

/-- **A `BaselineCodeBlock`**: where its owner is, how far behind that address the bytecode stream
starts, and the offsets in it at which the bytecodes start. -/
structure BaselineCodeBlock where
  owner : BitVec 64
  trailingArrayOffset : ℕ
  bytecodeLength : ℕ
  bytecodeOffsets : List ℕ
  trailingArrayOffset_lt : trailingArrayOffset < 2 ^ 31
  bytecodeLength_lt : bytecodeLength < 2 ^ 31
  ascending : bytecodeOffsets.Pairwise (· < ·)
  bytecodeOffsets_lt : ∀ offset ∈ bytecodeOffsets, offset < bytecodeLength

namespace BaselineCodeBlock

variable (c : BaselineCodeBlock)

/-- The number of bytecodes in the code block. -/
def numBytecodes : ℕ := c.bytecodeOffsets.length

/-- The address of a bytecode. -/
def bytecodePtr (i : ℕ) : BitVec 64 :=
  c.owner + BitVec.ofNat 64 (c.trailingArrayOffset + c.bytecodeOffsets.getD i 0)

/-- `m_sbIndex[i].m_bytecodePtr32`. -/
def sbIndex (i : ℕ) : BitVec 32 := (c.bytecodePtr i).setWidth 32

/-- **`GetBytecodeIndexFromBytecodePtrLower32Bits`.** -/
def getBytecodeIndexFromBytecodePtrLower32Bits (bytecodePtr32 : BitVec 32) : Option ℕ :=
  let base : BitVec 32 := c.owner.setWidth 32
  let targetOffset := bytecodePtr32 - base
  if c.numBytecodes = 0 then none
  else
    BinarySearch.findLoop (fun mid => (c.sbIndex mid - base).toNat) targetOffset.toNat
      c.numBytecodes 0 (c.numBytecodes - 1)

/-- The offsets are inside the code block. -/
theorem bytecodeOffset_lt {i : ℕ} (hi : i < c.numBytecodes) :
    c.bytecodeOffsets.getD i 0 < c.bytecodeLength := by
  rw [List.getD_eq_getElem _ _ hi]
  exact c.bytecodeOffsets_lt _ (List.getElem_mem hi)

/-- Both addresses are cut to 32 bits, and their difference is the distance all the same. -/
theorem offset_sbIndex {i : ℕ} (hi : i < c.numBytecodes) :
    (c.sbIndex i - c.owner.setWidth 32).toNat
      = c.trailingArrayOffset + c.bytecodeOffsets.getD i 0 := by
  have hoffset := c.bytecodeOffset_lt hi
  have hlength := c.bytecodeLength_lt
  have htrailing := c.trailingArrayOffset_lt
  have hsub : c.sbIndex i - c.owner.setWidth 32
      = BitVec.ofNat 32 (c.trailingArrayOffset + c.bytecodeOffsets.getD i 0) := by
    rw [sbIndex, bytecodePtr, BitVec.setWidth_add _ _ (by omega), BitVec.setWidth_ofNat_of_le
      (by omega), BitVec.add_comm, BitVec.add_sub_cancel]
  rw [hsub, BitVec.toNat_ofNat, Nat.mod_eq_of_lt (by omega)]

/-- The offsets go up, seen from the owner's address. -/
theorem strictMonoOn_offset :
    StrictMonoOn (fun mid => (c.sbIndex mid - c.owner.setWidth 32).toNat)
      (Set.Icc 0 (c.numBytecodes - 1)) := by
  intro i hi j hj hij
  have hj' : j < c.numBytecodes := by
    rcases Nat.eq_zero_or_pos c.numBytecodes with h | h
    · have := hj.2
      omega
    · have := hj.2
      omega
  have hlt : c.bytecodeOffsets.getD i 0 < c.bytecodeOffsets.getD j 0 := by
    rw [List.getD_eq_getElem _ _ (hij.trans hj'), List.getD_eq_getElem _ _ hj']
    exact List.pairwise_iff_getElem.mp c.ascending i j _ _ hij
  simp only [c.offset_sbIndex hj', c.offset_sbIndex (hij.trans hj')]
  omega

/-- **The low half of the address of a bytecode is enough to find it**, wherever the code block
is. -/
theorem getBytecodeIndexFromBytecodePtrLower32Bits_eq (i : Fin c.numBytecodes) :
    c.getBytecodeIndexFromBytecodePtrLower32Bits ((c.bytecodePtr i).setWidth 32)
      = some (i : ℕ) := by
  have hi := i.isLt
  unfold getBytecodeIndexFromBytecodePtrLower32Bits
  rw [if_neg (by omega)]
  exact BinarySearch.findLoop_eq c.strictMonoOn_offset (Nat.zero_le _) (by omega) (by omega)

/-- A stream across a multiple of `2 ^ 32`: the low bits start over after the second bytecode. -/
def straddling : BaselineCodeBlock where
  owner := 0xFFFFFFF0#64
  trailingArrayOffset := 8
  bytecodeLength := 40
  bytecodeOffsets := [0, 4, 12, 30]
  trailingArrayOffset_lt := by decide
  bytecodeLength_lt := by decide
  ascending := by decide
  bytecodeOffsets_lt := by decide

example : straddling.sbIndex 1 = 0xFFFFFFFC#32 ∧ straddling.sbIndex 2 = 4#32
    ∧ straddling.getBytecodeIndexFromBytecodePtrLower32Bits 4#32 = some 2 := by decide

end BaselineCodeBlock

end Dsom
