import Dsom.Compiler.Code
import Mathlib.Data.Finset.Lattice.Fold
import Mathlib.Data.Fintype.Basic

/-!
# Dfg/Bytecode — the bytecode stream as the DFG passes read it

What `BytecodeDecoder` tells the analyses about one bytecode: whether it is one of the two
intrinsics that change which locals live in a captured variable, what it reads and writes, and
where control goes next.  Positions are bytecode indices, so `GetNextBytecodePosition` is `+ 1`.

A local is a `Fin numLocals` and a bit vector of length `numLocals` a `Finset (Fin numLocals)`: the
range assertions of the source hold by construction.
-/

namespace Dsom

variable {numLocals : ℕ}

/-- An upvalue of a closure that is created in a frame of `numLocals` slots. -/
structure FrameUpvalue (numLocals : ℕ) extends UpvalueMetadata where
  slot_lt : isParentLocal → slot < numLocals
  deriving DecidableEq

/-- The local of the creating frame that an upvalue captures. -/
def FrameUpvalue.local? (uv : FrameUpvalue numLocals) : Option (Fin numLocals) :=
  if h : uv.isParentLocal then some ⟨uv.slot, uv.slot_lt h⟩ else none

/-- …if it captures it mutably: `!m_isImmutable && m_isParentLocal`. -/
def FrameUpvalue.mutableLocal? (uv : FrameUpvalue numLocals) : Option (Fin numLocals) :=
  if uv.isImmutable then none else uv.local?

/-- `BytecodeRWCDesc`: something that a bytecode reads or writes. -/
inductive BytecodeRWCDesc (numLocals : ℕ) where
  | local (ord : Fin numLocals)
  | constant
  | range (start length : ℕ) (le : start + length ≤ numLocals)
  | varArgs
  | varRets
  deriving DecidableEq

/-- The locals an item stands for. -/
def BytecodeRWCDesc.locals : BytecodeRWCDesc numLocals → List (Fin numLocals)
  | .local ord => [ord]
  | .range start length le =>
      (List.finRange length).map fun (i : Fin length) => ⟨start + i, by have := i.isLt; omega⟩
  | .constant | .varArgs | .varRets => []

/-- What a bytecode does to the locals of its frame. -/
inductive BytecodeKind (numLocals : ℕ) where
  | createClosure (upvalueInfo : List (FrameUpvalue numLocals)) (dest : Fin numLocals)
  | upvalueClose (start : ℕ)
  | conventional (inputs outputs : List (BytecodeRWCDesc numLocals))
  deriving DecidableEq

/-- One bytecode.  A barrier never falls through to the next one. -/
structure Bytecode (numLocals : ℕ) where
  kind : BytecodeKind numLocals
  isBarrier : Bool
  branchTarget : Option ℕ
  deriving DecidableEq

namespace BytecodeKind

/-- The locals a bytecode turns into captured variables. -/
def captures : BytecodeKind numLocals → List (Fin numLocals)
  | .createClosure upvalueInfo _ => upvalueInfo.filterMap FrameUpvalue.mutableLocal?
  | _ => []

/-- Whether a bytecode turns a local back into a plain slot. -/
def Closes : BytecodeKind numLocals → Fin numLocals → Prop
  | .upvalueClose start, l => start ≤ l
  | _, _ => False

instance (k : BytecodeKind numLocals) (l : Fin numLocals) : Decidable (k.Closes l) :=
  match k with
  | .upvalueClose start => inferInstanceAs (Decidable (start ≤ l))
  | .createClosure .. => instDecidableFalse
  | .conventional .. => instDecidableFalse

/-- How a pass that scans a block bytecode by bytecode keeps `m_isLocalCaptured` up to date. -/
def scanCaptured (k : BytecodeKind numLocals) (isCaptured : Finset (Fin numLocals)) :
    Finset (Fin numLocals) :=
  match k with
  | .createClosure upvalueInfo _ =>
      isCaptured ∪ (upvalueInfo.filterMap FrameUpvalue.mutableLocal?).toFinset
  | .upvalueClose start => isCaptured.filter fun l => l < start
  | .conventional .. => isCaptured

theorem mem_scanCaptured {k : BytecodeKind numLocals} {c : Finset (Fin numLocals)}
    {l : Fin numLocals} : l ∈ k.scanCaptured c ↔ l ∈ k.captures ∨ ¬ k.Closes l ∧ l ∈ c := by
  cases k with
  | createClosure upvalueInfo dest =>
    simp only [scanCaptured, captures, Closes, Finset.mem_union, List.mem_toFinset,
      not_false_eq_true, true_and]
    exact or_comm
  | upvalueClose start =>
    simp only [scanCaptured, captures, Closes, Finset.mem_filter, not_le, List.not_mem_nil,
      false_or]
    exact and_comm
  | conventional inputs outputs => simp [scanCaptured, captures, Closes]

end BytecodeKind

end Dsom
