import Dsom.Syntax.Ast
import Mathlib.Data.Int.Notation

/-!
# Compiler/Code — bytecode

The bytecodes `som_compile_file.cpp` emits.  Branch targets are implicit: `SetBranchTarget` is only
ever used to skip a piece of code forwards or to close a loop, so a `Code` is a tree of these
shapes. The tree also keeps which part of the code was an inlined block, the last expression of
one, or the right-hand side of an assignment; no bytecode stands for these nodes.  Slots are
relative to the frame.
-/

namespace Dsom

/-- A `TValue`; heap objects and functions are numbered. -/
inductive Value where
  | nil
  | bool (b : Bool)
  | int32 (i : BitVec 32)
  | double (d : BitVec 64)
  | string (text : String)
  | symbol (text : String)
  | object (ref : ℕ)
  | function (ref : ℕ)
  deriving DecidableEq

/-- `LocalOrCstWrapper`. -/
inductive Operand where
  | local (slot : ℕ)
  | cst (v : Value)
  deriving DecidableEq

/-- The specialised operator bytecodes. -/
inductive Operator where
  | plus | minus | star | slashSlash | percent | and | equal | lessThan | lessEqual | greaterThan
  | greaterEqual | unequal | tildeUnequal | leftShift | rightShift | bitwiseXor | slash | equalEqual
  | logicalAnd | logicalOr | keywordAnd | keywordOr | valueColon | atColon | charAtColon
  | abs | sqrt | isNil | notNil | value | not | length
  | atPut | valueWith
  deriving DecidableEq

/-- `SOMReceiverKind`. -/
inductive SOMReceiverKind where
  | normal
  | objectSelf
  | super
  deriving DecidableEq

/-- When a conditional branch is taken. -/
inductive BranchCond where
  | ifTrue
  | ifFalse
  | ifNil
  | ifNotNil
  deriving DecidableEq

/-- What a conditional branch writes, taken or not. -/
inductive BranchStore where
  | nothing
  | storeNil (output : ℕ)
  | copy (output : ℕ)
  deriving DecidableEq

/-- A conditional branch on a slot. -/
structure Branch where
  on : BranchCond
  cond : ℕ
  store : BranchStore
  deriving DecidableEq

/-- `SafeIntegerCast<uint16_t>`, which a build without assertions lets truncate. -/
def safeIntegerCastU16 (src : ℕ) : ℕ := src % 65536

/-- The bytecodes without a branch target.  `newClosure` names the code block by its number. -/
inductive Instr where
  | mov (input : Operand) (output : ℕ)
  | somArrayDup (elements : List AstLiteral) (output : ℕ)
  | upvalueGetMutable (ord output : ℕ)
  | upvalueGetImmutable (ord output : ℕ)
  | upvaluePut (ord : ℕ) (value : Operand)
  | upvalueClose (base : ℕ)
  | somGetField (index output : ℕ)
  | somPutField (index : ℕ) (value : Operand)
  | somGlobalGet (index output : ℕ)
  | rangeFillNils (base numToPut : ℕ)
  | newClosure (unlinkedCb output : ℕ)
  | operator (op : Operator) (operands : List Operand) (output : ℕ)
  | somCall (kind : SOMReceiverKind) (base : ℕ) (meth : String) (numArgs output : ℕ)
  | ret (retStart : ℕ)
  | somThrow (value : ℕ)

/-- Emitted code.  `branch b body` jumps over `body`; `branchElse b body other` runs `body` and
jumps over `other`, or jumps to `other`; a loop jumps back to its beginning.  `inlined` is the code
of an inlined block whose variables have the slots from `start` up to `free`, and `result` its last
expression; `assign` is a right-hand side that is evaluated straight into the variable's slot. -/
inductive Code where
  | empty
  | op (i : Instr)
  | seq (c c' : Code)
  | branch (b : Branch) (body : Code)
  | branchElse (b : Branch) (body other : Code)
  | whileLoop (cond : Code) (exit : Branch) (body : Code)
  | forLoop (downto : Bool) (base : ℕ) (body : Code)
  | inlined (start free : ℕ) (body : Code)
  | result (start free : ℕ) (value : Code)
  | assign (slot : ℕ) (rhs : Code)

/-- `UpvalueMetadata`. -/
structure UpvalueMetadata where
  isParentLocal : Bool
  isImmutable : Bool
  slot : ℕ
  deriving DecidableEq

/-- `SOMDetailEntityType`, as far as functions have one. -/
inductive FnKind where
  | method
  | blockNoArg
  | blockNoArgImmSelf
  | blockOneArg
  | blockOneArgImmSelf
  | blockTwoArgs
  | blockTwoArgsImmSelf
  deriving DecidableEq

/-- `SOMMethodLookupResultKind` of a compiled method, with `m_trivialFnInfo`. -/
inductive Triviality where
  | normalMethod
  | literalReturn (v : Value)
  | globalReturn (index : ℕ)
  | selfReturn
  | getter (field : ℕ)
  | setter (field : ℕ)
  deriving DecidableEq

/-- `UnlinkedCodeBlock`. -/
structure UnlinkedCodeBlock where
  parent : Option ℕ
  numFixedArguments : ℕ
  stackFrameNumSlots : ℕ
  upvalueInfo : List UpvalueMetadata
  fnKind : FnKind
  trivialFn : Triviality
  bytecode : Code

end Dsom
