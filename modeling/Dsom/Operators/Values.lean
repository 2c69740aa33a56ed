import Dsom.Foundations.Arena
import Dsom.Foundations.Signed

/-!
# Operators/Values — values and the heap, as the operators see them

A `TValue` with the entities it can point at: strings, arrays and blocks keep what the operators
and the library functions read of them.  Two values have the same `m_value` when they are equal.

Arithmetic of doubles is a parameter, as is all that an operator can call and that is not in the
library modelled here.
-/

namespace Dsom

/-- `TValue`; the pointer to a heap entity is a number. -/
inductive TValue where
  | nil
  | bool (b : Bool)
  | int32 (i : BitVec 32)
  | double (d : BitVec 64)
  | heapEntity (address : ℕ)
  deriving DecidableEq

/-- How many arguments a block takes, `self` excluded. -/
inductive BlockArity where
  | noArg
  | oneArg
  | twoArgs
  deriving DecidableEq

/-- `m_upvalues[0]` of a block: `self`, or in the kinds without `ImmSelf` the upvalue it is in. -/
inductive BlockSelf where
  | immutable (tv : TValue)
  | mutable (uv : ℕ)

/-- What a pointer can point at, by `m_arrayType`.  A string has the class `Symbol` or `String`; an
`object` has a class that is not one of the library's. -/
inductive HeapEntity where
  | object
  | string (isSymbol : Bool) (chars : List (BitVec 8))
  | array (data : List TValue)
  | block (arity : BlockArity) (self : BlockSelf)

/-- The heap, with `*m_ptr` of the upvalues and the array of cached strings of one character. -/
structure Heap where
  entities : Arena HeapEntity
  upvalues : ℕ → TValue
  singleCharStrings : BitVec 8 → Option ℕ
  singleCharStrings_spec : ∀ ch a, singleCharStrings ch = some a →
    a < entities.size ∧ entities.get a = .string false [ch]

namespace Heap

variable (h : Heap)

/-- `o->m_data[i + 1] = tv` in an array. -/
def setElement (address i : ℕ) (tv : TValue) : Heap where
  entities := h.entities.modify address fun e =>
    match e with
    | .array data => .array (data.set i tv)
    | e => e
  upvalues := h.upvalues
  singleCharStrings := h.singleCharStrings
  singleCharStrings_spec ch a ha := by
    obtain ⟨hlt, hget⟩ := h.singleCharStrings_spec ch a ha
    refine ⟨hlt, ?_⟩
    rcases h.entities.get_modify_or address a _ with hm | hm
    · rw [hm, hget]
    · rw [hm, hget]

/-- `AllocateString`; the string is at the old size. -/
def allocateString (chars : List (BitVec 8)) : Heap where
  entities := h.entities.push (.string false chars)
  upvalues := h.upvalues
  singleCharStrings := h.singleCharStrings
  singleCharStrings_spec ch a ha := by
    obtain ⟨hlt, hget⟩ := h.singleCharStrings_spec ch a ha
    exact ⟨by simp; omega, (h.entities.get_push_of_lt hlt _).trans hget⟩

/-- `AllocateString` of one character, which is kept as the cached one. -/
def allocateSingleChar (ch : BitVec 8) : Heap where
  entities := h.entities.push (.string false [ch])
  upvalues := h.upvalues
  singleCharStrings c := if c = ch then some h.entities.size else h.singleCharStrings c
  singleCharStrings_spec c a ha := by
    split_ifs at ha with hc
    · obtain rfl := Option.some.inj ha
      exact ⟨by simp, by rw [hc, Arena.get_push_self]⟩
    · obtain ⟨hlt, hget⟩ := h.singleCharStrings_spec c a ha
      exact ⟨by simp; omega, (h.entities.get_push_of_lt hlt _).trans hget⟩

end Heap

/-! ## Runs

A run may stop before it has a value; the heap is then of no use any more. -/

/-- What keeps a bytecode or a library function from returning: a violated assertion, an operation
that is undefined, `abort()` after a message, or a block that returns from its method.  `running` is
what we know of a message send as long as we have not looked deep enough. -/
inductive Stop where
  | assertion
  | undefined
  | abort (message : String)
  | thrown (tv : TValue)
  | running
  deriving DecidableEq

/-- Code that works on the heap. -/
abbrev Run := StateT Heap (Except Stop)

/-- The heap entity at an address. -/
def entity (address : ℕ) : Run HeapEntity := do return (← get).entities.get address

/-- `As<tInt32>`. -/
def TValue.asInt32 : TValue → Run (BitVec 32)
  | .int32 i => pure i
  | _ => throw .assertion

/-- `As<tDouble>`. -/
def TValue.asDouble : TValue → Run (BitVec 64)
  | .double d => pure d
  | _ => throw .assertion

/-- The result of an operation of C++. -/
def wellDefined {α : Type} : Option α → Run α
  | some a => pure a
  | none => throw .undefined

/-- The `self` that a block runs with. -/
def BlockSelf.read : BlockSelf → Run TValue
  | .immutable tv => pure tv
  | .mutable uv => do return (← get).upvalues uv

/-! ## What is not modelled

The operations on doubles and whatever the rest of the program does are parameters. -/

/-- The operations on `double`.  Casts to integers have no meaning for a number out of range. -/
structure FloatOps where
  add : BitVec 64 → BitVec 64 → BitVec 64
  sub : BitVec 64 → BitVec 64 → BitVec 64
  mul : BitVec 64 → BitVec 64 → BitVec 64
  div : BitVec 64 → BitVec 64 → BitVec 64
  eq : BitVec 64 → BitVec 64 → Bool
  ne : BitVec 64 → BitVec 64 → Bool
  lt : BitVec 64 → BitVec 64 → Bool
  le : BitVec 64 → BitVec 64 → Bool
  gt : BitVec 64 → BitVec 64 → Bool
  ge : BitVec 64 → BitVec 64 → Bool
  sqrt : BitVec 64 → BitVec 64
  rint : BitVec 64 → BitVec 64
  ofInt32 : BitVec 32 → BitVec 64
  ofInt64 : BitVec 64 → BitVec 64
  toInt32 : BitVec 64 → Option (BitVec 32)
  toInt64 : BitVec 64 → Option (BitVec 64)

/-- The operations on doubles, the code of the blocks, and what a message does for which the part of
the library that is modelled has no method. -/
structure Surroundings where
  floats : FloatOps
  runBlock : ℕ → TValue → List TValue → Run TValue
  send : String → TValue → List TValue → Run TValue

end Dsom
