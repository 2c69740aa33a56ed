import Dsom.Compiler.Code
import Dsom.Operators.Primitives

/-!
# Operators/FastPaths — what the operator bytecodes do without a call

The bytecodes of `som_unary_operators.cpp`, `som_binary_operators.cpp` and
`som_ternary_operators.cpp`, up to the point where they look up the selector.  A run that ends with
`some v` has returned `v`; one that ends with `none` goes on to the lookup, as the source does where
a fast path has failed.
-/

namespace Dsom

namespace Operator

/-- A fast path. -/
abbrev FastPath := Run (Option TValue)

/-- `Return`. -/
def ret (tv : TValue) : FastPath := return some tv

/-- The fast path has failed. -/
def slowPath : FastPath := return none

/-- Return an `int32`, where the operation that made it is defined. -/
def retInt32 (i : Option (BitVec 32)) : FastPath := do ret (.int32 (← wellDefined i))

/-- Return a double. -/
def retDouble (d : BitVec 64) : FastPath := ret (.double d)

/-- Return a boolean. -/
def retBool (b : Bool) : FastPath := ret (.bool b)

variable (F : FloatOps)

/-! ## Arithmetic -/

/-- `DoIntegerIntegerArithOp`, with the divisions and the right shift of `IntegerOps`. -/
def doIntegerIntegerArithOp (kind : Operator) (lhs rhs : BitVec 32) : FastPath :=
  match kind with
  | .plus => retInt32 (Signed.add lhs rhs)
  | .minus => retInt32 (Signed.sub lhs rhs)
  | .star => retInt32 (Signed.mul lhs rhs)
  | .slashSlash => retDouble (F.div (F.ofInt32 lhs) (F.ofInt32 rhs))
  | .percent => retInt32 (Dsom.doIntegerIntegerArithOp .percent lhs rhs)
  | .and => retInt32 (some (lhs &&& rhs))
  | .equal => retBool (lhs == rhs)
  | .lessThan => retBool (lhs.slt rhs)
  | .lessEqual => retBool (lhs.sle rhs)
  | .greaterThan => retBool (rhs.slt lhs)
  | .greaterEqual => retBool (rhs.sle lhs)
  | .unequal => retBool (lhs != rhs)
  | .tildeUnequal => retBool (lhs != rhs)
  | .leftShift => retInt32 (Signed.shiftLeft lhs rhs)
  | .rightShift => retInt32 (Dsom.doIntegerIntegerArithOp .rightShift lhs rhs)
  | .bitwiseXor => retInt32 (some (lhs ^^^ rhs))
  | .slash => retInt32 (Dsom.doIntegerIntegerArithOp .slash lhs rhs)
  | _ => slowPath

/-- `DoIntegerDoubleArithOp`. -/
def doIntegerDoubleArithOp (kind : Operator) (lhs : BitVec 32) (rhs : BitVec 64) : FastPath :=
  match kind with
  | .plus => retDouble (F.add (F.ofInt32 lhs) rhs)
  | .minus => retDouble (F.sub (F.ofInt32 lhs) rhs)
  | .star => retDouble (F.mul (F.ofInt32 lhs) rhs)
  | .slashSlash => retDouble (F.div (F.ofInt32 lhs) rhs)
  | .percent => do retInt32 (doSOMIntegerPercent lhs (← wellDefined (F.toInt32 rhs)))
  | .equal => retBool (F.eq (F.ofInt32 lhs) rhs)
  | .lessThan => retBool (F.lt (F.ofInt32 lhs) rhs)
  | .lessEqual => retBool (F.le (F.ofInt32 lhs) rhs)
  | .greaterThan => retBool (F.gt (F.ofInt32 lhs) rhs)
  | .greaterEqual => retBool (F.ge (F.ofInt32 lhs) rhs)
  | .unequal => retBool (F.ne (F.ofInt32 lhs) rhs)
  | .tildeUnequal => retBool (F.ne (F.ofInt32 lhs) rhs)
  | .slash => do retInt32 (Signed.div lhs (← wellDefined (F.toInt32 rhs)))
  | _ => slowPath

/-- `DoDoubleArithOp` of two doubles. -/
def doDoubleDoubleArithOp (kind : Operator) (lhs rhs : BitVec 64) : FastPath :=
  match kind with
  | .plus => retDouble (F.add lhs rhs)
  | .minus => retDouble (F.sub lhs rhs)
  | .star => retDouble (F.mul lhs rhs)
  | .slashSlash => retDouble (F.div lhs rhs)
  | .percent => do
    let m ← wellDefined (Signed.rem (← wellDefined (F.toInt64 lhs)) (← wellDefined (F.toInt64 rhs)))
    retDouble (F.ofInt64 m)
  | .equal => retBool (F.eq lhs rhs)
  | .lessThan => retBool (F.lt lhs rhs)
  | .lessEqual => retBool (F.le lhs rhs)
  | .greaterThan => retBool (F.gt lhs rhs)
  | .greaterEqual => retBool (F.ge lhs rhs)
  | .unequal => retBool (F.ne lhs rhs)
  | .tildeUnequal => retBool (F.ne lhs rhs)
  | _ => slowPath

/-- `DoIntegerArithOp`: an integer is equal to nothing but numbers. -/
def doIntegerArithOp (kind : Operator) (lhs : BitVec 32) (rhs : TValue) : FastPath :=
  match rhs with
  | .int32 r => doIntegerIntegerArithOp F kind lhs r
  | .double r => doIntegerDoubleArithOp F kind lhs r
  | _ => if kind = .equal then retBool false else throw .assertion

/-- `DoDoubleArithOp`. -/
def doDoubleArithOp (kind : Operator) (lhs : BitVec 64) (rhs : TValue) : FastPath :=
  match rhs with
  | .double r => doDoubleDoubleArithOp F kind lhs r
  | _ => do doDoubleDoubleArithOp F kind lhs (F.ofInt32 (← rhs.asInt32))

/-- The case of `ArithBinOpImpl` for two strings, `lhs` being a pointer. -/
def stringEqual (a : ℕ) (rhs : TValue) : FastPath := do
  match ← entity a with
  | .string _ l =>
    if .heapEntity a = rhs then retBool true
    else
      match rhs with
      | .heapEntity b =>
        match ← entity b with
        | .string _ r =>
          if r.length ≠ l.length then retBool false
          else if r.length = 1 then retBool (l.head? == r.head?)
          else retBool (l = r)
        | _ => retBool false
      | _ => retBool false
  | _ => slowPath

/-- `ArithBinOpImpl`. -/
def arithBinOpImpl (kind : Operator) (lhs rhs : TValue) : FastPath :=
  match kind with
  | .and | .leftShift | .rightShift | .bitwiseXor | .slash =>
    match lhs with
    | .int32 l => doIntegerArithOp F kind l rhs
    | _ => slowPath
  | .equal =>
    match lhs with
    | .int32 l => doIntegerArithOp F kind l rhs
    | .heapEntity a => stringEqual a rhs
    | .double l => doDoubleArithOp F kind l rhs
    | _ => slowPath
  | _ =>
    match lhs with
    | .int32 l => doIntegerArithOp F kind l rhs
    | .double l => doDoubleArithOp F kind l rhs
    | _ => slowPath

/-- `OperatorEqualEqualImpl` compares `m_value`. -/
def operatorEqualEqualImpl (lhs rhs : TValue) : FastPath := retBool (lhs = rhs)

/-! ## Other binary operators -/

/-- `BooleanBinOpImpl`, for `&&` and `and:`, or for `||` and `or:`. -/
def booleanBinOpImpl (isAnd : Bool) (lhs rhs : TValue) : FastPath :=
  match lhs, rhs with
  | _, .heapEntity _ => slowPath
  | .bool b, rhs => ret (if b = isAnd then rhs else lhs)
  | _, _ => slowPath

/-- A call of a block with as many arguments as it takes, as in `MiscUnaryOpImpl`, `MiscBinOpImpl`
and `MiscTernaryOpImpl`. -/
def blockValue (env : Surroundings) (arity : BlockArity) (op : TValue) (args : List TValue) :
    FastPath :=
  match op with
  | .heapEntity a => do
    match ← entity a with
    | .block ar self => if ar = arity then ret (← env.runBlock a (← self.read) args) else slowPath
    | _ => slowPath
  | _ => slowPath

/-- `static_cast<uint32_t>(idx) - 1 >= length`, the bound being 64 bits wide. -/
def IndexOutOfRange (idx : BitVec 32) (length : ℕ) : Prop := length ≤ (idx - 1).toNat

instance (idx : BitVec 32) (length : ℕ) : Decidable (IndexOutOfRange idx length) :=
  inferInstanceAs (Decidable (_ ≤ _))

/-- `MiscBinOpImpl` for `at:`. -/
def atColonImpl (lhs rhs : TValue) : FastPath :=
  match lhs with
  | .heapEntity a => do
    match ← entity a with
    | .array data =>
      let idx ← rhs.asInt32
      if IndexOutOfRange idx data.length then
        throw (.abort (Primitives.outOfBound "Array access" "size" idx data.length))
      ret (← wellDefined (Primitives.element data idx))
    | _ => slowPath
  | _ => slowPath

/-- `MiscBinOpImpl` for `charAt:`; `InitSingleCharStringSlowPath` makes a string that is not in the
cache. -/
def charAtColonImpl (lhs rhs : TValue) : FastPath :=
  match lhs with
  | .heapEntity a => do
    match ← entity a with
    | .string _ chars =>
      let idx ← rhs.asInt32
      if IndexOutOfRange idx chars.length then
        throw (.abort (Primitives.outOfBound "String charAt" "string length" idx chars.length))
      let ch ← wellDefined (Primitives.element chars idx)
      let h ← get
      match h.singleCharStrings ch with
      | some r => ret (.heapEntity r)
      | none =>
        set (h.allocateSingleChar ch)
        ret (.heapEntity h.entities.size)
    | _ => slowPath
  | _ => slowPath

/-! ## Unary and ternary operators -/

/-- `ArithUnaryOpImpl` for `abs`. -/
def absImpl (op : TValue) : FastPath :=
  match op with
  | .int32 v => if v.slt 0 then retInt32 (Signed.neg v) else ret op
  | .double d => retDouble (if F.lt d 0 then F.sub 0 d else d)
  | _ => slowPath

/-- `ArithUnaryOpImpl` for `sqrt`. -/
def sqrtImpl (op : TValue) : FastPath :=
  match op with
  | .double d => retDouble (F.sqrt d)
  | .int32 v =>
    let r := F.sqrt (F.ofInt32 v)
    if F.eq r (F.rint r) then retInt32 (F.toInt32 r) else retDouble r
  | _ => slowPath

/-- `IsNilNotNilOpImpl`. -/
def isNilNotNilOpImpl (forIsNil : Bool) (op : TValue) : FastPath :=
  retBool (decide (op = .nil) == forIsNil)

/-- `MiscUnaryOpImpl` for `value`: on what is no heap entity it is the identity. -/
def valueImpl (env : Surroundings) (op : TValue) : FastPath :=
  match op with
  | .heapEntity _ => blockValue env .noArg op []
  | _ => ret op

/-- `MiscUnaryOpImpl` for `not`. -/
def notImpl (op : TValue) : FastPath :=
  match op with
  | .bool b => retBool !b
  | _ => slowPath

/-- `MiscUnaryOpImpl` for `length`. -/
def lengthImpl (op : TValue) : FastPath :=
  match op with
  | .heapEntity a => do
    match ← entity a with
    | .array data => ret (.int32 (BitVec.ofNat 32 data.length))
    | .string _ chars => ret (.int32 (BitVec.ofNat 32 chars.length))
    | _ => slowPath
  | _ => slowPath

/-- `MiscTernaryOpImpl` for `at:put:`. -/
def atPutImpl (op arg1 arg2 : TValue) : FastPath :=
  match op with
  | .heapEntity a => do
    match ← entity a with
    | .array data =>
      let idx ← arg1.asInt32
      if IndexOutOfRange idx data.length then
        throw (.abort (Primitives.outOfBound "Array write" "size" idx data.length))
      let _ ← wellDefined (Primitives.element data idx)
      modify fun h => h.setElement a (idx.toInt.toNat - 1) arg2
      ret op
    | _ => slowPath
  | _ => slowPath

/-! ## All of them -/

/-- The fast path of a unary operator. -/
def unaryFastPath (env : Surroundings) (kind : Operator) (op : TValue) : FastPath :=
  match kind with
  | .abs => absImpl env.floats op
  | .sqrt => sqrtImpl env.floats op
  | .isNil => isNilNotNilOpImpl true op
  | .notNil => isNilNotNilOpImpl false op
  | .value => valueImpl env op
  | .not => notImpl op
  | .length => lengthImpl op
  | _ => slowPath

/-- The fast path of a binary operator. -/
def binaryFastPath (env : Surroundings) (kind : Operator) (lhs rhs : TValue) : FastPath :=
  match kind with
  | .plus | .minus | .star | .slashSlash | .percent | .and | .equal | .lessThan | .lessEqual
  | .greaterThan | .greaterEqual | .unequal | .tildeUnequal | .leftShift | .rightShift
  | .bitwiseXor | .slash => arithBinOpImpl env.floats kind lhs rhs
  | .equalEqual => operatorEqualEqualImpl lhs rhs
  | .logicalAnd | .keywordAnd => booleanBinOpImpl true lhs rhs
  | .logicalOr | .keywordOr => booleanBinOpImpl false lhs rhs
  | .valueColon => blockValue env .oneArg lhs [rhs]
  | .atColon => atColonImpl lhs rhs
  | .charAtColon => charAtColonImpl lhs rhs
  | _ => slowPath

/-- The fast path of a ternary operator. -/
def ternaryFastPath (env : Surroundings) (kind : Operator) (op arg1 arg2 : TValue) : FastPath :=
  match kind with
  | .atPut => atPutImpl op arg1 arg2
  | .valueWith => blockValue env .twoArgs op [arg1, arg2]
  | _ => slowPath

/-- **The fast path of an operator bytecode.** -/
def fastPath (env : Surroundings) (kind : Operator) (op : TValue) : List TValue → FastPath
  | [] => unaryFastPath env kind op
  | [rhs] => binaryFastPath env kind op rhs
  | [arg1, arg2] => ternaryFastPath env kind op arg1 arg2
  | _ => slowPath

end Operator

end Dsom
