import Dsom.Operators.Values
import Dsom.Runtime.IntegerOps

/-!
# Operators/Primitives — the library functions behind the operators

The functions of `som_primitives.cpp` that are registered for the selector of an operator.
-/

namespace Dsom

namespace Primitives

variable (F : FloatOps)

/-! ## Integer -/

section Integer

variable (lhs rhs : TValue)

/-- An operation on an integer and a number, with an integer as the result when both are. -/
def integerArith (int : BitVec 32 → BitVec 32 → Option (BitVec 32))
    (dbl : BitVec 64 → BitVec 64 → BitVec 64) : Run TValue := do
  let l ← lhs.asInt32
  match rhs with
  | .int32 r => return .int32 (← wellDefined (int l r))
  | .double r => return .double (dbl (F.ofInt32 l) r)
  | _ => throw .assertion

/-- `integer_add`. -/
def integerAdd : Run TValue := integerArith F lhs rhs Signed.add F.add

/-- `integer_minus`. -/
def integerMinus : Run TValue := integerArith F lhs rhs Signed.sub F.sub

/-- `integer_star`. -/
def integerStar : Run TValue := integerArith F lhs rhs Signed.mul F.mul

/-- An operation on two integers. -/
def integerBitwise (int : BitVec 32 → BitVec 32 → Option (BitVec 32)) : Run TValue := do
  let l ← lhs.asInt32
  let r ← rhs.asInt32
  return .int32 (← wellDefined (int l r))

/-- `integer_bitwisexor`. -/
def integerBitwiseXor : Run TValue := integerBitwise lhs rhs fun l r => some (l ^^^ r)

/-- `integer_leftshift`; a shift count out of range is undefined. -/
def integerLeftShift : Run TValue := integerBitwise lhs rhs Signed.shiftLeft

/-- `integer_unsignedrightshift`. -/
def integerUnsignedRightShift : Run TValue := integerBitwise lhs rhs Dsom.integerUnsignedRightShift

/-- `integer_and`. -/
def integerAnd : Run TValue := integerBitwise lhs rhs fun l r => some (l &&& r)

/-- A division whose right operand is made an integer. -/
def integerDivision (int : BitVec 32 → BitVec 32 → Option (BitVec 32)) : Run TValue := do
  let l ← lhs.asInt32
  match rhs with
  | .int32 r => return .int32 (← wellDefined (int l r))
  | .double r => return .int32 (← wellDefined (int l (← wellDefined (F.toInt32 r))))
  | _ => throw .assertion

/-- `integer_slash`: the quotient, rounded as C++ does. -/
def integerSlash : Run TValue := integerDivision F lhs rhs Dsom.integerSlash

/-- `integer_percent`: the remainder with the sign of the divisor. -/
def integerPercent : Run TValue := integerDivision F lhs rhs Dsom.integerPercent

/-- `integer_slashslash`: the quotient as a double. -/
def integerSlashSlash : Run TValue := do
  let l ← lhs.asInt32
  match rhs with
  | .int32 r => return .double (F.div (F.ofInt32 l) (F.ofInt32 r))
  | .double r => return .double (F.div (F.ofInt32 l) r)
  | _ => throw .assertion

/-- A comparison of an integer and a number. -/
def integerCompare (int : BitVec 32 → BitVec 32 → Bool) (dbl : BitVec 64 → BitVec 64 → Bool) :
    Run TValue := do
  let l ← lhs.asInt32
  match rhs with
  | .int32 r => return .bool (int l r)
  | .double r => return .bool (dbl (F.ofInt32 l) r)
  | _ => throw .assertion

/-- `integer_lowerthan`. -/
def integerLowerThan : Run TValue := integerCompare F lhs rhs (fun l r => l.slt r) F.lt

/-- `integer_lowerequal`. -/
def integerLowerEqual : Run TValue := integerCompare F lhs rhs (fun l r => l.sle r) F.le

/-- `integer_greaterthan`. -/
def integerGreaterThan : Run TValue := integerCompare F lhs rhs (fun l r => r.slt l) F.gt

/-- `integer_greaterequal`. -/
def integerGreaterEqual : Run TValue := integerCompare F lhs rhs (fun l r => r.sle l) F.ge

/-- `integer_unequal`. -/
def integerUnequal : Run TValue := integerCompare F lhs rhs (fun l r => l != r) F.ne

/-- `integer_equal` takes anything on the right. -/
def integerEqual : Run TValue := do
  let l ← lhs.asInt32
  match rhs with
  | .int32 r => return .bool (l == r)
  | .double r => return .bool (F.eq (F.ofInt32 l) r)
  | _ => return .bool false

/-- `integer_equalequal`: only an integer is the same as an integer. -/
def integerEqualEqual : Run TValue := do
  let l ← lhs.asInt32
  match rhs with
  | .int32 r => return .bool (l == r)
  | _ => return .bool false

/-- `integer_sqrt`: an integer if the root is one, else a double. -/
def integerSqrt : Run TValue := do
  let v ← lhs.asInt32
  let r := F.sqrt (F.ofInt32 v)
  if F.eq r (F.rint r) then return .int32 (← wellDefined (F.toInt32 r)) else return .double r

/-- `integer_abs`. -/
def integerAbs : Run TValue := do
  let v ← lhs.asInt32
  if v.slt 0 then return .int32 (← wellDefined (Signed.neg v)) else return .int32 v

end Integer

/-! ## Double -/

section Double

variable (lhs rhs : TValue)

/-- What the double operators make of their right operand. -/
def coerceDouble : TValue → Run (BitVec 64)
  | .double d => pure d
  | .int32 i => pure (F.ofInt32 i)
  | _ => throw .assertion

/-- An operation on a double and a number. -/
def doubleArith (dbl : BitVec 64 → BitVec 64 → BitVec 64) : Run TValue := do
  let l ← lhs.asDouble
  let r ← coerceDouble F rhs
  return .double (dbl l r)

/-- `double_add`. -/
def doubleAdd : Run TValue := doubleArith F lhs rhs F.add

/-- `double_sub`. -/
def doubleSub : Run TValue := doubleArith F lhs rhs F.sub

/-- `double_star`. -/
def doubleStar : Run TValue := doubleArith F lhs rhs F.mul

/-- `double_slashslash`. -/
def doubleSlashSlash : Run TValue := doubleArith F lhs rhs F.div

/-- `double_percent`: both operands are cut to 64-bit integers first. -/
def doublePercent : Run TValue := do
  let l ← lhs.asDouble
  let r ← coerceDouble F rhs
  let m ← wellDefined (Signed.rem (← wellDefined (F.toInt64 l)) (← wellDefined (F.toInt64 r)))
  return .double (F.ofInt64 m)

/-- A comparison of a double and a number. -/
def doubleCompare (dbl : BitVec 64 → BitVec 64 → Bool) : Run TValue := do
  let l ← lhs.asDouble
  let r ← coerceDouble F rhs
  return .bool (dbl l r)

/-- `double_equal`. -/
def doubleEqual : Run TValue := doubleCompare F lhs rhs F.eq

/-- `double_unequal`. -/
def doubleUnequal : Run TValue := doubleCompare F lhs rhs F.ne

/-- `double_lowerthan`. -/
def doubleLowerThan : Run TValue := doubleCompare F lhs rhs F.lt

/-- `double_lowerequal`. -/
def doubleLowerEqual : Run TValue := doubleCompare F lhs rhs F.le

/-- `double_greaterthan`. -/
def doubleGreaterThan : Run TValue := doubleCompare F lhs rhs F.gt

/-- `double_greaterequal`. -/
def doubleGreaterEqual : Run TValue := doubleCompare F lhs rhs F.ge

/-- `double_sqrt`. -/
def doubleSqrt : Run TValue := do
  let v ← lhs.asDouble
  return .double (F.sqrt v)

end Double

/-! ## Object -/

/-- `object_equalequal` compares `m_value`. -/
def objectEqualEqual (lhs rhs : TValue) : Run TValue := return .bool (lhs = rhs)

/-! ## Block1, Block2, Block3 -/

section Block

variable (env : Surroundings)

/-- The call of a block that takes as many arguments as there are. -/
def blockEval (arity : BlockArity) (tv : TValue) (args : List TValue) : Run TValue := do
  match tv with
  | .heapEntity a =>
    match ← entity a with
    | .block ar self => if ar = arity then env.runBlock a (← self.read) args else throw .assertion
    | _ => throw .assertion
  | _ => throw .assertion

/-- `block1_eval`: a block without arguments. -/
def block1Eval (tv : TValue) : Run TValue := blockEval env .noArg tv []

/-- `block2_eval`: a block with one argument. -/
def block2Eval (tv arg : TValue) : Run TValue := blockEval env .oneArg tv [arg]

/-- `block3_eval`: a block with two arguments. -/
def block3Eval (tv arg1 arg2 : TValue) : Run TValue := blockEval env .twoArgs tv [arg1, arg2]

end Block

/-! ## Array

Indices start at one. -/

/-- What is printed when an index is not one of `size` elements. -/
def outOfBound (what sizeName : String) (idx : BitVec 32) (size : ℕ) : String :=
  what ++ " out of bound: index = " ++ toString idx.toInt ++ ", " ++ sizeName ++ " = " ++
    toString (BitVec.ofNat 32 size).toInt ++ "\n"

section Array

/-- An array, asserted to be one. -/
def asArray : TValue → Run (ℕ × List TValue)
  | .heapEntity a => do
    match ← entity a with
    | .array data => return (a, data)
    | _ => throw .assertion
  | _ => throw .assertion

/-- `m_data[idx]` of an array, when `idx` is one of its indices. -/
def element {α : Type} (data : List α) (idx : BitVec 32) : Option α :=
  if 0 < idx.toInt then data[idx.toInt.toNat - 1]? else none

/-- `array_at`: the index counts from one, and is checked. -/
def arrayAt (tv index : TValue) : Run TValue := do
  let idx ← index.asInt32
  let (_, data) ← asArray tv
  if idx.toInt ≤ 0 ∨ (data.length : ℤ) < idx.toInt then
    throw (.abort (outOfBound "Array access" "size" idx data.length))
  wellDefined (element data idx)

/-- `array_at_put`, with the same check. -/
def arrayAtPut (tv index valToPut : TValue) : Run TValue := do
  let idx ← index.asInt32
  let (a, data) ← asArray tv
  if idx.toInt ≤ 0 ∨ (data.length : ℤ) < idx.toInt then
    throw (.abort (outOfBound "Array write" "size" idx data.length))
  let _ ← wellDefined (element data idx)
  modify fun h => h.setElement a (idx.toInt.toNat - 1) valToPut
  return tv

/-- `array_length`. -/
def arrayLength (tv : TValue) : Run TValue := do
  let (_, data) ← asArray tv
  return .int32 (BitVec.ofNat 32 data.length)

end Array

/-! ## String -/

section String

/-- A string, asserted to be one. -/
def asString : TValue → Run (List (BitVec 8))
  | .heapEntity a => do
    match ← entity a with
    | .string _ chars => return chars
    | _ => throw .assertion
  | _ => throw .assertion

/-- `string_length`. -/
def stringLength (tv : TValue) : Run TValue := do
  let str ← asString tv
  return .int32 (BitVec.ofNat 32 str.length)

/-- `string_equal`: the same object, or a string with the same characters. -/
def stringEqual (lhs rhs : TValue) : Run TValue := do
  let l ← asString lhs
  if lhs = rhs then return .bool true
  match rhs with
  | .heapEntity b =>
    match ← entity b with
    | .string _ r => return .bool (r.length = l.length ∧ l = r)
    | _ => return .bool false
  | _ => return .bool false

/-- `string_charat`: a new string of one character. -/
def stringCharAt (tv index : TValue) : Run TValue := do
  let idx ← index.asInt32
  let str ← asString tv
  if idx.toInt ≤ 0 ∨ (str.length : ℤ) < idx.toInt then
    throw (.abort (outOfBound "String charAt" "string length" idx str.length))
  let ch ← wellDefined (element str idx)
  let h ← get
  set (h.allocateString [ch])
  return .heapEntity h.entities.size

end String

end Primitives

end Dsom
