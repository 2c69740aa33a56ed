import Dsom.Operators.FastPaths

/-!
# Operators/Library — the methods that the operators stand for

The methods for the selectors of the operators, as the `.som` files of the library define them and
as `SOMCompileFile` overrides them by the registered primitives; and what sending a message does:
look the selector up from the receiver's class on, and run the method that is found.
-/

namespace Dsom

/-! ## Methods in SOM -/

/-- The expressions that the bodies of these methods are made of.  `andBlock` and `orBlock` are
`cond and: [ e ]` and `cond or: [ e ]`, which are inlined. -/
inductive LibraryExpr where
  | self
  | parameter (i : ℕ)
  | literal (tv : TValue)
  | send (selector : String) (receiver : LibraryExpr) (arguments : List LibraryExpr)
  | andBlock (cond e : LibraryExpr)
  | orBlock (cond e : LibraryExpr)

/-- The statements: `^e`, an expression whose value is dropped, and `retUnless b cond e`, which is
`cond ifTrue: [ ^e ]`, for `b = false`, or `cond ifFalse: [ ^e ]`: these are inlined, and the branch
skips the block when `cond` is `b`. -/
inductive LibraryStatement where
  | ret (e : LibraryExpr)
  | expr (e : LibraryExpr)
  | retUnless (b : Bool) (cond e : LibraryExpr)

/-- A method in a `.som` file. -/
inductive SOMMethod where
  | primitive
  | body (statements : List LibraryStatement)

/-- `( ^e )`. -/
def SOMMethod.ret (e : LibraryExpr) : SOMMethod := .body [.ret e]

/-- `( e )`, which returns `self`. -/
def SOMMethod.expr (e : LibraryExpr) : SOMMethod := .body [.expr e]

section Evaluation

-- how a message is sent, the receiver and the arguments of the method
variable (send : String → TValue → List TValue → Run TValue) (self : TValue) (args : List TValue)

mutual

/-- The value of a library expression: the receiver first, then the arguments. -/
def LibraryExpr.eval : LibraryExpr → Run TValue
  | .self => return self
  | .parameter i => wellDefined args[i]?
  | .literal tv => return tv
  | .send selector receiver arguments => do
    let rcv ← receiver.eval
    send selector rcv (← LibraryExpr.evalAll arguments)
  | .andBlock cond e => do
    let tv ← cond.eval
    if tv = .bool false then return tv else e.eval
  | .orBlock cond e => do
    let tv ← cond.eval
    if tv = .bool true then return tv else e.eval

/-- The values of the arguments, from left to right. -/
def LibraryExpr.evalAll : List LibraryExpr → Run (List TValue)
  | [] => return []
  | e :: es => do
    let tv ← e.eval
    return tv :: (← LibraryExpr.evalAll es)

end

/-- The statements of a method, which returns `self` at its end. -/
def runBody : List LibraryStatement → Run TValue
  | [] => return self
  | .ret e :: _ => e.eval send self args
  | .expr e :: statements => do
    let _ ← e.eval send self args
    runBody statements
  | .retUnless b cond e :: statements => do
    if (← cond.eval send self args) = .bool b then runBody statements else e.eval send self args

end Evaluation

/-! ## The library -/

/-- The system classes that the values of the operators have, and their superclasses. -/
inductive SystemClass where
  | objectClass | nilClass | booleanClass | trueClass | falseClass | integerClass | doubleClass
  | arrayClass | stringClass | symbolClass | blockClass | block1Class | block2Class | block3Class
  deriving DecidableEq

namespace SystemClass

/-- A class and its superclasses. -/
def chain : SystemClass → List SystemClass
  | trueClass => [trueClass, booleanClass, objectClass]
  | falseClass => [falseClass, booleanClass, objectClass]
  | symbolClass => [symbolClass, stringClass, objectClass]
  | block1Class => [block1Class, blockClass, objectClass]
  | block2Class => [block2Class, blockClass, objectClass]
  | block3Class => [block3Class, blockClass, objectClass]
  | objectClass => [objectClass]
  | c => [c, objectClass]

/-- The name of the class in the system dictionary. -/
def className : SystemClass → String
  | objectClass => "Object"
  | nilClass => "Nil"
  | booleanClass => "Boolean"
  | trueClass => "True"
  | falseClass => "False"
  | integerClass => "Integer"
  | doubleClass => "Double"
  | arrayClass => "Array"
  | stringClass => "String"
  | symbolClass => "Symbol"
  | blockClass => "Block"
  | block1Class => "Block1"
  | block2Class => "Block2"
  | block3Class => "Block3"

open LibraryExpr SOMMethod in
/-- The methods of the `.som` files for the selectors of the operators, and those that their bodies
use. -/
def somMethod : SystemClass → String → Option SOMMethod
  | objectClass => fun
    | "=" => some (.ret (send "==" self [parameter 0]))
    | "<>" => some (.ret (send "not" (send "=" self [parameter 0]) []))
    | "==" => some primitive
    | "~=" => some (.ret (send "not" (send "==" self [parameter 0]) []))
    | "isNil" => some (.ret (literal (.bool false)))
    | "notNil" => some (.ret (literal (.bool true)))
    | "value" => some (.ret self)
    | _ => none
  | nilClass => fun
    | "isNil" => some (.ret (literal (.bool true)))
    | "notNil" => some (.ret (literal (.bool false)))
    | _ => none
  | booleanClass => fun
    | "ifTrue:ifFalse:" => some (.body [
        .retUnless false self (send "value" (parameter 0) []),
        .retUnless true self (send "value" (parameter 1) [])])
    | "||" => some (.ret (send "or:" self [parameter 0]))
    | "&&" => some (.ret (send "and:" self [parameter 0]))
    | _ => none
  | trueClass => fun
    | "not" => some (.ret (literal (.bool false)))
    | "or:" => some (.ret (literal (.bool true)))
    | "and:" => some (.ret (send "value" (parameter 0) []))
    | _ => none
  | falseClass => fun
    | "not" => some (.ret (literal (.bool true)))
    | "or:" => some (.ret (send "value" (parameter 0) []))
    | "and:" => some (.ret (literal (.bool false)))
    | _ => none
  | integerClass => fun
    | "+" | "-" | "*" | "/" | "//" | "%" | "&" | "<<" | ">>>" | "bitXor:" | "sqrt" | "=" | "<" =>
      some primitive
    | "abs" => some (.ret (send "ifTrue:ifFalse:" (send "<" self [literal (.int32 0)])
        [send "-" (literal (.int32 0)) [self], self]))
    | "==" => some (.ret (send "=" self [parameter 0]))
    | "~=" => some (.ret (send "not" (send "=" self [parameter 0]) []))
    | ">" => some (.ret (andBlock (send ">=" self [parameter 0])
        (send "<>" self [parameter 0])))
    | ">=" => some (.ret (send "not" (send "<" self [parameter 0]) []))
    | "<=" => some (.ret (orBlock (send "<" self [parameter 0])
        (send "=" self [parameter 0])))
    | _ => none
  | doubleClass => fun
    | "+" | "-" | "*" | "//" | "%" | "sqrt" | "=" | "<" => some primitive
    | "abs" => some (.ret (send "ifTrue:ifFalse:" (send "<" self [literal (.double 0)])
        [send "-" (literal (.double 0)) [self], self]))
    | ">" => some (.ret (andBlock (send ">=" self [parameter 0])
        (send "<>" self [parameter 0])))
    | ">=" => some (.ret (send "not" (send "<" self [parameter 0]) []))
    | "<=" => some (.ret (orBlock (send "<" self [parameter 0])
        (send "=" self [parameter 0])))
    | _ => none
  | arrayClass => fun
    | "at:" | "at:put:" | "length" => some primitive
    | _ => none
  | stringClass => fun
    | "+" => some (.ret (send "concatenate:" self [send "asString" (parameter 0) []]))
    | "length" | "=" => some primitive
    | "charAt:" => some (.ret (send "substringFrom:to:" self [parameter 0, parameter 0]))
    | _ => none
  | symbolClass => fun _ => none
  | blockClass => fun
    | "value" => some primitive
    | _ => none
  | block1Class => fun
    | "value" => some primitive
    | _ => none
  | block2Class => fun
    | "value" => some (.expr (send "value:" self [literal .nil]))
    | "value:" => some primitive
    | _ => none
  | block3Class => fun
    | "value" => some (.expr (send "value:with:" self [literal .nil, literal .nil]))
    | "value:" => some (.expr (send "value:with:" self [parameter 0, literal .nil]))
    | "value:with:" => some primitive
    | _ => none

/-! ## The primitives -/

/-- A library function, with its arguments after `self`. -/
abbrev LibFunc := TValue → List TValue → Run TValue

/-- A function of `self` alone. -/
def lib0 (f : TValue → Run TValue) : LibFunc
  | tv, [] => f tv
  | _, _ => throw .undefined

/-- A function of `self` and one argument. -/
def lib1 (f : TValue → TValue → Run TValue) : LibFunc
  | tv, [arg] => f tv arg
  | _, _ => throw .undefined

/-- A function of `self` and two arguments. -/
def lib2 (f : TValue → TValue → TValue → Run TValue) : LibFunc
  | tv, [arg1, arg2] => f tv arg1 arg2
  | _, _ => throw .undefined

variable (env : Surroundings)

open Primitives in
/-- The primitives that `SOMPrimitivesContainer` registers for the selectors of the operators. -/
def registered : SystemClass → String → Option LibFunc
  | integerClass => fun
    | "+" => some (lib1 (integerAdd env.floats))
    | "-" => some (lib1 (integerMinus env.floats))
    | "*" => some (lib1 (integerStar env.floats))
    | "bitXor:" => some (lib1 integerBitwiseXor)
    | "<<" => some (lib1 integerLeftShift)
    | ">>>" => some (lib1 Primitives.integerUnsignedRightShift)
    | "/" => some (lib1 (Primitives.integerSlash env.floats))
    | "//" => some (lib1 (integerSlashSlash env.floats))
    | "%" => some (lib1 (Primitives.integerPercent env.floats))
    | "&" => some (lib1 integerAnd)
    | "=" => some (lib1 (integerEqual env.floats))
    | "==" => some (lib1 integerEqualEqual)
    | "<" => some (lib1 (integerLowerThan env.floats))
    | "sqrt" => some (lib0 (integerSqrt env.floats))
    | "<=" => some (lib1 (integerLowerEqual env.floats))
    | ">" => some (lib1 (integerGreaterThan env.floats))
    | ">=" => some (lib1 (integerGreaterEqual env.floats))
    | "<>" => some (lib1 (integerUnequal env.floats))
    | "~=" => some (lib1 (integerUnequal env.floats))
    | "abs" => some (lib0 integerAbs)
    | _ => none
  | doubleClass => fun
    | "+" => some (lib1 (doubleAdd env.floats))
    | "-" => some (lib1 (doubleSub env.floats))
    | "*" => some (lib1 (doubleStar env.floats))
    | "//" => some (lib1 (doubleSlashSlash env.floats))
    | "%" => some (lib1 (doublePercent env.floats))
    | "=" => some (lib1 (doubleEqual env.floats))
    | "<" => some (lib1 (doubleLowerThan env.floats))
    | "sqrt" => some (lib0 (doubleSqrt env.floats))
    | "<=" => some (lib1 (doubleLowerEqual env.floats))
    | ">" => some (lib1 (doubleGreaterThan env.floats))
    | ">=" => some (lib1 (doubleGreaterEqual env.floats))
    | "<>" => some (lib1 (doubleUnequal env.floats))
    | "~=" => some (lib1 (doubleUnequal env.floats))
    | _ => none
  | objectClass => fun
    | "==" => some (lib1 objectEqualEqual)
    | _ => none
  | block1Class => fun
    | "value" => some (lib0 (block1Eval env))
    | _ => none
  | block2Class => fun
    | "value:" => some (lib1 (block2Eval env))
    | _ => none
  | block3Class => fun
    | "value:with:" => some (lib2 (block3Eval env))
    | _ => none
  | arrayClass => fun
    | "at:" => some (lib1 arrayAt)
    | "at:put:" => some (lib2 arrayAtPut)
    | "length" => some (lib0 arrayLength)
    | _ => none
  | stringClass => fun
    | "length" => some (lib0 stringLength)
    | "=" => some (lib1 Primitives.stringEqual)
    | "charAt:" => some (lib1 stringCharAt)
    | _ => none
  | _ => fun _ => none

/-! ## Lookup -/

/-- A method of a class: a library function, a primitive that nothing is registered for, or the
code of its body. -/
inductive LibraryMethod where
  | primitive (f : LibFunc)
  | unimplementedPrimitive (description : String)
  | body (statements : List LibraryStatement)

/-- The method that a class has after `SOMCompileFile`: a registered primitive, whatever the `.som`
file says, or else the method of the file. -/
def method (c : SystemClass) (selector : String) : Option LibraryMethod :=
  match registered env c selector with
  | some f => some (.primitive f)
  | none =>
    match c.somMethod selector with
    | some .primitive =>
      some (.unimplementedPrimitive (c.className ++ "." ++ selector ++ " (instanceSide)"))
    | some (.body statements) => some (.body statements)
    | none => none

/-- The method that is found for a selector, from a class on. -/
def getMethod (c : SystemClass) (selector : String) : Option LibraryMethod :=
  c.chain.findSome? fun c => c.method env selector

end SystemClass

/-- `GetSOMClassOfAny`; an object of no system class has none. -/
def getSOMClassOfAny (h : Heap) : TValue → Option SystemClass
  | .nil => some .nilClass
  | .bool b => some (if b then .trueClass else .falseClass)
  | .int32 _ => some .integerClass
  | .double _ => some .doubleClass
  | .heapEntity a =>
    match h.entities.get a with
    | .object => none
    | .string isSymbol _ => some (if isSymbol then .symbolClass else .stringClass)
    | .array _ => some .arrayClass
    | .block .noArg _ => some .block1Class
    | .block .oneArg _ => some .block2Class
    | .block .twoArgs _ => some .block3Class

section Dispatch

variable (env : Surroundings)

/-- **Sending a message**: look the selector up and run the method, whose own messages are followed
to the given depth. -/
def dispatch : ℕ → String → TValue → List TValue → Run TValue
  | 0, _, _, _ => throw .running
  | n + 1, selector, receiver, args => do
    match (getSOMClassOfAny (← get) receiver).bind fun c => c.getMethod env selector with
    | some (.primitive f) => f receiver args
    | some (.unimplementedPrimitive description) =>
      throw (.abort ("Unimplemented primitive " ++ description ++ "!\n"))
    | some (.body statements) => runBody (dispatch n) receiver args statements
    | none => env.send selector receiver args

/-- The selector of an operator, as `GetLookupKeyForUnaryOperator` and its like give it. -/
def Operator.selector : Operator → String
  | .plus => "+"
  | .minus => "-"
  | .star => "*"
  | .slashSlash => "//"
  | .percent => "%"
  | .and => "&"
  | .equal => "="
  | .lessThan => "<"
  | .lessEqual => "<="
  | .greaterThan => ">"
  | .greaterEqual => ">="
  | .unequal => "<>"
  | .tildeUnequal => "~="
  | .leftShift => "<<"
  | .rightShift => ">>>"
  | .bitwiseXor => "bitXor:"
  | .slash => "/"
  | .equalEqual => "=="
  | .logicalAnd => "&&"
  | .logicalOr => "||"
  | .keywordAnd => "and:"
  | .keywordOr => "or:"
  | .valueColon => "value:"
  | .atColon => "at:"
  | .charAtColon => "charAt:"
  | .abs => "abs"
  | .sqrt => "sqrt"
  | .isNil => "isNil"
  | .notNil => "notNil"
  | .value => "value"
  | .not => "not"
  | .length => "length"
  | .atPut => "at:put:"
  | .valueWith => "value:with:"

/-- A fast path, and what to do when it fails. -/
def Operator.orElse (fast : Operator.FastPath) (slow : Run TValue) : Run TValue := do
  match ← fast with
  | some tv => return tv
  | none => slow

/-- **An operator bytecode**: the fast path, and when it fails the message. -/
def Operator.execute (n : ℕ) (kind : Operator) (op : TValue) (args : List TValue) : Run TValue :=
  orElse (kind.fastPath env op args) (dispatch env n kind.selector op args)

end Dispatch

end Dsom
