import Dsom.Syntax.Parser

/-!
# Syntax/ParseClass — methods and classes

The part of `SOMParser` that reads a whole file.  The superclass is loaded in the middle of the
header, by its name; a tree carries that name, and what loading does is in `Runtime/ClassLoading`.
-/

namespace Dsom

/-- `AstMethodKind`. -/
inductive AstMethodKind where
  | unary
  | binary
  | keyword
  deriving DecidableEq

/-- `AstMethod` in whole; `body` is empty in a primitive. -/
structure ParsedMethod extends AstMethod where
  kind : AstMethodKind
  selectorName : String
  isPrimitive : Bool

/-- `AstClass`. -/
structure AstClass where
  name : String
  superClass : Option String
  instanceFields : List String
  instanceMethods : List ParsedMethod
  classFields : List String
  classMethods : List ParsedMethod

section

variable (strtod : String → Option (BitVec 64))

/-! ## Methods -/

/-- The loop of `ParseKeywordMethodPattern`: the selector and the parameters. -/
def parseKeywordPatternParts : ℕ → Parser (String × List String)
  | 0 => parseError .outOfFuel
  | fuel + 1 => do
    let kw ← parseKeyword
    let param ← parseVariable
    if (← curSym) = .keyword then
      let (kws, params) ← parseKeywordPatternParts fuel
      return (kw ++ kws, param :: params)
    else return (kw, [param])

/-- `ParseUnaryMethodPattern`: a selector and no parameter. -/
def parseUnaryMethodPattern : Parser (AstMethodKind × String × List String) := do
  let selector ← parseUnarySelector
  return (.unary, selector, [])

/-- `ParseBinaryMethodPattern`: one parameter. -/
def parseBinaryMethodPattern : Parser (AstMethodKind × String × List String) := do
  let selector ← parseBinarySelector
  let param ← parseVariable
  return (.binary, selector, [param])

/-- `ParseKeywordMethodPattern`: a parameter for each keyword. -/
def parseKeywordMethodPattern (fuel : ℕ) : Parser (AstMethodKind × String × List String) := do
  let (selector, params) ← parseKeywordPatternParts fuel
  return (.keyword, selector, params)

/-- `ParseMethodPattern`, by the current symbol. -/
def parseMethodPattern (fuel : ℕ) : Parser (AstMethodKind × String × List String) := do
  if (← isOneOf identOrPrimitiveSyms) then parseUnaryMethodPattern
  else if (← curSym) = .keyword then parseKeywordMethodPattern fuel
  else parseBinaryMethodPattern

/-- The locals and the body of a method that is not a primitive. -/
def parseMethodBody (fuel : ℕ) : Parser (List String × List AstExpr) := do
  expect .newTerm
  let locals ← parseLocals fuel
  let body ← parseBlockExprs strtod fuel
  expect .endTerm
  return (locals, body)

/-- `ParseMethod`: the pattern, then `primitive` or the body. -/
def parseMethod (fuel : ℕ) : Parser ParsedMethod := do
  let (kind, selectorName, params) ← parseMethodPattern fuel
  expect .equal
  if (← accept .primitive) then
    return { kind, selectorName, params, isPrimitive := true, locals := [], body := [] }
  else
    let (locals, body) ← parseMethodBody strtod fuel
    return { kind, selectorName, params, isPrimitive := false, locals, body }

/-- Whether a method starts here. -/
def atMethodPattern : Parser Bool := do
  if (← isOneOf identOrPrimitiveSyms) then return true
  else if (← curSym) = .keyword then return true
  else atBinarySelector

/-- The loop of `ParseClass` over the methods of one side. -/
def parseMethods : ℕ → Parser (List ParsedMethod)
  | 0 => parseError .outOfFuel
  | fuel + 1 => do
    if (← atMethodPattern) then
      let method ← parseMethod strtod fuel
      return method :: (← parseMethods fuel)
    else return []

/-! ## Classes -/

/-- The start of `ParseClass`. -/
def parseClassName : Parser String := do
  let name ← curText
  expect .identifier
  expect .equal
  return name

/-- The superclass that `ParseClass` loads; the name is not consumed before that. -/
def superClassName : Parser (Option String) := do
  if (← curSym) = .identifier then
    let text ← curText
    return if text ≠ "nil" then some text else none
  else return some "Object"

/-- The header of a class, up to the point where the superclass is loaded. -/
def parseClassHeader : Parser (String × Option String) := do
  let name ← parseClassName
  let superClass ← superClassName
  return (name, superClass)

/-- The fields and methods of one side of a class. -/
def parseSide (fuel : ℕ) : Parser (List String × List ParsedMethod) := do
  let fields ← parseLocals fuel
  let methods ← parseMethods strtod fuel
  return (fields, methods)

/-- The end of `ParseClass`: the instance side, and the class side after a separator. -/
def parseClassSides (fuel : ℕ) (name : String) (superClass : Option String) : Parser AstClass := do
  expect .newTerm
  let (instanceFields, instanceMethods) ← parseSide strtod fuel
  let (classFields, classMethods) ← if (← accept .separator) then parseSide strtod fuel
    else pure ([], [])
  expect .endTerm
  return { name, superClass, instanceFields, instanceMethods, classFields, classMethods }

/-- The rest of `ParseClass`, once the superclass is loaded. -/
def parseClassBody (fuel : ℕ) (name : String) (superClass : Option String) : Parser AstClass := do
  if (← curSym) = .identifier then expect .identifier
  parseClassSides strtod fuel name superClass

/-- `ParseClass`. -/
def parseClass (fuel : ℕ) : Parser AstClass := do
  let (name, superClass) ← parseClassHeader
  parseClassBody strtod fuel name superClass

end

end Dsom
