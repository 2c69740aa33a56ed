import Dsom.Syntax.Lexer
import Mathlib.Algebra.Group.Int.Defs
import Mathlib.Algebra.Group.Nat.Defs
import Mathlib.Data.Int.Notation
import Mathlib.Tactic.Common

/-!
# Syntax/Parser — the recursive-descent parser

`SOMParser` of `som_parser.h` on the tokens the lexer delivers.  The state is the list of tokens
from the current one on; past its end the lexer keeps answering `NONE`.  A failed `Expect` and a
failed release assertion end the parse.  Every function that recurses takes fuel.
-/

namespace Dsom

/-- Why a parse ends early. -/
inductive ParseError where
  | unexpectedSymbol (expected : List Symbol) (found : Token)
  | duplicateArguments
  | duplicateLocals
  | invalidInteger
  | invalidDouble
  | outOfFuel

/-- A parsing function: it reads tokens and may fail. -/
abbrev Parser (α : Type) := StateT (List Token) (Except ParseError) α

/-- What the lexer answers at the end of the input. -/
def endOfInput : Token := ⟨.none, ""⟩

/-- The current token of a state. -/
def current : List Token → Token
  | [] => endOfInput
  | t :: _ => t

/-- The token that is looked at. -/
def curToken : Parser Token := fun s => .ok (current s, s)

/-- Its symbol. -/
def curSym : Parser Symbol := fun s => .ok ((current s).sym, s)

/-- Its text. -/
def curText : Parser String := fun s => .ok ((current s).text, s)

/-- `Eat`. -/
def eat : Parser Unit := fun s => .ok ((), s.tail)

/-- `Peek`: the symbol after the current one. -/
def peek : Parser Symbol := fun s => .ok ((current s.tail).sym, s)

/-- The parser gives up. -/
def parseError (e : ParseError) {α : Type} : Parser α := fun _ => .error e

/-- `Accept`. -/
def accept (sym : Symbol) : Parser Bool := do
  if (← curSym) = sym then
    eat
    return true
  else return false

/-- `IsOneOf`. -/
def isOneOf (ss : List Symbol) : Parser Bool := do return (← curSym) ∈ ss

/-- `AcceptOneOf`. -/
def acceptOneOf (ss : List Symbol) : Parser Bool := do
  if (← isOneOf ss) then
    eat
    return true
  else return false

/-- `ExpectOneOf`. -/
def expectOneOf (ss : List Symbol) : Parser Unit := do
  if (← acceptOneOf ss) then return ()
  else parseError (.unexpectedSymbol ss (← curToken))

/-- `Expect`. -/
def expect (sym : Symbol) : Parser Unit := do
  if (← accept sym) then return ()
  else parseError (.unexpectedSymbol [sym] (← curToken))

/-- `singleOpSyms`: operators of one character. -/
def singleOpSyms : List Symbol :=
  [.not, .and, .or, .star, .div, .mod, .plus, .equal, .more, .less, .comma, .at, .per, .minus]

/-- `binaryOpSyms`: what a binary message begins with. -/
def binaryOpSyms : List Symbol :=
  [.or, .comma, .minus, .equal, .not, .and, .or, .star, .div, .mod, .plus, .equal, .more, .less,
    .comma, .at, .per]

/-- `keywordSelectorSyms`. -/
def keywordSelectorSyms : List Symbol := [.keyword, .keywordSequence]

/-- `primitive` may be used as a name. -/
def identOrPrimitiveSyms : List Symbol := [.identifier, .primitive]

/-! ## Numbers -/

/-- The value of a string of decimal digits. -/
def decimal (ds : List Char) : ℕ := ds.foldl (fun n c => 10 * n + (c.toNat - '0'.toNat)) 0

/-- `strtoll` in base ten: the value, whether it was out of range, and what `pEnd` points to. -/
def strtoll (s : List Char) : ℤ × Bool × List Char :=
  let t := s.dropWhile isSpace
  let neg := t.head? = some '-'
  let t' := if neg || t.head? = some '+' then t.tail else t
  let ds := t'.takeWhile Char.isDigit
  if ds = [] then (0, false, s)
  else
    let i : ℤ := if neg then -(decimal ds : ℤ) else decimal ds
    let rest := t'.dropWhile Char.isDigit
    if i < -2 ^ 63 then (-2 ^ 63, true, rest)
    else if 2 ^ 63 ≤ i then (2 ^ 63 - 1, true, rest)
    else (i, false, rest)

/-- `ParseInteger(str, base, shouldNegate)`: a literal out of range counts as zero, and what does
not fit 32 bits is truncated. -/
def readInteger (str : String) (shouldNegate : Bool) : Parser (BitVec 32) :=
  let r := strtoll str.toList
  if r.2.2 = [] then
    let i := if r.2.1 then 0 else r.1
    return BitVec.ofInt 32 (if shouldNegate then -i else i)
  else parseError .invalidInteger

/-- `0 - d` on the bit pattern of a double that is not a NaN. -/
def zeroMinus (d : BitVec 64) : BitVec 64 :=
  if d.toNat % 2 ^ 63 = 0 then 0 else d ^^^ BitVec.ofNat 64 (2 ^ 63)

section

-- `strtod`: the double a whole text denotes, if all of it is read.
variable (strtod : String → Option (BitVec 64))

/-- `ParseInteger`. -/
def parseInteger (shouldNegate : Bool) : Parser AstLiteral := do
  let value ← readInteger (← curText) shouldNegate
  expect .integer
  return .integer value

/-- `ParseDouble`; the library converts the text. -/
def parseDouble (shouldNegate : Bool) : Parser AstLiteral := do
  match strtod (← curText) with
  | some d =>
    expect .double
    return .double (if shouldNegate then zeroMinus d else d)
  | none => parseError .invalidDouble

/-- A number behind its sign. -/
def parseUnsigned (shouldNegate : Bool) : Parser AstLiteral := do
  if (← curSym) = .integer then parseInteger shouldNegate else parseDouble strtod shouldNegate

/-- `ParseNumber`: at most one minus sign. -/
def parseNumber : Parser AstLiteral := do
  if (← curSym) = .minus then
    eat
    parseUnsigned strtod true
  else parseUnsigned strtod false

/-! ## Selectors and literals -/

/-- `ParseString`. -/
def parseString : Parser AstLiteral := do
  let text ← curText
  expect .stString
  return .string text

/-- `ParseUnarySelector`. -/
def parseUnarySelector : Parser String := do
  let text ← curText
  expectOneOf identOrPrimitiveSyms
  return text

/-- `ParseBinarySelector`. -/
def parseBinarySelector : Parser String := do
  let text ← curText
  if (← acceptOneOf singleOpSyms) then return text
  else if (← accept .operatorSequence) then return text
  else
    expect .none
    return text

/-- `ParseKeywordSelector`. -/
def parseKeywordSelector : Parser String := do
  let text ← curText
  expectOneOf keywordSelectorSyms
  return text

/-- `ParseSelector`, by the token it begins with. -/
def parseSelector : Parser String := do
  if (← curSym) = .operatorSequence then parseBinarySelector
  else if (← isOneOf singleOpSyms) then parseBinarySelector
  else if (← isOneOf keywordSelectorSyms) then parseKeywordSelector
  else parseUnarySelector

/-- `ParseSymbol`: a string or a selector behind the pound sign. -/
def parseSymbol : Parser AstLiteral := do
  expect .pound
  if (← curSym) = .stString then
    let text ← curText
    expect .stString
    return .symbol text
  else return .symbol (← parseSelector)

mutual

/-- `ParseLiteral`. -/
def parseLiteral : ℕ → Parser AstLiteral
  | 0 => parseError .outOfFuel
  | fuel + 1 => do
    if (← curSym) = .pound then
      if (← peek) = .newTerm then parseArray fuel else parseSymbol
    else if (← curSym) = .stString then parseString
    else parseNumber strtod

/-- `ParseArray`. -/
def parseArray : ℕ → Parser AstLiteral
  | 0 => parseError .outOfFuel
  | fuel + 1 => do
    expect .pound
    expect .newTerm
    let elements ← parseElements fuel
    expect .endTerm
    return .array elements

/-- The loop of `ParseArray`. -/
def parseElements : ℕ → Parser (List AstLiteral)
  | 0 => parseError .outOfFuel
  | fuel + 1 => do
    if (← curSym) = .endTerm then return []
    else
      let element ← parseLiteral fuel
      return element :: (← parseElements fuel)

end

/-! ## Parameters and locals -/

/-- `ParseVariable`. -/
def parseVariable : Parser String := do
  let text ← curText
  expectOneOf identOrPrimitiveSyms
  return text

/-- `ParseParameters`, after the names in `args`. -/
def parseParameters : ℕ → List String → Parser (List String)
  | 0, _ => parseError .outOfFuel
  | fuel + 1, args => do
    expect .colon
    let argName ← parseVariable
    if argName ∈ args then parseError .duplicateArguments
    else if (← curSym) = .colon then
      return argName :: (← parseParameters fuel (argName :: args))
    else return [argName]

/-- The loop of `ParseLocals`, after the names in `args`. -/
def parseLocalNames : ℕ → List String → Parser (List String)
  | 0, _ => parseError .outOfFuel
  | fuel + 1, args => do
    if (← isOneOf identOrPrimitiveSyms) then
      let argName ← parseVariable
      if argName ∈ args then parseError .duplicateLocals
      else return argName :: (← parseLocalNames fuel (argName :: args))
    else return []

/-- `ParseLocals`: names between two bars, or nothing. -/
def parseLocals (fuel : ℕ) : Parser (List String) := do
  if (← accept .or) then
    let locals ← parseLocalNames fuel []
    expect .or
    return locals
  else return []

/-! ## Expressions -/

/-- `ParseAssignments`. -/
def parseAssignments : ℕ → Parser (List String)
  | 0 => parseError .outOfFuel
  | fuel + 1 => do
    if (← isOneOf identOrPrimitiveSyms) then
      let name ← parseVariable
      expect .assign
      if (← peek) = .assign then return name :: (← parseAssignments fuel)
      else return [name]
    else return []

/-- The loop that sends unary messages. -/
def parseUnaryMessages : ℕ → AstExpr → Parser AstExpr
  | 0, _ => parseError .outOfFuel
  | fuel + 1, primary => do
    if (← isOneOf identOrPrimitiveSyms) then
      let selector ← parseUnarySelector
      parseUnaryMessages fuel (.unaryCall selector primary)
    else return primary

/-- Whether a binary message follows. -/
def atBinarySelector : Parser Bool := do
  if (← curSym) = .operatorSequence then return true else isOneOf binaryOpSyms

/-- `ParseKeyword`. -/
def parseKeyword : Parser String := do
  let text ← curText
  expect .keyword
  return text

mutual

/-- `ParseExpr`: an assignment if the token after this one is `:=`. -/
def parseExpr : ℕ → Parser AstExpr
  | 0 => parseError .outOfFuel
  | fuel + 1 => do
    if (← peek) = .assign then parseAssignation fuel else parseEvaluation fuel

/-- `ParseAssignation`: the variables first, then the value. -/
def parseAssignation : ℕ → Parser AstExpr
  | 0 => parseError .outOfFuel
  | fuel + 1 => do
    let lhs ← parseAssignments fuel
    return .assignation lhs (← parseEvaluation fuel)

/-- `ParseEvaluation`: unary messages bind stronger than binary ones, and these stronger than a
keyword message. -/
def parseEvaluation : ℕ → Parser AstExpr
  | 0 => parseError .outOfFuel
  | fuel + 1 => do
    let primary ← parsePrimary fuel
    let primary ← parseUnaryMessages fuel primary
    let primary ← parseBinaryMessages fuel primary
    if (← curSym) = .keyword then parseKeywordMessage fuel primary else return primary

/-- `ParsePrimary`. -/
def parsePrimary : ℕ → Parser AstExpr
  | 0 => parseError .outOfFuel
  | fuel + 1 => do
    if (← isOneOf identOrPrimitiveSyms) then return .varUse (← parseVariable)
    else if (← curSym) = .newTerm then parseNestedTerm fuel
    else if (← curSym) = .newBlock then parseNestedBlock fuel
    else return .literal (← parseLiteral strtod fuel)

/-- `ParseNestedTerm`: an expression in parentheses. -/
def parseNestedTerm : ℕ → Parser AstExpr
  | 0 => parseError .outOfFuel
  | fuel + 1 => do
    expect .newTerm
    let res ← parseExpr fuel
    expect .endTerm
    return res

/-- `ParseNestedBlock`: parameters, locals and the body of a block. -/
def parseNestedBlock : ℕ → Parser AstExpr
  | 0 => parseError .outOfFuel
  | fuel + 1 => do
    expect .newBlock
    let params ← if (← curSym) = .colon then do
        let params ← parseParameters fuel []
        expect .or
        pure params
      else pure []
    let locals ← parseLocals fuel
    let body ← parseBlockExprs fuel
    expect .endBlock
    return .nestedBlock params locals body

/-- The statements of a body, up to the end of the block or a return. -/
def parseBlockExprs : ℕ → Parser (List AstExpr)
  | 0 => parseError .outOfFuel
  | fuel + 1 => do
    if (← curSym) = .endTerm then return []
    else if (← curSym) = .endBlock then return []
    else if (← accept .exit) then
      let retVal ← parseExpr fuel
      let _ ← accept .period
      return [.ret retVal]
    else
      let e ← parseExpr fuel
      if (← accept .period) then return e :: (← parseBlockExprs fuel) else return [e]

/-- The operand of a binary message, with its unary messages. -/
def parseBinaryOperand : ℕ → Parser AstExpr
  | 0 => parseError .outOfFuel
  | fuel + 1 => do
    let op ← parsePrimary fuel
    parseUnaryMessages fuel op

/-- The loop that sends binary messages. -/
def parseBinaryMessages : ℕ → AstExpr → Parser AstExpr
  | 0, _ => parseError .outOfFuel
  | fuel + 1, primary => do
    if (← atBinarySelector) then
      let selector ← parseBinarySelector
      let op ← parseBinaryOperand fuel
      parseBinaryMessages fuel (.binaryCall selector primary op)
    else return primary

/-- An operand of a keyword message, with its binary messages. -/
def parseKeywordMessageOperand : ℕ → Parser AstExpr
  | 0 => parseError .outOfFuel
  | fuel + 1 => do
    let op ← parseBinaryOperand fuel
    parseBinaryMessages fuel op

/-- `ParseKeywordMessage`: all keywords are one message. -/
def parseKeywordMessage : ℕ → AstExpr → Parser AstExpr
  | 0, _ => parseError .outOfFuel
  | fuel + 1, primary => do
    let (kw, arguments) ← parseKeywordParts fuel
    return .keywordCall kw primary arguments

/-- The keyword parts and arguments of a message: one part, then more while there are keywords. -/
def parseKeywordParts : ℕ → Parser (String × List AstExpr)
  | 0 => parseError .outOfFuel
  | fuel + 1 => do
    let kw ← parseKeyword
    let argument ← parseKeywordMessageOperand fuel
    if (← curSym) = .keyword then
      let (kws, arguments) ← parseKeywordParts fuel
      return (kw ++ kws, argument :: arguments)
    else return (kw, [argument])

end

end

end Dsom
