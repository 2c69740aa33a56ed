import Dsom.Syntax.Ast
import Mathlib.Tactic.Common

/-!
# Syntax/Lexer — the lexer

`Lexer` of `som_lexer.cpp`.  A byte of the input is a character below 256.  The lexer holds one
line in `buf` and indexes it with `bufp`; `std::string` can be indexed up to its length, where it
has a zero, and an index beyond that is a fault here.  So are the failed assertions on escape
characters.

The input is the list of the lines that `std::getline` is yet to deliver: a text that ends in a
newline ends in an empty line.  Loops take fuel.
-/

namespace Dsom

/-- What goes wrong in a lexer. -/
inductive LexFault where
  | outOfBounds
  | assertion
  | peekTwice
  | outOfFuel
  deriving DecidableEq

/-! ## Characters -/

/-- `isspace`. -/
def isSpace (c : Char) : Bool := c.toNat = 32 || (9 ≤ c.toNat && c.toNat ≤ 13)

/-- The character around strings. -/
def quote : Char := Char.ofNat 39

/-- The character around comments. -/
def doubleQuote : Char := Char.ofNat 34

/-- The escape character. -/
def backslash : Char := Char.ofNat 92

/-- The end of a line. -/
def newline : Char := Char.ofNat 10

/-- What `buf` has at its length. -/
def nul : Char := Char.ofNat 0

/-- `_ISOP`. -/
def isOpChar (c : Char) : Bool :=
  c = '~' || c = '&' || c = '|' || c = '*' || c = '/' || c = backslash || c = '+' || c =
    '=' || c = '>' ||
    c = '<' || c = ',' || c = '@' || c = '%' || c = '-'

/-- `SEPARATOR`. -/
def separator : List Char := "----".toList

/-- `PRIMITIVE`. -/
def primitive : List Char := "primitive".toList

/-- The characters after the first one of an identifier. -/
def isIdentChar (c : Char) : Bool := c.isAlpha || c.isDigit || c = '_'

/-! ## The state

The state of the lexer can be saved for a peek; the line and the file cannot. -/

/-- `LexerState`. -/
structure LexerState where
  lineNumber : ℕ := 0
  bufp : ℕ := 0
  sym : Symbol := .none
  symc : Char := nul
  text : List Char := []
  startBufp : ℕ := 0

/-- The part of `Lexer` that scanning works on: the input, the line and the state. -/
structure Scanner where
  infile : List (List Char)
  state : LexerState := {}
  buf : List Char := []

/-- `Lexer`. -/
structure Lexer extends Scanner where
  peekDone : Bool := false
  stateAfterPeek : LexerState := {}

namespace Scanner

section Basics

variable (l : Scanner)

/-- `buf[i]`. -/
def charAt (i : ℕ) : Except LexFault Char :=
  if i ≤ l.buf.length then .ok (l.buf.getD i nul) else .error .outOfBounds

/-- `_BC`. -/
def bc : Except LexFault Char := l.charAt l.state.bufp

/-- `EOB`. -/
def eob : Bool := l.buf.length ≤ l.state.bufp

/-- `buf.substr(bufp, n)`; it throws when it starts outside. -/
def substr (n : ℕ) : Except LexFault (List Char) :=
  if l.state.bufp ≤ l.buf.length then .ok
    ((l.buf.drop l.state.bufp).take n) else .error .outOfBounds

/-- `incPtr`. -/
def incPtr (n : ℕ := 1) : Scanner :=
  { l with state := { l.state with bufp := l.state.bufp + n, startBufp := l.state.bufp + n } }

/-- `state.sym = sym; state.symc = symc; state.text = text`. -/
def setToken (sym : Symbol) (symc : Char) (text : List Char) : Scanner :=
  { l with state := { l.state with sym, symc, text } }

/-- `state.sym = sym`. -/
def setSym (sym : Symbol) : Scanner := { l with state := { l.state with sym } }

/-- `state.text += c`. -/
def push (c : Char) : Scanner := { l with state := { l.state with text := l.state.text ++ [c] } }

end Basics

/-- Read lines `while (EOB)`, doing `onLine` after each; whether there was one. -/
def fillLines (onLine : Scanner → Scanner) : List (List Char) → Scanner → Bool × Scanner
  | infile, l =>
      if l.eob then
        match infile with
        | [] => (false, l)
        | line :: infile => fillLines onLine infile (onLine { l with
            infile, buf := line,
            state := { l.state with lineNumber := l.state.lineNumber + 1, bufp := 0 } })
      else (true, l)

/-- `hasMoreInput`. -/
def hasMoreInput (l : Scanner) : Bool × Scanner := fillLines id l.infile l

/-! ## Scanning

One function for each kind of token, as in the source. -/

/-- `SkipWhiteSpace`. -/
def skipWhiteSpace : ℕ → Scanner → Except LexFault Scanner
  | 0, _ => .error .outOfFuel
  | fuel + 1, l => do
      let c ← l.bc
      if isSpace c then
        match l.incPtr.hasMoreInput with
        | (true, l) => skipWhiteSpace fuel l
        | (false, l) => .ok l
      else .ok l

/-- The loop of `skipComment`. -/
def skipCommentLoop : ℕ → Scanner → Except LexFault Scanner
  | 0, _ => .error .outOfFuel
  | fuel + 1, l =>
      match l.incPtr.hasMoreInput with
      | (true, l) => do
          if (← l.bc) ≠ doubleQuote then skipCommentLoop fuel l else .ok l.incPtr
      | (false, l) => .ok l

/-- `SkipComment`: from one double quote to the next. -/
def skipComment (fuel : ℕ) (l : Scanner) : Except LexFault Scanner := do
  if (← l.bc) = doubleQuote then skipCommentLoop fuel l else .ok l

/-- The loop of `lexNumber`. -/
def lexNumberLoop : ℕ → Bool → Scanner → Except LexFault Scanner
  | 0, _, _ => .error .outOfFuel
  | fuel + 1, sawDecimalMark, l => do
      let l := (l.push (← l.bc)).incPtr
      let atMark ← if !sawDecimalMark && (← l.bc) = '.' && l.state.bufp + 1 < l.buf.length then do
          pure (← l.charAt (l.state.bufp + 1)).isDigit
        else pure false
      let l ← if atMark then do
          let l := l.setSym .double
          pure (l.push (← l.bc)).incPtr
        else pure l
      if (← l.bc).isDigit then lexNumberLoop fuel (sawDecimalMark || atMark) l else .ok l

/-- `LexNumber`. -/
def lexNumber (fuel : ℕ) (l : Scanner) : Except LexFault Scanner :=
  lexNumberLoop fuel false (l.setToken .integer nul [])

/-- The characters that `lexEscapeChar` knows. -/
def escape (c : Char) : Option Char :=
  if c = 't' then some (Char.ofNat 9)
  else if c = 'b' then some (Char.ofNat 8)
  else if c = 'n' then some newline
  else if c = 'r' then some (Char.ofNat 13)
  else if c = 'f' then some (Char.ofNat 12)
  else if c = '0' then some nul
  else if c = quote then some quote
  else if c = backslash then some backslash
  else none

/-- `LexEscapeChar`: another character than the known ones fails an assertion. -/
def lexEscapeChar (l : Scanner) : Except LexFault Scanner :=
  if l.eob then .error .assertion
  else do
    match escape (← l.bc) with
    | some c => .ok (l.push c).incPtr
    | none => .error .assertion

/-- `LexStringChar`. -/
def lexStringChar (l : Scanner) : Except LexFault Scanner := do
  if (← l.bc) = backslash then lexEscapeChar l.incPtr else .ok (l.push (← l.bc)).incPtr

/-- The loop of `lexString`; it is left early at the end of the input. -/
def lexStringLoop : ℕ → Scanner → Except LexFault Scanner
  | 0, _ => .error .outOfFuel
  | fuel + 1, l => do
      if (← l.bc) ≠ quote then
        match fillLines (push · newline) l.infile l with
        | (true, l) => do
            let l ← if (← l.bc) ≠ quote then lexStringChar l else .ok l
            lexStringLoop fuel l
        | (false, l) => .ok l
      else .ok l.incPtr

/-- `LexString`. -/
def lexString (fuel : ℕ) (l : Scanner) : Except LexFault Scanner :=
  lexStringLoop fuel (l.setToken .stString nul []).incPtr

/-- Append to the text and go on while the characters are of a kind. -/
def lexWhile (p : Char → Bool) : ℕ → Scanner → Except LexFault Scanner
  | 0, _ => .error .outOfFuel
  | fuel + 1, l => do
      let c ← l.bc
      if p c then lexWhile p fuel (l.push c).incPtr else .ok l

/-- The operators of one character. -/
def opSymbol (c : Char) : Symbol :=
  if c = '~' then .not
  else if c = '&' then .and
  else if c = '|' then .or
  else if c = '*' then .star
  else if c = '/' then .div
  else if c = backslash then .mod
  else if c = '+' then .plus
  else if c = '=' then .equal
  else if c = '>' then .more
  else if c = '<' then .less
  else if c = ',' then .comma
  else if c = '@' then .at
  else if c = '%' then .per
  else .minus

/-- `_MATCH`, when the character is there. -/
def matched (l : Scanner) (c : Char) (sym : Symbol) : Scanner := (l.setToken sym c [c]).incPtr

/-- `lexOperator`, at an operator character. -/
def lexOperator (fuel : ℕ) (l : Scanner) : Except LexFault Scanner := do
  if isOpChar (← l.charAt (l.state.bufp + 1)) then
    lexWhile isOpChar fuel (l.setToken .operatorSequence nul [])
  else
    let c ← l.bc
    .ok (l.matched c (opSymbol c))

/-- `NextWordInBufferIsPrimitive`: the word ends after it. -/
def nextWordInBufferIsPrimitive (l : Scanner) : Except LexFault Bool := do
  if (← l.substr primitive.length) ≠ primitive then pure false
  else if l.buf.length ≤ l.state.bufp + primitive.length then pure true
  else do pure !(← l.charAt (l.state.bufp + primitive.length)).isAlphanum

/-- The branch of `GetSym` for identifiers and keywords. -/
def lexIdentifier (fuel : ℕ) (l : Scanner) : Except LexFault Scanner := do
  let l ← lexWhile isIdentChar fuel (l.setToken l.state.sym nul [])
  let l := l.setSym .identifier
  if (← l.bc) = ':' then do
    let l := ((l.setSym .keyword).incPtr).push ':'
    if (← l.bc).isAlpha then
      lexWhile (fun c => c.isAlpha || c = ':') fuel (l.setSym .keywordSequence)
    else .ok l
  else .ok l

/-- The branches of `GetSym` at the first character of a token. -/
def lexToken (fuel : ℕ) (l : Scanner) : Except LexFault Scanner := do
  let c ← l.bc
  if c = quote then lexString fuel l
  else if c = '[' then .ok (l.matched c .newBlock)
  else if c = ']' then .ok (l.matched c .endBlock)
  else if c = ':' then
    if (← l.charAt (l.state.bufp + 1)) = '=' then .ok ((l.incPtr 2).setToken .assign nul [':', '='])
    else .ok (l.incPtr.setToken .colon ':' [':'])
  else if c = '(' then .ok (l.matched c .newTerm)
  else if c = ')' then .ok (l.matched c .endTerm)
  else if c = '#' then .ok (l.matched c .pound)
  else if c = '^' then .ok (l.matched c .exit)
  else if c = '.' then .ok (l.matched c .period)
  else if c = '-' then
    if (← l.substr separator.length) = separator then do
      let l ← lexWhile (· = '-') fuel (l.setToken l.state.sym l.state.symc [])
      .ok (l.setSym .separator)
    else lexOperator fuel l
  else if isOpChar c then lexOperator fuel l
  else if (← l.nextWordInBufferIsPrimitive) then
    .ok ((l.incPtr primitive.length).setToken .primitive nul primitive)
  else if c.isAlpha then lexIdentifier fuel l
  else if c.isDigit then lexNumber fuel l
  else .ok (l.setToken .none c [c])

/-- The loop that skips white space and comments; `false` at the end of the input. -/
def skipBlanksLoop : ℕ → Scanner → Except LexFault (Bool × Scanner)
  | 0, _ => .error .outOfFuel
  | fuel + 1, l =>
      match l.hasMoreInput with
      | (false, l) => .ok (false, l)
      | (true, l) => do
          let l ← skipWhiteSpace fuel l
          let l ← skipComment fuel l
          if l.eob then skipBlanksLoop fuel l
          else if isSpace (← l.bc) || (← l.bc) = doubleQuote then skipBlanksLoop fuel l
          else .ok (true, l)

/-- `GetSym`, when no symbol was peeked. -/
def scan (fuel : ℕ) (l : Scanner) : Except LexFault Scanner := do
  match ← skipBlanksLoop fuel l with
  | (false, l) => .ok (l.setToken .none nul [])
  | (true, l) => lexToken fuel { l with state := { l.state with startBufp := l.state.bufp } }

end Scanner

namespace Lexer

/-- A text, with the lines it has. -/
def ofText (text : List Char) : Lexer := { infile := text.splitOn newline }

/-- `GetSym`. -/
def getSym (fuel : ℕ) (l : Lexer) : Except LexFault Lexer :=
  if l.peekDone then .ok { l with peekDone := false, state := l.stateAfterPeek }
  else (l.toScanner.scan fuel).map fun s => { l with toScanner := s }

/-- `Peek`: the symbol that `GetSym` will deliver next. -/
def peek (fuel : ℕ) (l : Lexer) : Except LexFault (Symbol × Lexer) :=
  if l.peekDone then .error .peekTwice
  else do
    let l' ← l.getSym fuel
    .ok (l'.state.sym, { l' with stateAfterPeek := l'.state, state := l.state, peekDone := true })

/-- The symbol and text that `GetSym` delivered last. -/
def token (l : Lexer) : Token := ⟨l.state.sym, String.ofList l.state.text⟩

end Lexer

end Dsom
