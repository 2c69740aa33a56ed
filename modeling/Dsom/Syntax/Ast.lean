import Mathlib.Data.Nat.Notation

/-!
# Syntax/Ast — tokens and syntax trees

The tokens of `som_lexer.h` and the trees of `som_ast.h`.  A selector or string is an interned
ordinal in the source; the interner maps equal texts to equal ordinals and back, so a tree carries
the text.  A double is its bit pattern.
-/

namespace Dsom

/-- `enum Symbol`. -/
inductive Symbol where
  | none | integer | double | not | and | or | star | div | mod | plus | minus | equal | more | less
  | comma | at | per | newBlock | endBlock | colon | period | exit | assign | newTerm | endTerm
  | pound | primitive | separator | stString | identifier | keyword | keywordSequence
  | operatorSequence
  deriving DecidableEq, Repr

/-- What the lexer hands over: a symbol and its text. -/
structure Token where
  sym : Symbol
  text : String
  deriving DecidableEq, Repr

/-- `AstLiteral` and its subclasses. -/
inductive AstLiteral where
  | array (elements : List AstLiteral)
  | string (text : String)
  | symbol (text : String)
  | integer (value : BitVec 32)
  | double (value : BitVec 64)

/-- `AstExpr` and its subclasses. -/
inductive AstExpr where
  | literal (l : AstLiteral)
  | varUse (name : String)
  | nestedBlock (params locals : List String) (body : List AstExpr)
  | assignation (lhs : List String) (rhs : AstExpr)
  | ret (retVal : AstExpr)
  | unaryCall (selector : String) (receiver : AstExpr)
  | binaryCall (selector : String) (receiver argument : AstExpr)
  | keywordCall (selector : String) (receiver : AstExpr) (arguments : List AstExpr)

/-- `AstMethod`, as far as the compiler reads it. -/
structure AstMethod where
  params : List String
  locals : List String
  body : List AstExpr

end Dsom
