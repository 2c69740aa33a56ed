import Dsom.Syntax.Parser
import Mathlib.Algebra.BigOperators.Group.List.Basic
import Mathlib.Data.List.TakeWhile
import Mathlib.Tactic.IntervalCases

/-!
# Syntax/RoundTrip — parsing inverts rendering

`Renders p e ts` spells a tree with parentheses exactly where its precedence exceeds what the place
admits.  `parseExpr_renders` runs the parser over such a spelling, whatever follows it: each level
of the grammar has one statement about the parsing function of that level, and the loops that send
unary and binary messages are followed through the left spine of the tree.
-/

namespace Dsom

/-! ## Spelling

Which lists of tokens stand for a tree; parentheses may be put anywhere. -/

/-- The token of a name: the lexer sets `primitive` apart. -/
def identToken (name : String) : Token :=
  ⟨if name = "primitive" then .primitive else .identifier, name⟩

/-- The symbol of an operator: a single character has its own. -/
def operatorSym : String → Symbol
  | "~" => .not
  | "&" => .and
  | "|" => .or
  | "*" => .star
  | "/" => .div
  | "\\" => .mod
  | "+" => .plus
  | "=" => .equal
  | ">" => .more
  | "<" => .less
  | "," => .comma
  | "@" => .at
  | "%" => .per
  | "-" => .minus
  | _ => .operatorSequence

/-- The token of an operator. -/
def operatorToken (selector : String) : Token := ⟨operatorSym selector, selector⟩

/-- A decimal numeral. -/
def IsNumeral (t : String) : Prop := t.toList ≠ [] ∧ ∀ c ∈ t.toList, c.isDigit

/-- The symbols a selector after `#` may have. -/
def selectorSyms : List Symbol :=
  .operatorSequence :: singleOpSyms ++ keywordSelectorSyms ++ identOrPrimitiveSyms

/-- How tightly a tree binds: primaries, unary, binary and keyword sends, assignments. -/
def AstExpr.prec : AstExpr → ℕ
  | .literal _ | .varUse _ | .nestedBlock .. => 0
  | .unaryCall .. => 1
  | .binaryCall .. => 2
  | .keywordCall .. => 3
  | .assignation .. => 4
  | .ret _ => 5

/-- `:p₁ … :pₙ |`, or nothing. -/
def paramTokens (params : List String) : List Token :=
  if params = [] then []
  else params.flatMap (fun p => [⟨.colon, ":"⟩, identToken p]) ++ [⟨.or, "|"⟩]

/-- `| l₁ … lₙ |`, or nothing. -/
def localTokens (locals : List String) : List Token :=
  if locals = [] then [] else ⟨.or, "|"⟩ :: locals.map identToken ++ [⟨.or, "|"⟩]

/-- `x₁ := … xₙ :=` -/
def lhsTokens (lhs : List String) : List Token :=
  lhs.flatMap fun x => [identToken x, ⟨.assign, ":="⟩]

section

variable (strtod : String → Option (BitVec 64))

mutual

/-- The spellings of a literal. -/
inductive RendersLiteral : AstLiteral → List Token → Prop
  | string (t : String) : RendersLiteral (.string t) [⟨.stString, t⟩]
  | quoted (t : String) : RendersLiteral (.symbol t) [⟨.pound, "#"⟩, ⟨.stString, t⟩]
  | selector {sym : Symbol} (t : String) (h : sym ∈ selectorSyms) :
      RendersLiteral (.symbol t) [⟨.pound, "#"⟩, ⟨sym, t⟩]
  | integer {t : String} (h : IsNumeral t) (hn : decimal t.toList < 2 ^ 31) :
      RendersLiteral (.integer (BitVec.ofNat 32 (decimal t.toList))) [⟨.integer, t⟩]
  | negInteger {t : String} (h : IsNumeral t) (hn : decimal t.toList ≤ 2 ^ 31) :
      RendersLiteral (.integer (BitVec.ofInt 32 (-(decimal t.toList : ℤ))))
        [⟨.minus, "-"⟩, ⟨.integer, t⟩]
  | double {t : String} {d : BitVec 64} (h : strtod t = some d) :
      RendersLiteral (.double d) [⟨.double, t⟩]
  | negDouble {t : String} {d : BitVec 64} (h : strtod t = some d) :
      RendersLiteral (.double (zeroMinus d)) [⟨.minus, "-"⟩, ⟨.double, t⟩]
  | array {ls : List AstLiteral} {ts : List Token} (h : RendersLiterals ls ts) :
      RendersLiteral (.array ls) (⟨.pound, "#"⟩ :: ⟨.newTerm, "("⟩ :: ts ++ [⟨.endTerm, ")"⟩])

/-- The literals of an array, one after the other. -/
inductive RendersLiterals : List AstLiteral → List Token → Prop
  | nil : RendersLiterals [] []
  | cons {l : AstLiteral} {ls : List AstLiteral} {ts ts' : List Token} (h : RendersLiteral l ts)
      (h' : RendersLiterals ls ts') : RendersLiterals (l :: ls) (ts ++ ts')

end

mutual

/-- The spellings of a tree at a place that admits precedence `p`: bare if it binds at least as
tightly, and in parentheses if it does not. -/
inductive Renders : ℕ → AstExpr → List Token → Prop
  | bare {p : ℕ} {e : AstExpr} {ts : List Token} (hp : e.prec ≤ p) (h : Bare e ts) : Renders p e ts
  | paren {p : ℕ} {e : AstExpr} {ts : List Token} (hp : p < e.prec) (h : Bare e ts) :
      Renders p e (⟨.newTerm, "("⟩ :: ts ++ [⟨.endTerm, ")"⟩])

/-- The spellings of a tree without parentheses around it. -/
inductive Bare : AstExpr → List Token → Prop
  | literal {l : AstLiteral} {ts : List Token} (h : RendersLiteral strtod l ts) :
      Bare (.literal l) ts
  | varUse (name : String) : Bare (.varUse name) [identToken name]
  | nestedBlock {params locals : List String} {body : List AstExpr} {ts : List Token}
      (hp : params.Nodup) (hl : locals.Nodup) (h : RendersBody body ts) :
      Bare (.nestedBlock params locals body)
        (⟨.newBlock, "["⟩ ::
          (paramTokens params ++ (localTokens locals ++ (ts ++ [⟨.endBlock, "]"⟩]))))
  | unaryCall {receiver : AstExpr} {ts : List Token} (selector : String)
      (h : Renders 1 receiver ts) :
      Bare (.unaryCall selector receiver) (ts ++ [identToken selector])
  | binaryCall {receiver argument : AstExpr} {ts ts' : List Token} (selector : String)
      (h : Renders 2 receiver ts) (h' : Renders 1 argument ts') :
      Bare (.binaryCall selector receiver argument) (ts ++ operatorToken selector :: ts')
  | keywordCall {receiver : AstExpr} {arguments : List AstExpr} {selector : String}
      {ts ts' : List Token} (h : Renders 2 receiver ts)
      (h' : RendersParts selector arguments ts') :
      Bare (.keywordCall selector receiver arguments) (ts ++ ts')
  | assignation {lhs : List String} {rhs : AstExpr} {ts : List Token} (hl : lhs ≠ [])
      (h : Renders 3 rhs ts) : Bare (.assignation lhs rhs) (lhsTokens lhs ++ ts)

/-- `k₁ a₁ … kₙ aₙ`, the selector being `k₁…kₙ`. -/
inductive RendersParts : String → List AstExpr → List Token → Prop
  | last {e : AstExpr} {ts : List Token} (kw : String) (h : Renders 2 e ts) :
      RendersParts kw [e] (⟨.keyword, kw⟩ :: ts)
  | cons {e : AstExpr} {es : List AstExpr} {kws : String} {ts ts' : List Token} (kw : String)
      (h : Renders 2 e ts) (h' : RendersParts kws es ts') :
      RendersParts (kw ++ kws) (e :: es) (⟨.keyword, kw⟩ :: (ts ++ ts'))

/-- Statements separated by periods, the last possibly a return. -/
inductive RendersBody : List AstExpr → List Token → Prop
  | nil : RendersBody [] []
  | ret {e : AstExpr} {ts : List Token} (h : Renders 4 e ts) :
      RendersBody [.ret e] (⟨.exit, "^"⟩ :: ts)
  | last {e : AstExpr} {ts : List Token} (h : Renders 4 e ts) : RendersBody [e] ts
  | cons {e : AstExpr} {es : List AstExpr} {ts ts' : List Token} (h : Renders 4 e ts)
      (h' : RendersBody es ts') : RendersBody (e :: es) (ts ++ ⟨.period, "."⟩ :: ts')

end

end

/-! ## Stopping

A loop of the parser stops before a token that does not go on with it. -/

/-- The current symbol is none of `l`. -/
def Stops (l : List Symbol) (s : List Token) : Prop := (current s).sym ∉ l

/-- The symbols that continue a unary send, a binary send, a keyword send and an expression. -/
def unaryCont : List Symbol := identOrPrimitiveSyms

/-- What goes on after a unary message. -/
def binaryCont : List Symbol := .operatorSequence :: binaryOpSyms ++ unaryCont

/-- What goes on after a binary message. -/
def keywordCont : List Symbol := .keyword :: binaryCont

/-- What goes on after an evaluation. -/
def exprCont : List Symbol := .assign :: keywordCont

/-- Fewer symbols to stop before. -/
theorem Stops.mono {l l' : List Symbol} {s : List Token} (h : Stops l s) (hl : l' ⊆ l) :
    Stops l' s := fun hm => h (hl hm)

@[simp] theorem stops_cons {l : List Symbol} {t : Token} {s : List Token} :
    Stops l (t :: s) ↔ t.sym ∉ l := Iff.rfl

/-! ## Running the token functions -/

section Run

variable {α β : Type} (s : List Token)

@[simp] theorem run_bind (p : Parser α) (f : α → Parser β) :
    (p >>= f) s = match p s with
      | .ok r => f r.1 r.2
      | .error e => .error e := by
  change (p s >>= fun r => f r.1 r.2) = _
  cases p s <;> rfl

@[simp] theorem run_map (g : α → β) (p : Parser α) :
    (g <$> p) s = match p s with
      | .ok r => .ok (g r.1, r.2)
      | .error e => .error e := by
  change (p s >>= fun r => pure (g r.1, r.2)) = _
  cases p s <;> rfl

@[simp] theorem run_pure (a : α) : (pure a : Parser α) s = .ok (a, s) := rfl

@[simp] theorem run_ite (c : Prop) [Decidable c] (p q : Parser α) :
    (if c then p else q) s = if c then p s else q s := by
  split_ifs <;> rfl

@[simp] theorem current_cons (t : Token) : current (t :: s) = t := rfl

@[simp] theorem run_curSym : curSym s = .ok ((current s).sym, s) := rfl

@[simp] theorem run_curText : curText s = .ok ((current s).text, s) := rfl

@[simp] theorem run_eat : eat s = .ok ((), s.tail) := rfl

@[simp] theorem run_peek : peek s = .ok ((current s.tail).sym, s) := rfl

@[simp] theorem run_isOneOf (ss : List Symbol) :
    isOneOf ss s = .ok (decide ((current s).sym ∈ ss), s) := rfl

@[simp] theorem run_accept (sym : Symbol) : accept sym s =
    if (current s).sym = sym then .ok (true, s.tail) else .ok (false, s) := by
  simp only [accept, run_bind, run_curSym, run_ite, run_eat, run_pure]

@[simp] theorem run_acceptOneOf (ss : List Symbol) : acceptOneOf ss s =
    if (current s).sym ∈ ss then .ok (true, s.tail) else .ok (false, s) := by
  simp [acceptOneOf]

@[simp] theorem run_atBinarySelector : atBinarySelector s =
    .ok (decide ((current s).sym ∈ .operatorSequence :: binaryOpSyms), s) := by
  by_cases h : (current s).sym = .operatorSequence <;> simp [atBinarySelector, h, binaryOpSyms]

variable {s} {t : Token}

theorem expect_cons {sym : Symbol} (h : t.sym = sym) : expect sym (t :: s) = .ok ((), s) := by
  simp [expect, h]

theorem expectOneOf_cons {ss : List Symbol} (h : t.sym ∈ ss) :
    expectOneOf ss (t :: s) = .ok ((), s) := by
  simp [expectOneOf, h]

theorem identToken_mem (name : String) : (identToken name).sym ∈ identOrPrimitiveSyms := by
  simp only [identToken]
  split_ifs <;> decide

@[simp] theorem identToken_text (name : String) : (identToken name).text = name := rfl

@[simp] theorem parseVariable_ident (name : String) :
    parseVariable (identToken name :: s) = .ok (name, s) := by
  simp [parseVariable, expectOneOf_cons (identToken_mem name)]

@[simp] theorem parseUnarySelector_ident (name : String) :
    parseUnarySelector (identToken name :: s) = .ok (name, s) := by
  simp [parseUnarySelector, expectOneOf_cons (identToken_mem name)]

theorem operatorToken_mem (selector : String) :
    (operatorToken selector).sym ∈ .operatorSequence :: binaryOpSyms := by
  simp only [operatorToken]
  unfold operatorSym
  split <;> decide

theorem mem_singleOpSyms_iff (sym : Symbol) : sym ∈ singleOpSyms ↔ sym ∈ binaryOpSyms := by
  cases sym <;> decide

theorem parseBinarySelector_cons (h : t.sym ∈ .operatorSequence :: binaryOpSyms) :
    parseBinarySelector (t :: s) = .ok (t.text, s) := by
  rcases List.mem_cons.mp h with h | h
  · simp [parseBinarySelector, h, show Symbol.operatorSequence ∉ singleOpSyms by decide]
  · simp [parseBinarySelector, (mem_singleOpSyms_iff _).mpr h]

end Run

/-! ## Literals -/

theorem strtoll_numeral {t : String} (h : IsNumeral t) (hn : decimal t.toList < 2 ^ 63) :
    strtoll t.toList = ((decimal t.toList : ℤ), false, []) := by
  obtain ⟨hne, hd⟩ := h
  generalize t.toList = cs at *
  cases cs with
  | nil => exact absurd rfl hne
  | cons c cs =>
    have hc : c.isDigit := hd c (by simp)
    have hspace : isSpace c = false := by
      have hlo : 48 ≤ c.toNat := by
        simp only [Char.isDigit, Bool.and_eq_true, decide_eq_true_eq] at hc
        exact UInt32.le_iff_toNat_le.mp hc.1
      simp only [isSpace, Bool.or_eq_false_iff, Bool.and_eq_false_iff, decide_eq_false_iff_not]
      omega
    have hsign : ∀ x, x.isDigit = false → c ≠ x := by
      rintro x hx rfl
      rw [hc] at hx
      cases hx
    have htake : (c :: cs).takeWhile Char.isDigit = c :: cs := List.takeWhile_eq_self_iff.mpr hd
    have hdrop : (c :: cs).dropWhile Char.isDigit = [] := List.dropWhile_eq_nil_iff.mpr hd
    have hspaces : (c :: cs).dropWhile isSpace = c :: cs := by simp [hspace]
    have hminus : c ≠ '-' := hsign _ (by decide)
    have hplus : c ≠ '+' := hsign _ (by decide)
    simp only [strtoll, hspaces, List.head?_cons, Option.some.injEq, hminus, hplus, decide_false,
      Bool.or_self, Bool.false_eq_true, if_false, htake, hdrop, reduceCtorEq]
    rw [if_neg (by omega), if_neg (by omega)]

/-- A numeral is read back. -/
theorem readInteger_numeral {t : String} (h : IsNumeral t) (hn : decimal t.toList < 2 ^ 63)
    (shouldNegate : Bool) (s : List Token) :
    readInteger t shouldNegate s = .ok (BitVec.ofInt 32
      (if shouldNegate then -(decimal t.toList : ℤ) else decimal t.toList), s) := by
  simp [readInteger, strtoll_numeral h hn]

section

variable {strtod : String → Option (BitVec 64)}

theorem parseSelector_cons {t : Token} (h : t.sym ∈ selectorSyms) (s : List Token) :
    parseSelector (t :: s) = .ok (t.text, s) := by
  by_cases hop : t.sym ∈ .operatorSequence :: binaryOpSyms
  · have hrun := parseBinarySelector_cons (s := s) hop
    rcases List.mem_cons.mp hop with hop | hop
    · simp [parseSelector, hop, hrun]
    · simp [parseSelector, (mem_singleOpSyms_iff _).mpr hop, hrun]
  · have hno : t.sym ≠ .operatorSequence ∧ t.sym ∉ singleOpSyms := by
      rw [mem_singleOpSyms_iff]
      simpa [not_or] using hop
    by_cases hkw : t.sym ∈ keywordSelectorSyms
    · simp [parseSelector, hno, hkw, parseKeywordSelector, expectOneOf_cons hkw]
    · have hid : t.sym ∈ identOrPrimitiveSyms := by
        simpa [selectorSyms, hno, hkw] using h
      simp [parseSelector, hno, hkw, parseUnarySelector, expectOneOf_cons hid]

theorem selectorSyms_ne {sym : Symbol} (h : sym ∈ selectorSyms) :
    sym ≠ .newTerm ∧ sym ≠ .stString := by
  refine ⟨?_, ?_⟩ <;> rintro rfl <;> exact absurd h (by decide)

theorem RendersLiteral.length_pos {l : AstLiteral} {ts : List Token}
    (h : RendersLiteral strtod l ts) : 0 < ts.length := by
  cases h <;> simp

/-- A literal does not begin with the end of an array. -/
theorem RendersLiteral.head_ne {l : AstLiteral} {ts rest : List Token}
    (h : RendersLiteral strtod l ts) : (current (ts ++ rest)).sym ≠ .endTerm := by
  cases h <;> simp

mutual

/-- **A literal is read back**, whatever follows it. -/
theorem RendersLiteral.parse {l : AstLiteral} {ts : List Token} (h : RendersLiteral strtod l ts)
    (fuel : ℕ) (hf : 8 * ts.length ≤ fuel + 4) (rest : List Token) :
    parseLiteral strtod fuel (ts ++ rest) = .ok (l, rest) := by
  obtain ⟨fuel, rfl⟩ : ∃ f, fuel = f + 1 := ⟨fuel - 1, by have := h.length_pos; omega⟩
  cases h with
  | string t => simp [parseLiteral, parseString, expect_cons]
  | quoted t => simp [parseLiteral, parseSymbol, expect_cons]
  | selector t h =>
    obtain ⟨hterm, hstring⟩ := selectorSyms_ne h
    simp [parseLiteral, parseSymbol, expect_cons, hterm, hstring, parseSelector_cons, h]
  | @integer t h hn =>
    simp [parseLiteral, parseNumber, parseUnsigned, parseInteger, expect_cons,
      readInteger_numeral h (by omega)]
  | @negInteger t h hn =>
    simp [parseLiteral, parseNumber, parseUnsigned, parseInteger, expect_cons,
      readInteger_numeral h (by omega)]
  | double h =>
    simp [parseLiteral, parseNumber, parseUnsigned, parseDouble, expect_cons, h]
  | negDouble h =>
    simp [parseLiteral, parseNumber, parseUnsigned, parseDouble, expect_cons, h]
  | @array ls ts h =>
    simp only [List.length_append, List.length_cons, List.length_nil] at hf
    obtain ⟨fuel, rfl⟩ : ∃ f, fuel = f + 1 := ⟨fuel - 1, by omega⟩
    have hrec := h.parse fuel (by omega) (⟨.endTerm, ")"⟩ :: rest) rfl
    simp [parseLiteral, parseArray, expect_cons, hrec]

/-- The elements of an array literal are read back. -/
theorem RendersLiterals.parse {ls : List AstLiteral} {ts : List Token}
    (h : RendersLiterals strtod ls ts) (fuel : ℕ) (hf : 8 * ts.length + 1 ≤ fuel)
    (rest : List Token) (hrest : (current rest).sym = .endTerm) :
    parseElements strtod fuel (ts ++ rest) = .ok (ls, rest) := by
  obtain ⟨fuel, rfl⟩ : ∃ f, fuel = f + 1 := ⟨fuel - 1, by omega⟩
  cases h with
  | nil => simp [parseElements, hrest]
  | @cons l ls ts ts' h h' =>
    have hpos := h.length_pos
    rw [List.length_append] at hf
    have hhead : (current (ts ++ (ts' ++ rest))).sym ≠ .endTerm := h.head_ne
    have hl := h.parse fuel (by omega) (ts' ++ rest)
    have hls := h'.parse fuel (by omega) rest hrest
    simp [parseElements, hhead, hl, hls]

end

/-! ## Names -/

/-- The parameters of a block are read back. -/
theorem parseParameters_flatMap {rest : List Token} (hrest : (current rest).sym ≠ .colon) :
    ∀ (params args : List String) (fuel : ℕ), params ≠ [] → params.Nodup →
      (∀ p ∈ params, p ∉ args) → params.length ≤ fuel →
      parseParameters fuel args
        (params.flatMap (fun p => [⟨.colon, ":"⟩, identToken p]) ++ rest) = .ok (params, rest)
  | [p], args, fuel + 1, _, _, hargs, _ => by
    simp [parseParameters, expect_cons, hargs, hrest]
  | p :: q :: params, args, fuel + 1, _, hnd, hargs, hf => by
    obtain ⟨hp, hnd⟩ := List.nodup_cons.mp hnd
    have hfresh : ∀ x ∈ q :: params, x ∉ p :: args := by
      intro x hx hmem
      rcases List.mem_cons.mp hmem with rfl | hmem
      · exact hp hx
      · exact hargs x (List.mem_cons_of_mem _ hx) hmem
    have hrec := parseParameters_flatMap hrest (q :: params) (p :: args) fuel (by simp) hnd hfresh
      (by simpa using hf)
    simp only [List.flatMap_cons, List.cons_append, List.nil_append] at hrec ⊢
    simp [parseParameters, expect_cons, hargs, hrec]

/-- The names of the locals are read back. -/
theorem parseLocalNames_map {rest : List Token} (hrest : Stops identOrPrimitiveSyms rest) :
    ∀ (locals args : List String) (fuel : ℕ), locals.Nodup → (∀ x ∈ locals, x ∉ args) →
      locals.length + 1 ≤ fuel →
      parseLocalNames fuel args (locals.map identToken ++ rest) = .ok (locals, rest)
  | [], args, fuel + 1, _, _, _ => by
    have : (current rest).sym ∉ identOrPrimitiveSyms := hrest
    simp [parseLocalNames, this]
  | x :: locals, args, fuel + 1, hnd, hargs, hf => by
    obtain ⟨hx, hnd⟩ := List.nodup_cons.mp hnd
    have hfresh : ∀ y ∈ locals, y ∉ x :: args := by
      intro y hy hmem
      rcases List.mem_cons.mp hmem with rfl | hmem
      · exact hx hy
      · exact hargs y (List.mem_cons_of_mem _ hy) hmem
    have hrec := parseLocalNames_map hrest locals (x :: args) fuel hnd hfresh (by simpa using hf)
    simp [parseLocalNames, identToken_mem, hargs, hrec]

/-- The locals are read back. -/
theorem parseLocals_localTokens {locals : List String} (hnd : locals.Nodup) {fuel : ℕ}
    (hf : (localTokens locals).length ≤ fuel) {rest : List Token}
    (hrest : (current rest).sym ≠ .or) :
    parseLocals fuel (localTokens locals ++ rest) = .ok (locals, rest) := by
  cases locals with
  | nil => simp [parseLocals, localTokens, hrest]
  | cons x locals =>
    have hstop : Stops identOrPrimitiveSyms (⟨.or, "|"⟩ :: rest) := by simp [identOrPrimitiveSyms]
    have hrec := parseLocalNames_map hstop (x :: locals) [] fuel hnd (by simp)
      (by simp [localTokens] at hf ⊢; omega)
    simp only [List.map_cons, List.cons_append] at hrec
    simp [parseLocals, localTokens, expect_cons, hrec]

/-- The chain of assigned names ends where the token after next is no assignment. -/
theorem parseAssignments_lhsTokens {rest : List Token} (hrest : (current rest.tail).sym ≠ .assign) :
    ∀ (lhs : List String) (fuel : ℕ), lhs ≠ [] → lhs.length ≤ fuel →
      parseAssignments fuel (lhsTokens lhs ++ rest) = .ok (lhs, rest)
  | [x], fuel + 1, _, _ => by
    simp [parseAssignments, lhsTokens, identToken_mem, expect_cons, hrest]
  | x :: y :: lhs, fuel + 1, _, hf => by
    have hrec := parseAssignments_lhsTokens hrest (y :: lhs) fuel (by simp) (by simpa using hf)
    simp only [lhsTokens, List.flatMap_cons, List.cons_append, List.nil_append] at hrec ⊢
    simp [parseAssignments, identToken_mem, expect_cons, hrec]

/-! ## How a spelling begins

The first token decides what the parser does; the second tells an assignment. -/

/-- The symbols an expression begins with. -/
def primaryFirst : List Symbol :=
  [.identifier, .primitive, .newTerm, .newBlock, .pound, .stString, .integer, .double, .minus]

theorem identToken_first (name : String) : (identToken name).sym ∈ primaryFirst := by
  simp only [identToken]
  split_ifs <;> decide

/-- How a literal begins. -/
theorem RendersLiteral.head {l : AstLiteral} {ts : List Token} (h : RendersLiteral strtod l ts) :
    ∃ t ts', ts = t :: ts' ∧ t.sym ∈ primaryFirst := by
  cases h <;> exact ⟨_, _, rfl, by simp [primaryFirst]⟩

theorem lhsTokens_head {lhs : List String} (h : lhs ≠ []) :
    ∃ x ts, lhsTokens lhs = identToken x :: ⟨.assign, ":="⟩ :: ts := by
  cases lhs with
  | nil => exact absurd rfl h
  | cons x lhs => exact ⟨x, _, rfl⟩

mutual

/-- How an expression begins. -/
theorem Renders.head : ∀ {p : ℕ} {e : AstExpr} {ts : List Token}, Renders strtod p e ts →
    ∃ t ts', ts = t :: ts' ∧ t.sym ∈ primaryFirst
  | _, _, _, .bare _ h => h.head
  | _, _, _, .paren _ _ => ⟨_, _, rfl, by simp [primaryFirst]⟩

theorem Bare.head : ∀ {e : AstExpr} {ts : List Token}, Bare strtod e ts →
    ∃ t ts', ts = t :: ts' ∧ t.sym ∈ primaryFirst
  | _, _, .literal h => h.head
  | _, _, .varUse name => ⟨_, _, rfl, identToken_first name⟩
  | _, _, .nestedBlock _ _ _ => ⟨_, _, rfl, by simp [primaryFirst]⟩
  | _, _, .unaryCall _ h => by
    obtain ⟨t, ts', rfl, ht⟩ := h.head
    exact ⟨t, _, rfl, ht⟩
  | _, _, .binaryCall _ h _ => by
    obtain ⟨t, ts', rfl, ht⟩ := h.head
    exact ⟨t, _, rfl, ht⟩
  | _, _, .keywordCall h _ => by
    obtain ⟨t, ts', rfl, ht⟩ := h.head
    exact ⟨t, _, rfl, ht⟩
  | _, _, .assignation hl h => by
    obtain ⟨x, ts', heq⟩ := lhsTokens_head hl
    exact ⟨identToken x, _, by rw [heq]; rfl, identToken_first x⟩

end

/-- No spelling is empty. -/
theorem Renders.length_pos {p : ℕ} {e : AstExpr} {ts : List Token} (h : Renders strtod p e ts) :
    0 < ts.length := by
  obtain ⟨t, ts', rfl, -⟩ := h.head
  simp

/-- What no expression begins with. -/
theorem Renders.head_ne {p : ℕ} {e : AstExpr} {ts : List Token} (h : Renders strtod p e ts)
    {sym : Symbol} (hsym : sym ∉ primaryFirst) (rest : List Token) :
    (current (ts ++ rest)).sym ≠ sym := by
  obtain ⟨t, ts', rfl, ht⟩ := h.head
  rintro rfl
  exact hsym ht

theorem Bare.head_ne {e : AstExpr} {ts : List Token} (h : Bare strtod e ts) {sym : Symbol}
    (hsym : sym ∉ primaryFirst) (rest : List Token) : (current (ts ++ rest)).sym ≠ sym :=
  (Renders.bare (le_refl e.prec) h).head_ne hsym rest

/-- A body begins with an expression, a return or what follows it. -/
theorem RendersBody.head_ne {es : List AstExpr} {ts : List Token} (h : RendersBody strtod es ts)
    {sym : Symbol} (hsym : sym ∉ .exit :: primaryFirst) {rest : List Token}
    (hrest : (current rest).sym ≠ sym) : (current (ts ++ rest)).sym ≠ sym := by
  obtain ⟨hexit, hfirst⟩ := not_or.mp (mt List.mem_cons.mpr hsym)
  cases h with
  | nil => exact hrest
  | ret h => exact fun heq => hexit heq.symm
  | last h => exact h.head_ne hfirst rest
  | cons h h' =>
    rw [List.append_assoc]
    exact h.head_ne hfirst _

/-- **Only an assignment has `:=` for its second token.** -/
theorem RendersLiteral.second_ne {l : AstLiteral} {ts : List Token}
    (h : RendersLiteral strtod l ts) {rest : List Token} (hrest : (current rest).sym ≠ .assign) :
    (current (ts ++ rest).tail).sym ≠ .assign := by
  cases h with
  | selector t h =>
    rintro rfl
    exact absurd h (by decide)
  | string | integer | double => simpa using hrest
  | quoted | negInteger | negDouble | array => simp

mutual

/-- Only an assignment has the sign second. -/
theorem Renders.second_ne : ∀ {p : ℕ} {e : AstExpr} {ts : List Token},
    Renders strtod p e ts → p ≤ 3 →
    ∀ {rest : List Token}, (current rest).sym ≠ .assign → (current (ts ++ rest).tail).sym ≠ .assign
  | _, _, _, .bare hle h, hp, _, hrest => h.second_ne (hle.trans hp) hrest
  | _, _, _, .paren _ h, _, _, _ => by
    simp only [List.cons_append, List.tail_cons, List.append_assoc]
    exact h.head_ne (by decide) _

theorem Bare.second_ne : ∀ {e : AstExpr} {ts : List Token}, Bare strtod e ts → e.prec ≤ 3 →
    ∀ {rest : List Token}, (current rest).sym ≠ .assign → (current (ts ++ rest).tail).sym ≠ .assign
  | _, _, .literal h, _, _, hrest => h.second_ne hrest
  | _, _, .varUse name, _, _, hrest => by simpa using hrest
  | _, _, @Bare.nestedBlock _ params locals body ts hp hl h, _, rest, hrest => by
    have hbody : (current (ts ++ (⟨.endBlock, "]"⟩ :: rest))).sym ≠ .assign :=
      h.head_ne (by decide) (by simp)
    cases params with
    | cons p ps => simp [paramTokens]
    | nil =>
      cases locals with
      | cons x xs => simp [paramTokens, localTokens]
      | nil => simpa [paramTokens, localTokens] using hbody
  | _, _, .unaryCall selector h, _, _, hrest => by
    rw [List.append_assoc]
    refine h.second_ne (by omega) ?_
    have := identToken_first selector
    rintro heq
    rw [show (identToken selector).sym = Symbol.assign from heq] at this
    exact absurd this (by decide)
  | _, _, .binaryCall selector h h', _, _, hrest => by
    rw [List.append_assoc]
    refine h.second_ne (by omega) ?_
    have := operatorToken_mem selector
    rintro heq
    rw [show (operatorToken selector).sym = Symbol.assign from heq] at this
    exact absurd this (by decide)
  | _, _, .keywordCall h h', _, _, hrest => by
    rw [List.append_assoc]
    refine h.second_ne (by omega) ?_
    cases h' <;> simp
  | _, _, .assignation hl h, hp, _, _ => by simp [AstExpr.prec] at hp

end

/-! ## The loops

Each of them stops, or takes one message more. -/

theorem parseUnaryMessages_stop {fuel : ℕ} {e : AstExpr} {rest : List Token} (hf : 0 < fuel)
    (h : Stops unaryCont rest) : parseUnaryMessages fuel e rest = .ok (e, rest) := by
  obtain ⟨fuel, rfl⟩ := Nat.exists_eq_add_one.mpr hf
  have h' : (current rest).sym ∉ identOrPrimitiveSyms := h
  simp [parseUnaryMessages, h']

/-- One unary message more. -/
theorem parseUnaryMessages_ident (fuel : ℕ) (e : AstExpr) (selector : String) (rest : List Token) :
    parseUnaryMessages (fuel + 1) e (identToken selector :: rest) =
      parseUnaryMessages fuel (.unaryCall selector e) rest := by
  simp [parseUnaryMessages, identToken_mem]

theorem Stops.not_binary {rest : List Token} (h : Stops binaryCont rest) :
    (current rest).sym ∉ .operatorSequence :: binaryOpSyms := fun hm =>
  h (List.mem_append_left _ hm)

theorem parseBinaryMessages_stop {fuel : ℕ} {e : AstExpr} {rest : List Token} (hf : 0 < fuel)
    (h : Stops binaryCont rest) : parseBinaryMessages strtod fuel e rest = .ok (e, rest) := by
  obtain ⟨fuel, rfl⟩ := Nat.exists_eq_add_one.mpr hf
  have h' := h.not_binary
  simp only [parseBinaryMessages, run_bind, run_atBinarySelector, run_ite, h', decide_false,
    Bool.false_eq_true, if_false, run_pure]

/-- One binary message more. -/
theorem parseBinaryMessages_operator {fuel : ℕ} {e arg : AstExpr} (selector : String)
    {rest rest' : List Token} (h : parseBinaryOperand strtod fuel rest = .ok (arg, rest')) :
    parseBinaryMessages strtod (fuel + 1) e (operatorToken selector :: rest) =
      parseBinaryMessages strtod fuel (.binaryCall selector e arg) rest' := by
  have hop := operatorToken_mem selector
  simp only [parseBinaryMessages, run_bind, run_atBinarySelector, current_cons, run_ite, hop,
    decide_true, if_true, parseBinarySelector_cons hop, h]
  rfl

/-! ## One statement for each level

A level parses its own spellings and those of the levels below. -/

section Levels

variable (strtod)

/-- The tokens are read as a primary, whatever follows. -/
def PrimaryParses (e : AstExpr) (ts : List Token) : Prop :=
  ∀ fuel rest, 8 * ts.length ≤ fuel + 3 → parsePrimary strtod fuel (ts ++ rest) = .ok (e, rest)

/-- The primary, and then the loop of unary messages arrives at the whole operand. -/
def OperandParses (e : AstExpr) (ts : List Token) : Prop :=
  ∀ fuel rest, 8 * ts.length ≤ fuel + 3 → ∃ p s f,
    parsePrimary strtod fuel (ts ++ rest) = .ok (p, s) ∧
      parseUnaryMessages fuel p s = parseUnaryMessages f e rest ∧ fuel ≤ f + ts.length

/-- The first operand, and then the loop of binary messages arrives at the whole send. -/
def MessageParses (e : AstExpr) (ts : List Token) : Prop :=
  ∀ fuel fuel' rest, Stops unaryCont rest → 8 * ts.length ≤ fuel + 3 → 8 * ts.length ≤ fuel' + 3 →
    ∃ p s q s' f, parsePrimary strtod fuel (ts ++ rest) = .ok (p, s) ∧
      parseUnaryMessages fuel p s = .ok (q, s') ∧
      parseBinaryMessages strtod fuel' q s' = parseBinaryMessages strtod f e rest ∧
      fuel' ≤ f + ts.length

/-- The tokens are read as an evaluation, where nothing follows that would go on with it. -/
def EvaluationParses (e : AstExpr) (ts : List Token) : Prop :=
  ∀ fuel rest, Stops keywordCont rest → 8 * ts.length ≤ fuel + 1 →
    parseEvaluation strtod fuel (ts ++ rest) = .ok (e, rest)

/-- The tokens are read as an expression, likewise. -/
def ExprParses (e : AstExpr) (ts : List Token) : Prop :=
  ∀ fuel rest, Stops exprCont rest → 8 * ts.length ≤ fuel →
    parseExpr strtod fuel (ts ++ rest) = .ok (e, rest)

/-- The statement for a place that admits precedence `p`. -/
def LevelParses : ℕ → AstExpr → List Token → Prop
  | 0 => PrimaryParses strtod
  | 1 => OperandParses strtod
  | 2 => MessageParses strtod
  | 3 => EvaluationParses strtod
  | _ => ExprParses strtod

/-- The tokens are read as the parts of a keyword message. -/
def PartsParses (kw : String) (es : List AstExpr) (ts : List Token) : Prop :=
  ∀ fuel rest, Stops keywordCont rest → 8 * ts.length ≤ fuel + 4 →
    parseKeywordParts strtod fuel (ts ++ rest) = .ok ((kw, es), rest)

/-- The tokens are read as the body of a block, up to its end. -/
def BodyParses (es : List AstExpr) (ts : List Token) : Prop :=
  ∀ fuel rest, (current rest).sym ∈ [Symbol.endTerm, .endBlock] → 8 * ts.length + 4 ≤ fuel →
    parseBlockExprs strtod fuel (ts ++ rest) = .ok (es, rest)

end Levels

variable {e : AstExpr} {ts : List Token}

/-- A primary is an operand. -/
theorem PrimaryParses.operand (h : PrimaryParses strtod e ts) : OperandParses strtod e ts :=
  fun fuel rest hf => ⟨e, rest, fuel, h fuel rest hf, rfl, Nat.le_add_right _ _⟩

/-- An operand is a binary message without arguments. -/
theorem OperandParses.message (h : OperandParses strtod e ts) (hpos : 0 < ts.length) :
    MessageParses strtod e ts := by
  intro fuel fuel' rest hstop hf _
  obtain ⟨p, s, f, hp, hu, hle⟩ := h fuel rest hf
  rw [parseUnaryMessages_stop (by omega) hstop] at hu
  exact ⟨p, s, e, rest, fuel', hp, hu, rfl, Nat.le_add_right _ _⟩

theorem OperandParses.binaryOperand (h : OperandParses strtod e ts) (hpos : 0 < ts.length)
    {fuel : ℕ} (hf : 8 * ts.length ≤ fuel + 2) {rest : List Token} (hstop : Stops unaryCont rest) :
    parseBinaryOperand strtod fuel (ts ++ rest) = .ok (e, rest) := by
  obtain ⟨fuel, rfl⟩ : ∃ f, fuel = f + 1 := ⟨fuel - 1, by omega⟩
  obtain ⟨p, s, f, hp, hu, hle⟩ := h fuel rest (by omega)
  simp [parseBinaryOperand, hp, hu, parseUnaryMessages_stop (show 0 < f by omega) hstop]

/-- A binary message is an evaluation without keywords. -/
theorem MessageParses.evaluation (h : MessageParses strtod e ts) (hpos : 0 < ts.length) :
    EvaluationParses strtod e ts := by
  intro fuel rest hstop hf
  obtain ⟨fuel, rfl⟩ : ∃ f, fuel = f + 1 := ⟨fuel - 1, by omega⟩
  have hbin : Stops binaryCont rest := hstop.mono (by decide)
  obtain ⟨p, s, q, s', f, hp, hu, hb, hle⟩ :=
    h fuel fuel rest (hbin.mono (by decide)) (by omega) (by omega)
  rw [parseBinaryMessages_stop (by omega) hbin] at hb
  have hkw : (current rest).sym ≠ .keyword := fun heq => hstop (by rw [heq]; decide)
  simp [parseEvaluation, hp, hu, hb, hkw]

/-- An evaluation is an expression without an assignment. -/
theorem EvaluationParses.expr (h : EvaluationParses strtod e ts) (hpos : 0 < ts.length)
    (hsecond : ∀ rest, (current rest).sym ≠ .assign → (current (ts ++ rest).tail).sym ≠ .assign) :
    ExprParses strtod e ts := by
  intro fuel rest hstop hf
  obtain ⟨fuel, rfl⟩ : ∃ f, fuel = f + 1 := ⟨fuel - 1, by omega⟩
  have hassign : (current rest).sym ≠ .assign := fun heq => hstop (by rw [heq]; decide)
  have hrec := h fuel rest (hstop.mono (by decide)) (by omega)
  simp [parseExpr, hsecond rest hassign, hrec]

/-- A tree read at one level is read at every looser one. -/
theorem LevelParses.mono {p q : ℕ} (h : LevelParses strtod p e ts) (hpos : 0 < ts.length)
    (hsecond : p ≤ 3 → ∀ rest, (current rest).sym ≠ .assign →
      (current (ts ++ rest).tail).sym ≠ .assign) (hpq : p ≤ q) (hq : q ≤ 4) :
    LevelParses strtod q e ts := by
  induction q, hpq using Nat.le_induction with
  | base => exact h
  | succ q hpq ih =>
    have ih := ih (by omega)
    match q, hq, hpq, ih with
    | 0, _, _, ih => exact PrimaryParses.operand ih
    | 1, _, _, ih => exact OperandParses.message ih hpos
    | 2, _, _, ih => exact MessageParses.evaluation ih hpos
    | 3, _, hpq, ih => exact EvaluationParses.expr ih hpos (hsecond hpq)

/-- A tree in parentheses is a primary. -/
theorem ExprParses.paren (h : ExprParses strtod e ts) :
    PrimaryParses strtod e (⟨.newTerm, "("⟩ :: ts ++ [⟨.endTerm, ")"⟩]) := by
  intro fuel rest hf
  simp only [List.length_append, List.length_cons, List.length_nil] at hf
  obtain ⟨fuel, rfl⟩ : ∃ f, fuel = f + 2 := ⟨fuel - 2, by omega⟩
  have hrec := h fuel (⟨.endTerm, ")"⟩ :: rest) (by rw [stops_cons]; decide) (by omega)
  simp [parsePrimary, parseNestedTerm, identOrPrimitiveSyms, expect_cons, hrec]

/-! ## One lemma for each construct -/

theorem primaryParses_literal {l : AstLiteral} (h : RendersLiteral strtod l ts) :
    PrimaryParses strtod (.literal l) ts := by
  intro fuel rest hf
  have hpos := h.length_pos
  obtain ⟨fuel, rfl⟩ : ∃ f, fuel = f + 1 := ⟨fuel - 1, by omega⟩
  have hrec := h.parse fuel (by omega) rest
  have hne : ∀ sym ∈ [Symbol.identifier, .primitive, .newTerm, .newBlock],
      (current (ts ++ rest)).sym ≠ sym := by
    intro sym hsym
    cases h <;> simp at hsym ⊢ <;> rcases hsym with rfl | rfl | rfl | rfl <;> decide
  simp [parsePrimary, identOrPrimitiveSyms, hne, hrec]

theorem primaryParses_varUse (name : String) :
    PrimaryParses strtod (.varUse name) [identToken name] := by
  intro fuel rest hf
  obtain ⟨fuel, rfl⟩ : ∃ f, fuel = f + 1 := ⟨fuel - 1, by simp at hf; omega⟩
  simp [parsePrimary, identToken_mem]

theorem OperandParses.unaryCall (h : OperandParses strtod e ts) (selector : String) :
    OperandParses strtod (.unaryCall selector e) (ts ++ [identToken selector]) := by
  intro fuel rest hf
  rw [List.length_append, List.length_singleton] at hf ⊢
  obtain ⟨p, s, f, hp, hu, hle⟩ := h fuel (identToken selector :: rest) (by omega)
  obtain ⟨f, rfl⟩ : ∃ g, f = g + 1 := ⟨f - 1, by omega⟩
  rw [parseUnaryMessages_ident] at hu
  exact ⟨p, s, f, by simpa using hp, hu, by omega⟩

theorem MessageParses.binaryCall (h : MessageParses strtod e ts) {arg : AstExpr}
    {ts' : List Token} (h' : OperandParses strtod arg ts') (hpos : 0 < ts'.length)
    (selector : String) :
    MessageParses strtod (.binaryCall selector e arg) (ts ++ operatorToken selector :: ts') := by
  intro fuel fuel' rest hstop hf hf'
  rw [List.length_append, List.length_cons] at hf hf' ⊢
  have hop : Stops unaryCont (operatorToken selector :: (ts' ++ rest)) := by
    rw [stops_cons]
    intro hm
    have hmem := operatorToken_mem selector
    generalize (operatorToken selector).sym = sym at hm hmem
    revert hm hmem
    cases sym <;> decide
  obtain ⟨p, s, q, s', f, hp, hu, hb, hle⟩ := h fuel fuel' _ hop (by omega) (by omega)
  obtain ⟨f, rfl⟩ : ∃ g, f = g + 1 := ⟨f - 1, by omega⟩
  rw [parseBinaryMessages_operator selector (h'.binaryOperand hpos (by omega) hstop)] at hb
  exact ⟨p, s, q, s', f, by simpa using hp, hu, hb, by omega⟩

theorem MessageParses.keywordOperand (h : MessageParses strtod e ts) (hpos : 0 < ts.length)
    (fuel : ℕ) (hf : 8 * ts.length ≤ fuel + 1) {rest : List Token} (hstop : Stops binaryCont rest) :
    parseKeywordMessageOperand strtod fuel (ts ++ rest) = .ok (e, rest) := by
  obtain ⟨fuel, rfl⟩ : ∃ f, fuel = f + 2 := ⟨fuel - 2, by omega⟩
  obtain ⟨p, s, q, s', f, hp, hu, hb, hle⟩ :=
    h fuel (fuel + 1) rest (hstop.mono (by decide)) (by omega) (by omega)
  rw [parseBinaryMessages_stop (by omega) hstop] at hb
  simp [parseKeywordMessageOperand, parseBinaryOperand, hp, hu, hb]

theorem stops_keyword (kw : String) (rest : List Token) :
    Stops binaryCont (⟨.keyword, kw⟩ :: rest) := by
  rw [stops_cons]
  simp [binaryCont, binaryOpSyms, unaryCont, identOrPrimitiveSyms]

/-- The last part of a keyword message. -/
theorem MessageParses.lastPart (h : MessageParses strtod e ts) (hpos : 0 < ts.length)
    (kw : String) : PartsParses strtod kw [e] (⟨.keyword, kw⟩ :: ts) := by
  intro fuel rest hstop hf
  rw [List.length_cons] at hf
  obtain ⟨fuel, rfl⟩ : ∃ f, fuel = f + 1 := ⟨fuel - 1, by omega⟩
  have hrec := h.keywordOperand hpos fuel (by omega) (hstop.mono (by decide))
  have hkw : (current rest).sym ≠ .keyword := fun heq => hstop (by rw [heq]; decide)
  simp [parseKeywordParts, parseKeyword, expect_cons, hrec, hkw]

/-- A part before others. -/
theorem MessageParses.consPart (h : MessageParses strtod e ts) (hpos : 0 < ts.length)
    (kw : String) {kws kw' : String} {es : List AstExpr} {ts' ts'' : List Token}
    (hts : ts' = ⟨.keyword, kw'⟩ :: ts'') (h' : PartsParses strtod kws es ts') :
    PartsParses strtod (kw ++ kws) (e :: es) (⟨.keyword, kw⟩ :: (ts ++ ts')) := by
  intro fuel rest hstop hf
  rw [List.length_cons, List.length_append] at hf
  obtain ⟨fuel, rfl⟩ : ∃ f, fuel = f + 1 := ⟨fuel - 1, by omega⟩
  have hnext : Stops binaryCont (ts' ++ rest) := by
    rw [hts]
    exact stops_keyword _ _
  have hrec := h.keywordOperand hpos fuel (by omega) hnext
  have hrest := h' fuel rest hstop (by omega)
  have hkw : (current (ts' ++ rest)).sym = .keyword := by rw [hts]; rfl
  simp [parseKeywordParts, parseKeyword, expect_cons, hrec, hkw, hrest]

theorem MessageParses.keywordCall (h : MessageParses strtod e ts) (hpos : 0 < ts.length)
    {kw kw' : String} {es : List AstExpr} {ts' ts'' : List Token}
    (hts : ts' = ⟨.keyword, kw'⟩ :: ts'') (h' : PartsParses strtod kw es ts') :
    EvaluationParses strtod (.keywordCall kw e es) (ts ++ ts') := by
  intro fuel rest hstop hf
  rw [List.length_append] at hf
  obtain ⟨fuel, rfl⟩ : ∃ f, fuel = f + 2 := ⟨fuel - 2, by omega⟩
  have hnext : Stops binaryCont (ts' ++ rest) := by
    rw [hts]
    exact stops_keyword _ _
  obtain ⟨p, s, q, s', f, hp, hu, hb, hle⟩ := h (fuel + 1) (fuel + 1) (ts' ++ rest)
    (hnext.mono (by decide)) (by omega) (by omega)
  rw [parseBinaryMessages_stop (by omega) hnext] at hb
  have hrec := h' fuel rest hstop (by omega)
  have hkw : (current (ts' ++ rest)).sym = .keyword := by rw [hts]; rfl
  simp [parseEvaluation, hp, hu, hb, hkw, parseKeywordMessage, hrec]

theorem EvaluationParses.assignation (h : EvaluationParses strtod e ts)
    (hsecond : ∀ rest, (current rest).sym ≠ .assign → (current (ts ++ rest).tail).sym ≠ .assign)
    {lhs : List String} (hl : lhs ≠ []) :
    ExprParses strtod (.assignation lhs e) (lhsTokens lhs ++ ts) := by
  intro fuel rest hstop hf
  have hlen : (lhsTokens lhs).length = 2 * lhs.length := by simp [lhsTokens, Nat.mul_comm]
  have hpos := List.length_pos_iff.mpr hl
  rw [List.length_append, hlen] at hf
  obtain ⟨fuel, rfl⟩ : ∃ f, fuel = f + 2 := ⟨fuel - 2, by omega⟩
  have hassign : (current rest).sym ≠ .assign := fun heq => hstop (by rw [heq]; decide)
  have hnames := parseAssignments_lhsTokens (hsecond rest hassign) lhs fuel hl (by omega)
  have hrec := h fuel rest (hstop.mono (by decide)) (by omega)
  have hpeek : (current (lhsTokens lhs ++ (ts ++ rest)).tail).sym = .assign := by
    obtain ⟨x, ts', heq⟩ := lhsTokens_head hl
    rw [heq]
    rfl
  simp [parseExpr, hpeek, parseAssignation, hnames, hrec]

theorem bodyParses_nil : BodyParses strtod [] [] := by
  intro fuel rest hend hf
  obtain ⟨fuel, rfl⟩ : ∃ f, fuel = f + 1 := ⟨fuel - 1, by omega⟩
  simp only [List.mem_cons, List.not_mem_nil, or_false] at hend
  rcases hend with h | h <;> simp [parseBlockExprs, h]

/-- A body ends where nothing continues an expression. -/
theorem stops_of_end {rest : List Token} (h : (current rest).sym ∈ [Symbol.endTerm, .endBlock]) :
    Stops exprCont rest ∧ (current rest).sym ≠ .period := by
  simp only [List.mem_cons, List.not_mem_nil, or_false] at h
  rcases h with h | h <;> exact ⟨fun hm => absurd (h ▸ hm) (by decide), by rw [h]; decide⟩

theorem ExprParses.bodyRet (h : ExprParses strtod e ts) :
    BodyParses strtod [.ret e] (⟨.exit, "^"⟩ :: ts) := by
  intro fuel rest hend hf
  obtain ⟨fuel, rfl⟩ : ∃ f, fuel = f + 1 := ⟨fuel - 1, by omega⟩
  rw [List.length_cons] at hf
  obtain ⟨hstop, hperiod⟩ := stops_of_end hend
  have hrec := h fuel rest hstop (by omega)
  simp [parseBlockExprs, hrec, hperiod]

/-- A spelling that is no end of a body and no return. -/
def StartsStatement (ts : List Token) : Prop :=
  ∀ rest, ∀ sym ∈ [Symbol.endTerm, .endBlock, .exit], (current (ts ++ rest)).sym ≠ sym

/-- The last statement of a body. -/
theorem ExprParses.bodyLast (h : ExprParses strtod e ts) (hs : StartsStatement ts) :
    BodyParses strtod [e] ts := by
  intro fuel rest hend hf
  obtain ⟨fuel, rfl⟩ : ∃ f, fuel = f + 1 := ⟨fuel - 1, by omega⟩
  obtain ⟨hstop, hperiod⟩ := stops_of_end hend
  have hrec := h fuel rest hstop (by omega)
  simp [parseBlockExprs, hs rest, hrec, hperiod]

/-- A statement before others. -/
theorem ExprParses.bodyCons (h : ExprParses strtod e ts) (hs : StartsStatement ts)
    {es : List AstExpr} {ts' : List Token} (h' : BodyParses strtod es ts') :
    BodyParses strtod (e :: es) (ts ++ ⟨.period, "."⟩ :: ts') := by
  intro fuel rest hend hf
  obtain ⟨fuel, rfl⟩ : ∃ f, fuel = f + 1 := ⟨fuel - 1, by omega⟩
  rw [List.length_append, List.length_cons] at hf
  have hperiod : Stops exprCont (⟨.period, "."⟩ :: (ts' ++ rest)) := by
    rw [stops_cons]
    decide
  have hrec := h fuel _ hperiod (by omega)
  have hrest := h' fuel rest hend (by omega)
  simp [parseBlockExprs, hs (⟨.period, "."⟩ :: (ts' ++ rest)), hrec, hrest]

theorem BodyParses.nestedBlock {es : List AstExpr} (h : BodyParses strtod es ts)
    (hor : ∀ rest, (current rest).sym = .endBlock → (current (ts ++ rest)).sym ≠ .or ∧
      (current (ts ++ rest)).sym ≠ .colon)
    {params locals : List String} (hp : params.Nodup) (hl : locals.Nodup) :
    PrimaryParses strtod (.nestedBlock params locals es)
      (⟨.newBlock, "["⟩ :: (paramTokens params ++ (localTokens locals ++ (ts ++ [⟨.endBlock,
      "]"⟩])))) := by
  intro fuel rest hf
  simp only [List.length_append, List.length_cons, List.length_nil] at hf
  obtain ⟨fuel, rfl⟩ : ∃ f, fuel = f + 2 := ⟨fuel - 2, by omega⟩
  obtain ⟨hbodyOr, hbodyColon⟩ := hor (⟨.endBlock, "]"⟩ :: rest) rfl
  have hbody := h fuel (⟨.endBlock, "]"⟩ :: rest) (by simp) (by omega)
  have hlocals := parseLocals_localTokens hl
    (show (localTokens locals).length ≤ fuel by omega) hbodyOr
  cases params with
  | nil =>
    have hcolon : (current (localTokens locals ++ (ts ++ ⟨.endBlock,
      "]"⟩ :: rest))).sym ≠ .colon := by
      cases locals with
      | nil => exact hbodyColon
      | cons x xs => simp [localTokens]
    simp [parsePrimary, parseNestedBlock, identOrPrimitiveSyms, expect_cons, paramTokens, hcolon,
      hlocals, hbody]
  | cons p ps =>
    have hlen : (paramTokens (p :: ps)).length = 2 * (p :: ps).length + 1 := by
      simp [paramTokens]
      omega
    have hbar : (current (⟨.or, "|"⟩ ::
        (localTokens locals ++ (ts ++ ⟨.endBlock, "]"⟩ :: rest)))).sym ≠ .colon := by simp
    have hparams := parseParameters_flatMap hbar (p :: ps) [] fuel (by simp) hp (by simp) (by omega)
    simp only [List.flatMap_cons, List.cons_append, List.nil_append] at hparams
    simp [parsePrimary, parseNestedBlock, identOrPrimitiveSyms, expect_cons, paramTokens, hparams,
      hlocals, hbody]

/-! ## The whole grammar

By induction on the tree, all the levels at once. -/

theorem Renders.startsStatement {p : ℕ} (h : Renders strtod p e ts) : StartsStatement ts := by
  intro rest sym hsym
  refine h.head_ne ?_ rest
  revert hsym
  cases sym <;> decide

theorem RendersParts.head {kw : String} {es : List AstExpr} (h : RendersParts strtod kw es ts) :
    ∃ kw' ts', ts = ⟨.keyword, kw'⟩ :: ts' := by
  cases h <;> exact ⟨_, _, rfl⟩

theorem Bare.prec_le (h : Bare strtod e ts) : e.prec ≤ 4 := by
  cases h <;> simp [AstExpr.prec]

theorem Bare.length_pos (h : Bare strtod e ts) : 0 < ts.length :=
  (Renders.bare (le_refl e.prec) h).length_pos

mutual

/-- **Every place of the grammar**: what its parsing function makes of a spelling. -/
theorem Renders.parses : ∀ {p : ℕ} {e : AstExpr} {ts : List Token}, Renders strtod p e ts → p ≤ 4 →
    LevelParses strtod p e ts
  | _, _, _, .bare hle h, hp =>
    h.parses.mono h.length_pos (fun h3 _ hrest => h.second_ne h3 hrest) hle hp
  | p, e, _, .paren hlt h, _ => by
    have hprec := h.prec_le
    have hexpr : LevelParses strtod 4 e _ :=
      h.parses.mono h.length_pos (fun h3 _ hrest => h.second_ne h3 hrest) hprec (le_refl 4)
    have hren := Renders.paren hlt h
    have hprim : LevelParses strtod 0 e _ := ExprParses.paren hexpr
    exact hprim.mono hren.length_pos (fun _ _ hrest => hren.second_ne (by omega) hrest)
      (Nat.zero_le p) (by omega)

/-- Every spelling without parentheses is parsed. -/
theorem Bare.parses : ∀ {e : AstExpr} {ts : List Token}, Bare strtod e ts →
    LevelParses strtod e.prec e ts
  | _, _, .literal h => primaryParses_literal h
  | _, _, .varUse name => primaryParses_varUse name
  | _, _, .nestedBlock hp hl h => h.parses.nestedBlock (fun rest hrest =>
      ⟨h.head_ne (by decide) (by rw [hrest]; decide),
        h.head_ne (by decide) (by rw [hrest]; decide)⟩)
      hp hl
  | _, _, .unaryCall selector h => OperandParses.unaryCall (h.parses (by omega)) selector
  | _, _, .binaryCall selector h h' =>
    MessageParses.binaryCall (h.parses (by omega)) (h'.parses (by omega)) h'.length_pos selector
  | _, _, .keywordCall h h' => by
    obtain ⟨kw', ts', hts⟩ := h'.head
    exact MessageParses.keywordCall (h.parses (by omega)) h.length_pos hts h'.parses
  | _, _, .assignation hl h => EvaluationParses.assignation (h.parses (by omega))
      (fun _ hrest => h.second_ne (by omega) hrest) hl

/-- So are the parts of a keyword message. -/
theorem RendersParts.parses : ∀ {kw : String} {es : List AstExpr} {ts : List Token},
    RendersParts strtod kw es ts → PartsParses strtod kw es ts
  | _, _, _, .last kw h => MessageParses.lastPart (h.parses (by omega)) h.length_pos kw
  | _, _, _, .cons kw h h' => by
    obtain ⟨kw', ts', hts⟩ := h'.head
    exact MessageParses.consPart (h.parses (by omega)) h.length_pos kw hts h'.parses

/-- And the statements of a body. -/
theorem RendersBody.parses : ∀ {es : List AstExpr} {ts : List Token},
    RendersBody strtod es ts → BodyParses strtod es ts
  | _, _, .nil => bodyParses_nil
  | _, _, .ret h => ExprParses.bodyRet (h.parses (by omega))
  | _, _, .last h => ExprParses.bodyLast (h.parses (by omega)) h.startsStatement
  | _, _, .cons h h' => ExprParses.bodyCons (h.parses (by omega)) h.startsStatement h'.parses

end

/-! ## Every tree of the grammar has a spelling -/

theorem exists_digits (n : ℕ) : ∃ cs : List Char, cs ≠
    [] ∧ (∀ c ∈ cs, c.isDigit) ∧ decimal cs = n := by
  have hdigit : ∀ d < 10, ∃ c : Char, c.isDigit ∧ c.toNat - '0'.toNat = d := by
    intro d hd
    refine ⟨Char.ofNat (48 + d), ?_⟩
    interval_cases d <;> decide
  induction n using Nat.strong_induction_on with
  | _ n ih =>
    obtain ⟨c, hc, hval⟩ := hdigit (n % 10) (Nat.mod_lt _ (by decide))
    by_cases hn : n < 10
    · refine ⟨[c], by simp, by simpa using hc, ?_⟩
      simp only [decimal, List.foldl_cons, List.foldl_nil, hval]
      omega
    · obtain ⟨cs, hne, hds, hcs⟩ := ih (n / 10) (by omega)
      refine ⟨cs ++ [c], by simp, ?_, ?_⟩
      · intro x hx
        rcases List.mem_append.mp hx with hx | hx
        · exact hds x hx
        · rwa [List.mem_singleton.mp hx]
      · simp only [decimal, List.foldl_append, List.foldl_cons, List.foldl_nil, hval] at hcs ⊢
        rw [hcs]
        omega

/-- Every number has a numeral. -/
theorem exists_numeral (n : ℕ) : ∃ t : String, IsNumeral t ∧ decimal t.toList = n := by
  obtain ⟨cs, hne, hds, hcs⟩ := exists_digits n
  refine ⟨String.ofList cs, ?_, ?_⟩
  · rw [IsNumeral, String.toList_ofList]
    exact ⟨hne, hds⟩
  · rw [String.toList_ofList, hcs]

section Grammar

variable (strtod)

/-- A literal that can be written: some numeral denotes each double in it. -/
inductive LiteralOk : AstLiteral → Prop
  | string (t : String) : LiteralOk (.string t)
  | symbol (t : String) : LiteralOk (.symbol t)
  | integer (v : BitVec 32) : LiteralOk (.integer v)
  | double {t : String} {d : BitVec 64} (h : strtod t = some d) : LiteralOk (.double d)
  | negDouble {t : String} {d : BitVec 64} (h : strtod t = some d) :
      LiteralOk (.double (zeroMinus d))
  | array {ls : List AstLiteral} (h : ∀ l ∈ ls, LiteralOk l) : LiteralOk (.array ls)

/-- **The trees of the grammar**: names of one list are distinct, a keyword selector has one part
for each argument, an assignment assigns something, and only the last statement of a block returns.
-/
inductive Grammatical : AstExpr → Prop
  | literal {l : AstLiteral} (h : LiteralOk strtod l) : Grammatical (.literal l)
  | varUse (name : String) : Grammatical (.varUse name)
  | nestedBlock {params locals : List String} {body : List AstExpr} (hp : params.Nodup)
      (hl : locals.Nodup) (h : ∀ e ∈ body, Grammatical e) :
      Grammatical (.nestedBlock params locals body)
  | nestedBlockRet {params locals : List String} {body : List AstExpr} {r : AstExpr}
      (hp : params.Nodup) (hl : locals.Nodup) (h : ∀ e ∈ body, Grammatical e)
      (hr : Grammatical r) : Grammatical (.nestedBlock params locals (body ++ [.ret r]))
  | unaryCall {receiver : AstExpr} (selector : String) (h : Grammatical receiver) :
      Grammatical (.unaryCall selector receiver)
  | binaryCall {receiver argument : AstExpr} (selector : String) (h : Grammatical receiver)
      (h' : Grammatical argument) : Grammatical (.binaryCall selector receiver argument)
  | keywordCall {receiver : AstExpr} {arguments : List AstExpr} (kws : List String)
      (hne : arguments ≠ []) (hlen : kws.length = arguments.length) (h : Grammatical receiver)
      (h' : ∀ e ∈ arguments, Grammatical e) :
      Grammatical (.keywordCall (kws.foldr (· ++ ·) "") receiver arguments)
  | assignation {lhs : List String} {rhs : AstExpr} (hl : lhs ≠ []) (h : Grammatical rhs) :
      Grammatical (.assignation lhs rhs)

end Grammar

/-- Every literal of the grammar has a spelling. -/
theorem LiteralOk.exists_renders {l : AstLiteral} (h : LiteralOk strtod l) :
    ∃ ts, RendersLiteral strtod l ts := by
  induction h with
  | string t => exact ⟨_, .string t⟩
  | symbol t => exact ⟨_, .quoted t⟩
  | integer v =>
    have hlt := v.isLt
    by_cases hv : v.toNat < 2 ^ 31
    · obtain ⟨t, ht, hd⟩ := exists_numeral v.toNat
      have hren : RendersLiteral strtod _ _ := .integer ht (by rw [hd]; exact hv)
      rw [hd, BitVec.ofNat_toNat, BitVec.setWidth_eq] at hren
      exact ⟨_, hren⟩
    · obtain ⟨t, ht, hd⟩ := exists_numeral (2 ^ 32 - v.toNat)
      have hren : RendersLiteral strtod _ _ := .negInteger ht (by rw [hd]; omega)
      have hval : BitVec.ofInt 32 (-((2 ^ 32 - v.toNat : ℕ) : ℤ)) = v := by
        apply BitVec.eq_of_toNat_eq
        rw [BitVec.toNat_ofInt]
        omega
      rw [hd, hval] at hren
      exact ⟨_, hren⟩
  | double h => exact ⟨_, .double h⟩
  | negDouble h => exact ⟨_, .negDouble h⟩
  | @array ls h ih =>
    have hls : ∃ ts, RendersLiterals strtod ls ts := by
      clear h
      induction ls with
      | nil => exact ⟨_, .nil⟩
      | cons l ls ih' =>
        obtain ⟨ts, hts⟩ := ih l (by simp)
        obtain ⟨ts', hts'⟩ := ih' fun l' hl' => ih l' (List.mem_cons_of_mem _ hl')
        exact ⟨_, .cons hts hts'⟩
    obtain ⟨ts, hts⟩ := hls
    exact ⟨_, .array hts⟩

theorem exists_rendersBody {body tail : List AstExpr} {ts : List Token}
    (ht : RendersBody strtod tail ts) (h : ∀ e ∈ body, ∃ ts, Renders strtod 4 e ts) :
    ∃ ts, RendersBody strtod (body ++ tail) ts := by
  induction body with
  | nil => exact ⟨ts, ht⟩
  | cons e es ih =>
    obtain ⟨ts', hts'⟩ := h e (by simp)
    obtain ⟨ts'', hts''⟩ := ih fun e' he' => h e' (List.mem_cons_of_mem _ he')
    exact ⟨_, .cons hts' hts''⟩

theorem exists_rendersParts {arguments : List AstExpr} : ∀ {kws : List String}, arguments ≠ [] →
    kws.length = arguments.length → (∀ e ∈ arguments, ∃ ts, Renders strtod 2 e ts) →
    ∃ ts, RendersParts strtod (kws.foldr (· ++ ·) "") arguments ts := by
  induction arguments with
  | nil => exact fun h => absurd rfl h
  | cons e es ih =>
    rintro (_ | ⟨kw, kws⟩) _ hlen h
    · simp at hlen
    · obtain ⟨ts, hts⟩ := h e (by simp)
      cases es with
      | nil =>
        obtain rfl : kws = [] := by simpa using hlen
        exact ⟨_, by simpa using RendersParts.last kw hts⟩
      | cons e' es =>
        obtain ⟨ts', hts'⟩ := @ih kws (by simp) (by simpa using hlen)
          fun x hx => h x (List.mem_cons_of_mem _ hx)
        exact ⟨_, .cons kw hts hts'⟩

/-- A spelling without parentheses gives one for every place. -/
theorem Bare.exists_renders (h : Bare strtod e ts) (p : ℕ) : ∃ ts, Renders strtod p e ts := by
  by_cases hp : e.prec ≤ p
  · exact ⟨_, .bare hp h⟩
  · exact ⟨_, .paren (by omega) h⟩

/-- So has every expression. -/
theorem Grammatical.exists_renders (h : Grammatical strtod e) (p : ℕ) :
    ∃ ts, Renders strtod p e ts := by
  suffices hb : ∃ ts, Bare strtod e ts by
    obtain ⟨ts, hb⟩ := hb
    exact hb.exists_renders p
  induction h with
  | literal h =>
    obtain ⟨ts, hts⟩ := h.exists_renders
    exact ⟨ts, .literal hts⟩
  | varUse name => exact ⟨_, .varUse name⟩
  | nestedBlock hp hl _ ih =>
    obtain ⟨ts, hts⟩ := exists_rendersBody .nil fun e he => (ih e he).elim fun _ h =>
      h.exists_renders 4
    exact ⟨_, .nestedBlock hp hl (by simpa using hts)⟩
  | nestedBlockRet hp hl _ _ ih ihr =>
    obtain ⟨_, hr⟩ := ihr
    obtain ⟨_, hr⟩ := hr.exists_renders 4
    obtain ⟨ts, hts⟩ :=
      exists_rendersBody (.ret hr) fun e he => (ih e he).elim fun _ h => h.exists_renders 4
    exact ⟨_, .nestedBlock hp hl hts⟩
  | unaryCall selector _ ih =>
    obtain ⟨_, h⟩ := ih
    obtain ⟨_, h⟩ := h.exists_renders 1
    exact ⟨_, .unaryCall selector h⟩
  | binaryCall selector _ _ ih ih' =>
    obtain ⟨_, h⟩ := ih
    obtain ⟨_, h⟩ := h.exists_renders 2
    obtain ⟨_, h'⟩ := ih'
    obtain ⟨_, h'⟩ := h'.exists_renders 1
    exact ⟨_, .binaryCall selector h h'⟩
  | keywordCall kws hne hlen _ _ ih ih' =>
    obtain ⟨_, h⟩ := ih
    obtain ⟨_, h⟩ := h.exists_renders 2
    obtain ⟨_, h'⟩ :=
      exists_rendersParts hne hlen fun e he => (ih' e he).elim fun _ h => h.exists_renders 2
    exact ⟨_, .keywordCall h h'⟩
  | assignation hl _ ih =>
    obtain ⟨_, h⟩ := ih
    obtain ⟨_, h⟩ := h.exists_renders 3
    exact ⟨_, .assignation hl h⟩

/-- **Parsing inverts rendering**: every tree of the grammar has a spelling, and from each of its
spellings, followed by anything whose first token does not continue an expression, `ParseExpr`
returns the tree and leaves exactly what follows. -/
theorem parseExpr_renders (h : Grammatical strtod e) :
    (∃ ts, Renders strtod 4 e ts) ∧ ∀ ts, Renders strtod 4 e ts → ∀ rest, Stops exprCont rest →
      ∀ fuel, 8 * ts.length ≤ fuel → parseExpr strtod fuel (ts ++ rest) = .ok (e, rest) :=
  ⟨h.exists_renders 4, fun _ hts rest hstop fuel hf => hts.parses (le_refl 4) fuel rest hstop hf⟩

end

/-- `x := a + (b at: 3)` -/
def sampleAssignation : AstExpr :=
  .assignation ["x"] (.binaryCall "+" (.varUse "a")
    (.keywordCall "at:" (.varUse "b") [.literal (.integer 3)]))

/-- `x := a + (b at: 3)`. -/
def sampleTokens : List Token :=
  [identToken "x", ⟨.assign, ":="⟩, identToken "a", operatorToken "+", ⟨.newTerm, "("⟩,
    identToken "b", ⟨.keyword, "at:"⟩, ⟨.integer, "3"⟩, ⟨.endTerm, ")"⟩]

theorem grammatical_sample : Grammatical (fun _ => none) sampleAssignation :=
  .assignation (List.cons_ne_nil _ _) (.binaryCall "+" (.varUse "a")
    (.keywordCall ["at:"] (List.cons_ne_nil _ _) rfl (.varUse "b")
      (by simpa using Grammatical.literal (.integer 3))))

theorem renders_sample : Renders (fun _ => none) 4 sampleAssignation sampleTokens := by
  have hthree : RendersLiteral (fun _ => none) (.integer 3) [⟨.integer, "3"⟩] :=
    .integer (t := "3") ⟨by decide, by simp⟩ (by decide)
  have hat : Bare (fun _ => none) (.keywordCall "at:" (.varUse "b") [.literal (.integer 3)])
      [identToken "b", ⟨.keyword, "at:"⟩, ⟨.integer, "3"⟩] :=
    .keywordCall (.bare (by decide) (.varUse "b"))
      (.last "at:" (.bare (by decide) (.literal hthree)))
  exact .bare (by decide) (.assignation (List.cons_ne_nil "x" []) (.bare (by decide)
    (.binaryCall "+" (.bare (by decide) (.varUse "a")) (.paren (by decide) hat))))

theorem parseExpr_renders_sample :
    parseExpr (fun _ => none) 72 (sampleTokens ++ [⟨.period, "."⟩]) =
      .ok (sampleAssignation, [⟨.period, "."⟩]) :=
  (parseExpr_renders grammatical_sample).2 _ renders_sample _ (by rw [stops_cons]; decide) _
    (by decide)

end Dsom
