import Dsom.Foundations.Agreement
import Dsom.Syntax.ParseClass

/-!
# Syntax/ParseTerminates — the parser terminates

At an unknown character, and at the end of the input, the lexer delivers `NONE` again and again,
and the parser must not wait for it to move on.  It never eats a `NONE`: what it does depends only
on the tokens before the first one and on that one (`upToNone`), and whatever its loops do costs
one of those tokens.

So each function, on states with at most `n` tokens before the first `NONE`, ends within `8 * n`
rounds and a few more.
-/

namespace Dsom

/-- The tokens before the first `NONE`. -/
def beforeNone (s : List Token) : List Token := s.takeWhile (·.sym ≠ .none)

/-- The first `NONE`. -/
def firstNone (s : List Token) : Token := current (s.dropWhile (·.sym ≠ .none))

/-- After a `NONE` there is nothing else. -/
def EndsInNone (s : List Token) : Prop := ∀ t ∈ s.dropWhile (·.sym ≠ .none), t.sym = .none

/-- States with the same tokens up to the first `NONE`. -/
structure SameTokens (s s' : List Token) : Prop where
  before : beforeNone s = beforeNone s'
  first : firstNone s = firstNone s'
  left : EndsInNone s
  right : EndsInNone s'

/-- States that look the same to a parser; it must not run out of fuel. -/
def parsing : Agreement (List Token) ParseError where
  same := SameTokens
  size s := (beforeNone s).length
  bad e := e = .outOfFuel

/-- Two parsers that agree where the current symbol is as `pre` says. -/
def ParsersAgree {α : Type} (pre : Symbol → Prop) (n d : ℕ) (p q : Parser α) : Prop :=
  Agree parsing (fun s => pre (current s).sym) n d p q

/-! ## The steps of a parser

Two runs with different fuel agree as long as neither has run out; each step says how many tokens it
consumes. -/

section Steps

variable {α : Type} {n d : ℕ} {s s' : List Token} {pre : Symbol → Prop}

theorem current_eq_firstNone (h : beforeNone s = []) : current s = firstNone s := by
  cases s with
  | nil => rfl
  | cons t s =>
      by_cases ht : t.sym = .none
      · rw [firstNone, List.dropWhile_cons_of_neg (by simp [ht])]
      · rw [beforeNone, List.takeWhile_cons_of_pos (by simpa using ht)] at h
        cases h

/-- The current token is the first one. -/
theorem current_eq_head {t : Token} {ts : List Token} (h : beforeNone s = t :: ts) :
    current s = t := by
  cases s with
  | nil => cases h
  | cons t' s =>
      rw [beforeNone] at h
      by_cases ht : t'.sym = .none
      · rw [List.takeWhile_cons_of_neg (by simp [ht])] at h
        cases h
      · rw [List.takeWhile_cons_of_pos (by simpa using ht)] at h
        exact (List.cons.inj h).1

/-- The current token is the same. -/
theorem SameTokens.current (h : SameTokens s s') : Dsom.current s = Dsom.current s' := by
  cases hb : beforeNone s with
  | nil => rw [current_eq_firstNone hb, current_eq_firstNone (h.before ▸ hb), h.first]
  | cons t ts => rw [current_eq_head hb, current_eq_head (h.before ▸ hb)]

/-- Eating a token that is not `NONE`. -/
theorem dropWhile_tail (h : (current s).sym ≠ .none) :
    s.tail.dropWhile (·.sym ≠ .none) = s.dropWhile (·.sym ≠ .none) := by
  cases s with
  | nil => rfl
  | cons t s => exact (List.dropWhile_cons_of_pos (by simpa [current] using h)).symm

theorem beforeNone_tail (h : (current s).sym ≠ .none) :
    beforeNone s = current s :: beforeNone s.tail := by
  cases s with
  | nil => exact absurd rfl h
  | cons t s => exact List.takeWhile_cons_of_pos (by simpa [current] using h)

/-- The tokens are still the same behind the first one. -/
theorem SameTokens.tail (h : SameTokens s s') (hsym : (Dsom.current s).sym ≠ .none) :
    SameTokens s.tail s'.tail := by
  have hsym' : (Dsom.current s').sym ≠ .none := h.current ▸ hsym
  have hbefore := h.before
  rw [beforeNone_tail hsym, beforeNone_tail hsym'] at hbefore
  refine ⟨(List.cons.inj hbefore).2, ?_, ?_, ?_⟩
  · rw [firstNone, firstNone, dropWhile_tail hsym, dropWhile_tail hsym']
    exact h.first
  · rw [EndsInNone, dropWhile_tail hsym]
    exact h.left
  · rw [EndsInNone, dropWhile_tail hsym']
    exact h.right

theorem SameTokens.cons {t : Token} (h : SameTokens s s') (ht : t.sym ≠ .none) :
    SameTokens (t :: s) (t :: s') := by
  have hdrop (s : List Token) : (t :: s).dropWhile (·.sym ≠ .none) = s.dropWhile (·.sym ≠ .none) :=
    (dropWhile_tail (s := t :: s) ht).symm
  refine ⟨?_, ?_, ?_, ?_⟩
  · rw [beforeNone_tail (s := t :: s) ht, beforeNone_tail (s := t :: s') ht]
    exact congrArg _ h.before
  · rw [firstNone, firstNone, hdrop, hdrop]
    exact h.first
  · rw [EndsInNone, hdrop]
    exact h.left
  · rw [EndsInNone, hdrop]
    exact h.right

theorem EndsInNone.current_tail (h : EndsInNone s) (hsym : (current s).sym = .none) :
    (current s.tail).sym = .none := by
  cases s with
  | nil => rfl
  | cons t s =>
      rw [EndsInNone, List.dropWhile_cons_of_neg (by simpa [current] using hsym)] at h
      cases s with
      | nil => rfl
      | cons t' s => exact h t' (by simp)

/-- The symbol after the current one is the same. -/
theorem SameTokens.peek (h : SameTokens s s') :
    (Dsom.current s.tail).sym = (Dsom.current s'.tail).sym := by
  by_cases hsym : (Dsom.current s).sym = .none
  · rw [h.left.current_tail hsym, h.right.current_tail (h.current ▸ hsym)]
  · rw [(h.tail hsym).current]

end Steps

section Rules

variable {α β : Type} {n d : ℕ} {pre : Symbol → Prop}

/-- Less is known of the current token. -/
theorem ParsersAgree.imp {pre' : Symbol → Prop} {p q : Parser α} (h : ParsersAgree pre n d p q)
    (hpre : ∀ c, pre' c → pre c) : ParsersAgree pre' n d p q :=
  Agree.mono h (fun _ => hpre _) (Nat.le_refl _) (Nat.le_refl _)

theorem ParsersAgree.weaken {d' : ℕ} {p q : Parser α} (h : ParsersAgree pre n d p q) (hd : d' ≤ d) :
    ParsersAgree pre n d' p q :=
  Agree.weaken h hd

theorem ParsersAgree.ite {c : Prop} [Decidable c] {p q p' q' : Parser α}
    (hpos : c → ParsersAgree pre n d p q) (hneg : ¬ c → ParsersAgree pre n d p' q') :
    ParsersAgree pre n d (if c then p else p') (if c then q else q') :=
  agree_ite hpos hneg

/-- One parser after another. -/
theorem ParsersAgree.then {d₁ k : ℕ} {p q : Parser α} {f g : α → Parser β}
    (h : ParsersAgree pre n d₁ p q)
    (hfg : ∀ a, d₁ ≤ n → ParsersAgree (fun _ => True) (n - d₁) k (f a) (g a)) (hd : d ≤ d₁ + k) :
    ParsersAgree pre n d (p >>= f) (q >>= g) :=
  (Agree.bind h hfg).weaken hd

/-- Looking at the current symbol. -/
theorem agree_curSym {f g : Symbol → Parser α}
    (hfg : ∀ c, pre c → ParsersAgree (· = c) n d (f c) (g c)) :
    ParsersAgree pre n d (curSym >>= f) (curSym >>= g) := by
  refine agree_read (fun _ _ h => by rw [SameTokens.current h]) fun c s s' hs hpre => ?_
  exact hfg c (hpre.2 ▸ hpre.1) s s' hs hpre.2

theorem agree_curText {f g : String → Parser α}
    (hfg : ∀ text, ParsersAgree pre n d (f text) (g text)) :
    ParsersAgree pre n d (curText >>= f) (curText >>= g) := by
  refine agree_read (fun _ _ h => by rw [SameTokens.current h]) fun text s s' hs hpre => ?_
  exact hfg text s s' hs hpre.1

theorem agree_curToken {f g : Token → Parser α}
    (hfg : ∀ t, ParsersAgree pre n d (f t) (g t)) :
    ParsersAgree pre n d (curToken >>= f) (curToken >>= g) := by
  refine agree_read (fun _ _ h => SameTokens.current h) fun text s s' hs hpre => ?_
  exact hfg text s s' hs hpre.1

/-- Looking at the next one. -/
theorem agree_peek {f g : Symbol → Parser α} (hfg : ∀ c, ParsersAgree pre n d (f c) (g c)) :
    ParsersAgree pre n d (peek >>= f) (peek >>= g) := by
  refine agree_read (fun _ _ h => SameTokens.peek h) fun text s s' hs hpre => ?_
  exact hfg text s s' hs hpre.1

theorem agree_return (a : α) : ParsersAgree pre n 0 (pure a) (pure a) := agree_pure a

theorem agree_parseError {e : ParseError} (he : e ≠ .outOfFuel) :
    ParsersAgree pre n d (parseError e : Parser α) (parseError e) := agree_error he

/-- **Eating** a symbol that is not `NONE`. -/
theorem agree_eat (hpre : ∀ c, pre c → c ≠ .none) : ParsersAgree pre n 1 eat eat := by
  intro s s' hs hcur hsize
  have hsym := hpre _ hcur
  refine ⟨rfl, SameTokens.tail hs hsym, ?_⟩
  change (beforeNone s.tail).length + 1 ≤ (beforeNone s).length
  rw [beforeNone_tail hsym]
  exact Nat.le_refl _

theorem agree_isOneOf {ss : List Symbol} {f g : Bool → Parser α}
    (hpos : ParsersAgree (fun c => pre c ∧ c ∈ ss) n d (f true) (g true))
    (hneg : ParsersAgree (fun c => pre c ∧ c ∉ ss) n d (f false) (g false)) :
    ParsersAgree pre n d (isOneOf ss >>= f) (isOneOf ss >>= g) := by
  change ParsersAgree pre n d (curSym >>= fun c => f (decide (c ∈ ss)))
    (curSym >>= fun c => g (decide (c ∈ ss)))
  refine agree_curSym fun c hc => ?_
  by_cases hmem : c ∈ ss
  · rw [decide_eq_true hmem]
    exact hpos.imp fun c' hc' => by rw [hc']; exact ⟨hc, hmem⟩
  · rw [decide_eq_false hmem]
    exact hneg.imp fun c' hc' => by rw [hc']; exact ⟨hc, hmem⟩

/-- A symbol is consumed or not. -/
theorem agree_acceptOneOf {ss : List Symbol} {f g : Bool → Parser α} (hss : Symbol.none ∉ ss)
    (hpos : 1 ≤ n → ParsersAgree (fun _ => True) (n - 1) (d - 1) (f true) (g true))
    (hneg : ParsersAgree (fun c => pre c ∧ c ∉ ss) n d (f false) (g false)) :
    ParsersAgree pre n d (acceptOneOf ss >>= f) (acceptOneOf ss >>= g) := by
  have hrun (f : Bool → Parser α) : acceptOneOf ss >>= f =
      isOneOf ss >>= fun b => if b = true then eat >>= fun _ => f true else f false := by
    rw [acceptOneOf, bind_assoc]
    refine congrArg _ (funext fun b => ?_)
    cases b <;> rfl
  rw [hrun, hrun]
  have heat : ParsersAgree (fun c => pre c ∧ c ∈ ss) n 1 eat eat := agree_eat fun c hc hn =>
    hss (hn ▸ hc.2)
  exact agree_isOneOf (heat.then (fun _ h => hpos h) (by omega)) hneg

theorem agree_accept {sym : Symbol} {f g : Bool → Parser α} (hsym : sym ≠ .none)
    (hpos : 1 ≤ n → ParsersAgree (fun _ => True) (n - 1) (d - 1) (f true) (g true))
    (hneg : ParsersAgree (fun c => pre c ∧ c ≠ sym) n d (f false) (g false)) :
    ParsersAgree pre n d (accept sym >>= f) (accept sym >>= g) := by
  have hrun (f : Bool → Parser α) : accept sym >>= f =
      curSym >>= fun c => if c = sym then eat >>= fun _ => f true else f false := by
    rw [accept, bind_assoc]
    refine congrArg _ (funext fun c => ?_)
    by_cases hc : c = sym
    · rw [if_pos hc, if_pos hc]
      rfl
    · rw [if_neg hc, if_neg hc]
      rfl
  rw [hrun, hrun]
  refine agree_curSym fun c hc => ParsersAgree.ite (fun heq => ?_) fun hne => ?_
  · have heat : ParsersAgree (· = c) n 1 eat eat := agree_eat fun c' hc' => by
      rw [hc', heq]
      exact hsym
    exact heat.then (fun _ h => hpos h) (by omega)
  · exact hneg.imp fun c' hc' => by rw [hc']; exact ⟨hc, hne⟩

theorem agree_expectOneOf {ss : List Symbol} (hss : Symbol.none ∉ ss) :
    ParsersAgree pre n 1 (expectOneOf ss) (expectOneOf ss) :=
  agree_acceptOneOf hss (fun _ => agree_return ())
    (agree_curToken fun _ => agree_parseError nofun)

/-- A symbol is consumed, or the parser fails. -/
theorem agree_expect {sym : Symbol} (hsym : sym ≠ .none) :
    ParsersAgree pre n 1 (expect sym) (expect sym) :=
  agree_accept hsym (fun _ => agree_return ()) (agree_curToken fun _ => agree_parseError nofun)

end Rules

/-! ## Numbers, selectors and literals -/

section Literals

variable {n d : ℕ} {pre : Symbol → Prop} {strtod : String → Option (BitVec 64)}

/-- A text and a symbol that is expected. -/
theorem agree_textOf {α : Type} {p : Parser Unit} (hp : ∀ pre, ParsersAgree pre n 1 p p)
    (v : String → α) :
    ParsersAgree pre n 1 (curText >>= fun text => p >>= fun _ => pure (v text))
      (curText >>= fun text => p >>= fun _ => pure (v text)) :=
  agree_curText fun _ => (hp pre).then (fun _ _ => agree_return _) (Nat.le_refl _)

theorem agree_readInteger (str : String) (shouldNegate : Bool) :
    ParsersAgree pre n 0 (readInteger str shouldNegate) (readInteger str shouldNegate) := by
  rw [readInteger]
  exact ParsersAgree.ite (fun _ => agree_return _) fun _ => agree_parseError nofun

theorem agree_parseInteger (shouldNegate : Bool) :
    ParsersAgree pre n 1 (parseInteger shouldNegate) (parseInteger shouldNegate) :=
  agree_curText fun text => (agree_readInteger text shouldNegate).then
    (fun _ _ => (agree_expect (by decide)).then (fun _ _ => agree_return _) (Nat.le_refl _))
    (Nat.le_refl _)

theorem agree_parseDouble (shouldNegate : Bool) :
    ParsersAgree pre n 1 (parseDouble strtod shouldNegate) (parseDouble strtod shouldNegate) := by
  refine agree_curText fun text => ?_
  cases strtod text with
  | none => exact agree_parseError nofun
  | some d => exact (agree_expect (by decide)).then (fun _ _ => agree_return _) (Nat.le_refl _)

theorem agree_parseUnsigned (shouldNegate : Bool) :
    ParsersAgree pre n 1 (parseUnsigned strtod shouldNegate) (parseUnsigned strtod shouldNegate) :=
  agree_curSym fun _ _ => ParsersAgree.ite (fun _ => agree_parseInteger _) fun _ =>
    agree_parseDouble _

theorem agree_parseNumber : ParsersAgree pre n 1 (parseNumber strtod) (parseNumber strtod) := by
  refine agree_curSym fun c _ => ParsersAgree.ite (fun hminus => ?_) fun _ => agree_parseUnsigned _
  have heat : ParsersAgree (· = c) n 1 eat eat := agree_eat fun c' hc' => by
    rw [hc', hminus]
    nofun
  exact heat.then (fun _ _ => agree_parseUnsigned true) (Nat.le_succ _)

theorem none_notMem_identOrPrimitiveSyms : Symbol.none ∉ identOrPrimitiveSyms := by decide

theorem agree_parseString : ParsersAgree pre n 1 parseString parseString :=
  agree_textOf (fun _ => agree_expect (by decide)) _

theorem agree_parseUnarySelector : ParsersAgree pre n 1 parseUnarySelector parseUnarySelector :=
  agree_textOf (fun _ => agree_expectOneOf none_notMem_identOrPrimitiveSyms) id

theorem agree_parseVariable : ParsersAgree pre n 1 parseVariable parseVariable :=
  agree_textOf (fun _ => agree_expectOneOf none_notMem_identOrPrimitiveSyms) id

theorem agree_parseKeyword : ParsersAgree pre n 1 parseKeyword parseKeyword :=
  agree_textOf (fun _ => agree_expect (by decide)) id

theorem agree_parseKeywordSelector :
    ParsersAgree pre n 1 parseKeywordSelector parseKeywordSelector :=
  agree_textOf (fun _ => agree_expectOneOf (by decide)) id

/-- `ParseBinarySelector` eats a `NONE` where it finds one; it is only called at an operator. -/
theorem agree_parseBinarySelector
    (hpre : ∀ c, pre c → c ∈ singleOpSyms ∨ c = .operatorSequence) :
    ParsersAgree pre n 1 parseBinarySelector parseBinarySelector := by
  refine agree_curText fun text => agree_acceptOneOf (by decide) (fun _ => agree_return _) ?_
  refine agree_accept (by decide) (fun _ => agree_return _) ?_
  intro s s' _ hcur
  rcases hpre _ hcur.1.1 with hop | hop
  · exact absurd hop hcur.1.2
  · exact absurd hop hcur.2

theorem agree_parseSelector : ParsersAgree pre n 1 parseSelector parseSelector := by
  refine agree_curSym fun c _ => ParsersAgree.ite (fun hop => ?_) fun _ => ?_
  · exact agree_parseBinarySelector fun c' hc' => .inr (hc'.trans hop)
  · refine agree_isOneOf (agree_parseBinarySelector fun _ h => .inl h.2) ?_
    exact agree_isOneOf agree_parseKeywordSelector agree_parseUnarySelector

theorem agree_parseSymbol : ParsersAgree pre n 1 parseSymbol parseSymbol := by
  refine (agree_expect (by decide)).then (k := 0) (fun _ _ => ?_) (Nat.le_refl _)
  refine agree_curSym fun c _ => ParsersAgree.ite (fun _ => ?_) fun _ => ?_
  · exact (agree_textOf (fun _ => agree_expect (by decide)) _).weaken (Nat.zero_le _)
  · exact agree_parseSelector.then (fun _ _ => agree_return _) (Nat.zero_le _)

/-! ## Recursive functions

The fuel that is asked for is a multiple of the number of tokens, with a rank for the functions that
call each other without consuming any. -/

/-- A function run with two amounts of fuel agrees, both being enough for the size: eight rounds for
each token before `NONE`, and `r` more.  It consumes at least `d` tokens. -/
def FuelAgree {α : Type} (r d f f' : ℕ) (p q : Parser α) : Prop :=
  ∀ n pre, 8 * n + r ≤ f → 8 * n + r ≤ f' → ParsersAgree pre n d p q

/-- Without fuel there are no tokens left to parse. -/
theorem fuelAgree_zero_left {α : Type} {r f' : ℕ} {p q : Parser α} (hr : 0 < r) :
    FuelAgree r d 0 f' p q :=
  fun _ _ h => absurd h (by omega)

theorem fuelAgree_zero_right {α : Type} {r f : ℕ} {p q : Parser α} (hr : 0 < r) :
    FuelAgree r d f 0 p q :=
  fun _ _ _ h => absurd h (by omega)

/-- The functions that read literals. -/
structure LiteralsAgree (strtod : String → Option (BitVec 64)) (f f' : ℕ) : Prop where
  literal : FuelAgree 2 1 f f' (parseLiteral strtod f) (parseLiteral strtod f')
  array : FuelAgree 1 1 f f' (parseArray strtod f) (parseArray strtod f')
  elements : FuelAgree 3 0 f f' (parseElements strtod f) (parseElements strtod f')

section Step

variable {f f' : ℕ} (ih : LiteralsAgree strtod f f')

include ih

theorem LiteralsAgree.literal_succ : FuelAgree 2 1 (f + 1) (f' + 1)
    (parseLiteral strtod (f + 1)) (parseLiteral strtod (f' + 1)) := by
  intro n pre h h'
  rw [parseLiteral, parseLiteral]
  refine agree_curSym fun c _ => ParsersAgree.ite (fun _ => ?_) fun _ => ?_
  · refine agree_peek fun _ => ParsersAgree.ite (fun _ => ?_) fun _ => agree_parseSymbol
    exact ih.array n _ (by omega) (by omega)
  · exact agree_curSym fun _ _ => ParsersAgree.ite (fun _ => agree_parseString) fun _ =>
      agree_parseNumber

theorem LiteralsAgree.array_succ : FuelAgree 1 1 (f + 1) (f' + 1)
    (parseArray strtod (f + 1)) (parseArray strtod (f' + 1)) := by
  intro n pre h h'
  rw [parseArray, parseArray]
  refine (agree_expect (by decide)).then (k := 0) (fun _ hn => ?_) (Nat.le_refl _)
  refine (agree_expect (by decide)).then (k := 0) (fun _ hn' => ?_) (Nat.zero_le _)
  refine (ih.elements _ _ (by omega) (by omega)).then (k := 1) (fun _ _ => ?_) (Nat.zero_le _)
  exact (agree_expect (by decide)).then (fun _ _ => agree_return _) (Nat.le_refl _)

theorem LiteralsAgree.elements_succ : FuelAgree 3 0 (f + 1) (f' + 1)
    (parseElements strtod (f + 1)) (parseElements strtod (f' + 1)) := by
  intro n pre h h'
  rw [parseElements, parseElements]
  refine agree_curSym fun c _ => ParsersAgree.ite (fun _ => agree_return _) fun _ => ?_
  refine (ih.literal n _ (by omega) (by omega)).then (k := 0) (fun _ hn => ?_) (Nat.zero_le _)
  refine (ih.elements _ _ (by omega) (by omega)).then (fun _ _ => agree_return _) (Nat.le_refl _)

end Step

/-- The functions for literals agree, by induction on the fuel. -/
theorem literalsAgree (strtod : String → Option (BitVec 64)) (f f' : ℕ) :
    LiteralsAgree strtod f f' := by
  induction f generalizing f' with
  | zero => exact ⟨fuelAgree_zero_left (by decide), fuelAgree_zero_left (by decide),
      fuelAgree_zero_left (by decide)⟩
  | succ f ih =>
      cases f' with
      | zero => exact ⟨fuelAgree_zero_right (by decide), fuelAgree_zero_right (by decide),
          fuelAgree_zero_right (by decide)⟩
      | succ f' => exact ⟨(ih f').literal_succ, (ih f').array_succ, (ih f').elements_succ⟩

end Literals

/-! ## Loops over names -/

section Loops

variable {n d : ℕ} {pre : Symbol → Prop}

/-- A loop, from its rounds. -/
theorem fuelAgree_of_succ {α β : Type} {r : ℕ} {p : ℕ → β → Parser α} (hr : 0 < r)
    (hsucc : ∀ f f', (∀ b, FuelAgree r d f f' (p f b) (p f' b)) →
      ∀ b, FuelAgree r d (f + 1) (f' + 1) (p (f + 1) b) (p (f' + 1) b))
    (f f' : ℕ) (b : β) : FuelAgree r d f f' (p f b) (p f' b) := by
  induction f generalizing f' b with
  | zero => exact fuelAgree_zero_left hr
  | succ f ih =>
      cases f' with
      | zero => exact fuelAgree_zero_right hr
      | succ f' => exact hsucc f f' (ih f') b

/-- The loop over the parameters. -/
theorem agree_parseParameters (f f' : ℕ) (args : List String) :
    FuelAgree 1 1 f f' (parseParameters f args) (parseParameters f' args) := by
  refine fuelAgree_of_succ (by decide) (fun f f' ih args n pre h h' => ?_) f f' args
  rw [parseParameters, parseParameters]
  refine (agree_expect (by decide)).then (k := 0) (fun _ hn => ?_) (Nat.le_refl _)
  refine agree_parseVariable.then (k := 0) (fun argName _ => ?_) (Nat.zero_le _)
  refine ParsersAgree.ite (fun _ => agree_parseError nofun) fun _ => ?_
  refine agree_curSym fun _ _ => ParsersAgree.ite (fun _ => ?_) fun _ => agree_return _
  exact (ih _ _ _ (by omega) (by omega)).then (fun _ _ => agree_return _) (Nat.zero_le _)

theorem agree_parseLocalNames (f f' : ℕ) (args : List String) :
    FuelAgree 1 0 f f' (parseLocalNames f args) (parseLocalNames f' args) := by
  refine fuelAgree_of_succ (by decide) (fun f f' ih args n pre h h' => ?_) f f' args
  rw [parseLocalNames, parseLocalNames]
  refine agree_isOneOf ?_ (agree_return _)
  refine agree_parseVariable.then (k := 0) (fun argName _ => ?_) (Nat.zero_le _)
  refine ParsersAgree.ite (fun _ => agree_parseError nofun) fun _ => ?_
  exact (ih _ _ _ (by omega) (by omega)).then (fun _ _ => agree_return _) (Nat.zero_le _)

/-- The locals of a block. -/
theorem agree_parseLocals (f f' : ℕ) : FuelAgree 1 0 f f' (parseLocals f) (parseLocals f') := by
  intro n pre h h'
  refine agree_accept (by decide) (fun _ => ?_) (agree_return _)
  refine (agree_parseLocalNames f f' [] _ _ (by omega) (by omega)).then (k := 1) (fun _ _ => ?_)
    (Nat.zero_le _)
  exact (agree_expect (by decide)).then (fun _ _ => agree_return _) (Nat.le_refl _)

/-- The loop over the assignments. -/
theorem agree_parseAssignments (f f' : ℕ) :
    FuelAgree 1 0 f f' (parseAssignments f) (parseAssignments f') := by
  refine fuelAgree_of_succ (p := fun f (_ : Unit) => parseAssignments f) (by decide)
    (fun f f' ih _ n pre h h' => ?_) f f' ()
  rw [parseAssignments, parseAssignments]
  refine agree_isOneOf ?_ (agree_return _)
  refine agree_parseVariable.then (k := 0) (fun name _ => ?_) (Nat.zero_le _)
  refine (agree_expect (by decide)).then (k := 0) (fun _ _ => ?_) (Nat.zero_le _)
  refine agree_peek fun _ => ParsersAgree.ite (fun _ => ?_) fun _ => agree_return _
  exact (ih () _ _ (by omega) (by omega)).then (fun _ _ => agree_return _) (Nat.zero_le _)

theorem agree_parseUnaryMessages (f f' : ℕ) (primary : AstExpr) :
    FuelAgree 1 0 f f' (parseUnaryMessages f primary) (parseUnaryMessages f' primary) := by
  refine fuelAgree_of_succ (by decide) (fun f f' ih primary n pre h h' => ?_) f f' primary
  rw [parseUnaryMessages, parseUnaryMessages]
  refine agree_isOneOf ?_ (agree_return _)
  refine agree_parseUnarySelector.then (k := 0) (fun selector _ => ?_) (Nat.zero_le _)
  exact ih _ _ _ (by omega) (by omega)

/-- Looking for an operator. -/
theorem agree_atBinarySelector {α : Type} {f g : Bool → Parser α}
    (hpos : ParsersAgree (fun c => c ∈ singleOpSyms ∨ c = .operatorSequence) n d (f true) (g true))
    (hneg : ParsersAgree pre n d (f false) (g false)) :
    ParsersAgree pre n d (atBinarySelector >>= f) (atBinarySelector >>= g) := by
  have hrun (f : Bool → Parser α) : atBinarySelector >>= f = curSym >>= fun c =>
      if c = .operatorSequence then f true else isOneOf binaryOpSyms >>= f := by
    rw [atBinarySelector, bind_assoc]
    refine congrArg _ (funext fun c => ?_)
    by_cases hc : c = .operatorSequence
    · rw [if_pos hc, if_pos hc]
      rfl
    · rw [if_neg hc, if_neg hc]
  rw [hrun, hrun]
  refine agree_curSym fun c hc => ParsersAgree.ite (fun hop => ?_) fun _ => agree_isOneOf ?_ ?_
  · exact hpos.imp fun c' hc' => .inr (hc'.trans hop)
  · refine hpos.imp fun c' hc' => .inl ?_
    exact (show ∀ c ∈ binaryOpSyms, c ∈ singleOpSyms by decide) c' hc'.2
  · exact hneg.imp fun c' hc' => by rw [hc'.1]; exact hc

end Loops

/-! ## Expressions

One lemma for each function of the grammar, with its rank. -/

section Expressions

variable {n d : ℕ} {pre : Symbol → Prop} {strtod : String → Option (BitVec 64)}

/-- The functions that read expressions. -/
structure ExprsAgree (strtod : String → Option (BitVec 64)) (f f' : ℕ) : Prop where
  expr : FuelAgree 6 1 f f' (parseExpr strtod f) (parseExpr strtod f')
  assignation : FuelAgree 5 1 f f' (parseAssignation strtod f) (parseAssignation strtod f')
  evaluation : FuelAgree 4 1 f f' (parseEvaluation strtod f) (parseEvaluation strtod f')
  primary : FuelAgree 3 1 f f' (parsePrimary strtod f) (parsePrimary strtod f')
  nestedTerm : FuelAgree 1 1 f f' (parseNestedTerm strtod f) (parseNestedTerm strtod f')
  nestedBlock : FuelAgree 1 1 f f' (parseNestedBlock strtod f) (parseNestedBlock strtod f')
  blockExprs : FuelAgree 7 0 f f' (parseBlockExprs strtod f) (parseBlockExprs strtod f')
  binaryOperand : FuelAgree 4 1 f f' (parseBinaryOperand strtod f) (parseBinaryOperand strtod f')
  binaryMessages (e : AstExpr) :
    FuelAgree 1 0 f f' (parseBinaryMessages strtod f e) (parseBinaryMessages strtod f' e)
  keywordMessageOperand : FuelAgree 5 1 f f' (parseKeywordMessageOperand strtod f)
    (parseKeywordMessageOperand strtod f')
  keywordMessage (e : AstExpr) :
    FuelAgree 2 1 f f' (parseKeywordMessage strtod f e) (parseKeywordMessage strtod f' e)
  keywordParts : FuelAgree 1 1 f f' (parseKeywordParts strtod f) (parseKeywordParts strtod f')

namespace ExprsAgree

variable {f f' : ℕ} (ih : ExprsAgree strtod f f')

include ih

theorem expr_succ : FuelAgree 6 1 (f + 1) (f' + 1)
    (parseExpr strtod (f + 1)) (parseExpr strtod (f' + 1)) := by
  intro n pre h h'
  rw [parseExpr, parseExpr]
  refine agree_peek fun _ => ParsersAgree.ite (fun _ => ?_) fun _ => ?_
  · exact ih.assignation n _ (by omega) (by omega)
  · exact ih.evaluation n _ (by omega) (by omega)

theorem assignation_succ : FuelAgree 5 1 (f + 1) (f' + 1)
    (parseAssignation strtod (f + 1)) (parseAssignation strtod (f' + 1)) := by
  intro n pre h h'
  rw [parseAssignation, parseAssignation]
  refine (agree_parseAssignments f f' n _ (by omega) (by omega)).then (k := 1) (fun _ _ => ?_)
    (Nat.le_refl _)
  exact (ih.evaluation _ _ (by omega) (by omega)).then (fun _ _ => agree_return _) (Nat.le_refl _)

theorem evaluation_succ : FuelAgree 4 1 (f + 1) (f' + 1)
    (parseEvaluation strtod (f + 1)) (parseEvaluation strtod (f' + 1)) := by
  intro n pre h h'
  rw [parseEvaluation, parseEvaluation]
  refine (ih.primary n _ (by omega) (by omega)).then (k := 0) (fun e hn => ?_) (Nat.le_refl _)
  refine (agree_parseUnaryMessages f f' e _ _ (by omega) (by omega)).then (k := 0) (fun e _ => ?_)
    (Nat.le_refl _)
  refine (ih.binaryMessages e _ _ (by omega) (by omega)).then (k := 0) (fun e _ => ?_)
    (Nat.le_refl _)
  refine agree_curSym fun _ _ => ParsersAgree.ite (fun _ => ?_) fun _ => agree_return _
  exact (ih.keywordMessage e _ _ (by omega) (by omega)).weaken (Nat.zero_le _)

theorem primary_succ : FuelAgree 3 1 (f + 1) (f' + 1)
    (parsePrimary strtod (f + 1)) (parsePrimary strtod (f' + 1)) := by
  intro n pre h h'
  rw [parsePrimary, parsePrimary]
  refine agree_isOneOf (agree_parseVariable.then (fun _ _ => agree_return _) (Nat.le_refl _)) ?_
  refine agree_curSym fun _ _ => ParsersAgree.ite (fun _ => ?_) fun _ => ?_
  · exact ih.nestedTerm n _ (by omega) (by omega)
  refine agree_curSym fun _ _ => ParsersAgree.ite (fun _ => ?_) fun _ => ?_
  · exact ih.nestedBlock n _ (by omega) (by omega)
  exact ((literalsAgree strtod f f').literal n _ (by omega) (by omega)).then
    (fun _ _ => agree_return _) (Nat.le_refl _)

theorem nestedTerm_succ : FuelAgree 1 1 (f + 1) (f' + 1)
    (parseNestedTerm strtod (f + 1)) (parseNestedTerm strtod (f' + 1)) := by
  intro n pre h h'
  rw [parseNestedTerm, parseNestedTerm]
  refine (agree_expect (by decide)).then (k := 0) (fun _ hn => ?_) (Nat.le_refl _)
  refine (ih.expr _ _ (by omega) (by omega)).then (k := 0) (fun _ _ => ?_) (Nat.zero_le _)
  exact (agree_expect (by decide)).then (fun _ _ => agree_return _) (Nat.zero_le _)

theorem nestedBlock_succ : FuelAgree 1 1 (f + 1) (f' + 1)
    (parseNestedBlock strtod (f + 1)) (parseNestedBlock strtod (f' + 1)) := by
  intro n pre h h'
  rw [parseNestedBlock, parseNestedBlock]
  refine (agree_expect (by decide)).then (k := 0) (fun _ hn => ?_) (Nat.le_refl _)
  have hrest (params : List String) {m : ℕ} (hm : m ≤ n - 1) : ParsersAgree (fun _ => True) m 0
      (parseLocals f >>= fun locals => parseBlockExprs strtod f >>= fun body =>
        expect .endBlock >>= fun _ => pure (AstExpr.nestedBlock params locals body))
      (parseLocals f' >>= fun locals => parseBlockExprs strtod f' >>= fun body =>
        expect .endBlock >>= fun _ => pure (AstExpr.nestedBlock params locals body)) := by
    refine (agree_parseLocals f f' m _ (by omega) (by omega)).then (k := 0) (fun _ _ => ?_)
      (Nat.le_refl _)
    refine (ih.blockExprs _ _ (by omega) (by omega)).then (k := 0) (fun _ _ => ?_) (Nat.le_refl _)
    exact (agree_expect (by decide)).then (fun _ _ => agree_return _) (Nat.zero_le _)
  refine agree_curSym fun c _ => ParsersAgree.ite (fun _ => ?_) fun _ => ?_
  · refine (agree_parseParameters f f' [] _ _ (by omega) (by omega)).then (k := 0)
      (fun params _ => ?_)
      (Nat.zero_le _)
    refine (agree_expect (by decide)).then (k := 0) (fun _ _ => ?_) (Nat.zero_le _)
    exact hrest params (by omega)
  · exact (hrest [] (Nat.le_refl _)).imp fun _ _ => trivial

theorem blockExprs_succ : FuelAgree 7 0 (f + 1) (f' + 1)
    (parseBlockExprs strtod (f + 1)) (parseBlockExprs strtod (f' + 1)) := by
  intro n pre h h'
  rw [parseBlockExprs, parseBlockExprs]
  refine agree_curSym fun _ _ => ParsersAgree.ite (fun _ => agree_return _) fun _ => ?_
  refine agree_curSym fun _ _ => ParsersAgree.ite (fun _ => agree_return _) fun _ => ?_
  refine agree_accept (by decide) (fun hn => ?_) ?_
  · refine (ih.expr _ _ (by omega) (by omega)).then (k := 0) (fun _ _ => ?_) (Nat.zero_le _)
    exact agree_accept (by decide) (fun _ => agree_return _) (agree_return _)
  · refine (ih.expr n _ (by omega) (by omega)).then (k := 0) (fun _ hn => ?_) (Nat.zero_le _)
    refine agree_accept (by decide) (fun _ => ?_) (agree_return _)
    exact (ih.blockExprs _ _ (by omega) (by omega)).then (fun _ _ => agree_return _) (Nat.le_refl _)

theorem binaryOperand_succ : FuelAgree 4 1 (f + 1) (f' + 1)
    (parseBinaryOperand strtod (f + 1)) (parseBinaryOperand strtod (f' + 1)) := by
  intro n pre h h'
  rw [parseBinaryOperand, parseBinaryOperand]
  refine (ih.primary n _ (by omega) (by omega)).then (k := 0) (fun e _ => ?_) (Nat.le_refl _)
  exact agree_parseUnaryMessages f f' e _ _ (by omega) (by omega)

theorem binaryMessages_succ (e : AstExpr) : FuelAgree 1 0 (f + 1) (f' + 1)
    (parseBinaryMessages strtod (f + 1) e) (parseBinaryMessages strtod (f' + 1) e) := by
  intro n pre h h'
  rw [parseBinaryMessages, parseBinaryMessages]
  refine agree_atBinarySelector ?_ (agree_return _)
  refine (agree_parseBinarySelector fun _ => id).then (k := 0) (fun selector hn => ?_)
    (Nat.zero_le _)
  refine (ih.binaryOperand _ _ (by omega) (by omega)).then (k := 0) (fun op _ => ?_) (Nat.zero_le _)
  exact ih.binaryMessages _ _ _ (by omega) (by omega)

theorem keywordMessageOperand_succ : FuelAgree 5 1 (f + 1) (f' + 1)
    (parseKeywordMessageOperand strtod (f + 1)) (parseKeywordMessageOperand strtod (f' + 1)) := by
  intro n pre h h'
  rw [parseKeywordMessageOperand, parseKeywordMessageOperand]
  refine (ih.binaryOperand n _ (by omega) (by omega)).then (k := 0) (fun op _ => ?_) (Nat.le_refl _)
  exact ih.binaryMessages _ _ _ (by omega) (by omega)

theorem keywordMessage_succ (e : AstExpr) : FuelAgree 2 1 (f + 1) (f' + 1)
    (parseKeywordMessage strtod (f + 1) e) (parseKeywordMessage strtod (f' + 1) e) := by
  intro n pre h h'
  rw [parseKeywordMessage, parseKeywordMessage]
  exact (ih.keywordParts n _ (by omega) (by omega)).then (fun _ _ => agree_return _) (Nat.le_refl _)

theorem keywordParts_succ : FuelAgree 1 1 (f + 1) (f' + 1)
    (parseKeywordParts strtod (f + 1)) (parseKeywordParts strtod (f' + 1)) := by
  intro n pre h h'
  rw [parseKeywordParts, parseKeywordParts]
  refine agree_parseKeyword.then (k := 0) (fun kw hn => ?_) (Nat.le_refl _)
  refine (ih.keywordMessageOperand _ _ (by omega) (by omega)).then (k := 0) (fun argument _ => ?_)
    (Nat.zero_le _)
  refine agree_curSym fun _ _ => ParsersAgree.ite (fun _ => ?_) fun _ => agree_return _
  exact (ih.keywordParts _ _ (by omega) (by omega)).then (fun _ _ => agree_return _) (Nat.zero_le _)

end ExprsAgree

/-- The functions for expressions agree, by induction on the fuel. -/
theorem exprsAgree (strtod : String → Option (BitVec 64)) (f f' : ℕ) : ExprsAgree strtod f f' := by
  induction f generalizing f' with
  | zero => constructor <;> intros <;> exact fuelAgree_zero_left (by decide)
  | succ f ih =>
      cases f' with
      | zero => constructor <;> intros <;> exact fuelAgree_zero_right (by decide)
      | succ f' =>
          have h := ih f'
          exact ⟨h.expr_succ, h.assignation_succ, h.evaluation_succ, h.primary_succ,
            h.nestedTerm_succ,
            h.nestedBlock_succ, h.blockExprs_succ, h.binaryOperand_succ, h.binaryMessages_succ,
            h.keywordMessageOperand_succ, h.keywordMessage_succ, h.keywordParts_succ⟩

end Expressions

/-! ## Methods and classes -/

section Classes

variable {n d : ℕ} {pre : Symbol → Prop} (strtod : String → Option (BitVec 64))

theorem agree_parseKeywordPatternParts (f f' : ℕ) :
    FuelAgree 1 1 f f' (parseKeywordPatternParts f) (parseKeywordPatternParts f') := by
  refine fuelAgree_of_succ (p := fun f (_ : Unit) => parseKeywordPatternParts f) (by decide)
    (fun f f' ih _ n pre h h' => ?_) f f' ()
  rw [parseKeywordPatternParts, parseKeywordPatternParts]
  refine agree_parseKeyword.then (k := 0) (fun kw _ => ?_) (Nat.le_refl _)
  refine agree_parseVariable.then (k := 0) (fun param _ => ?_) (Nat.zero_le _)
  refine agree_curSym fun _ _ => ParsersAgree.ite (fun _ => ?_) fun _ => agree_return _
  exact (ih () _ _ (by omega) (by omega)).then (fun _ _ => agree_return _) (Nat.zero_le _)

/-- The symbols at which `ParseMethods` reads a method. -/
def startsMethod (c : Symbol) : Prop :=
  c ∈ identOrPrimitiveSyms ∨ c = .keyword ∨ c ∈ singleOpSyms ∨ c = .operatorSequence

theorem agree_parseMethodPattern (f f' : ℕ) (h : 8 * n + 1 ≤ f) (h' : 8 * n + 1 ≤ f') :
    ParsersAgree startsMethod n 1 (parseMethodPattern f) (parseMethodPattern f') := by
  refine agree_isOneOf ?_ ?_
  · exact agree_parseUnarySelector.then (fun _ _ => agree_return _) (Nat.le_refl _)
  refine agree_curSym fun c hc => ParsersAgree.ite (fun _ => ?_) fun hkw => ?_
  · exact (agree_parseKeywordPatternParts f f' n _ h h').then (fun _ _ => agree_return _)
      (Nat.le_refl _)
  have hop : c ∈ singleOpSyms ∨ c = .operatorSequence := by
    rcases hc with ⟨hident | hkeyword | hop, hno⟩
    · exact absurd hident hno
    · exact absurd hkeyword hkw
    · exact hop
  refine (agree_parseBinarySelector fun c' hc' => by rw [hc']; exact hop).then (k := 0)
    (fun _ _ => ?_)
    (Nat.le_refl _)
  exact agree_parseVariable.then (fun _ _ => agree_return _) (Nat.zero_le _)

theorem agree_parseMethodBody (f f' : ℕ) :
    FuelAgree 1 1 f f' (parseMethodBody strtod f) (parseMethodBody strtod f') := by
  intro n pre h h'
  refine (agree_expect (by decide)).then (k := 0) (fun _ hn => ?_) (Nat.le_refl _)
  refine (agree_parseLocals f f' _ _ (by omega) (by omega)).then (k := 0) (fun _ _ => ?_)
    (Nat.le_refl _)
  refine ((exprsAgree strtod f f').blockExprs _ _ (by omega) (by omega)).then (k := 0)
    (fun _ _ => ?_)
    (Nat.le_refl _)
  exact (agree_expect (by decide)).then (fun _ _ => agree_return _) (Nat.zero_le _)

theorem agree_parseMethod (f f' : ℕ) (h : 8 * n + 1 ≤ f) (h' : 8 * n + 1 ≤ f') :
    ParsersAgree startsMethod n 1 (parseMethod strtod f) (parseMethod strtod f') := by
  refine (agree_parseMethodPattern f f' h h').then (k := 0) (fun pattern _ => ?_) (Nat.le_refl _)
  refine (agree_expect (by decide)).then (k := 0) (fun _ _ => ?_) (Nat.zero_le _)
  refine agree_accept (by decide) (fun _ => agree_return _) ?_
  exact (agree_parseMethodBody strtod f f' _ _ (by omega) (by omega)).then
    (fun _ _ => agree_return _)
    (Nat.zero_le _)

/-- Looking for a method. -/
theorem agree_atMethodPattern {α : Type} {f g : Bool → Parser α}
    (hpos : ParsersAgree startsMethod n d (f true) (g true))
    (hneg : ParsersAgree pre n d (f false) (g false)) :
    ParsersAgree pre n d (atMethodPattern >>= f) (atMethodPattern >>= g) := by
  have hrun (f : Bool → Parser α) :
    atMethodPattern >>= f = isOneOf identOrPrimitiveSyms >>= fun b =>
      if b = true then f true
      else curSym >>= fun c => if c = .keyword then f true else atBinarySelector >>= f := by
    rw [atMethodPattern, bind_assoc]
    refine congrArg _ (funext fun b => ?_)
    cases b with
    | true => rfl
    | false =>
        rw [if_neg Bool.false_ne_true, if_neg Bool.false_ne_true, bind_assoc]
        refine congrArg _ (funext fun c => ?_)
        by_cases hc : c = .keyword
        · rw [if_pos hc, if_pos hc]
          rfl
        · rw [if_neg hc, if_neg hc]
  rw [hrun, hrun]
  refine agree_isOneOf (hpos.imp fun _ hc => .inl hc.2) ?_
  refine agree_curSym fun c hc => ParsersAgree.ite (fun hkw => ?_) fun _ =>
    agree_atBinarySelector ?_ ?_
  · exact hpos.imp fun c' hc' => .inr (.inl (hc'.trans hkw))
  · exact hpos.imp fun c' hc' => .inr (.inr hc')
  · exact hneg.imp fun c' hc' => by rw [hc']; exact hc.1

/-- The loop over the methods. -/
theorem agree_parseMethods (f f' : ℕ) :
    FuelAgree 2 0 f f' (parseMethods strtod f) (parseMethods strtod f') := by
  refine fuelAgree_of_succ (p := fun f (_ : Unit) => parseMethods strtod f) (by decide)
    (fun f f' ih _ n pre h h' => ?_) f f' ()
  rw [parseMethods, parseMethods]
  refine agree_atMethodPattern ?_ (agree_return _)
  refine (agree_parseMethod strtod f f' (by omega) (by omega)).then (k := 0) (fun method _ => ?_)
    (Nat.zero_le _)
  exact (ih () _ _ (by omega) (by omega)).then (fun _ _ => agree_return _) (Nat.le_refl _)

theorem agree_parseSide (f f' : ℕ) : FuelAgree 2 0 f f' (parseSide strtod f)
    (parseSide strtod f') := by
  intro n pre h h'
  refine (agree_parseLocals f f' n _ (by omega) (by omega)).then (k := 0) (fun _ _ => ?_)
    (Nat.le_refl _)
  exact (agree_parseMethods strtod f f' _ _ (by omega) (by omega)).then (fun _ _ => agree_return _)
    (Nat.le_refl _)

theorem agree_parseClassName : ParsersAgree pre n 1 parseClassName parseClassName := by
  refine agree_curText fun name =>
    (agree_expect (by decide)).then (k := 0) (fun _ _ => ?_) (Nat.le_refl _)
  exact (agree_expect (by decide)).then (fun _ _ => agree_return _) (Nat.zero_le _)

theorem agree_superClassName : ParsersAgree pre n 0 superClassName superClassName :=
  agree_curSym fun _ _ => ParsersAgree.ite (fun _ => agree_curText fun _ => agree_return _)
    fun _ => agree_return _

theorem agree_parseClassHeader : ParsersAgree pre n 0 parseClassHeader parseClassHeader := by
  refine agree_parseClassName.then (k := 0) (fun name _ => ?_) (Nat.zero_le _)
  exact agree_superClassName.then (fun _ _ => agree_return _) (Nat.le_refl _)

theorem agree_parseClassSides (f f' : ℕ) (name : String) (superClass : Option String) :
    FuelAgree 2 0 f f' (parseClassSides strtod f name superClass)
      (parseClassSides strtod f' name superClass) := by
  intro n pre h h'
  refine (agree_expect (by decide)).then (k := 0) (fun _ _ => ?_) (Nat.zero_le _)
  refine (agree_parseSide strtod f f' _ _ (by omega) (by omega)).then (k := 0) (fun side _ => ?_)
    (Nat.zero_le _)
  refine agree_accept (by decide) (fun _ => ?_) ?_
  · refine (agree_parseSide strtod f f' _ _ (by omega) (by omega)).then (k := 0) (fun side' _ => ?_)
      (Nat.zero_le _)
    exact (agree_expect (by decide)).then (fun _ _ => agree_return _) (Nat.zero_le _)
  · exact (agree_expect (by decide)).then (fun _ _ => agree_return _) (Nat.zero_le _)

/-- What follows the header of a class. -/
theorem agree_parseClassBody (f f' : ℕ) (name : String) (superClass : Option String) :
    FuelAgree 2 0 f f' (parseClassBody strtod f name superClass)
      (parseClassBody strtod f' name superClass) := by
  intro n pre h h'
  refine agree_curSym fun c _ => ParsersAgree.ite (fun _ => ?_) fun _ => ?_
  · refine (agree_expect (by decide)).then (k := 0) (fun _ _ => ?_) (Nat.zero_le _)
    exact agree_parseClassSides strtod f f' name superClass _ _ (by omega) (by omega)
  · exact agree_parseClassSides strtod f f' name superClass _ _ (by omega) (by omega)

/-- **`ParseClass` terminates**, and its result does not depend on what follows a `NONE`. -/
theorem agree_parseClass (f f' : ℕ) :
    FuelAgree 2 0 f f' (parseClass strtod f) (parseClass strtod f') := by
  intro n pre h h'
  refine agree_parseClassHeader.then (k := 0) (fun header _ => ?_) (Nat.le_refl _)
  exact agree_parseClassBody strtod f f' header.1 header.2 _ _ (by omega) (by omega)

end Classes

end Dsom
