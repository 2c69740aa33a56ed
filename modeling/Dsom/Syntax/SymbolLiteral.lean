import Dsom.Syntax.FrontEnd

/-!
# Syntax/SymbolLiteral — symbol literals and selectors

A selector is put together from tokens: an identifier, an operator, or the parts of a keyword
message. A literal such as `#at:put:` is one token after the `#`, and the lexer has a scan of its
own for the parts after the first, which takes letters only.  A literal denotes its selector
exactly when no other characters stand after the first colon (`symbolLiteral_iff`).
-/

namespace Dsom

/-! ## The tokens of selectors

A selector is the text of a token, or of several keywords one behind the other. -/

/-- The lexer delivers a token of one of these kinds with this text, on some input. -/
def TokenText (syms : List Symbol) (w : List Char) : Prop :=
  ∃ text n fuel sym, text.length + 3 ≤ fuel ∧ sym ∈ syms ∧
    ⟨sym, String.ofList w⟩ ∈ delivered fuel (List.replicate n .getSym) (.ofText text)

/-- **The texts of selectors** that `ParseUnarySelector`, `ParseBinarySelector` and the loops over
`ParseKeyword` produce. -/
inductive IsSelector : List Char → Prop where
  | unary {w : List Char} (h : TokenText identOrPrimitiveSyms w) : IsSelector w
  | binary {w : List Char} (h : TokenText (.operatorSequence :: singleOpSyms) w) : IsSelector w
  | keyword {parts : List (List Char)} (hne : parts ≠ [])
      (h : ∀ w ∈ parts, TokenText [.keyword] w) : IsSelector parts.flatten

/-- The text that follows does not go on with a token. -/
def Delimits (rest : List Char) : Prop :=
  isIdentChar (rest.headD nul) = false ∧ rest.headD nul ≠ ':' ∧ isOpChar (rest.headD nul) = false

instance (rest : List Char) : Decidable (Delimits rest) := inferInstanceAs (Decidable (_ ∧ _ ∧ _))

/-- **The literal denotes the selector**: `ParseSymbol` reads `#` and the text, and nothing else. -/
def SymbolLiteral (w : List Char) : Prop :=
  ∀ rest, Delimits rest → ∀ n fuel, w.length + rest.length + 4 ≤ fuel →
    parseSymbol (delivered fuel (List.replicate (n + 2) .getSym) (.ofText ('#' :: (w ++ rest)))) =
      .ok (.symbol (String.ofList w), delivered fuel (List.replicate n .getSym) (.ofText rest))

/-- Only letters and colons from the first colon on. -/
def LettersAfterColon (w : List Char) : Prop := ∀ c ∈ w.dropWhile (· ≠ ':'), isKeywordChar c = true

instance (w : List Char) : Decidable (LettersAfterColon w) :=
  decidable_of_iff ((w.dropWhile (· ≠ ':')).all isKeywordChar = true) List.all_eq_true

/-! ## What the tokens are

Which character a token of each kind begins with, and what may stand in it. -/

section Inversion

variable {c d : Char} {t w : List Char} {r : Scan}

theorem ne_of_test {q : Char → Bool} (hc : q c = true) (hd : q d = false) : c ≠ d := by
  rintro rfl
  rw [hc] at hd
  cases hd

/-- The text starts with the word `primitive`. -/
def PrimitiveAhead (p : List Char) : Prop :=
  primitive <+: p ∧ ((p.drop primitive.length).headD nul).isAlphanum = false

instance (p : List Char) : Decidable (PrimitiveAhead p) := inferInstanceAs (Decidable (_ ∧ _))

/-- The kinds of tokens that selectors are made of. -/
def selectorParts : List Symbol :=
  .keyword :: .operatorSequence :: (identOrPrimitiveSyms ++ singleOpSyms)

/-- How a token of a selector is scanned. -/
def SelectorScan (c : Char) (t : List Char) (r : Scan) : Prop :=
  (r.1.1 = .primitive ∧ r.1.2 = primitive) ∨
  (isOpChar c = true ∧ ¬ separator <+: c :: t ∧ r = scanOperator c t) ∨
  (c.isAlpha = true ∧ ¬ PrimitiveAhead (c :: t) ∧ r = scanIdentifier (c :: t))

/-- What a result of a scan says, if it is a token of a selector. -/
def SelectorResult (c : Char) (t : List Char) (o : Option Scan) : Prop :=
  ∀ r, o = some r → r.1.1 ∈ selectorParts → SelectorScan c t r

theorem selectorResult_of_notMem {x : Scan} (h : x.1.1 ∉ selectorParts) : SelectorResult c t
    (some x) := by
  rintro r hr hsym
  obtain rfl := Option.some.inj hr
  exact absurd hsym h

theorem selectorResult_of_scan {x : Scan} (h : SelectorScan c t x) : SelectorResult c t
    (some x) := by
  rintro r hr -
  obtain rfl := Option.some.inj hr
  exact h

theorem separator_prefix_cons (h : separator <+: c :: t) : c = '-' :=
  (List.cons_prefix_cons.1 h).1.symm

/-- **A token of a selector** is the word `primitive`, an operator or an identifier. -/
theorem scanToken_selector (c : Char) (t : List Char) : SelectorResult c t (scanToken c t) := by
  have hone {sym : Symbol} {text rest : List Char} (h : sym ∉ selectorParts) :
      SelectorResult c t (some ((sym, text), rest)) := selectorResult_of_notMem h
  rw [scanToken]
  refine iteInduction (fun _ => ?string) fun _ => iteInduction (fun _ => hone (by decide)) fun _ =>
    iteInduction (fun _ => hone (by decide)) fun _ => iteInduction (fun _ => ?colon) fun _ =>
    iteInduction (fun _ => hone (by decide)) fun _ =>
      iteInduction (fun _ => hone (by decide)) fun _ =>
    iteInduction (fun _ => hone (by decide)) fun _ =>
      iteInduction (fun _ => hone (by decide)) fun _ =>
    iteInduction (fun _ => hone (by decide)) fun _ =>
      iteInduction (fun hminus => ?minus) fun hminus =>
    iteInduction (fun hop => ?operator) fun _ =>
    iteInduction (fun _ => selectorResult_of_scan (.inl ⟨rfl, rfl⟩)) fun hprim =>
    iteInduction (fun halpha => selectorResult_of_scan (.inr (.inr ⟨halpha, hprim, rfl⟩))) fun _ =>
    iteInduction (fun _ => ?number) fun _ => hone (by decide)
  case string =>
    rintro r h hsym
    obtain ⟨r', -, rfl⟩ := Option.map_eq_some_iff.1 h
    exact absurd hsym (show Symbol.stString ∉ selectorParts by decide)
  case colon => exact iteInduction (fun _ => hone (by decide)) fun _ => hone (by decide)
  case minus =>
    refine iteInduction (fun _ => hone (by decide)) fun hsep =>
      selectorResult_of_scan (.inr (.inl ⟨?_, hsep, rfl⟩))
    rw [hminus]
    decide
  case operator =>
    exact selectorResult_of_scan
      (.inr (.inl ⟨hop, fun hsep => hminus (separator_prefix_cons hsep), rfl⟩))
  case number =>
    refine selectorResult_of_notMem ?_
    rw [scanNumber]
    have hint : Symbol.integer ∉ selectorParts := by decide
    split
    · exact hint
    · split
      · exact show Symbol.double ∉ selectorParts by decide
      · exact hint

/-- An operator character begins an operator. -/
theorem scanToken_operator (hc : isOpChar c = true) (hsep : ¬ separator <+: c :: t) :
    scanToken c t = some (scanOperator c t) := by
  have hne (d : Char) (hd : isOpChar d = false) : c ≠ d := ne_of_test hc hd
  rw [scanToken, if_neg (hne _ (by decide)), if_neg (hne _ (by decide)), if_neg (hne _ (by decide)),
    if_neg (hne _ (by decide)), if_neg (hne _ (by decide)), if_neg (hne _ (by decide)),
    if_neg (hne _ (by decide)), if_neg (hne _ (by decide)), if_neg (hne _ (by decide)), if_pos hc,
    if_neg hsep, ite_self]

theorem isOpChar_of_isAlpha (hc : c.isAlpha = true) : isOpChar c = false := by
  cases hop : isOpChar c with
  | false => rfl
  | true =>
      simp only [isOpChar, Bool.or_eq_true, decide_eq_true_eq, or_assoc] at hop
      rcases hop with
        rfl | rfl | rfl | rfl | rfl | rfl | rfl | rfl | rfl | rfl | rfl | rfl | rfl | rfl
      all_goals exact absurd hc (by decide)

/-- The branches of `scanToken` for words. -/
theorem scanToken_word (hc : c.isAlpha = true) :
    scanToken c t = if PrimitiveAhead (c :: t)
      then some ((.primitive, primitive), (c :: t).drop primitive.length)
      else some (scanIdentifier (c :: t)) := by
  have hne (d : Char) (hd : d.isAlpha = false) : c ≠ d := ne_of_test hc hd
  rw [scanToken, if_neg (hne _ (by decide)), if_neg (hne _ (by decide)), if_neg (hne _ (by decide)),
    if_neg (hne _ (by decide)), if_neg (hne _ (by decide)), if_neg (hne _ (by decide)),
    if_neg (hne _ (by decide)), if_neg (hne _ (by decide)), if_neg (hne _ (by decide)),
    if_neg (hne _ (by decide)), if_neg (by simp [isOpChar_of_isAlpha hc]), if_pos hc]
  rfl

end Inversion

/-! ## The texts of the tokens

Read the other way: a text of the right form is one token, if a delimiter follows. -/

section Texts

variable {c : Char} {t w u v rest : List Char} {r : Scan}

/-- The text of an operator. -/
structure OperatorText (w : List Char) : Prop where
  ne : w ≠ []
  chars : ∀ c ∈ w, isOpChar c = true
  noSeparator : ¬ separator <+: w

/-- The text of an identifier, alone or before a colon. -/
structure IdentText (w : List Char) : Prop where
  start : (w.headD nul).isAlpha = true
  chars : ∀ c ∈ w, isIdentChar c = true
  notPrimitive : ¬ PrimitiveAhead w

theorem isIdentChar_of_isAlpha (h : c.isAlpha = true) : isIdentChar c = true := by
  simp [isIdentChar, h]

theorem isAlphanum_of_not_isIdentChar (h : isIdentChar c = false) : c.isAlphanum = false := by
  simp only [isIdentChar, Bool.or_eq_false_iff] at h
  simp [Char.isAlphanum, h.1.1, h.1.2]

/-- A word ends where the kind of its characters does. -/
theorem prefix_append_iff {q : Char → Bool} (hu : ∀ c ∈ u, q c = true)
    (hrest : q (rest.headD nul) = false) : u <+: w ++ rest ↔ u <+: w := by
  refine ⟨fun h => ?_, fun h => h.trans (List.prefix_append _ _)⟩
  rcases List.prefix_or_prefix_of_prefix h (List.prefix_append _ _) with h' | ⟨v, rfl⟩
  · exact h'
  · cases v with
    | nil => simp
    | cons d v =>
        rw [List.prefix_append_right_inj] at h
        obtain ⟨x, rfl⟩ := h
        rw [List.cons_append, List.headD_cons, hu d (by simp)] at hrest
        cases hrest

/-- The word `primitive` is found in the identifier, whatever comes after it. -/
theorem primitiveAhead_append (hrest : isIdentChar (rest.headD nul) = false) :
    PrimitiveAhead (w ++ rest) ↔ PrimitiveAhead w := by
  have hpre : primitive <+: w ++ rest ↔ primitive <+: w :=
    prefix_append_iff (List.all_eq_true.1 (by decide : primitive.all isIdentChar = true)) hrest
  rw [PrimitiveAhead, PrimitiveAhead, hpre]
  refine and_congr_right fun h => ?_
  obtain ⟨v, rfl⟩ := h
  rw [List.append_assoc, List.drop_left, List.drop_left]
  cases v with
  | nil =>
      rw [List.nil_append, isAlphanum_of_not_isIdentChar hrest]
      exact ⟨fun _ => by decide, fun _ => rfl⟩
  | cons d v => rfl

theorem test_headD_dropWhile {q : Char → Bool} (hnul : q nul = false) (p : List Char) :
    q ((p.dropWhile q).headD nul) = false := by
  cases hp : p.dropWhile q with
  | nil => exact hnul
  | cons d v =>
      have := List.head?_dropWhile_not q p
      rw [hp] at this
      exact this

/-- A word is read to its end. -/
theorem takeWhile_append_of_all {q : Char → Bool} (h : ∀ c ∈ w, q c = true)
    (hrest : q (rest.headD nul) = false) :
    (w ++ rest).takeWhile q = w ∧ (w ++ rest).dropWhile q = rest := by
  have hstop : rest.takeWhile q = [] ∧ rest.dropWhile q = rest := by
    cases rest with
    | nil => exact ⟨rfl, rfl⟩
    | cons d r =>
        have hd : ¬ q d = true := by simpa using hrest
        exact ⟨List.takeWhile_cons_of_neg hd, List.dropWhile_cons_of_neg hd⟩
  rw [List.takeWhile_append_of_pos h, List.dropWhile_append_of_pos h, hstop.1, hstop.2]
  exact ⟨List.append_nil _, rfl⟩

/-! ### From tokens to their texts -/

/-- The text of an operator token. -/
theorem operatorText_of_scan (hc : isOpChar c = true) (hsep : ¬ separator <+: c :: t) :
    OperatorText (scanOperator c t).1.2 := by
  rw [scanOperator]
  split
  · have hpre := List.takeWhile_prefix (l := c :: t) isOpChar
    refine ⟨?_, fun d hd => List.all_eq_true.1 List.all_takeWhile d hd,
      fun h => hsep (h.trans hpre)⟩
    change (c :: t).takeWhile isOpChar ≠ []
    rw [List.takeWhile_cons_of_pos hc]
    exact List.cons_ne_nil _ _
  · refine ⟨List.cons_ne_nil _ _, fun d hd => ?_, fun h => ?_⟩
    · rw [List.mem_singleton.1 hd]
      exact hc
    · exact absurd h.length_le (show ¬ 4 ≤ 1 by decide)

/-- The identifier at the front of a text. -/
theorem identText_takeWhile (hc : c.isAlpha = true) (hprim : ¬ PrimitiveAhead (c :: t)) :
    IdentText ((c :: t).takeWhile isIdentChar) := by
  refine ⟨?_, fun d hd => List.all_eq_true.1 List.all_takeWhile d hd, fun h => hprim ?_⟩
  · rw [List.takeWhile_cons_of_pos (isIdentChar_of_isAlpha hc)]
    exact hc
  · rw [← List.takeWhile_append_dropWhile (p := isIdentChar) (l := c :: t)]
    exact (primitiveAhead_append (test_headD_dropWhile (by decide) _)).2 h

/-- What the tokens of a word are. -/
theorem scanIdentifier_cases (p : List Char) :
    let w := p.takeWhile isIdentChar
    ((scanIdentifier p).1 = (.identifier, w)) ∨ ((scanIdentifier p).1 = (.keyword, w ++ [':'])) ∨
      (scanIdentifier p).1.1 = .keywordSequence := by
  intro w
  rw [scanIdentifier]
  split
  · exact .inl rfl
  · split
    · split
      · exact .inr (.inr rfl)
      · exact .inr (.inl rfl)
    · exact .inl rfl

/-- The symbols of operator tokens. -/
theorem scanOperator_sym (c : Char) (t : List Char) :
    (scanOperator c t).1.1 ∈ Symbol.operatorSequence :: singleOpSyms := by
  rw [scanOperator]
  split
  · exact List.mem_cons_self
  · refine List.mem_cons_of_mem _ ?_
    change Scanner.opSymbol c ∈ singleOpSyms
    unfold Scanner.opSymbol
    repeat refine iteInduction (motive := (· ∈ singleOpSyms)) (fun _ => by decide) fun _ => ?_
    decide

/-- A token that the lexer delivers is the next one somewhere. -/
theorem exists_nextToken_of_mem {n : ℕ} {p : List Char} {x : Token} (h : x ∈ tokensOf n p) :
    ∃ p' r, nextToken p' = some r ∧ x = ⟨r.1.1, String.ofList r.1.2⟩ := by
  induction n generalizing p with
  | zero => simp [tokensOf] at h
  | succ n ih =>
      cases hr : nextToken p with
      | none => simp [tokensOf, hr] at h
      | some r =>
          rw [tokensOf_succ hr] at h
          rcases List.mem_cons.1 h with rfl | h
          · exact ⟨p, r, hr, rfl⟩
          · exact ih h

/-- **The tokens of selectors**, as they are scanned. -/
theorem TokenText.scan {syms : List Symbol} (h : TokenText syms w) (hsyms : syms ⊆ selectorParts) :
    ∃ c t r, r.1.1 ∈ syms ∧ r.1.2 = w ∧ SelectorScan c t r := by
  obtain ⟨text, n, fuel, sym, hfuel, hsym, hmem⟩ := h
  rw [delivered_getSym (reads_ofText text) rfl hfuel] at hmem
  obtain ⟨p, r, hr, hx⟩ := exists_nextToken_of_mem hmem
  obtain ⟨rfl, htext⟩ := Token.mk.inj hx
  obtain rfl : w = r.1.2 := String.ofList_injective htext
  rw [nextToken] at hr
  cases hp : skipBlanks false p with
  | nil =>
      rw [hp] at hr
      cases hr
      exact absurd (hsyms hsym) (by decide)
  | cons c t =>
      rw [hp] at hr
      exact ⟨c, t, r, hsym, rfl, scanToken_selector c t r hr (hsyms hsym)⟩

/-- The text of a unary selector. -/
theorem unaryText (h : TokenText identOrPrimitiveSyms w) : w = primitive ∨ IdentText w := by
  obtain ⟨c, t, r, hsym, rfl, hprim | ⟨hc, -, rfl⟩ | ⟨hc, hno, rfl⟩⟩ := h.scan (by decide)
  · exact .inl hprim.2
  · exact absurd hsym ((show ∀ s ∈ Symbol.operatorSequence :: singleOpSyms,
      s ∉ identOrPrimitiveSyms by decide)
      _ (scanOperator_sym c t))
  · rcases scanIdentifier_cases (c :: t) with hr | hr | hr
    · rw [hr]
      exact .inr (identText_takeWhile hc hno)
    · rw [hr] at hsym
      exact absurd hsym (show Symbol.keyword ∉ identOrPrimitiveSyms by decide)
    · rw [hr] at hsym
      exact absurd hsym (by decide)

/-- The text of a binary selector. -/
theorem binaryText (h : TokenText (.operatorSequence :: singleOpSyms) w) : OperatorText w := by
  obtain ⟨c, t, r, hsym, rfl, hprim | ⟨hc, hsep, rfl⟩ | ⟨hc, -, rfl⟩⟩ := h.scan (by decide)
  · rw [hprim.1] at hsym
    exact absurd hsym (by decide)
  · exact operatorText_of_scan hc hsep
  · rcases scanIdentifier_cases (c :: t) with hr | hr | hr
    · rw [hr] at hsym
      exact absurd hsym (show Symbol.identifier ∉ Symbol.operatorSequence :: singleOpSyms by decide)
    · rw [hr] at hsym
      exact absurd hsym (show Symbol.keyword ∉ Symbol.operatorSequence :: singleOpSyms by decide)
    · rw [hr] at hsym
      exact absurd hsym (by decide)

/-- The text of a keyword. -/
theorem keywordText (h : TokenText [.keyword] w) : ∃ u, IdentText u ∧ w = u ++ [':'] := by
  obtain ⟨c, t, r, hsym, rfl, hprim | ⟨hc, -, rfl⟩ | ⟨hc, hno, rfl⟩⟩ := h.scan (by decide)
  · rw [hprim.1] at hsym
    exact absurd hsym (by decide)
  · exact absurd hsym ((show ∀ s ∈ Symbol.operatorSequence :: singleOpSyms,
      s ∉ [Symbol.keyword] by decide)
      _ (scanOperator_sym c t))
  · rcases scanIdentifier_cases (c :: t) with hr | hr | hr
    · rw [hr] at hsym
      exact absurd hsym (show Symbol.identifier ∉ [Symbol.keyword] by decide)
    · rw [hr]
      exact ⟨_, identText_takeWhile hc hno, rfl⟩
    · rw [hr] at hsym
      exact absurd hsym (by decide)

/-! ### From texts to tokens -/

/-- White space, and the start of a comment. -/
def blankChars : List Char := doubleQuote :: [9, 10, 11, 12, 13, 32].map Char.ofNat

theorem mem_blankChars (h : isSpace c = true) : c ∈ blankChars := by
  have hn : c.toNat ∈ [9, 10, 11, 12, 13, 32] := by
    simp only [isSpace, Bool.or_eq_true, Bool.and_eq_true, decide_eq_true_eq] at h
    simp only [List.mem_cons, List.not_mem_nil, or_false]
    omega
  refine List.mem_cons_of_mem _ (List.mem_map.2 ⟨c.toNat, hn, Char.ofNat_toNat c⟩)

theorem skipBlanks_of_test {q : Char → Bool} (hc : q c = true) (hblank : blankChars.any q = false) :
    skipBlanks false (c :: t) = c :: t := by
  have hq : ∀ d ∈ blankChars,
    q d = false := fun d hd => by simpa using List.any_eq_false.1 hblank d hd
  refine skipBlanks_of_not ?_ (ne_of_test hc (hq _ List.mem_cons_self))
  cases hs : isSpace c with
  | false => rfl
  | true =>
      rw [hq c (mem_blankChars hs)] at hc
      cases hc

/-- An operator is read back. -/
theorem OperatorText.nextToken (h : OperatorText w) (hrest : isOpChar (rest.headD nul) = false) :
    ∃ sym ∈ Symbol.operatorSequence :: singleOpSyms,
      Dsom.nextToken (w ++ rest) = some ((sym, w), rest) := by
  obtain ⟨c, v, rfl⟩ := List.exists_cons_of_ne_nil h.ne
  have hc := h.chars c (by simp)
  have hsep : ¬ separator <+: c :: (v ++ rest) := by
    rw [← List.cons_append, prefix_append_iff
      (List.all_eq_true.1 (by decide : separator.all isOpChar = true)) hrest]
    exact h.noSeparator
  have hscan : scanOperator c (v ++ rest) = (((scanOperator c (v ++ rest)).1.1, c :: v), rest) := by
    rw [scanOperator, scanWhile, ← List.cons_append]
    obtain ⟨htake, hdrop⟩ := takeWhile_append_of_all h.chars hrest
    rw [htake, hdrop]
    cases v with
    | nil =>
        rw [List.nil_append, hrest]
        rfl
    | cons d v =>
        rw [List.cons_append, List.headD_cons, h.chars d (by simp)]
        rfl
  refine ⟨_, scanOperator_sym c (v ++ rest), ?_⟩
  rw [Dsom.nextToken, List.cons_append, skipBlanks_of_test (q := isOpChar) hc (by decide), ← hscan]
  exact scanToken_operator hc hsep

/-- A word is read as an identifier or as keywords. -/
theorem IdentText.nextToken (h : IdentText w) (hrest : isIdentChar (rest.headD nul) = false) :
    Dsom.nextToken (w ++ rest) = some (scanIdentifier (w ++ rest)) := by
  obtain ⟨c, v, rfl⟩ : ∃ c v, w = c :: v := by
    cases w with
    | nil => exact absurd h.start (by decide)
    | cons c v => exact ⟨c, v, rfl⟩
  have hc : c.isAlpha = true := h.start
  rw [Dsom.nextToken, List.cons_append, skipBlanks_of_test (q := Char.isAlpha) hc (by decide)]
  change scanToken c (v ++ rest) = _
  rw [scanToken_word hc, if_neg]
  rw [← List.cons_append, primitiveAhead_append hrest]
  exact h.notPrimitive

/-- The word `primitive` is read back. -/
theorem nextToken_primitive (hrest : isIdentChar (rest.headD nul) = false) :
    nextToken (primitive ++ rest) = some ((.primitive, primitive), rest) := by
  have hahead : PrimitiveAhead (primitive ++ rest) := (primitiveAhead_append hrest).2 (by decide)
  rw [nextToken, show primitive ++ rest = 'p' :: ("rimitive".toList ++ rest) from rfl,
    skipBlanks_of_test (q := Char.isAlpha) (by decide) (by decide)]
  change scanToken 'p' ("rimitive".toList ++ rest) = _
  rw [scanToken_word (by decide)]
  exact if_pos hahead

theorem Delimits.not_isKeywordChar (h : Delimits rest) : isKeywordChar
    (rest.headD nul) = false := by
  obtain ⟨hident, hcolon, -⟩ := h
  simp only [isIdentChar, Bool.or_eq_false_iff] at hident
  rw [isKeywordChar, hident.1.1, Bool.false_or]
  exact decide_eq_false hcolon

/-- A word with its delimiter is an identifier. -/
theorem IdentText.nextToken_delimited (h : IdentText w) (hrest : Delimits rest) :
    Dsom.nextToken (w ++ rest) = some ((.identifier, w), rest) := by
  obtain ⟨htake, hdrop⟩ := takeWhile_append_of_all h.chars hrest.1
  rw [h.nextToken hrest.1, scanIdentifier, htake, hdrop]
  cases rest with
  | nil => rfl
  | cons d v => exact congrArg some (if_neg hrest.2.1)

/-- **A keyword literal** is one token, up to the first character after a colon that is no letter.
-/
theorem IdentText.nextToken_keyword (h : IdentText u) (hrest : Delimits rest)
    (hv : v = [] ∨ (v.headD nul).isAlpha = true) :
    ∃ sym ∈ keywordSelectorSyms, Dsom.nextToken (u ++ ':' :: v ++ rest) =
      some ((sym, u ++ ':' :: (v ++ rest).takeWhile isKeywordChar),
        (v ++ rest).dropWhile isKeywordChar) := by
  have hcolon : isIdentChar ((':' :: (v ++ rest)).headD nul) = false := by
    rw [List.headD_cons]
    decide
  obtain ⟨htake, hdrop⟩ := takeWhile_append_of_all h.chars hcolon
  rw [List.append_assoc, List.cons_append, h.nextToken hcolon, scanIdentifier, htake, hdrop]
  change ∃ sym ∈ keywordSelectorSyms, some (if ':' = ':' then _ else _) = _
  rw [if_pos rfl]
  by_cases halpha : ((v ++ rest).headD nul).isAlpha = true
  · rw [if_pos halpha]
    exact ⟨.keywordSequence, by decide, rfl⟩
  · rw [if_neg halpha]
    obtain rfl : v = [] := by
      refine hv.resolve_right fun hv => halpha ?_
      cases v with
      | nil => exact absurd hv (by decide)
      | cons d v => exact hv
    obtain ⟨hnone, hall⟩ := takeWhile_append_of_all (w := [])
      (List.forall_mem_nil _) hrest.not_isKeywordChar
    rw [hnone, hall]
    exact ⟨.keyword, by decide, rfl⟩

end Texts

/-! ## Literals -/

section Literals

variable {w rest : List Char} {sym : Symbol}

/-- `ParseSymbol` on `#` and a token of a selector. -/
theorem parseSymbol_cons {text hash : String} {s : List Token}
    (h : sym ∈ Symbol.operatorSequence ::
    (singleOpSyms ++ keywordSelectorSyms ++ identOrPrimitiveSyms)) :
    parseSymbol (⟨.pound, hash⟩ :: ⟨sym, text⟩ :: s) = .ok (.symbol text, s) := by
  revert h
  cases sym <;> first | exact fun _ => rfl | exact fun h => absurd h (by decide)

/-- A newline in front is skipped. -/
theorem nextToken_newline (p : List Char) : nextToken (newline :: p) = nextToken p := by
  rw [nextToken, nextToken, skipBlanks_space (by decide)]

theorem tokensOf_newline (n : ℕ) (p : List Char) : tokensOf n (newline :: p) = tokensOf n p := by
  cases n with
  | zero => rfl
  | succ n => rw [tokensOf, tokensOf, nextToken_newline]

/-- What `ParseSymbol` makes of a `#` and the token after it. -/
theorem parseSymbol_literal {text : List Char} {r : Scan} {n fuel : ℕ}
    (hr : nextToken text = some r)
    (hsym : r.1.1 ∈ Symbol.operatorSequence ::
    (singleOpSyms ++ keywordSelectorSyms ++ identOrPrimitiveSyms))
    (hfuel : text.length + 4 ≤ fuel) :
    parseSymbol (delivered fuel (List.replicate (n + 2) .getSym) (.ofText ('#' :: text))) =
      .ok (.symbol (String.ofList r.1.2), tokensOf n r.2) := by
  have hpound : nextToken ('#' :: text) = some ((.pound, ['#']), text) := by
    rw [nextToken, skipBlanks_of_not (by decide) (by decide)]
    rfl
  rw [delivered_getSym (reads_ofText _) rfl (by simpa using hfuel), tokensOf_newline,
    tokensOf_succ hpound,
    tokensOf_succ hr]
  exact parseSymbol_cons hsym

theorem mem_of_keywordSelectorSyms (h : sym ∈ keywordSelectorSyms) :
    sym ∈ Symbol.operatorSequence ::
      (singleOpSyms ++ keywordSelectorSyms ++ identOrPrimitiveSyms) := by
  simp [h]

/-- A literal of one token. -/
theorem symbolLiteral_of_nextToken
    (h : ∀ rest, Delimits rest → ∃ sym ∈ Symbol.operatorSequence ::
      (singleOpSyms ++ keywordSelectorSyms ++ identOrPrimitiveSyms),
      nextToken (w ++ rest) = some ((sym, w), rest)) : SymbolLiteral w := by
  intro rest hrest n fuel hfuel
  obtain ⟨sym, hsym, hr⟩ := h rest hrest
  rw [parseSymbol_literal hr hsym (by rw [List.length_append]; omega),
    delivered_getSym (reads_ofText rest) rfl (by rw [List.length_cons]; omega), tokensOf_newline]

theorem lettersAfterColon_append {u v : List Char} (hu : ':' ∉ u) :
    LettersAfterColon (u ++ v) ↔ LettersAfterColon v := by
  have hall : ∀ c ∈ u, decide (c ≠ ':') = true := by
    rintro c hc
    refine decide_eq_true ?_
    rintro rfl
    exact hu hc
  rw [LettersAfterColon, LettersAfterColon, List.dropWhile_append_of_pos hall]

theorem lettersAfterColon_of_notMem (h : ':' ∉ w) : LettersAfterColon w := by
  rw [← List.append_nil w, lettersAfterColon_append h]
  nofun

/-- Behind the first colon stand letters and colons only. -/
theorem lettersAfterColon_colon {v : List Char} :
    LettersAfterColon (':' :: v) ↔ ∀ c ∈ v, isKeywordChar c = true := by
  rw [LettersAfterColon, List.dropWhile_cons_of_neg (by simp)]
  simp [show isKeywordChar ':' = true by decide]

/-- There is no colon in a word. -/
theorem IdentText.colon_notMem (h : IdentText w) : ':' ∉ w := fun hmem =>
  absurd (h.chars _ hmem) (by decide)

/-- The texts of the later parts of a keyword selector. -/
theorem flatten_keywords {parts : List (List Char)} (h : ∀ w ∈ parts, TokenText [.keyword] w) :
    parts.flatten = [] ∨ (parts.flatten.headD nul).isAlpha = true := by
  cases parts with
  | nil => exact .inl rfl
  | cons w parts =>
      obtain ⟨u, hu, rfl⟩ := keywordText (h w (by simp))
      refine .inr ?_
      have := hu.start
      cases u with
      | nil => exact absurd this (by decide)
      | cons c u => exact this

/-- **When a symbol literal denotes a selector**: exactly when only letters and colons follow its
first colon, if it has one. -/
theorem symbolLiteral_iff (w : List Char) (hw : IsSelector w) :
    SymbolLiteral w ↔ LettersAfterColon w := by
  cases hw with
  | unary h =>
      refine iff_of_true (symbolLiteral_of_nextToken fun rest hrest => ?_)
        (lettersAfterColon_of_notMem ?_)
      · rcases unaryText h with rfl | h
        · exact ⟨.primitive, by decide, nextToken_primitive hrest.1⟩
        · exact ⟨.identifier, by decide, h.nextToken_delimited hrest⟩
      · rcases unaryText h with rfl | h
        · decide
        · exact h.colon_notMem
  | binary h =>
      have htext := binaryText h
      refine iff_of_true (symbolLiteral_of_nextToken fun rest hrest => ?_)
        (lettersAfterColon_of_notMem ?_)
      · obtain ⟨sym, hsym, hr⟩ := htext.nextToken hrest.2.2
        exact ⟨sym, List.cons_subset_cons _ (by simp [List.append_assoc]) hsym, hr⟩
      · exact fun hmem => absurd (htext.chars _ hmem) (by decide)
  | @keyword parts hne h =>
      obtain ⟨part, parts, rfl⟩ := List.exists_cons_of_ne_nil hne
      obtain ⟨u, hu, rfl⟩ := keywordText (h _ List.mem_cons_self)
      have hv := flatten_keywords fun w hw => h w (List.mem_cons_of_mem _ hw)
      rw [List.flatten_cons, List.append_assoc, List.singleton_append,
        lettersAfterColon_append hu.colon_notMem, lettersAfterColon_colon]
      constructor
      · intro hlit
        have hnil : Delimits [] := by decide
        obtain ⟨sym, hsym, hr⟩ := hu.nextToken_keyword hnil hv
        have hsame := hlit [] hnil 0 ((u ++ ':' :: parts.flatten).length + 4) (Nat.le_refl _)
        rw [parseSymbol_literal hr (mem_of_keywordSelectorSyms hsym) (by simp)] at hsame
        have htext := (Prod.mk.inj (Except.ok.inj hsame)).1
        have htake := String.ofList_injective (AstLiteral.symbol.inj htext)
        rw [List.append_nil, List.append_cancel_left_eq, List.cons_inj_right] at htake
        rw [← htake]
        exact fun c hc => List.all_eq_true.1 List.all_takeWhile c hc
      · intro hall
        refine symbolLiteral_of_nextToken fun rest hrest => ?_
        obtain ⟨sym, hsym, hr⟩ := hu.nextToken_keyword hrest hv
        obtain ⟨htake, hdrop⟩ := takeWhile_append_of_all hall hrest.not_isKeywordChar
        rw [htake, hdrop] at hr
        exact ⟨sym, mem_of_keywordSelectorSyms hsym, hr⟩

/-- `at:put:` is the text of a selector, and its literal denotes it. -/
theorem symbolLiteral_at_put : IsSelector "at:put:".toList ∧ SymbolLiteral "at:put:".toList := by
  have hat : TokenText [.keyword] "at:".toList :=
    ⟨"at:".toList, 1, 10, .keyword, by decide, by decide, by decide⟩
  have hput : TokenText [.keyword] "put:".toList :=
    ⟨"put:".toList, 1, 10, .keyword, by decide, by decide, by decide⟩
  have hsel : IsSelector ["at:".toList, "put:".toList].flatten :=
    .keyword nofun (List.forall_mem_cons.2 ⟨hat, List.forall_mem_singleton.2 hput⟩)
  exact ⟨hsel, (symbolLiteral_iff _ hsel).2 (by decide)⟩

/-- **A digit in a later part**: the literal `#a:b1:` ends before the digit. -/
theorem not_symbolLiteral_digit : IsSelector "a:b1:".toList ∧ ¬ SymbolLiteral "a:b1:".toList := by
  have ha : TokenText [.keyword] "a:".toList :=
    ⟨"a:".toList, 1, 10, .keyword, by decide, by decide, by decide⟩
  have hb : TokenText [.keyword] "b1:".toList :=
    ⟨"b1:".toList, 1, 10, .keyword, by decide, by decide, by decide⟩
  have hsel : IsSelector ["a:".toList, "b1:".toList].flatten :=
    .keyword nofun (List.forall_mem_cons.2 ⟨ha, List.forall_mem_singleton.2 hb⟩)
  refine ⟨hsel, fun h => ?_⟩
  have hr : nextToken ("a:b1:".toList ++ []) =
    some ((.keywordSequence, "a:b".toList), "1:".toList) := by
    decide
  have hlit := h [] (by decide) 0 10 (by decide)
  rw [parseSymbol_literal hr (by decide) (by decide)] at hlit
  have htext := AstLiteral.symbol.inj (Prod.mk.inj (Except.ok.inj hlit)).1
  exact absurd htext (by decide)

end Literals

end Dsom
