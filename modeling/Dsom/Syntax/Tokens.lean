import Dsom.Syntax.Lexer
import Mathlib.Data.List.Infix

/-!
# Syntax/Tokens — the tokens of a text

What the lexer reads, as a function of the text that is left: lines are not split off, and nothing
is indexed.  `nextToken` skips white space and comments and takes one token from the front; it is
`none` only at a string with an escape that the lexer does not know.
-/

namespace Dsom

/-- Skip white space and comments. -/
def skipBlanks : Bool → List Char → List Char
  | _, [] => []
  | true, c :: t => skipBlanks (c ≠ doubleQuote) t
  | false, c :: t =>
      if isSpace c then skipBlanks false t
      else if c = doubleQuote then skipBlanks true t
      else c :: t

/-- A token and the text after it. -/
abbrev Scan := (Symbol × List Char) × List Char

/-- The inside of a string, up to its end or the end of the text. -/
def scanString : List Char → Option (List Char × List Char)
  | [] => some ([], [])
  | c :: t =>
      if c = quote then some ([], t)
      else if c = backslash then
        match t with
        | [] => none
        | e :: t => (Scanner.escape e).bind fun x => (scanString t).map fun r => (x :: r.1, r.2)
      else (scanString t).map fun r => (c :: r.1, r.2)

/-- All escapes of a string are known. -/
def EscapesKnown : List Char → Prop
  | [] => True
  | c :: t =>
      if c = quote then True
      else if c = backslash then
        match t with
        | [] => False
        | e :: t => Scanner.escape e ≠ none ∧ EscapesKnown t
      else EscapesKnown t

/-- Take characters of a kind from the front. -/
def scanWhile (sym : Symbol) (p : Char → Bool) (text : List Char) : Scan :=
  ((sym, text.takeWhile p), text.dropWhile p)

/-- An operator: a single character, or a sequence of them. -/
def scanOperator (c : Char) (t : List Char) : Scan :=
  if isOpChar (t.headD nul) then scanWhile .operatorSequence isOpChar (c :: t)
  else ((Scanner.opSymbol c, [c]), t)

/-- A character of the later parts of a keyword sequence. -/
def isKeywordChar (c : Char) : Bool := c.isAlpha || c = ':'

/-- An identifier, or a keyword with its colon, or a sequence of keywords. -/
def scanIdentifier (text : List Char) : Scan :=
  let w := text.takeWhile isIdentChar
  match text.dropWhile isIdentChar with
  | [] => ((.identifier, w), [])
  | c :: t =>
      if c = ':' then
        if (t.headD nul).isAlpha then
          ((.keywordSequence, w ++ ':' :: t.takeWhile isKeywordChar), t.dropWhile isKeywordChar)
        else ((.keyword, w ++ [':']), t)
      else ((.identifier, w), c :: t)

/-- An integer, or a double where a digit stands after the point. -/
def scanNumber (text : List Char) : Scan :=
  let ds := text.takeWhile Char.isDigit
  match text.dropWhile Char.isDigit with
  | [] => ((.integer, ds), [])
  | c :: t =>
      if c = '.' ∧ (t.headD nul).isDigit then
        ((.double, ds ++ '.' :: t.takeWhile Char.isDigit), t.dropWhile Char.isDigit)
      else ((.integer, ds), c :: t)

/-- The token that starts with `c`. -/
def scanToken (c : Char) (t : List Char) : Option Scan :=
  if c = quote then (scanString t).map fun r => ((.stString, r.1), r.2)
  else if c = '[' then some ((.newBlock, [c]), t)
  else if c = ']' then some ((.endBlock, [c]), t)
  else if c = ':' then
    if t.headD nul = '=' then some ((.assign, [':', '=']), t.tail) else some ((.colon, [':']), t)
  else if c = '(' then some ((.newTerm, [c]), t)
  else if c = ')' then some ((.endTerm, [c]), t)
  else if c = '#' then some ((.pound, [c]), t)
  else if c = '^' then some ((.exit, [c]), t)
  else if c = '.' then some ((.period, [c]), t)
  else if c = '-' then
    if separator <+: c :: t then some (scanWhile .separator (· = '-') (c :: t))
    else some (scanOperator c t)
  else if isOpChar c then some (scanOperator c t)
  else if primitive <+: c :: t ∧
    (((c :: t).drop primitive.length).headD nul).isAlphanum = false then
    some ((.primitive, primitive), (c :: t).drop primitive.length)
  else if c.isAlpha then some (scanIdentifier (c :: t))
  else if c.isDigit then some (scanNumber (c :: t))
  else some ((.none, [c]), c :: t)

/-- **The next token** of a text; at the end it is `NONE`. -/
def nextToken (text : List Char) : Option Scan :=
  match skipBlanks false text with
  | [] => some ((.none, []), [])
  | c :: t => scanToken c t

/-! ## Blanks -/

theorem skipBlanks_of_not {c : Char} {t : List Char} (h : isSpace c = false)
    (hc : c ≠ doubleQuote) :
    skipBlanks false (c :: t) = c :: t := by
  simp [skipBlanks, h, hc]

/-- After the blanks there is no blank. -/
theorem skipBlanks_eq_cons {c : Char} {t : List Char} {inComment : Bool} {p : List Char}
    (h : skipBlanks inComment p = c :: t) : isSpace c = false ∧ c ≠ doubleQuote := by
  fun_induction skipBlanks inComment p with
  | case1 => cases h
  | case2 _ _ ih => exact ih h
  | case3 _ _ _ ih => exact ih h
  | case4 _ _ ih => exact ih h
  | case5 d r hs hd =>
      obtain ⟨rfl, -⟩ := List.cons.inj h
      exact ⟨by simpa using hs, hd⟩

/-- Skipping consumes no other text. -/
theorem skipBlanks_length_le (inComment : Bool) (p : List Char) :
    (skipBlanks inComment p).length ≤ p.length := by
  fun_induction skipBlanks inComment p with
  | case1 => exact Nat.le_refl _
  | case2 _ _ ih => exact Nat.le_succ_of_le ih
  | case3 _ _ _ ih => exact Nat.le_succ_of_le ih
  | case4 _ _ ih => exact Nat.le_succ_of_le ih
  | case5 => exact Nat.le_refl _

/-! ## Strings -/

theorem scanString_quote {t : List Char} : scanString (quote :: t) = some ([], t) := by
  rw [scanString.eq_def]
  simp only [↓reduceIte]

theorem scanString_backslash_nil : scanString [backslash] = none := by
  rw [scanString.eq_def]
  simp only [↓reduceIte, if_neg (show backslash ≠ quote by decide)]

theorem scanString_backslash {e : Char} {t : List Char} : scanString (backslash :: e :: t) =
    (Scanner.escape e).bind fun x => (scanString t).map fun r => (x :: r.1, r.2) := by
  rw [scanString.eq_def]
  simp only [↓reduceIte, if_neg (show backslash ≠ quote by decide)]

theorem scanString_cons {c : Char} {t : List Char} (hq : c ≠ quote) (hb : c ≠ backslash) :
    scanString (c :: t) = (scanString t).map fun r => (c :: r.1, r.2) := by
  rw [scanString.eq_def]
  simp only [if_neg hq, if_neg hb]

/-- A string ends in the text, if it ends. -/
theorem scanString_length {t : List Char} {r : List Char × List Char} (h : scanString t = some r) :
    r.2.length ≤ t.length := by
  induction t using scanString.induct generalizing r with
  | case1 => cases h; exact Nat.le_refl _
  | case2 t =>
      rw [scanString_quote] at h
      cases h
      exact Nat.le_succ _
  | case3 =>
      rw [scanString_backslash_nil] at h
      cases h
  | case4 e t _ ih =>
      rw [scanString_backslash] at h
      obtain ⟨x, -, h⟩ := Option.bind_eq_some_iff.1 h
      obtain ⟨r', h', rfl⟩ := Option.map_eq_some_iff.1 h
      have hle := ih h'
      simp only [List.length_cons]
      omega
  | case5 c t hq hb ih =>
      rw [scanString_cons hq hb] at h
      obtain ⟨r', h', rfl⟩ := Option.map_eq_some_iff.1 h
      have hle := ih h'
      simp only [List.length_cons]
      omega

/-- **A string fails only in its escapes.** -/
theorem scanString_eq_none_iff (t : List Char) : scanString t = none ↔ ¬ EscapesKnown t := by
  induction t using scanString.induct with
  | case1 => simp [scanString, EscapesKnown]
  | case2 t => rw [scanString_quote, EscapesKnown.eq_def]; simp
  | case3 hne =>
      rw [scanString_backslash_nil, EscapesKnown.eq_def]
      simp [hne]
  | case4 e t hne ih =>
      rw [scanString_backslash, EscapesKnown.eq_def]
      simp only [if_neg hne, ↓reduceIte, not_and_or, not_not, ← ih]
      cases Scanner.escape e <;> simp
  | case5 c t hq hb ih =>
      rw [scanString_cons hq hb, EscapesKnown.eq_def]
      simp [if_neg hq, if_neg hb, ih]

/-! ## Tokens consume text

Each token has one character at least, so reading a text ends. -/

section Consume

variable {c : Char} {t p : List Char} {r : Scan}

theorem length_dropWhile_cons_le {q : Char → Bool} (h : q c = true) :
    ((c :: t).dropWhile q).length ≤ t.length := by
  rw [List.dropWhile_cons_of_pos h]
  exact (List.dropWhile_sublist _).length_le

/-- A token that is not `NONE`, before a rest not longer than `t`. -/
structure Consumes (t : List Char) (r : Scan) : Prop where
  sym : r.1.1 ≠ .none
  length : r.2.length ≤ t.length

theorem opSymbol_ne_none (c : Char) : Scanner.opSymbol c ≠ .none := by
  unfold Scanner.opSymbol
  repeat refine iteInduction (motive := (· ≠ Symbol.none)) (fun _ => nofun) fun _ => ?_
  exact nofun

/-- An operator has a character. -/
theorem scanOperator_consumes (h : isOpChar c = true) : Consumes t (scanOperator c t) := by
  rw [scanOperator]
  split
  · exact ⟨nofun, length_dropWhile_cons_le h⟩
  · exact ⟨opSymbol_ne_none c, Nat.le_refl _⟩

/-- So has a word. -/
theorem scanIdentifier_consumes (h : c.isAlpha = true) : Consumes t (scanIdentifier (c :: t)) := by
  have hc : isIdentChar c = true := by simp [isIdentChar, h]
  have hlen := length_dropWhile_cons_le (t := t) hc
  rw [scanIdentifier]
  cases hd : (c :: t).dropWhile isIdentChar with
  | nil => exact ⟨nofun, Nat.zero_le _⟩
  | cons d u =>
      rw [hd, List.length_cons] at hlen
      have hkey := (List.dropWhile_sublist (l := u) isKeywordChar).length_le
      dsimp only
      split
      · split
        · exact ⟨nofun, by dsimp only; omega⟩
        · exact ⟨nofun, by dsimp only; omega⟩
      · exact ⟨nofun, hlen⟩

/-- So has a number. -/
theorem scanNumber_consumes (h : c.isDigit = true) : Consumes t (scanNumber (c :: t)) := by
  have hlen := length_dropWhile_cons_le (t := t) h
  rw [scanNumber]
  cases hd : (c :: t).dropWhile Char.isDigit with
  | nil => exact ⟨nofun, Nat.zero_le _⟩
  | cons d u =>
      rw [hd, List.length_cons] at hlen
      have hnum := (List.dropWhile_sublist (l := u) Char.isDigit).length_le
      dsimp only
      split
      · exact ⟨nofun, by dsimp only; omega⟩
      · exact ⟨nofun, hlen⟩

/-- What a token can be: the `NONE` of an unknown character, or one that consumes text. -/
def Progress (c : Char) (t : List Char) (o : Option Scan) : Prop :=
  ∀ r, o = some r → r = ((.none, [c]), c :: t) ∨ Consumes t r

theorem Consumes.progress (h : Consumes t r) : Progress c t (some r) := by
  rintro r' h'
  obtain rfl := Option.some.inj h'
  exact .inr h

theorem progress_one {sym : Symbol} {text : List Char} (h : sym ≠ .none) :
    Progress c t (some ((sym, text), t)) :=
  Consumes.progress ⟨h, Nat.le_refl _⟩

/-- **A token consumes text**, unless it is the `NONE` of an unknown character. -/
theorem scanToken_progress (c : Char) (t : List Char) : Progress c t (scanToken c t) := by
  rw [scanToken]
  refine iteInduction (fun _ => ?string) fun _ =>
    iteInduction (fun _ => progress_one nofun) fun _ =>
    iteInduction (fun _ => progress_one nofun) fun _ => iteInduction (fun _ => ?colon) fun _ =>
    iteInduction (fun _ => progress_one nofun) fun _ =>
      iteInduction (fun _ => progress_one nofun) fun _ =>
    iteInduction (fun _ => progress_one nofun) fun _ =>
      iteInduction (fun _ => progress_one nofun) fun _ =>
    iteInduction (fun _ => progress_one nofun) fun _ => iteInduction (fun hminus => ?minus) fun _ =>
    iteInduction (fun hop => (scanOperator_consumes hop).progress) fun _ =>
    iteInduction (fun hprim => ?primitive) fun _ =>
    iteInduction (fun halpha => (scanIdentifier_consumes halpha).progress) fun _ =>
    iteInduction (fun hdigit => (scanNumber_consumes hdigit).progress) fun _ => ?unknown
  case string =>
    intro r h
    obtain ⟨r', h', rfl⟩ := Option.map_eq_some_iff.1 h
    exact .inr ⟨nofun, scanString_length h'⟩
  case colon =>
    refine iteInduction (fun _ => Consumes.progress ⟨nofun, ?_⟩) fun _ => progress_one nofun
    exact (List.tail_sublist t).length_le
  case minus =>
    subst hminus
    refine iteInduction (fun _ => Consumes.progress ⟨nofun, ?_⟩) fun _ =>
      (scanOperator_consumes (by decide)).progress
    exact length_dropWhile_cons_le (c := '-') (t := t) (q := (· = '-')) (by decide)
  case primitive =>
    refine Consumes.progress ⟨nofun, ?_⟩
    simp only [List.length_drop, List.length_cons, show primitive.length = 9 by decide]
    omega
  case unknown =>
    rintro r h
    exact .inl (Option.some.inj h).symm

/-- **A token that is not `NONE` consumes text**; after `NONE` there is only `NONE`. -/
theorem nextToken_progress (h : nextToken p = some r) :
    (r.1.1 = .none ∧ nextToken r.2 = some r ∧ r.2.length ≤ p.length) ∨
    (r.1.1 ≠ .none ∧ r.2.length < p.length) := by
  have hlen := skipBlanks_length_le false p
  rw [nextToken] at h
  cases hp : skipBlanks false p with
  | nil =>
      rw [hp] at h
      cases h
      exact .inl ⟨rfl, rfl, Nat.zero_le _⟩
  | cons c t =>
      rw [hp] at h hlen
      rcases scanToken_progress c t r h with rfl | hr
      · obtain ⟨hs, hd⟩ := skipBlanks_eq_cons hp
        refine .inl ⟨rfl, ?_, hlen⟩
        rw [nextToken, skipBlanks_of_not hs hd]
        exact h
      · exact .inr ⟨hr.sym, Nat.lt_of_le_of_lt hr.length hlen⟩

/-- No token gives text back. -/
theorem nextToken_length (h : nextToken p = some r) : r.2.length ≤ p.length := by
  rcases nextToken_progress h with ⟨-, -, hle⟩ | ⟨-, hlt⟩
  · exact hle
  · exact Nat.le_of_lt hlt

/-- **There is no token only at an unknown escape.** -/
theorem nextToken_eq_none_iff (p : List Char) :
    nextToken p = none ↔ ∃ t, skipBlanks false p = quote :: t ∧ ¬ EscapesKnown t := by
  rw [nextToken]
  cases skipBlanks false p with
  | nil => simp
  | cons c t =>
      by_cases hq : c = quote
      · subst hq
        simp [scanToken, scanString_eq_none_iff]
      · have hsome : scanToken c t ≠ none := by
          rw [scanToken, if_neg hq]
          repeat'
            refine iteInduction (motive := (· ≠ (none : Option Scan))) (fun _ => ?_) fun _ => ?_
          all_goals exact Option.some_ne_none _
        simp [hsome, hq]

end Consume

end Dsom
