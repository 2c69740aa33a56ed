import Dsom.Syntax.Tokens

/-!
# Syntax/LexerTokens — the lexer reads the tokens of the text

`Reads l p`: the text `p` is what the scanner `l` has not consumed, the rest of the line first and
then the lines to come, each after its newline.  Every routine of the lexer takes from `p` what its
counterpart in `Syntax/Tokens` takes, and stays inside the line buffer on the way (`Reads.scan`).

The scanner sees a zero where the text has a newline or ends (`cur`); none of its tests tells the
two apart.
-/

namespace Dsom

open Scanner

/-- The scanner is in its line, and the text is what is left. -/
structure Reads (l : Scanner) (p : List Char) : Prop where
  bound : l.state.bufp ≤ l.buf.length
  line : newline ∉ l.buf
  lines : ∀ line ∈ l.infile, newline ∉ line
  plain : l.buf.drop l.state.bufp ++ l.infile.flatMap (newline :: ·) = p

/-- The character that `_BC` is. -/
def cur (p : List Char) : Char := if p.headD newline = newline then nul else p.headD newline

@[simp] theorem cur_nil : cur [] = nul := by simp [cur]

@[simp] theorem cur_newline {t : List Char} : cur (newline :: t) = nul := by simp [cur]

/-- The character under the lexer. -/
theorem cur_cons {c : Char} {t : List Char} (h : c ≠ newline) : cur (c :: t) = c := by
  simp [cur, h]

section Basics

variable {l : Scanner} {p t : List Char} {c : Char}

/-- Setting the token reads nothing. -/
theorem Reads.setToken (h : Reads l p) (sym : Symbol) (symc : Char) (text : List Char) :
    Reads (l.setToken sym symc text) p := ⟨h.bound, h.line, h.lines, h.plain⟩

theorem Reads.setSym (h : Reads l p) (sym : Symbol) : Reads (l.setSym sym) p :=
  ⟨h.bound, h.line, h.lines, h.plain⟩

/-- Nor does adding to its text. -/
theorem Reads.push (h : Reads l p) (c : Char) : Reads (l.push c) p :=
  ⟨h.bound, h.line, h.lines, h.plain⟩

@[simp] theorem setToken_sym (sym : Symbol) (symc : Char) (text : List Char) :
    (l.setToken sym symc text).state.sym = sym := rfl

@[simp] theorem setToken_text (sym : Symbol) (symc : Char) (text : List Char) :
    (l.setToken sym symc text).state.text = text := rfl

@[simp] theorem setSym_sym (sym : Symbol) : (l.setSym sym).state.sym = sym := rfl

@[simp] theorem setSym_text (sym : Symbol) : (l.setSym sym).state.text = l.state.text := rfl

@[simp] theorem push_sym (c : Char) : (l.push c).state.sym = l.state.sym := rfl

@[simp] theorem push_text (c : Char) : (l.push c).state.text = l.state.text ++ [c] := rfl

@[simp] theorem incPtr_sym (n : ℕ) : (l.incPtr n).state.sym = l.state.sym := rfl

@[simp] theorem incPtr_text (n : ℕ) : (l.incPtr n).state.text = l.state.text := rfl

/-- Where the line ends the text has a newline, or ends. -/
theorem Reads.plain_of_eob (h : Reads l p) (heob : l.eob = true) :
    p = l.infile.flatMap (newline :: ·) := by
  rw [← h.plain, List.drop_of_length_le (by simpa [eob] using heob), List.nil_append]

/-- Inside the line the text has its next character. -/
theorem Reads.drop_of_not_eob (h : Reads l p) (heob : l.eob = false) :
    ∃ c t, p = c :: (t ++ l.infile.flatMap (newline :: ·)) ∧ c ≠ newline ∧
      l.buf.drop l.state.bufp = c :: t := by
  have hlt : l.state.bufp < l.buf.length := by simpa [eob] using heob
  refine ⟨l.buf[l.state.bufp], l.buf.drop (l.state.bufp + 1), ?_, ?_, List.drop_eq_getElem_cons hlt⟩
  · rw [← h.plain, List.drop_eq_getElem_cons hlt, List.cons_append]
  · exact fun hc => h.line (hc ▸ List.getElem_mem hlt)

/-- **The line and the text end together.** -/
theorem Reads.eob_iff (h : Reads l p) : l.eob = true ↔ p.headD newline = newline := by
  constructor
  · intro heob
    rw [h.plain_of_eob heob]
    cases l.infile <;> rfl
  · intro hp
    cases heob : l.eob with
    | true => rfl
    | false =>
        obtain ⟨c, t, rfl, hc, -⟩ := h.drop_of_not_eob heob
        exact absurd hp hc

/-- Before a character the line is not at its end. -/
theorem Reads.not_eob (h : Reads l (c :: t)) (hc : c ≠ newline) : l.eob = false := by
  cases heob : l.eob with
  | true => exact absurd (h.eob_iff.1 heob) hc
  | false => rfl

/-- **`_BC` is the next character**, or a zero at the end of the line. -/
theorem Reads.bc (h : Reads l p) : l.bc = .ok (cur p) := by
  rw [Scanner.bc, Scanner.charAt, if_pos h.bound]
  cases heob : l.eob with
  | true =>
      rw [List.getD_eq_getElem?_getD, List.getElem?_eq_none (by simpa [eob] using heob), cur,
        if_pos (h.eob_iff.1 heob)]
      rfl
  | false =>
      obtain ⟨c, t, rfl, hc, hdrop⟩ := h.drop_of_not_eob heob
      rw [cur_cons hc, List.getD_eq_getElem?_getD, ← List.head?_drop, hdrop]
      rfl

/-- A word without newlines at the front of the text is in the line. -/
theorem Reads.prefix_drop {w : List Char} (h : Reads l p) (hw : newline ∉ w) :
    w <+: l.buf.drop l.state.bufp ↔ w <+: p := by
  rw [← h.plain]
  refine ⟨fun hpre => hpre.trans (List.prefix_append _ _), fun hpre => ?_⟩
  rcases List.prefix_or_prefix_of_prefix hpre (List.prefix_append _ _) with hw' | ⟨v, rfl⟩
  · exact hw'
  · cases v with
    | nil => simp
    | cons d v =>
        have hv := (List.prefix_append_right_inj _).1 hpre
        cases hin : l.infile with
        | nil => simp [hin] at hv
        | cons line infile =>
            rw [hin, List.flatMap_cons, List.cons_append, List.cons_prefix_cons] at hv
            simp [hv.1] at hw

/-- **Consuming a word** without newlines. -/
theorem Reads.incPtr {w : List Char} (h : Reads l (w ++ t)) (hw : newline ∉ w) :
    Reads (l.incPtr w.length) t := by
  obtain ⟨v, hv⟩ := (h.prefix_drop hw).2 (List.prefix_append _ _)
  have hlen : l.buf.length - l.state.bufp = w.length + v.length := by
    rw [← List.length_drop, ← hv, List.length_append]
  have hbound := h.bound
  refine ⟨?_, h.line, h.lines, ?_⟩
  · change l.state.bufp + w.length ≤ l.buf.length
    omega
  · change l.buf.drop (l.state.bufp + w.length) ++ l.infile.flatMap (newline :: ·) = t
    have hplain := h.plain
    rw [← List.drop_drop, ← hv, List.drop_left]
    rwa [← hv, List.append_assoc, List.append_cancel_left_eq] at hplain

/-- One character is read. -/
theorem Reads.incPtr_one (h : Reads l (c :: t)) (hc : c ≠ newline) : Reads l.incPtr t :=
  Reads.incPtr (w := [c]) h (by simp [hc.symm])

/-- `buf[bufp + n]`, after a word without newlines. -/
theorem Reads.charAt {w : List Char} (h : Reads l (w ++ t)) (hw : newline ∉ w) :
    l.charAt (l.state.bufp + w.length) = .ok (cur t) := (h.incPtr hw).bc

/-- `buf.substr` finds a word where the text starts with it. -/
theorem Reads.substr {w : List Char} (h : Reads l p) (hw : newline ∉ w) :
    ∃ v, l.substr w.length = .ok v ∧ (v = w ↔ w <+: p) := by
  refine ⟨_, if_pos h.bound, ?_⟩
  rw [← h.prefix_drop hw, List.prefix_iff_eq_take, eq_comm]

end Basics

/-! ## Lines

At the end of a line the next one is taken from the file. -/

section Lines

variable {l : Scanner} {p t : List Char}

/-- What is done at each new line leaves the input and the symbol alone, and adds to the text. -/
def AddsText (onLine : Scanner → Scanner) (w : List Char) : Prop :=
  ∀ l p, Reads l p → Reads (onLine l) p ∧ (onLine l).infile = l.infile ∧
    (onLine l).state.sym = l.state.sym ∧ (onLine l).state.text = l.state.text ++ w

/-- Nothing is filled in the middle of a line. -/
theorem fillLines_of_not_eob {onLine : Scanner → Scanner} (infile : List (List Char))
    (heob : l.eob = false) : Scanner.fillLines onLine infile l = (true, l) := by
  cases infile <;> rw [Scanner.fillLines, if_neg (by simp [heob])]

/-- **Reading lines skips newlines**, and fails where there is nothing else. -/
theorem Reads.fillLines {onLine : Scanner → Scanner} {w : List Char} {infile : List (List Char)}
    (honLine : AddsText onLine w) (h : Reads l p) (hin : l.infile = infile) :
    ∃ l', Scanner.fillLines onLine infile l = (!(p.dropWhile (· = newline)).isEmpty, l') ∧
      Reads l' (p.dropWhile (· = newline)) ∧ l'.state.sym = l.state.sym ∧
      l'.state.text = l.state.text ++ (p.takeWhile (· = newline)).flatMap fun _ => w := by
  induction infile generalizing l p with
  | nil =>
      cases heob : l.eob with
      | true =>
          have hp : p = [] := by rw [h.plain_of_eob heob, hin]; rfl
          subst hp
          exact ⟨l, by rw [Scanner.fillLines, if_pos heob]; rfl, h, rfl, by simp⟩
      | false =>
          obtain ⟨c, t, rfl, hc, -⟩ := h.drop_of_not_eob heob
          rw [List.dropWhile_cons_of_neg (by simpa using hc),
            List.takeWhile_cons_of_neg (by simpa using hc)]
          exact ⟨l, fillLines_of_not_eob _ heob, h, rfl, by simp⟩
  | cons line infile ih =>
      cases heob : l.eob with
      | true =>
          have hp : p = newline :: (line ++ infile.flatMap (newline :: ·)) := by
            rw [h.plain_of_eob heob, hin]
            rfl
          rw [hp, List.dropWhile_cons_of_pos (by simp), List.takeWhile_cons_of_pos (by simp),
            List.flatMap_cons, ← List.append_assoc, Scanner.fillLines, if_pos heob]
          have hlines : ∀ line' ∈ line :: infile, newline ∉ line' := hin ▸ h.lines
          have h' : Reads { l with
              infile, buf := line,
              state := { l.state with lineNumber := l.state.lineNumber + 1, bufp := 0 } }
              (line ++ infile.flatMap (newline :: ·)) :=
            ⟨Nat.zero_le _, hlines _ (by simp), fun _ hl => hlines _ (by simp [hl]), rfl⟩
          obtain ⟨h'', hin'', hsym, htext⟩ := honLine _ _ h'
          obtain ⟨l', hl', hreads, hsym', htext'⟩ := ih h'' hin''
          exact ⟨l', hl', hreads, hsym'.trans hsym, by rw [htext', htext]⟩
      | false =>
          obtain ⟨c, t, rfl, hc, -⟩ := h.drop_of_not_eob heob
          rw [List.dropWhile_cons_of_neg (by simpa using hc),
            List.takeWhile_cons_of_neg (by simpa using hc)]
          exact ⟨l, fillLines_of_not_eob _ heob, h, rfl, by simp⟩

theorem addsText_id : AddsText id [] := fun _ _ h => ⟨h, rfl, rfl, (List.append_nil _).symm⟩

theorem addsText_push : AddsText (Scanner.push · newline) [newline] := fun _ _ h =>
  ⟨h.push newline, rfl, rfl, rfl⟩

/-- `hasMoreInput`. -/
theorem Reads.hasMoreInput (h : Reads l p) :
    ∃ l', l.hasMoreInput = (!(p.dropWhile (· = newline)).isEmpty, l') ∧
      Reads l' (p.dropWhile (· = newline)) := by
  obtain ⟨l', hl', h', -, -⟩ := h.fillLines addsText_id rfl
  exact ⟨l', hl', h'⟩

end Lines

/-! ## White space and comments

Both may go on over the end of a line. -/

theorem not_isSpace_nul : isSpace nul = false := by decide

theorem isSpace_newline : isSpace newline = true := by decide

theorem newline_ne_doubleQuote : newline ≠ doubleQuote := by decide

/-- Lines that are skipped are blanks, inside of comments or outside. -/
theorem skipBlanks_dropWhile (inComment : Bool) (p : List Char) :
    skipBlanks inComment (p.dropWhile (· = newline)) = skipBlanks inComment p := by
  induction p with
  | nil => rfl
  | cons c t ih =>
      by_cases hc : c = newline
      · subst hc
        rw [List.dropWhile_cons_of_pos (by simp), ih]
        cases inComment with
        | true => rw [skipBlanks, decide_eq_true newline_ne_doubleQuote]
        | false => rw [skipBlanks.eq_def false (newline :: t)]; simp [isSpace_newline]
      · rw [List.dropWhile_cons_of_neg (by simpa using hc)]

/-- A blank is skipped. -/
theorem skipBlanks_space {c : Char} {t : List Char} (h : isSpace c = true) :
    skipBlanks false (c :: t) = skipBlanks false t := by
  simp [skipBlanks, h]

theorem skipBlanks_doubleQuote {t : List Char} :
    skipBlanks false (doubleQuote :: t) = skipBlanks true t := by
  simp [skipBlanks, show isSpace doubleQuote = false by decide]

theorem length_dropWhile_newline_le (p : List Char) :
    (p.dropWhile (· = newline)).length ≤ p.length :=
  (List.dropWhile_sublist _).length_le

/-- What is left of a text does not start with a newline once lines are read. -/
theorem dropWhile_newline_eq_cons {p t : List Char} {c : Char}
    (h : p.dropWhile (· = newline) = c :: t) : c ≠ newline := by
  have := List.head?_dropWhile_not (· = newline) p
  rw [h] at this
  simpa using this

section Blanks

variable {l : Scanner} {p t : List Char} {c : Char}

/-- A text with a character that is not a zero. -/
theorem eq_cons_of_cur_ne_nul (h : cur p ≠ nul) : ∃ c t, p = c :: t ∧ c ≠ newline ∧ cur p = c := by
  cases p with
  | nil => exact absurd cur_nil h
  | cons c t =>
      have hc : c ≠ newline := fun hc => h (by rw [hc, cur_newline])
      exact ⟨c, t, rfl, hc, cur_cons hc⟩

/-- **`skipWhiteSpace` skips blanks**; it stays only where there is no white space. -/
theorem Reads.skipWhiteSpace {fuel : ℕ} (h : Reads l p) (hfuel : p.length < fuel) :
    ∃ l' p', l.skipWhiteSpace fuel = .ok l' ∧ Reads l' p' ∧
      skipBlanks false p' = skipBlanks false p ∧
      (p' = p ∧ isSpace (cur p) = false ∨ p'.length < p.length) := by
  induction fuel generalizing l p with
  | zero => omega
  | succ fuel ih =>
      rw [Scanner.skipWhiteSpace, h.bc]
      change ∃ l' p', (if isSpace (cur p) = true then _ else _) = _ ∧ _
      by_cases hs : isSpace (cur p) = true
      · obtain ⟨c, t, rfl, hc, hcur⟩ := eq_cons_of_cur_ne_nul (p := p)
          (fun hn => by rw [hn, not_isSpace_nul] at hs; cases hs)
        rw [if_pos hs]
        have hlen := length_dropWhile_newline_le t
        have hskip : skipBlanks false (t.dropWhile (· = newline)) = skipBlanks false (c :: t) := by
          rw [skipBlanks_dropWhile, skipBlanks_space (hcur ▸ hs)]
        obtain ⟨l₁, hl₁, h₁⟩ := (h.incPtr_one hc).hasMoreInput
        rw [hl₁]
        cases hmore : (t.dropWhile (· = newline)).isEmpty with
        | true => exact ⟨l₁, _, rfl, h₁, hskip, .inr (by rw [List.length_cons]; omega)⟩
        | false =>
            rw [List.length_cons] at hfuel
            obtain ⟨l', p', hl', h', hblank, hp'⟩ := ih h₁ (by omega)
            refine ⟨l', p', hl', h', hblank.trans hskip, .inr ?_⟩
            rw [List.length_cons]
            rcases hp' with ⟨rfl, -⟩ | hp' <;> omega
      · rw [if_neg hs]
        exact ⟨l, p, rfl, h, rfl, .inl ⟨rfl, by simpa using hs⟩⟩

/-- The loop of `skipComment` goes behind the comment, or to the end of the text. -/
theorem Reads.skipCommentLoop {fuel : ℕ} (h : Reads l (c :: t)) (hc : c ≠ newline)
    (hfuel : t.length < fuel) :
    ∃ l' p', l.skipCommentLoop fuel = .ok l' ∧ Reads l' p' ∧
      skipBlanks false p' = skipBlanks true t ∧ p'.length ≤ t.length := by
  induction fuel generalizing l c t with
  | zero => omega
  | succ fuel ih =>
      rw [Scanner.skipCommentLoop]
      have hlen := length_dropWhile_newline_le t
      have hskip := skipBlanks_dropWhile true t
      obtain ⟨l₁, hl₁, h₁⟩ := (h.incPtr_one hc).hasMoreInput
      rw [hl₁]
      cases hq : t.dropWhile (· = newline) with
      | nil =>
          rw [hq] at hskip h₁
          exact ⟨l₁, [], rfl, h₁, hskip, Nat.zero_le _⟩
      | cons d q =>
          have hd := dropWhile_newline_eq_cons hq
          rw [hq, List.length_cons] at hlen
          rw [hq] at hskip h₁
          change ∃ l' p', (l₁.bc >>= _) = _ ∧ _
          rw [h₁.bc, cur_cons hd]
          change ∃ l' p', (if d ≠ doubleQuote then _ else _) = _ ∧ _
          by_cases hdq : d = doubleQuote
          · rw [if_neg (by simp [hdq])]
            refine ⟨_, q, rfl, h₁.incPtr_one hd, ?_, by omega⟩
            rw [← hskip, hdq, skipBlanks]
            simp
          · rw [if_pos hdq]
            obtain ⟨l', p', hl', h', hblank, hp'⟩ := ih h₁ hd (by omega)
            refine ⟨l', p', hl', h', ?_, by omega⟩
            rw [hblank, ← hskip, skipBlanks, decide_eq_true hdq]

/-- **`skipComment` skips a comment**; it stays only where there is none. -/
theorem Reads.skipComment {fuel : ℕ} (h : Reads l p) (hfuel : p.length < fuel) :
    ∃ l' p', l.skipComment fuel = .ok l' ∧ Reads l' p' ∧
      skipBlanks false p' = skipBlanks false p ∧
      (p' = p ∧ cur p ≠ doubleQuote ∨ p'.length < p.length) := by
  rw [Scanner.skipComment, h.bc]
  change ∃ l' p', (if cur p = doubleQuote then _ else _) = _ ∧ _
  by_cases hq : cur p = doubleQuote
  · obtain ⟨c, t, rfl, hc, hcur⟩ := eq_cons_of_cur_ne_nul (p := p) (by rw [hq]; decide)
    rw [if_pos hq]
    rw [List.length_cons] at hfuel
    obtain ⟨l', p', hl', h', hblank, hp'⟩ := h.skipCommentLoop hc (show t.length < fuel by omega)
    refine ⟨l', p', hl', h', ?_, .inr (by rw [List.length_cons]; omega)⟩
    rw [hblank, ← hcur, hq, skipBlanks_doubleQuote]
  · rw [if_neg hq]
    exact ⟨l, p, rfl, h, rfl, .inl ⟨rfl, hq⟩⟩

/-- **The loop around the two** stops at the first character that is no blank. -/
theorem Reads.skipBlanksLoop {fuel : ℕ} (h : Reads l p) (hfuel : p.length + 2 ≤ fuel) :
    ∃ l', l.skipBlanksLoop fuel = .ok (!(skipBlanks false p).isEmpty, l') ∧
      Reads l' (skipBlanks false p) := by
  induction fuel generalizing l p with
  | zero => omega
  | succ fuel ih =>
      rw [Scanner.skipBlanksLoop]
      have hlen := length_dropWhile_newline_le p
      obtain ⟨l₀, hl₀, h₀⟩ := h.hasMoreInput
      rw [hl₀, ← skipBlanks_dropWhile]
      cases hq : p.dropWhile (· = newline) with
      | nil =>
          rw [hq] at h₀
          exact ⟨l₀, rfl, h₀⟩
      | cons c q =>
          have hc := dropWhile_newline_eq_cons hq
          rw [hq] at h₀ hlen
          obtain ⟨l₁, p₁, hl₁, h₁, hblank₁, hp₁⟩ := h₀.skipWhiteSpace (show _ < fuel by omega)
          have hlen₁ : p₁.length ≤ (c :: q).length := by rcases hp₁ with ⟨rfl, -⟩ | hp₁ <;> omega
          obtain ⟨l₂, p₂, hl₂, h₂, hblank₂, hp₂⟩ := h₁.skipComment (show _ < fuel by omega)
          change ∃ l', (l₀.skipWhiteSpace fuel >>= _) = _ ∧ _
          rw [hl₁]
          change ∃ l', (l₁.skipComment fuel >>= _) = _ ∧ _
          rw [hl₂, ← hblank₁, ← hblank₂]
          -- one of the two has consumed something, or this is the last round
          have hstay : p₂.length + 2 ≤ fuel ∨ p₂ = c :: q ∧ isSpace c = false ∧
            c ≠ doubleQuote := by
            rcases hp₁ with ⟨rfl, hs⟩ | hp₁
            · rcases hp₂ with ⟨rfl, hd⟩ | hp₂
              · rw [cur_cons hc] at hs hd
                exact .inr ⟨rfl, hs, hd⟩
              · exact .inl (by omega)
            · rcases hp₂ with ⟨rfl, -⟩ | hp₂ <;> exact .inl (by omega)
          change ∃ l', (if l₂.eob = true then Scanner.skipBlanksLoop fuel l₂ else _) = _ ∧ _
          cases heob : l₂.eob with
          | true =>
              rw [if_pos rfl]
              refine ih h₂ (hstay.resolve_right ?_)
              rintro ⟨rfl, -, -⟩
              rw [h₂.not_eob hc] at heob
              cases heob
          | false =>
              obtain ⟨d, r, rfl, hd, -⟩ := h₂.drop_of_not_eob heob
              rw [if_neg Bool.false_ne_true, h₂.bc, cur_cons hd]
              change ∃ l', (if (isSpace d || decide (d = doubleQuote)) = true then _ else _) = _ ∧ _
              by_cases hblank : (isSpace d || decide (d = doubleQuote)) = true
              · rw [if_pos hblank]
                refine ih h₂ (hstay.resolve_right ?_)
                rintro ⟨hcons, hs, hdq⟩
                rw [(List.cons.inj hcons).1] at hblank
                simp [hs, hdq] at hblank
              · rw [if_neg hblank]
                simp only [Bool.or_eq_true, decide_eq_true_eq, not_or] at hblank
                rw [skipBlanks_of_not (by simpa using hblank.1) hblank.2]
                exact ⟨l₂, rfl, h₂⟩

end Blanks

/-! ## Tokens -/

/-- The scanner has a token and reads on after it. -/
structure Took (l : Scanner) (r : Scan) : Prop where
  reads : Reads l r.2
  sym : l.state.sym = r.1.1
  text : l.state.text = r.1.2

/-- What becomes of a routine: it takes the token, or fails in an assertion where there is none. -/
def Delivers (res : Except LexFault Scanner) : Option Scan → Prop
  | some r => ∃ l, res = .ok l ∧ Took l r
  | none => res = .error .assertion

/-- The tests on characters treat a newline like a zero. -/
theorem test_cur (q : Char → Bool) (h : q newline = q nul) (t : List Char) :
    q (cur t) = q (t.headD nul) := by
  cases t with
  | nil => rw [cur_nil]; rfl
  | cons c t =>
      by_cases hc : c = newline
      · rw [hc, cur_newline]
        exact h.symm
      · rw [cur_cons hc]
        rfl

section Tokens

variable {l : Scanner} {p t : List Char} {c : Char} {fuel : ℕ}

/-- **`lexWhile` takes the characters of a kind.** -/
theorem Reads.lexWhile {q : Char → Bool} (hnul : q nul = false) (hnewline : q newline = false)
    (h : Reads l p) (hfuel : p.length < fuel) :
    ∃ l', Scanner.lexWhile q fuel l = .ok l' ∧ Reads l' (p.dropWhile q) ∧
      l'.state.sym = l.state.sym ∧ l'.state.text = l.state.text ++ p.takeWhile q := by
  induction fuel generalizing l p with
  | zero => omega
  | succ fuel ih =>
      rw [Scanner.lexWhile, h.bc]
      change ∃ l', (if q (cur p) = true then _ else _) = _ ∧ _
      by_cases hq : q (cur p) = true
      · obtain ⟨c, t, rfl, hc, hcur⟩ := eq_cons_of_cur_ne_nul (p := p)
          (fun hn => by rw [hn, hnul] at hq; cases hq)
        rw [List.length_cons] at hfuel
        obtain ⟨l', hl', h', hsym, htext⟩ := ih ((h.push c).incPtr_one hc) (by omega)
        rw [if_pos hq, hcur]
        rw [hcur] at hq
        rw [List.dropWhile_cons_of_pos hq, List.takeWhile_cons_of_pos hq]
        exact ⟨l', hl', h', hsym, by rw [htext]; simp⟩
      · rw [if_neg hq]
        have hstop : p.dropWhile q = p ∧ p.takeWhile q = [] := by
          cases p with
          | nil => exact ⟨rfl, rfl⟩
          | cons c t =>
              have hqc : ¬ q c = true := by
                rwa [test_cur q (by rw [hnewline, hnul])] at hq
              exact ⟨List.dropWhile_cons_of_neg hqc, List.takeWhile_cons_of_neg hqc⟩
        rw [hstop.1, hstop.2]
        exact ⟨l, rfl, h, rfl, by simp⟩

theorem isDigit_newline : newline.isDigit = false := by decide

theorem isDigit_nul : nul.isDigit = false := by decide

theorem isOpChar_newline : isOpChar newline = false := by decide

theorem isOpChar_nul : isOpChar nul = false := by decide

/-- **`lexOperator`.** -/
theorem Reads.lexOperator (h : Reads l (c :: t)) (hc : isOpChar c = true)
    (hfuel : (c :: t).length < fuel) :
    Delivers (l.lexOperator fuel) (some (scanOperator c t)) := by
  have hne : c ≠ newline := fun hn => by rw [hn, isOpChar_newline] at hc; cases hc
  have hnext : l.charAt (l.state.bufp + 1) = .ok (cur t) :=
    h.charAt (w := [c]) (by simp [hne.symm])
  rw [Scanner.lexOperator, hnext]
  change Delivers (if isOpChar (cur t) = true then _ else l.bc >>= _) _
  rw [test_cur isOpChar (by rw [isOpChar_newline, isOpChar_nul]), scanOperator]
  cases hop : isOpChar (t.headD nul) with
  | true =>
      obtain ⟨l', hl', h', hsym, htext⟩ :=
        (h.setToken .operatorSequence nul []).lexWhile isOpChar_nul
        isOpChar_newline hfuel
      exact ⟨l', hl', h', hsym, htext⟩
  | false =>
      rw [h.bc, cur_cons hne]
      exact ⟨_, rfl, (h.setToken _ _ _).incPtr_one hne, rfl, rfl⟩

/-- **`lexIdentifier`.** -/
theorem Reads.lexIdentifier (h : Reads l p) (hfuel : p.length < fuel) :
    Delivers (l.lexIdentifier fuel) (some (scanIdentifier p)) := by
  obtain ⟨l₁, hl₁, h₁, -, htext⟩ := (h.setToken l.state.sym nul []).lexWhile
    (show isIdentChar nul = false by decide) (show isIdentChar newline = false by decide) hfuel
  rw [setToken_text, List.nil_append] at htext
  have hlen : (p.dropWhile isIdentChar).length ≤ p.length := (List.dropWhile_sublist _).length_le
  rw [Scanner.lexIdentifier, hl₁]
  change Delivers (l₁.bc >>= _) _
  rw [h₁.bc, scanIdentifier]
  change Delivers (if cur (p.dropWhile isIdentChar) = ':' then _ else _) _
  cases hrest : p.dropWhile isIdentChar with
  | nil =>
      rw [hrest] at h₁
      rw [if_neg (by decide)]
      exact ⟨_, rfl, h₁.setSym _, rfl, htext⟩
  | cons c t =>
      rw [hrest] at h₁ hlen
      rw [List.length_cons] at hlen
      by_cases hcolon : c = ':'
      · subst hcolon
        have hne : ':' ≠ newline := by decide
        have h₂ : Reads (((l₁.setSym .identifier).setSym .keyword).incPtr.push ':') t :=
          (((h₁.setSym _).setSym _).incPtr_one hne).push ':'
        rw [cur_cons hne, if_pos rfl]
        change Delivers ((((l₁.setSym .identifier).setSym .keyword).incPtr.push ':').bc >>= _) _
        rw [h₂.bc]
        change Delivers (if (cur t).isAlpha = true then _ else _)
          (some (if ':' = ':' then _ else _))
        rw [if_pos rfl, test_cur Char.isAlpha (by decide)]
        cases halpha : (t.headD nul).isAlpha with
        | true =>
            obtain ⟨l', hl', h', hsym, htext'⟩ := (h₂.setSym .keywordSequence).lexWhile
              (show isKeywordChar nul = false by decide)
              (show isKeywordChar newline = false by decide)
              (show t.length < fuel by omega)
            exact ⟨l', hl', h', hsym, by rw [htext']; simp [htext, Scanner.incPtr]⟩
        | false => exact ⟨_, rfl, h₂, rfl, by simp [htext, Scanner.incPtr]⟩
      · have hcur : cur (c :: t) ≠ ':' := by
          rw [cur]
          split
          · decide
          · exact hcolon
        rw [if_neg hcur]
        change Delivers _ (some (if c = ':' then _ else _))
        rw [if_neg hcolon]
        exact ⟨_, rfl, h₁.setSym _, rfl, htext⟩

end Tokens

/-! ## Strings

A string may go on over the end of a line, with the newline in it. -/

/-- Line ends are part of a string. -/
theorem scanString_dropWhile (p : List Char) :
    scanString p = (scanString (p.dropWhile (· = newline))).map fun r =>
      (p.takeWhile (· = newline) ++ r.1, r.2) := by
  induction p with
  | nil => rfl
  | cons c t ih =>
      by_cases hc : c = newline
      · subst hc
        rw [scanString_cons (by decide) (by decide), ih, List.dropWhile_cons_of_pos (by simp),
          List.takeWhile_cons_of_pos (by simp), Option.map_map]
        rfl
      · rw [List.dropWhile_cons_of_neg (by simpa using hc),
          List.takeWhile_cons_of_neg (by simpa using hc)]
        simp

theorem flatMap_takeWhile_newline (p : List Char) :
    ((p.takeWhile (· = newline)).flatMap fun _ => [newline]) = p.takeWhile (· = newline) := by
  induction p with
  | nil => rfl
  | cons c t ih =>
      by_cases hc : c = newline
      · rw [List.takeWhile_cons_of_pos (by simpa using hc), List.flatMap_cons, ih, hc]
        rfl
      · rw [List.takeWhile_cons_of_neg (by simpa using hc)]
        rfl

section Strings

variable {l : Scanner} {p t : List Char} {c : Char} {fuel : ℕ}

/-- What becomes of a part of a string: its characters are appended. -/
def Appends (l : Scanner) (res : Except LexFault Scanner) : Option (List Char × List Char) → Prop
  | some r => ∃ l', res = .ok l' ∧ Reads l' r.2 ∧ l'.state.sym = l.state.sym ∧
      l'.state.text = l.state.text ++ r.1
  | none => res = .error .assertion

/-- Appending after a part that was appended before. -/
theorem Appends.after {l₁ : Scanner} {res : Except LexFault Scanner} {w : List Char}
    {r : Option (List Char × List Char)} (h : Appends l₁ res r) (hsym : l₁.state.sym = l.state.sym)
    (htext : l₁.state.text = l.state.text ++ w) :
    Appends l res (r.map fun r => (w ++ r.1, r.2)) := by
  cases r with
  | none => exact h
  | some r =>
      obtain ⟨l', hl', h', hsym', htext'⟩ := h
      exact ⟨l', hl', h', hsym'.trans hsym, by rw [htext', htext, List.append_assoc]⟩

/-- **`lexStringChar`**, and the string after it. -/
theorem Reads.lexStringChar {f : Scanner → Except LexFault Scanner} (h : Reads l (c :: t))
    (hc : c ≠ newline) (hq : c ≠ quote)
    (hf : ∀ l' t', Reads l' t' → t'.length ≤ t.length → Appends l' (f l') (scanString t')) :
    Appends l (l.lexStringChar >>= f) (scanString (c :: t)) := by
  rw [Scanner.lexStringChar, h.bc, cur_cons hc]
  change Appends l ((if c = backslash then l.incPtr.lexEscapeChar else _) >>= f) _
  by_cases hb : c = backslash
  · subst hb
    have h₁ := h.incPtr_one hc
    rw [if_pos rfl, Scanner.lexEscapeChar]
    cases t with
    | nil =>
        rw [if_pos (h₁.eob_iff.2 rfl), scanString_backslash_nil]
        rfl
    | cons e t =>
        rw [scanString_backslash]
        by_cases he : e = newline
        · rw [if_pos (h₁.eob_iff.2 he), he]
          rfl
        · rw [if_neg (by simp [h₁.not_eob he]), h₁.bc, cur_cons he]
          cases hesc : Scanner.escape e with
          | none =>
              simp only [bind, Except.bind, hesc]
              rfl
          | some x =>
              simp only [bind, Except.bind, hesc]
              have h₂ : Reads (l.incPtr.push x).incPtr t := (h₁.push x).incPtr_one he
              change Appends l (f (l.incPtr.push x).incPtr) _
              exact (hf _ t h₂ (Nat.le_succ _)).after (w := [x]) rfl rfl
  · rw [if_neg hb, scanString_cons hq hb]
    change Appends l (f (l.push c).incPtr) _
    exact (hf _ t ((h.push c).incPtr_one hc) (Nat.le_refl _)).after (w := [c]) rfl rfl

/-- **The loop of `lexString`.** -/
theorem Reads.lexStringLoop (h : Reads l p) (hfuel : p.length < fuel) :
    Appends l (l.lexStringLoop fuel) (scanString p) := by
  induction fuel generalizing l p with
  | zero => omega
  | succ fuel ih =>
      rw [Scanner.lexStringLoop, h.bc]
      change Appends l (if cur p ≠ quote then _ else _) _
      by_cases hquote : cur p = quote
      · obtain ⟨c, t, rfl, hc, hcur⟩ := eq_cons_of_cur_ne_nul (p := p) (by rw [hquote]; decide)
        rw [if_neg (by simp [hquote])]
        obtain rfl : c = quote := hcur.symm.trans hquote
        rw [scanString_quote]
        exact ⟨_, rfl, h.incPtr_one hc, rfl, (List.append_nil _).symm⟩
      · rw [if_pos hquote, scanString_dropWhile]
        have hlen := length_dropWhile_newline_le p
        obtain ⟨l₁, hl₁, h₁, hsym₁, htext₁⟩ := h.fillLines addsText_push rfl
        rw [hl₁]
        have htext : l₁.state.text = l.state.text ++ p.takeWhile (· = newline) := by
          rw [htext₁, flatMap_takeWhile_newline]
        refine Appends.after ?_ hsym₁ htext
        cases hq : p.dropWhile (· = newline) with
        | nil =>
            rw [hq] at h₁
            exact ⟨l₁, rfl, h₁, rfl, (List.append_nil _).symm⟩
        | cons d r =>
            have hd := dropWhile_newline_eq_cons hq
            rw [hq] at h₁ hlen
            change Appends l₁ (l₁.bc >>= _) _
            rw [h₁.bc, cur_cons hd]
            change Appends l₁
              (if d ≠ quote then l₁.lexStringChar >>= _ else l₁.lexStringLoop fuel) _
            by_cases hdq : d = quote
            · rw [if_neg (by simp [hdq])]
              -- the line ends before the quote are consumed
              have hsuffix : d :: r <:+ p := hq ▸ List.dropWhile_suffix _
              have hlt : (d :: r).length < p.length := by
                refine Nat.lt_of_le_of_ne hlen fun hl => hquote ?_
                rw [← hsuffix.eq_of_length hl, cur_cons hd, hdq]
              exact ih h₁ (by omega)
            · rw [if_pos hdq]
              refine h₁.lexStringChar hd hdq fun l' t' h' ht' => ih h' ?_
              rw [List.length_cons] at hlen
              omega

/-- **`lexString`.** -/
theorem Reads.lexString (h : Reads l (quote :: t)) (hfuel : t.length < fuel) :
    Delivers (l.lexString fuel) ((scanString t).map fun r => ((.stString, r.1), r.2)) := by
  have hrun := ((h.setToken .stString nul []).incPtr_one (by decide)).lexStringLoop hfuel
  rw [Scanner.lexString]
  cases hr : scanString t with
  | none =>
      rw [hr] at hrun
      exact hrun
  | some r =>
      rw [hr] at hrun
      obtain ⟨l', hl', h', hsym, htext⟩ := hrun
      exact ⟨l', hl', h', hsym, htext⟩

end Strings

/-! ## Numbers

A mark is a point with a digit behind it. -/

section Numbers

variable {l : Scanner} {p t : List Char} {c : Char} {fuel : ℕ}

/-- A decimal mark with a digit after it. -/
def MarkAhead (t : List Char) : Prop := t.headD nul = '.' ∧ (t.tail.headD nul).isDigit = true

instance (t : List Char) : Decidable (MarkAhead t) := inferInstanceAs (Decidable (_ ∧ _))

theorem scanNumber_digit (hc : c.isDigit = true) :
    scanNumber (c :: t) = (((scanNumber t).1.1, c :: (scanNumber t).1.2), (scanNumber t).2) := by
  rw [scanNumber, scanNumber, List.dropWhile_cons_of_pos hc, List.takeWhile_cons_of_pos hc]
  cases t.dropWhile Char.isDigit with
  | nil => rfl
  | cons d r => dsimp only; split <;> rfl

/-- The part behind the point. -/
theorem scanNumber_mark (hmark : MarkAhead ('.' :: t)) :
    scanNumber ('.' :: t) =
      ((.double, '.' :: t.takeWhile Char.isDigit), t.dropWhile Char.isDigit) := by
  rw [scanNumber, List.dropWhile_cons_of_neg (by decide), List.takeWhile_cons_of_neg (by decide)]
  exact if_pos hmark

theorem scanNumber_end (ht : (t.headD nul).isDigit = false) (hmark : ¬ MarkAhead t) :
    scanNumber t = ((.integer, []), t) := by
  cases t with
  | nil => rfl
  | cons d r =>
      have hd : ¬ d.isDigit = true := by simpa using ht
      rw [scanNumber, List.dropWhile_cons_of_neg hd, List.takeWhile_cons_of_neg hd]
      exact if_neg hmark

theorem MarkAhead.eq_cons (h : MarkAhead t) :
    ∃ d r, t = '.' :: d :: r ∧ d ≠ newline ∧ d.isDigit = true := by
  match t, h with
  | [], h => exact absurd h.1 (by decide)
  | [c], h => exact absurd h.2 (by simp [isDigit_nul])
  | c :: d :: r, h =>
      obtain ⟨rfl, hd⟩ : c = '.' ∧ d.isDigit = true := h
      exact ⟨d, r, rfl, fun hn => (by rw [hn, isDigit_newline] at hd; cases hd), hd⟩

/-- **One round of `lexNumber`**: a digit, and a mark if it is the first. -/
theorem Reads.lexNumberLoop_succ (h : Reads l (c :: t)) (hc : c ≠ newline) (saw : Bool) :
    l.lexNumberLoop (fuel + 1) saw =
      if saw = false ∧ MarkAhead t then
        Scanner.lexNumberLoop fuel true (((l.push c).incPtr.setSym .double).push '.').incPtr
      else if (t.headD nul).isDigit = true then Scanner.lexNumberLoop fuel saw (l.push c).incPtr
      else .ok (l.push c).incPtr := by
  have h₁ : Reads (l.push c).incPtr t := (h.push c).incPtr_one hc
  have hdigit := test_cur Char.isDigit (by rw [isDigit_newline, isDigit_nul]) t
  rw [lexNumberLoop, h.bc, cur_cons hc]
  change ((l.push c).incPtr.bc >>= _) = _
  rw [h₁.bc]
  by_cases hmark : saw = false ∧ MarkAhead t
  · obtain ⟨rfl, hmark⟩ := hmark
    obtain ⟨d, r, rfl, hne, hd⟩ := hmark.eq_cons
    have hdot : '.' ≠ newline := by decide
    have h₂ : Reads (l.push c).incPtr.incPtr (d :: r) := h₁.incPtr_one hdot
    have hlt : (l.push c).incPtr.state.bufp + 1 < (l.push c).incPtr.buf.length :=
      Nat.lt_of_not_le (of_decide_eq_false (h₂.not_eob hne))
    have hat : (l.push c).incPtr.charAt ((l.push c).incPtr.state.bufp + 1) = .ok d := by
      rw [← cur_cons hne]
      exact h₂.bc
    have h₃ : Reads (((l.push c).incPtr.setSym .double).push '.').incPtr (d :: r) :=
      ((h₁.setSym .double).push '.').incPtr_one hdot
    rw [if_pos ⟨rfl, hmark⟩, cur_cons hdot]
    simp only [bind, Except.bind, pure, Except.pure, hlt, hat, hd, (h₁.setSym .double).bc, h₃.bc,
      cur_cons hdot, cur_cons hne, decide_true, Bool.not_false, Bool.and_self,
        Bool.false_or, if_true]
  · -- the digit after the mark is looked at only if there is a mark
    have hno : saw = false → cur t = '.' →
        ∃ d, (l.push c).incPtr.charAt ((l.push c).incPtr.state.bufp + 1) = .ok d ∧
          d.isDigit = false := by
      intro hsaw hcur
      obtain ⟨c', r, rfl, hne, hcur'⟩ := eq_cons_of_cur_ne_nul (p := t) (by rw [hcur]; decide)
      obtain rfl : c' = '.' := hcur'.symm.trans hcur
      refine ⟨cur r, (h₁.incPtr_one hne).bc, ?_⟩
      rw [test_cur Char.isDigit (by rw [isDigit_newline, isDigit_nul])]
      cases hd : (r.headD nul).isDigit with
      | true => exact absurd ⟨hsaw, rfl, hd⟩ hmark
      | false => rfl
    rw [if_neg hmark]
    simp only [bind, Except.bind, pure, Except.pure]
    split
    · next hcond =>
        simp only [Bool.and_eq_true, Bool.not_eq_true', decide_eq_true_eq] at hcond
        obtain ⟨d, hat, hd⟩ := hno hcond.1.1 hcond.1.2
        simp only [hat, hd, h₁.bc, hdigit, Bool.or_false, Bool.false_eq_true, if_false]
    · simp only [h₁.bc, hdigit, Bool.or_false, Bool.false_eq_true, if_false]

/-- The digits after the mark. -/
theorem Reads.lexNumberLoop_true (h : Reads l (c :: t)) (hc : c.isDigit = true)
    (hfuel : t.length < fuel) :
    ∃ l', l.lexNumberLoop fuel true = .ok l' ∧ Reads l' (t.dropWhile Char.isDigit) ∧
      l'.state.sym = l.state.sym ∧ l'.state.text =
        l.state.text ++ c :: t.takeWhile Char.isDigit := by
  induction fuel generalizing l c t with
  | zero => omega
  | succ fuel ih =>
      have hne : c ≠ newline := fun hn => by rw [hn, isDigit_newline] at hc; cases hc
      have h₁ : Reads (l.push c).incPtr t := (h.push c).incPtr_one hne
      rw [h.lexNumberLoop_succ hne, if_neg (by simp)]
      cases t with
      | nil => exact ⟨_, if_neg (by simp [isDigit_nul]), h₁, rfl, rfl⟩
      | cons d r =>
          change ∃ l', (if d.isDigit = true then _ else _) = _ ∧ _
          by_cases hd : d.isDigit = true
          · rw [if_pos hd, List.dropWhile_cons_of_pos hd, List.takeWhile_cons_of_pos hd]
            rw [List.length_cons] at hfuel
            obtain ⟨l', hl', h', hsym, htext⟩ := ih h₁ hd (by omega)
            exact ⟨l', hl', h', hsym, by rw [htext]; simp⟩
          · rw [if_neg hd, List.dropWhile_cons_of_neg hd, List.takeWhile_cons_of_neg hd]
            exact ⟨_, rfl, h₁, rfl, rfl⟩

/-- **The loop of `lexNumber`.** -/
theorem Reads.lexNumberLoop (h : Reads l (c :: t)) (hc : c.isDigit = true)
    (hsym : l.state.sym = .integer)
    (hfuel : t.length < fuel) :
    ∃ l', l.lexNumberLoop fuel false = .ok l' ∧ Reads l' (scanNumber (c :: t)).2 ∧
      l'.state.sym = (scanNumber (c :: t)).1.1 ∧
      l'.state.text = l.state.text ++ (scanNumber (c :: t)).1.2 := by
  induction fuel generalizing l c t with
  | zero => omega
  | succ fuel ih =>
      have hne : c ≠ newline := fun hn => by rw [hn, isDigit_newline] at hc; cases hc
      have h₁ : Reads (l.push c).incPtr t := (h.push c).incPtr_one hne
      rw [h.lexNumberLoop_succ hne, scanNumber_digit hc]
      by_cases hmark : MarkAhead t
      · obtain ⟨d, r, rfl, -, hd⟩ := hmark.eq_cons
        rw [if_pos ⟨rfl, hmark⟩, scanNumber_mark hmark, List.dropWhile_cons_of_pos hd,
          List.takeWhile_cons_of_pos hd]
        have h₂ : Reads (((l.push c).incPtr.setSym .double).push '.').incPtr (d :: r) :=
          ((h₁.setSym .double).push '.').incPtr_one (by decide)
        simp only [List.length_cons] at hfuel
        obtain ⟨l', hl', h', hsym', htext⟩ :=
          h₂.lexNumberLoop_true hd (show r.length < fuel by omega)
        exact ⟨l', hl', h', hsym', by rw [htext]; simp⟩
      · rw [if_neg (fun h => hmark h.2)]
        cases hd : (t.headD nul).isDigit with
        | true =>
            cases t with
            | nil => rw [List.headD_nil, isDigit_nul] at hd; cases hd
            | cons d r =>
                rw [List.length_cons] at hfuel
                obtain ⟨l', hl', h', hsym', htext⟩ := ih h₁ hd hsym (by omega)
                exact ⟨l', hl', h', hsym', by rw [htext]; simp⟩
        | false =>
            rw [scanNumber_end hd hmark]
            exact ⟨_, rfl, h₁, hsym, rfl⟩

/-- **`lexNumber`.** -/
theorem Reads.lexNumber (h : Reads l (c :: t)) (hc : c.isDigit = true) (hfuel : t.length < fuel) :
    Delivers (l.lexNumber fuel) (some (scanNumber (c :: t))) := by
  obtain ⟨l', hl', h', hsym, htext⟩ := (h.setToken .integer nul []).lexNumberLoop hc rfl hfuel
  exact ⟨l', hl', h', hsym, htext⟩

end Numbers

/-! ## `GetSym` -/

section GetSym

variable {l : Scanner} {p t : List Char} {c : Char} {fuel : ℕ}

/-- **`nextWordInBufferIsPrimitive`.** -/
theorem Reads.nextWordInBufferIsPrimitive (h : Reads l p) :
    l.nextWordInBufferIsPrimitive = .ok (decide (primitive <+: p ∧
      ((p.drop primitive.length).headD nul).isAlphanum = false)) := by
  have hw : newline ∉ primitive := by decide
  obtain ⟨v, hv, hiff⟩ := h.substr hw
  rw [Scanner.nextWordInBufferIsPrimitive, hv]
  change (if v ≠ primitive then _ else _) = _
  by_cases hpre : primitive <+: p
  · rw [if_neg (by simpa using hiff.2 hpre)]
    obtain ⟨r, rfl⟩ := hpre
    have hcur := test_cur Char.isAlphanum (by decide) r
    rw [List.drop_left]
    by_cases hend : l.buf.length ≤ l.state.bufp + primitive.length
    · have heob : (l.incPtr primitive.length).eob = true := decide_eq_true hend
      rw [cur, if_pos ((h.incPtr hw).eob_iff.1 heob)] at hcur
      rw [if_pos hend, ← hcur]
      simp [show nul.isAlphanum = false by decide, pure, Except.pure]
    · rw [if_neg hend, h.charAt hw, ← hcur]
      simp [bind, Except.bind, pure, Except.pure]
  · rw [if_pos (fun hv => hpre (hiff.1 hv))]
    simp [hpre, pure, Except.pure]

/-- A token of one character. -/
theorem Reads.matched (h : Reads l (c :: t)) (hc : c ≠ newline) (sym : Symbol) :
    Delivers (.ok (l.matched c sym)) (some ((sym, [c]), t)) :=
  ⟨_, rfl, (h.setToken _ _ _).incPtr_one hc, rfl, rfl⟩

/-- Two conditionals on one condition. -/
theorem Delivers.ite {q : Prop} [Decidable q] {a b : Except LexFault Scanner} {r r' : Option Scan}
    (hpos : q → Delivers a r) (hneg : ¬ q → Delivers b r') :
    Delivers (if q then a else b) (if q then r else r') := by
  by_cases h : q
  · rw [if_pos h, if_pos h]
    exact hpos h
  · rw [if_neg h, if_neg h]
    exact hneg h

/-- A colon, or an assignment. -/
theorem Reads.lexColon (h : Reads l (':' :: t)) :
    Delivers (do
      if (← l.charAt (l.state.bufp + 1)) =
        '=' then .ok ((l.incPtr 2).setToken .assign nul [':', '='])
      else .ok (l.incPtr.setToken .colon ':' [':']))
      (if t.headD nul = '=' then some ((.assign, [':', '=']), t.tail)
        else some ((.colon, [':']), t)) := by
  have hne : ':' ≠ newline := by decide
  have hat : l.charAt (l.state.bufp + 1) = .ok (cur t) := h.charAt (w := [':']) (by decide)
  have hcur : (cur t = '=') ↔ (t.headD nul = '=') := by
    simpa using test_cur (· = '=') (by decide) t
  rw [hat]
  change Delivers (if cur t = '=' then _ else _) _
  simp only [hcur]
  refine Delivers.ite (fun heq => ?_) fun _ => ⟨_, rfl, (h.incPtr_one hne).setToken _ _ _, rfl, rfl⟩
  obtain ⟨r, rfl⟩ : ∃ r, t = '=' :: r := by
    cases t with
    | nil => exact absurd heq (by decide)
    | cons d r => exact ⟨r, by rw [← heq]; rfl⟩
  exact ⟨_, rfl, (Reads.incPtr (w := [':', '=']) h (by decide)).setToken _ _ _, rfl, rfl⟩

/-- A separator, or an operator that starts with a minus. -/
theorem Reads.lexMinus (h : Reads l ('-' :: t)) (hfuel : ('-' :: t).length < fuel) :
    Delivers (do
      if (← l.substr separator.length) = separator then do
        let l ← Scanner.lexWhile (· = '-') fuel (l.setToken l.state.sym l.state.symc [])
        .ok (l.setSym .separator)
      else l.lexOperator fuel)
      (if separator <+: '-' :: t then some (scanWhile .separator (· = '-') ('-' :: t))
        else some (scanOperator '-' t)) := by
  obtain ⟨v, hv, hiff⟩ := h.substr (w := separator) (by decide)
  rw [hv]
  change Delivers (if v = separator then _ else _) _
  simp only [hiff]
  refine Delivers.ite (fun _ => ?_) fun _ => h.lexOperator (by decide) hfuel
  obtain ⟨l', hl', h', -, htext⟩ := (h.setToken l.state.sym l.state.symc []).lexWhile
    (q := (· = '-')) (by decide) (by decide) hfuel
  rw [hl']
  exact ⟨_, rfl, h'.setSym _, rfl, htext⟩

/-- **The branches of `GetSym`** take the token that starts here. -/
theorem Reads.lexToken (h : Reads l (c :: t)) (hc : c ≠ newline) (hfuel : (c :: t).length < fuel) :
    Delivers (l.lexToken fuel) (scanToken c t) := by
  have hlt : t.length < fuel := Nat.lt_of_le_of_lt (Nat.le_succ _) hfuel
  rw [Scanner.lexToken, h.bc, cur_cons hc, scanToken]
  refine Delivers.ite (fun hq => ?string) fun _ => Delivers.ite (fun _ => h.matched hc _) fun _ =>
    Delivers.ite (fun _ => h.matched hc _) fun _ => Delivers.ite (fun hcolon => ?colon) fun _ =>
    Delivers.ite (fun _ => h.matched hc _) fun _ => Delivers.ite (fun _ => h.matched hc _) fun _ =>
    Delivers.ite (fun _ => h.matched hc _) fun _ => Delivers.ite (fun _ => h.matched hc _) fun _ =>
    Delivers.ite (fun _ => h.matched hc _) fun _ => Delivers.ite (fun hminus => ?minus) fun _ =>
    Delivers.ite (fun hop => h.lexOperator hop hfuel) fun _ => ?word
  case string =>
    subst hq
    exact h.lexString hlt
  case colon =>
    subst hcolon
    exact h.lexColon
  case minus =>
    subst hminus
    exact h.lexMinus hfuel
  case word =>
    rw [h.nextWordInBufferIsPrimitive]
    change Delivers (if decide _ = true then _ else _) _
    simp only [decide_eq_true_eq]
    refine Delivers.ite (fun hprim => ?_) fun _ =>
      Delivers.ite (fun _ => h.lexIdentifier hfuel) fun _ =>
      Delivers.ite (fun hd => h.lexNumber hd hlt) fun _ => ⟨_, rfl, h.setToken _ _ _, rfl, rfl⟩
    obtain ⟨r, hr⟩ := hprim.1
    rw [← hr] at h ⊢
    rw [List.drop_left]
    exact ⟨_, rfl, (h.incPtr (by decide)).setToken _ _ _, rfl, rfl⟩

/-- **The lexer reads the tokens of the text.** -/
theorem Reads.scan (h : Reads l p) (hfuel : p.length + 2 ≤ fuel) :
    Delivers (l.scan fuel) (nextToken p) := by
  obtain ⟨l', hl', h'⟩ := h.skipBlanksLoop hfuel
  rw [Scanner.scan, hl', nextToken]
  cases hp : skipBlanks false p with
  | nil =>
      rw [hp] at h'
      exact ⟨_, rfl, h'.setToken _ _ _, rfl, rfl⟩
  | cons c t =>
      rw [hp] at h'
      have hlen := skipBlanks_length_le false p
      rw [hp] at hlen
      have hc : c ≠ newline := fun hn => by
        have := (skipBlanks_eq_cons hp).1
        rw [hn, isSpace_newline] at this
        cases this
      exact Reads.lexToken (l := { l' with state := { l'.state with startBufp := l'.state.bufp } })
        ⟨h'.bound, h'.line, h'.lines, h'.plain⟩ hc (by omega)

end GetSym

end Dsom
