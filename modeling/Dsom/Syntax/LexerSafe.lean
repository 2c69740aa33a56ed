import Dsom.Syntax.LexerTokens
import Dsom.Syntax.Peek

/-!
# Syntax/LexerSafe — the lexer stays in its line

Whatever the text and the calls, the lexer never indexes outside of its line buffer; the one way in
which it fails is the assertion on an escape character.  So a run of calls is safe exactly when no
scanning call of it stands before a string with an unknown escape (`lexer_run_iff`).
-/

namespace Dsom

open Scanner

/-! ## The text of a lexer -/

/-- The lines give the text back. -/
theorem flatMap_splitOn_newline (text : List Char) :
    (text.splitOn newline).flatMap (newline :: ·) = newline :: text := by
  induction text with
  | nil => rfl
  | cons c t ih =>
      rw [List.splitOn_cons_eq_if_modifyHead]
      obtain ⟨line, lines, hl⟩ := List.exists_cons_of_ne_nil (List.splitOn_ne_nil newline t)
      rw [hl, List.flatMap_cons] at ih
      by_cases hc : c = newline
      · rw [if_pos (by simp [hc]), hl, List.flatMap_cons, List.flatMap_cons, ih, hc]
        rfl
      · rw [if_neg (by simp [hc]), hl, List.modifyHead_cons, List.flatMap_cons]
        simp only [List.cons_append, List.cons.injEq, true_and] at ih ⊢
        rw [ih]

theorem newline_notMem_splitOn (text : List Char) : ∀ line ∈ text.splitOn newline,
    newline ∉ line := by
  induction text with
  | nil => simp
  | cons c t ih =>
      rw [List.splitOn_cons_eq_if_modifyHead]
      obtain ⟨line, lines, hl⟩ := List.exists_cons_of_ne_nil (List.splitOn_ne_nil newline t)
      rw [hl] at ih ⊢
      by_cases hc : c = newline
      · rw [if_pos (by simp [hc])]
        simpa using ih
      · rw [if_neg (by simp [hc]), List.modifyHead_cons]
        simpa [Ne.symm hc] using ih

/-- **A new lexer reads its text**, from an empty line before it. -/
theorem reads_ofText (text : List Char) : Reads (Lexer.ofText text).toScanner (newline :: text) :=
  ⟨Nat.le_refl _, by simp [Lexer.ofText], newline_notMem_splitOn text, flatMap_splitOn_newline text⟩

/-- What the scanner has not consumed. -/
def Scanner.unread (l : Scanner) : List Char :=
  l.buf.drop l.state.bufp ++ l.infile.flatMap (newline :: ·)

/-- What a lexer reads is what it has not read yet. -/
theorem Reads.unread_eq {l : Scanner} {p : List Char} (h : Reads l p) : l.unread = p := h.plain

/-- The lexer reads the text; a symbol that was peeked is taken already. -/
structure Lexer.Reading (l : Lexer) (p : List Char) : Prop where
  now : l.peekDone = false → Reads l.toScanner p
  pending : l.peekDone = true → Reads { l.toScanner with state := l.stateAfterPeek } p

/-- The string that the next scan would read, if any, has only escapes that the lexer knows. -/
def EscapesAheadKnown (l : Lexer) : Prop :=
  ∀ t, skipBlanks false l.unread = quote :: t → EscapesKnown t

/-! ## Runs

Any sequence of `GetSym` and `Peek` in which no peek follows another. -/

/-- One call. -/
def LexCall.exec (fuel : ℕ) : LexCall → Lexer → Except LexFault Lexer
  | .getSym, l => l.getSym fuel
  | .peek, l => (l.peek fuel).map (·.2)

/-- A run of calls. -/
def lexerRun (fuel : ℕ) : List LexCall → Lexer → Except LexFault Lexer
  | [], l => .ok l
  | call :: calls, l => (call.exec fuel l).bind (lexerRun fuel calls)

/-- Before every scan of a run, the escapes ahead are known. -/
def EscapesKnownInRun (fuel : ℕ) : List LexCall → Lexer → Prop
  | [], _ => True
  | call :: calls, l => (l.peekDone = false → EscapesAheadKnown l) ∧
      ∀ l', call.exec fuel l = .ok l' → EscapesKnownInRun fuel calls l'

section Runs

variable {fuel : ℕ} {l : Lexer} {p : List Char}

/-- **A scan** takes a token, or fails in the assertion. -/
theorem Reads.scan_cases {l : Scanner} (h : Reads l p) (hfuel : p.length + 2 ≤ fuel) :
    (∃ s r, nextToken p = some r ∧ l.scan fuel = .ok s ∧ Took s r) ∨
    nextToken p = none ∧ l.scan fuel = .error .assertion := by
  have hscan := h.scan hfuel
  cases hr : nextToken p with
  | none =>
      rw [hr] at hscan
      exact .inr ⟨rfl, hscan⟩
  | some r =>
      rw [hr] at hscan
      obtain ⟨s, hs, htook⟩ := hscan
      exact .inl ⟨s, r, rfl, hs, htook⟩

/-- Whether a symbol is pending after a call. -/
def LexCall.pending (call : LexCall) : Bool := call = .peek

/-- **One call**: it delivers what was pending, scans a token, or fails in the assertion. -/
theorem Lexer.Reading.exec (h : l.Reading p) (hfuel : p.length + 2 ≤ fuel) {call : LexCall}
    (hcall : call = .peek → l.peekDone = false) :
    (∃ l' p', call.exec fuel l = .ok l' ∧ l'.Reading p' ∧ p'.length ≤ p.length ∧
      l'.peekDone = call.pending ∧ (l.peekDone = false → nextToken p ≠ none)) ∨
    call.exec fuel l = .error .assertion ∧ l.peekDone = false ∧ nextToken p = none := by
  cases hp : l.peekDone with
  | true =>
      obtain rfl : call = .getSym := by
        cases call with
        | getSym => rfl
        | peek => rw [hcall rfl] at hp; cases hp
      exact .inl ⟨_, p, if_pos hp, ⟨fun _ => h.pending hp, fun h' => by cases h'⟩, Nat.le_refl _,
        rfl, fun h' => by cases h'⟩
  | false =>
      rcases (h.now hp).scan_cases hfuel with ⟨s, r, hr, hs, htook⟩ | ⟨hr, hs⟩
      · refine .inl ?_
        have hget : l.getSym fuel = .ok { l with toScanner := s } := by
          rw [getSym_plain hp, hs]
          rfl
        have hlen := nextToken_length hr
        cases call with
        | getSym =>
            exact ⟨_, r.2, hget, ⟨fun _ => htook.reads,
              fun h' => by rw [hp] at h'; cases h'⟩, hlen, hp,
              fun _ => hr.trans_ne (Option.some_ne_none _)⟩
        | peek =>
            let l' : Lexer := { l with
              toScanner := { s with state := l.state }
              stateAfterPeek := s.state
              peekDone := true }
            have hpeek : LexCall.exec fuel .peek l = .ok l' := by
              rw [LexCall.exec, Lexer.peek, if_neg (by simp [hp]), hget]
              rfl
            exact ⟨l', r.2, hpeek, ⟨fun h' => (by cases h'), fun _ => htook.reads⟩, hlen, rfl,
              fun _ => hr.trans_ne (Option.some_ne_none _)⟩
      · refine .inr ⟨?_, rfl, hr⟩
        have hget : l.getSym fuel = .error .assertion := by
          rw [getSym_plain hp, hs]
          rfl
        cases call with
        | getSym => exact hget
        | peek =>
            rw [LexCall.exec, Lexer.peek, if_neg (by simp [hp]), hget]
            rfl

/-- The condition on the escapes is that there is a token. -/
theorem escapesAheadKnown_iff (h : Reads l.toScanner p) :
    EscapesAheadKnown l ↔ nextToken p ≠ none := by
  rw [EscapesAheadKnown, h.unread_eq, Ne, nextToken_eq_none_iff]
  push Not
  rfl

/-- **A run from any state.** -/
theorem Lexer.Reading.run (h : l.Reading p) (hfuel : p.length + 2 ≤ fuel) {calls : List LexCall}
    (hcalls : PeeksApart l.peekDone calls) :
    (∃ l', lexerRun fuel calls l = .ok l') ∧ EscapesKnownInRun fuel calls l ∨
    lexerRun fuel calls l = .error .assertion ∧ ¬ EscapesKnownInRun fuel calls l := by
  induction calls generalizing l p with
  | nil => exact .inl ⟨⟨l, rfl⟩, trivial⟩
  | cons call calls ih =>
      have hcall : call = .peek → l.peekDone = false := by
        rintro rfl
        exact hcalls.1
      have hrest : PeeksApart call.pending calls := by
        cases call with
        | getSym => exact hcalls
        | peek => exact hcalls.2
      rw [lexerRun]
      rcases h.exec hfuel hcall with ⟨l', p', hl', h', hlen, hpending, hsome⟩ | ⟨herr, hp, hnone⟩
      · have hahead : l.peekDone = false → EscapesAheadKnown l := fun hp =>
          (escapesAheadKnown_iff (h.now hp)).2 (hsome hp)
        have hstep : EscapesKnownInRun fuel (call :: calls) l ↔
          EscapesKnownInRun fuel calls l' := by
          rw [EscapesKnownInRun, and_iff_right hahead]
          exact ⟨fun h => h l' hl', fun h l'' hl'' => by cases hl'.symm.trans hl''; exact h⟩
        rw [hstep, hl']
        exact ih h' (by omega) (hpending ▸ hrest)
      · refine .inr ⟨by rw [herr]; rfl, fun hrun => ?_⟩
        exact (escapesAheadKnown_iff (h.now hp)).1 (hrun.1 hp) hnone

end Runs

/-- A run ends without a fault, or at an escape that is not known. -/
theorem lexerRun_cases (text : List Char) {calls : List LexCall} (hcalls : PeeksApart false calls)
    {fuel : ℕ} (hfuel : text.length + 3 ≤ fuel) :
    ((∃ l, lexerRun fuel calls (.ofText text) = .ok l) ∧
        EscapesKnownInRun fuel calls (.ofText text)) ∨
      (lexerRun fuel calls (.ofText text) = .error .assertion ∧
        ¬ EscapesKnownInRun fuel calls (.ofText text)) := by
  have hinit : (Lexer.ofText text).Reading (newline :: text) := ⟨fun _ => reads_ofText text, nofun⟩
  have hfuel' : (newline :: text).length + 2 ≤ fuel := hfuel
  exact hinit.run hfuel' hcalls

/-- **When the lexer is safe**: every run of calls goes through, without a fault, exactly when the
escapes before each scan of it are known; the only fault is the assertion on them. -/
theorem lexer_run_iff (text : List Char) (calls : List LexCall) (hcalls : PeeksApart false calls)
    (fuel : ℕ) (hfuel : text.length + 3 ≤ fuel) :
    ((∃ l, lexerRun fuel calls (.ofText text) = .ok l) ↔
      EscapesKnownInRun fuel calls (.ofText text)) ∧
    ∀ e, lexerRun fuel calls (.ofText text) = .error e → e = .assertion := by
  rcases lexerRun_cases text hcalls hfuel with ⟨⟨l, hl⟩, hok⟩ | ⟨herr, hno⟩
  · exact ⟨⟨fun _ => hok, fun _ => ⟨l, hl⟩⟩, fun e he => by rw [hl] at he; cases he⟩
  · refine ⟨⟨fun ⟨l, hl⟩ => ?_, fun hok => absurd hok hno⟩, fun e he => ?_⟩
    · rw [herr] at hl
      cases hl
    · rw [herr] at he
      cases he
      rfl

/-- A string with an escape that is known, behind a peek. -/
theorem lexer_run_iff_tab :
    EscapesKnownInRun 10 [.getSym, .peek, .getSym]
      (.ofText ['x', newline, quote, backslash, 't', quote]) :=
  (lexer_run_iff _ [.getSym, .peek, .getSym] ⟨rfl, trivial⟩ 10 (by decide)).1.1 ⟨_, rfl⟩

/-- **The assertion fails** at an escape that the lexer does not know. -/
theorem not_lexerRun_unknown_escape :
    PeeksApart false [.getSym] ∧
    ¬ ∃ l, lexerRun 10 [.getSym] (.ofText [quote, backslash, 'q', quote]) = .ok l :=
  ⟨trivial, fun ⟨_, h⟩ => nomatch h⟩

end Dsom
