import Dsom.Syntax.Lexer
import Mathlib.Data.List.Basic

/-!
# Syntax/Peek — peeking is transparent

`Peek` runs the scanner and puts the old state back, but keeps the line buffer and the input as they
are afterwards; the next `GetSym` takes the state that was kept.  A lexer with a symbol pending is
thus one `GetSym` ahead of what it shows (`Ahead`), and what `GetSym` delivers does not depend on
the peeks in between (`delivered_peeks`).
-/

namespace Dsom

/-- The calls a parser makes. -/
inductive LexCall where
  | getSym
  | peek
  deriving DecidableEq

/-- What `GetSym` delivers in a run of calls, up to a fault. -/
def delivered (fuel : ℕ) : List LexCall → Lexer → List Token
  | [], _ => []
  | .getSym :: calls, l =>
      match l.getSym fuel with
      | .ok l' => l'.token :: delivered fuel calls l'
      | .error _ => []
  | .peek :: calls, l =>
      match l.peek fuel with
      | .ok (_, l') => delivered fuel calls l'
      | .error _ => []

/-- No `Peek` is made while one is pending. -/
def PeeksApart : Bool → List LexCall → Prop
  | _, [] => True
  | _, .getSym :: calls => PeeksApart false calls
  | pending, .peek :: calls => pending = false ∧ PeeksApart true calls

/-- The calls of `GetSym` alone. -/
def withoutPeeks (calls : List LexCall) : List LexCall := calls.filter (· = .getSym)

section Transparent

variable {fuel : ℕ} {l l₀ : Lexer}

/-- `l` is `l₀`, except that it may have looked at the next symbol. -/
structure Ahead (fuel : ℕ) (l l₀ : Lexer) : Prop where
  plain : l₀.peekDone = false
  same : l.peekDone = false → l.toScanner = l₀.toScanner
  peeked : l.peekDone = true → ∃ s, l₀.toScanner.scan fuel = .ok s ∧
    s = { l.toScanner with state := l.stateAfterPeek }

/-- Without a peek the two lexers are the same. -/
theorem Ahead.refl (h : l.peekDone = false) : Ahead fuel l l :=
  ⟨h, fun _ => rfl, fun h' => by rw [h] at h'; cases h'⟩

/-- `GetSym` without a peek. -/
theorem getSym_plain (h : l.peekDone = false) :
    l.getSym fuel = (l.toScanner.scan fuel).map fun s => { l with toScanner := s } := by
  rw [Lexer.getSym, if_neg (by simp [h])]

/-- **`GetSym` delivers the same** and brings the two together. -/
theorem Ahead.getSym (h : Ahead fuel l l₀) :
    (∃ e e', l.getSym fuel = .error e ∧ l₀.getSym fuel = .error e') ∨
    ∃ l' l₀', l.getSym fuel = .ok l' ∧ l₀.getSym fuel = .ok l₀' ∧ l'.token = l₀'.token ∧
      l'.peekDone = false ∧ Ahead fuel l' l₀' := by
  rw [getSym_plain h.plain]
  cases hp : l.peekDone with
  | false =>
      rw [getSym_plain hp, h.same hp]
      cases l₀.toScanner.scan fuel with
      | error e => exact .inl ⟨e, e, rfl, rfl⟩
      | ok s =>
          refine .inr ⟨_, _, rfl, rfl, rfl, hp, ⟨h.plain, fun _ => rfl, fun h' => ?_⟩⟩
          exact absurd h' (by simp [hp])
  | true =>
      obtain ⟨s, hs, rfl⟩ := h.peeked hp
      rw [hs, Lexer.getSym, if_pos hp]
      exact .inr ⟨_, _, rfl, rfl, rfl, rfl, ⟨h.plain, fun _ => rfl, nofun⟩⟩

/-- **`Peek` looks ahead**, or fails where the next `GetSym` would. -/
theorem Ahead.peek (h : Ahead fuel l l₀) (hp : l.peekDone = false) :
    (∃ e e', l.peek fuel = .error e ∧ l₀.getSym fuel = .error e') ∨
    ∃ sym l', l.peek fuel = .ok (sym, l') ∧ l'.peekDone = true ∧ Ahead fuel l' l₀ := by
  rw [getSym_plain h.plain, Lexer.peek, if_neg (by simp [hp]), getSym_plain hp, ← h.same hp]
  cases hs : l.toScanner.scan fuel with
  | error e => exact .inl ⟨e, e, rfl, rfl⟩
  | ok s =>
      refine .inr ⟨_, _, rfl, rfl, ⟨h.plain, nofun, fun _ => ⟨s, ?_, rfl⟩⟩⟩
      rw [← h.same hp, hs]

/-- Nothing is delivered after a fault. -/
theorem delivered_of_error {calls : List LexCall} {e : LexFault} (h : l.getSym fuel = .error e) :
    delivered fuel (withoutPeeks calls) l = [] := by
  induction calls with
  | nil => rfl
  | cons call calls ih =>
      cases call with
      | peek => exact ih
      | getSym =>
          rw [show withoutPeeks (.getSym :: calls) = .getSym :: withoutPeeks calls from rfl,
            delivered, h]

/-- The run from a lexer that has looked ahead. -/
theorem delivered_ahead {calls : List LexCall} (h : Ahead fuel l l₀)
    (hcalls : PeeksApart l.peekDone calls) :
    delivered fuel calls l = delivered fuel (withoutPeeks calls) l₀ := by
  induction calls generalizing l l₀ with
  | nil => rfl
  | cons call calls ih =>
      cases call with
      | getSym =>
          rw [show withoutPeeks (.getSym :: calls) =
            .getSym :: withoutPeeks calls from rfl, delivered,
            delivered]
          rcases h.getSym with ⟨e, e', he, he'⟩ | ⟨l', l₀', hl, hl₀, htoken, hp, h'⟩
          · rw [he, he']
          · rw [hl, hl₀]
            simp only
            rw [htoken, ih h' (by rw [hp]; exact hcalls)]
      | peek =>
          obtain ⟨hp, hcalls⟩ := hcalls
          rw [show withoutPeeks (.peek :: calls) = withoutPeeks calls from rfl, delivered]
          rcases h.peek hp with ⟨e, e', he, he'⟩ | ⟨sym, l', hl, hp', h'⟩
          · rw [he]
            exact (delivered_of_error he').symm
          · rw [hl]
            exact ih h' (by rw [hp']; exact hcalls)

/-- **Peeking is transparent**: what `GetSym` delivers is the same without the peeks. -/
theorem delivered_peeks (fuel : ℕ) (text : List Char) (calls : List LexCall)
    (hcalls : PeeksApart false calls) :
    delivered fuel calls (.ofText text) = delivered fuel (withoutPeeks calls) (.ofText text) :=
  delivered_ahead (.refl rfl) hcalls

/-- A peek over a comment into the next line. -/
theorem delivered_peeks_next_line :
    delivered 50 [.getSym, .peek, .getSym] (.ofText ("a ".toList ++ doubleQuote :: "c".toList ++
      doubleQuote :: newline :: "b".toList)) = [⟨.identifier, "a"⟩, ⟨.identifier, "b"⟩] :=
  (delivered_peeks 50 _ [.getSym, .peek, .getSym] ⟨rfl, trivial⟩).trans (by decide)

end Transparent

end Dsom
