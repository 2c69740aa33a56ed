import Dsom.Syntax.LexerSafe
import Dsom.Syntax.ParseTerminates

/-!
# Syntax/FrontEnd — reading a class file terminates

The lexer and the parser together.  What `GetSym` delivers call after call are the tokens of the
text (`tokensOf`); they end in `NONE`s, or where the lexer fails.  The parser looks at no more of
them than the text has characters, so reading a file terminates on every text
(`frontEnd_terminates`).
-/

namespace Dsom

/-- The first `n` tokens of a text; it stops where the lexer fails. -/
def tokensOf : ℕ → List Char → List Token
  | 0, _ => []
  | n + 1, p =>
      match nextToken p with
      | some r => ⟨r.1.1, String.ofList r.1.2⟩ :: tokensOf n r.2
      | none => []

section Stream

variable {p : List Char} {n m : ℕ}

/-- **`GetSym` delivers the tokens of the text.** -/
theorem delivered_getSym {l : Lexer} {fuel : ℕ} (h : Reads l.toScanner p) (hp : l.peekDone = false)
    (hfuel : p.length + 2 ≤ fuel) : delivered fuel (List.replicate n .getSym) l = tokensOf n p := by
  induction n generalizing l p with
  | zero => rfl
  | succ n ih =>
      rw [List.replicate_succ, delivered, tokensOf, getSym_plain hp]
      rcases h.scan_cases hfuel with ⟨s, r, hr, hs, htook⟩ | ⟨hr, hs⟩
      · rw [hr, hs]
        have hlen := nextToken_length hr
        have hrest := ih (l := { l with toScanner := s }) htook.reads hp (by omega)
        have htoken : Lexer.token { l with toScanner := s } = ⟨r.1.1, String.ofList r.1.2⟩ := by
          rw [Lexer.token, htook.sym, htook.text]
        change Lexer.token { l with toScanner := s } :: _ = _
        rw [hrest, htoken]
      · rw [hr, hs]
        rfl

/-- A text at which the lexer is stuck. -/
theorem sym_tokensOf_stuck {r : Scan} (hr : nextToken p = some r) (hsym : r.1.1 = .none)
    (hstuck : nextToken r.2 = some r) : ∀ t ∈ tokensOf n p, t.sym = .none := by
  induction n generalizing p with
  | zero => simp [tokensOf]
  | succ n ih =>
      rw [tokensOf, hr]
      intro t ht
      rcases List.mem_cons.1 ht with rfl | ht
      · exact hsym
      · exact ih hstuck t ht

theorem tokensOf_succ {r : Scan} (hr : nextToken p = some r) :
    tokensOf (n + 1) p = ⟨r.1.1, String.ofList r.1.2⟩ :: tokensOf n r.2 := by
  rw [tokensOf, hr]

/-- **The tokens of a text** up to `NONE` do not depend on how many more are asked for. -/
theorem sameTokens_tokensOf (hn : p.length < n) (hm : p.length < m) :
    SameTokens (tokensOf n p) (tokensOf m p) := by
  induction n generalizing m p with
  | zero => omega
  | succ n ih =>
      obtain ⟨m, rfl⟩ : ∃ k, m = k + 1 := ⟨m - 1, by omega⟩
      cases hr : nextToken p with
      | none =>
          rw [tokensOf, tokensOf, hr]
          exact ⟨rfl, rfl, by simp [EndsInNone], by simp [EndsInNone]⟩
      | some r =>
          rcases nextToken_progress hr with ⟨hsym, hstuck, -⟩ | ⟨hsym, hlt⟩
          · have hall (k : ℕ) : EndsInNone (tokensOf (k + 1) p) := fun t ht =>
              sym_tokensOf_stuck hr hsym hstuck t ((List.dropWhile_sublist _).subset ht)
            refine ⟨?_, ?_, hall n, hall m⟩
            · rw [tokensOf_succ hr, tokensOf_succ hr, beforeNone, beforeNone,
                List.takeWhile_cons_of_neg (by simp [hsym]),
                  List.takeWhile_cons_of_neg (by simp [hsym])]
            · rw [tokensOf_succ hr, tokensOf_succ hr, firstNone, firstNone,
                List.dropWhile_cons_of_neg (by simp [hsym]),
                  List.dropWhile_cons_of_neg (by simp [hsym])]
              rfl
          · rw [tokensOf_succ hr, tokensOf_succ hr]
            exact (ih (by omega) (by omega)).cons hsym

/-- There are at most as many tokens as characters. -/
theorem length_beforeNone_tokensOf : (beforeNone (tokensOf n p)).length ≤ p.length := by
  induction n generalizing p with
  | zero => exact Nat.zero_le _
  | succ n ih =>
      cases hr : nextToken p with
      | none =>
          rw [tokensOf, hr]
          exact Nat.zero_le _
      | some r =>
          rw [tokensOf_succ hr, beforeNone]
          rcases nextToken_progress hr with ⟨hsym, -, -⟩ | ⟨hsym, hlt⟩
          · rw [List.takeWhile_cons_of_neg (by simp [hsym])]
            exact Nat.zero_le _
          · rw [List.takeWhile_cons_of_pos (by simpa using hsym), List.length_cons]
            exact Nat.lt_of_le_of_lt ih hlt

end Stream

/-- **The front end terminates** on every text.  No call of the lexer runs on for ever, whatever
calls there were before; and `ParseClass`, on the tokens that `GetSym` delivers, has a result
within a number of rounds that is linear in the length of the text, the same however many tokens
are there to be read. -/
theorem frontEnd_terminates (strtod : String → Option (BitVec 64)) (text : List Char) :
    (∀ calls, PeeksApart false calls → ∀ fuel, text.length + 3 ≤ fuel →
      lexerRun fuel calls (.ofText text) ≠ .error .outOfFuel) ∧
    ∃ r : Except ParseError AstClass, r ≠ .error .outOfFuel ∧
      ∀ n lexFuel fuel, text.length + 2 ≤ n → text.length + 3 ≤ lexFuel →
        8 * text.length + 10 ≤ fuel →
        (parseClass strtod fuel (delivered lexFuel (.replicate n .getSym) (.ofText text))).map
        (·.1) = r := by
  refine ⟨fun calls hcalls fuel hfuel herr => ?_, ?_⟩
  · rcases lexerRun_cases text hcalls hfuel with ⟨⟨l, hl⟩, -⟩ | ⟨hassertion, -⟩
    · exact nomatch hl.symm.trans herr
    · exact nomatch hassertion.symm.trans herr
  have hlen (n : ℕ) : parsing.size (tokensOf n (newline :: text)) ≤ text.length + 1 :=
    length_beforeNone_tokensOf
  have hrun (n m f f' : ℕ) (hn : text.length + 2 ≤ n) (hm : text.length + 2 ≤ m)
      (hf : 8 * text.length + 10 ≤ f) (hf' : 8 * text.length + 10 ≤ f') :=
    agree_parseClass strtod f f' (text.length + 1) (fun _ => True) (by omega) (by omega)
      _ _ (sameTokens_tokensOf (p := newline :: text) (n := n) (m := m) hn hm) trivial (hlen n)
  -- one run with just enough of everything, to which all others are compared
  refine ⟨(parseClass strtod (8 * text.length + 10)
    (tokensOf (text.length + 2) (newline :: text))).map (·.1), ?_,
    fun n lexFuel fuel hn hlex hfuel => ?_⟩
  · rcases (hrun _ _ _ _ (Nat.le_refl _) (Nat.le_refl _) (Nat.le_refl _) (Nat.le_refl _)).cases with
      ⟨cl, s, -, hok, -⟩ | ⟨e, herr, -, hbad⟩
    · rw [hok]
      nofun
    · rw [herr]
      exact fun h => hbad (Except.error.inj h)
  · rw [delivered_getSym (reads_ofText text) rfl (by simpa using hlex)]
    rcases (hrun _ _ _ _ hn (Nat.le_refl _) hfuel (Nat.le_refl _)).cases with
      ⟨cl, s, s', hok, hok', -⟩ | ⟨e, herr, herr', -⟩
    · rw [hok, hok']
      rfl
    · rw [herr, herr']

end Dsom
