import Mathlib.Tactic.Common
import Mathlib.Order.Defs.Unbundled

/-!
# Foundations/Ensures — reasoning about programs with a state and errors

`Ensures m s Q`: every successful run of `m` from `s` ends in `Q`.  On top of it `Maintains I R m`:
a run of `m` keeps the invariant `I` and relates its first state to its last by the preorder `R`.
Both follow the program along its text.
-/

namespace Dsom

variable {σ ε α β : Type}

/-- Every successful run of `m` from `s` ends in `Q`. -/
def Ensures (m : StateT σ (Except ε) α) (s : σ) (Q : α → σ → Prop) : Prop :=
  ∀ a s', m s = .ok (a, s') → Q a s'

namespace Ensures

variable {m : StateT σ (Except ε) α} {f : α → StateT σ (Except ε) β} {s : σ}

/-- A weaker condition afterwards. -/
theorem mono {Q Q' : α → σ → Prop} (h : Ensures m s Q) (hQ : ∀ a s', Q a s' → Q' a s') :
    Ensures m s Q' :=
  fun a s' hm => hQ a s' (h a s' hm)

/-- Two conditions at once. -/
theorem and {Q Q' : α → σ → Prop} (h : Ensures m s Q) (h' : Ensures m s Q') :
    Ensures m s fun a s' => Q a s' ∧ Q' a s' :=
  fun a s' hm => ⟨h a s' hm, h' a s' hm⟩

theorem of_pure {Q : α → σ → Prop} {a : α} (h : Q a s) :
    Ensures (pure a : StateT σ (Except ε) α) s Q := by
  intro a' s' hm
  cases hm
  exact h

theorem of_error {Q : α → σ → Prop} {e : ε} : Ensures (fun _ => .error e) s Q := by
  intro a s' hm
  cases hm

/-- **Sequencing.** -/
theorem bind {Q : α → σ → Prop} {Q' : β → σ → Prop} (hm : Ensures m s Q)
    (hf : ∀ a s', Q a s' → Ensures (f a) s' Q') : Ensures (m >>= f) s Q' := by
  intro b s'' h
  cases hms : m s with
  | error e => simp [Bind.bind, StateT.bind, hms, Except.bind] at h
  | ok r =>
    obtain ⟨a, s'⟩ := r
    simp only [Bind.bind, StateT.bind, hms, Except.bind] at h
    exact hf a s' (hm a s' hms) b s'' h

theorem get_bind {g : σ → StateT σ (Except ε) β} {Q : β → σ → Prop} (h : Ensures (g s) s Q) :
    Ensures (get >>= g) s Q :=
  h

theorem modify_bind {g : σ → σ} {f : PUnit → StateT σ (Except ε) β} {Q : β → σ → Prop}
    (h : Ensures (f ⟨⟩) (g s) Q) : Ensures (modify g >>= f) s Q :=
  h

theorem of_modify {Q : PUnit → σ → Prop} {g : σ → σ} (h : Q ⟨⟩ (g s)) :
    Ensures (modify g : StateT σ (Except ε) PUnit) s Q := by
  intro a s' hm
  cases hm
  exact h

end Ensures

/-- A run of `m` keeps `I` and moves along `R`. -/
def Maintains (I : σ → Prop) (R : σ → σ → Prop) (m : StateT σ (Except ε) α) : Prop :=
  ∀ s, I s → Ensures m s fun _ s' => R s s' ∧ I s'

namespace Maintains

variable {I : σ → Prop} {R : σ → σ → Prop} {m : StateT σ (Except ε) α}
  {f : α → StateT σ (Except ε) β}

theorem of_pure [Std.Refl R] (a : α) : Maintains I R (pure a : StateT σ (Except ε) α) :=
  fun s hs => Ensures.of_pure ⟨refl_of R s, hs⟩

theorem of_error (e : ε) : Maintains I R (fun _ => .error e : StateT σ (Except ε) α) :=
  fun _ _ => Ensures.of_error

theorem bind [IsTrans σ R] (hm : Maintains I R m) (hf : ∀ a, Maintains I R (f a)) :
    Maintains I R (m >>= f) :=
  fun s hs => (hm s hs).bind fun a s' h =>
    (hf a s' h.2).mono fun _ _ h' => ⟨trans_of R h.1 h'.1, h'.2⟩

theorem of_get [Std.Refl R] : Maintains I R (get : StateT σ (Except ε) σ) :=
  fun s hs => by
    intro a s' hm
    cases hm
    exact ⟨refl_of R s, hs⟩

end Maintains

/-! ## Assertions

A failed assertion ends the program; a program that came through has passed it. -/

/-- An assertion, and what comes after it. -/
def testAssert {α : Type} (p : Prop) [Decidable p] (k : Option α) :
    Option α := if p then k else none

/-- What came through the assertion. -/
@[simp] theorem testAssert_eq_some {α : Type} {p : Prop} [Decidable p] {k : Option α} {a : α} :
    testAssert p k = some a ↔ p ∧ k = some a := by
  unfold testAssert
  split <;> simp [*]

end Dsom
