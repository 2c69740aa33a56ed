import Mathlib.Logic.Function.Basic
import Mathlib.Tactic.Common

/-!
# Foundations/Numbering — numbers handed out on demand

Keys get numbers when they are first met, counting up.  A `Numbering` gives different keys different
numbers, all of them below the next one.
-/

namespace Dsom

variable {κ : Type*}

/-- The numbers given so far are unique and below the next one. -/
structure Numbering (num : κ → Option ℕ) (next : ℕ) : Prop where
  unique : ∀ k k' i, num k = some i → num k' = some i → k = k'
  lt : ∀ k i, num k = some i → i < next

namespace Numbering

variable {num : κ → Option ℕ} {next : ℕ} {k : κ}

theorem empty : Numbering (fun _ : κ => none) 0 where
  unique k k' i h _ := by cases h
  lt k i h := by cases h

variable [DecidableEq κ]

/-- The key that gets the next number, or one that had a number. -/
theorem of_update {k' : κ} {i : ℕ} (h : Function.update num k (some next) k' = some i) :
    k' = k ∧ i = next ∨ num k' = some i := by
  by_cases hk : k' = k
  · subst hk
    rw [Function.update_self] at h
    exact .inl ⟨rfl, (Option.some_inj.mp h).symm⟩
  · rw [Function.update_of_ne hk] at h
    exact .inr h

/-- **One more key** gets a number. -/
theorem fresh (h : Numbering num next) (k : κ) :
    Numbering (Function.update num k (some next)) (next + 1) where
  unique k₁ k₂ i h₁ h₂ := by
    rcases of_update h₁ with ⟨rfl, rfl⟩ | hold <;> rcases of_update h₂ with ⟨rfl, heq⟩ | hold'
    · rfl
    · exact absurd (h.lt _ _ hold') (Nat.lt_irrefl _)
    · exact absurd (heq ▸ h.lt _ _ hold) (Nat.lt_irrefl _)
    · exact h.unique _ _ i hold hold'
  lt k₁ i h₁ := by
    rcases of_update h₁ with ⟨-, rfl⟩ | hold
    · exact Nat.lt_succ_self _
    · exact Nat.lt_succ_of_lt (h.lt _ _ hold)

/-- The other keys keep their numbers. -/
theorem update_of_some (hnone : num k = none) {k' : κ} {i : ℕ} (h : num k' = some i) :
    Function.update num k (some next) k' = some i := by
  rwa [Function.update_of_ne]
  rintro rfl
  rw [hnone] at h
  cases h

end Numbering

end Dsom
