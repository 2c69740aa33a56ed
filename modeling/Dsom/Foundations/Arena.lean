import Mathlib.Data.Nat.Notation
import Mathlib.Tactic.Common

/-!
# Foundations/Arena — numbered objects

Objects are allocated once, never freed and referred to by number.
-/

namespace Dsom

/-- Objects `0 … size - 1`. -/
structure Arena (α : Type) where
  size : ℕ
  get : ℕ → α

namespace Arena

variable {α : Type} (A : Arena α)

/-- Allocate an object; its number is the old size. -/
def push (a : α) : Arena α := ⟨A.size + 1, fun i => if i = A.size then a else A.get i⟩

/-- Change one object. -/
def modify (i : ℕ) (f : α → α) :
    Arena α := ⟨A.size, fun j => if j = i then f (A.get j) else A.get j⟩

@[simp] theorem size_push (a : α) : (A.push a).size = A.size + 1 := rfl

@[simp] theorem size_modify (i : ℕ) (f : α → α) : (A.modify i f).size = A.size := rfl

@[simp] theorem get_push_self (a : α) : (A.push a).get A.size = a := if_pos rfl

theorem get_push_of_lt {i : ℕ} (h : i < A.size) (a : α) : (A.push a).get i = A.get i :=
  if_neg (by omega)

@[simp] theorem get_modify_self (i : ℕ) (f : α → α) : (A.modify i f).get i = f (A.get i) :=
  if_pos rfl

theorem get_modify_of_ne {i j : ℕ} (h : j ≠ i) (f : α → α) : (A.modify i f).get j = A.get j :=
  if_neg h

/-- Each object is changed or not. -/
theorem get_modify_or (i j : ℕ) (f : α → α) :
    (A.modify i f).get j = f (A.get j) ∨ (A.modify i f).get j = A.get j := by
  by_cases hj : j = i
  · exact .inl (hj ▸ A.get_modify_self i f)
  · exact .inr (A.get_modify_of_ne hj f)

/-- A part of an object that a change leaves alone. -/
theorem get_modify_congr {β : Type} (p : α → β) {f : α → α} (h : ∀ a, p (f a) = p a) (i j : ℕ) :
    p ((A.modify i f).get j) = p (A.get j) := by
  rcases A.get_modify_or i j f with hj | hj
  · rw [hj, h]
  · rw [hj]

/-- A flag that a change can only raise. -/
theorem get_modify_mono {p : α → Bool} {f : α → α} (h : ∀ x, p x → p (f x)) (i j : ℕ)
    (hp : p (A.get j)) : p ((A.modify i f).get j) := by
  rcases A.get_modify_or i j f with hj | hj
  · rw [hj]
    exact h _ hp
  · rwa [hj]

/-- Two changes of one object. -/
theorem modify_modify (i : ℕ) (f f' : α → α) :
    (A.modify i f).modify i f' = A.modify i fun a => f' (f a) := by
  rw [modify, modify, modify]
  congr 1
  funext j
  by_cases hj : j = i <;> simp [hj]

end Arena

end Dsom
