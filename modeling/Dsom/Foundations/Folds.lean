import Mathlib.Data.List.Induction
import Mathlib.Tactic.Common

/-!
# Foundations/Folds — loops over a list

`foldl_prefix` is the rule for a loop whose invariant speaks of the part of the list that was
already passed.
-/

namespace Dsom

namespace Folds

variable {α σ : Type*}

/-- **The rule for a loop over a list**; the invariant knows which elements were passed. -/
theorem foldl_prefix {step : σ → α → σ} {l : List α} {s : σ} {P : List α → σ → Prop}
    (start : P [] s) (next : ∀ done a rest s, l = done ++ a :: rest → P done s →
      P (done ++ [a]) (step s a)) : P l (l.foldl step s) := by
  suffices h : ∀ rest done s, l = done ++ rest → P done s → P l (rest.foldl step s) from
    h l [] s rfl start
  intro rest
  induction rest with
  | nil =>
    intro done s hl hP
    rw [List.append_nil] at hl
    exact hl ▸ hP
  | cons a rest ih =>
    intro done s hl hP
    exact ih (done ++ [a]) (step s a) (by rw [hl, List.append_assoc, List.singleton_append])
      (next done a rest s hl hP)

/-- The same without the passed elements. -/
theorem foldl_invariant {step : σ → α → σ} {l : List α} {s : σ} {P : σ → Prop} (start : P s)
    (next : ∀ s, ∀ a ∈ l, P s → P (step s a)) : P (l.foldl step s) :=
  foldl_prefix (P := fun _ => P) start fun _ a _ s hl hP =>
    next s a (hl ▸ List.mem_append_right _ (.head _)) hP

/-- The rule for a loop that knows the place of each element. -/
theorem foldl_zipIdx {step : σ → α → ℕ → σ} {l : List α} {s : σ} {P : List α → σ → Prop}
    (start : P [] s) (next : ∀ done a rest s, l = done ++ a :: rest → P done s →
      P (done ++ [a]) (step s a done.length)) :
    P l (l.zipIdx.foldl (fun s p => step s p.1 p.2) s) := by
  suffices h : ∀ rest done s, l = done ++ rest → P done s →
      P l ((rest.zipIdx done.length).foldl (fun s p => step s p.1 p.2) s) from h l [] s rfl start
  intro rest
  induction rest with
  | nil =>
    intro done s hl hP
    rw [List.append_nil] at hl
    exact hl ▸ hP
  | cons a rest ih =>
    intro done s hl hP
    have := ih (done ++ [a]) (step s a done.length)
      (by rw [hl, List.append_assoc, List.singleton_append]) (next done a rest s hl hP)
    rwa [List.length_append, List.length_singleton] at this

/-- The rule for a loop whose steps can fail; here none does. -/
theorem foldlM_prefix {step : σ → α → Option σ} {l : List α} {s : σ} {P : List α → σ → Prop}
    (start : P [] s) (next : ∀ done a rest s, l = done ++ a :: rest → P done s →
      ∃ s', step s a = some s' ∧ P (done ++ [a]) s') :
    ∃ s', l.foldlM step s = some s' ∧ P l s' := by
  suffices h : ∀ rest done s, l = done ++ rest → P done s →
      ∃ s', rest.foldlM step s = some s' ∧ P l s' from h l [] s rfl start
  intro rest
  induction rest with
  | nil =>
    intro done s hl hP
    rw [List.append_nil] at hl
    exact ⟨s, rfl, hl ▸ hP⟩
  | cons a rest ih =>
    intro done s hl hP
    obtain ⟨s₁, hstep, hP₁⟩ := next done a rest s hl hP
    obtain ⟨s₂, hrest, hP₂⟩ :=
      ih (done ++ [a]) s₁ (by rw [hl, List.append_assoc, List.singleton_append]) hP₁
    refine ⟨s₂, ?_, hP₂⟩
    rw [List.foldlM_cons, hstep]
    exact hrest

/-- A loop that enters each element at its own place makes a table of the places. -/
theorem foldl_update {β : Type*} [DecidableEq β] {place : α → β} {l : List α}
    (hplace : ∀ a ∈ l, ∀ b ∈ l, place a = place b → a = b) (table : β → α) {a : α} (ha : a ∈ l) :
    l.foldl (fun table a => Function.update table (place a) a) table (place a) = a := by
  induction l using List.reverseRecOn with
  | nil => cases ha
  | append_singleton l b ih =>
    have hb : b ∈ l ++ [b] := List.mem_append_right _ (List.mem_singleton_self b)
    rw [List.foldl_append, List.foldl_cons, List.foldl_nil, Function.update_apply]
    split_ifs with heq
    · exact (hplace a ha b hb heq).symm
    · have hl : a ∈ l := by
        rcases List.mem_append.mp ha with hl | hl
        · exact hl
        · exact absurd (congrArg place (List.mem_singleton.mp hl)) heq
      exact ih (fun a ha b hb => hplace a (List.mem_append_left _ ha) b (List.mem_append_left _ hb))
        hl

/-- Two nested loops are one. -/
theorem foldlM_flatMap {γ : Type*} (step : σ → α → Option σ) (f : γ → List α) (l : List γ) (s : σ) :
    l.foldlM (fun s c => (f c).foldlM step s) s = (l.flatMap f).foldlM step s := by
  induction l generalizing s with
  | nil => rfl
  | cons c l ih =>
    rw [List.foldlM_cons, List.flatMap_cons, List.foldlM_append]
    exact bind_congr fun s => ih s

end Folds

end Dsom
