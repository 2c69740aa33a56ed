import Mathlib.Data.List.Nodup
import Mathlib.Data.List.Perm.Subperm
import Mathlib.Tactic.Common

/-!
# Foundations/Orbit — following a partial function

`orbit step n a` are the first `n` points that are met on following `step` from `a`.  If `step` is
defined on finitely many points only, then following it ends exactly when no point is met twice
(`EndsWithin.nodup`, `endsWithin_of_nodup`).  A measure that every step lowers leads to an end
(`exists_getLast?_orbit`).
-/

namespace Dsom

variable {α : Type} {step : α → Option α} {a b : α} {n k : ℕ}

/-- The first `n` points from `a` on. -/
def orbit (step : α → Option α) : ℕ → α → List α
  | 0, _ => []
  | n + 1, a =>
      match step a with
      | some b => a :: orbit step n b
      | none => [a]

/-- There are at most `k` points from `a` on. -/
def EndsWithin (step : α → Option α) (k : ℕ) (a : α) : Prop := ∀ n, (orbit step n a).length ≤ k

/-- One step, then the rest of the orbit. -/
theorem orbit_some (h : step a = some b) : orbit step (n + 1) a = a :: orbit step n b := by
  rw [orbit, h]

theorem orbit_none (h : step a = none) : orbit step (n + 1) a = [a] := by
  rw [orbit, h]

theorem endsWithin_none (h : step a = none) : EndsWithin step 1 a := by
  intro n
  cases n with
  | zero => exact Nat.zero_le _
  | succ n =>
      rw [orbit_none h]
      exact Nat.le_refl _

/-- An orbit ends one step later than that of the next element. -/
theorem endsWithin_some (h : step a = some b) : EndsWithin step
    (k + 1) a ↔ EndsWithin step k b := by
  constructor
  · intro ha n
    have := ha (n + 1)
    rw [orbit_some h] at this
    exact Nat.le_of_succ_le_succ this
  · intro hb n
    cases n with
    | zero => exact Nat.zero_le _
    | succ n =>
        rw [orbit_some h]
        exact Nat.succ_le_succ (hb n)

theorem not_endsWithin_zero : ¬ EndsWithin step 0 a := by
  intro h
  have := h 1
  rw [orbit] at this
  split at this <;> exact absurd this (by simp)

/-- What is met on the way ends as soon. -/
theorem EndsWithin.of_mem (h : EndsWithin step k a) (hb : b ∈ orbit step n a) :
    EndsWithin step k b := by
  induction n generalizing a k with
  | zero => cases hb
  | succ n ih =>
      cases hs : step a with
      | none =>
          rw [orbit_none hs, List.mem_singleton] at hb
          rwa [hb]
      | some c =>
          rw [orbit_some hs] at hb
          rcases List.mem_cons.1 hb with rfl | hb
          · exact h
          · obtain ⟨k, rfl⟩ : ∃ j, k = j + 1 := by
              cases k with
              | zero => exact absurd h not_endsWithin_zero
              | succ k => exact ⟨k, rfl⟩
            have hle := ih ((endsWithin_some hs).1 h) hb
            exact fun m => Nat.le_succ_of_le (hle m)

/-- A point that is met again is met for ever. -/
theorem not_endsWithin_of_mem (hs : step a = some b) (hmem : a ∈ orbit step n b) :
    ¬ EndsWithin step k a := by
  induction k with
  | zero => exact not_endsWithin_zero
  | succ k ih => exact fun h => ih (((endsWithin_some hs).1 h).of_mem hmem)

/-- **Where following `step` ends, no point is met twice.** -/
theorem EndsWithin.nodup (h : EndsWithin step k a) : (orbit step n a).Nodup := by
  induction n generalizing a with
  | zero => exact List.nodup_nil
  | succ n ih =>
      cases hs : step a with
      | none =>
          rw [orbit_none hs]
          exact List.nodup_singleton a
      | some b =>
          rw [orbit_some hs, List.nodup_cons]
          refine ⟨fun hmem => not_endsWithin_of_mem hs hmem h, ih ?_⟩
          exact h.of_mem (n := 2) (by rw [orbit_some hs, orbit]; split <;> simp)

/-- All points but the last are points where `step` is defined. -/
theorem dropLast_orbit_subset {keys : List α} (hkeys : ∀ a b, step a = some b → a ∈ keys) :
    (orbit step n a).dropLast ⊆ keys := by
  induction n generalizing a with
  | zero => exact List.nil_subset _
  | succ n ih =>
      cases hs : step a with
      | none =>
          rw [orbit_none hs]
          exact List.nil_subset _
      | some b =>
          rw [orbit_some hs]
          cases hl : orbit step n b with
          | nil => exact List.nil_subset _
          | cons c l =>
              rw [List.dropLast_cons_cons, ← hl]
              exact List.cons_subset.2 ⟨hkeys a b hs, ih⟩

/-- **If no point is met twice, following `step` ends.** -/
theorem endsWithin_of_nodup {keys : List α} (hkeys : ∀ a b, step a = some b → a ∈ keys)
    (h : ∀ n, (orbit step n a).Nodup) : EndsWithin step (keys.length + 1) a := by
  intro n
  have hle : (orbit step n a).dropLast.length ≤ keys.length :=
    (List.subperm_of_subset ((h n).sublist (List.dropLast_sublist _))
    (dropLast_orbit_subset hkeys)).length_le
  rw [List.length_dropLast] at hle
  omega

/-! ## Invariants with a measure -/

section Measure

variable {P : ℕ → α → Prop}
  (hstep : ∀ m a, P m a → step a = none ∨ ∃ b, step a = some b ∧ ∃ m' < m, P m' b)

include hstep

/-- What every step keeps holds all the way. -/
theorem forall_mem_orbit {m : ℕ} (ha : P m a) : ∀ b ∈ orbit step n a, ∃ m, P m b := by
  induction n generalizing a m with
  | zero => exact fun b hb => nomatch hb
  | succ n ih =>
      intro c hc
      rcases hstep m a ha with hnone | ⟨b, hsome, m', -, hb⟩
      · rw [orbit_none hnone, List.mem_singleton] at hc
        exact ⟨m, hc ▸ ha⟩
      · rw [orbit_some hsome] at hc
        rcases List.mem_cons.1 hc with rfl | hc
        · exact ⟨m, ha⟩
        · exact ih hb c hc

/-- A measure that every step lowers leads to an end. -/
theorem exists_getLast?_orbit {m : ℕ} (ha : P m a) :
    ∃ n b, (orbit step n a).getLast? = some b ∧ step b = none ∧ ∃ m, P m b := by
  induction m using Nat.strongRecOn generalizing a with
  | _ m ih =>
      rcases hstep m a ha with hnone | ⟨b, hsome, m', hlt, hb⟩
      · exact ⟨1, a, by rw [orbit_none hnone]; rfl, hnone, m, ha⟩
      · obtain ⟨n, c, hlast, hc⟩ := ih m' hlt hb
        refine ⟨n + 1, c, ?_, hc⟩
        rw [orbit_some hsome, List.getLast?_cons, hlast]
        rfl

end Measure

end Dsom
