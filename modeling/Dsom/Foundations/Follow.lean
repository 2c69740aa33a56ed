import Mathlib.Data.List.Nodup
import Mathlib.Data.List.Perm.Subperm
import Mathlib.Logic.Relation
import Mathlib.Tactic.Common

/-!
# Foundations/Follow — following a function to a fixed point

`Ends next m a b`: from `a` the function `next` leads in `m` steps to `b`, where it stays.  In a
finite set that the function does not leave, it leads somewhere unless it runs in a circle
(`exists_ends`).
-/

namespace Dsom

namespace Follow

variable {α : Type} {next : α → α} {a b b' c : α} {m m' : ℕ}

/-- The function leads from a point to one where it stays. -/
inductive Ends (next : α → α) : ℕ → α → α → Prop
  | stay {a : α} (h : next a = a) : Ends next 0 a a
  | go {m : ℕ} {a b : α} (h : next a ≠ a) (rest : Ends next m (next a) b) : Ends next (m + 1) a b

/-- The end is a fixed point. -/
theorem Ends.fixed (h : Ends next m a b) : next b = b := by
  induction h with
  | stay h => exact h
  | go _ _ ih => exact ih

/-- There is one end. -/
theorem Ends.unique (h : Ends next m a b) (h' : Ends next m' a b') : b = b' := by
  induction h generalizing m' with
  | stay h =>
    cases h' with
    | stay => rfl
    | go h'' => exact absurd h h''
  | go h _ ih =>
    cases h' with
    | stay h'' => exact absurd h'' h
    | go _ rest => exact ih rest

/-- A fixed point is its own end. -/
theorem Ends.eq_of_fixed (h : Ends next m a b) (ha : next a = a) : b = a :=
  h.unique (.stay ha)

/-- A set that the function does not leave. -/
theorem Ends.mem {l : List α} (hmaps : ∀ a ∈ l, next a ∈ l) (h : Ends next m a b) (ha : a ∈ l) :
    b ∈ l := by
  induction h with
  | stay => exact ha
  | go _ _ ih => exact ih (hmaps _ ha)

/-- The way to the end has a fixed length. -/
theorem Ends.steps_unique (h : Ends next m a b) (h' : Ends next m' a b') : m = m' := by
  induction h generalizing m' with
  | stay h =>
    cases h' with
    | stay => rfl
    | go h'' => exact absurd h h''
  | go h _ ih =>
    cases h' with
    | stay h'' => exact absurd h'' h
    | go _ rest => rw [ih rest]

/-- The way to the end passes no point twice. -/
theorem Ends.lt_length {l : List α} (hmaps : ∀ a ∈ l, next a ∈ l) (h : Ends next m a b)
    (ha : a ∈ l) : m < l.length := by
  suffices hpath : ∃ path : List α, path.length = m + 1 ∧ path.Nodup ∧ path ⊆ l ∧
      ∀ x ∈ path, ∃ k ≤ m, Ends next k x b by
    obtain ⟨path, hlen, hnodup, hsub, -⟩ := hpath
    have := (List.subperm_of_subset hnodup hsub).length_le
    omega
  induction h with
  | @stay a hstay =>
    refine ⟨[a], rfl, List.nodup_singleton a, by simpa using ha, fun x hx => ?_⟩
    rw [List.mem_singleton.mp hx]
    exact ⟨0, Nat.le_refl 0, .stay hstay⟩
  | @go m a b hne rest ih =>
    obtain ⟨path, hlen, hnodup, hsub, hends⟩ := ih (hmaps a ha)
    refine ⟨a :: path, by rw [List.length_cons, hlen], List.nodup_cons.mpr ⟨fun hmem => ?_, hnodup⟩,
      List.cons_subset.mpr ⟨ha, hsub⟩, fun x hx => ?_⟩
    · obtain ⟨k, hk, hends⟩ := hends a hmem
      have := hends.steps_unique (.go hne rest)
      omega
    · rcases List.mem_cons.mp hx with rfl | hx
      · exact ⟨m + 1, Nat.le_refl _, .go hne rest⟩
      · obtain ⟨k, hk, hends⟩ := hends x hx
        exact ⟨k, by omega, hends⟩

/-- A step that leads elsewhere. -/
def Moves (next : α → α) (a b : α) : Prop := next a = b ∧ a ≠ b

/-- **The function leads somewhere**, unless it runs in a circle. -/
theorem exists_ends {l : List α} (hmaps : ∀ a ∈ l, next a ∈ l) (ha : a ∈ l)
    (hcycle : ∀ c, Relation.ReflTransGen (Moves next) a c →
      ¬ Relation.TransGen (Moves next) c c) :
    ∃ m b, Ends next m a b := by
  -- the points that were passed are distinct, and there are not more of them than points
  suffices h : ∀ n, ∀ a ∈ l, (∀ c, Relation.ReflTransGen (Moves next) a c →
      ¬ Relation.TransGen (Moves next) c c) → ∀ passed : List α, passed ⊆ l → (a :: passed).Nodup →
      (∀ x ∈ passed, Relation.TransGen (Moves next) x a) → l.length ≤ passed.length + n →
      ∃ m b, Ends next m a b from
    h l.length a ha hcycle [] (List.nil_subset _) (List.nodup_singleton _) nofun (by simp)
  intro n
  induction n with
  | zero =>
    intro a ha _ passed hsub hnodup _ hlen
    have := (List.subperm_of_subset hnodup (List.cons_subset.mpr ⟨ha, hsub⟩)).length_le
    simp only [List.length_cons] at this
    omega
  | succ n ih =>
    intro a ha hcycle passed hsub hnodup hpassed hlen
    by_cases hstay : next a = a
    · exact ⟨0, a, .stay hstay⟩
    have hmove : Moves next a (next a) := ⟨rfl, fun h => hstay h.symm⟩
    have hall : ∀ x ∈ a :: passed, Relation.TransGen (Moves next) x (next a) := by
      intro x hx
      rcases List.mem_cons.mp hx with rfl | hx
      · exact .single hmove
      · exact (hpassed x hx).tail hmove
    obtain ⟨m, b, hends⟩ := ih (next a) (hmaps a ha) (fun c hc => hcycle c (.head hmove hc))
      (a :: passed) (List.cons_subset.mpr ⟨ha, hsub⟩)
      (List.nodup_cons.mpr ⟨fun hmem => hcycle _ (.single hmove) (hall _ hmem), hnodup⟩) hall
      (by simp only [List.length_cons]; omega)
    exact ⟨m + 1, b, .go hstay hends⟩

end Follow

end Dsom
