import Mathlib.Data.Finite.Prod
import Mathlib.Data.Fintype.Pi
import Mathlib.Order.Bounds.Basic
import Mathlib.Order.Preorder.Finite
import Mathlib.Data.Fintype.Order

/-!
# Foundations/Rules — monotone rules over a store of masks

A rule adds to one cell a value computed from the store.  Whatever is run, in whatever order, stays
below every solution of the rules (`Rule.run_le`); so a store that was reached by running rules and
in which every rule holds is the least solution.  `naive` runs all rules until nothing changes, and
is the least solution when there are finitely many masks (`naive_isLeast`).
-/

namespace Dsom

namespace Rules

/-! ## Loops that stop when nothing changes -/

section Loop

variable {S : Type*} (f : S → S × Bool)

/-- Repeat `f` until it reports no change; `none` when the fuel runs out. -/
def untilStable : ℕ → S → Option S
  | 0, _ => none
  | fuel + 1, s => if (f s).2 then untilStable fuel (f s).1 else some (f s).1

variable {f}

/-- More fuel changes nothing. -/
theorem untilStable_mono {s t : S} : ∀ {n : ℕ}, untilStable f n s = some t →
    ∀ {m : ℕ}, n ≤ m → untilStable f m s = some t := by
  intro n
  induction n generalizing s with
  | zero => intro h; cases h
  | succ n ih =>
      intro h m hm
      obtain ⟨m, rfl⟩ : ∃ k, m = k + 1 := ⟨m - 1, by omega⟩
      rw [untilStable] at h ⊢
      split_ifs at h ⊢ with hf
      · exact ih h (by omega)
      · exact h

/-- What the body preserves holds where the last, idle, round began. -/
theorem untilStable_ind {P : S → Prop} (step : ∀ s, P s → P (f s).1) {s t : S} :
    ∀ {n : ℕ}, untilStable f n s = some t → P s → ∃ r, P r ∧ f r = (t, false) := by
  intro n
  induction n generalizing s with
  | zero => intro h; cases h
  | succ n ih =>
      intro h hs
      rw [untilStable] at h
      split_ifs at h with hf
      · exact ih h (step s hs)
      · refine ⟨s, hs, ?_⟩
        rw [Option.some.injEq] at h
        exact Prod.ext h (by simpa using hf)

/-- **The loop ends** when every round that reports a change climbs a well-founded order. -/
theorem exists_untilStable {β : Type*} [Preorder β] [WellFoundedGT β] (m : S → β)
    (climb : ∀ s, (f s).2 = true → m s < m (f s).1) (s : S) :
    ∃ n t, untilStable f n s = some t := by
  induction h : m s using WellFoundedGT.induction generalizing s with
  | ind b ih =>
      by_cases hf : (f s).2 = true
      · obtain ⟨n, t, ht⟩ := ih (m (f s).1) (h ▸ climb s hf) _ rfl
        exact ⟨n + 1, t, by rw [untilStable, if_pos hf, ht]⟩
      · exact ⟨1, (f s).1, by rw [untilStable, if_neg hf]⟩

end Loop

/-! ## Rules

A rule joins a value into one cell; it holds of a store if that adds nothing. -/

/-- Add `val` of the store to the cell `dst`. -/
structure Rule (κ α : Type*) where
  dst : κ
  val : (κ → α) → α

variable {κ α : Type*} [DecidableEq κ] [SemilatticeSup α] {σ τ : κ → α} {r : Rule κ α}
  {rs : List (Rule κ α)}

namespace Rule

/-- Take the rule's value into its destination. -/
def run (r : Rule κ α) (σ : κ → α) : κ → α := Function.update σ r.dst (σ r.dst ⊔ r.val σ)

/-- The rule has nothing to add. -/
def Holds (r : Rule κ α) (σ : κ → α) : Prop := r.val σ ≤ σ r.dst

/-- The value depends on the cells `s` only. -/
def ReadsOnly (r : Rule κ α) (s : Set κ) : Prop :=
  ∀ ⦃σ τ : κ → α⦄, (∀ k ∈ s, σ k = τ k) → r.val σ = r.val τ

@[simp] theorem run_dst : r.run σ r.dst = σ r.dst ⊔ r.val σ := Function.update_self ..

theorem run_of_ne {k : κ} (h : k ≠ r.dst) : r.run σ k = σ k := Function.update_of_ne h ..

theorem le_run : σ ≤ r.run σ := by
  intro k
  by_cases h : k = r.dst
  · subst h
    exact le_sup_left.trans run_dst.ge
  · exact (run_of_ne h).ge

theorem val_le_run : r.val σ ≤ r.run σ r.dst := le_sup_right.trans run_dst.ge

/-- A rule changes nothing exactly where it holds. -/
theorem run_eq_self_iff : r.run σ = σ ↔ r.Holds σ := by
  rw [run, Function.update_eq_self_iff, sup_eq_left, Holds]

/-- **A run stays below every solution.** -/
theorem run_le (hm : Monotone r.val) (hτ : r.Holds τ) (h : σ ≤ τ) : r.run σ ≤ τ := by
  intro k
  by_cases hk : k = r.dst
  · subst hk
    rw [run_dst]
    exact sup_le (h _) ((hm h).trans hτ)
  · exact (run_of_ne hk).trans_le (h k)

/-- A rule that was run holds for as long as nothing it reads has changed. -/
theorem holds_of_run_le {s : Set κ} (hr : r.ReadsOnly s) (hs : ∀ k ∈ s, σ k = τ k)
    (h : r.run σ ≤ τ) : r.Holds τ := by
  rw [Holds, ← hr hs]
  exact val_le_run.trans (h _)

omit [DecidableEq κ] in
/-- A rule that held, too. -/
theorem Holds.of_le {s : Set κ} (hr : r.ReadsOnly s) (hs : ∀ k ∈ s, σ k = τ k) (h : σ ≤ τ)
    (hσ : r.Holds σ) : r.Holds τ := by
  rw [Holds, ← hr hs]
  exact hσ.trans (h _)

end Rule

/-! ## Running a list of rules -/

/-- Run the rules in order. -/
def runAll (rs : List (Rule κ α)) (σ : κ → α) : κ → α := rs.foldl (fun σ r => r.run σ) σ

@[simp] theorem runAll_nil : runAll [] σ = σ := rfl

@[simp] theorem runAll_cons : runAll (r :: rs) σ = runAll rs (r.run σ) := rfl

theorem runAll_append {rs' : List (Rule κ α)} :
    runAll (rs ++ rs') σ = runAll rs' (runAll rs σ) := List.foldl_append ..

/-- What every rule keeps, the list keeps. -/
theorem runAll_ind {P : (κ → α) → Prop} {rs : List (Rule κ α)}
    (step : ∀ r ∈ rs, ∀ σ, P σ → P (r.run σ)) (h : P σ) : P (runAll rs σ) := by
  induction rs generalizing σ with
  | nil => exact h
  | cons r rs ih =>
      exact ih (fun r' hr => step r' (.tail _ hr)) (step r (.head _) σ h)

theorem le_runAll : σ ≤ runAll rs σ := by
  induction rs generalizing σ with
  | nil => exact le_refl σ
  | cons r rs ih => exact Rule.le_run.trans ih

/-- A cell that no rule writes stays. -/
theorem runAll_of_notMem {k : κ} (h : ∀ r ∈ rs, k ≠ r.dst) : runAll rs σ k = σ k := by
  induction rs generalizing σ with
  | nil => rfl
  | cons r rs ih =>
      rw [runAll_cons, ih fun r' hr => h r' (.tail _ hr), Rule.run_of_ne (h r (.head _))]

/-- The rules stay below every solution. -/
theorem runAll_le (hm : ∀ r ∈ rs, Monotone r.val) (hτ : ∀ r ∈ rs, r.Holds τ) (h : σ ≤ τ) :
    runAll rs σ ≤ τ := by
  induction rs generalizing σ with
  | nil => exact h
  | cons r rs ih =>
      exact ih (fun r' hr => hm r' (.tail _ hr)) (fun r' hr => hτ r' (.tail _ hr))
        (Rule.run_le (hm r (.head _)) (hτ r (.head _)) h)

/-- The rules change nothing exactly where all of them hold. -/
theorem runAll_eq_self_iff : runAll rs σ = σ ↔ ∀ r ∈ rs, r.Holds σ := by
  induction rs generalizing σ with
  | nil => simp
  | cons r rs ih =>
      rw [runAll_cons, List.forall_mem_cons, ← Rule.run_eq_self_iff]
      constructor
      · intro h
        have hr : r.run σ = σ := le_antisymm (le_runAll.trans h.le) Rule.le_run
        exact ⟨hr, ih.mp (by rwa [hr] at h)⟩
      · rintro ⟨hr, h⟩
        rw [hr, ih.mpr h]

/-! ## …and noticing changes -/

section Steps

variable [DecidableEq α]

/-- Run the rules in order and report whether a cell changed. -/
def steps : List (Rule κ α) → (κ → α) → (κ → α) × Bool
  | [], σ => (σ, false)
  | r :: rs, σ =>
      let s := steps rs (r.run σ)
      (s.1, decide (σ r.dst ⊔ r.val σ ≠ σ r.dst) || s.2)

@[simp] theorem steps_fst : (steps rs σ).1 = runAll rs σ := by
  induction rs generalizing σ with
  | nil => rfl
  | cons r rs ih => exact ih

/-- No change is noticed exactly where all the rules hold. -/
theorem steps_snd : (steps rs σ).2 = false ↔ ∀ r ∈ rs, r.Holds σ := by
  induction rs generalizing σ with
  | nil => simp [steps]
  | cons r rs ih =>
      have hr : (decide (σ r.dst ⊔ r.val σ ≠ σ r.dst) = false) ↔ r.Holds σ := by
        simp [Rule.Holds]
      rw [steps, Bool.or_eq_false_iff, ih, hr, List.forall_mem_cons]
      constructor
      · rintro ⟨h, hs⟩
        exact ⟨h, by rwa [Rule.run_eq_self_iff.mpr h] at hs⟩
      · rintro ⟨h, hs⟩
        exact ⟨h, by rwa [Rule.run_eq_self_iff.mpr h]⟩

theorem steps_of_holds (h : ∀ r ∈ rs, r.Holds σ) : steps rs σ = (σ, false) :=
  Prod.ext (steps_fst.trans (runAll_eq_self_iff.mpr h)) (steps_snd.mpr h)

/-- A change is noticed exactly if there is one. -/
theorem steps_snd_iff : (steps rs σ).2 = false ↔ runAll rs σ = σ :=
  steps_snd.trans runAll_eq_self_iff.symm

theorem le_steps : σ ≤ (steps rs σ).1 := le_runAll.trans steps_fst.ge

theorem steps_of_notMem {k : κ} (h : k ∉ rs.map Rule.dst) : (steps rs σ).1 k = σ k := by
  rw [steps_fst]
  exact runAll_of_notMem fun r hr hk => h (hk ▸ List.mem_map_of_mem hr)

theorem steps_le (hm : ∀ r ∈ rs, Monotone r.val) (hτ : ∀ r ∈ rs, r.Holds τ) (h : σ ≤ τ) :
    (steps rs σ).1 ≤ τ := steps_fst.trans_le (runAll_le hm hτ h)

/-- An idle round: nothing changed, and every rule holds. -/
theorem steps_eq_false (h : steps rs σ = (τ, false)) : σ = τ ∧ ∀ r ∈ rs, r.Holds τ := by
  have hholds := steps_snd.mp (congrArg Prod.snd h)
  have heq : σ = τ := (steps_of_holds hholds).symm.trans h |> Prod.ext_iff.mp |>.1
  exact ⟨heq, heq ▸ hholds⟩

end Steps

/-! ## The naive iteration

Run all the rules until nothing changes; this reaches the least solution above the start. -/

/-- The part of the store in the cells `ks`. -/
def restrict (ks : List κ) (σ : κ → α) : {k // k ∈ ks} → α := fun k => σ k

omit [DecidableEq κ] in
/-- A store that grew within `ks` grew there strictly, unless it is the same. -/
theorem restrict_lt {ks : List κ} (h : σ ≤ τ) (hs : ∀ k, k ∉ ks → τ k = σ k) (hne : τ ≠ σ) :
    restrict ks σ < restrict ks τ := by
  refine lt_of_le_of_ne (fun k => h k) fun heq => hne (funext fun k => ?_)
  by_cases hk : k ∈ ks
  · exact (congrFun heq ⟨k, hk⟩).symm
  · exact hs k hk

omit [DecidableEq κ] in
/-- **Sweeps end**: a body that only adds, within finitely many cells, and reports every change. -/
theorem exists_untilStable_of_grows [Finite α] {f : (κ → α) → (κ → α) × Bool} (ks : List κ)
    (grows : ∀ σ, σ ≤ (f σ).1) (frame : ∀ σ k, k ∉ ks → (f σ).1 k = σ k)
    (flag : ∀ σ, (f σ).1 = σ → (f σ).2 = false) (σ : κ → α) :
    ∃ n τ, untilStable f n σ = some τ := by
  have : Finite {k // k ∈ ks} := List.finite_toSet ks
  have : WellFoundedGT ({k // k ∈ ks} → α) := Finite.to_wellFoundedGT
  refine exists_untilStable (restrict ks) (fun σ h => restrict_lt (grows σ) (frame σ) ?_) σ
  intro he
  rw [flag σ he] at h
  cases h

variable [DecidableEq α]

/-- Run every rule until nothing changes. -/
def naive (rs : List (Rule κ α)) : ℕ → (κ → α) → Option (κ → α) := untilStable (steps rs)

theorem exists_naive [Finite α] (rs : List (Rule κ α)) (σ : κ → α) :
    ∃ n τ, naive rs n σ = some τ :=
  exists_untilStable_of_grows (rs.map Rule.dst) (fun _ => le_steps) (fun _ _ => steps_of_notMem)
    (fun _ h => steps_snd_iff.mpr (steps_fst.symm.trans h)) σ

/-- **Where the naive iteration ends is the least solution** above the store it starts from. -/
theorem naive_isLeast (hm : ∀ r ∈ rs, Monotone r.val) {n : ℕ} (h : naive rs n σ = some τ) :
    IsLeast {ρ | σ ≤ ρ ∧ ∀ r ∈ rs, r.Holds ρ} τ := by
  constructor
  · obtain ⟨ω, hω, hf⟩ := untilStable_ind (P := fun ω => σ ≤ ω)
      (fun ω hω => hω.trans le_steps) h (le_refl σ)
    obtain ⟨rfl, hholds⟩ := steps_eq_false hf
    exact ⟨hω, hholds⟩
  · rintro ρ ⟨hρ, hr⟩
    obtain ⟨ω, hω, hf⟩ := untilStable_ind (P := fun ω => ω ≤ ρ)
      (fun ω hω => steps_le hm hr hω) h hρ
    obtain ⟨rfl, -⟩ := steps_eq_false hf
    exact hω

end Rules

end Dsom
