import Mathlib.Data.List.Infix
import Mathlib.Tactic.Common

/-!
# Foundations/Traces — what a deterministic system shows

A step shows some events, maybe none, and goes on or ends.  `trace step n s` is what `n` steps from
`s` show.  Two systems *agree* (`Agree`) from two states when every trace of one is a prefix of a
trace of the other: then they show the same sequence of events, be it finite or infinite.

`agree_of_matches` is the rule by which this is proved: related states go on, each by at least one
step, to related states, and show the same on the way.
-/

namespace Dsom

namespace Traces

variable {σ τ ρ ε : Type}

/-- What a number of steps show, and where they lead; a system that has ended stays so. -/
def runFor (step : σ → List ε × Option σ) : ℕ → σ → List ε × Option σ
  | 0, s => ([], some s)
  | n + 1, s =>
    match step s with
    | (events, none) => (events, none)
    | (events, some s') => (events ++ (runFor step n s').1, (runFor step n s').2)

/-- The events of the first `n` steps. -/
def trace (step : σ → List ε × Option σ) (n : ℕ) (s : σ) : List ε := (runFor step n s).1

section Run

variable {step : σ → List ε × Option σ} {s s' : σ} {events events' : List ε} {m n : ℕ}
  {out : Option σ}

theorem runFor_one (h : step s = (events, out)) : runFor step 1 s = (events, out) := by
  rw [runFor, h]
  cases out <;> simp [runFor]

/-- Running on from where the first steps end. -/
theorem runFor_add_of_some (h : runFor step m s = (events, some s')) :
    runFor step (m + n) s = (events ++ (runFor step n s').1, (runFor step n s').2) := by
  induction m generalizing s events with
  | zero =>
    obtain ⟨rfl, rfl⟩ : [] = events ∧ s = s' := by simpa [runFor] using h
    simp
  | succ m ih =>
    rw [Nat.succ_add, runFor]
    rw [runFor] at h
    split at h
    · simp at h
    · obtain ⟨rfl, hnext⟩ := Prod.ext_iff.mp h
      have hrest := ih (Prod.ext rfl hnext)
      simp [hrest]

/-- After the end nothing is shown any more. -/
theorem runFor_add_of_none (h : runFor step m s = (events, none)) (n : ℕ) :
    runFor step (m + n) s = (events, none) := by
  induction m generalizing s events with
  | zero => simp [runFor] at h
  | succ m ih =>
    rw [Nat.succ_add, runFor]
    rw [runFor] at h
    split at h
    · exact h
    · obtain ⟨rfl, hnext⟩ := Prod.ext_iff.mp h
      have hrest := ih (Prod.ext rfl hnext)
      simp [hrest]

/-- One run after another. -/
theorem runFor_append (h : runFor step m s = (events, some s'))
    (h' : runFor step n s' = (events', out)) :
    runFor step (m + n) s = (events ++ events', out) := by
  rw [runFor_add_of_some h, h']

/-- More steps show more. -/
theorem trace_prefix_add (step : σ → List ε × Option σ) (m n : ℕ) (s : σ) :
    trace step m s <+: trace step (m + n) s := by
  rcases h : runFor step m s with ⟨events, _ | s'⟩
  · rw [trace, trace, runFor_add_of_none h, h]
  · rw [trace, trace, runFor_add_of_some h, h]
    exact List.prefix_append _ _

end Run

/-! ## Agreement

Two systems agree if each shows whatever the other shows, sooner or later. -/

/-- Every trace of the first system is a prefix of a trace of the second. -/
def Shown (step : σ → List ε × Option σ) (s : σ) (step' : τ → List ε × Option τ) (t : τ) : Prop :=
  ∀ n, ∃ n', trace step n s <+: trace step' n' t

/-- The systems show the same. -/
def Agree (step : σ → List ε × Option σ) (s : σ) (step' : τ → List ε × Option τ) (t : τ) : Prop :=
  Shown step s step' t ∧ Shown step' t step s

variable {step : σ → List ε × Option σ} {step' : τ → List ε × Option τ}
  {step'' : ρ → List ε × Option ρ} {s : σ} {t : τ} {r : ρ}

/-- What is shown twice over. -/
theorem Shown.trans (h : Shown step s step' t) (h' : Shown step' t step'' r) :
    Shown step s step'' r := by
  intro n
  obtain ⟨n', hn'⟩ := h n
  obtain ⟨n'', hn''⟩ := h' n'
  exact ⟨n'', hn'.trans hn''⟩

theorem Agree.refl (step : σ → List ε × Option σ) (s : σ) : Agree step s step s :=
  ⟨fun n => ⟨n, List.prefix_refl _⟩, fun n => ⟨n, List.prefix_refl _⟩⟩

theorem Agree.trans (h : Agree step s step' t) (h' : Agree step' t step'' r) :
    Agree step s step'' r :=
  ⟨h.1.trans h'.1, h'.2.trans h.2⟩

/-- Both systems go on by some steps, show the same, and end or come to related states. -/
def Matches (R : σ → τ → Prop) (step : σ → List ε × Option σ) (s : σ)
    (step' : τ → List ε × Option τ) (t : τ) : Prop :=
  ∃ m m' events, ∃ out out', runFor step (m + 1) s = (events, out) ∧
    runFor step' (m' + 1) t = (events, out') ∧ Option.Rel R out out'

/-- A matching relation works in both directions. -/
theorem Matches.symm {R : σ → τ → Prop} (h : Matches R step s step' t) :
    Matches (fun t s => R s t) step' t step s := by
  obtain ⟨m, m', events, out, out', hm, hm', hrel⟩ := h
  refine ⟨m', m, events, out', out, hm', hm, ?_⟩
  cases hrel with
  | some h => exact .some h
  | none => exact .none

/-- In matching states, what one system shows the other one does. -/
theorem shown_of_matches {R : σ → τ → Prop}
    (hR : ∀ s t, R s t → Matches R step s step' t) (h : R s t) : Shown step s step' t := by
  intro n
  induction n using Nat.strong_induction_on generalizing s t with
  | _ n ih =>
    obtain ⟨m, m', events, out, out', hm, hm', hrel⟩ := hR s t h
    rcases Nat.lt_or_ge n (m + 1) with hlt | hge
    · -- the trace ends on the way
      refine ⟨m' + 1, ?_⟩
      have := trace_prefix_add step n (m + 1 - n) s
      rwa [Nat.add_sub_cancel' hlt.le, trace, trace, hm, ← congrArg Prod.fst hm'] at this
    · obtain ⟨k, rfl⟩ := Nat.exists_eq_add_of_le hge
      cases hrel with
      | none =>
        refine ⟨m' + 1, ?_⟩
        rw [trace, trace, runFor_add_of_none hm, hm']
      | some hrel =>
        obtain ⟨k', hk'⟩ := ih k (by omega) hrel
        refine ⟨m' + 1 + k', ?_⟩
        rw [trace, trace, runFor_add_of_some hm, runFor_add_of_some hm']
        exact List.prefix_append_right_inj events |>.mpr hk'

/-- **The rule for agreement.** -/
theorem agree_of_matches {R : σ → τ → Prop} (hR : ∀ s t, R s t → Matches R step s step' t)
    (h : R s t) : Agree step s step' t :=
  ⟨shown_of_matches hR h,
    shown_of_matches (R := fun t s => R s t) (fun t s hts => (hR s t hts).symm) h⟩

end Traces

end Dsom
