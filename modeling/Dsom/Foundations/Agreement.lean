import Mathlib.Tactic.Common

/-!
# Foundations/Agreement — two computations that consume their input

A relational logic for state-passing computations that can fail.  `Agree A pre n d p q`: from
states that look the same and have size at most `n`, `p` and `q` fail alike, and not in a bad way,
or return the same value, again in states that look the same, and at least `d` smaller.

Taking for `p` and `q` one recursive function with two amounts of fuel, and "out of fuel" as the bad
failure, this says that the function terminates and that its result does not depend on the fuel.
-/

namespace Dsom

/-- What is kept fixed: which states look the same, how large one is, and which failures are bad. -/
structure Agreement (σ ε : Type) where
  same : σ → σ → Prop
  size : σ → ℕ
  bad : ε → Prop

variable {σ ε α β : Type} {A : Agreement σ ε} {pre : σ → Prop} {n d : ℕ}

/-- Two results agree, having consumed `d` from a state of size `m`. -/
def ResultsAgree (A : Agreement σ ε) (m d : ℕ) :
    Except ε (α × σ) → Except ε (α × σ) → Prop
  | .ok (a, t), .ok (b, t') => a = b ∧ A.same t t' ∧ A.size t + d ≤ m
  | .error e, .error e' => e = e' ∧ ¬ A.bad e
  | _, _ => False

/-- What results that agree can be. -/
theorem ResultsAgree.cases {m : ℕ} {x y : Except ε (α × σ)} (h : ResultsAgree A m d x y) :
    (∃ a t t', x = .ok (a, t) ∧ y = .ok (a, t') ∧ A.same t t' ∧ A.size t + d ≤ m) ∨
    ∃ e, x = .error e ∧ y = .error e ∧ ¬ A.bad e := by
  match x, y, h with
  | .ok (a, t), .ok (_, t'), ⟨rfl, hsame, hle⟩ => exact .inl ⟨a, t, t', rfl, rfl, hsame, hle⟩
  | .error e, .error _, ⟨rfl, he⟩ => exact .inr ⟨e, rfl, rfl, he⟩

/-- **Agreement** of two computations. -/
def Agree (A : Agreement σ ε) (pre : σ → Prop) (n d : ℕ) (p q : StateT σ (Except ε) α) : Prop :=
  ∀ s s', A.same s s' → pre s → A.size s ≤ n → ResultsAgree A (A.size s) d (p s) (q s')

section Rules

variable {p q : StateT σ (Except ε) α} {f g : α → StateT σ (Except ε) β}

/-- Two results agree with themselves. -/
theorem agree_pure (a : α) : Agree A pre n 0 (pure a) (pure a) :=
  fun _ _ hs _ _ => ⟨rfl, hs, Nat.le_refl _⟩

/-- Two errors agree, if they are not bad ones. -/
theorem agree_error {e : ε} (he : ¬ A.bad e) :
    Agree A pre n d (fun _ => .error e : StateT σ (Except ε) α) fun _ => .error e :=
  fun _ _ _ _ _ => ⟨rfl, he⟩

/-- Less may be said. -/
theorem Agree.mono {pre' : σ → Prop} {n' d' : ℕ} (h : Agree A pre n d p q)
    (hpre : ∀ s, pre' s → pre s)
    (hn : n' ≤ n) (hd : d' ≤ d) : Agree A pre' n' d' p q := by
  intro s s' hs hpre' hsize
  rcases (h s s' hs (hpre s hpre') (Nat.le_trans hsize hn)).cases with
    ⟨a, t, t', hp, hq, hsame, hle⟩ | ⟨e, hp, hq, he⟩
  · rw [hp, hq]
    exact ⟨rfl, hsame, by omega⟩
  · rw [hp, hq]
    exact ⟨rfl, he⟩

/-- Less consumed is also agreed on. -/
theorem Agree.weaken {d' : ℕ} (h : Agree A pre n d p q) (hd : d' ≤ d) : Agree A pre n d' p q :=
  h.mono (fun _ => id) (Nat.le_refl _) hd

/-- **Sequencing**: what is left for the second computation is smaller by what the first consumed.
-/
theorem Agree.bind {d' : ℕ} (h : Agree A pre n d p q)
    (hfg : ∀ a, d ≤ n → Agree A (fun _ => True) (n - d) d' (f a) (g a)) :
    Agree A pre n (d + d') (p >>= f) (q >>= g) := by
  intro s s' hs hpre hsize
  change ResultsAgree A _ _ (Except.bind (p s) fun r => f r.1 r.2)
    (Except.bind (q s') fun r => g r.1 r.2)
  rcases (h s s' hs hpre hsize).cases with ⟨a, t, t', hp, hq, hsame, hle⟩ | ⟨e, hp, hq, he⟩
  · rw [hp, hq]
    change ResultsAgree A _ _ (f a t) (g a t')
    rcases (hfg a (by omega) t t' hsame trivial (by omega)).cases with
      ⟨b, u, u', hf, hg, hsame', hle'⟩ | ⟨e, hf, hg, he⟩
    · rw [hf, hg]
      exact ⟨rfl, hsame', by omega⟩
    · rw [hf, hg]
      exact ⟨rfl, he⟩
  · rw [hp, hq]
    exact ⟨rfl, he⟩

/-- **Looking at the state**: what is seen is the same on both sides, and is known from then on. -/
theorem agree_read {v : σ → α} (hv : ∀ s s', A.same s s' → v s = v s')
    (hfg : ∀ a, Agree A (fun s => pre s ∧ v s = a) n d (f a) (g a)) :
    Agree A pre n d ((fun s => .ok (v s, s) : StateT σ (Except ε) α) >>= f)
      ((fun s => .ok (v s, s) : StateT σ (Except ε) α) >>= g) := by
  intro s s' hs hpre hsize
  change ResultsAgree A _ _ (f (v s) s) (g (v s') s')
  rw [← hv s s' hs]
  exact hfg (v s) s s' hs ⟨hpre, rfl⟩ hsize

/-- Two programs agree where both branches do. -/
theorem agree_ite {c : Prop} [Decidable c] {p' q' : StateT σ (Except ε) α}
    (hpos : c → Agree A pre n d p q) (hneg : ¬ c → Agree A pre n d p' q') :
    Agree A pre n d (if c then p else p') (if c then q else q') := by
  by_cases h : c
  · rw [if_pos h, if_pos h]
    exact hpos h
  · rw [if_neg h, if_neg h]
    exact hneg h

end Rules

end Dsom
