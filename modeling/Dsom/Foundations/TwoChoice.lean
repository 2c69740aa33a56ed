import Mathlib.Data.List.Basic
import Mathlib.Tactic.Common

/-!
# Foundations/TwoChoice — slot tables whose keys may sit only at candidate positions

A table is a list of cells; a cell is empty or carries a key, read by `key`.  `cand k i` says that
position `i` is a candidate for `k`.  A table is `Placed` when every stored key sits at one of its
candidates and no key is stored twice.

The one move of a displacement table is the **exchange**: drop a cell in the hand at a candidate
position and take out whatever was there.  `Placed.exchange` says what survives,
`Placed.fresh_exchange` that the key taken out is gone.
-/

namespace TwoChoice

variable {E K : Type*} {key : E → Option K} {cand : K → ℕ → Prop}

/-- No cell of the table carries the key. -/
def Fresh (key : E → Option K) (t : List E) (k : K) : Prop := ∀ e ∈ t, key e ≠ some k

/-- **The table invariant**: stored keys sit at candidates, and no key is stored twice. -/
structure Placed (key : E → Option K) (cand : K → ℕ → Prop) (t : List E) : Prop where
  at_cand : ∀ {i : ℕ} {e : E} {k : K}, t[i]? = some e → key e = some k → cand k i
  uniq : ∀ {i j : ℕ} {e e' : E} {k : K}, t[i]? = some e → t[j]? = some e' →
    key e = some k → key e' = some k → i = j

/-- A key is fresh if no entry has it. -/
theorem fresh_iff {t : List E} {k : K} : Fresh key t k ↔
    ∀ (i : ℕ) (e : E), t[i]? = some e → key e ≠ some k :=
  ⟨fun h _ _ hi => h _ (List.mem_of_getElem? hi), fun h e he => by
    obtain ⟨i, hi⟩ := List.mem_iff_getElem?.mp he
    exact h i e hi⟩

/-- An empty table is in order. -/
theorem placed_replicate {e : E} (he : key e = none) (n : ℕ) :
    Placed key cand (List.replicate n e) where
  at_cand hi hk := by
    obtain rfl := List.eq_of_mem_replicate (List.mem_of_getElem? hi)
    simp [he] at hk
  uniq hi _ hk _ := by
    obtain rfl := List.eq_of_mem_replicate (List.mem_of_getElem? hi)
    simp [he] at hk

theorem fresh_replicate {e : E} (he : key e = none) (n : ℕ) (k : K) :
    Fresh key (List.replicate n e) k := by
  intro e' he'
  obtain rfl := List.eq_of_mem_replicate he'
  simp [he]

/-- Two stored cells with one key are the same cell. -/
theorem Placed.stores_unique {t : List E} (ht : Placed key cand t) {e e' : E} {k : K}
    (he : e ∈ t) (he' : e' ∈ t) (hk : key e = some k) (hk' : key e' = some k) : e = e' := by
  obtain ⟨i, hi⟩ := List.mem_iff_getElem?.mp he
  obtain ⟨j, hj⟩ := List.mem_iff_getElem?.mp he'
  obtain rfl := ht.uniq hi hj hk hk'
  exact Option.some.inj (hi.symm.trans hj)

/-! ## The exchange move

An entry takes the place of another, which has to find a new one. -/

/-- A cell after a write is the one that was written, or an old one. -/
theorem of_getElem?_set {t : List E} {e e' : E} {pos i : ℕ} (h : (t.set pos e)[i]? = some e') :
    (i = pos ∧ e' = e) ∨ (i ≠ pos ∧ t[i]? = some e') := by
  rw [List.getElem?_set] at h
  split at h
  · next hpos =>
    split at h
    · exact .inl ⟨hpos.symm, (Option.some.inj h).symm⟩
    · cases h
  · next hne => exact .inr ⟨Ne.symm hne, h⟩

/-- **Dropping a fresh key at one of its candidates keeps the table placed.** -/
theorem Placed.exchange {t : List E} (ht : Placed key cand t) {e : E} {k : K} {pos : ℕ}
    (hk : key e = some k) (hf : Fresh key t k) (hc : cand k pos) :
    Placed key cand (t.set pos e) where
  at_cand hi hk' := by
    rcases of_getElem?_set hi with ⟨rfl, rfl⟩ | ⟨-, hi⟩
    · obtain rfl := Option.some.inj (hk.symm.trans hk')
      exact hc
    · exact ht.at_cand hi hk'
  uniq hi hj h₁ h₂ := by
    rw [fresh_iff] at hf
    rcases of_getElem?_set hi with ⟨rfl, rfl⟩ | ⟨-, hi'⟩
    · rcases of_getElem?_set hj with ⟨rfl, -⟩ | ⟨-, hj⟩
      · rfl
      · obtain rfl := Option.some.inj (hk.symm.trans h₁)
        exact absurd h₂ (hf _ _ hj)
    · rcases of_getElem?_set hj with ⟨rfl, rfl⟩ | ⟨-, hj⟩
      · obtain rfl := Option.some.inj (hk.symm.trans h₂)
        exact absurd h₁ (hf _ _ hi')
      · exact ht.uniq hi' hj h₁ h₂

/-- Overwriting a cell by another of the same key keeps the table placed. -/
theorem Placed.overwrite {t : List E} (ht : Placed key cand t) {e v : E} {pos : ℕ}
    (hv : t[pos]? = some v) (hk : key e = key v) : Placed key cand (t.set pos e) where
  at_cand hi hk' := by
    rcases of_getElem?_set hi with ⟨rfl, rfl⟩ | ⟨-, hi⟩
    · exact ht.at_cand hv (hk ▸ hk')
    · exact ht.at_cand hi hk'
  uniq hi hj h₁ h₂ := by
    rcases of_getElem?_set hi with ⟨rfl, rfl⟩ | ⟨-, hi'⟩
    · rcases of_getElem?_set hj with ⟨rfl, -⟩ | ⟨-, hj⟩
      · rfl
      · exact ht.uniq hv hj (hk ▸ h₁) h₂
    · rcases of_getElem?_set hj with ⟨rfl, rfl⟩ | ⟨-, hj⟩
      · exact ht.uniq hi' hv h₁ (hk ▸ h₂)
      · exact ht.uniq hi' hj h₁ h₂

/-- The cell taken out by an exchange is no longer in the table. -/
theorem Placed.fresh_exchange {t : List E} (ht : Placed key cand t) {e v : E} {k kv : K} {pos : ℕ}
    (hk : key e = some k) (hf : Fresh key t k) (hv : t[pos]? = some v) (hkv : key v = some kv) :
    Fresh key (t.set pos e) kv := by
  rw [fresh_iff] at hf ⊢
  intro i e' hi hk'
  rcases of_getElem?_set hi with ⟨rfl, rfl⟩ | ⟨hne, hi⟩
  · obtain rfl := Option.some.inj (hk.symm.trans hk')
    exact hf _ _ hv hkv
  · exact hne (ht.uniq hi hv hk' hkv)

/-- What is in the table after an entry is overwritten. -/
theorem mem_set_iff {t : List E} (ht : Placed key cand t) {e v : E} {pos : ℕ}
    (hv : t[pos]? = some v) {kv : K} (hkv : key v = some kv) (x : E) :
    x ∈ t.set pos e ↔ x = e ∨ (x ∈ t ∧ x ≠ v) := by
  have hlt : pos < t.length := (List.getElem?_eq_some_iff.mp hv).1
  constructor
  · intro hx
    obtain ⟨i, hi⟩ := List.mem_iff_getElem?.mp hx
    rcases of_getElem?_set hi with ⟨-, rfl⟩ | ⟨hne, hi⟩
    · exact .inl rfl
    · refine .inr ⟨List.mem_of_getElem? hi, ?_⟩
      rintro rfl
      exact hne (ht.uniq hi hv hkv hkv)
  · rintro (rfl | ⟨hx, hne⟩)
    · exact List.mem_set hlt _
    · obtain ⟨i, hi⟩ := List.mem_iff_getElem?.mp hx
      refine List.mem_iff_getElem?.mpr ⟨i, ?_⟩
      have hpi : pos ≠ i := by
        rintro rfl
        exact hne (Option.some.inj (hi.symm.trans hv))
      rw [List.getElem?_set, if_neg hpi, hi]

/-- Filling an empty cell only adds the new one. -/
theorem mem_set_empty_iff {t : List E} {e v : E} {pos : ℕ} (hv : t[pos]? = some v)
    (hkv : key v = none) {x : E} (hx : (key x).isSome) : x ∈ t.set pos e ↔ x = e ∨ x ∈ t := by
  have hlt : pos < t.length := (List.getElem?_eq_some_iff.mp hv).1
  constructor
  · exact fun h => (List.mem_or_eq_of_mem_set h).symm
  · rintro (rfl | h)
    · exact List.mem_set hlt _
    · obtain ⟨i, hi⟩ := List.mem_iff_getElem?.mp h
      refine List.mem_iff_getElem?.mpr ⟨i, ?_⟩
      have hpi : pos ≠ i := by
        rintro rfl
        obtain rfl := Option.some.inj (hi.symm.trans hv)
        simp [hkv] at hx
      rw [List.getElem?_set, if_neg hpi, hi]

end TwoChoice
