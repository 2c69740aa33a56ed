import Mathlib.Data.BitVec
import Mathlib.Data.List.Sort

/-!
# Foundations/BitMask — bit masks ordered by inclusion

`Covers a x`: every bit of `x` is a bit of `a`, in the form programs test it, `x & a == x`.
Reading a mask as a number refines inclusion (`Covers.toNat_le`), so the first mask of an
increasing list that covers `x` is the least one if the masks that cover `x` are closed under
intersection (`covers_firstCover`).
-/

namespace Dsom

namespace BitMask

variable {w : ℕ} {a b x y : BitVec w}

/-- Every bit of `x` is a bit of `a`. -/
def Covers (a x : BitVec w) : Prop := x &&& a = x

instance : Decidable (Covers a x) := inferInstanceAs (Decidable (_ = _))

/-- A mask covers another if it has all of its bits. -/
theorem covers_iff : Covers a x ↔ ∀ i < w, x.getLsbD i = true → a.getLsbD i = true := by
  constructor
  · intro h i _ hx
    rw [← h, BitVec.getLsbD_and, Bool.and_eq_true] at hx
    exact hx.2
  · intro h
    refine BitVec.eq_of_getLsbD_eq fun i hi => ?_
    rw [BitVec.getLsbD_and]
    cases hx : x.getLsbD i with
    | false => rfl
    | true => rw [h i hi hx, Bool.and_true]

@[simp] theorem Covers.refl (a : BitVec w) : Covers a a := BitVec.and_self

theorem Covers.trans (h : Covers a b) (h' : Covers b x) : Covers a x :=
  covers_iff.mpr fun i hi hx => covers_iff.mp h i hi (covers_iff.mp h' i hi hx)

/-- Two masks that cover each other are equal. -/
theorem Covers.antisymm (h : Covers a b) (h' : Covers b a) : a = b := by
  unfold Covers at h h'
  rw [← h', BitVec.and_comm, h]

/-- A cover is not the smaller number. -/
theorem Covers.toNat_le (h : Covers a x) : x.toNat ≤ a.toNat := by
  rw [← h, BitVec.toNat_and]
  exact Nat.and_le_right

@[simp] theorem covers_allOnes (x : BitVec w) : Covers (BitVec.allOnes w) x := BitVec.and_allOnes

@[simp] theorem covers_zero (a : BitVec w) : Covers a 0 := BitVec.zero_and

/-- A mask is covered by two if it is by both together. -/
theorem covers_and : Covers (a &&& b) x ↔ Covers a x ∧ Covers b x := by
  simp only [covers_iff, BitVec.getLsbD_and, Bool.and_eq_true]
  exact ⟨fun h => ⟨fun i hi hx => (h i hi hx).1, fun i hi hx => (h i hi hx).2⟩,
    fun h i hi hx => ⟨h.1 i hi hx, h.2 i hi hx⟩⟩

/-- Two masks are covered if their union is. -/
theorem covers_or : Covers a (x ||| y) ↔ Covers a x ∧ Covers a y := by
  simp only [covers_iff, BitVec.getLsbD_or, Bool.or_eq_true]
  exact ⟨fun h => ⟨fun i hi hx => h i hi (.inl hx), fun i hi hx => h i hi (.inr hx)⟩,
    fun h i hi hx => hx.elim (h.1 i hi) (h.2 i hi)⟩

/-- A single bit is covered if it is set. -/
theorem covers_twoPow {j : ℕ} (hj : j < w) : Covers a (BitVec.twoPow w j) ↔ a.getLsbD j = true := by
  simp only [covers_iff, BitVec.getLsbD_twoPow]
  constructor
  · exact fun h => h j hj (by simp [hj])
  · intro h i hi hx
    simp at hx
    rwa [← hx.2]

/-- A mask that is not covered has a bit outside. -/
theorem exists_bit_of_not_covers (h : ¬ Covers a x) :
    ∃ i < w, x.getLsbD i = true ∧ a.getLsbD i = false := by
  rw [covers_iff] at h
  push Not at h
  obtain ⟨i, hi, hx, ha⟩ := h
  exact ⟨i, hi, hx, eq_false_of_ne_true ha⟩

/-- Two masks share a bit. -/
theorem and_ne_zero_iff : x &&& a ≠ 0 ↔ ∃ i < w, x.getLsbD i = true ∧ a.getLsbD i = true := by
  constructor
  · intro h
    by_contra hno
    push Not at hno
    refine h (BitVec.eq_of_getLsbD_eq fun i hi => ?_)
    rw [BitVec.getLsbD_and]
    cases hx : x.getLsbD i with
    | false => simp
    | true => simp [eq_false_of_ne_true (hno i hi hx)]
  · rintro ⟨i, hi, hx, ha⟩ h
    have := congrArg (fun m => BitVec.getLsbD m i) h
    simp [hx, ha] at this

/-- The bits that satisfy a test. -/
def ofBits (w : ℕ) (p : ℕ → Bool) : BitVec w :=
  (List.range w).foldl (fun m j => if p j then m ||| BitVec.twoPow w j else m) 0

/-- The bits that were asked for. -/
@[simp] theorem getLsbD_ofBits {p : ℕ → Bool} {i : ℕ} :
    (ofBits w p).getLsbD i = (decide (i < w) && p i) := by
  have H : ∀ n ≤ w, ((List.range n).foldl
      (fun m j => if p j then m ||| BitVec.twoPow w j else m) (0 : BitVec w)).getLsbD i
        = (decide (i < n) && p i) := by
    intro n
    induction n with
    | zero => simp
    | succ n ih =>
      intro hn
      have ih := ih (by omega)
      rw [List.range_succ, List.foldl_append, List.foldl_cons, List.foldl_nil]
      generalize (List.range n).foldl
        (fun m j => if p j then m ||| BitVec.twoPow w j else m) (0 : BitVec w) = m at ih ⊢
      by_cases hi : i = n
      · subst hi
        rw [decide_eq_false (lt_irrefl i), Bool.false_and] at ih
        split_ifs with hp
        · rw [BitVec.getLsbD_or, ih, BitVec.getLsbD_twoPow]
          simp [hp, show i < w by omega]
        · rw [ih]
          simp [hp]
      · have hlt : decide (i < n + 1) = decide (i < n) := by
          rw [decide_eq_decide]; omega
        split_ifs with hp
        · rw [BitVec.getLsbD_or, ih, BitVec.getLsbD_twoPow, hlt]
          simp [Ne.symm hi]
        · rw [ih, hlt]
  exact H w le_rfl

/-! ## The first cover in an increasing list -/

section FirstCover

variable (masks : List (BitVec w))

/-- **The first cover is the least one**, where the covers are closed under intersection. -/
theorem covers_firstCover (hsorted : masks.Pairwise fun a b => a.toNat < b.toNat)
    (hclosed : ∀ a ∈ masks, ∀ b ∈ masks, Covers a x → Covers b x → a &&& b ∈ masks)
    {k : ℕ} (hk : k < masks.length) (hx : Covers masks[k] x)
    (hfirst : ∀ j < k, ∀ hj : j < masks.length, ¬ Covers masks[j] x) (hb : b ∈ masks)
    (hbx : Covers b x) : Covers b masks[k] := by
  have hmem := hclosed _ (List.getElem_mem hk) b hb hx hbx
  obtain ⟨m, hm, hmeq⟩ := List.getElem_of_mem hmem
  have hcov : Covers masks[m] x := by rw [hmeq]; exact covers_and.mpr ⟨hx, hbx⟩
  have hkm : k ≤ m := by
    by_contra hlt
    exact hfirst m (not_le.mp hlt) hm hcov
  have hle : masks[m].toNat ≤ masks[k].toNat := by
    rw [hmeq, BitVec.toNat_and]
    exact Nat.and_le_left
  have hmk : m = k := by
    by_contra hne
    have := List.pairwise_iff_getElem.mp hsorted k m hk hm (by omega)
    omega
  subst hmk
  exact hmeq.symm

end FirstCover

end BitMask

end Dsom
