import Mathlib.Data.BitVec
import Mathlib.Data.Int.Notation

/-!
# Foundations/Signed — signed machine arithmetic that is undefined on overflow

A signed operation of C++ computes an exact number, and has no meaning when the type cannot hold it.
`exact` is that rule; the operations are `exact` of the operations on integers.  A remainder is
undefined when the quotient is.
-/

namespace Dsom

namespace Signed

variable {w : ℕ}

/-- The number, if `w` bits hold it. -/
def exact (w : ℕ) (n : ℤ) : Option (BitVec w) :=
  if (BitVec.ofInt w n).toInt = n then some (BitVec.ofInt w n) else none

/-- **A defined result is the exact one.** -/
theorem exact_eq_some_iff {n : ℤ} {x : BitVec w} : exact w n = some x ↔ x.toInt = n := by
  rw [exact]
  constructor
  · intro h
    split_ifs at h with hn
    rw [← Option.some.inj h, hn]
  · rintro rfl
    rw [BitVec.ofInt_toInt, if_pos rfl]

@[simp] theorem exact_toInt (x : BitVec w) : exact w x.toInt = some x := exact_eq_some_iff.mpr rfl

/-- A number that `w` bits do not hold. -/
theorem exact_eq_none {n : ℤ} (h : ∀ x : BitVec w, x.toInt ≠ n) : exact w n = none := by
  cases hx : exact w n with
  | none => rfl
  | some x => exact absurd (exact_eq_some_iff.mp hx) (h x)

/-- A number in range is held. -/
theorem exact_eq_ofInt (hw : 0 < w) {n : ℤ} (hlo : -2 ^ (w - 1) ≤ n) (hhi : n < 2 ^ (w - 1)) :
    exact w n = some (BitVec.ofInt w n) :=
  exact_eq_some_iff.mpr (BitVec.toInt_ofInt_eq_self hw hlo hhi)

section Operations

variable (x y : BitVec w)

/-- Addition, undefined on overflow. -/
def add : Option (BitVec w) := exact w (x.toInt + y.toInt)

/-- Subtraction, undefined on overflow. -/
def sub : Option (BitVec w) := exact w (x.toInt - y.toInt)

/-- Multiplication, undefined on overflow. -/
def mul : Option (BitVec w) := exact w (x.toInt * y.toInt)

/-- Division toward zero, undefined for a zero divisor and for the one quotient that overflows. -/
def div : Option (BitVec w) := if y = 0 then none else exact w (x.toInt.tdiv y.toInt)

/-- The remainder of that division, undefined where the division is. -/
def rem : Option (BitVec w) := (div x y).bind fun _ => exact w (x.toInt.tmod y.toInt)

/-- Negation, undefined for the least number. -/
def neg : Option (BitVec w) := exact w (-x.toInt)

/-- `<<` of a signed value: what is shifted out is lost, and the count is below the width. -/
def shiftLeft (n : BitVec w) : Option (BitVec w) :=
  if n.toNat < w then some (x <<< n.toNat) else none

/-- `>>` of a signed value: the sign is shifted in, and the count is below the width. -/
def shiftRight (n : BitVec w) : Option (BitVec w) :=
  if n.toNat < w then some (x.sshiftRight n.toNat) else none

end Operations

/-! ## Division -/

section Division

variable {x y : BitVec w}

theorem toInt_ne_zero (hy : y ≠ 0) : y.toInt ≠ 0 := fun h =>
  hy (BitVec.toInt_inj.mp (h.trans BitVec.toInt_zero.symm))

/-- The quotient truncates towards zero… -/
theorem div_eq_some (hy : y ≠ 0) (hover : ¬ (x = BitVec.intMin w ∧ y = -1)) :
    div x y = some (x.sdiv y) := by
  rw [div, if_neg hy, exact_eq_some_iff]
  refine BitVec.toInt_sdiv_of_ne_or_ne x y ?_
  rw [or_iff_not_imp_left, not_not]
  exact fun hx hy => hover ⟨hx, hy⟩

/-- …and there is one that does not fit. -/
theorem div_intMin_neg_one (hw : 0 < w) : div (BitVec.intMin w) (-1) = none := by
  rw [div]
  split_ifs with h
  · rfl
  · refine exact_eq_none fun x hx => ?_
    have hone : (-1 : BitVec w).toInt = -1 := by
      rw [show (-1 : BitVec w) = BitVec.allOnes w from BitVec.neg_one_eq_allOnes,
        BitVec.toInt_allOnes, if_pos hw]
    rw [BitVec.toInt_intMin_of_pos hw, hone, Int.neg_tdiv_neg, Int.tdiv_one] at hx
    have := x.toInt_lt
    omega

/-- Where the remainder is defined. -/
theorem rem_eq_some (hy : y ≠ 0) (hover : ¬ (x = BitVec.intMin w ∧ y = -1)) :
    rem x y = some (x.srem y) := by
  rw [rem, div_eq_some hy hover, Option.bind_some, exact_eq_some_iff]
  exact BitVec.toInt_srem x y

end Division

/-! ## Shifts -/

/-- Shifting the sign in is shifting zeros in when there is no sign, or no shift. -/
theorem sshiftRight_eq_ushiftRight_iff {x : BitVec w} {n : ℕ} (hn : n < w) :
    x.sshiftRight n = x >>> n ↔ x.msb = false ∨ n = 0 := by
  constructor
  · intro h
    by_contra hnot
    rw [not_or, Bool.not_eq_false] at hnot
    -- the top bits differ
    have hmsb := congrArg BitVec.msb h
    rw [BitVec.msb_sshiftRight, hnot.1, BitVec.msb_ushiftRight, eq_comm] at hmsb
    simp [hnot.2] at hmsb
  · rintro (h | rfl)
    · exact BitVec.sshiftRight_eq_of_msb_false h
    · simp

end Signed

end Dsom
