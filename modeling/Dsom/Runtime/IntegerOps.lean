import Dsom.Foundations.Signed

/-!
# Runtime/IntegerOps — division, modulo and shifts of integers

The operators `/`, `%` and `>>>` with both operands `int32_t`, as the bytecodes compute them, and
the primitives for `/`, `%`, `rem:` and `>>>`.  `none` is a result that C++ leaves undefined.

Both say what the operators mean except at the two ends: the quotient of the least integer by `-1`
does not fit, and `>>>` shifts the sign in (`integerOps_iff`).
-/

namespace Dsom

open Signed

/-! ## The bytecodes -/

/-- `DoSOMIntegerPercent`. -/
def doSOMIntegerPercent (lhs rhs : BitVec 32) : Option (BitVec 32) := do
  let result ← rem lhs rhs
  if result ≠ 0 ∧ decide (result.toInt < 0) ≠ decide (rhs.toInt < 0) then add result rhs
  else return result

/-- The `BinOpKind`s with a division or a right shift. -/
inductive DivisionOp where
  | percent
  | slash
  | rightShift
  deriving DecidableEq

/-- `DoIntegerIntegerArithOp`. -/
def doIntegerIntegerArithOp (kind : DivisionOp) (lhs rhs : BitVec 32) : Option (BitVec 32) :=
  match kind with
  | .percent => doSOMIntegerPercent lhs rhs
  | .slash => div lhs rhs
  | .rightShift => shiftRight lhs rhs

/-! ## The primitives -/

/-- The primitive `/`. -/
def integerSlash (l r : BitVec 32) : Option (BitVec 32) := div l r

/-- The primitive `%`: the remainder takes the sign of the divisor. -/
def integerPercent (l r : BitVec 32) : Option (BitVec 32) := do
  let result ← rem l r
  if result ≠ 0 ∧ decide (result.toInt < 0) ≠ decide (r.toInt < 0) then add result r
  else return result

/-- The primitive `rem:`, by the quotient, its product and a subtraction. -/
def integerRem (l r : BitVec 32) : Option (BitVec 32) := do
  let q ← div l r
  let p ← mul q r
  sub l p

/-- The primitive `>>>`: a shift of the signed word. -/
def integerUnsignedRightShift (lhs rhs : BitVec 32) : Option (BitVec 32) := shiftRight lhs rhs

/-! ## What they should mean

Said over the integers: the quotient toward zero, the modulo with the sign of the divisor. -/

/-- A quotient truncated towards zero. -/
def IsQuotient (l r : BitVec 32) (q : Option (BitVec 32)) : Prop :=
  ∃ v, q = some v ∧ v.toInt = l.toInt.tdiv r.toInt

/-- A floored modulo: zero or with the sign of the divisor. -/
def IsModulo (l r : BitVec 32) (m : Option (BitVec 32)) : Prop :=
  ∃ v, m = some v ∧ v.toInt = l.toInt.fmod r.toInt ∧
    (v.toInt = 0 ∨ v.toInt.sign = r.toInt.sign) ∧ r.toInt ∣ l.toInt - v.toInt

/-- The remainder that belongs to the truncated quotient. -/
def IsRemainder (l r : BitVec 32) (m : Option (BitVec 32)) : Prop :=
  ∃ v, m = some v ∧ v.toInt = l.toInt.tmod r.toInt ∧ l = l.sdiv r * r + v

/-- The pattern shifted to the right, with zeros from the left. -/
def IsLogicalShift (l n : BitVec 32) (m : Option (BitVec 32)) : Prop := m = some (l >>> n.toNat)

/-- **The operators mean what they say** at `l`, for a divisor and a shift count. -/
structure IntegerOpsMean (l r n : BitVec 32) : Prop where
  slash : IsQuotient l r (doIntegerIntegerArithOp .slash l r)
  percent : IsModulo l r (doIntegerIntegerArithOp .percent l r)
  rightShift : IsLogicalShift l n (doIntegerIntegerArithOp .rightShift l n)
  slashPrimitive : IsQuotient l r (integerSlash l r)
  percentPrimitive : IsModulo l r (integerPercent l r)
  remPrimitive : IsRemainder l r (integerRem l r)
  rightShiftPrimitive : IsLogicalShift l n (integerUnsignedRightShift l n)

section Meaning

/-- The remainder has the sign of the dividend. -/
theorem tmod_nonpos {a : ℤ} (ha : a ≤ 0) (b : ℤ) : a.tmod b ≤ 0 := by
  have h := Int.tmod_nonneg b (show 0 ≤ -a by omega)
  rw [Int.neg_tmod] at h
  omega

/-- The correction of the sign turns the remainder into the floored modulo. -/
theorem fmod_eq_tmod_corrected (a b : ℤ) :
    a.fmod b = if a.tmod b ≠ 0 ∧ decide (a.tmod b < 0) ≠ decide (b < 0) then a.tmod b + b
      else a.tmod b := by
  have hdvd : b ∣ a ↔ a.tmod b = 0 := Int.dvd_iff_tmod_eq_zero
  have hpos : 0 ≤ a → 0 ≤ a.tmod b := fun ha => Int.tmod_nonneg b ha
  have hneg : a < 0 → a.tmod b ≤ 0 := fun ha => tmod_nonpos ha.le b
  rw [Int.fmod_eq_tmod]
  simp only [hdvd, ne_eq, decide_eq_decide]
  split_ifs <;> omega

/-- A modulo that is not zero has the sign of the divisor. -/
theorem fmod_zero_or_sign {a b : ℤ} (hb : b ≠ 0) :
    a.fmod b = 0 ∨ (a.fmod b).sign = b.sign := by
  have hneg : a < 0 → a.tmod b ≤ 0 := fun ha => tmod_nonpos ha.le b
  have hlt : (a.tmod b).natAbs < b.natAbs := by
    rw [Int.natAbs_tmod]
    exact Nat.mod_lt _ (by omega)
  rcases eq_or_ne (a.fmod b) 0 with h | h
  · exact .inl h
  · refine .inr ?_
    rw [fmod_eq_tmod_corrected] at h ⊢
    simp only [ne_eq, decide_eq_decide] at h ⊢
    rcases lt_or_gt_of_ne hb with hb' | hb'
    · rw [Int.sign_eq_neg_one_of_neg hb']
      refine Int.sign_eq_neg_one_of_neg ?_
      split_ifs at h ⊢ <;> omega
    · rw [Int.sign_eq_one_of_pos hb']
      refine Int.sign_eq_one_of_pos ?_
      split_ifs at h ⊢ <;> omega

variable {l r n : BitVec 32}

/-- `%` is the modulo, but for one pair of numbers. -/
theorem integerPercent_eq (hr : r ≠ 0) (hover : ¬ (l = BitVec.intMin 32 ∧ r = -1)) :
    integerPercent l r = some (l.smod r) := by
  rw [integerPercent, rem_eq_some hr hover]
  have hzero : l.srem r ≠ 0 ↔ l.toInt.tmod r.toInt ≠ 0 := by
    rw [← BitVec.toInt_srem, ne_eq, ne_eq, ← BitVec.toInt_inj]
    rfl
  simp only [Option.bind_eq_bind, Option.bind_some, hzero, BitVec.toInt_srem]
  have hsmod : (l.smod r).toInt = _ := BitVec.toInt_smod.trans (fmod_eq_tmod_corrected ..)
  split_ifs at hsmod ⊢
  · rw [add, exact_eq_some_iff, hsmod, BitVec.toInt_srem]
  · exact congrArg some (BitVec.toInt_inj.mp (hsmod.trans (BitVec.toInt_srem l r).symm)).symm

/-- What the remainder leaves of the dividend is between it and zero. -/
theorem toInt_sub_srem (l r : BitVec 32) :
    (l - l.srem r).toInt = l.toInt - l.toInt.tmod r.toInt := by
  have habs : (l.toInt.tmod r.toInt).natAbs ≤ l.toInt.natAbs := by
    rw [Int.natAbs_tmod]
    exact Nat.mod_le ..
  have hpos : 0 ≤ l.toInt → 0 ≤ l.toInt.tmod r.toInt := fun h => Int.tmod_nonneg _ h
  have hneg : l.toInt < 0 → l.toInt.tmod r.toInt ≤ 0 := fun h => tmod_nonpos h.le r.toInt
  have hlo := l.le_toInt
  have hhi := l.toInt_lt
  rw [BitVec.toInt_sub, BitVec.toInt_srem]
  exact Int.bmod_eq_of_le (by omega) (by omega)

/-- `rem:` is the remainder, but for the same pair. -/
theorem integerRem_eq (hr : r ≠ 0) (hover : ¬ (l = BitVec.intMin 32 ∧ r = -1)) :
    integerRem l r = some (l.srem r) := by
  have hq : (l.sdiv r).toInt = l.toInt.tdiv r.toInt := by
    have := div_eq_some hr hover
    rwa [div, if_neg hr, exact_eq_some_iff] at this
  have hp : mul (l.sdiv r) r = some (l - l.srem r) := by
    rw [mul, exact_eq_some_iff, hq, toInt_sub_srem]
    have := Int.mul_tdiv_add_tmod l.toInt r.toInt
    rw [mul_comm] at this
    omega
  rw [integerRem, div_eq_some hr hover]
  simp only [Option.bind_eq_bind, Option.bind_some, hp]
  rw [sub, exact_eq_some_iff, toInt_sub_srem, BitVec.toInt_srem]
  omega

/-- Quotient, divisor and remainder make the dividend, modulo `2 ^ 32`. -/
theorem sdiv_mul_add_srem (hr : r ≠ 0) (hover : ¬ (l = BitVec.intMin 32 ∧ r = -1)) :
    l = l.sdiv r * r + l.srem r := by
  have hq : (l.sdiv r).toInt = l.toInt.tdiv r.toInt := by
    have := div_eq_some hr hover
    rwa [div, if_neg hr, exact_eq_some_iff] at this
  refine BitVec.toInt_inj.mp ?_
  have hdef : l.toInt.tdiv r.toInt * r.toInt + l.toInt.tmod r.toInt = l.toInt := by
    have := Int.mul_tdiv_add_tmod l.toInt r.toInt
    rwa [mul_comm] at this
  rw [BitVec.toInt_add, BitVec.toInt_mul, BitVec.toInt_srem, hq, Int.bmod_add_bmod, hdef,
    BitVec.toInt_bmod_cancel]

/-- **Division-like operators mean what they say exactly when** the dividend is not the least
integer or the divisor not `-1`, and the shifted integer is not negative or the count zero. -/
theorem integerOps_iff (l r n : BitVec 32) (hr : r ≠ 0) (hn : n.toNat ≤ 31) :
    IntegerOpsMean l r n ↔
      ¬ (l = BitVec.intMin 32 ∧ r = -1) ∧ (0 ≤ l.toInt ∨ n = 0) := by
  have hshift : shiftRight l n = some (l >>> n.toNat) ↔ 0 ≤ l.toInt ∨ n = 0 := by
    rw [shiftRight, if_pos (by omega), Option.some.injEq, sshiftRight_eq_ushiftRight_iff (by omega),
      BitVec.msb_eq_toInt, decide_eq_false_iff_not, not_lt, ← BitVec.toNat_inj]
    rfl
  constructor
  · intro h
    refine ⟨?_, hshift.mp h.rightShift⟩
    rintro ⟨rfl, rfl⟩
    obtain ⟨v, hv, -⟩ := h.slash
    rw [doIntegerIntegerArithOp, div_intMin_neg_one (by decide)] at hv
    cases hv
  · rintro ⟨hover, hn⟩
    have hquot : IsQuotient l r (div l r) := by
      refine ⟨_, div_eq_some hr hover, ?_⟩
      have := div_eq_some hr hover
      rwa [div, if_neg hr, exact_eq_some_iff] at this
    have hmod : IsModulo l r (integerPercent l r) := by
      refine ⟨_, integerPercent_eq hr hover, BitVec.toInt_smod, ?_, ?_⟩
      · rw [BitVec.toInt_smod]
        exact fmod_zero_or_sign (toInt_ne_zero hr)
      · rw [BitVec.toInt_smod]
        exact Int.dvd_self_sub_fmod
    have hrem : IsRemainder l r (integerRem l r) :=
      ⟨_, integerRem_eq hr hover, BitVec.toInt_srem l r, sdiv_mul_add_srem hr hover⟩
    exact
      { slash := hquot
        percent := hmod
        rightShift := hshift.mpr hn
        slashPrimitive := hquot
        percentPrimitive := hmod
        remPrimitive := hrem
        rightShiftPrimitive := hshift.mpr hn }

theorem integerOps_seven_neg_two : IntegerOpsMean 7 (-2) 3 :=
  (integerOps_iff 7 (-2) 3 (by decide) (by decide)).mpr ⟨by decide, by decide⟩

/-- `>>>` of a negative integer shifts the sign in, and the least integer cannot be divided by
`-1`. -/
theorem not_integerOpsMean_extremes :
    ¬ IntegerOpsMean (-1) 1 1 ∧ ¬ IntegerOpsMean (BitVec.intMin 32) (-1) 0 := by
  constructor
  · intro h
    have hshift : shiftRight (-1) 1 = some ((-1 : BitVec 32) >>> 1) := h.rightShift
    exact absurd hshift (by decide)
  · intro h
    obtain ⟨v, hv, -⟩ := h.slash
    rw [doIntegerIntegerArithOp, div_intMin_neg_one (by decide)] at hv
    cases hv

end Meaning

end Dsom
