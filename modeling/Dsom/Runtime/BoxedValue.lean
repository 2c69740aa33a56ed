import Mathlib.Data.BitVec
import Mathlib.Tactic.Common

/-!
# Runtime/BoxedValue — boxed values and the lattice of their types

A `TValue` is a double, an integer, a constant or a pointer, told apart by tag patterns in its upper
half.  The types of `drt/tvalue.h` are leaves and unions of leaves; each has a check, and a mask
with one bit for each leaf.  The leaves are to partition the values.  They do, but for the doubles
that are not a number: `tDoubleNaN` only holds of one of the patterns (`pureNaN`).

Doubles are bit patterns.  What a pointer points to is a parameter.
-/

namespace Dsom

/-- `HeapEntityType`. -/
inductive HeapEntityType where
  | function
  | thread
  | object
  | upvalue
  | unlinkedCodeBlock
  | executableCode
  | somClass
  deriving DecidableEq

/-- `TValue`, by its `m_value`. -/
abbrev BoxedValue := BitVec 64

namespace BoxedValue

/-- `x_int32Tag`: a boxed `int32` has all of these bits. -/
def int32Tag : BitVec 64 := 0xFFFBFFFF00000000#64

/-- `x_mivTag`: the tag of `nil`, `true` and `false`. -/
def mivTag : BitVec 64 := 0xFFFCFFFF0000007F#64

variable (v : BoxedValue)

/-- `TValue::IsInt32`. -/
def isInt32 : Bool := v &&& int32Tag == int32Tag

/-- `TValue::IsMIV`: the seven low bits of the tag do not count. -/
def isMIV : Bool := v &&& (mivTag - 0x7F#64) == mivTag - 0x7F#64

/-- `TValue::IsPointer`: above every other tag. -/
def isPointer : Bool := decide (mivTag < v)

/-- `TValue::IsDouble`: below every other tag. -/
def isDouble : Bool := decide (v < int32Tag)

/-- `IsNaN`, of the pattern: all bits of the exponent, and one of the fraction. -/
def isNaN : Bool :=
  (v &&& 0x7FF0000000000000#64 == 0x7FF0000000000000#64) && v &&& 0x000FFFFFFFFFFFFF#64 != 0#64

/-- `IsDoubleNotNaN`. -/
def isDoubleNotNaN : Bool := !isNaN v

/-- `x_pureNaN`, which is also `std::numeric_limits<double>::quiet_NaN()`. -/
def pureNaN : BitVec 64 := 0x7ff8000000000000#64

/-- `IsDoubleNaN`. -/
def isDoubleNaN : Bool := v == pureNaN

/-- `AsDouble`; `none` if the assertion fails. -/
def asDouble : Option (BitVec 64) :=
  if isDouble v && !isMIV v && !isPointer v && !isInt32 v then some v else none

/-- `AsInt32`. -/
def asInt32 : Option (BitVec 32) :=
  if isInt32 v && !isMIV v && !isPointer v && !isDouble v then some (v.setWidth 32) else none

/-- `UserHeapPointer::x_minValue` and `x_maxValue`. -/
def isUserHeapPointer : Bool :=
  decide (0xFFFFFFFE00000000#64 ≤ v) && decide (v ≤ 0xFFFFFFFEFFFFFFFF#64)

/-- `AsPointer`, with the assertion of the constructor of `UserHeapPointer`. -/
def asPointer : Option (BitVec 64) :=
  if isPointer v && !isMIV v && !isDouble v && !isInt32 v && isUserHeapPointer v then some v
  else none

/-- `AsMIV`. -/
def asMIV : Option (BitVec 64) :=
  if isMIV v && !isDouble v && !isInt32 v && !isPointer v then some (v ^^^ mivTag) else none

/-- `CreateInt32`. -/
def createInt32 (value : BitVec 32) : BoxedValue := int32Tag ||| value.setWidth 64

/-- `CreateDouble`. -/
def createDouble (value : BitVec 64) : BoxedValue := value

/-- `CreatePointer`. -/
def createPointer (ptr : BitVec 64) : BoxedValue := ptr

/-- `CreateMIV`. -/
def createMIV (miv : BitVec 64) : BoxedValue := miv ^^^ mivTag

/-- `Nil`, with `MiscImmediateValue::x_nil`. -/
def nil : BoxedValue := createMIV 0#64

/-- `CreateBoolean`, with `x_true` and `x_false`. -/
def createBoolean (b : Bool) : BoxedValue := createMIV (if b then 3#64 else 2#64)

/-- `TValue::IsNil`. -/
def isNil : Bool := v == nil

/-- `GetBooleanValue` of `AsMIV`, which is not `nil`. -/
def asBoolean : Option Bool :=
  (asMIV v).bind fun miv => if miv ≠ 0#64 then some (miv &&& 1#64 ≠ 0#64) else none

end BoxedValue

/-! ## The types -/

/-- The types of `TypeSpecializationList`. -/
inductive SpeculationType where
  | tNil
  | tBool
  | tMIV
  | tDoubleNotNaN
  | tDoubleNaN
  | tInt32
  | tDouble
  | tFunction
  | tThread
  | tObject
  | tHeapEntity
  | tBottom
  | tGarbage
  | tOpaque
  | tBoxedValueTop
  | tFullTop
  deriving DecidableEq

namespace SpeculationType

/-- The type specialisations that have a check of their own. -/
def typeSpecializationList : List SpeculationType :=
  [tNil, tBool, tMIV, tDoubleNotNaN, tDoubleNaN, tInt32, tDouble, tFunction, tThread, tObject,
    tHeapEntity, tBottom, tGarbage, tOpaque, tBoxedValueTop, tFullTop]

/-- `TSMDef`, of the types that are a union. -/
def tsmDef : SpeculationType → Option (List SpeculationType)
  | tMIV => some [tNil, tBool]
  | tDouble => some [tDoubleNotNaN, tDoubleNaN]
  | tHeapEntity => some [tFunction, tThread, tObject]
  | _ => none

/-- `is_type_speculation_leaf`. -/
def isTypeSpeculationLeaf (t : SpeculationType) : Bool :=
  match t with
  | tFullTop | tBoxedValueTop | tBottom => false
  | tGarbage | tOpaque => true
  | t => (tsmDef t).isNone

/-- `x_numUsefulBitsInFullTypeMask`. -/
def numUsefulBitsInFullTypeMask : ℕ := typeSpecializationList.countP isTypeSpeculationLeaf

/-- `x_numUsefulBitsInBytecodeTypeMask`: two leaves are no boxed values. -/
def numUsefulBitsInBytecodeTypeMask : ℕ := numUsefulBitsInFullTypeMask - 2

/-- `type_speculation_leaf_ordinal`. -/
def leafOrdinal (t : SpeculationType) : ℕ :=
  (typeSpecializationList.takeWhile (· ≠ t)).countP isTypeSpeculationLeaf

/-- `x_singletonTypeMaskFor`. -/
def singletonTypeMaskFor (t : SpeculationType) : BitVec 32 := 1#32 <<< leafOrdinal t

/-- `x_typeMaskFor`. -/
def typeMaskFor : SpeculationType → BitVec 32
  | tBottom => 0#32
  | tBoxedValueTop => BitVec.allOnes 32 >>> (32 - numUsefulBitsInBytecodeTypeMask)
  | tGarbage => 1#32 <<< numUsefulBitsInBytecodeTypeMask
  | tOpaque => 1#32 <<< (numUsefulBitsInBytecodeTypeMask + 1)
  | tFullTop => BitVec.allOnes 32 >>> (32 - numUsefulBitsInBytecodeTypeMask)
      ||| 1#32 <<< numUsefulBitsInBytecodeTypeMask
      ||| 1#32 <<< (numUsefulBitsInBytecodeTypeMask + 1)
  | t =>
    match tsmDef t with
    | some leaves => (leaves.map singletonTypeMaskFor).foldr (· ||| ·) 0#32
    | none => singletonTypeMaskFor t

/-- The leaves of the boxed values, which are in the mask of `tBoxedValueTop`. -/
def boxedLeaves : List SpeculationType :=
  typeSpecializationList.filter fun t =>
    isTypeSpeculationLeaf t && typeMaskFor t &&& typeMaskFor tBoxedValueTop == typeMaskFor t

/-- The leaves of a type, by its mask. -/
def leavesOf (t : SpeculationType) : List SpeculationType :=
  boxedLeaves.filter fun l => typeMaskFor l &&& typeMaskFor t == typeMaskFor l

end SpeculationType

open SpeculationType

section Check

-- `DeegenImpl_TValueGetPointerType`, which reads the header of the object
variable (pointerType : BoxedValue → HeapEntityType)

/-- The check of a heap object. -/
def checkPointer (ty : HeapEntityType) (v : BoxedValue) : Bool :=
  BoxedValue.isPointer v && pointerType v == ty

/-- **`check`** of a type; `none` if it must not be called. -/
def SpeculationType.check (v : BoxedValue) : SpeculationType → Option Bool
  | tNil => some (BoxedValue.isNil v)
  | tBool => some (BoxedValue.isMIV v && !BoxedValue.isNil v)
  | tMIV => some (BoxedValue.isMIV v)
  | tDoubleNotNaN => some (BoxedValue.isDoubleNotNaN v)
  | tDoubleNaN => some (BoxedValue.isDoubleNaN v)
  | tInt32 => some (BoxedValue.isInt32 v)
  | tDouble => some (BoxedValue.isDouble v)
  | tFunction => some (checkPointer pointerType .function v)
  | tThread => some (checkPointer pointerType .thread v)
  | tObject => some (checkPointer pointerType .object v)
  | tHeapEntity => some (BoxedValue.isPointer v)
  | tBottom => some false
  | tGarbage => none
  | tOpaque => none
  | tBoxedValueTop => some true
  | tFullTop => some true

/-- `x_heapEntityTypeMaskMap`, which only has the types that the language exposes. -/
def heapEntityTypeMaskMap : HeapEntityType → Option (BitVec 32)
  | .function => some (singletonTypeMaskFor tFunction)
  | .thread => some (singletonTypeMaskFor tThread)
  | .object => some (singletonTypeMaskFor tObject)
  | _ => none

/-- **`GetTypeForBoxedValue`**; `none` if an assertion fails. -/
def getTypeForBoxedValue (value : BoxedValue) : Option (BitVec 32) :=
  if BoxedValue.isDouble value then
    if BoxedValue.isDoubleNotNaN value then some (singletonTypeMaskFor tDoubleNotNaN)
    else some (singletonTypeMaskFor tDoubleNaN)
  else if BoxedValue.isPointer value then heapEntityTypeMaskMap (pointerType value)
  else if BoxedValue.isMIV value then
    if BoxedValue.isNil value then some (singletonTypeMaskFor tNil)
    else some (singletonTypeMaskFor tBool)
  else if BoxedValue.isInt32 value then some (singletonTypeMaskFor tInt32)
  else none

end Check

example : boxedLeaves = [tNil, tBool, tDoubleNotNaN, tDoubleNaN, tInt32, tFunction, tThread,
    tObject] := by decide

/-! ## The upper half

The tag of a word can be told from its upper half. -/

namespace BoxedValue

variable {hi lo : BitVec 32} {v : BoxedValue}

/-- The halves of a value. -/
theorem eq_append (v : BoxedValue) : v = v.extractLsb' 32 32 ++ v.extractLsb' 0 32 :=
  (@BitVec.extractLsb'_append_extractLsb' 32 32 v).symm

/-- A word from its halves. -/
theorem toNat_halves (hi lo : BitVec 32) :
    (hi ++ lo : BitVec 64).toNat = hi.toNat * 2 ^ 32 + lo.toNat := by
  have hlo := lo.isLt
  rw [BitVec.toNat_append, ← Nat.shiftLeft_add_eq_or_of_lt hlo, Nat.shiftLeft_eq]

/-- The halves of a word. -/
theorem halves_inj {m n : ℕ} {hi hi' : BitVec m} {lo lo' : BitVec n}
    (h : hi ++ lo = hi' ++ lo') : hi = hi' ∧ lo = lo' := by
  have hleft := congrArg (BitVec.extractLsb' n m) h
  have hright := congrArg (BitVec.extractLsb' 0 n) h
  rw [BitVec.extractLsb'_append_eq_left, BitVec.extractLsb'_append_eq_left] at hleft
  rw [BitVec.extractLsb'_append_eq_right, BitVec.extractLsb'_append_eq_right] at hright
  exact ⟨hleft, hright⟩

theorem isInt32_halves (hi lo : BitVec 32) :
    isInt32 (hi ++ lo) = (hi &&& 0xFFFBFFFF#32 == 0xFFFBFFFF#32) := by
  rw [isInt32, show int32Tag = 0xFFFBFFFF#32 ++ 0#32 by decide, BitVec.and_append,
    BitVec.and_zero, Bool.eq_iff_iff, beq_iff_eq, beq_iff_eq]
  exact ⟨fun h => (halves_inj h).1, fun h => by rw [h]⟩

theorem isMIV_halves (hi lo : BitVec 32) :
    isMIV (hi ++ lo) = (hi &&& 0xFFFCFFFF#32 == 0xFFFCFFFF#32) := by
  rw [isMIV, show mivTag - 0x7F#64 = 0xFFFCFFFF#32 ++ 0#32 by decide, BitVec.and_append,
    BitVec.and_zero, Bool.eq_iff_iff, beq_iff_eq, beq_iff_eq]
  exact ⟨fun h => (halves_inj h).1, fun h => by rw [h]⟩

theorem isNaN_halves (hi lo : BitVec 32) :
    isNaN (hi ++ lo) = ((hi &&& 0x7FF00000#32 == 0x7FF00000#32)
      && !(hi &&& 0x000FFFFF#32 == 0#32 && lo == 0#32)) := by
  rw [isNaN, show (0x7FF0000000000000#64) = 0x7FF00000#32 ++ 0#32 by decide,
    show (0x000FFFFFFFFFFFFF#64) = 0x000FFFFF#32 ++ BitVec.allOnes 32 by decide,
    BitVec.and_append, BitVec.and_append, BitVec.and_zero, BitVec.and_allOnes]
  congr 1
  · rw [Bool.eq_iff_iff, beq_iff_eq, beq_iff_eq]
    exact ⟨fun h => (halves_inj h).1, fun h => by rw [h]⟩
  · rw [bne, show (0#64) = 0#32 ++ 0#32 by decide]
    congr 1
    rw [Bool.eq_iff_iff, Bool.and_eq_true, beq_iff_eq, beq_iff_eq, beq_iff_eq]
    exact ⟨halves_inj, fun ⟨h, h'⟩ => by rw [h, h']⟩

theorem isDouble_halves (hi lo : BitVec 32) :
    isDouble (hi ++ lo) = decide (hi < 0xFFFBFFFF#32) := by
  rw [isDouble, decide_eq_decide, BitVec.lt_def, BitVec.lt_def, toNat_halves]
  have := lo.isLt
  simp only [int32Tag, BitVec.toNat_ofNat]
  omega

/-- The values in front of the tag of the constants have no larger upper half. -/
theorem isPointer_halves (h : 0xFFFCFFFF#32 ≠ hi) :
    isPointer (hi ++ lo) = decide (0xFFFCFFFF#32 < hi) := by
  rw [isPointer, decide_eq_decide, BitVec.lt_def, BitVec.lt_def, toNat_halves]
  have := lo.isLt
  have hne : hi.toNat ≠ 0xFFFCFFFF := fun heq => h (BitVec.eq_of_toNat_eq heq.symm)
  simp only [mivTag, BitVec.toNat_ofNat]
  omega

/-! ## The kinds of values -/

/-- What the tags say about a value. -/
structure Tags (v : BoxedValue) (double int32 miv pointer nan : Bool) : Prop where
  double : isDouble v = double
  int32 : isInt32 v = int32
  miv : isMIV v = miv
  pointer : isPointer v = pointer
  nan : isNaN v = nan

/-- Words below the tags are doubles. -/
theorem tags_double (h : v ≤ 0xFFFAFFFFFFFFFFFF#64) :
    Tags v true false false false (isNaN v) := by
  rw [BitVec.le_def] at h
  -- a value with the tag is not below it
  have hand (tag : BitVec 64) (htag : v.toNat < tag.toNat) : (v &&& tag == tag) = false := by
    rw [beq_eq_false_iff_ne]
    intro heq
    have hle : (v &&& tag).toNat ≤ v.toNat := by
      rw [BitVec.toNat_and]
      exact Nat.and_le_left
    rw [heq] at hle
    omega
  simp only [BitVec.toNat_ofNat] at h
  refine ⟨?_, hand _ ?_, hand _ ?_, ?_, rfl⟩
  · rw [isDouble, decide_eq_true_iff, BitVec.lt_def, int32Tag, BitVec.toNat_ofNat]
    omega
  · rw [int32Tag, BitVec.toNat_ofNat]
    omega
  · rw [show mivTag - 0x7F#64 = 0xFFFCFFFF00000000#64 by decide, BitVec.toNat_ofNat]
    omega
  · rw [isPointer, decide_eq_false_iff_not, BitVec.lt_def, mivTag, BitVec.toNat_ofNat]
    omega

theorem createInt32_eq (i : BitVec 32) : createInt32 i = 0xFFFBFFFF#32 ++ i := by
  refine BitVec.eq_of_getLsbD_eq fun k hk => ?_
  rw [createInt32, show int32Tag = 0xFFFBFFFF#32 ++ 0#32 by decide, BitVec.getLsbD_or,
    BitVec.getLsbD_append, BitVec.getLsbD_append, BitVec.getLsbD_setWidth]
  split_ifs with h
  · simp [hk]
  · simp [BitVec.getLsbD_of_ge i k (by omega)]

theorem tags_createInt32 (i : BitVec 32) : Tags (createInt32 i) false true false false true := by
  rw [createInt32_eq]
  refine ⟨?_, ?_, ?_, ?_, ?_⟩
  · rw [isDouble_halves]
    decide
  · rw [isInt32_halves]
    decide
  · rw [isMIV_halves]
    decide
  · rw [isPointer_halves (by decide)]
    decide
  · rw [isNaN_halves]
    simp

/-- A heap pointer has one of three upper halves. -/
theorem tags_pointer (h : 0xFFFFFFFC00000000#64 ≤ v) (h' : v ≤ 0xFFFFFFFEFFFFFFFF#64) :
    Tags v false false false true true := by
  rw [eq_append v] at h h' ⊢
  generalize v.extractLsb' 32 32 = hi at h h' ⊢
  generalize v.extractLsb' 0 32 = lo at h h' ⊢
  rw [BitVec.le_def, toNat_halves, BitVec.toNat_ofNat] at h h'
  have hlo := lo.isLt
  have hhi : hi = 0xFFFFFFFC#32 ∨ hi = 0xFFFFFFFD#32 ∨ hi = 0xFFFFFFFE#32 := by
    simp only [BitVec.toNat_eq, BitVec.toNat_ofNat]
    omega
  rcases hhi with rfl | rfl | rfl
  all_goals
    refine ⟨?_, ?_, ?_, ?_, ?_⟩
    · rw [isDouble_halves]
      decide
    · rw [isInt32_halves]
      decide
    · rw [isMIV_halves]
      decide
    · rw [isPointer_halves (by decide)]
      decide
    · rw [isNaN_halves]
      simp

theorem tags_nil : Tags nil false false true false true := by
  constructor <;> decide

theorem tags_createBoolean (b : Bool) : Tags (createBoolean b) false false true false true := by
  cases b <;> constructor <;> decide

/-- `nil` and the one pattern are no values of another kind. -/
theorem Tags.ne_nil {double int32 pointer nan : Bool}
    (h : Tags v double int32 false pointer nan) : isNil v = false := by
  rw [isNil, beq_eq_false_iff_ne]
  rintro rfl
  exact absurd (h.miv.symm.trans tags_nil.miv) (by decide)

/-- Only doubles may be the pure NaN. -/
theorem Tags.ne_pureNaN {int32 miv pointer nan : Bool}
    (h : Tags v false int32 miv pointer nan) : isDoubleNaN v = false := by
  rw [isDoubleNaN, beq_eq_false_iff_ne]
  rintro rfl
  exact absurd (h.double.symm.trans (show isDouble pureNaN = true by decide)) (by decide)

end BoxedValue

open BoxedValue

/-! ## The leaves

A word is of one leaf type, the one its tests say. -/

/-- **The values that a program can hold.** -/
inductive Holdable : BoxedValue → Prop
  | double {v : BoxedValue} (h : v ≤ 0xFFFAFFFFFFFFFFFF#64) : Holdable v
  | int32 (i : BitVec 32) : Holdable (createInt32 i)
  | nil : Holdable nil
  | boolean (b : Bool) : Holdable (createBoolean b)
  | pointer {v : BoxedValue} (h : 0xFFFFFFFC00000000#64 ≤ v) (h' : v ≤ 0xFFFFFFFEFFFFFFFF#64) :
      Holdable v

section Consistent

variable (pointerType : BoxedValue → HeapEntityType) {v : BoxedValue}

/-- The types of boxed values: `tGarbage`, `tOpaque` and `tFullTop` have leaves that are none. -/
def boxedTypes : List SpeculationType :=
  typeSpecializationList.filter fun t =>
    typeMaskFor t &&& typeMaskFor tBoxedValueTop == typeMaskFor t

/-- **The checks and the lattice agree on a value**: one leaf's check holds, its mask is the type of
the value, and the check of a type is the disjunction of the checks of its leaves. -/
structure Consistent (v : BoxedValue) : Prop where
  leaf : ∃! l, l ∈ boxedLeaves ∧ check pointerType v l = some true
  type : ∀ l ∈ boxedLeaves, check pointerType v l = some true →
    getTypeForBoxedValue pointerType v = some (typeMaskFor l)
  union : ∀ t ∈ boxedTypes, check pointerType v t = some true
    ↔ ∃ l ∈ leavesOf t, check pointerType v l = some true

/-- All checks are as the leaf `l` says. -/
def IsLeaf (v : BoxedValue) (l : SpeculationType) : Prop :=
  ∀ t ∈ boxedTypes, check pointerType v t = some (decide (l ∈ leavesOf t))

variable {pointerType}

/-- **A value that belongs to one leaf.** -/
theorem IsLeaf.consistent {l : SpeculationType} (hl : l ∈ boxedLeaves)
    (h : IsLeaf pointerType v l)
    (htype : getTypeForBoxedValue pointerType v = some (typeMaskFor l)) :
    Consistent pointerType v := by
  have hboxed : ∀ l' ∈ boxedLeaves, l' ∈ boxedTypes := by decide
  have hself : ∀ l' ∈ boxedLeaves, ∀ l ∈ boxedLeaves, l ∈ leavesOf l' ↔ l = l' := by decide
  have hleaves : ∀ t ∈ boxedTypes, ∀ l' ∈ leavesOf t, l' ∈ boxedLeaves := by decide
  have hcheck (l' : SpeculationType) (hl' : l' ∈ boxedLeaves) :
      check pointerType v l' = some true ↔ l = l' := by
    rw [h l' (hboxed l' hl'), Option.some.injEq, decide_eq_true_iff, hself l' hl' l hl]
  refine ⟨⟨l, ⟨hl, (hcheck l hl).mpr rfl⟩, fun l' h' => ((hcheck l' h'.1).mp h'.2).symm⟩,
    fun l' hl' h' => (hcheck l' hl').mp h' ▸ htype, fun t ht => ?_⟩
  rw [h t ht, Option.some.injEq, decide_eq_true_iff]
  constructor
  · exact fun hlt => ⟨l, hlt, (hcheck l hl).mpr rfl⟩
  · rintro ⟨l', hl', h'⟩
    rwa [(hcheck l' (hleaves t ht l' hl')).mp h']

/-- A value of which no leaf's check holds. -/
theorem not_consistent (h : ∀ l ∈ boxedLeaves, check pointerType v l = some false) :
    ¬Consistent pointerType v := by
  rintro ⟨⟨l, ⟨hl, hcheck⟩, -⟩, -, -⟩
  rw [h l hl] at hcheck
  cases hcheck

theorem isLeaf_tDoubleNotNaN (h : Tags v true false false false false) :
    IsLeaf pointerType v tDoubleNotNaN := by
  have hpure : isDoubleNaN v = false := by
    rw [isDoubleNaN, beq_eq_false_iff_ne]
    rintro rfl
    exact absurd (h.nan.symm.trans (show isNaN pureNaN = true by decide)) (by decide)
  intro t
  cases t <;> simp only [check, checkPointer, isDoubleNotNaN, h.ne_nil, h.double, h.int32, h.miv,
    h.pointer, h.nan, hpure, Bool.false_and] <;> decide

theorem isLeaf_tDoubleNaN : IsLeaf pointerType pureNaN tDoubleNaN := by
  intro t
  cases t <;> simp only [check, checkPointer, show isPointer pureNaN = false by decide,
    Bool.false_and] <;> decide

theorem isLeaf_tInt32 (h : Tags v false true false false true) :
    IsLeaf pointerType v tInt32 := by
  intro t
  cases t <;> simp only [check, checkPointer, isDoubleNotNaN, h.ne_nil, h.double, h.int32, h.miv,
    h.pointer, h.nan, h.ne_pureNaN, Bool.false_and] <;> decide

theorem isLeaf_tNil : IsLeaf pointerType nil tNil := by
  intro t
  cases t <;> simp only [check, checkPointer, show isPointer nil = false by decide,
    Bool.false_and] <;> decide

theorem isLeaf_tBool (b : Bool) : IsLeaf pointerType (createBoolean b) tBool := by
  have hnil : isNil (createBoolean b) = false := by cases b <;> decide
  have h := tags_createBoolean b
  intro t
  cases t <;> simp only [check, checkPointer, isDoubleNotNaN, hnil, h.double, h.int32, h.miv,
    h.pointer, h.nan, h.ne_pureNaN, Bool.false_and] <;> decide

/-- The leaf of a heap object of a type that the language exposes. -/
def leafOf : HeapEntityType → Option SpeculationType
  | .function => some tFunction
  | .thread => some tThread
  | .object => some tObject
  | _ => none

/-- A pointer is of the leaf of its entity's type. -/
theorem isLeaf_pointer (h : Tags v false false false true true) {l : SpeculationType}
    (hl : leafOf (pointerType v) = some l) : IsLeaf pointerType v l := by
  intro t
  cases hty : pointerType v <;> rw [hty] at hl <;> cases hl <;> cases t <;>
    simp only [check, checkPointer, isDoubleNotNaN, h.ne_nil, h.double, h.int32, h.miv, h.pointer,
      h.nan, h.ne_pureNaN, hty] <;> decide

/-- A double that is not a number, in any other pattern. -/
theorem not_consistent_nan (h : Tags v true false false false true) (hne : v ≠ pureNaN) :
    ¬Consistent pointerType v := by
  have hpure : isDoubleNaN v = false := beq_eq_false_iff_ne.mpr hne
  refine not_consistent fun l => ?_
  cases l <;> simp only [check, checkPointer, isDoubleNotNaN, h.ne_nil, h.double, h.int32, h.miv,
    h.pointer, h.nan, hpure, Bool.false_and] <;> decide

/-- A pointer to an object of another type. -/
theorem not_consistent_pointer (h : Tags v false false false true true)
    (hl : leafOf (pointerType v) = none) : ¬Consistent pointerType v := by
  refine not_consistent fun l => ?_
  cases hty : pointerType v <;> rw [hty] at hl <;> cases hl <;> cases l <;>
    simp only [check, checkPointer, isDoubleNotNaN, h.ne_nil, h.double, h.int32, h.miv, h.pointer,
      h.nan, h.ne_pureNaN, hty] <;> decide

/-- `GetTypeForBoxedValue`, of a double. -/
theorem BoxedValue.Tags.type_double {int32 miv pointer nan : Bool}
    (h : Tags v true int32 miv pointer nan) :
    getTypeForBoxedValue pointerType v
      = some (typeMaskFor (if nan then tDoubleNaN else tDoubleNotNaN)) := by
  rw [getTypeForBoxedValue, h.double, isDoubleNotNaN, h.nan]
  cases nan <;> rfl

/-- `GetTypeForBoxedValue`, of any other value. -/
theorem BoxedValue.Tags.type_of_not_double {int32 miv pointer nan : Bool}
    (h : Tags v false int32 miv pointer nan) :
    getTypeForBoxedValue pointerType v
      = if pointer then heapEntityTypeMaskMap (pointerType v)
        else if miv then
          if isNil v then some (singletonTypeMaskFor tNil) else some (singletonTypeMaskFor tBool)
        else if int32 then some (singletonTypeMaskFor tInt32) else none := by
  rw [getTypeForBoxedValue, h.double, h.pointer, h.miv, h.int32]
  rfl

/-- **Boxing is consistent exactly without the other patterns of NaN**, and for pointers to objects
of the exposed types. -/
theorem consistent_iff (hv : Holdable v) :
    Consistent pointerType v ↔ ¬(isDouble v ∧ isNaN v ∧ v ≠ pureNaN)
      ∧ (isPointer v → (leafOf (pointerType v)).isSome) := by
  have hgood {l : SpeculationType} (hl : l ∈ boxedLeaves) (hleaf : IsLeaf pointerType v l)
      (htype : getTypeForBoxedValue pointerType v = some (typeMaskFor l))
      (hnan : ¬(isDouble v ∧ isNaN v ∧ v ≠ pureNaN))
      (hptr : isPointer v → (leafOf (pointerType v)).isSome) :
      Consistent pointerType v ↔ ¬(isDouble v ∧ isNaN v ∧ v ≠ pureNaN)
        ∧ (isPointer v → (leafOf (pointerType v)).isSome) :=
    ⟨fun _ => ⟨hnan, hptr⟩, fun _ => hleaf.consistent hl htype⟩
  cases hv with
  | double h =>
    have htags := tags_double h
    rcases Bool.eq_false_or_eq_true (isNaN v) with hnan | hnan <;> rw [hnan] at htags
    · rcases eq_or_ne v pureNaN with rfl | hne
      · exact hgood (by decide) isLeaf_tDoubleNaN (htags.type_double) (by simp)
          (by simp [htags.pointer])
      · exact iff_of_false (not_consistent_nan htags hne)
          fun h => h.1 ⟨htags.double, hnan, hne⟩
    · exact hgood (by decide) (isLeaf_tDoubleNotNaN htags) htags.type_double (by simp [hnan])
        (by simp [htags.pointer])
  | int32 i =>
    have htags := tags_createInt32 i
    refine hgood (by decide) (isLeaf_tInt32 htags) ?_ (by simp [htags.double])
      (by simp [htags.pointer])
    rw [htags.type_of_not_double, if_neg (by decide), if_neg (by decide), if_pos rfl]
    rfl
  | nil =>
    refine hgood (by decide) isLeaf_tNil ?_ (by simp [tags_nil.double])
      (by simp [tags_nil.pointer])
    rw [tags_nil.type_of_not_double, if_neg (by decide), if_pos rfl]
    rfl
  | boolean b =>
    have htags := tags_createBoolean b
    have hnil : isNil (createBoolean b) = false := by cases b <;> decide
    refine hgood (by decide) (isLeaf_tBool b) ?_ (by simp [htags.double])
      (by simp [htags.pointer])
    rw [htags.type_of_not_double, if_neg (by decide), if_pos rfl, hnil]
    rfl
  | pointer h h' =>
    have htags := tags_pointer h h'
    cases hl : leafOf (pointerType v) with
    | none =>
      exact iff_of_false (not_consistent_pointer htags hl)
        fun h => by simpa using h.2 htags.pointer
    | some l =>
      have hboxed : l ∈ boxedLeaves ∧ heapEntityTypeMaskMap (pointerType v)
          = some (typeMaskFor l) := by
        cases hty : pointerType v <;> rw [hty] at hl <;> cases hl <;> decide
      refine hl ▸ hgood hboxed.1 (isLeaf_pointer htags hl) ?_ (by simp [htags.double])
        (by simp [hl])
      rw [htags.type_of_not_double, if_pos rfl, hboxed.2]

end Consistent

/-! ## Decoding what was encoded -/

/-- An integer is read back. -/
theorem asInt32_createInt32 (i : BitVec 32) : asInt32 (createInt32 i) = some i := by
  have h := tags_createInt32 i
  simp only [asInt32, h.int32, h.miv, h.pointer, h.double, Bool.not_false, Bool.and_true, if_true]
  rw [createInt32_eq, BitVec.setWidth_append]
  simp

/-- A boolean is read back. -/
theorem asBoolean_createBoolean (b : Bool) : asBoolean (createBoolean b) = some b := by
  cases b <;> decide

/-- The patterns above the doubles are no numbers. -/
theorem isNaN_of_lt {v : BoxedValue} (h : 0xFFFAFFFFFFFFFFFF#64 < v) : isNaN v = true := by
  rw [eq_append v] at h ⊢
  generalize v.extractLsb' 32 32 = hi at h ⊢
  generalize v.extractLsb' 0 32 = lo at h ⊢
  rw [BitVec.lt_def, toNat_halves, BitVec.toNat_ofNat] at h
  rw [isNaN_halves, ← @BitVec.extractLsb'_append_extractLsb' 16 16 hi,
    show (0x7FF00000#32) = 0x7FF0#16 ++ 0#16 by decide,
    show (0x000FFFFF#32) = 0x000F#16 ++ BitVec.allOnes 16 by decide, BitVec.and_append,
    BitVec.and_append, BitVec.and_zero]
  have hlo := lo.isLt
  have hlt := hi.isLt
  -- the highest 16 bits are one of five patterns
  have htop : hi.extractLsb' 16 16 = 0xFFFB#16 ∨ hi.extractLsb' 16 16 = 0xFFFC#16
      ∨ hi.extractLsb' 16 16 = 0xFFFD#16 ∨ hi.extractLsb' 16 16 = 0xFFFE#16
      ∨ hi.extractLsb' 16 16 = 0xFFFF#16 := by
    simp only [BitVec.toNat_eq, BitVec.extractLsb'_toNat, BitVec.toNat_ofNat,
      Nat.shiftRight_eq_div_pow]
    omega
  have hne (t : BitVec 16) (ht : t ≠ 0#16) :
      (t ++ (hi.extractLsb' 0 16 &&& BitVec.allOnes 16) == 0#32) = false := by
    rw [beq_eq_false_iff_ne]
    intro heq
    rw [show (0#32) = 0#16 ++ 0#16 by decide] at heq
    exact ht (halves_inj heq).1
  rcases htop with htop | htop | htop | htop | htop <;>
    rw [htop, hne _ (by decide), Bool.false_and, Bool.not_false, Bool.and_true] <;> decide

/-- A double that is no NaN is read back. -/
theorem asDouble_createDouble {d : BitVec 64} (hd : isNaN d = false) :
    asDouble (createDouble d) = some d := by
  have hle : d ≤ 0xFFFAFFFFFFFFFFFF#64 := by
    by_contra hnot
    rw [isNaN_of_lt (BitVec.not_le.mp hnot)] at hd
    cases hd
  have h := tags_double hle
  simp [asDouble, createDouble, h.double, h.miv, h.pointer, h.int32]

/-- A pointer is read back. -/
theorem asPointer_createPointer {p : BitVec 64} (hp : isUserHeapPointer p) :
    asPointer (createPointer p) = some p := by
  have hrange := hp
  simp only [isUserHeapPointer, Bool.and_eq_true, decide_eq_true_eq] at hrange
  have h := tags_pointer (BitVec.le_trans (by decide) hrange.1) hrange.2
  simp [asPointer, createPointer, h.double, h.miv, h.pointer, h.int32, hp]

/-- `decode` of the type of a heap object. -/
def decodePointer (pointerType : BoxedValue → HeapEntityType) (ty : HeapEntityType)
    (v : BoxedValue) : Option (BitVec 64) :=
  (asPointer v).bind fun p => if pointerType p == ty then some p else none

/-- **Boxing and its lattice.**  On every value that a program can hold the checks, the masks and
`GetTypeForBoxedValue` agree exactly if the value is not one of the other NaN patterns, and an
object it points to has an exposed type; what is encoded is decoded. -/
theorem boxing_consistent (pointerType : BoxedValue → HeapEntityType) :
    (∀ v, Holdable v → (Consistent pointerType v
      ↔ ¬(isDouble v ∧ isNaN v ∧ v ≠ pureNaN)
        ∧ (isPointer v → pointerType v ∈ [HeapEntityType.function, .thread, .object])))
    ∧ (∀ i, asInt32 (createInt32 i) = some i)
    ∧ (∀ b, asBoolean (createBoolean b) = some b)
    ∧ (∀ d, isNaN d = false → asDouble (createDouble d) = some d)
    ∧ ∀ p, isUserHeapPointer p → asPointer (createPointer p) = some p
      ∧ decodePointer pointerType (pointerType p) (createPointer p) = some p := by
  refine ⟨fun v hv => ?_, asInt32_createInt32, asBoolean_createBoolean,
    fun d hd => asDouble_createDouble hd, fun p hp => ?_⟩
  · have hexposed : (leafOf (pointerType v)).isSome
        ↔ pointerType v ∈ [HeapEntityType.function, .thread, .object] := by
      cases pointerType v <;> decide
    rw [consistent_iff hv, hexposed]
  · have h := asPointer_createPointer hp
    refine ⟨h, ?_⟩
    rw [decodePointer, h, Option.bind_some]
    simp

/-- The largest pattern that is no NaN, and an integer. -/
theorem boxing_consistent_example :
    Consistent (fun _ => .object) 0x7FF0000000000000#64
      ∧ Consistent (fun _ => .object) (createInt32 7#32) := by
  obtain ⟨h, -⟩ := boxing_consistent fun _ => .object
  exact ⟨(h _ (.double (by decide))).mpr ⟨by decide, by decide⟩,
    (h _ (.int32 _)).mpr ⟨by decide, by decide⟩⟩

/-- **The NaN that arithmetic gives** on x86-64 is a double, and `GetTypeForBoxedValue` says
`tDoubleNaN`, but no leaf's check holds. -/
theorem boxing_defaultNaN :
    let v : BoxedValue := 0xFFF8000000000000#64
    let pointerType : BoxedValue → HeapEntityType := fun _ => .object
    Holdable v ∧ ¬Consistent pointerType v ∧ check pointerType v tDouble = some true
      ∧ getTypeForBoxedValue pointerType v = some (typeMaskFor tDoubleNaN)
      ∧ ∀ l ∈ boxedLeaves, check pointerType v l = some false := by
  have hnone : ∀ l ∈ boxedLeaves,
      check (fun _ => .object) (0xFFF8000000000000#64 : BoxedValue) l = some false := by decide
  exact ⟨.double (by decide), not_consistent hnone, by decide, by decide, hnone⟩

end Dsom
