import Dsom.Operators.Library

/-!
# Operators/Agreement — the fast paths agree with the library

For a receiver of a system class, an operator bytecode ends as the message does, up to which string
of one character `charAt:` answers.  The one exception is an index that is not positive: the fast
paths compare the index less one, as an unsigned number, with a length of 64 bits, and a string can
be so long that they let it pass.
-/

namespace Dsom

namespace Operator

/-! ## Fast paths

A fast path that has an answer is taken; otherwise the method is called. -/

section OrElse

variable {α : Type} (slow : Run TValue)

@[simp] theorem orElse_ret (tv : TValue) : orElse (ret tv) slow = pure tv := rfl

@[simp] theorem orElse_slowPath : orElse slowPath slow = slow := rfl

@[simp] theorem orElse_throw (e : Stop) : orElse (throw e) slow = throw e := rfl

@[simp] theorem throw_bind {β : Type} (e : Stop) (f : α → Run β) :
    (throw e : Run α) >>= f = throw e := rfl

/-- What comes first is shared. -/
@[simp] theorem orElse_bind (m : Run α) (f : α → FastPath) :
    orElse (m >>= f) slow = m >>= fun a => orElse (f a) slow := by
  simp only [orElse, bind_assoc]

@[simp] theorem orElse_ite (p : Prop) [Decidable p] (m m' : FastPath) :
    orElse (if p then m else m') slow = if p then orElse m slow else orElse m' slow := by
  split <;> rfl

@[simp] theorem orElse_retBool (b : Bool) : orElse (retBool b) slow = pure (.bool b) := rfl

@[simp] theorem orElse_retDouble (d : BitVec 64) :
    orElse (retDouble d) slow = pure (.double d) := rfl

/-- An `int32` result is the answer, where it is defined. -/
@[simp] theorem orElse_retInt32 (i : Option (BitVec 32)) :
    orElse (retInt32 i) slow = do return .int32 (← wellDefined i) := by
  simp only [retInt32, orElse_bind, orElse_ret]

end OrElse

/-! ## Integers and doubles -/

section Arithmetic

open Primitives

variable (F : FloatOps) {kind : Operator} {slow : Run TValue} (l : BitVec 32) (d : BitVec 64)
  (rhs : TValue)

/-- `+`, `-` and `*` of an integer. -/
theorem integerArith_agrees {int : BitVec 32 → BitVec 32 → Option (BitVec 32)}
    {dbl : BitVec 64 → BitVec 64 → BitVec 64} (hne : kind ≠ .equal)
    (hint : ∀ l r, doIntegerIntegerArithOp F kind l r = retInt32 (int l r))
    (hdbl : ∀ l r, doIntegerDoubleArithOp F kind l r = retDouble (dbl (F.ofInt32 l) r)) :
    orElse (doIntegerArithOp F kind l rhs) slow = integerArith F (.int32 l) rhs int dbl := by
  cases rhs <;> simp [doIntegerArithOp, hint, hdbl, hne, integerArith, TValue.asInt32]

/-- The comparisons of an integer. -/
theorem integerCompare_agrees {int : BitVec 32 → BitVec 32 → Bool}
    {dbl : BitVec 64 → BitVec 64 → Bool} (hne : kind ≠ .equal)
    (hint : ∀ l r, doIntegerIntegerArithOp F kind l r = retBool (int l r))
    (hdbl : ∀ l r, doIntegerDoubleArithOp F kind l r = retBool (dbl (F.ofInt32 l) r)) :
    orElse (doIntegerArithOp F kind l rhs) slow = integerCompare F (.int32 l) rhs int dbl := by
  cases rhs <;> simp [doIntegerArithOp, hint, hdbl, hne, integerCompare, TValue.asInt32]

/-- `/` and `%` of an integer. -/
theorem integerDivision_agrees {int : BitVec 32 → BitVec 32 → Option (BitVec 32)}
    (hne : kind ≠ .equal)
    (hint : ∀ l r, doIntegerIntegerArithOp F kind l r = retInt32 (int l r))
    (hdbl : ∀ l r, doIntegerDoubleArithOp F kind l r =
      do retInt32 (int l (← wellDefined (F.toInt32 r)))) :
    orElse (doIntegerArithOp F kind l rhs) slow = integerDivision F (.int32 l) rhs int := by
  cases rhs <;> simp [doIntegerArithOp, hint, hdbl, hne, integerDivision, TValue.asInt32]

/-- The operators that take integers only: the primitive refuses a double, too. -/
theorem integerBitwise_agrees {int : BitVec 32 → BitVec 32 → Option (BitVec 32)}
    (hne : kind ≠ .equal)
    (hint : ∀ l r, doIntegerIntegerArithOp F kind l r = retInt32 (int l r))
    (hdbl : ∀ l r, doIntegerDoubleArithOp F kind l r = slowPath)
    (hslow : slow = integerBitwise (.int32 l) rhs int) :
    orElse (doIntegerArithOp F kind l rhs) slow = integerBitwise (.int32 l) rhs int := by
  cases rhs <;> simp [doIntegerArithOp, hint, hdbl, hne, hslow, integerBitwise, TValue.asInt32]

theorem integerSlashSlash_agrees :
    orElse (doIntegerArithOp F .slashSlash l rhs) slow = integerSlashSlash F (.int32 l) rhs := by
  cases rhs <;>
    simp [doIntegerArithOp, doIntegerIntegerArithOp, doIntegerDoubleArithOp, integerSlashSlash,
      TValue.asInt32]

theorem integerEqual_agrees :
    orElse (doIntegerArithOp F .equal l rhs) slow = integerEqual F (.int32 l) rhs := by
  cases rhs <;>
    simp [doIntegerArithOp, doIntegerIntegerArithOp, doIntegerDoubleArithOp, integerEqual,
      TValue.asInt32]

/-- What is done with a double and a number is done with two doubles. -/
theorem orElse_doDoubleArithOp {k : BitVec 64 → Run TValue}
    (hk : ∀ r, orElse (doDoubleDoubleArithOp F kind d r) slow = k r) :
    orElse (doDoubleArithOp F kind d rhs) slow = coerceDouble F rhs >>= k := by
  cases rhs <;> simp [doDoubleArithOp, hk, coerceDouble, TValue.asInt32]

/-- `+`, `-`, `*` and `//` of a double. -/
theorem doubleArith_agrees {dbl : BitVec 64 → BitVec 64 → BitVec 64}
    (hdbl : ∀ l r, doDoubleDoubleArithOp F kind l r = retDouble (dbl l r)) :
    orElse (doDoubleArithOp F kind d rhs) slow = doubleArith F (.double d) rhs dbl :=
  (orElse_doDoubleArithOp F d rhs fun r => by rw [hdbl, orElse_retDouble]).trans
    (by simp [doubleArith, TValue.asDouble])

/-- The comparisons of a double. -/
theorem doubleCompare_agrees {dbl : BitVec 64 → BitVec 64 → Bool}
    (hdbl : ∀ l r, doDoubleDoubleArithOp F kind l r = retBool (dbl l r)) :
    orElse (doDoubleArithOp F kind d rhs) slow = doubleCompare F (.double d) rhs dbl :=
  (orElse_doDoubleArithOp F d rhs fun r => by rw [hdbl, orElse_retBool]).trans
    (by simp [doubleCompare, TValue.asDouble])

theorem doublePercent_agrees :
    orElse (doDoubleArithOp F .percent d rhs) slow = doublePercent F (.double d) rhs := by
  cases rhs <;>
    simp [doDoubleArithOp, doDoubleDoubleArithOp, doublePercent, coerceDouble, TValue.asInt32,
      TValue.asDouble]

end Arithmetic

/-! ## Receivers that are numbers -/

section Numbers

variable (env : Surroundings) (n : ℕ) (l : BitVec 32) (d : BitVec 64) (rhs : TValue)

/-- The kinds of `ArithBinOp`. -/
def isArith : Operator → Bool
  | .plus | .minus | .star | .slashSlash | .percent | .and | .equal | .lessThan | .lessEqual
  | .greaterThan | .greaterEqual | .unequal | .tildeUnequal | .leftShift | .rightShift
  | .bitwiseXor | .slash => true
  | _ => false

/-- **An arithmetic operator on an integer.** -/
theorem execute_int32 {kind : Operator} (hkind : kind.isArith) :
    execute env (n + 1) kind (.int32 l) [rhs] =
      dispatch env (n + 1) kind.selector (.int32 l) [rhs] := by
  cases kind <;> first | exact absurd hkind (by decide) | skip
  all_goals change orElse (doIntegerArithOp env.floats _ l rhs) _ = _
  case plus | minus | star =>
    exact integerArith_agrees env.floats l rhs (by decide) (fun _ _ => rfl) fun _ _ => rfl
  case lessThan | lessEqual | greaterThan | greaterEqual | unequal | tildeUnequal =>
    exact (integerCompare_agrees env.floats l rhs (by decide) (fun _ _ => rfl)
      fun _ _ => rfl).trans rfl
  case percent | slash =>
    exact integerDivision_agrees env.floats l rhs (by decide) (fun _ _ => rfl) fun _ _ => rfl
  case and | leftShift | rightShift | bitwiseXor =>
    refine (integerBitwise_agrees env.floats l rhs (by decide) (fun _ _ => rfl)
      (fun _ _ => rfl) ?_).trans ?_ <;> rfl
  case slashSlash => exact integerSlashSlash_agrees env.floats l rhs
  case equal => exact integerEqual_agrees env.floats l rhs

/-- **An arithmetic operator on a double.** -/
theorem execute_double {kind : Operator} (hkind : kind.isArith) :
    execute env (n + 1) kind (.double d) [rhs] =
      dispatch env (n + 1) kind.selector (.double d) [rhs] := by
  cases kind <;> first | exact absurd hkind (by decide) | skip
  case plus | minus | star | slashSlash =>
    exact doubleArith_agrees env.floats d rhs fun _ _ => rfl
  case lessThan | lessEqual | greaterThan | greaterEqual | equal | unequal | tildeUnequal =>
    exact doubleCompare_agrees env.floats d rhs fun _ _ => rfl
  case percent => exact doublePercent_agrees env.floats d rhs
  case and | leftShift | rightShift | bitwiseXor | slash => exact orElse_slowPath _

end Numbers

/-! ## Receivers on the heap

The class of the receiver decides which method is found. -/

section Dispatch

variable {env : Surroundings} {n : ℕ} {h : Heap} {selector : String} {op : TValue}
  {args : List TValue} {c : SystemClass}

theorem get_bind_apply {α : Type} (f : Heap → Run α) : (get >>= f) h = f h h := rfl

/-- Dispatching to a primitive. -/
theorem dispatch_primitive {f : SystemClass.LibFunc} (hc : getSOMClassOfAny h op = some c)
    (hm : c.getMethod env selector = some (.primitive f)) :
    dispatch env (n + 1) selector op args h = f op args h := by
  simp only [dispatch, get_bind_apply, hc, hm, Option.bind_some]

/-- Dispatching to a method of the library. -/
theorem dispatch_body {statements : List LibraryStatement} (hc : getSOMClassOfAny h op = some c)
    (hm : c.getMethod env selector = some (.body statements)) :
    dispatch env (n + 1) selector op args h = runBody (dispatch env n) op args statements h := by
  simp only [dispatch, get_bind_apply, hc, hm, Option.bind_some]

/-- A fast path that has read the entity of its receiver. -/
theorem orElse_entity_bind (a : ℕ) (f : HeapEntity → FastPath) (slow : Run TValue) :
    orElse (entity a >>= f) slow h = orElse (f (h.entities.get a)) slow h := rfl

@[simp] theorem entity_bind {α : Type} (a : ℕ) (f : HeapEntity → Run α) :
    (entity a >>= f) h = f (h.entities.get a) h := rfl

theorem asString_bind {α : Type} {a : ℕ} {isSymbol : Bool} {l : List (BitVec 8)}
    (hget : h.entities.get a = .string isSymbol l) (f : List (BitVec 8) → Run α) :
    (Primitives.asString (.heapEntity a) >>= f) h = f l h := by
  simp only [Primitives.asString, bind_assoc, entity_bind, hget, pure_bind]

theorem asArray_bind {α : Type} {a : ℕ} {data : List TValue}
    (hget : h.entities.get a = .array data) (f : ℕ × List TValue → Run α) :
    (Primitives.asArray (.heapEntity a) >>= f) h = f (a, data) h := by
  simp only [Primitives.asArray, bind_assoc, entity_bind, hget, pure_bind]

end Dispatch

section HeapEntities

variable (env : Surroundings) (n : ℕ) (h : Heap) (a : ℕ)

/-- Lists of one length and one element are equal when their heads are. -/
theorem head?_beq_eq {l r : List (BitVec 8)} (hlen : r.length = l.length) (hone : l.length = 1) :
    (l.head? == r.head?) = decide (l = r) := by
  obtain ⟨x, rfl⟩ := List.length_eq_one_iff.mp hone
  obtain ⟨y, rfl⟩ := List.length_eq_one_iff.mp hlen
  simp [beq_eq_decide]

/-- The class of a string or a symbol. -/
theorem getSOMClassOfAny_string {isSymbol : Bool} {l : List (BitVec 8)}
    (hget : h.entities.get a = .string isSymbol l) :
    getSOMClassOfAny h (.heapEntity a) =
      some (if isSymbol then .symbolClass else .stringClass) := by
  simp only [getSOMClassOfAny, hget]

/-- A method of strings is one of symbols, as `Symbol` has no method for an operator. -/
theorem getMethod_string (isSymbol : Bool) (selector : String) :
    (if isSymbol then .symbolClass else .stringClass : SystemClass).getMethod env selector =
      SystemClass.stringClass.getMethod env selector := by
  cases isSymbol <;> rfl

/-- A message to a string for which there is a primitive. -/
theorem dispatch_string {isSymbol : Bool} {l : List (BitVec 8)} {selector : String}
    {args : List TValue} {f : SystemClass.LibFunc}
    (hget : h.entities.get a = .string isSymbol l)
    (hm : SystemClass.stringClass.getMethod env selector = some (.primitive f)) :
    dispatch env (n + 1) selector (.heapEntity a) args h = f (.heapEntity a) args h :=
  dispatch_primitive (getSOMClassOfAny_string h a hget) ((getMethod_string env _ _).trans hm)

/-- A message to an array for which there is a primitive. -/
theorem dispatch_array {data : List TValue} {selector : String} {args : List TValue}
    {f : SystemClass.LibFunc} (hget : h.entities.get a = .array data)
    (hm : SystemClass.arrayClass.getMethod env selector = some (.primitive f)) :
    dispatch env (n + 1) selector (.heapEntity a) args h = f (.heapEntity a) args h :=
  dispatch_primitive (by simp only [getSOMClassOfAny, hget]) hm

/-- **`=` of a string.** -/
theorem execute_equal_string {isSymbol : Bool} {l : List (BitVec 8)}
    (hget : h.entities.get a = .string isSymbol l) (rhs : TValue) :
    execute env (n + 1) .equal (.heapEntity a) [rhs] h =
      dispatch env (n + 1) "=" (.heapEntity a) [rhs] h := by
  rw [dispatch_string (f := SystemClass.lib1 Primitives.stringEqual) env n h a hget rfl]
  simp only [execute, fastPath, binaryFastPath, arithBinOpImpl, stringEqual, orElse_entity_bind,
    hget, SystemClass.lib1, Primitives.stringEqual, asString_bind hget]
  by_cases heq : .heapEntity a = rhs
  · simp only [heq, if_true, orElse_retBool]
  simp only [heq, if_false]
  cases rhs with
  | heapEntity b =>
    simp only [orElse_entity_bind, entity_bind]
    cases h.entities.get b with
    | string _ r =>
      by_cases hlen : r.length = l.length
      · by_cases hone : l.length = 1
        · simp [hlen, head?_beq_eq hlen hone]
        · simp [hlen, hone]
      · simp [hlen]
    | _ => rfl
  | _ => rfl

/-- **An arithmetic operator.** -/
theorem execute_arith {kind : Operator} (hkind : kind.isArith) (op rhs : TValue) :
    execute env (n + 1) kind op [rhs] h = dispatch env (n + 1) kind.selector op [rhs] h := by
  cases op with
  | int32 l => rw [execute_int32 env n l rhs hkind]
  | double d => rw [execute_double env n d rhs hkind]
  | heapEntity a =>
    by_cases heq : kind = .equal
    · subst heq
      cases hget : h.entities.get a with
      | string isSymbol l => exact execute_equal_string env n h a hget rhs
      | _ =>
        simp only [execute, fastPath, binaryFastPath, arithBinOpImpl, stringEqual,
          orElse_entity_bind, hget, orElse_slowPath]
    · cases kind <;> first | exact absurd hkind (by decide) | exact absurd rfl heq | rfl
  | _ => cases kind <;> first | exact absurd hkind (by decide) | rfl

/-- The classes of what is on the heap. -/
theorem class_of_heapEntity {c : SystemClass} (hc : getSOMClassOfAny h (.heapEntity a) = some c) :
    c ∈ [.stringClass, .symbolClass, .arrayClass, .block1Class, .block2Class, .block3Class] := by
  simp only [getSOMClassOfAny] at hc
  split at hc <;> try split at hc
  all_goals cases hc <;> simp

/-- A value of class `Integer` is an integer. -/
theorem eq_int32_of_class {op : TValue} (hc : getSOMClassOfAny h op = some .integerClass) :
    ∃ i, op = .int32 i := by
  cases op with
  | int32 i => exact ⟨i, rfl⟩
  | bool b => cases b <;> cases hc
  | heapEntity a => exact absurd (class_of_heapEntity h a hc) (by decide)
  | _ => cases hc

/-- `==` compares what the values are. -/
theorem execute_equalEqual {c : SystemClass} {op : TValue} (hc : getSOMClassOfAny h op = some c)
    (rhs : TValue) :
    execute env (n + 1) .equalEqual op [rhs] h = dispatch env (n + 1) "==" op [rhs] h := by
  by_cases hint : c = .integerClass
  · obtain ⟨i, rfl⟩ := eq_int32_of_class h (hint ▸ hc)
    cases rhs with
    | int32 j =>
      have hb : decide (TValue.int32 i = .int32 j) = (i == j) := by simp [beq_eq_decide]
      exact congrArg (fun b => (.ok (.bool b, h) : Except Stop (TValue × Heap))) hb
    | _ => rfl
  · rw [dispatch_primitive (f := SystemClass.lib1 Primitives.objectEqualEqual) hc
      (by cases c <;> first | exact absurd rfl hint | rfl)]
    rfl

/-- A value that is not `nil` has another class. -/
theorem eq_nil_iff_class {c : SystemClass} {op : TValue} (hc : getSOMClassOfAny h op = some c) :
    op = .nil ↔ c = .nilClass := by
  cases op with
  | nil => simpa [getSOMClassOfAny] using hc.symm
  | bool b => cases b <;> cases hc <;> simp
  | heapEntity a =>
    refine ⟨nofun, ?_⟩
    rintro rfl
    exact absurd (class_of_heapEntity h a hc) (by decide)
  | _ => cases hc; simp

/-- `isNil` and `notNil`. -/
theorem execute_isNil {c : SystemClass} {op : TValue} (hc : getSOMClassOfAny h op = some c)
    (forIsNil : Bool) :
    execute env (n + 1) (if forIsNil then .isNil else .notNil) op [] h =
      dispatch env (n + 1) (if forIsNil then "isNil" else "notNil") op [] h := by
  have hm : c.getMethod env (if forIsNil then "isNil" else "notNil") =
      some (.body [.ret (.literal (.bool (decide (c = .nilClass) == forIsNil)))]) := by
    cases forIsNil <;> cases c <;> rfl
  rw [dispatch_body hc hm]
  have hnil := eq_nil_iff_class h hc
  cases forIsNil <;> simp only [← hnil] <;> rfl

/-- `&&`, `||`, `and:` and `or:`. -/
theorem execute_boolean {kind : Operator}
    (hkind : kind ∈ [logicalAnd, logicalOr, keywordAnd, keywordOr]) (op rhs : TValue) :
    execute env (n + 3) kind op [rhs] h = dispatch env (n + 3) kind.selector op [rhs] h := by
  simp only [List.mem_cons, List.not_mem_nil, or_false] at hkind
  cases op with
  | bool b =>
    cases rhs with
    | heapEntity a => rcases hkind with rfl | rfl | rfl | rfl <;> rfl
    | bool b' => cases b <;> cases b' <;> rcases hkind with rfl | rfl | rfl | rfl <;> rfl
    | _ => cases b <;> rcases hkind with rfl | rfl | rfl | rfl <;> rfl
  | _ => rcases hkind with rfl | rfl | rfl | rfl <;> cases rhs <;> rfl

/-- `not`. -/
theorem execute_not (op : TValue) :
    execute env (n + 1) .not op [] h = dispatch env (n + 1) "not" op [] h := by
  cases op with
  | bool b => cases b <;> rfl
  | _ => rfl

/-- The class of a block. -/
def BlockArity.systemClass : BlockArity → SystemClass
  | .noArg => .block1Class
  | .oneArg => .block2Class
  | .twoArgs => .block3Class

/-- The class of a block, by its arity. -/
theorem class_of_block {arity : BlockArity} {self : BlockSelf}
    (hget : h.entities.get a = .block arity self) :
    getSOMClassOfAny h (.heapEntity a) = some (BlockArity.systemClass arity) := by
  cases arity <;> simp only [getSOMClassOfAny, hget] <;> rfl

/-- The call of a block. -/
theorem execute_blockValue {arity : BlockArity} {args : List TValue} {selector : String}
    {f : SystemClass.LibFunc} (op : TValue)
    (hm : (BlockArity.systemClass arity).getMethod env selector = some (.primitive f))
    (hf : ∀ op, f op args = Primitives.blockEval env arity op args) :
    orElse (blockValue env arity op args) (dispatch env (n + 1) selector op args) h =
      dispatch env (n + 1) selector op args h := by
  cases op with
  | heapEntity a =>
    simp only [blockValue, orElse_entity_bind]
    cases hget : h.entities.get a with
    | block ar self =>
      by_cases har : ar = arity
      · subst har
        rw [dispatch_primitive (class_of_block h a hget) hm, hf]
        simp [Primitives.blockEval, entity_bind, hget, orElse_bind]
      · simp only [har, if_false, orElse_slowPath]
    | _ => rfl
  | _ => rfl

/-- `value`, `value:` and `value:with:`. -/
theorem execute_value (op : TValue) :
    execute env (n + 1) .value op [] h = dispatch env (n + 1) "value" op [] h := by
  cases op with
  | heapEntity a => exact execute_blockValue env n h (.heapEntity a) rfl fun _ => rfl
  | bool b => cases b <;> rfl
  | _ => rfl

theorem execute_valueColon (op rhs : TValue) :
    execute env (n + 1) .valueColon op [rhs] h = dispatch env (n + 1) "value:" op [rhs] h :=
  execute_blockValue env n h op rfl fun _ => rfl

theorem execute_valueWith (op arg1 arg2 : TValue) :
    execute env (n + 1) .valueWith op [arg1, arg2] h =
      dispatch env (n + 1) "value:with:" op [arg1, arg2] h :=
  execute_blockValue env n h op rfl fun _ => rfl

/-- `length`. -/
theorem execute_length (op : TValue) :
    execute env (n + 1) .length op [] h = dispatch env (n + 1) "length" op [] h := by
  cases op with
  | heapEntity a =>
    simp only [execute, fastPath, unaryFastPath, lengthImpl, orElse_entity_bind]
    cases hget : h.entities.get a with
    | array data =>
      rw [dispatch_array (f := SystemClass.lib0 Primitives.arrayLength) env n h a hget rfl]
      simp only [SystemClass.lib0, Primitives.arrayLength, asArray_bind hget, orElse_ret]
    | string isSymbol chars =>
      rw [dispatch_string (f := SystemClass.lib0 Primitives.stringLength) env n h a hget rfl]
      simp only [SystemClass.lib0, Primitives.stringLength, asString_bind hget, orElse_ret]
    | _ => rfl
  | _ => rfl

/-- The method `abs` of `Double`. -/
theorem dispatch_abs_double (d : BitVec 64) :
    dispatch env (n + 3) "abs" (.double d) [] h =
      .ok (.double (if env.floats.lt d 0 then env.floats.sub 0 d else d), h) := by
  have hlt : dispatch env (n + 2) "<" (.double d) [.double 0] =
      pure (.bool (env.floats.lt d 0)) := rfl
  have hsub : dispatch env (n + 2) "-" (.double 0) [.double d] =
      pure (.double (env.floats.sub 0 d)) := rfl
  have hif : ∀ b x y, dispatch env (n + 2) "ifTrue:ifFalse:" (.bool b) [.double x, .double y] h =
      .ok (.double (if b then x else y), h) := by
    intro b x y
    cases b <;> rfl
  rw [dispatch_body (c := .doubleClass) rfl rfl]
  simp only [runBody, LibraryExpr.eval, LibraryExpr.evalAll, hlt, hsub, pure_bind, hif]

/-- `abs`; the method of `Double` is not a primitive. -/
theorem execute_abs (op : TValue) :
    execute env (n + 3) .abs op [] h = dispatch env (n + 3) "abs" op [] h := by
  cases op with
  | int32 v =>
    rw [dispatch_primitive (f := SystemClass.lib0 Primitives.integerAbs)
      (c := .integerClass) rfl rfl]
    simp [execute, fastPath, unaryFastPath, SystemClass.lib0, absImpl, Primitives.integerAbs,
      TValue.asInt32]
  | double d => exact (dispatch_abs_double env n h d).symm
  | heapEntity a =>
    rfl
  | _ => rfl

/-- `sqrt`. -/
theorem execute_sqrt (op : TValue) :
    execute env (n + 1) .sqrt op [] h = dispatch env (n + 1) "sqrt" op [] h := by
  cases op with
  | int32 v =>
    rw [dispatch_primitive (f := SystemClass.lib0 (Primitives.integerSqrt env.floats))
      (c := .integerClass) rfl rfl]
    simp [execute, fastPath, unaryFastPath, SystemClass.lib0, sqrtImpl, Primitives.integerSqrt,
      TValue.asInt32]
  | _ => rfl

/-! ## Indices

An index that is not positive wraps around in the unsigned comparison.  In a string or an array that
is long enough it is then in range. -/

/-- An index that is not positive and is not found to be out of range. -/
def Wraps (idx : BitVec 32) (length : ℕ) : Prop := idx.toInt ≤ 0 ∧ (idx - 1).toNat < length

/-- The predecessor of an index, as an unsigned number: that of an index that is not positive is not
below `INT32_MAX`. -/
theorem toNat_sub_one (idx : BitVec 32) :
    0 < idx.toInt ∧ ((idx - 1).toNat : ℤ) = idx.toInt - 1 ∨
      idx.toInt ≤ 0 ∧ 2 ^ 31 - 1 ≤ (idx - 1).toNat := by
  have hlt := idx.isLt
  have hpred : (idx - 1).toNat = (2 ^ 32 - 1 + idx.toNat) % 2 ^ 32 := BitVec.toNat_sub ..
  rw [hpred, BitVec.toInt_eq_toNat_cond]
  split_ifs <;> omega

/-- The comparison of the fast paths is the one of the library, unless the index wraps. -/
theorem indexOutOfRange_iff {idx : BitVec 32} {length : ℕ} (hwraps : ¬ Wraps idx length) :
    IndexOutOfRange idx length ↔ idx.toInt ≤ 0 ∨ (length : ℤ) < idx.toInt := by
  rw [Wraps] at hwraps
  rw [IndexOutOfRange]
  rcases toNat_sub_one idx with h | h <;> omega

/-- No index wraps for as many elements as an `int32_t` can count. -/
theorem not_wraps (idx : BitVec 32) {length : ℕ} (hlength : length < 2 ^ 31) :
    ¬ Wraps idx length := by
  rintro ⟨hidx, hlt⟩
  rcases toNat_sub_one idx with h | h <;> omega

/-- **`at:`** of an array, for an index that does not wrap. -/
theorem execute_atColon_array {data : List TValue} (hget : h.entities.get a = .array data)
    {rhs : TValue} (hwraps : ∀ idx, rhs = .int32 idx → ¬ Wraps idx data.length) :
    execute env (n + 1) .atColon (.heapEntity a) [rhs] h =
      dispatch env (n + 1) "at:" (.heapEntity a) [rhs] h := by
  rw [dispatch_array (f := SystemClass.lib1 Primitives.arrayAt) env n h a hget rfl]
  cases rhs with
  | int32 idx =>
    simp only [execute, fastPath, binaryFastPath, atColonImpl, orElse_entity_bind, hget,
      SystemClass.lib1, Primitives.arrayAt, TValue.asInt32, pure_bind, asArray_bind hget,
      indexOutOfRange_iff (hwraps idx rfl)]
    split_ifs <;> simp
  | _ =>
    simp only [execute, fastPath, binaryFastPath, atColonImpl, orElse_entity_bind, hget,
      SystemClass.lib1, Primitives.arrayAt, TValue.asInt32, throw_bind, orElse_throw]

/-- **`at:put:`** of an array, for an index that does not wrap. -/
theorem execute_atPut_array {data : List TValue} (hget : h.entities.get a = .array data)
    {arg1 : TValue} (arg2 : TValue)
    (hwraps : ∀ idx, arg1 = .int32 idx → ¬ Wraps idx data.length) :
    execute env (n + 1) .atPut (.heapEntity a) [arg1, arg2] h =
      dispatch env (n + 1) "at:put:" (.heapEntity a) [arg1, arg2] h := by
  rw [dispatch_array (f := SystemClass.lib2 Primitives.arrayAtPut) env n h a hget rfl]
  cases arg1 with
  | int32 idx =>
    simp only [execute, fastPath, ternaryFastPath, atPutImpl, orElse_entity_bind, hget,
      SystemClass.lib2, Primitives.arrayAtPut, TValue.asInt32, pure_bind, asArray_bind hget,
      indexOutOfRange_iff (hwraps idx rfl)]
    split_ifs <;> simp
  | _ =>
    simp only [execute, fastPath, ternaryFastPath, atPutImpl, orElse_entity_bind, hget,
      SystemClass.lib2, Primitives.arrayAtPut, TValue.asInt32, throw_bind, orElse_throw]

/-- **What the same run is**: the same result and the same heap, or results that are two strings of
the same characters, the second of them new, on heaps that are alike up to where that one is. -/
inductive SameOutcome (h : Heap) :
    Except Stop (TValue × Heap) → Except Stop (TValue × Heap) → Prop where
  | same (r : Except Stop (TValue × Heap)) : SameOutcome h r r
  | newString {a₁ a₂ : ℕ} {h₁ h₂ : Heap} (isSymbol : Bool) (chars : List (BitVec 8))
      (hnew : h.entities.size ≤ a₂)
      (hget₁ : h₁.entities.get a₁ = .string isSymbol chars)
      (hget₂ : h₂.entities.get a₂ = .string isSymbol chars)
      (hentities : ∀ a < h.entities.size, h₁.entities.get a = h₂.entities.get a)
      (hupvalues : h₁.upvalues = h₂.upvalues) :
      SameOutcome h (.ok (.heapEntity a₁, h₁)) (.ok (.heapEntity a₂, h₂))

/-- **`charAt:`** of a string, for an index that does not wrap. -/
theorem execute_charAtColon_string {isSymbol : Bool} {chars : List (BitVec 8)}
    (hget : h.entities.get a = .string isSymbol chars) {rhs : TValue}
    (hwraps : ∀ idx, rhs = .int32 idx → ¬ Wraps idx chars.length) :
    SameOutcome h (execute env (n + 1) .charAtColon (.heapEntity a) [rhs] h)
      (dispatch env (n + 1) "charAt:" (.heapEntity a) [rhs] h) := by
  rw [dispatch_string (f := SystemClass.lib1 Primitives.stringCharAt) env n h a hget rfl]
  cases rhs with
  | int32 idx =>
    simp only [execute, fastPath, binaryFastPath, charAtColonImpl, orElse_entity_bind, hget,
      SystemClass.lib1, Primitives.stringCharAt, TValue.asInt32, pure_bind, asString_bind hget,
      indexOutOfRange_iff (hwraps idx rfl)]
    split_ifs with hidx
    · exact .same _
    · cases hch : Primitives.element chars idx with
      | none => exact .same _
      | some ch =>
        simp only [pure_bind, wellDefined, orElse_bind, get_bind_apply]
        cases hcache : h.singleCharStrings ch with
        | some r =>
          -- the cached string, which was there before
          obtain ⟨-, hr⟩ := h.singleCharStrings_spec ch r hcache
          exact .newString false [ch] le_rfl hr (Arena.get_push_self ..)
            (fun a ha => (Arena.get_push_of_lt _ ha _).symm) rfl
        | none =>
          -- both strings are new, and one of them is cached
          exact .newString false [ch] le_rfl (Arena.get_push_self ..) (Arena.get_push_self ..)
            (fun _ _ => rfl) rfl
  | _ =>
    simp only [execute, fastPath, binaryFastPath, charAtColonImpl, orElse_entity_bind, hget,
      SystemClass.lib1, Primitives.stringCharAt, TValue.asInt32, throw_bind, orElse_throw]
    exact .same _

end HeapEntities

/-! ## All operators -/

section All

variable (env : Surroundings) (n : ℕ) {h : Heap}

/-- **The index wraps**: it is the index of an array or a string, is not positive, and is so far
below zero, and the array or string so long, that the fast path lets it pass. -/
inductive IndexWraps (h : Heap) : Operator → TValue → List TValue → Prop where
  | atColon {a : ℕ} {data : List TValue} {idx : BitVec 32}
      (hget : h.entities.get a = .array data) (hwraps : Wraps idx data.length) :
      IndexWraps h .atColon (.heapEntity a) [.int32 idx]
  | atPut {a : ℕ} {data : List TValue} {idx : BitVec 32} {tv : TValue}
      (hget : h.entities.get a = .array data) (hwraps : Wraps idx data.length) :
      IndexWraps h .atPut (.heapEntity a) [.int32 idx, tv]
  | charAtColon {a : ℕ} {isSymbol : Bool} {chars : List (BitVec 8)} {idx : BitVec 32}
      (hget : h.entities.get a = .string isSymbol chars) (hwraps : Wraps idx chars.length) :
      IndexWraps h .charAtColon (.heapEntity a) [.int32 idx]

/-- An index that wraps passes the test of the fast path. -/
theorem Wraps.inRange {idx : BitVec 32} {length : ℕ} (hwraps : Wraps idx length) :
    ¬ IndexOutOfRange idx length :=
  hwraps.2.not_ge

/-- And there is no element there. -/
theorem Wraps.element_eq_none {α : Type} {idx : BitVec 32} {data : List α}
    (hwraps : Wraps idx data.length) : Primitives.element data idx = none :=
  if_neg hwraps.1.not_gt

/-- **An index that wraps** makes the fast path read or write outside, where the library stops with
a message. -/
theorem IndexWraps.outcomes {kind : Operator} {op : TValue} {args : List TValue}
    (hwraps : IndexWraps h kind op args) :
    execute env (n + 1) kind op args h = .error .undefined ∧
      ∃ message, dispatch env (n + 1) kind.selector op args h = .error (.abort message) := by
  cases hwraps with
  | @atColon a data idx hget hwraps =>
    refine ⟨?_, Primitives.outOfBound "Array access" "size" idx data.length, ?_⟩
    · simp only [execute, fastPath, binaryFastPath, atColonImpl, orElse_entity_bind, hget,
        TValue.asInt32, pure_bind, if_neg hwraps.inRange, hwraps.element_eq_none]
      rfl
    · rw [selector, dispatch_array (f := SystemClass.lib1 Primitives.arrayAt) env n h a hget rfl]
      simp only [SystemClass.lib1, Primitives.arrayAt, TValue.asInt32, pure_bind,
        asArray_bind hget, if_pos (Or.inl hwraps.1 : idx.toInt ≤ 0 ∨ _)]
      rfl
  | @atPut a data idx tv hget hwraps =>
    refine ⟨?_, Primitives.outOfBound "Array write" "size" idx data.length, ?_⟩
    · simp only [execute, fastPath, ternaryFastPath, atPutImpl, orElse_entity_bind, hget,
        TValue.asInt32, pure_bind, if_neg hwraps.inRange, hwraps.element_eq_none]
      rfl
    · rw [selector, dispatch_array (f := SystemClass.lib2 Primitives.arrayAtPut) env n h a hget rfl]
      simp only [SystemClass.lib2, Primitives.arrayAtPut, TValue.asInt32, pure_bind,
        asArray_bind hget, if_pos (Or.inl hwraps.1 : idx.toInt ≤ 0 ∨ _)]
      rfl
  | @charAtColon a isSymbol chars idx hget hwraps =>
    refine ⟨?_, Primitives.outOfBound "String charAt" "string length" idx chars.length, ?_⟩
    · simp only [execute, fastPath, binaryFastPath, charAtColonImpl, orElse_entity_bind, hget,
        TValue.asInt32, pure_bind, if_neg hwraps.inRange, hwraps.element_eq_none]
      rfl
    · rw [selector,
        dispatch_string (f := SystemClass.lib1 Primitives.stringCharAt) env n h a hget rfl]
      simp only [SystemClass.lib1, Primitives.stringCharAt, TValue.asInt32, pure_bind,
        asString_bind hget, if_pos (Or.inl hwraps.1 : idx.toInt ≤ 0 ∨ _)]
      rfl

/-- Where an index wraps, the outcomes differ. -/
theorem IndexWraps.not_sameOutcome {kind : Operator} {op : TValue} {args : List TValue}
    (hwraps : IndexWraps h kind op args) :
    ¬ SameOutcome h (execute env (n + 1) kind op args h)
      (dispatch env (n + 1) kind.selector op args h) := by
  obtain ⟨hfast, message, hslow⟩ := hwraps.outcomes env n
  rw [hfast, hslow]
  nofun

/-- `at:` of anything, for an index that does not wrap. -/
theorem execute_atColon {op rhs : TValue} (hwraps : ¬ IndexWraps h .atColon op [rhs]) :
    execute env (n + 1) .atColon op [rhs] h = dispatch env (n + 1) "at:" op [rhs] h := by
  cases op with
  | heapEntity a =>
    cases hget : h.entities.get a with
    | array data =>
      refine execute_atColon_array env n h a hget fun idx hidx hw => hwraps ?_
      rw [hidx]
      exact .atColon hget hw
    | _ =>
      simp only [execute, fastPath, binaryFastPath, atColonImpl, orElse_entity_bind, hget,
        orElse_slowPath]
      rfl
  | _ => rfl

/-- `at:put:` of anything, for an index that does not wrap. -/
theorem execute_atPut {op arg1 arg2 : TValue} (hwraps : ¬ IndexWraps h .atPut op [arg1, arg2]) :
    execute env (n + 1) .atPut op [arg1, arg2] h =
      dispatch env (n + 1) "at:put:" op [arg1, arg2] h := by
  cases op with
  | heapEntity a =>
    cases hget : h.entities.get a with
    | array data =>
      refine execute_atPut_array env n h a hget arg2 fun idx hidx hw => hwraps ?_
      rw [hidx]
      exact .atPut hget hw
    | _ =>
      simp only [execute, fastPath, ternaryFastPath, atPutImpl, orElse_entity_bind, hget,
        orElse_slowPath]
      rfl
  | _ => rfl

/-- `charAt:` of anything, for an index that does not wrap. -/
theorem execute_charAtColon {op rhs : TValue} (hwraps : ¬ IndexWraps h .charAtColon op [rhs]) :
    SameOutcome h (execute env (n + 1) .charAtColon op [rhs] h)
      (dispatch env (n + 1) "charAt:" op [rhs] h) := by
  cases op with
  | heapEntity a =>
    cases hget : h.entities.get a with
    | string isSymbol chars =>
      refine execute_charAtColon_string env n h a hget fun idx hidx hw => hwraps ?_
      rw [hidx]
      exact .charAtColon hget hw
    | _ =>
      simp only [execute, fastPath, binaryFastPath, charAtColonImpl, orElse_entity_bind, hget,
        orElse_slowPath]
      exact .same _
  | _ => exact .same _

variable {c : SystemClass} {op : TValue}

theorem execute_unary (hc : getSOMClassOfAny h op = some c) (kind : Operator) :
    execute env (n + 3) kind op [] h = dispatch env (n + 3) kind.selector op [] h := by
  cases kind with
  | abs => exact execute_abs env n h op
  | sqrt => exact execute_sqrt env (n + 2) h op
  | isNil => exact execute_isNil env (n + 2) h hc true
  | notNil => exact execute_isNil env (n + 2) h hc false
  | value => exact execute_value env (n + 2) h op
  | not => exact execute_not env (n + 2) h op
  | length => exact execute_length env (n + 2) h op
  | _ => rfl

theorem execute_binary (hc : getSOMClassOfAny h op = some c) {kind : Operator} {rhs : TValue}
    (hwraps : ¬ IndexWraps h kind op [rhs]) :
    SameOutcome h (execute env (n + 3) kind op [rhs] h)
      (dispatch env (n + 3) kind.selector op [rhs] h) := by
  by_cases harith : kind.isArith
  · rw [execute_arith env (n + 2) h harith]
    exact .same _
  cases kind with
  | charAtColon => exact execute_charAtColon env (n + 2) hwraps
  | atColon =>
    rw [execute_atColon env (n + 2) hwraps]
    exact .same _
  | equalEqual =>
    rw [execute_equalEqual env (n + 2) h hc]
    exact .same _
  | valueColon =>
    rw [execute_valueColon env (n + 2) h]
    exact .same _
  | logicalAnd | logicalOr | keywordAnd | keywordOr =>
    rw [execute_boolean env n h (by simp)]
    exact .same _
  | _ => first | exact absurd rfl harith | exact .same _

theorem execute_ternary {kind : Operator} {arg1 arg2 : TValue}
    (hwraps : ¬ IndexWraps h kind op [arg1, arg2]) :
    execute env (n + 3) kind op [arg1, arg2] h =
      dispatch env (n + 3) kind.selector op [arg1, arg2] h := by
  cases kind with
  | atPut => exact execute_atPut env (n + 2) hwraps
  | valueWith => exact execute_valueWith env (n + 2) h op arg1 arg2
  | _ => rfl

/-- No index wraps as long as no array and no string is longer than an `int32_t` can say. -/
theorem not_indexWraps {kind : Operator} {args : List TValue}
    (harray : ∀ a data, h.entities.get a = .array data → data.length < 2 ^ 31)
    (hstring : ∀ a isSymbol chars, h.entities.get a = .string isSymbol chars →
      chars.length < 2 ^ 31) : ¬ IndexWraps h kind op args := by
  rintro (⟨hget, hw⟩ | ⟨hget, hw⟩ | ⟨hget, hw⟩)
  · exact not_wraps _ (harray _ _ hget) hw
  · exact not_wraps _ (harray _ _ hget) hw
  · exact not_wraps _ (hstring _ _ _ hget) hw

/-- **An operator bytecode does what the message does**, for every receiver of a system class and
all arguments, exactly when no index wraps.  Three nested messages are as deep as the methods of
the library go. -/
theorem execute_sameOutcome_iff (hc : getSOMClassOfAny h op = some c) (kind : Operator)
    (args : List TValue) :
    SameOutcome h (execute env (n + 3) kind op args h)
        (dispatch env (n + 3) kind.selector op args h) ↔
      ¬ IndexWraps h kind op args := by
  refine ⟨fun hsame hwraps => hwraps.not_sameOutcome env (n + 2) hsame, fun hwraps => ?_⟩
  match args with
  | [] =>
    rw [execute_unary env n hc]
    exact .same _
  | [rhs] => exact execute_binary env n hc hwraps
  | [arg1, arg2] =>
    rw [execute_ternary env n hwraps]
    exact .same _
  | _ :: _ :: _ :: _ => exact .same _

/-- A heap with one string. -/
def stringHeap (chars : List (BitVec 8)) : Heap where
  entities := ⟨1, fun _ => .string false chars⟩
  upvalues _ := .nil
  singleCharStrings _ := none
  singleCharStrings_spec _ _ := nofun

/-- Surroundings without doubles, blocks and other methods. -/
def noSurroundings : Surroundings where
  floats :=
    { add := fun d _ => d, sub := fun d _ => d, mul := fun d _ => d, div := fun d _ => d,
      eq := fun _ _ => false, ne := fun _ _ => true, lt := fun _ _ => false,
      le := fun _ _ => false, gt := fun _ _ => false, ge := fun _ _ => false,
      sqrt := id, rint := id, ofInt32 := fun _ => 0, ofInt64 := id,
      toInt32 := fun _ => none, toInt64 := fun _ => none }
  runBlock _ _ _ := throw .undefined
  send _ _ _ := throw .undefined

theorem execute_sameOutcome_iff_short_string :
    SameOutcome (stringHeap [97, 98])
        (execute noSurroundings 3 .charAtColon (.heapEntity 0) [.int32 2] (stringHeap [97, 98]))
        (dispatch noSurroundings 3 "charAt:" (.heapEntity 0) [.int32 2] (stringHeap [97, 98])) ↔
      ¬ IndexWraps (stringHeap [97, 98]) .charAtColon (.heapEntity 0) [.int32 2] :=
  execute_sameOutcome_iff noSurroundings 0 (c := .stringClass) rfl .charAtColon [.int32 2]

/-- A string of `2 ^ 31` characters has no character at the least integer; the bytecode takes it for
one. -/
theorem not_sameOutcome_long_string :
    getSOMClassOfAny (stringHeap (List.replicate (2 ^ 31) 97)) (.heapEntity 0) =
        some .stringClass ∧
      ¬ SameOutcome (stringHeap (List.replicate (2 ^ 31) 97))
        (execute noSurroundings 3 .charAtColon (.heapEntity 0) [.int32 (BitVec.intMin 32)]
          (stringHeap (List.replicate (2 ^ 31) 97)))
        (dispatch noSurroundings 3 "charAt:" (.heapEntity 0) [.int32 (BitVec.intMin 32)]
          (stringHeap (List.replicate (2 ^ 31) 97))) := by
  refine ⟨rfl, IndexWraps.not_sameOutcome noSurroundings 2 (.charAtColon rfl ⟨by decide, ?_⟩)⟩
  rw [List.length_replicate]
  decide

end All

end Operator

end Dsom
