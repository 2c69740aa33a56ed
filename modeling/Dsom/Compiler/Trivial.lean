import Dsom.Compiler.Upvalues

/-!
# Compiler/Trivial — the code of trivial methods

`CompileMethod` classifies a method by looking at its tree, and compiles it all the same.  Here is
what the body of a method that is classified as trivial compiles to: one bytecode for its value, or
one that puts a field.
-/

namespace Dsom

/-! ## Names in the scope of a method -/

/-- What a name means directly in a method. -/
def methodResolution (env : MethodEnv) (s : TranslationState) (name : String) : VarResolveResult :=
  if name = "self" ∨ name = "super" then .local 0
  else
    match s.localVarMap name with
    | var :: _ => .local (s.vars.get var).slotOrd
    | [] =>
      match env.fieldMap name with
      | some ord => .field ord
      | none =>
        if name = "false" then .falseTrueNil (.bool false)
        else if name = "true" then .falseTrueNil (.bool true)
        else if name = "nil" then .falseTrueNil .nil
        else .global (env.getSlotForGlobal name)

/-- The ordinal of what is outside of the method: a field or a global. -/
def VarResolveResult.outer : VarResolveResult → Option ℕ
  | .field ord | .global ord => some ord
  | _ => none

/-- The ordinal of a name that stands for a field or a global in a method. -/
def outerOrdinal (env : MethodEnv) (meth : AstMethod) (name : String) : Option ℕ :=
  if name = "self" ∨ name = "super" ∨ name ∈ meth.params ++ meth.locals then none
  else
    match env.fieldMap name with
    | some ord => some ord
    | none =>
      if name = "false" ∨ name = "true" ∨ name = "nil" then none
      else some (env.getSlotForGlobal name)

/-- The place of the compiler in the method itself. -/
structure AtMethod (s : TranslationState) : Prop extends Inv {0} 0 0 s where
  owner : (s.bctxs.get 0).owningContext = 0
  lexical : (s.bctxs.get 0).lexicalParent = none
  isTop : (s.bctxs.get 0).trueParent = none

section Names

variable {env : MethodEnv} {s s' : TranslationState} {name : String} {mode : VarResolveMode}

/-- The scope of the method is still there later. -/
theorem AtMethod.ext (h : AtMethod s) (hext : Ext {0} s s') (hi : Inv {0} 0 0 s') :
    AtMethod s' where
  toInv := hi
  owner := (hext.owningContext h.here.bctx_lt).trans h.owner
  lexical := (hext.lexicalParent h.here.bctx_lt).trans h.lexical
  isTop := (hext.trueParent h.here.bctx_lt).trans h.isTop

/-- A name in the map is a variable of the method itself. -/
theorem AtMethod.home (h : AtMethod s) {var : ℕ} {vars : List ℕ}
    (hmap : s.localVarMap name = var :: vars) : var < s.vars.size ∧ homeOf s var = 0 := by
  have hvisible := visible_of_innermost (h.innermost_of_map hmap)
  obtain ⟨hvar, hhome⟩ := h.wf.home_of_visible h.here.bctx_lt hvisible
  refine ⟨hvar, ?_⟩
  rcases hhome with hhome | ⟨q, hq, -⟩
  · rw [hhome, h.owner]
  · rw [h.owner, h.lexical] at hq
    cases hq

/-- Resolution in a method does not depend on the moment. -/
theorem AtMethod.methodResolution_ext (h : AtMethod s) (hext : Ext {0} s s') :
    methodResolution env s' name = methodResolution env s name := by
  rw [methodResolution, methodResolution, hext.map]
  split
  · rfl
  · cases hmap : s.localVarMap name with
    | nil => rfl
    | cons var vars => simp only [(hext.var var (h.home hmap).1).2]

/-- A local of the method is resolved to its slot. -/
theorem AtMethod.resolveLocal_value (h : AtMethod s) {var : ℕ} {vars : List ℕ}
    (hmap : s.localVarMap name = var :: vars) :
    Ensures (resolveLocal 0 0 name mode var) s fun r _ => r = .local (s.vars.get var).slotOrd := by
  obtain ⟨hvar, hhome⟩ := h.home hmap
  refine Ensures.getVar_bind (Ensures.bind (keeps_notify _ _ _ s h.toInv) ?_)
  rintro - s₁ ⟨hext, hi⟩
  refine Ensures.getBCtx_bind (Ensures.getBCtx_bind ?_)
  have hsame : (s₁.bctxs.get (s.vars.get var).bctx).owningContext =
      (s₁.bctxs.get 0).owningContext := by
    rw [(h.ext hext hi).owner, ← hhome, ← hext.homeOf h.wf hvar, homeOf, (hext.var var hvar).1]
  rw [if_neg (not_not.mpr hsame)]
  exact Ensures.of_pure rfl

/-- **What `ResolveVariable` answers in a method.** -/
theorem AtMethod.resolveVariable_ensures (h : AtMethod s) :
    Ensures (resolveVariable env 0 0 name mode) s fun r s' =>
      (Ext {0} s s' ∧ AtMethod s') ∧ r = methodResolution env s name := by
  refine Ensures.and (Ensures.mono (keeps_resolveVariable env name mode s h.toInv) fun _ _ hs' =>
    ⟨hs'.1, h.ext hs'.1 hs'.2⟩) ?_
  rw [resolveVariable, methodResolution]
  split
  · split
    · exact Ensures.of_error
    · exact Ensures.of_pure rfl
  · refine Ensures.get_bind ?_
    cases hmap : s.localVarMap name with
    | cons var vars => exact h.resolveLocal_value hmap
    | nil =>
      dsimp only
      cases env.fieldMap name with
      | some ord => exact Ensures.of_pure rfl
      | none =>
        dsimp only
        split_ifs <;> first | exact Ensures.of_error | exact Ensures.of_pure rfl

end Names

/-! ## What is detected

The answer of `DetectTrivialMethod`, as a function of the tree and of what its names resolve to. -/

/-- `returnTriviality` without the state. -/
def returnTrivialityOf (env : MethodEnv) (s : TranslationState) : AstExpr → Triviality
  | .literal l => if l.isArray then .normalMethod else .literalReturn (createConstantNonArray l)
  | .varUse name =>
    match methodResolution env s name with
    | .local _ => if name = "self" ∨ name = "super" then .selfReturn else .normalMethod
    | .field ord => .getter ord
    | .global ord => .globalReturn ord
    | .falseTrueNil v => .literalReturn v
    | .upvalue _ => .normalMethod
  | _ => .normalMethod

/-- `setterTriviality` without the state. -/
def setterTrivialityOf (env : MethodEnv) (s : TranslationState) (meth : AstMethod)
    (t : Triviality) :
    Triviality :=
  match meth.params, setterStmt meth.body with
  | [param], some ([field], rhs) =>
    match methodResolution env s field, rhs with
    | .field ord, .varUse name => if name = param then .setter ord else t
    | _, _ => t
  | _, _ => t

/-- `bodyTriviality` without the state. -/
def bodyTrivialityOf (env : MethodEnv) (s : TranslationState) : List AstExpr → Triviality
  | [] => .selfReturn
  | [.ret val] => returnTrivialityOf env s val
  | _ => .normalMethod

/-- `detectTrivialMethod` without the state. -/
def trivialityOf (env : MethodEnv) (s : TranslationState) (meth : AstMethod) : Triviality :=
  setterTrivialityOf env s meth (bodyTrivialityOf env s meth.body)

section Detection

variable {env : MethodEnv} {s : TranslationState}

/-- What a returned expression is detected as. -/
theorem AtMethod.returnTriviality_ensures (h : AtMethod s) (e : AstExpr) :
    Ensures (returnTriviality env 0 0 e) s fun t s' =>
      (Ext {0} s s' ∧ AtMethod s') ∧ t = returnTrivialityOf env s e := by
  cases e with
  | varUse name =>
    refine h.resolveVariable_ensures.bind ?_
    rintro r s' ⟨hs', rfl⟩
    rw [returnTrivialityOf]
    cases methodResolution env s name with
    | _ => exact Ensures.of_pure ⟨hs', rfl⟩
  | _ => exact Ensures.of_pure ⟨⟨Ext.refl _ s, h⟩, rfl⟩

/-- What a body is detected as, setters apart. -/
theorem AtMethod.bodyTriviality_ensures (h : AtMethod s) (body : List AstExpr) :
    Ensures (bodyTriviality env 0 0 body) s fun t s' =>
      (Ext {0} s s' ∧ AtMethod s') ∧ t = bodyTrivialityOf env s body := by
  rw [bodyTriviality.eq_def]
  split
  · exact Ensures.of_pure ⟨⟨Ext.refl _ s, h⟩, rfl⟩
  · exact h.returnTriviality_ensures _
  · exact Ensures.of_pure ⟨⟨Ext.refl _ s, h⟩, by grind [bodyTrivialityOf]⟩

/-- The answer is the same later on. -/
theorem AtMethod.trivialityOf_ext (h : AtMethod s) {s' : TranslationState} (hext : Ext {0} s s')
    (meth : AstMethod) : trivialityOf env s' meth = trivialityOf env s meth := by
  have hres : methodResolution env s' = methodResolution env s :=
    funext fun _ => h.methodResolution_ext hext
  have hret : returnTrivialityOf env s' = returnTrivialityOf env s := by
    funext e
    cases e <;> simp only [returnTrivialityOf, hres]
  have hbody : bodyTrivialityOf env s' = bodyTrivialityOf env s := by
    funext body
    rw [bodyTrivialityOf.eq_def, bodyTrivialityOf.eq_def, hret]
  rw [trivialityOf, trivialityOf, setterTrivialityOf, setterTrivialityOf, hres, hbody]

/-- **What `detectTrivialMethod` answers.** -/
theorem AtMethod.detectTrivialMethod_ensures (h : AtMethod s) (meth : AstMethod) :
    Ensures (detectTrivialMethod env 0 0 meth) s fun t s' =>
      (Ext {0} s s' ∧ AtMethod s') ∧ t = trivialityOf env s meth := by
  refine (h.bodyTriviality_ensures meth.body).bind ?_
  rintro t s₁ ⟨hs₁, rfl⟩
  rw [trivialityOf, setterTriviality]
  split
  · refine hs₁.2.resolveVariable_ensures.bind ?_
    rintro r s₂ ⟨hs₂, rfl⟩
    rw [h.methodResolution_ext hs₁.1]
    split <;> exact Ensures.of_pure ⟨⟨hs₁.1.trans hs₂.1, hs₂.2⟩, by grind [setterTrivialityOf]⟩
  · exact Ensures.of_pure ⟨hs₁, by grind [setterTrivialityOf]⟩

end Detection

/-! ## What is compiled

A short cut keeps the whole ordinal of its field or global, and a bytecode 16 bits of it. -/

/-- The ordinal that a short cut keeps. -/
def Triviality.ordinal : Triviality → Option ℕ
  | .globalReturn ord | .getter ord | .setter ord => some ord
  | _ => none

/-- What a method does whose bytecode has the ordinal as an operand. -/
def Triviality.asOperand : Triviality → Triviality
  | .globalReturn ord => .globalReturn (safeIntegerCastU16 ord)
  | .getter ord => .getter (safeIntegerCastU16 ord)
  | .setter ord => .setter (safeIntegerCastU16 ord)
  | t => t

/-- An operand loses nothing of an ordinal of 16 bits. -/
theorem safeIntegerCastU16_eq_iff {ord : ℕ} : safeIntegerCastU16 ord = ord ↔ ord < 65536 :=
  Nat.mod_eq_iff_lt (by decide)

/-- The operand is the ordinal itself exactly below 2^16. -/
theorem Triviality.asOperand_eq_iff {t : Triviality} :
    t.asOperand = t ↔ ∀ ord, t.ordinal = some ord → ord < 65536 := by
  cases t <;> simp [asOperand, ordinal, safeIntegerCastU16_eq_iff]

/-- The bytecode for the value of a trivial method that returns one. -/
def valueInstr (output : ℕ) : Triviality → Option Instr
  | .literalReturn v => some (.mov (.cst v) output)
  | .globalReturn name => some (.somGlobalGet name output)
  | .selfReturn => some (.mov (.local 0) output)
  | .getter field => some (.somGetField field output)
  | _ => none

/-- A return of the slot `start`. -/
def returnCode (close : Bool) (start : ℕ) : Code := closeBefore close 0 (.op (.ret start))

/-- **The code of a trivial method**, whose ordinal is that of its operand; the setter puts the slot
`param`. -/
inductive TrivialCode (param : ℕ) : Triviality → Code → Prop
  | empty : TrivialCode param .selfReturn (.op (.ret 0))
  | value {t : Triviality} {i : Instr} (output : ℕ) (close : Bool)
      (h : valueInstr output t = some i) :
      TrivialCode param t (.seq (.op i) (returnCode close output))
  | setter (field : ℕ) (close : Bool) :
      TrivialCode param (.setter field)
        (.seq (.seq (.op (.somPutField field (.local param))) .empty) (returnCode close 0))
  | setterSelf (field output : ℕ) (close : Bool) :
      TrivialCode param (.setter field)
        (.seq (.seq (.op (.somPutField field (.local param))) .empty)
          (.seq (.op (.mov (.local 0) output)) (returnCode close output)))

section Code

variable {env : MethodEnv} {s : TranslationState} {fuel free : ℕ}

/-- The use of a name is the one instruction that reads it. -/
theorem AtMethod.compileVarUse_ensures (h : AtMethod s) (name : String) (destSlot : ℕ) :
    Ensures (compileVarUse env 0 0 name destSlot) s fun code s' =>
      (Ext {0} s s' ∧ AtMethod s') ∧
        code = .op (emitVarUse destSlot (methodResolution env s name)) := by
  refine (keeps_updateTopSlot 0 destSlot s h.toInv).bind fun _ s₁ h₁ => ?_
  have h₁' := h.ext h₁.1 h₁.2
  refine h₁'.resolveVariable_ensures.bind ?_
  rintro r s₂ ⟨h₂, rfl⟩
  rw [h.methodResolution_ext h₁.1]
  exact Ensures.of_pure ⟨⟨h₁.1.trans h₂.1, h₂.2⟩, rfl⟩

/-- Returning a name reads it and returns. -/
theorem AtMethod.compileReturn_ensures (h : AtMethod s) (name : String) :
    Ensures (compileReturn env 0 0 fuel (.varUse name) free) s fun code _ =>
      ∃ close, code = .seq (.op (emitVarUse free (methodResolution env s name)))
        (returnCode close free) := by
  cases fuel with rw [compileReturn]
  | zero => exact Ensures.of_error
  | succ fuel =>
    cases fuel with rw [compileExpression]
    | zero => exact Ensures.of_error
    | succ fuel =>
      refine (h.compileVarUse_ensures name free).bind ?_
      rintro _ s₁ ⟨-, rfl⟩
      exact Ensures.getBCtx_bind (Ensures.of_pure ⟨_, rfl⟩)

/-- Returning a literal moves the constant and returns. -/
theorem compileReturn_literal_ensures (l : AstLiteral) (hl : l.isArray = false) :
    Ensures (compileReturn env 0 0 fuel (.literal l) free) s fun code _ =>
      ∃ close, code = .seq (.op (.mov (.cst (createConstantNonArray l)) free))
        (returnCode close free) := by
  cases fuel with rw [compileReturn]
  | zero => exact Ensures.of_error
  | succ fuel =>
    cases fuel with rw [compileExpression]
    | zero => exact Ensures.of_error
    | succ fuel =>
      refine Ensures.bind (Q := fun code _ =>
        code = .op (.mov (.cst (createConstantNonArray l)) free)) ?_ ?_
      · refine Ensures.modify_bind ?_
        cases l with
        | array => cases hl
        | _ => exact Ensures.of_pure rfl
      · rintro _ s₁ rfl
        exact Ensures.getBCtx_bind (Ensures.of_pure ⟨_, rfl⟩)

/-- An assignment of a name that resolves to a local to one that resolves to a field. -/
theorem AtMethod.compileStatement_ensures (h : AtMethod s) (fuel free : ℕ) {field name : String}
    {ord slot : ℕ}
    (hfield : methodResolution env s field = .field ord)
    (hname : methodResolution env s name = .local slot) :
    Ensures (compileStatement env 0 0 fuel (.assignation [field] (.varUse name)) free) s
      fun code s' => (Ext {0} s s' ∧ AtMethod s') ∧
        code = .seq (.op (.somPutField (safeIntegerCastU16 ord) (.local slot))) .empty := by
  cases fuel with simp only [compileStatement]
  | zero => exact Ensures.of_error
  | succ fuel =>
    cases fuel with rw [compileTopLevelAssignation]
    | zero => exact Ensures.of_error
    | succ fuel =>
      have hdetect : Ensures (detectTrivialLocalVarOrConstantUse env 0 0 (.varUse name)) s
          fun r s' => (Ext {0} s s' ∧ AtMethod s') ∧ r = some (.local slot) := by
        refine (h.resolveVariable_ensures.bind ?_ : Ensures (isResolvedTo _ env 0 0 name) s
          fun r s' => (Ext {0} s s' ∧ AtMethod s') ∧ r = true).bind ?_
        · rintro _ s₁ ⟨hs₁, rfl⟩
          exact Ensures.of_pure ⟨hs₁, by rw [hname]; rfl⟩
        · rintro _ s₁ ⟨hs₁, rfl⟩
          refine hs₁.2.resolveVariable_ensures.bind ?_
          rintro _ s₂ ⟨hs₂, rfl⟩
          rw [h.methodResolution_ext hs₁.1, hname]
          exact Ensures.of_pure ⟨⟨hs₁.1.trans hs₂.1, hs₂.2⟩, rfl⟩
      refine hdetect.bind ?_
      rintro _ s₁ ⟨hs₁, rfl⟩
      refine hs₁.2.resolveVariable_ensures.bind ?_
      rintro _ s₂ ⟨hs₂, rfl⟩
      rw [h.methodResolution_ext hs₁.1, hfield]
      exact Ensures.of_pure ⟨⟨hs₁.1.trans hs₂.1, hs₂.2⟩, rfl⟩

/-- An empty body returns `self`. -/
theorem compileStatements_nil_ensures :
    Ensures (compileStatements env 0 0 fuel [] free) s fun code _ =>
      ∃ close, code = returnCode close 0 := by
  cases fuel with rw [compileStatements]
  | zero => exact Ensures.of_error
  | succ fuel => exact Ensures.getBCtx_bind (Ensures.of_pure ⟨_, rfl⟩)

/-- Nothing behind a return is compiled. -/
theorem AtMethod.compileStatements_ret (h : AtMethod s) (val : AstExpr) (rest : List AstExpr)
    {Q : Code → TranslationState → Prop}
    (hQ : ∀ fuel, Ensures (compileReturn env 0 0 fuel val free) s Q) :
    Ensures (compileStatements env 0 0 fuel (.ret val :: rest) free) s Q := by
  cases fuel with rw [compileStatements]
  | zero => exact Ensures.of_error
  | succ fuel =>
    refine Ensures.getBCtx_bind ?_
    simp only [isRet, BlockTranslationContext.isInlinedIntoTopLevelMethod, h.isTop]
    exact hQ fuel

/-- A statement that is no return is compiled before the rest. -/
theorem AtMethod.compileStatements_cons (h : AtMethod s) (expr : AstExpr) (rest : List AstExpr)
    (hexpr : isRet expr = none) {Q : Code → TranslationState → Prop}
    (hQ : ∀ fuel, Ensures (do
      let code ← compileStatement env 0 0 fuel expr free
      return .seq code (← compileStatements env 0 0 fuel rest free)) s Q) :
    Ensures (compileStatements env 0 0 fuel (expr :: rest) free) s Q := by
  cases fuel with rw [compileStatements]
  | zero => exact Ensures.of_error
  | succ fuel =>
    refine Ensures.getBCtx_bind ?_
    simp only [hexpr, BlockTranslationContext.isInlinedIntoTopLevelMethod, h.isTop, h.owner]
    rw [if_neg (by simp)]
    exact hQ fuel

/-- The code of a trivial return. -/
theorem AtMethod.compileReturn_trivial (h : AtMethod s) (val : AstExpr)
    (ht : returnTrivialityOf env s val ≠ .normalMethod) (param : ℕ) :
    Ensures (compileReturn env 0 0 fuel val free) s fun code _ =>
      TrivialCode param (returnTrivialityOf env s val).asOperand code := by
  cases val with
  | literal l =>
    rw [returnTrivialityOf] at ht ⊢
    split at ht
    · exact absurd rfl ht
    next hl =>
      rw [if_neg hl]
      refine (compileReturn_literal_ensures l (by simpa using hl)).mono ?_
      rintro _ s' ⟨close, rfl⟩
      exact .value free close rfl
  | varUse name =>
    refine (h.compileReturn_ensures name).mono ?_
    rintro _ s' ⟨close, rfl⟩
    rw [returnTrivialityOf] at ht ⊢
    refine .value free close ?_
    cases hr : methodResolution env s name with
    | «local» slot =>
      simp only [hr] at ht ⊢
      split at ht
      next hself =>
        rw [methodResolution, if_pos hself] at hr
        cases hr
        rw [if_pos hself]
        rfl
      · exact absurd rfl ht
    | upvalue ord => simp [hr] at ht
    | _ => rfl
  | _ => exact absurd rfl ht

/-- A method that assigns its parameter to a field, and then perhaps returns itself. -/
def SetterBody (field param : String) (body : List AstExpr) : Prop :=
  body = [.assignation [field] (.varUse param)] ∨
    ∃ name, (name = "self" ∨ name = "super") ∧
      body = [.assignation [field] (.varUse param), .ret (.varUse name)]

/-- A method with one parameter that does so. -/
def IsSetter (meth : AstMethod) : Prop :=
  ∃ param field, meth.params = [param] ∧ SetterBody field param meth.body

/-- The bodies that `DetectTrivialMethod` takes for setters. -/
theorem setterStmt_eq_some {field name : String} {body : List AstExpr}
    (h : setterStmt body = some ([field], .varUse name)) : SetterBody field name body := by
  rw [setterStmt.eq_def] at h
  split at h
  · cases h
    exact .inl rfl
  next self =>
    split_ifs at h with hself
    cases h
    exact .inr ⟨self, hself, rfl⟩
  · cases h

/-- A method is a setter only by the shape of its body. -/
theorem setterTrivialityOf_cases (meth : AstMethod) (t : Triviality) :
    setterTrivialityOf env s meth t = t ∨
    ∃ param field ord, meth.params = [param] ∧ SetterBody field param meth.body ∧
      methodResolution env s field = .field ord ∧ setterTrivialityOf env s meth t =
        .setter ord := by
  rw [setterTrivialityOf]
  split
  next param field rhs hparams hstmt =>
    split
    next ord name hfield =>
      split_ifs with hname
      · subst hname
        exact .inr ⟨name, field, ord, hparams, setterStmt_eq_some hstmt, hfield, rfl⟩
      · exact .inl rfl
    · exact .inl rfl
  · exact .inl rfl

/-- **The trivial methods**: empty, a return, or a setter. -/
theorem trivialityOf_cases {meth : AstMethod} (ht : trivialityOf env s meth ≠ .normalMethod) :
    (meth.body = [] ∧ trivialityOf env s meth = .selfReturn) ∨
    (∃ val, meth.body = [.ret val] ∧ trivialityOf env s meth = returnTrivialityOf env s val) ∨
    ∃ param field ord, meth.params = [param] ∧ SetterBody field param meth.body ∧
      methodResolution env s field = .field ord ∧ trivialityOf env s meth = .setter ord := by
  rw [trivialityOf] at ht ⊢
  rcases setterTrivialityOf_cases meth (bodyTrivialityOf env s meth.body) with hbody | hsetter
  · rw [hbody] at ht ⊢
    rw [bodyTrivialityOf.eq_def] at ht ⊢
    split at ht
    next hnil => exact .inl ⟨hnil, rfl⟩
    next val hval => exact .inr (.inl ⟨val, hval, rfl⟩)
    · exact absurd rfl ht
  · exact .inr (.inr hsetter)

theorem returnTrivialityOf_ne_setter (val : AstExpr) (ord : ℕ) :
    returnTrivialityOf env s val ≠ .setter ord := by
  rw [returnTrivialityOf.eq_def]
  split
  · split_ifs <;> simp
  · split <;> (try split_ifs) <;> simp
  · simp

/-- A setter's body begins with the assignment. -/
theorem SetterBody.cons {field param : String} {body : List AstExpr}
    (h : SetterBody field param body) :
    ∃ rest, body = .assignation [field] (.varUse param) :: rest := by
  rcases h with rfl | ⟨name, -, rfl⟩ <;> exact ⟨_, rfl⟩

/-- Setters are recognised by their tree. -/
theorem trivialityOf_setter {meth : AstMethod} (ht : trivialityOf env s meth ≠ .normalMethod) :
    (∃ ord, trivialityOf env s meth = .setter ord) ↔
      IsSetter meth := by
  constructor
  · rintro ⟨ord, hord⟩
    rcases trivialityOf_cases ht with ⟨-, h⟩ | ⟨val, -, h⟩ | ⟨param, field, ord, hparams, hbody, -⟩
    · cases h.symm.trans hord
    · exact absurd (h.symm.trans hord) (returnTrivialityOf_ne_setter val ord)
    · exact ⟨param, field, hparams, hbody⟩
  · rintro ⟨param, field, -, hbody⟩
    obtain ⟨rest, hcons⟩ := hbody.cons
    rcases trivialityOf_cases ht with ⟨h, -⟩ | ⟨val, h, -⟩ | ⟨_, _, ord, -, -, -, h⟩
    · cases hcons.symm.trans h
    · cases hcons.symm.trans h
    · exact ⟨ord, h⟩

/-- The variable whose ordinal the short cut of a method keeps: the one it returns or sets. -/
def Accesses (meth : AstMethod) (name : String) : Prop :=
  meth.body = [.ret (.varUse name)] ∨
    ∃ param, meth.params = [param] ∧ SetterBody name param meth.body

theorem SetterBody.field_eq {field field' param param' : String} {body : List AstExpr}
    (h : SetterBody field param body) (h' : SetterBody field' param' body) : field = field' := by
  obtain ⟨rest, hbody⟩ := h.cons
  obtain ⟨rest', hbody'⟩ := h'.cons
  cases hbody.symm.trans hbody'
  rfl

theorem Accesses.of_setterBody {meth : AstMethod} {field param name : String}
    (h : SetterBody field param meth.body) (hname : Accesses meth name) : name = field := by
  rcases hname with hret | ⟨_, -, hname⟩
  · obtain ⟨rest, hbody⟩ := h.cons
    cases hbody.symm.trans hret
  · exact hname.field_eq h

/-- A method that returns a variable keeps the ordinal of a field or a global. -/
theorem returnTrivialityOf_ordinal (name : String) :
    (returnTrivialityOf env s (.varUse name)).ordinal = (methodResolution env s name).outer := by
  rw [returnTrivialityOf]
  cases methodResolution env s name with
  | «local» slot =>
    dsimp only
    split <;> rfl
  | _ => rfl

/-- **The ordinal that a trivial method keeps** is that of the variable it accesses. -/
theorem trivialityOf_ordinal {meth : AstMethod} (ht : trivialityOf env s meth ≠ .normalMethod)
    (ord : ℕ) :
    (trivialityOf env s meth).ordinal = some ord ↔
      ∃ name, Accesses meth name ∧ (methodResolution env s name).outer = some ord := by
  rcases trivialityOf_cases ht with ⟨hbody, htriv⟩ | ⟨val, hbody, htriv⟩ |
    ⟨param, field, ord', hparams, hbody, hfield, htriv⟩
  · rw [htriv]
    refine ⟨nofun, ?_⟩
    rintro ⟨name, hret | ⟨_, -, hset⟩, -⟩
    · cases hbody.symm.trans hret
    · obtain ⟨rest, hcons⟩ := hset.cons
      cases hbody.symm.trans hcons
  · rw [htriv]
    constructor
    · intro hord
      cases val with
      | varUse name =>
        exact ⟨name, .inl hbody, (returnTrivialityOf_ordinal name).symm.trans hord⟩
      | literal l =>
        rw [returnTrivialityOf] at hord
        split_ifs at hord <;> cases hord
      | _ => cases hord
    · rintro ⟨name, hret | ⟨_, -, hset⟩, hord⟩
      · cases hbody.symm.trans hret
        exact (returnTrivialityOf_ordinal name).trans hord
      · obtain ⟨rest, hcons⟩ := hset.cons
        cases hbody.symm.trans hcons
  · rw [htriv]
    constructor
    · intro hord
      exact ⟨field, .inr ⟨param, hparams, hbody⟩, by rw [hfield]; exact hord⟩
    · rintro ⟨name, hname, hord⟩
      rw [hname.of_setterBody hbody, hfield] at hord
      exact hord

/-- **A trivial method compiles to trivial code.** -/
theorem AtMethod.compileBlockBody_trivial (h : AtMethod s) (meth : AstMethod)
    (ht : trivialityOf env s meth ≠ .normalMethod) {slot : ℕ}
    (hslot : ∀ param, meth.params = [param] → methodResolution env s param = .local slot) :
    Ensures (compileBlockBody env 0 0 fuel meth.body free) s fun code _ =>
      TrivialCode slot (trivialityOf env s meth).asOperand code := by
  cases fuel with rw [compileBlockBody]
  | zero => exact Ensures.of_error
  | succ fuel =>
    refine Ensures.getBCtx_bind ?_
    simp only [BlockTranslationContext.isInlinedIntoTopLevelMethod, h.isTop, h.owner]
    rcases trivialityOf_cases ht with ⟨hbody, htriv⟩ | ⟨val, hbody, htriv⟩ |
      ⟨param, field, ord, hparams, hbody, hfield, htriv⟩
    · rw [hbody, htriv]
      exact Ensures.of_pure .empty
    · rw [htriv] at ht
      rw [hbody, htriv]
      exact h.compileStatements_ret val [] fun fuel => h.compileReturn_trivial val ht slot
    · rw [htriv]
      have hstmt (fuel : ℕ) := h.compileStatement_ensures fuel free hfield (hslot param hparams)
      rcases hbody with hbody | ⟨name, hname, hbody⟩
      · rw [hbody]
        refine h.compileStatements_cons _ _ rfl fun fuel => (hstmt fuel).bind ?_
        rintro _ s₁ ⟨hs₁, rfl⟩
        refine compileStatements_nil_ensures.bind ?_
        rintro _ s₂ ⟨close, rfl⟩
        exact Ensures.of_pure (.setter _ close)
      · rw [hbody]
        refine h.compileStatements_cons _ _ rfl fun fuel => (hstmt fuel).bind ?_
        rintro _ s₁ ⟨hs₁, rfl⟩
        refine (hs₁.2.compileStatements_ret _ [] fun fuel =>
          hs₁.2.compileReturn_ensures name).bind ?_
        rintro _ s₂ ⟨close, rfl⟩
        rw [methodResolution, if_pos hname]
        exact Ensures.of_pure (.setterSelf _ free close)

end Code

/-! ## Methods

At the top of a method the parameter is a local, and every other name is resolved as it is outside.
-/

/-- The slot a method reads for the name of its only parameter. -/
def ParamSlot (param : String) (locals : List String) (slot : ℕ) : Prop :=
  if param = "self" ∨ param = "super" then slot = 0
  else if param ∈ locals then 2 ≤ slot ∧ slot < 2 + locals.length
  else slot = 1

/-- The code that clears the locals of a method. -/
def fillLocals (meth : AstMethod) : Code :=
  if meth.locals = [] then .empty
  else .op (.rangeFillNils (1 + meth.params.length) meth.locals.length)

section Methods

variable {env : MethodEnv} {s₀ s : TranslationState}

/-- The parameter's slot is in the frame. -/
theorem ParamSlot.lt {param : String} {locals : List String} {slot : ℕ}
    (h : ParamSlot param locals slot) : slot < 1 + [param].length + locals.length := by
  rw [ParamSlot] at h
  split_ifs at h <;> simp <;> omega

/-- The parameter is resolved to its slot. -/
theorem methodResolution_param (env : MethodEnv) {param : String} {locals : List String}
    (h : Installed 0 (param :: locals) 1 s₀ s) (hvars : s₀.vars.size = 0)
    (hmap : s₀.localVarMap param = []) :
    ∃ slot, methodResolution env s param = .local slot ∧ ParamSlot param locals slot := by
  by_cases hself : param = "self" ∨ param = "super"
  · exact ⟨0, by rw [methodResolution, if_pos hself], by rw [ParamSlot, if_pos hself]⟩
  have hlist := h.map param
  rw [hmap, hvars, declared, declared_append, List.append_nil, List.filter_append,
    List.map_append] at hlist
  have hcount := count_declared param locals 1
  have hsize := h.vars_size
  have hnew (v : ℕ) (hv : v < 1 + locals.length) : (s.vars.get v).slotOrd = 1 + v := by
    have hv' : v < s.vars.size := by
      rw [hsize, hvars, List.length_cons]
      omega
    have := (h.var_new v hv' (by omega)).2
    omega
  simp only [ParamSlot, if_neg hself]
  cases hf : ((declared 1 locals []).filter fun x => x.1 = param).map Prod.snd with
  | nil =>
    rw [hf] at hlist hcount
    have hnot : param ∉ locals := List.count_eq_zero.mp hcount.symm
    refine ⟨1, ?_, by rw [if_neg hnot]⟩
    simp only [methodResolution, if_neg hself, hlist]
    simpa using hnew 0 (by omega)
  | cons v vs =>
    rw [hf] at hlist hcount
    have hmem : param ∈ locals := List.count_pos_iff.mp (by rw [← hcount]; simp)
    have hv : v ∈ ((declared 1 locals []).filter fun x => x.1 = param).map Prod.snd := by
      rw [hf]
      exact List.mem_cons_self
    obtain ⟨x, hx, rfl⟩ := List.mem_map.mp hv
    rcases mem_declared (List.mem_filter.mp hx).1 with ⟨h₁, h₂⟩ | hnil
    · refine ⟨1 + x.2, ?_, by rw [if_pos hmem]; omega⟩
      simp only [methodResolution, if_neg hself, hlist, List.cons_append]
      rw [hnew x.2 h₂]
    · cases hnil

/-- **Names that a method does not declare** are fields, constants or globals. -/
theorem methodResolution_outer (env : MethodEnv) {meth : AstMethod}
    (h : Installed 0 (meth.params ++ meth.locals) 1 s₀ s) (hmap : ∀ name, s₀.localVarMap name = [])
    (name : String) :
    (methodResolution env s name).outer = outerOrdinal env meth name := by
  rw [methodResolution, outerOrdinal]
  by_cases hself : name = "self" ∨ name = "super"
  · rw [if_pos hself, if_pos (by tauto)]
    rfl
  rw [if_neg hself]
  have hlist := h.map name
  rw [hmap, List.append_nil] at hlist
  have hcount := count_declared name (meth.params ++ meth.locals) s₀.vars.size
  rw [← hlist] at hcount
  cases hvars : s.localVarMap name with
  | nil =>
    rw [hvars] at hcount
    have hnot : name ∉ meth.params ++ meth.locals := List.count_eq_zero.mp hcount.symm
    have houter : ¬(name = "self" ∨ name = "super" ∨ name ∈ meth.params ++ meth.locals) := by
      tauto
    rw [if_neg houter]
    dsimp only
    cases env.fieldMap name with
    | some ord => rfl
    | none =>
      dsimp only
      split_ifs <;> first | rfl | tauto
  | cons var vars =>
    rw [hvars] at hcount
    have hmem : name ∈ meth.params ++ meth.locals :=
      List.count_pos_iff.mp (by rw [← hcount]; simp)
    have hinner : name = "self" ∨ name = "super" ∨ name ∈ meth.params ++ meth.locals :=
      .inr (.inr hmem)
    rw [if_pos hinner]
    rfl

/-- The locals are filled with `nil`. -/
theorem installLocalVariables_fill {bctx startSlot : ℕ} {params locals : List String} :
    Ensures (installLocalVariables bctx params locals startSlot) s fun r _ =>
      r.1 = if locals = [] then .empty
        else .op (.rangeFillNils (startSlot + params.length) locals.length) :=
  installNames_ensures.bind fun _ _ _ => installNames_ensures.bind fun _ _ _ => Ensures.of_pure rfl

/-- After the names are installed, the compiler is at the top of the method. -/
theorem atMethod {numFixedArguments free : ℕ} {names : List String}
    (h : Installed initialState.bctxs.size names 1 { initialState with
      bctxs := initialState.bctxs.push (realBCtx 0 none none)
      ctxs := initialState.ctxs.push ⟨0, none, numFixedArguments, .method, 0, .empty⟩ } s)
    (hfree : free = 1 + names.length) :
    AtMethod { s with ctxs := s.ctxs.modify 0 fun c => { c with historyTopSlot := free } } where
  toInv := inv_method h hfree
  owner := congrArg BlockTranslationContext.owningContext h.get_new
  lexical := congrArg BlockTranslationContext.lexicalParent h.get_new
  isTop := congrArg BlockTranslationContext.trueParent h.get_new

/-- The code of a method that is detected as trivial. -/
theorem compileMethodM_trivial (env : MethodEnv) (fuel : ℕ) (meth : AstMethod) :
    Ensures (compileMethodM env fuel meth) initialState fun t s => t ≠ .normalMethod →
      ∃ slot code, slot < 1 + meth.params.length + meth.locals.length ∧
        (∀ param, meth.params = [param] → ParamSlot param meth.locals slot) ∧
        ((∃ ord, t = .setter ord) ↔ IsSetter meth) ∧
        (∀ ord, t.ordinal = some ord ↔
          ∃ name, Accesses meth name ∧ outerOrdinal env meth name = some ord) ∧
        TrivialCode slot t.asOperand code ∧
        (s.ctxs.get 0).bytecode = .seq (fillLocals meth) code := by
  refine Ensures.newMethodBCtx_bind
    ((installLocalVariables_ensures.and installLocalVariables_fill).bind ?_)
  rintro ⟨fill, free⟩ s ⟨⟨h, hfree⟩, hfill⟩
  have hat := atMethod h hfree
  refine Ensures.modify_bind ((hat.detectTrivialMethod_ensures meth).bind ?_)
  rintro _ s₁ ⟨hs₁, rfl⟩
  rw [← hat.trivialityOf_ext hs₁.1]
  have houter (name : String) :
      (methodResolution env s₁ name).outer = outerOrdinal env meth name := by
    rw [hat.methodResolution_ext hs₁.1]
    exact methodResolution_outer env h (fun _ => rfl) name
  obtain ⟨slot, hlt, hslot⟩ : ∃ slot, slot < 1 + meth.params.length + meth.locals.length ∧
      ∀ param, meth.params = [param] →
        methodResolution env s₁ param = .local slot ∧ ParamSlot param meth.locals slot := by
    by_cases hparams : ∃ param, meth.params = [param]
    · obtain ⟨param, hparams⟩ := hparams
      rw [hparams] at h ⊢
      obtain ⟨slot, hres, hslot⟩ := methodResolution_param env h rfl rfl
      refine ⟨slot, hslot.lt, fun param' hparam' => ?_⟩
      cases hparam'
      exact ⟨(hat.methodResolution_ext hs₁.1).trans hres, hslot⟩
    · exact ⟨0, by omega, fun param hparam => absurd ⟨param, hparam⟩ hparams⟩
  have hcode : Ensures (compileBlockBody env 0 0 fuel meth.body free) s₁ fun code s₂ =>
      (Ext {0} s₁ s₂ ∧ Inv {0} 0 0 s₂) ∧ (trivialityOf env s₁ meth ≠ .normalMethod →
        TrivialCode slot (trivialityOf env s₁ meth).asOperand code) := by
    refine ((allKeep env fuel).blockBody meth.body free s₁ hs₁.2.toInv).and ?_
    by_cases ht : trivialityOf env s₁ meth = .normalMethod
    · exact fun _ _ _ hne => absurd ht hne
    · exact (hs₁.2.compileBlockBody_trivial meth ht fun param hparam =>
        (hslot param hparam).1).mono fun _ _ h _ => h
  refine hcode.bind fun code s₂ hs₂ => uninstallNames_ensures.bind fun _ s₃ _ =>
    Ensures.modify_bind (Ensures.of_pure fun ht => ?_)
  refine ⟨slot, code, hlt, fun param hparam => (hslot param hparam).2, trivialityOf_setter ht,
    fun ord => ?_, hs₂.2 ht, ?_⟩
  · simp only [trivialityOf_ordinal ht, houter]
  simp only [Arena.get_modify_self]
  rw [fillLocals, ← hfill]

/-- The last pass leaves the code of a trivial method alone. -/
theorem TrivialCode.replaceImmutableGets_eq {slot : ℕ} {t : Triviality} {code : Code}
    (h : TrivialCode slot t code) (isImmutable : ℕ → Bool) :
    replaceImmutableGets isImmutable code = code := by
  have hreturn (close : Bool) (start : ℕ) :
      replaceImmutableGets isImmutable (returnCode close start) = returnCode close start := by
    cases close <;> rfl
  cases h with
  | empty => rfl
  | @value _ i output close hi =>
    rw [replaceImmutableGets, hreturn]
    cases t <;> cases hi <;> rfl
  | setter field close => simp only [replaceImmutableGets, hreturn]
  | setterSelf field output close => simp only [replaceImmutableGets, hreturn]

/-- **The code of a trivial method**, as it runs. -/
theorem compileMethod_trivial {fuel : ℕ} {meth : AstMethod} {blocks : Arena UnlinkedCodeBlock}
    (h : compileMethod env fuel meth = .ok (blocks, s))
    (ht : (blocks.get 0).trivialFn ≠ .normalMethod) :
    ∃ slot code, slot < 1 + meth.params.length + meth.locals.length ∧
      (∀ param, meth.params = [param] → ParamSlot param meth.locals slot) ∧
      ((∃ ord, (blocks.get 0).trivialFn = .setter ord) ↔ IsSetter meth) ∧
      (∀ ord, (blocks.get 0).trivialFn.ordinal = some ord ↔
        ∃ name, Accesses meth name ∧ outerOrdinal env meth name = some ord) ∧
      TrivialCode slot (blocks.get 0).trivialFn.asOperand code ∧
      (blocks.get 0).bytecode = .seq (fillLocals meth) code := by
  obtain ⟨t, rfl, htrivial⟩ := compileMethod_of_ensures (compileMethodM_trivial env fuel meth) h
  obtain ⟨slot, code, hlt, hslot, hsetter, hord, hcode, hbytecode⟩ := htrivial ht
  refine ⟨slot, code, hlt, hslot, hsetter, hord, hcode, ?_⟩
  have hfill (isImmutable : ℕ → Bool) :
      replaceImmutableGets isImmutable (fillLocals meth) = fillLocals meth := by
    rw [fillLocals]
    split_ifs <;> rfl
  simp only [finishCodeBlock, hbytecode, replaceImmutableGets, hcode.replaceImmutableGets_eq, hfill]

end Methods

end Dsom
