import Dsom.Compiler.Install

/-!
# Compiler/Upvalues — closure conversion

Every compile function keeps the scopes well-formed, by induction on the fuel.  So the chain of
upvalue metadata that starts at a use ends at the slot of the innermost declaration of the name.
-/

namespace Dsom

/-! ## The compiler keeps the scopes

One lemma for each function of the compiler, then an induction on the fuel. -/

section Leaves

variable {E : Set ℕ} {ctx bctx : ℕ} (env : MethodEnv)

theorem keeps_isResolvedTo (p : VarResolveResult → Bool) (name : String) :
    Keeps E ctx bctx (isResolvedTo p env ctx bctx name) :=
  (keeps_resolveVariable env name .dryRun).bind fun _ => .pure _

theorem keeps_compileAstLiteral (node : AstLiteral) (destSlot : ℕ) :
    Keeps E ctx bctx (compileAstLiteral ctx node destSlot) := by
  refine (keeps_updateTopSlot ctx destSlot).bind fun _ => ?_
  cases node <;> exact .pure _

theorem keeps_compileVarUse (name : String) (destSlot : ℕ) :
    Keeps E ctx bctx (compileVarUse env ctx bctx name destSlot) :=
  (keeps_updateTopSlot ctx destSlot).bind fun _ =>
    (keeps_resolveVariable env name .forRead).bind fun _ => .pure _

theorem keeps_detectTrivialLocalVarUse (e : AstExpr) :
    Keeps E ctx bctx (detectTrivialLocalVarUse env ctx bctx e) := by
  rw [detectTrivialLocalVarUse.eq_def]
  split
  · refine (keeps_isResolvedTo env _ _).bind fun _ => ?_
    split
    · refine (keeps_resolveVariable env _ _).bind fun _ => ?_
      split <;> exact .pure _
    · exact .pure _
  · exact .pure _

theorem keeps_detectTrivialLocalVarOrConstantUse (e : AstExpr) :
    Keeps E ctx bctx (detectTrivialLocalVarOrConstantUse env ctx bctx e) := by
  rw [detectTrivialLocalVarOrConstantUse.eq_def]
  split
  · exact .pure _
  · refine (keeps_isResolvedTo env _ _).bind fun _ => ?_
    split
    · refine (keeps_resolveVariable env _ _).bind fun _ => ?_
      split <;> exact .pure _
    · exact .pure _
  · exact .pure _

theorem keeps_detectTrivialOperand (mayBeConstant : Bool) (e : AstExpr) :
    Keeps E ctx bctx (detectTrivialOperand env ctx bctx mayBeConstant e) := by
  rw [detectTrivialOperand]
  split
  · exact keeps_detectTrivialLocalVarOrConstantUse env e
  · exact (keeps_detectTrivialLocalVarUse env e).bind fun _ => .pure _

theorem keeps_emitAssignments (valToPut : Operand) : ∀ lhs : List String,
    Keeps E ctx bctx (emitAssignments env ctx bctx valToPut lhs)
  | [] => .pure _
  | _ :: lhs => (keeps_resolveVariable env _ _).bind fun _ =>
      (keeps_emitAssignments valToPut lhs).bind fun _ => .pure _

theorem keeps_findLocalLhs : ∀ lhs : List String, Keeps E ctx bctx (findLocalLhs env ctx bctx lhs)
  | [] => .pure _
  | name :: lhs => by
    refine (keeps_isResolvedTo env _ _).bind fun _ => ?_
    split
    · exact .pure _
    · refine (keeps_findLocalLhs lhs).bind fun _ => ?_
      split <;> exact .pure _

theorem keeps_isFalseTrueNilUse (e : AstExpr) :
    Keeps E ctx bctx (isFalseTrueNilUse env ctx bctx e) := by
  cases e with
  | varUse name => exact keeps_isResolvedTo env _ _
  | _ => exact .pure _

theorem keeps_callShape (receiver : AstExpr) (selector : String) (args : List AstExpr) :
    Keeps E ctx bctx (callShape env ctx bctx receiver selector args) := by
  rw [callShape.eq_def]
  split
  · exact .pure _
  · split
    · exact .pure _
    · split
      · refine Keeps.bind ?_ fun _ => by split <;> exact .pure _
        rw [shouldSkipArithmetic]
        split_ifs
        · exact .pure _
        · exact .pure _
        · exact (keeps_isFalseTrueNilUse env _).bind fun _ =>
            (keeps_isFalseTrueNilUse env _).bind fun _ => .pure _
      · exact .pure _

theorem keeps_isDiscardable (e : AstExpr) : Keeps E ctx bctx (isDiscardable env ctx bctx e) := by
  cases e with
  | varUse name => exact (keeps_isResolvedTo env _ _).bind fun _ => .pure _
  | _ => exact .pure _

theorem keeps_propagateThrow (newBCtx : ℕ) : Keeps E ctx bctx (propagateThrow bctx newBCtx) := by
  refine (keeps_getBCtx newBCtx).bind fun b => ?_
  split
  · exact keeps_modifyBCtx _ raises_containsThrowableBlocks fun _ => rfl
  · exact .pure _

end Leaves

section Opening

variable {E : Set ℕ} {ctx bctx : ℕ} {s : TranslationState} {α : Type}
  {Q : α → TranslationState → Prop}

/-- An inlined block is added behind the blocks there are. -/
theorem Ensures.newInlinedBCtx_bind {frameStartSlot destSlot : ℕ} {mayDiscard : Bool}
    {f : ℕ → CompileM α}
    (h : Ensures (f s.bctxs.size) { s with
      bctxs := s.bctxs.push
        (inlinedBCtx bctx (s.bctxs.get bctx) frameStartSlot destSlot mayDiscard) } Q) :
    Ensures (newInlinedBCtx bctx frameStartSlot destSlot mayDiscard >>= f) s Q :=
  h

/-- A block with its own method is added behind both arenas. -/
theorem Ensures.newBlockBCtx_bind {numFixedArguments : ℕ} {f : ℕ × ℕ → CompileM α}
    (h : Ensures (f (s.ctxs.size, s.bctxs.size)) { s with
      bctxs := s.bctxs.push
        (realBCtx s.bctxs.size (some bctx) (some (s.bctxs.get bctx).owningContext))
      ctxs := s.ctxs.push ⟨0, some ctx, numFixedArguments, .method, s.bctxs.size, .empty⟩ } Q) :
    Ensures (newBlockBCtx ctx bctx numFixedArguments >>= f) s Q :=
  h

/-- An inlined block opens a scope of the current method. -/
theorem opens_inlined (hi : Inv E ctx bctx s) (frameStartSlot destSlot top : ℕ)
    (mayDiscard : Bool) :
    Opens s (inlinedBCtx bctx (s.bctxs.get bctx) frameStartSlot destSlot mayDiscard)
      (s.ctxs.modify ctx fun c => { c with historyTopSlot := max c.historyTopSlot top }) ctx where
  parent_lt := by
    rintro p ⟨⟩
    exact hi.here.bctx_lt
  scope := by
    rw [if_neg]
    · exact ⟨bctx, rfl, rfl, rfl⟩
    · exact ((hi.wf.scope _ hi.here.bctx_lt).2.1.trans_lt hi.here.bctx_lt).ne
  uvs := by simp [inlinedBCtx]
  declares := rfl
  ctxs_le := le_refl _
  le_ctxs := Nat.le_succ _
  ctx_old c _ := by
    refine ⟨s.ctxs.get_modify_congr _ (by exact fun _ => rfl) ctx c,
      s.ctxs.get_modify_congr _ (by exact fun _ => rfl) ctx c, ?_⟩
    by_cases hc : c = ctx
    · subst hc
      rw [Arena.get_modify_self]
      exact le_max_left _ _
    · simp [Arena.get_modify_of_ne _ hc]
  code_old c _ := ⟨s.ctxs.get_modify_congr TranslationContext.fnKind (by exact fun _ => rfl) ctx c,
    s.ctxs.get_modify_congr TranslationContext.bytecode (by exact fun _ => rfl) ctx c⟩
  ctx_new c hc hge := absurd hc hge.not_gt
  ctx_lt := hi.here.ctx_lt
  owner := by simpa [inlinedBCtx] using hi.here.owner

/-- A block with its own method opens a scope of that method. -/
theorem opens_block (hi : Inv E ctx bctx s) (numFixedArguments top : ℕ) :
    Opens s (realBCtx s.bctxs.size (some bctx) (some (s.bctxs.get bctx).owningContext))
      ((s.ctxs.push ⟨0, some ctx, numFixedArguments, .method, s.bctxs.size, .empty⟩).modify
        s.ctxs.size fun c => { c with historyTopSlot := top }) s.ctxs.size where
  parent_lt := by
    rintro p ⟨⟩
    exact hi.here.bctx_lt
  scope := by simp [realBCtx]
  uvs := by simp [realBCtx]
  declares := rfl
  ctxs_le := Nat.le_succ _
  le_ctxs := le_refl _
  ctx_old c hc := by
    rw [Arena.get_modify_of_ne _ hc.ne, s.ctxs.get_push_of_lt hc]
    exact ⟨rfl, rfl, le_refl _⟩
  code_old c hc := by
    rw [Arena.get_modify_of_ne _ hc.ne, s.ctxs.get_push_of_lt hc]
    exact ⟨rfl, rfl⟩
  ctx_new c hc hge := by
    obtain rfl : c = s.ctxs.size := by
      simp only [Arena.size_modify, Arena.size_push] at hc
      omega
    refine ⟨by simp, rfl, ?_, ?_⟩
    · simp only [Arena.get_modify_self, Arena.get_push_self]
      rintro p ⟨⟩
      exact hi.here.ctx_lt
    · simp [realBCtx, hi.here.owner]
  ctx_lt := Nat.lt_succ_self _
  owner := by simp [realBCtx]

/-- What encloses the current block encloses the inlined one. -/
theorem encloses_inlined {s' : TranslationState} {names : List String} {slot : ℕ}
    {C C' : Arena TranslationContext} {B : BlockTranslationContext} (hi : Inv E ctx bctx s)
    (h : Installed s.bctxs.size names slot { s with bctxs := s.bctxs.push B, ctxs := C } s')
    (ho : Opens s B C' ctx) (howner : B.owningContext = (s.bctxs.get bctx).owningContext) :
    Encloses E s.bctxs.size { s' with ctxs := C' } where
  owner := by
    simp only [h.get_new, howner]
    exact hi.encloses.owner
  lt b hE := (hi.encloses.lt b hE).trans_le (h.grows ho).bctxs_le
  parent b hE p hp := hi.encloses.parent b hE p
    (by rwa [(h.grows ho).trueParent (hi.encloses.lt b hE)] at hp)

/-- What encloses the current block encloses the new method's block. -/
theorem encloses_block {s' : TranslationState} {names : List String} {slot newCtx : ℕ}
    {C C' : Arena TranslationContext} {B : BlockTranslationContext} (hi : Inv E ctx bctx s)
    (h : Installed s.bctxs.size names slot { s with bctxs := s.bctxs.push B, ctxs := C } s')
    (ho : Opens s B C' newCtx) (howner : B.owningContext = s.bctxs.size)
    (hparent : B.trueParent = some (s.bctxs.get bctx).owningContext) :
    Encloses (insert s.bctxs.size E) s.bctxs.size { s' with ctxs := C' } where
  owner := by
    simp only [h.get_new, howner]
    exact .inl rfl
  lt b hE := by
    rcases hE with rfl | hE
    · rw [h.bctxs_size]
      exact Nat.lt_succ_self _
    · exact (hi.encloses.lt b hE).trans_le (h.grows ho).bctxs_le
  parent b hE p hp := by
    rcases hE with rfl | hE
    · simp only [h.get_new, hparent, Option.some.injEq] at hp
      exact .inr (hp ▸ hi.encloses.owner)
    · exact .inr (hi.encloses.parent b hE p
        (by rwa [(h.grows ho).trueParent (hi.encloses.lt b hE)] at hp))

/-- Setting the code of a method is quiet. -/
theorem quiet_setCode (s : TranslationState) (c : ℕ) {f : TranslationContext → TranslationContext}
    (hp : ∀ x, (f x).parent = x.parent) (hr : ∀ x, (f x).resultBCtx = x.resultBCtx)
    (ht : ∀ x, (f x).historyTopSlot = x.historyTopSlot) :
    Quiet s { s with ctxs := s.ctxs.modify c f } :=
  { Grows.refl s with
    ctx := fun d _ => ⟨s.ctxs.get_modify_congr _ hp c d, s.ctxs.get_modify_congr _ hr c d,
      (s.ctxs.get_modify_congr _ ht c d).ge⟩
    map := rfl
    vars_eq := rfl
    bctxs_eq := rfl
    ctxs_eq := rfl }

/-- The code of a block that is new. -/
theorem setCode_ensures {s₁ : TranslationState} {c : ℕ} (hext : Ext E s s₁)
    (hi : Inv E ctx bctx s₁) (hc : s.ctxs.size ≤ c) {f : TranslationContext → TranslationContext}
    (hp : ∀ x, (f x).parent = x.parent) (hr : ∀ x, (f x).resultBCtx = x.resultBCtx)
    (ht : ∀ x, (f x).historyTopSlot = x.historyTopSlot) :
    Ext E s { s₁ with ctxs := s₁.ctxs.modify c f } ∧
      Inv E ctx bctx { s₁ with ctxs := s₁.ctxs.modify c f } := by
  have hquiet := quiet_setCode s₁ c hp hr ht
  refine ⟨⟨⟨hext.toGrows.trans hquiet.toGrows, hext.calm, fun d hd => ?_⟩, hext.map⟩,
    hquiet.inv hi (fun _ _ _ hu => .inl hu) fun _ hr => .inl hr⟩
  have hne : d ≠ c := (hd.trans_le hc).ne
  simpa only [Arena.get_modify_of_ne _ hne] using hext.code d hd

end Opening

/-- All compile functions keep the scopes at this fuel. -/
structure AllKeep (env : MethodEnv) (fuel : ℕ) : Prop where
  expression : ∀ {E ctx bctx} node clobberSlot destSlot,
    Keeps E ctx bctx (compileExpression env ctx bctx fuel node clobberSlot destSlot)
  assignation : ∀ {E ctx bctx} lhs rhs clobberSlot destSlot,
    Keeps E ctx bctx (compileAssignation env ctx bctx fuel lhs rhs clobberSlot destSlot)
  topLevelAssignation : ∀ {E ctx bctx} lhs rhs clobberSlot,
    Keeps E ctx bctx (compileTopLevelAssignation env ctx bctx fuel lhs rhs clobberSlot)
  operands : ∀ {E ctx bctx} operands curClobberSlot,
    Keeps E ctx bctx (compileOperands env ctx bctx fuel operands curClobberSlot)
  arguments : ∀ {E ctx bctx} args curArgDest,
    Keeps E ctx bctx (compileArguments env ctx bctx fuel args curArgDest)
  condition : ∀ {E ctx bctx} receiver clobberSlot,
    Keeps E ctx bctx (compileCondition env ctx bctx fuel receiver clobberSlot)
  call : ∀ {E ctx bctx} receiver selector args clobberSlot destSlot isTopLevel,
    Keeps E ctx bctx
      (compileSOMCall env ctx bctx fuel receiver selector args clobberSlot destSlot isTopLevel)
  ret : ∀ {E ctx bctx} node clobberSlot,
    Keeps E ctx bctx (compileReturn env ctx bctx fuel node clobberSlot)
  throw : ∀ {E ctx bctx} node clobberSlot,
    Keeps E ctx bctx (compileThrow env ctx bctx fuel node clobberSlot)
  statement : ∀ {E ctx bctx} expr clobberSlot,
    Keeps E ctx bctx (compileStatement env ctx bctx fuel expr clobberSlot)
  inlinedResult : ∀ {E ctx bctx} expr clobberSlot,
    Keeps E ctx bctx (compileInlinedResult env ctx bctx fuel expr clobberSlot)
  statements : ∀ {E ctx bctx} body clobberSlot,
    Keeps E ctx bctx (compileStatements env ctx bctx fuel body clobberSlot)
  blockBody : ∀ {E ctx bctx} body clobberSlot,
    Keeps E ctx bctx (compileBlockBody env ctx bctx fuel body clobberSlot)
  inline : ∀ {E ctx bctx} params locals body frameStartSlot destSlot mayDiscardReturnValue,
    Keeps E ctx bctx (inlineBlock env ctx bctx fuel params locals body frameStartSlot destSlot
      mayDiscardReturnValue)
  newBlock : ∀ {E ctx bctx} params locals body destSlot,
    Keeps E ctx bctx (compileNewBlock env ctx bctx fuel params locals body destSlot)

section Steps

variable {env : MethodEnv} {fuel : ℕ} (ih : AllKeep env fuel) {E : Set ℕ} {ctx bctx : ℕ}
include ih

/-- One step of the induction, by the kind of the expression. -/
theorem keeps_compileExpression (node : AstExpr) (clobberSlot destSlot : ℕ) :
    Keeps E ctx bctx (compileExpression env ctx bctx (fuel + 1) node clobberSlot destSlot) := by
  cases node with rw [compileExpression]
  | literal l => exact keeps_compileAstLiteral l destSlot
  | varUse name => exact keeps_compileVarUse env name destSlot
  | assignation lhs rhs => exact ih.assignation lhs rhs clobberSlot destSlot
  | nestedBlock params locals body => exact ih.newBlock params locals body destSlot
  | unaryCall selector receiver => exact ih.call receiver selector [] clobberSlot destSlot false
  | binaryCall selector receiver argument =>
    exact ih.call receiver selector [argument] clobberSlot destSlot false
  | keywordCall selector receiver arguments =>
    exact ih.call receiver selector arguments clobberSlot destSlot false
  | ret _ => exact .pure _

theorem keeps_compileAssignation (lhs : List String) (rhs : AstExpr) (clobberSlot destSlot : ℕ) :
    Keeps E ctx bctx (compileAssignation env ctx bctx (fuel + 1) lhs rhs clobberSlot destSlot) := by
  rw [compileAssignation]
  exact (keeps_updateTopSlot ctx destSlot).bind fun _ =>
    (ih.expression rhs clobberSlot destSlot).bind
    fun _ => (keeps_emitAssignments env _ lhs).bind fun _ => .pure _

theorem keeps_compileTopLevelAssignation (lhs : List String) (rhs : AstExpr) (clobberSlot : ℕ) :
    Keeps E ctx bctx (compileTopLevelAssignation env ctx bctx (fuel + 1) lhs rhs clobberSlot) := by
  rw [compileTopLevelAssignation]
  refine (keeps_detectTrivialLocalVarOrConstantUse env rhs).bind fun r => ?_
  split
  · exact keeps_emitAssignments env _ lhs
  · refine (keeps_findLocalLhs env lhs).bind fun r => ?_
    split
    · refine (keeps_resolveVariable env _ _).bind fun r => ?_
      split
      · exact (ih.expression rhs clobberSlot _).bind fun _ =>
          (keeps_emitAssignments env _ _).bind fun _ => .pure _
      · exact .pure _
    · exact ih.assignation lhs rhs clobberSlot clobberSlot

theorem keeps_compileOperands (operands : List (AstExpr × Bool)) (curClobberSlot : ℕ) :
    Keeps E ctx bctx (compileOperands env ctx bctx (fuel + 1) operands curClobberSlot) := by
  cases operands with rw [compileOperands]
  | nil => exact .pure _
  | cons x operands =>
    refine (keeps_detectTrivialOperand env _ _).bind fun r => ?_
    split
    · exact (ih.operands operands _).bind fun _ => .pure _
    · exact (ih.expression _ _ _).bind fun _ => (ih.operands operands _).bind fun _ => .pure _

theorem keeps_compileArguments (args : List AstExpr) (curArgDest : ℕ) :
    Keeps E ctx bctx (compileArguments env ctx bctx (fuel + 1) args curArgDest) := by
  cases args with rw [compileArguments]
  | nil => exact .pure _
  | cons arg args =>
    exact (ih.expression _ _ _).bind fun _ => (ih.arguments args _).bind fun _ => .pure _

theorem keeps_compileCondition (receiver : AstExpr) (clobberSlot : ℕ) :
    Keeps E ctx bctx (compileCondition env ctx bctx (fuel + 1) receiver clobberSlot) := by
  rw [compileCondition]
  refine (keeps_detectTrivialLocalVarUse env receiver).bind fun r => ?_
  split
  · exact .pure _
  · exact (ih.expression _ _ _).bind fun _ => .pure _

/-- One step for a message send, by its shape. -/
theorem keeps_compileSOMCall (receiver : AstExpr) (selector : String) (args : List AstExpr)
    (clobberSlot destSlot : ℕ) (isTopLevel : Bool) :
    Keeps E ctx bctx (compileSOMCall env ctx bctx (fuel + 1) receiver selector args clobberSlot
      destSlot isTopLevel) := by
  rw [compileSOMCall]
  refine (keeps_updateTopSlot ctx _).bind fun _ => (keeps_updateTopSlot ctx _).bind fun _ =>
    (keeps_callShape env receiver selector args).bind fun shape => ?_
  cases shape with
  | oneArmed on copies locals body =>
    refine (ih.condition receiver clobberSlot).bind fun r =>
      (ih.inline [] locals body clobberSlot destSlot isTopLevel).bind fun _ => ?_
    dsimp only
    split <;> exact .pure _
  | twoArmed on locals₁ body₁ locals₂ body₂ =>
    exact (ih.condition receiver clobberSlot).bind fun _ =>
      (ih.inline [] locals₁ body₁ clobberSlot destSlot isTopLevel).bind fun _ =>
        (ih.inline [] locals₂ body₂ clobberSlot destSlot false).bind fun _ => .pure _
  | whileLoop exit condLocals condBody locals body =>
    exact (ih.inline [] condLocals condBody clobberSlot clobberSlot false).bind fun _ =>
      (ih.inline [] locals body clobberSlot clobberSlot true).bind fun _ => .pure _
  | countingLoop downto limit param locals body =>
    exact (ih.expression receiver clobberSlot clobberSlot).bind fun _ =>
      (ih.expression limit _ _).bind fun _ => (keeps_updateTopSlot ctx _).bind fun _ =>
        (ih.inline [param] locals body _ _ true).bind fun _ => .pure _
  | operator op operands =>
    refine (ih.operands operands clobberSlot).bind fun r => ?_
    dsimp only
    split
    · exact (keeps_updateTopSlot ctx _).bind fun _ => .pure _
    · exact .pure _
  | call =>
    dsimp only
    split
    · exact (ih.expression receiver _ _).bind fun _ => (ih.arguments args _).bind fun _ => .pure _
    · exact (Keeps.pure _).bind fun _ => (ih.arguments args _).bind fun _ => .pure _

theorem keeps_compileReturn (node : AstExpr) (clobberSlot : ℕ) :
    Keeps E ctx bctx (compileReturn env ctx bctx (fuel + 1) node clobberSlot) := by
  rw [compileReturn]
  exact (ih.expression node clobberSlot clobberSlot).bind fun _ =>
    (keeps_getBCtx bctx).bind fun _ => .pure _

theorem keeps_compileThrow (node : AstExpr) (clobberSlot : ℕ) :
    Keeps E ctx bctx (compileThrow env ctx bctx (fuel + 1) node clobberSlot) := by
  rw [compileThrow]
  exact (keeps_modifyBCtx bctx raises_blockMayThrow fun _ => rfl).bind fun _ =>
    (ih.expression node clobberSlot clobberSlot).bind fun _ => .pure _

theorem keeps_compileStatement (expr : AstExpr) (clobberSlot : ℕ) :
    Keeps E ctx bctx (compileStatement env ctx bctx (fuel + 1) expr clobberSlot) := by
  cases expr with simp only [compileStatement]
  | assignation lhs rhs => exact ih.topLevelAssignation lhs rhs clobberSlot
  | unaryCall selector receiver => exact ih.call receiver selector [] clobberSlot clobberSlot true
  | binaryCall selector receiver argument =>
    exact ih.call receiver selector [argument] clobberSlot clobberSlot true
  | keywordCall selector receiver arguments =>
    exact ih.call receiver selector arguments clobberSlot clobberSlot true
  | _ => exact ih.expression _ clobberSlot clobberSlot

theorem keeps_compileInlinedResult (expr : AstExpr) (clobberSlot : ℕ) :
    Keeps E ctx bctx (compileInlinedResult env ctx bctx (fuel + 1) expr clobberSlot) := by
  rw [compileInlinedResult]
  refine (keeps_getBCtx bctx).bind fun b => ?_
  dsimp only
  split
  · refine (keeps_isDiscardable env expr).bind fun discard => ?_
    split
    · exact .pure _
    · exact (ih.expression expr clobberSlot _).bind fun _ => .pure _
  · refine (Keeps.pure _).bind fun discard => ?_
    split
    · exact .pure _
    · exact (ih.expression expr clobberSlot _).bind fun _ => .pure _

theorem keeps_compileStatements (body : List AstExpr) (clobberSlot : ℕ) :
    Keeps E ctx bctx (compileStatements env ctx bctx (fuel + 1) body clobberSlot) := by
  cases body with rw [compileStatements]
  | nil => exact (keeps_getBCtx bctx).bind fun _ => .pure _
  | cons expr rest =>
    refine (keeps_getBCtx bctx).bind fun b => ?_
    split
    next retVal _ =>
      split
      · exact ih.ret retVal clobberSlot
      · exact ih.throw retVal clobberSlot
    next =>
      split
      · split
        · exact ih.inlinedResult expr clobberSlot
        · exact ih.ret expr clobberSlot
      · exact (ih.statement expr clobberSlot).bind fun _ =>
          (ih.statements rest clobberSlot).bind fun _ => .pure _

theorem keeps_compileBlockBody (body : List AstExpr) (clobberSlot : ℕ) :
    Keeps E ctx bctx (compileBlockBody env ctx bctx (fuel + 1) body clobberSlot) := by
  rw [compileBlockBody]
  refine (keeps_getBCtx bctx).bind fun b => ?_
  split
  · split_ifs <;> exact .pure _
  · exact ih.statements body clobberSlot

/-- **The body of a block in its own scope**, which is left afterwards. -/
theorem blockBody_ensures {E' : Set ℕ} {newCtx slot : ℕ} {s s' : TranslationState}
    {B : BlockTranslationContext} {C C' : Arena TranslationContext} {params locals : List String}
    (hi : Inv E ctx bctx s)
    (h : Installed s.bctxs.size (params ++ locals) slot
      { s with bctxs := s.bctxs.push B, ctxs := C } s')
    (ho : Opens s B C' newCtx) (hlexical : B.lexicalParent = some bctx)
    (hencl : Encloses E' s.bctxs.size { s' with ctxs := C' })
    (hE : ∀ b < s.bctxs.size, b ∈ E' → b ∈ E)
    (htop : ∀ c < C'.size, (C'.get c).resultBCtx = B.owningContext →
      slot + (params ++ locals).length ≤ (C'.get c).historyTopSlot)
    (body : List AstExpr) (clobberSlot : ℕ) {f : Code → CompileM Code}
    (hf : ∀ code s₁, Ext E s s₁ → Inv E ctx bctx s₁ →
      Ensures (f code) s₁ fun _ s₂ => Ext E s s₂ ∧ Inv E ctx bctx s₂) :
    Ensures (do
      let code ← compileBlockBody env newCtx s.bctxs.size fuel body clobberSlot
      uninstallLocalVariables params locals
      f code) { s' with ctxs := C' } fun _ s'' => Ext E s s'' ∧ Inv E ctx bctx s'' := by
  have hhere := h.here ho hi.wf (by simpa only [hlexical] using hi.here.map)
  refine (ih.blockBody body clobberSlot _
    ⟨h.wf ho hi.wf, h.top ho hi.wf hi.top htop, hhere, hencl⟩).bind ?_
  rintro code s₁ ⟨hext, hi₁⟩
  refine uninstallNames_ensures.bind fun _ s₂ hs₂ => ?_
  have hcount (name : String) : (locals.reverse ++ params.reverse).count name =
      (params ++ locals).count name := by
    simp [Nat.add_comm]
  simp only [hcount] at hs₂
  obtain ⟨hext₂, hi₂⟩ := hi.leave (h.later E ho) hE h.map hext hi₁.wf hi₁.top hs₂
  exact hf code s₂ hext₂ hi₂

/-- An inlined block is entered and left again. -/
theorem keeps_inlineBlock (params locals : List String) (body : List AstExpr)
    (frameStartSlot destSlot : ℕ) (mayDiscardReturnValue : Bool) :
    Keeps E ctx bctx (inlineBlock env ctx bctx (fuel + 1) params locals body frameStartSlot destSlot
      mayDiscardReturnValue) := by
  rw [inlineBlock]
  refine (keeps_updateTopSlot ctx _).bind fun _ => (keeps_updateTopSlot ctx _).bind fun _ => ?_
  intro s hi
  refine Ensures.newInlinedBCtx_bind (installLocalVariables_ensures.bind ?_)
  rintro ⟨fill, free⟩ s' ⟨h, hfree⟩
  refine Ensures.modify_bind ?_
  rw [h.ctxs]
  have ho := opens_inlined hi frameStartSlot destSlot free mayDiscardReturnValue
  refine blockBody_ensures ih hi h ho rfl (encloses_inlined hi h ho rfl)
    (fun _ _ => id) ?_ body free
    fun code s₁ hext₁ hi₁ => ?_
  · intro c hc hres
    rw [s.ctxs.get_modify_congr TranslationContext.resultBCtx (by exact fun _ => rfl)] at hres
    rw [hi.wf.ctx_inj c hc ctx hi.here.ctx_lt (hres.trans hi.here.owner.symm), ← hfree,
      Arena.get_modify_self]
    exact le_max_right _ _
  · have hrest : Keeps E ctx bctx (do
        propagateThrow bctx s.bctxs.size
        return Code.inlined frameStartSlot free (.seq fill code)) :=
      (keeps_propagateThrow _).bind fun _ => .pure _
    exact (hrest s₁ hi₁).mono fun _ s₂ h₂ => ⟨hext₁.trans h₂.1, h₂.2⟩

/-- A block with its own method is entered, left and given its code. -/
theorem keeps_compileNewBlock (params locals : List String) (body : List AstExpr) (destSlot : ℕ) :
    Keeps E ctx bctx (compileNewBlock env ctx bctx (fuel + 1) params locals body destSlot) := by
  rw [compileNewBlock]
  refine (keeps_updateTopSlot ctx _).bind fun _ => ?_
  intro s hi
  refine Ensures.newBlockBCtx_bind (installLocalVariables_ensures.bind ?_)
  rintro ⟨fill, free⟩ s' ⟨h, hfree⟩
  refine Ensures.modify_bind ?_
  rw [h.ctxs]
  have ho := opens_block hi (params.length + 1) free
  refine blockBody_ensures ih hi h ho rfl (encloses_block hi h ho rfl rfl)
    (fun b hb hE => hE.resolve_left hb.ne) ?_ body free fun code s₁ hext₁ hi₁ => ?_
  · intro c hc hres
    simp only [Arena.size_modify, Arena.size_push] at hc
    rcases (Nat.lt_succ_iff.mp hc).lt_or_eq with hlt | rfl
    · rw [Arena.get_modify_of_ne _ hlt.ne, s.ctxs.get_push_of_lt hlt] at hres
      exact absurd hres (hi.wf.ctx c hlt).1.ne
    · simpa using hfree.ge
  · refine (keeps_propagateThrow _ s₁ hi₁).bind fun _ s₂ h₂ => ?_
    exact Ensures.getBCtx_bind (Ensures.modify_bind (Ensures.of_pure
      (setCode_ensures (hext₁.trans h₂.1) h₂.2 (le_refl _) (by exact fun _ => rfl)
        (by exact fun _ => rfl) (by exact fun _ => rfl))))

end Steps

/-- **The compiler keeps the scopes.** -/
theorem allKeep (env : MethodEnv) : ∀ fuel : ℕ, AllKeep env fuel
  | 0 => by
    constructor <;> intros <;>
      simp only [compileExpression, compileAssignation, compileTopLevelAssignation, compileOperands,
        compileArguments, compileCondition, compileSOMCall, compileReturn, compileThrow,
        compileStatement, compileInlinedResult, compileStatements, compileBlockBody, inlineBlock,
        compileNewBlock] <;>
      exact .error _
  | fuel + 1 =>
    have ih := allKeep env fuel
    ⟨keeps_compileExpression ih, keeps_compileAssignation ih, keeps_compileTopLevelAssignation ih,
      keeps_compileOperands ih, keeps_compileArguments ih, keeps_compileCondition ih,
      keeps_compileSOMCall ih, keeps_compileReturn ih, keeps_compileThrow ih,
      keeps_compileStatement ih, keeps_compileInlinedResult ih, keeps_compileStatements ih,
      keeps_compileBlockBody ih, keeps_inlineBlock ih, keeps_compileNewBlock ih⟩

/-! ## Methods -/

theorem keeps_bodyTriviality {E : Set ℕ} {ctx bctx : ℕ} (env : MethodEnv) (body : List AstExpr) :
    Keeps E ctx bctx (bodyTriviality env ctx bctx body) := by
  rw [bodyTriviality.eq_def]
  split
  · exact .pure _
  next val =>
    cases val with
    | varUse name =>
      refine (keeps_resolveVariable env _ _).bind fun r => ?_
      split <;> exact .pure _
    | _ => exact .pure _
  · exact .pure _

theorem keeps_detectTrivialMethod {E : Set ℕ} {ctx bctx : ℕ} (env : MethodEnv) (meth : AstMethod) :
    Keeps E ctx bctx (detectTrivialMethod env ctx bctx meth) := by
  refine (keeps_bodyTriviality env meth.body).bind fun t => ?_
  rw [setterTriviality]
  split
  · refine (keeps_resolveVariable env _ _).bind fun r => ?_
    split <;> exact .pure _
  · exact .pure _

/-- There is nothing in the initial state yet. -/
theorem wf_initialState : Wf initialState where
  scope := by simp [initialState]
  var := by simp [initialState]
  declares := by simp [initialState]
  uv := by simp [initialState]
  ctx := by simp [initialState]
  ctx_inj := by simp [initialState]
  resolved := by simp [initialState]

/-- The method opens the first scope. -/
theorem opens_method (numFixedArguments top : ℕ) :
    Opens initialState (realBCtx 0 none none)
      ((initialState.ctxs.push ⟨0, none, numFixedArguments, .method, 0, .empty⟩).modify 0
        fun c => { c with historyTopSlot := top }) 0 where
  parent_lt := by simp [realBCtx]
  scope := by simp [realBCtx, initialState]
  uvs := by simp [realBCtx]
  declares := rfl
  ctxs_le := Nat.le_succ _
  le_ctxs := le_refl _
  ctx_old := by simp [initialState]
  code_old := by simp [initialState]
  ctx_new c hc hge := by
    obtain rfl : c = 0 := Nat.lt_one_iff.mp hc
    exact ⟨rfl, rfl, by simp [initialState, Arena.push], rfl⟩
  ctx_lt := Nat.zero_lt_one
  owner := rfl

/-- The place of the compiler once the scope of a method is open. -/
theorem inv_method {numFixedArguments free : ℕ} {names : List String} {s : TranslationState}
    (h : Installed initialState.bctxs.size names 1 { initialState with
      bctxs := initialState.bctxs.push (realBCtx 0 none none)
      ctxs := initialState.ctxs.push ⟨0, none, numFixedArguments, .method, 0, .empty⟩ } s)
    (hfree : free = 1 + names.length) :
    Inv {0} 0 0 { s with ctxs := s.ctxs.modify 0 fun c => { c with historyTopSlot := free } } := by
  have ho := opens_method numFixedArguments free
  rw [h.ctxs]
  refine ⟨h.wf ho wf_initialState, h.top ho wf_initialState (by simp [TopOk, initialState]) ?_,
    h.here ho wf_initialState (by simp [realBCtx, initialState]), ?_⟩
  · intro c hc _
    obtain rfl : c = 0 := Nat.lt_one_iff.mp hc
    simpa using hfree.ge
  · refine ⟨congrArg BlockTranslationContext.owningContext h.get_new, ?_, ?_⟩
    · rintro b rfl
      rw [h.bctxs_size]
      exact Nat.zero_lt_one
    · rintro b rfl p hp
      cases (congrArg BlockTranslationContext.trueParent h.get_new).symm.trans hp

/-- The rest of the compilation starts with one scope and one code block, both number 0. -/
theorem Ensures.newMethodBCtx_bind {α : Type} {numFixedArguments : ℕ} {k : ℕ × ℕ → CompileM α}
    {P : α → TranslationState → Prop}
    (h : Ensures (k (0, 0)) { initialState with
      bctxs := initialState.bctxs.push (realBCtx 0 none none)
      ctxs := initialState.ctxs.push ⟨0, none, numFixedArguments, .method, 0, .empty⟩ } P) :
    Ensures (newMethodBCtx numFixedArguments >>= k) initialState P := by
  refine Ensures.bind (Q := fun r s => r = (0, 0) ∧ s = { initialState with
    bctxs := initialState.bctxs.push (realBCtx 0 none none)
    ctxs := initialState.ctxs.push ⟨0, none, numFixedArguments, .method, 0, .empty⟩ }) ?_ ?_
  · rintro _ _ ⟨⟩
    exact ⟨rfl, rfl⟩
  · rintro _ _ ⟨rfl, rfl⟩
    exact h

/-- The arenas are well formed after the compilation. -/
theorem compileMethodM_ensures (env : MethodEnv) (fuel : ℕ) (meth : AstMethod) :
    Ensures (compileMethodM env fuel meth) initialState fun _ s => Wf s ∧ TopOk s := by
  refine Ensures.newMethodBCtx_bind (installLocalVariables_ensures.bind ?_)
  rintro ⟨fill, free⟩ s ⟨h, hfree⟩
  refine Ensures.modify_bind ((keeps_detectTrivialMethod env meth _ (inv_method h hfree)).bind
    fun _ s₁ h₁ => ((allKeep env fuel).blockBody meth.body free s₁ h₁.2).bind fun code s₂ h₂ =>
      uninstallNames_ensures.bind fun _ s₃ h₃ => Ensures.modify_bind (Ensures.of_pure ?_))
  have hw : Wf s₃ := h₃ ▸ h₂.2.wf.map_irrel _
  have ht : TopOk s₃ := by
    rw [h₃]
    exact h₂.2.top
  have hquiet := quiet_setCode s₃ 0 (f := fun c => { c with bytecode := .seq fill code })
    (fun _ => rfl) (fun _ => rfl) fun _ => rfl
  exact ⟨hquiet.wf hw (fun _ _ _ hu => .inl hu) fun _ hr => .inl hr,
    ht.grow hw hquiet.toGrows rfl rfl⟩

/-- The blocks that are returned are made of the contexts of the last state. -/
theorem compileMethod_of_ensures {env : MethodEnv} {fuel : ℕ} {meth : AstMethod}
    {blocks : Arena UnlinkedCodeBlock} {s : TranslationState}
    {P : Triviality → TranslationState → Prop}
    (hP : Ensures (compileMethodM env fuel meth) initialState P)
    (h : compileMethod env fuel meth = .ok (blocks, s)) :
    ∃ triviality, blocks = ⟨s.ctxs.size, finishCodeBlock s triviality⟩ ∧ P triviality s := by
  rw [compileMethod] at h
  cases hm : compileMethodM env fuel meth initialState with
  | error e => simp [hm, bind, Except.bind] at h
  | ok r =>
    obtain ⟨triviality, s'⟩ := r
    simp only [hm, bind, Except.bind, pure, Except.pure, Except.ok.injEq, Prod.mk.injEq] at h
    obtain ⟨rfl, rfl⟩ := h
    exact ⟨triviality, rfl, hP triviality s' hm⟩

/-! ## Following the metadata

An upvalue names a local or an upvalue of the enclosing method; the loop below goes outward until it
finds a local. -/

/-- **Where an upvalue leads**: from the code block outward, the code block and the slot of its
frame. At run time `CreateAndFillUpvalues` takes the same steps, one for each enclosing closure. -/
def followUpvalue (blocks : Arena UnlinkedCodeBlock) : ℕ → ℕ → ℕ → Option (ℕ × ℕ)
  | 0, _, _ => none
  | fuel + 1, c, ord =>
    match (blocks.get c).upvalueInfo[ord]?, (blocks.get c).parent with
    | some uv, some p => if uv.isParentLocal then some (p, uv.slot)
      else followUpvalue blocks fuel p uv.slot
    | _, _ => none

/-- An entry refers to something its parent has. -/
def UpvalueMetadata.Refers (blocks : Arena UnlinkedCodeBlock) (c : ℕ)
    (uv : UpvalueMetadata) : Prop :=
  ∃ p < c, (blocks.get c).parent = some p ∧
    if uv.isParentLocal then uv.slot < (blocks.get p).stackFrameNumSlots
    else uv.slot < (blocks.get p).upvalueInfo.length

section Follow

variable {s : TranslationState} {triviality : Triviality}

/-- The method around a block belongs to the context around its context. -/
theorem Wf.parent_of_trueParent (hw : Wf s) {c b : ℕ} (hc : c < s.ctxs.size)
    (hb : (s.bctxs.get (s.ctxs.get c).resultBCtx).trueParent = some b) :
    ∃ p < c, (s.ctxs.get c).parent = some p ∧ (s.ctxs.get p).resultBCtx = b := by
  obtain ⟨-, -, hlt, htrue⟩ := hw.ctx c hc
  rw [hb] at htrue
  obtain ⟨p, hp, hres⟩ := Option.map_eq_some_iff.mp htrue.symm
  exact ⟨p, hlt p hp, hp, hres⟩

/-- **The chain of metadata ends at the slot of the variable.** -/
theorem Wf.followUpvalue_eq (hw : Wf s) {var : ℕ} : ∀ {fuel c ord : ℕ} {uv : UVInfo}, c < fuel →
    c < s.ctxs.size → (s.bctxs.get (s.ctxs.get c).resultBCtx).uvs[ord]? = some uv →
    uv.varInfo = some var →
    ∃ h < c, followUpvalue ⟨s.ctxs.size, finishCodeBlock s triviality⟩ fuel c ord =
      some (h, (s.vars.get var).slotOrd) ∧ (s.ctxs.get h).resultBCtx = homeOf s var
  | fuel + 1, c, ord, uv, hf, hc, hget, hvar => by
    have huv := hw.uv _ (hw.ctx c hc).1 uv (List.mem_of_getElem? hget)
    obtain ⟨b, hb, huv⟩ := huv
    obtain ⟨p, hpc, hp, hres⟩ := hw.parent_of_trueParent hc hb
    simp only [hvar] at huv
    obtain ⟨-, huv⟩ := huv
    simp only [followUpvalue, finishCodeBlock, List.getElem?_map, hget, hp, Option.map_some,
      upvalueMetadata]
    split at huv
    next hlocal =>
      rw [if_pos hlocal]
      exact ⟨p, hpc, by rw [huv.2], hres.trans huv.1⟩
    next hlocal =>
      rw [if_neg hlocal]
      obtain ⟨uv', hget', hvar'⟩ := huv
      rw [← hres] at hget'
      obtain ⟨h, hhp, hfollow, hhome⟩ :=
        hw.followUpvalue_eq (by omega : p < fuel) (hpc.trans hc) hget' hvar'
      exact ⟨h, hhp.trans hpc, hfollow, hhome⟩

/-- An upvalue of the metadata refers to a variable of an enclosing method. -/
theorem Wf.refers (hw : Wf s) (ht : TopOk s) {c : ℕ} (hc : c < s.ctxs.size) {uv : UpvalueMetadata}
    (hu : uv ∈ (finishCodeBlock s triviality c).upvalueInfo) :
    uv.Refers ⟨s.ctxs.size, finishCodeBlock s triviality⟩ c := by
  obtain ⟨u, hmem, rfl⟩ := List.mem_map.mp hu
  obtain ⟨b, hb, huv⟩ := hw.uv _ (hw.ctx c hc).1 u hmem
  obtain ⟨p, hpc, hp, hres⟩ := hw.parent_of_trueParent hc hb
  refine ⟨p, hpc, hp, ?_⟩
  simp only [finishCodeBlock, upvalueMetadata, List.length_map]
  cases hvar : u.varInfo with
  | none =>
    simp only [hvar] at huv
    rw [if_pos huv.1, huv.2]
    exact Nat.succ_pos _
  | some var =>
    simp only [hvar] at huv
    obtain ⟨⟨hlt, -⟩, huv⟩ := huv
    split at huv
    next hlocal =>
      rw [if_pos hlocal, huv.2]
      exact Nat.lt_succ_of_le (ht p (hpc.trans hc) var hlt (huv.1.symm.trans hres.symm))
    next hlocal =>
      rw [if_neg hlocal, hres]
      obtain ⟨uv', hget, -⟩ := huv
      exact (List.getElem?_eq_some_iff.mp hget).1

end Follow

/-- **Upvalue resolution is closure conversion.**  Every use that resolves to an upvalue leads to
the slot of the innermost declaration of its name, in the frame that owns it; and every metadata
entry refers to a slot or an upvalue its parent has. -/
theorem compileMethod_upvalues {env : MethodEnv} {fuel : ℕ} {meth : AstMethod}
    {blocks : Arena UnlinkedCodeBlock} {s : TranslationState}
    (h : compileMethod env fuel meth = .ok (blocks, s)) :
    (∀ r ∈ s.resolutions, ∃ var, innermost s r.bctx r.name = some var ∧
      ∃ c < r.ctx, followUpvalue blocks (r.ctx + 1) r.ctx r.ord =
        some (c, (s.vars.get var).slotOrd) ∧ (s.ctxs.get c).resultBCtx = homeOf s var) ∧
      ∀ c < blocks.size, ∀ uv ∈ (blocks.get c).upvalueInfo, uv.Refers blocks c := by
  obtain ⟨triviality, rfl, hw, ht⟩ :=
    compileMethod_of_ensures (compileMethodM_ensures env fuel meth) h
  refine ⟨fun r hr => ?_, fun c hc uv hu => hw.refers ht hc hu⟩
  obtain ⟨hc, hb, howner, var, hinner, hvar, uv, hget, huv⟩ := hw.resolved r hr
  rw [← howner] at hget
  exact ⟨var, hinner, hw.followUpvalue_eq (Nat.lt_succ_self _) hc hget huv⟩

/-- A method `x y | … [ y := [ x ] ]`: the inner block reaches `x` through the outer one. -/
def twoLevels : AstMethod where
  params := ["x"]
  locals := ["y"]
  body := [.ret (.nestedBlock [] [] [.assignation ["y"] (.nestedBlock [] [] [.varUse "x"])])]

theorem compileMethod_upvalues_twoLevels :
    ∃ blocks s, compileMethod ⟨fun _ => none, true, fun _ => 0⟩ 20 twoLevels = .ok (blocks, s) ∧
      followUpvalue blocks 3 2 1 = some (0, 1) ∧
      (∀ r ∈ s.resolutions, ∃ var, innermost s r.bctx r.name = some var ∧
        ∃ c < r.ctx, followUpvalue blocks (r.ctx + 1) r.ctx r.ord =
          some (c, (s.vars.get var).slotOrd) ∧ (s.ctxs.get c).resultBCtx = homeOf s var) ∧
      ∀ c < blocks.size, ∀ uv ∈ (blocks.get c).upvalueInfo, uv.Refers blocks c := by
  have hfollow : (match compileMethod ⟨fun _ => none, true, fun _ => 0⟩ 20 twoLevels with
      | .ok (blocks, _) => followUpvalue blocks 3 2 1
      | .error _ => none) = some (0, 1) := by decide +kernel
  cases h : compileMethod ⟨fun _ => none, true, fun _ => 0⟩ 20 twoLevels with
  | error e => simp [h] at hfollow
  | ok r =>
    rw [h] at hfollow
    exact ⟨r.1, r.2, rfl, hfollow, compileMethod_upvalues h⟩

end Dsom
