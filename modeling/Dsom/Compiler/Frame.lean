import Dsom.Compiler.Slots

/-!
# Compiler/Frame — frames are large enough

Every compile function emits code that fits the frame it has reserved so far, and that only touches
the slots it may: those from `clobberSlot` on, its destination, and the variables it can see.  By
induction on the fuel, over all compile functions at once.
-/

namespace Dsom

/-! ## Room to work in

The slots from the clobber slot on are free: no variable of the block lives there. -/

/-- A slot of a variable that the scope can see and that lives in its own frame. -/
def OwnSlot (s : TranslationState) (bctx slot : ℕ) : Prop :=
  ∃ var, Visible s bctx var ∧ homeOf s var = (s.bctxs.get bctx).owningContext ∧
    (s.vars.get var).slotOrd = slot

/-- **What may be touched from the scope `bctx`** when the slots from `clobberSlot` on are free: the
variables lie below them. -/
structure Room (A : Set ℕ) (k bctx clobberSlot : ℕ) (s : TranslationState) : Prop where
  free : ∀ slot, clobberSlot ≤ slot → slot ∈ A
  zero : 0 ∈ A
  own : ∀ slot, OwnSlot s bctx slot → slot ∈ A ∧ slot < clobberSlot
  pos : 0 < clobberSlot
  le : k ≤ clobberSlot

section Room

variable {E : Set ℕ} {ctx bctx : ℕ} {A : Set ℕ} {k clobberSlot : ℕ} {s s' : TranslationState}

/-- Whose slot it is does not change while the arenas grow. -/
theorem Grows.ownSlot (h : Grows s s') (hw : Wf s) (hb : bctx < s.bctxs.size) {slot : ℕ} :
    OwnSlot s' bctx slot ↔ OwnSlot s bctx slot := by
  have heq (var : ℕ) (hv : Visible s bctx var) : Dsom.homeOf s' var = Dsom.homeOf s var ∧
      (s'.vars.get var).slotOrd = (s.vars.get var).slotOrd := by
    have hlt := (hw.home_of_visible hb hv).1
    exact ⟨h.homeOf hw hlt, (h.var var hlt).2⟩
  constructor
  · rintro ⟨var, ⟨name, hmem⟩, hhome, hslot⟩
    rw [h.declarations hw hb] at hmem
    obtain ⟨hhome', hslot'⟩ := heq var ⟨name, hmem⟩
    rw [hhome', h.owningContext hb] at hhome
    exact ⟨var, ⟨name, hmem⟩, hhome, hslot' ▸ hslot⟩
  · rintro ⟨var, hv, hhome, hslot⟩
    obtain ⟨hhome', hslot'⟩ := heq var hv
    refine ⟨var, h.visible hw hb hv, ?_, hslot' ▸ hslot⟩
    rw [hhome', h.owningContext hb, hhome]

/-- A variable's slot is below the top slot of its method. -/
theorem Inv.le_top (hi : Inv E ctx bctx s) {slot : ℕ} (h : OwnSlot s bctx slot) :
    slot ≤ topSlot ctx s := by
  obtain ⟨var, hv, hhome, rfl⟩ := h
  exact hi.top ctx hi.here.ctx_lt var (hi.wf.home_of_visible hi.here.bctx_lt hv).1
    (hhome.trans hi.here.owner.symm)

/-- The room is still there later in the same scope. -/
theorem Room.passes (h : Room A k bctx clobberSlot s) (hi : Inv E ctx bctx s)
    (hp : Passes E ctx bctx s s') : Room A k bctx clobberSlot s' where
  free := h.free
  zero := h.zero
  own slot hs := h.own slot ((hp.ext.toGrows.ownSlot hi.wf hi.here.bctx_lt).mp hs)
  pos := h.pos
  le := h.le

/-- There is room from a later slot on. -/
theorem Room.mono (h : Room A k bctx clobberSlot s) {slot : ℕ} (hle : clobberSlot ≤ slot) :
    Room A k bctx slot s where
  free slot' hs := h.free slot' (hle.trans hs)
  zero := h.zero
  own slot' hs := ⟨(h.own slot' hs).1, (h.own slot' hs).2.trans_le hle⟩
  pos := h.pos.trans_le hle
  le := h.le.trans hle

/-- The room to work in behind some of the slots. -/
theorem Room.around (h : Room A k bctx clobberSlot s) {base : ℕ} (hle : clobberSlot ≤ base)
    (size : ℕ) : Room (roomAround base size) (base + size) bctx (base + size) s where
  free slot hs := .inr hs
  zero := .inl (h.pos.trans_le hle)
  own slot hs := by
    have hlt := (h.own slot hs).2
    exact ⟨.inl (hlt.trans_le hle), by omega⟩
  pos := (h.pos.trans_le hle).trans_le (Nat.le_add_right ..)
  le := Nat.le_refl _

end Room

/-- **The variables of a new scope**: its own, from `slot` on, and those of its parent that live in
the same frame. -/
theorem Installed.ownSlot {B : BlockTranslationContext} {C C' : Arena TranslationContext}
    {slot slot' : ℕ} {names : List String}
    (h : Installed s.bctxs.size names slot { s with bctxs := s.bctxs.push B, ctxs := C } s')
    (ho : Opens s B C' ctx) (hw : Wf s)
    (hown : OwnSlot { s' with ctxs := C' } s.bctxs.size slot') :
    (slot ≤ slot' ∧ slot' < slot + names.length) ∨
      ∃ p var, B.lexicalParent = some p ∧ Visible s p var ∧ homeOf s var = B.owningContext ∧
        (s.vars.get var).slotOrd = slot' := by
  obtain ⟨var, ⟨name, hmem⟩, hhome, hslot⟩ := hown
  have hgrows := h.grows ho
  have hsize : s.bctxs.size < s'.bctxs.size := by
    rw [h.bctxs_size]
    exact Nat.lt_succ_self _
  rw [declarations_eq (h.wf ho hw) hsize] at hmem
  simp only [h.get_new, ho.declares] at hmem hhome
  rcases List.mem_append.mp hmem with hmem | hmem
  · left
    obtain ⟨hge, hlt⟩ := (mem_declared hmem).resolve_right (by simp)
    have hvars : s'.vars.size = s.vars.size + names.length := h.vars_size
    have hnew : (s'.vars.get var).slotOrd = slot + (var - s.vars.size) :=
      (h.var_new var (by omega) hge).2
    rw [hnew] at hslot
    simp only at hge hlt
    omega
  · right
    cases hp : B.lexicalParent with
    | none => simp [hp] at hmem
    | some p =>
      simp only [hp, hgrows.declarations hw (ho.parent_lt p hp)] at hmem
      have hlt := (hw.home_of_visible (ho.parent_lt p hp) ⟨name, hmem⟩).1
      rw [hgrows.homeOf hw hlt] at hhome
      exact ⟨p, var, rfl, ⟨name, hmem⟩, hhome, ((hgrows.var var hlt).2).symm.trans hslot⟩

/-! ## Computations that finish no code block -/

/-- The code blocks stay the same. -/
def Still {α : Type} (m : CompileM α) : Prop :=
  Maintains (fun _ => True) (fun s s' => s'.ctxs.size = s.ctxs.size) m

section Still

variable {α β : Type}

instance : Std.Refl fun s s' : TranslationState => s'.ctxs.size = s.ctxs.size := ⟨fun _ => rfl⟩

instance : IsTrans TranslationState fun s s' => s'.ctxs.size = s.ctxs.size :=
  ⟨fun _ _ _ h h' => h'.trans h⟩

theorem Still.pure (a : α) : Still (pure a : CompileM α) := Maintains.of_pure a

theorem Still.error (e : CompileError) : Still (compileError e : CompileM α) :=
  Maintains.of_error e

theorem Still.bind {m : CompileM α} {f : α → CompileM β} (hm : Still m) (hf : ∀ a, Still (f a)) :
    Still (m >>= f) :=
  Maintains.bind hm hf

theorem Still.get : Still get := Maintains.of_get

theorem Still.modify {g : TranslationState → TranslationState}
    (h : ∀ s, (g s).ctxs.size = s.ctxs.size) : Still (modify g) :=
  fun s _ => Ensures.of_modify ⟨h s, trivial⟩

theorem still_getBCtx (b : ℕ) : Still (getBCtx b) := Still.get.bind fun _ => .pure _

theorem still_notify (mode : VarResolveMode) (var : ℕ) (inside : Bool) :
    Still (notify mode var inside) := by
  cases mode with
  | forRead => exact .modify fun _ => rfl
  | forWrite => exact .modify fun _ => rfl
  | dryRun => exact .pure _

theorem still_pushUpvalue (b : ℕ) (uv : UVInfo) : Still (pushUpvalue b uv) :=
  (Still.modify (by exact fun _ => rfl)).bind fun _ => (still_getBCtx b).bind fun _ => .pure _

theorem still_addUpvalue (var : ℕ) : ∀ fuel b : ℕ, Still (addUpvalue fuel b var)
  | 0, _ => .error _
  | fuel + 1, b => by
    refine (Still.get.bind fun _ => .pure _).bind fun v =>
      (Still.modify (by exact fun _ => rfl)).bind fun _ => (still_getBCtx b).bind fun self => ?_
    split
    · exact .pure _
    · refine (still_getBCtx _).bind fun _ => ?_
      split
      · exact .error _
      · dsimp only
        split
        · exact still_pushUpvalue _ _
        · exact (still_addUpvalue var fuel _).bind fun _ => still_pushUpvalue _ _

variable (env : MethodEnv) (ctx bctx : ℕ)

theorem still_resolveVariable (name : String) (mode : VarResolveMode) :
    Still (resolveVariable env ctx bctx name mode) := by
  rw [resolveVariable]
  split
  · split
    · exact .error _
    · exact .pure _
  · refine Still.get.bind fun s => ?_
    split
    next var _ _ =>
      refine (Still.get.bind fun _ => .pure _).bind fun v => (still_notify _ _ _).bind fun _ =>
        (still_getBCtx _).bind fun _ => (still_getBCtx _).bind fun _ => ?_
      split
      · exact (still_addUpvalue _ _ _).bind fun _ =>
          (Still.modify (by exact fun _ => rfl)).bind fun _ => .pure _
      · exact .pure _
    next =>
      split
      · exact .pure _
      · split_ifs
        · exact .error _
        all_goals exact .pure _

theorem still_isResolvedTo (p : VarResolveResult → Bool) (name : String) :
    Still (isResolvedTo p env ctx bctx name) :=
  (still_resolveVariable env ctx bctx name .dryRun).bind fun _ => .pure _

theorem still_isFalseTrueNilUse (e : AstExpr) : Still (isFalseTrueNilUse env ctx bctx e) := by
  cases e with
  | varUse name => exact still_isResolvedTo _ _ _ _ _
  | _ => exact .pure _

theorem still_shouldSkipArithmetic (op : Operator) (receiver arg : AstExpr) :
    Still (shouldSkipArithmetic env ctx bctx op receiver arg) := by
  rw [shouldSkipArithmetic]
  split_ifs
  · exact .pure _
  · exact .pure _
  · exact (still_isFalseTrueNilUse _ _ _ _).bind fun _ =>
      (still_isFalseTrueNilUse _ _ _ _).bind fun _ => .pure _

theorem still_findLocalLhs : ∀ lhs : List String, Still (findLocalLhs env ctx bctx lhs)
  | [] => .pure _
  | name :: lhs => by
    refine (still_isResolvedTo _ _ _ _ _).bind fun _ => ?_
    split
    · exact .pure _
    · refine (still_findLocalLhs lhs).bind fun _ => ?_
      split <;> exact .pure _

theorem still_isDiscardable (e : AstExpr) : Still (isDiscardable env ctx bctx e) := by
  cases e with
  | varUse name => exact (still_isResolvedTo _ _ _ _ _).bind fun _ => .pure _
  | _ => exact .pure _

theorem still_propagateThrow (newBCtx : ℕ) : Still (propagateThrow bctx newBCtx) := by
  refine (still_getBCtx newBCtx).bind fun b => ?_
  split
  · exact .modify fun _ => rfl
  · exact .pure _

end Still

section Leaves

variable {E : Set ℕ} {ctx bctx : ℕ} {s : TranslationState} {α : Type}

/-- **A computation that keeps the scopes and finishes no code block.** -/
theorem passes_of_keeps {m : CompileM α} (hk : Keeps E ctx bctx m) (hs : Still m)
    (hi : Inv E ctx bctx s) : Ensures m s fun _ s' => Passes E ctx bctx s s' := by
  intro a s' hm
  obtain ⟨hext, hi'⟩ := hk s hi a s' hm
  have hsize := (hs s trivial a s' hm).1
  exact ⟨hext, hi', fun c hge hlt => absurd hlt (by rw [hsize]; exact hge.not_gt)⟩

/-- The top slot is raised to the slot. -/
theorem updateTopSlot_ensures (hi : Inv E ctx bctx s) (slot : ℕ) :
    Ensures (updateTopSlot ctx slot) s fun _ s' =>
      Passes E ctx bctx s s' ∧ slot ≤ topSlot ctx s' := by
  refine (passes_of_keeps (keeps_updateTopSlot ctx slot) (.modify fun _ => rfl) hi).and ?_
  refine Ensures.of_modify ?_
  rw [topSlot, Arena.get_modify_self]
  exact Nat.le_max_right _ _

variable (env : MethodEnv)

/-- **A name that resolves to a local** is `self`, which is not written, or a variable of the
frame. -/
theorem resolveVariable_local (hi : Inv E ctx bctx s) (name : String) (mode : VarResolveMode) :
    Ensures (resolveVariable env ctx bctx name mode) s fun r s' => Passes E ctx bctx s s' ∧
      ∀ ord, r = .local ord → (ord = 0 ∧ mode ≠ .forWrite) ∨ OwnSlot s bctx ord := by
  refine (passes_of_keeps (keeps_resolveVariable env name mode) (still_resolveVariable _ _ _ _ _)
    hi).and ?_
  rw [resolveVariable]
  split
  · split
    · exact Ensures.of_error
    next hmode =>
      exact Ensures.of_pure fun ord h => .inl ⟨(VarResolveResult.local.inj h).symm, hmode⟩
  · refine Ensures.get_bind ?_
    split
    next var vars hmap =>
      have hinner := hi.innermost_of_map hmap
      refine Ensures.getVar_bind (Ensures.bind (keeps_notify _ _ _ s hi) ?_)
      rintro - s₁ ⟨hext, hi₁⟩
      refine Ensures.getBCtx_bind (Ensures.getBCtx_bind ?_)
      split
      next =>
        refine Ensures.bind (Q := fun _ _ => True) (fun _ _ _ => trivial) fun uvOrd s₂ _ => ?_
        exact Ensures.modify_bind (Ensures.of_pure fun ord h => by cases h)
      next heq =>
        have hvisible := visible_of_innermost hinner
        have hvar := (hi.wf.home_of_visible hi.here.bctx_lt hvisible).1
        refine Ensures.of_pure fun ord h => .inr ⟨var, hvisible, ?_, VarResolveResult.local.inj h⟩
        rw [not_not, ← (hext.var var hvar).1] at heq
        rw [← hext.owningContext hi.here.bctx_lt, ← heq]
        exact (hext.homeOf hi.wf hvar).symm
    next =>
      split
      · exact Ensures.of_pure fun ord h => by cases h
      · split_ifs
        · exact Ensures.of_error
        all_goals exact Ensures.of_pure fun ord h => by cases h

/-- A local that is read fits the frame. -/
theorem readLocal_ensures (hi : Inv E ctx bctx s) (name : String) :
    Ensures (resolveVariable env ctx bctx name .forRead) s fun r s' => Passes E ctx bctx s s' ∧
      ∀ ord, r = .local ord → ord ≤ topSlot ctx s' := by
  refine (resolveVariable_local env hi name .forRead).mono fun r s' h => ⟨h.1, fun ord hr => ?_⟩
  rcases h.2 ord hr with ⟨rfl, -⟩ | hown
  · exact Nat.zero_le _
  · exact (hi.le_top hown).trans (h.1.top hi)

/-- An operand that fits the frame. -/
def OperandOk (ctx : ℕ) (s : TranslationState) (o : Operand) : Prop :=
  ∀ slot ∈ o.slots, slot ≤ topSlot ctx s

theorem OperandOk.cst (v : Value) : OperandOk ctx s (.cst v) := by simp [OperandOk, Operand.slots]

theorem OperandOk.local {slot : ℕ} (h : slot ≤ topSlot ctx s) : OperandOk ctx s (.local slot) := by
  simpa [OperandOk, Operand.slots] using h

/-- An operand stays good later in the same scope. -/
theorem OperandOk.passes {s' : TranslationState} {o : Operand} (h : OperandOk ctx s o)
    (hi : Inv E ctx bctx s) (hp : Passes E ctx bctx s s') : OperandOk ctx s' o :=
  fun slot hs => (h slot hs).trans (hp.top hi)

/-- A trivial use of a local is in the frame. -/
theorem detectTrivialLocalVarUse_ensures (hi : Inv E ctx bctx s) (e : AstExpr) :
    Ensures (detectTrivialLocalVarUse env ctx bctx e) s fun r s' => Passes E ctx bctx s s' ∧
      ∀ slot, r = some slot → slot ≤ topSlot ctx s' := by
  rw [detectTrivialLocalVarUse.eq_def]
  split
  next name =>
    refine (passes_of_keeps (keeps_isResolvedTo env _ _) (still_isResolvedTo _ _ _ _ _) hi).bind
      fun isLocal s₁ h₁ => ?_
    split
    · refine (readLocal_ensures env h₁.inv name).bind fun r s₂ h₂ => ?_
      split
      next slot => exact Ensures.of_pure ⟨h₁.trans h₂.1, by rintro _ ⟨⟩; exact h₂.2 slot rfl⟩
      next => exact Ensures.of_pure ⟨h₁.trans h₂.1, by rintro _ ⟨⟩⟩
    · exact Ensures.of_pure ⟨h₁, by rintro _ ⟨⟩⟩
  next => exact Ensures.of_pure ⟨.refl hi, by rintro _ ⟨⟩⟩

theorem detectTrivialLocalVarOrConstantUse_ensures (hi : Inv E ctx bctx s) (e : AstExpr) :
    Ensures (detectTrivialLocalVarOrConstantUse env ctx bctx e) s fun r s' =>
      Passes E ctx bctx s s' ∧ ∀ o, r = some o → OperandOk ctx s' o := by
  rw [detectTrivialLocalVarOrConstantUse.eq_def]
  split
  next l =>
    refine Ensures.of_pure ⟨.refl hi, ?_⟩
    split
    · rintro _ ⟨⟩
    · rintro _ ⟨⟩
      exact .cst _
  next name =>
    refine (passes_of_keeps (keeps_isResolvedTo env _ _) (still_isResolvedTo _ _ _ _ _) hi).bind
      fun trivially s₁ h₁ => ?_
    split
    · refine (readLocal_ensures env h₁.inv name).bind fun r s₂ h₂ => ?_
      split
      next slot =>
        exact Ensures.of_pure ⟨h₁.trans h₂.1, by rintro _ ⟨⟩; exact .local (h₂.2 slot rfl)⟩
      next => exact Ensures.of_pure ⟨h₁.trans h₂.1, by rintro _ ⟨⟩; exact .cst _⟩
      next => exact Ensures.of_pure ⟨h₁.trans h₂.1, by rintro _ ⟨⟩⟩
    · exact Ensures.of_pure ⟨h₁, by rintro _ ⟨⟩⟩
  next => exact Ensures.of_pure ⟨.refl hi, by rintro _ ⟨⟩⟩

/-- A trivial operand is in the frame. -/
theorem detectTrivialOperand_ensures (hi : Inv E ctx bctx s) (mayBeConstant : Bool) (e : AstExpr) :
    Ensures (detectTrivialOperand env ctx bctx mayBeConstant e) s fun r s' =>
      Passes E ctx bctx s s' ∧ ∀ o, r = some o → OperandOk ctx s' o := by
  rw [detectTrivialOperand]
  split
  · exact detectTrivialLocalVarOrConstantUse_ensures env hi e
  · refine (detectTrivialLocalVarUse_ensures env hi e).bind fun r s' h => Ensures.of_pure ⟨h.1, ?_⟩
    intro o ho
    obtain ⟨slot, hr, rfl⟩ := Option.map_eq_some_iff.mp ho
    exact .local (h.2 slot hr)

variable {A : Set ℕ} {k : ℕ}

/-- A literal is written to the destination only. -/
theorem compileAstLiteral_ensures (hi : Inv E ctx bctx s) (node : AstLiteral) {destSlot : ℕ}
    (hdest : destSlot ∈ A) :
    Ensures (compileAstLiteral ctx node destSlot) s fun code s' =>
      Passes E ctx bctx s s' ∧ CodeOk E ctx A k s' code := by
  refine (updateTopSlot_ensures hi destSlot).bind fun _ s₁ h₁ => ?_
  split
  · refine Ensures.of_pure ⟨h₁.1, .op (fun slot hs => ?_) fun t ht => ?_⟩
    · obtain rfl := List.mem_singleton.mp hs
      exact h₁.2
    · obtain rfl := List.mem_singleton.mp ht
      exact hdest
  · exact Ensures.of_pure ⟨h₁.1, .mov (OperandOk.cst _) h₁.2 hdest⟩

/-- A read of a variable is good code. -/
theorem emitVarUse_ok {r : VarResolveResult} {destSlot : ℕ} (hdest : destSlot ∈ A)
    (htop : destSlot ≤ topSlot ctx s) (hr : ∀ ord, r = .local ord → ord ≤ topSlot ctx s) :
    CodeOk E ctx A k s (.op (emitVarUse destSlot r)) := by
  cases r with
  | «local» ord => exact .mov (OperandOk.local (hr ord rfl)) htop hdest
  | falseTrueNil v => exact .mov (OperandOk.cst v) htop hdest
  | _ =>
    refine CodeOk.op ?_ ?_
    · simpa [emitVarUse, Instr.slots] using htop
    · simpa [emitVarUse, Instr.touches, Touch.Within] using hdest

/-- The use of a variable is good code. -/
theorem compileVarUse_ensures (hi : Inv E ctx bctx s) (name : String) {destSlot : ℕ}
    (hdest : destSlot ∈ A) :
    Ensures (compileVarUse env ctx bctx name destSlot) s fun code s' =>
      Passes E ctx bctx s s' ∧ CodeOk E ctx A k s' code := by
  refine (updateTopSlot_ensures hi destSlot).bind fun _ s₁ h₁ =>
    (readLocal_ensures env h₁.1.inv name).bind fun r s₂ h₂ => Ensures.of_pure ⟨h₁.1.trans h₂.1, ?_⟩
  exact emitVarUse_ok hdest (h₁.2.trans (h₂.1.top h₁.1.inv)) h₂.2

/-- A store to a resolved variable is good code. -/
theorem emitAssignValueToLhs_ok {r : VarResolveResult} {valToPut : Operand}
    (hval : OperandOk ctx s valToPut) (hr : ∀ ord, r = .local ord → ord ≤ topSlot ctx s ∧ ord ∈ A) :
    CodeOk E ctx A k s (emitAssignValueToLhs valToPut r) := by
  cases r with
  | «local» ord => exact .mov hval (hr ord rfl).1 (hr ord rfl).2
  | upvalue ord => exact .op hval (by simp [Instr.touches])
  | field ord =>
    refine .op (fun slot hs => ?_) (by simp [Instr.touches])
    rcases List.mem_cons.mp hs with rfl | hs
    · exact Nat.zero_le _
    · exact hval slot hs
  | global name => exact .empty
  | falseTrueNil v => exact .empty

/-- A variable that is written fits the frame, and may be written. -/
theorem writeLocal_ensures {clobberSlot : ℕ} (hi : Inv E ctx bctx s)
    (hroom : Room A k bctx clobberSlot s) (name : String) :
    Ensures (resolveVariable env ctx bctx name .forWrite) s fun r s' => Passes E ctx bctx s s' ∧
      ∀ ord, r = .local ord → ord ≤ topSlot ctx s' ∧ ord ∈ A := by
  refine (resolveVariable_local env hi name .forWrite).mono fun r s' h => ⟨h.1, fun ord hr => ?_⟩
  have hown := (h.2 ord hr).resolve_left fun h => h.2 rfl
  exact ⟨(hi.le_top hown).trans (h.1.top hi), (hroom.own ord hown).1⟩

/-- A chain of assignments is good code. -/
theorem emitAssignments_ensures {valToPut : Operand} {clobberSlot : ℕ} : ∀ (lhs : List String)
    {s : TranslationState}, Inv E ctx bctx s → Room A k bctx clobberSlot s →
    OperandOk ctx s valToPut →
    Ensures (emitAssignments env ctx bctx valToPut lhs) s fun code s' =>
      Passes E ctx bctx s s' ∧ CodeOk E ctx A k s' code
  | [], _, hi, _, _ => Ensures.of_pure ⟨.refl hi, .empty⟩
  | name :: lhs, s, hi, hroom, hval => by
    refine (writeLocal_ensures env hi hroom name).bind fun r s₁ h₁ => ?_
    refine (emitAssignments_ensures lhs h₁.1.inv (hroom.passes hi h₁.1)
      (hval.passes hi h₁.1)).bind fun code s₂ h₂ => Ensures.of_pure ⟨h₁.1.trans h₂.1, ?_⟩
    exact (h₂.1.codeOk h₁.1.inv (emitAssignValueToLhs_ok (hval.passes hi h₁.1) h₁.2)).seq h₂.2

/-- At most three operands, each in its own slot. -/
theorem callShape_ensures (hi : Inv E ctx bctx s) (receiver : AstExpr) (selector : String)
    (args : List AstExpr) :
    Ensures (callShape env ctx bctx receiver selector args) s fun shape s' =>
      Passes E ctx bctx s s' ∧
        ∀ op operands, shape = .operator op operands → operands.length ≤ 3 := by
  have hother : ∀ op operands, operatorShape receiver selector args = .operator op operands →
      operands.length ≤ 3 := by
    intro op operands h
    unfold operatorShape at h
    split at h
    next => split at h <;> cases h; simp
    next => split at h <;> cases h; simp
    next => split at h <;> cases h; simp
    next => cases h
  have hinlined : ∀ shape op operands, inlinedShape receiver selector args = some shape →
      shape = .operator op operands → operands.length ≤ 3 := by
    rintro shape op operands h rfl
    unfold inlinedShape at h
    split at h
    · split at h <;> cases h
    · obtain ⟨on, -, h⟩ := Option.map_eq_some_iff.mp h
      cases h
    · obtain ⟨downto, -, h⟩ := Option.map_eq_some_iff.mp h
      cases h
    · cases h
  rw [callShape.eq_def]
  split
  · exact Ensures.of_pure ⟨.refl hi, fun op operands h => by cases h⟩
  · split
    next shape hshape =>
      exact Ensures.of_pure ⟨.refl hi, fun op operands h => hinlined shape op operands hshape h⟩
    next =>
      split
      next op arg _ _ =>
        have hk : Keeps E ctx bctx (shouldSkipArithmetic env ctx bctx op receiver arg) := by
          rw [shouldSkipArithmetic]
          split_ifs
          · exact .pure _
          · exact .pure _
          · exact (keeps_isFalseTrueNilUse env _).bind fun _ =>
              (keeps_isFalseTrueNilUse env _).bind fun _ => .pure _
        refine (passes_of_keeps hk (still_shouldSkipArithmetic _ _ _ _ _ _) hi).bind
          fun skip s₁ h₁ => ?_
        split
        · exact Ensures.of_pure ⟨h₁, hother⟩
        · exact Ensures.of_pure ⟨h₁, by rintro _ _ ⟨⟩; simp⟩
      next => exact Ensures.of_pure ⟨.refl hi, hother⟩

end Leaves

/-! ## The induction

On the fuel, with one lemma for each function of the compiler. -/

/-- The slots that belong to a scope fit, and its result may be written. -/
structure ScopeFits (A : Set ℕ) (ctx bctx : ℕ) (s : TranslationState) : Prop where
  start : (s.bctxs.get bctx).startSlot ≤ topSlot ctx s
  result : (s.bctxs.get bctx).returnValueSlot ≤ topSlot ctx s
  result_mem : (s.bctxs.get bctx).returnValueSlot ∈ A

/-- The scope still fits later on. -/
theorem ScopeFits.passes {E : Set ℕ} {ctx bctx : ℕ} {A : Set ℕ} {s s' : TranslationState}
    (h : ScopeFits A ctx bctx s) (hi : Inv E ctx bctx s) (hp : Passes E ctx bctx s s') :
    ScopeFits A ctx bctx s' := by
  have hshape := hp.ext.shape bctx hi.here.bctx_lt
  have hstart := hp.ext.startSlot hi.here.bctx_lt
  have hresult := (congrArg BlockTranslationContext.returnValueSlot hshape :)
  exact ⟨hstart ▸ h.start.trans (hp.top hi), hresult ▸ h.result.trans (hp.top hi),
    hresult ▸ h.result_mem⟩

/-- A run from `s` that emits good code. -/
def Emits (E : Set ℕ) (ctx bctx : ℕ) (A : Set ℕ) (k : ℕ) (s : TranslationState)
    (m : CompileM Code) : Prop :=
  Ensures m s fun code s' => Passes E ctx bctx s s' ∧ CodeOk E ctx A k s' code

/-- All compile functions emit good code at this fuel. -/
structure AllEmit (env : MethodEnv) (fuel : ℕ) : Prop where
  expression : ∀ {E ctx bctx A k clobberSlot destSlot s} node, Inv E ctx bctx s →
    Room A k bctx clobberSlot s → destSlot ∈ A →
    Emits E ctx bctx A k s (compileExpression env ctx bctx fuel node clobberSlot destSlot)
  assignation : ∀ {E ctx bctx A k clobberSlot destSlot s} lhs rhs, Inv E ctx bctx s →
    Room A k bctx clobberSlot s → destSlot ∈ A →
    Emits E ctx bctx A k s (compileAssignation env ctx bctx fuel lhs rhs clobberSlot destSlot)
  topLevelAssignation : ∀ {E ctx bctx A k clobberSlot s} lhs rhs, Inv E ctx bctx s →
    Room A k bctx clobberSlot s →
    Emits E ctx bctx A k s (compileTopLevelAssignation env ctx bctx fuel lhs rhs clobberSlot)
  operands : ∀ {E ctx bctx A k curClobberSlot s} operands, Inv E ctx bctx s →
    Room A k bctx curClobberSlot s → curClobberSlot + operands.length ≤ topSlot ctx s + 1 →
    Ensures (compileOperands env ctx bctx fuel operands curClobberSlot) s fun r s' =>
      Passes E ctx bctx s s' ∧ CodeOk E ctx A k s' r.1 ∧ ∀ o ∈ r.2.1, OperandOk ctx s' o
  arguments : ∀ {E ctx bctx A k curArgDest s} args, Inv E ctx bctx s →
    Room A k bctx curArgDest s →
    Emits E ctx bctx A k s (compileArguments env ctx bctx fuel args curArgDest)
  condition : ∀ {E ctx bctx A k clobberSlot s} receiver, Inv E ctx bctx s →
    Room A k bctx clobberSlot s → clobberSlot ≤ topSlot ctx s →
    Ensures (compileCondition env ctx bctx fuel receiver clobberSlot) s fun r s' =>
      Passes E ctx bctx s s' ∧ CodeOk E ctx A k s' r.1 ∧ r.2 ≤ topSlot ctx s'
  call : ∀ {E ctx bctx A k clobberSlot destSlot s} receiver selector args isTopLevel,
    Inv E ctx bctx s → Room A k bctx clobberSlot s → destSlot ∈ A →
    Emits E ctx bctx A k s
      (compileSOMCall env ctx bctx fuel receiver selector args clobberSlot destSlot isTopLevel)
  ret : ∀ {E ctx bctx A k clobberSlot s} node, Inv E ctx bctx s → Room A k bctx clobberSlot s →
    clobberSlot ≤ topSlot ctx s →
    Emits E ctx bctx A k s (compileReturn env ctx bctx fuel node clobberSlot)
  throw : ∀ {E ctx bctx A k clobberSlot s} node, Inv E ctx bctx s → Room A k bctx clobberSlot s →
    clobberSlot ≤ topSlot ctx s →
    Emits E ctx bctx A k s (compileThrow env ctx bctx fuel node clobberSlot)
  statement : ∀ {E ctx bctx A k clobberSlot s} expr, Inv E ctx bctx s →
    Room A k bctx clobberSlot s →
    Emits E ctx bctx A k s (compileStatement env ctx bctx fuel expr clobberSlot)
  inlinedResult : ∀ {E ctx bctx A k clobberSlot s} expr, Inv E ctx bctx s →
    Room A k bctx clobberSlot s → ScopeFits A ctx bctx s →
    Emits E ctx bctx A k s (compileInlinedResult env ctx bctx fuel expr clobberSlot)
  statements : ∀ {E ctx bctx A k clobberSlot s} body, Inv E ctx bctx s →
    Room A k bctx clobberSlot s → clobberSlot ≤ topSlot ctx s → ScopeFits A ctx bctx s →
    Emits E ctx bctx A k s (compileStatements env ctx bctx fuel body clobberSlot)
  blockBody : ∀ {E ctx bctx A k clobberSlot s} body, Inv E ctx bctx s →
    Room A k bctx clobberSlot s → clobberSlot ≤ topSlot ctx s → ScopeFits A ctx bctx s →
    Emits E ctx bctx A k s (compileBlockBody env ctx bctx fuel body clobberSlot)
  inline : ∀ {E ctx bctx A k frameStartSlot destSlot s} params locals body mayDiscardReturnValue,
    Inv E ctx bctx s → Room A k bctx frameStartSlot s → destSlot ∈ A →
    Emits E ctx bctx A k s (inlineBlock env ctx bctx fuel params locals body frameStartSlot destSlot
      mayDiscardReturnValue)
  newBlock : ∀ {E ctx bctx A k clobberSlot destSlot s} params locals body, Inv E ctx bctx s →
    Room A k bctx clobberSlot s → destSlot ∈ A →
    Emits E ctx bctx A k s (compileNewBlock env ctx bctx fuel params locals body destSlot)

section Steps

variable {env : MethodEnv} {fuel : ℕ} (ih : AllEmit env fuel) {E : Set ℕ} {ctx bctx : ℕ} {A : Set ℕ}
  {k clobberSlot destSlot : ℕ} {s : TranslationState}

/-- A computation first, then code. -/
theorem Emits.bind {α : Type} {m : CompileM α} {f : α → CompileM Code}
    {Q : α → TranslationState → Prop}
    (hm : Ensures m s fun a s₁ => Passes E ctx bctx s s₁ ∧ Q a s₁)
    (hf : ∀ a s₁, Passes E ctx bctx s s₁ → Q a s₁ → Emits E ctx bctx A k s₁ (f a)) :
    Emits E ctx bctx A k s (m >>= f) :=
  Ensures.bind hm fun a s₁ h => (hf a s₁ h.1 h.2).mono fun _ _ h' => ⟨h.1.trans h'.1, h'.2⟩

/-- The same for one that finishes no code block. -/
theorem Emits.keeps_bind {α : Type} {m : CompileM α} {f : α → CompileM Code}
    (hi : Inv E ctx bctx s) (hk : Keeps E ctx bctx m) (hs : Still m)
    (hf : ∀ a s₁, Passes E ctx bctx s s₁ → Emits E ctx bctx A k s₁ (f a)) :
    Emits E ctx bctx A k s (m >>= f) :=
  Emits.bind ((passes_of_keeps hk hs hi).mono fun _ _ h => ⟨h, trivial⟩) fun a s₁ h _ => hf a s₁ h

theorem Emits.of_pure {code : Code} (hi : Inv E ctx bctx s) (h : CodeOk E ctx A k s code) :
    Emits E ctx bctx A k s (pure code) :=
  Ensures.of_pure ⟨.refl hi, h⟩

include ih

/-- One step of the induction, by the kind of the expression. -/
theorem emits_compileExpression (node : AstExpr) (hi : Inv E ctx bctx s)
    (hroom : Room A k bctx clobberSlot s) (hdest : destSlot ∈ A) :
    Emits E ctx bctx A k s
      (compileExpression env ctx bctx (fuel + 1) node clobberSlot destSlot) := by
  cases node with rw [compileExpression]
  | literal l => exact compileAstLiteral_ensures hi l hdest
  | varUse name => exact compileVarUse_ensures env hi name hdest
  | assignation lhs rhs => exact ih.assignation lhs rhs hi hroom hdest
  | nestedBlock params locals body => exact ih.newBlock params locals body hi hroom hdest
  | unaryCall selector receiver => exact ih.call receiver selector [] false hi hroom hdest
  | binaryCall selector receiver argument =>
    exact ih.call receiver selector [argument] false hi hroom hdest
  | keywordCall selector receiver arguments =>
    exact ih.call receiver selector arguments false hi hroom hdest
  | ret _ => exact Ensures.of_pure ⟨.refl hi, .empty⟩

/-- An assignment whose value is used. -/
theorem emits_compileAssignation (lhs : List String) (rhs : AstExpr) (hi : Inv E ctx bctx s)
    (hroom : Room A k bctx clobberSlot s) (hdest : destSlot ∈ A) :
    Emits E ctx bctx A k s
      (compileAssignation env ctx bctx (fuel + 1) lhs rhs clobberSlot destSlot) := by
  rw [compileAssignation]
  refine Emits.bind (updateTopSlot_ensures hi destSlot) fun _ s₁ h₁ htop => ?_
  have hroom₁ := hroom.passes hi h₁
  refine Emits.bind (ih.expression rhs h₁.inv hroom₁ hdest) fun code s₂ h₂ hok => ?_
  have hval : OperandOk ctx s₂ (.local destSlot) := .local (htop.trans (h₂.top h₁.inv))
  refine Emits.bind (emitAssignments_ensures env lhs h₂.inv (hroom₁.passes h₁.inv h₂) hval)
    fun code' s₃ h₃ hok' => .of_pure h₃.inv ?_
  exact (h₃.codeOk h₂.inv hok).seq hok'

/-- An assignment whose value is dropped. -/
theorem emits_compileTopLevelAssignation (lhs : List String) (rhs : AstExpr)
    (hi : Inv E ctx bctx s) (hroom : Room A k bctx clobberSlot s) :
    Emits E ctx bctx A k s
      (compileTopLevelAssignation env ctx bctx (fuel + 1) lhs rhs clobberSlot) := by
  rw [compileTopLevelAssignation]
  refine Emits.bind (detectTrivialLocalVarOrConstantUse_ensures env hi rhs) fun r s₁ h₁ hr => ?_
  have hroom₁ := hroom.passes hi h₁
  split
  next operand => exact emitAssignments_ensures env lhs h₁.inv hroom₁ (hr operand rfl)
  · refine Emits.keeps_bind h₁.inv (keeps_findLocalLhs env lhs) (still_findLocalLhs _ _ _ lhs)
      fun r s₂ h₂ => ?_
    have hroom₂ := hroom₁.passes h₁.inv h₂
    split
    next name others =>
      refine Emits.bind (writeLocal_ensures env h₂.inv hroom₂ name) fun r s₃ h₃ hr => ?_
      have hroom₃ := hroom₂.passes h₂.inv h₃
      split
      next dest =>
        obtain ⟨htop, hA⟩ := hr dest rfl
        refine Emits.bind (ih.expression rhs h₃.inv hroom₃ hA) fun code s₄ h₄ hok => ?_
        have hval : OperandOk ctx s₄ (.local dest) := .local (htop.trans (h₄.top h₃.inv))
        refine Emits.bind (emitAssignments_ensures env others h₄.inv (hroom₃.passes h₃.inv h₄) hval)
          fun code' s₅ h₅ hok' => .of_pure h₅.inv ?_
        exact (h₅.codeOk h₄.inv hok.assign).seq hok'
      next => exact .of_pure h₃.inv .empty
    next => exact ih.assignation lhs rhs h₂.inv hroom₂ (hroom.free _ (Nat.le_refl _))

/-- The operands are put into consecutive slots. -/
theorem emits_compileOperands (operands : List (AstExpr × Bool)) (hi : Inv E ctx bctx s)
    (hroom : Room A k bctx clobberSlot s)
    (htop : clobberSlot + operands.length ≤ topSlot ctx s + 1) :
    Ensures (compileOperands env ctx bctx (fuel + 1) operands clobberSlot) s fun r s' =>
      Passes E ctx bctx s s' ∧ CodeOk E ctx A k s' r.1 ∧ ∀ o ∈ r.2.1, OperandOk ctx s' o := by
  cases operands with rw [compileOperands]
  | nil => exact Ensures.of_pure ⟨.refl hi, .empty, by simp⟩
  | cons x operands =>
    rw [List.length_cons] at htop
    refine (detectTrivialOperand_ensures env hi x.2 x.1).bind fun r s₁ h₁ => ?_
    have hroom₁ := hroom.passes hi h₁.1
    have htop₁ := h₁.1.top hi
    split
    next operand =>
      refine (ih.operands operands h₁.1.inv hroom₁ (by omega)).bind fun r s₂ h₂ =>
        Ensures.of_pure ⟨h₁.1.trans h₂.1, h₂.2.1, ?_⟩
      intro o ho
      rcases List.mem_cons.mp ho with rfl | ho
      · exact (h₁.2 _ rfl).passes h₁.1.inv h₂.1
      · exact h₂.2.2 o ho
    next =>
      refine Ensures.bind (ih.expression x.1 h₁.1.inv hroom₁ (hroom.free _ (Nat.le_refl _)))
        fun code s₂ h₂ => ?_
      have htop₂ := h₂.1.top h₁.1.inv
      refine (ih.operands operands h₂.1.inv
        ((hroom₁.passes h₁.1.inv h₂.1).mono (Nat.le_succ _)) (by omega)).bind fun r s₃ h₃ =>
          Ensures.of_pure ⟨(h₁.1.trans h₂.1).trans h₃.1, ?_, ?_⟩
      · exact (h₃.1.codeOk h₂.1.inv h₂.2).seq h₃.2.1
      · intro o ho
        have htop₃ := h₃.1.top h₂.1.inv
        rcases List.mem_cons.mp ho with rfl | ho
        · exact .local (by omega)
        · exact h₃.2.2 o ho

/-- The arguments of a call are put behind the frame header. -/
theorem emits_compileArguments (args : List AstExpr) (hi : Inv E ctx bctx s)
    (hroom : Room A k bctx clobberSlot s) :
    Emits E ctx bctx A k s (compileArguments env ctx bctx (fuel + 1) args clobberSlot) := by
  cases args with rw [compileArguments]
  | nil => exact .of_pure hi .empty
  | cons arg args =>
    refine Emits.bind (ih.expression arg hi hroom (hroom.free _ (Nat.le_refl _)))
      fun code s₁ h₁ hok => ?_
    refine Emits.bind (ih.arguments args h₁.inv ((hroom.passes hi h₁).mono (Nat.le_succ _)))
      fun code' s₂ h₂ hok' => .of_pure h₂.inv ?_
    exact (h₂.codeOk h₁.inv hok).seq hok'

/-- The condition of a branch is put into a slot of its own. -/
theorem emits_compileCondition (receiver : AstExpr) (hi : Inv E ctx bctx s)
    (hroom : Room A k bctx clobberSlot s) (htop : clobberSlot ≤ topSlot ctx s) :
    Ensures (compileCondition env ctx bctx (fuel + 1) receiver clobberSlot) s fun r s' =>
      Passes E ctx bctx s s' ∧ CodeOk E ctx A k s' r.1 ∧ r.2 ≤ topSlot ctx s' := by
  rw [compileCondition]
  refine (detectTrivialLocalVarUse_ensures env hi receiver).bind fun r s₁ h₁ => ?_
  split
  next slot => exact Ensures.of_pure ⟨h₁.1, .empty, h₁.2 slot rfl⟩
  next =>
    refine Ensures.bind (ih.expression receiver h₁.1.inv (hroom.passes hi h₁.1)
      (hroom.free _ (Nat.le_refl _))) fun code s₂ h₂ => Ensures.of_pure ?_
    have hp := h₁.1.trans h₂.1
    exact ⟨hp, h₂.2, htop.trans (hp.top hi)⟩

omit ih in
/-- The store of a one-armed branch is good. -/
theorem oneArmedStore_ok {copies isTopLevel : Bool} {condSlot : ℕ} {on : BranchCond}
    (hcond : condSlot ≤ topSlot ctx s) (htop : destSlot ≤ topSlot ctx s) (hdest : destSlot ∈ A) :
    BranchOk ctx A s ⟨on, condSlot,
        (oneArmedStore copies condSlot clobberSlot destSlot isTopLevel).1⟩ ∧
      ∀ i, (oneArmedStore copies condSlot clobberSlot destSlot isTopLevel).2 = some i →
        CodeOk E ctx A k s (.op i) := by
  unfold oneArmedStore
  split
  · exact ⟨⟨hcond, by simp [BranchStore.writes]⟩, by rintro _ ⟨⟩⟩
  · split
    · refine ⟨⟨hcond, ?_⟩, by rintro _ ⟨⟩⟩
      cases copies <;> simpa [BranchStore.writes] using ⟨htop, hdest⟩
    · refine ⟨⟨hcond, by simp [BranchStore.writes]⟩, ?_⟩
      rintro _ ⟨⟩
      refine .mov ?_ htop hdest
      split
      · exact OperandOk.local hcond
      · exact OperandOk.cst _

/-- `ifTrue:`, `and:` and their like. -/
theorem emits_oneArmed (on : BranchCond) (copies : Bool) (locals : List String)
    (body : List AstExpr) (receiver : AstExpr) (isTopLevel : Bool) (hi : Inv E ctx bctx s)
    (hroom : Room A k bctx clobberSlot s) (hdest : destSlot ∈ A)
    (hclobber : clobberSlot ≤ topSlot ctx s) (htop : destSlot ≤ topSlot ctx s) :
    Emits E ctx bctx A k s (do
      let (code, condSlot) ← compileCondition env ctx bctx fuel receiver clobberSlot
      let (store, otherwise) := oneArmedStore copies condSlot clobberSlot destSlot isTopLevel
      let body ← inlineBlock env ctx bctx fuel [] locals body clobberSlot destSlot isTopLevel
      match otherwise with
      | none => return .seq code (.branch ⟨on, condSlot, store⟩ body)
      | some i => return .seq code (.branchElse ⟨on, condSlot, store⟩ body (.op i))) := by
  refine Emits.bind (ih.condition receiver hi hroom hclobber) fun r s₁ h₁ hr => ?_
  refine Emits.bind (ih.inline [] locals body isTopLevel h₁.inv (hroom.passes hi h₁) hdest)
    fun body s₂ h₂ hbody => ?_
  have hcode := h₂.codeOk h₁.inv hr.1
  have hcond : r.2 ≤ topSlot ctx s₂ := hr.2.trans (h₂.top h₁.inv)
  have hdest₂ : destSlot ≤ topSlot ctx s₂ := htop.trans ((h₁.trans h₂).top hi)
  obtain ⟨hbranch, helse⟩ : BranchOk ctx A s₂ ⟨on, r.2,
        (oneArmedStore copies r.2 clobberSlot destSlot isTopLevel).1⟩ ∧
      ∀ i, (oneArmedStore copies r.2 clobberSlot destSlot isTopLevel).2 = some i →
        CodeOk E ctx A k s₂ (.op i) :=
    oneArmedStore_ok hcond hdest₂ hdest
  split
  next => exact .of_pure h₂.inv (hcode.seq (.branch hbranch hbody))
  next i hi' => exact .of_pure h₂.inv (hcode.seq (.branchElse hbranch hbody (helse i hi')))

/-- A counting loop: the body is compiled once, and good both for the room around the loop and for
the room inside it. -/
theorem emits_countingLoop (downto : Bool) (limit : AstExpr) (param : String) (locals : List String)
    (body : List AstExpr) (receiver : AstExpr) (isTopLevel : Bool) (hi : Inv E ctx bctx s)
    (hroom : Room A k bctx clobberSlot s) (hdest : destSlot ∈ A)
    (hclobber : clobberSlot ≤ topSlot ctx s) (htop : destSlot ≤ topSlot ctx s) :
    Emits E ctx bctx A k s (do
      let start ← compileExpression env ctx bctx fuel receiver clobberSlot clobberSlot
      let base := if isTopLevel then clobberSlot else clobberSlot + 1
      let keep := if isTopLevel then Code.empty
        else .op (.mov (.local clobberSlot) (clobberSlot + 1))
      let limit ← compileExpression env ctx bctx fuel limit (base + 1) (base + 1)
      updateTopSlot ctx (base + 2)
      let body ← inlineBlock env ctx bctx fuel [param] locals body (base + 2) (base + 2) true
      let loop := Code.seq start (.seq keep (.seq limit (.forLoop downto base body)))
      return if isTopLevel || clobberSlot = destSlot then loop
        else .seq loop (.op (.mov (.local clobberSlot) destSlot))) := by
  refine Emits.bind (ih.expression receiver hi hroom (hroom.free _ (Nat.le_refl _)))
    fun start s₁ h₁ hstart => ?_
  have hbase : clobberSlot ≤ if isTopLevel then clobberSlot else clobberSlot + 1 := by
    split <;> omega
  have hkeep : ∀ {s' : TranslationState}, clobberSlot + 1 ≤ topSlot ctx s' →
      CodeOk E ctx A k s' (if isTopLevel then Code.empty
        else .op (.mov (.local clobberSlot) (clobberSlot + 1))) := by
    intro s' hs'
    split
    · exact .empty
    · exact .mov (OperandOk.local (by omega)) hs' (hroom.free _ (Nat.le_succ _))
  dsimp only
  generalize (if isTopLevel then clobberSlot else clobberSlot + 1) = base at hbase ⊢
  have hroom₁ := hroom.passes hi h₁
  have hroomLimit : Room A k bctx (base + 1) s₁ := hroom₁.mono (by omega)
  -- the limit is evaluated with the counter in its slot
  have hlimit : Ensures (compileExpression env ctx bctx fuel limit (base + 1) (base + 1)) s₁
      fun code s₂ => Passes E ctx bctx s₁ s₂ ∧ CodeOk E ctx A k s₂ code ∧
        CodeOk E ctx (roomAround base 1) (base + 1) s₂ code :=
    (Ensures.and (ih.expression limit h₁.inv hroomLimit (hroom.free _ (by omega)))
      (ih.expression limit h₁.inv (hroom₁.around hbase 1) (.inr (Nat.le_refl _)))).mono
      fun _ _ h => ⟨h.1.1, h.1.2, h.2.2⟩
  refine Emits.bind hlimit fun limit s₂ h₂ hlimit => ?_
  have hroom₂ := hroom₁.passes h₁.inv h₂
  refine Emits.bind (updateTopSlot_ensures h₂.inv (base + 2)) fun _ s₃ h₃ htop₃ => ?_
  have hroom₃ := hroom₂.passes h₂.inv h₃
  have hinner : Emits E ctx bctx (roomAround base 2) (base + 2) s₃
      (inlineBlock env ctx bctx fuel [param] locals body (base + 2) (base + 2) true) :=
    ih.inline [param] locals body true h₃.inv (hroom₃.around hbase 2) (.inr (Nat.le_refl _))
  have houter : Emits E ctx bctx A k s₃
      (inlineBlock env ctx bctx fuel [param] locals body (base + 2) (base + 2) true) :=
    ih.inline [param] locals body true h₃.inv (hroom₃.mono (by omega)) (hroom.free _ (by omega))
  have hboth : Ensures (inlineBlock env ctx bctx fuel [param] locals body (base + 2)
    (base + 2) true)
      s₃ fun code s₄ => Passes E ctx bctx s₃ s₄ ∧ CodeOk E ctx A k s₄ code ∧
        CodeOk E ctx (roomAround base 2) (base + 2) s₄ code :=
    (Ensures.and houter hinner).mono fun _ _ h => ⟨h.1.1, h.1.2, h.2.2⟩
  refine Emits.bind hboth fun body s₄ h₄ hbody => .of_pure h₄.inv ?_
  have htop₄ := h₄.top h₃.inv
  have hp := (h₁.trans h₂).trans (h₃.trans h₄)
  have hloop : CodeOk E ctx A k s₄ (.seq start (.seq (if isTopLevel then Code.empty
      else .op (.mov (.local clobberSlot) (clobberSlot + 1)))
      (.seq limit (.forLoop downto base body)))) := by
    refine (((h₂.trans h₃).trans h₄).codeOk h₁.inv hstart).seq ((hkeep (by omega)).seq ?_)
    exact .forLoop (by omega) (hroom.free _ hbase) (hroom.free _ (by omega))
      ((h₃.trans h₄).codeOk h₂.inv hlimit.1) ((h₃.trans h₄).codeOk h₂.inv hlimit.2) hbody.1 hbody.2
  split
  · exact hloop
  · exact hloop.seq (.mov (OperandOk.local (hclobber.trans (hp.top hi))) (htop.trans (hp.top hi))
      hdest)

/-- `ifTrue:ifFalse:` and its like. -/
theorem emits_twoArmed (on : BranchCond) (locals₁ : List String) (body₁ : List AstExpr)
    (locals₂ : List String) (body₂ : List AstExpr) (receiver : AstExpr) (isTopLevel : Bool)
    (hi : Inv E ctx bctx s) (hroom : Room A k bctx clobberSlot s) (hdest : destSlot ∈ A)
    (hclobber : clobberSlot ≤ topSlot ctx s) :
    Emits E ctx bctx A k s (do
      let (code, condSlot) ← compileCondition env ctx bctx fuel receiver clobberSlot
      let first ← inlineBlock env ctx bctx fuel [] locals₁ body₁ clobberSlot destSlot isTopLevel
      let second ← inlineBlock env ctx bctx fuel [] locals₂ body₂ clobberSlot destSlot false
      return .seq code (.branchElse ⟨on, condSlot, .nothing⟩ first second)) := by
  refine Emits.bind (ih.condition receiver hi hroom hclobber) fun r s₁ h₁ hr =>
    Emits.bind (ih.inline [] locals₁ body₁ isTopLevel h₁.inv (hroom.passes hi h₁) hdest)
      fun first s₂ h₂ hfirst => ?_
  have hroom₂ := hroom.passes hi (h₁.trans h₂)
  refine Emits.bind (ih.inline [] locals₂ body₂ false h₂.inv hroom₂ hdest)
    fun second s₃ h₃ hsecond => .of_pure h₃.inv ?_
  have hcond : BranchOk ctx A s₃ ⟨on, r.2, .nothing⟩ :=
    ⟨hr.2.trans ((h₂.trans h₃).top h₁.inv), by simp [BranchStore.writes]⟩
  exact ((h₂.trans h₃).codeOk h₁.inv hr.1).seq
    (.branchElse hcond (h₃.codeOk h₂.inv hfirst) hsecond)

/-- `whileTrue:` and `whileFalse:`. -/
theorem emits_whileLoop (exit : BranchCond) (condLocals : List String) (condBody : List AstExpr)
    (locals : List String) (body : List AstExpr) (isTopLevel : Bool) (hi : Inv E ctx bctx s)
    (hroom : Room A k bctx clobberSlot s) (hdest : destSlot ∈ A)
    (hclobber : clobberSlot ≤ topSlot ctx s) (htop : destSlot ≤ topSlot ctx s) :
    Emits E ctx bctx A k s (do
      let cond ← inlineBlock env ctx bctx fuel [] condLocals condBody clobberSlot clobberSlot false
      let body ← inlineBlock env ctx bctx fuel [] locals body clobberSlot clobberSlot true
      let loop := Code.whileLoop cond ⟨exit, clobberSlot, .nothing⟩ body
      return if isTopLevel then loop else .seq loop (.op (.mov (.cst .nil) destSlot))) := by
  have hfree : clobberSlot ∈ A := hroom.free _ (Nat.le_refl _)
  refine Emits.bind (ih.inline [] condLocals condBody false hi hroom hfree)
    fun cond s₁ h₁ hcond =>
      Emits.bind (ih.inline [] locals body true h₁.inv (hroom.passes hi h₁) hfree)
        fun body s₂ h₂ hbody => .of_pure h₂.inv ?_
  have hp := h₁.trans h₂
  have hexit : BranchOk ctx A s₂ ⟨exit, clobberSlot, .nothing⟩ :=
    ⟨hclobber.trans (hp.top hi), by simp [BranchStore.writes]⟩
  have hloop := CodeOk.whileLoop (h₂.codeOk h₁.inv hcond) hexit hbody
  split
  · exact hloop
  · exact hloop.seq (.mov (OperandOk.cst _) (htop.trans (hp.top hi)) hdest)

/-- An operator that has a bytecode of its own. -/
theorem emits_operator (op : Operator) (operands : List (AstExpr × Bool)) (args : List AstExpr)
    (hi : Inv E ctx bctx s) (hroom : Room A k bctx clobberSlot s) (hdest : destSlot ∈ A)
    (htop : destSlot ≤ topSlot ctx s) (hlen : clobberSlot + operands.length ≤ topSlot ctx s + 1) :
    Emits E ctx bctx A k s (do
      let (code, operands, free) ← compileOperands env ctx bctx fuel operands clobberSlot
      if args ≠ [] then updateTopSlot ctx free
      return .seq code (.op (.operator op operands destSlot))) := by
  refine Emits.bind (ih.operands operands hi hroom hlen) fun r s₁ h₁ hr => ?_
  have hop : ∀ {s' : TranslationState}, Passes E ctx bctx s₁ s' →
      CodeOk E ctx A k s' (.seq r.1 (.op (.operator op r.2.1 destSlot))) := by
    intro s' h'
    refine (h'.codeOk h₁.inv hr.1).seq (.op (fun slot hs => ?_) fun t ht => ?_)
    · rcases List.mem_cons.mp hs with rfl | hs
      · exact htop.trans ((h₁.trans h').top hi)
      · obtain ⟨o, ho, hs⟩ := List.mem_flatMap.mp hs
        exact ((hr.2 o ho).passes h₁.inv h') slot hs
    · obtain rfl := List.mem_singleton.mp ht
      exact hdest
  dsimp only
  split
  · exact Emits.bind (updateTopSlot_ensures h₁.inv _) fun _ s₂ h₂ _ => .of_pure h₂.inv (hop h₂)
  · exact .of_pure h₁.inv (hop (.refl h₁.inv))

/-- The arguments of a call, behind its receiver, and the call. -/
theorem emits_call (kind : SOMReceiverKind) (selector : String) (args : List AstExpr) (self : Code)
    (hi : Inv E ctx bctx s) (hroom : Room A k bctx clobberSlot s) (hdest : destSlot ∈ A)
    (htop : destSlot ≤ topSlot ctx s) (hframe : clobberSlot + 4 + args.length ≤ topSlot ctx s)
    (hself : CodeOk E ctx A k s self) :
    Emits E ctx bctx A k s (do
      let code ← compileArguments env ctx bctx fuel args (clobberSlot + 4 + 1)
      return .seq self (.seq code
        (.op (.somCall kind clobberSlot selector (args.length + 1) destSlot)))) := by
  refine Emits.bind (ih.arguments args hi (hroom.mono (by omega))) fun code s₁ h₁ hok =>
    .of_pure h₁.inv ?_
  refine (h₁.codeOk hi hself).seq (hok.seq (.op (fun slot hs => ?_) fun t ht => ?_))
  · simp only [Instr.slots, List.mem_cons, List.mem_range'_1, numSlotsForStackFrameHeader] at hs
    have htop₁ := h₁.top hi
    rcases hs with rfl | rfl | hs
    · exact Nat.zero_le _
    · exact htop.trans htop₁
    · omega
  · simp only [Instr.touches, List.mem_cons, List.not_mem_nil, or_false] at ht
    rcases ht with rfl | rfl
    · exact hroom.le
    · exact hdest

/-- A message send, by its shape. -/
theorem emits_compileSOMCall (receiver : AstExpr) (selector : String) (args : List AstExpr)
    (isTopLevel : Bool) (hi : Inv E ctx bctx s) (hroom : Room A k bctx clobberSlot s)
    (hdest : destSlot ∈ A) :
    Emits E ctx bctx A k s (compileSOMCall env ctx bctx (fuel + 1) receiver selector args
      clobberSlot destSlot isTopLevel) := by
  rw [compileSOMCall]
  refine Emits.bind (updateTopSlot_ensures hi _) fun _ s₁ h₁ htop₁ =>
    Emits.bind (updateTopSlot_ensures h₁.inv _) fun _ s₂ h₂ hframe₂ =>
      Emits.bind (callShape_ensures env h₂.inv receiver selector args) fun shape s₃ h₃ hshape => ?_
  have hi₃ := h₃.inv
  have htop : destSlot ≤ topSlot ctx s₃ := htop₁.trans ((h₂.trans h₃).top h₁.inv)
  have hframe : clobberSlot + 4 + args.length ≤ topSlot ctx s₃ := hframe₂.trans (h₃.top h₂.inv)
  have hclobber : clobberSlot ≤ topSlot ctx s₃ := by omega
  have hroom₃ := hroom.passes hi ((h₁.trans h₂).trans h₃)
  cases shape with
  | oneArmed on copies locals body =>
    exact emits_oneArmed ih on copies locals body receiver isTopLevel hi₃ hroom₃ hdest hclobber htop
  | twoArmed on locals₁ body₁ locals₂ body₂ =>
    exact emits_twoArmed ih on locals₁ body₁ locals₂ body₂ receiver isTopLevel hi₃ hroom₃ hdest
      hclobber
  | whileLoop exit condLocals condBody locals body =>
    exact emits_whileLoop ih exit condLocals condBody locals body isTopLevel hi₃ hroom₃ hdest
      hclobber htop
  | countingLoop downto limit param locals body =>
    exact emits_countingLoop ih downto limit param locals body receiver isTopLevel hi₃ hroom₃ hdest
      hclobber htop
  | operator op operands =>
    have hlen := hshape op operands rfl
    exact emits_operator ih op operands args hi₃ hroom₃ hdest htop (by omega)
  | call =>
    dsimp only
    split
    · refine Emits.bind (ih.expression receiver hi₃ (hroom₃.mono (by omega))
        (hroom₃.free _ (by omega))) fun self s₄ h₄ hself => ?_
      have hup := h₄.top hi₃
      exact emits_call ih _ selector args self h₄.inv (hroom₃.passes hi₃ h₄) hdest
        (htop.trans hup) (hframe.trans hup) hself
    · exact emits_call ih _ selector args .empty hi₃ hroom₃ hdest htop hframe .empty

omit ih in
theorem CodeOk.ret {slot : ℕ} (h : slot ≤ topSlot ctx s) : CodeOk E ctx A k s (.op (.ret slot)) :=
  .op (by simpa [Instr.slots] using h) (by simp [Instr.touches])

/-- A return from the method. -/
theorem emits_compileReturn (node : AstExpr) (hi : Inv E ctx bctx s)
    (hroom : Room A k bctx clobberSlot s) (htop : clobberSlot ≤ topSlot ctx s) :
    Emits E ctx bctx A k s (compileReturn env ctx bctx (fuel + 1) node clobberSlot) := by
  rw [compileReturn]
  refine Emits.bind (ih.expression node hi hroom (hroom.free _ (Nat.le_refl _)))
    fun code s₁ h₁ hok => Ensures.getBCtx_bind (Emits.of_pure h₁.inv ?_)
  exact hok.seq (.closeBefore (Nat.zero_le _) (.ret (htop.trans (h₁.top hi))))

/-- A return from inside a block. -/
theorem emits_compileThrow (node : AstExpr) (hi : Inv E ctx bctx s)
    (hroom : Room A k bctx clobberSlot s) (htop : clobberSlot ≤ topSlot ctx s) :
    Emits E ctx bctx A k s (compileThrow env ctx bctx (fuel + 1) node clobberSlot) := by
  rw [compileThrow]
  refine Emits.keeps_bind hi (keeps_modifyBCtx bctx raises_blockMayThrow fun _ => rfl)
    (.modify fun _ => rfl) fun _ s₁ h₁ => ?_
  refine Emits.bind (ih.expression node h₁.inv (hroom.passes hi h₁) (hroom.free _ (Nat.le_refl _)))
    fun code s₂ h₂ hok => .of_pure h₂.inv (hok.seq (.op ?_ (by simp [Instr.touches])))
  simpa [Instr.slots] using htop.trans ((h₁.trans h₂).top hi)

/-- A statement whose value is dropped. -/
theorem emits_compileStatement (expr : AstExpr) (hi : Inv E ctx bctx s)
    (hroom : Room A k bctx clobberSlot s) :
    Emits E ctx bctx A k s (compileStatement env ctx bctx (fuel + 1) expr clobberSlot) := by
  have hfree : clobberSlot ∈ A := hroom.free _ (Nat.le_refl _)
  cases expr with simp only [compileStatement]
  | assignation lhs rhs => exact ih.topLevelAssignation lhs rhs hi hroom
  | unaryCall selector receiver => exact ih.call receiver selector [] true hi hroom hfree
  | binaryCall selector receiver argument =>
    exact ih.call receiver selector [argument] true hi hroom hfree
  | keywordCall selector receiver arguments =>
    exact ih.call receiver selector arguments true hi hroom hfree
  | _ => exact ih.expression _ hi hroom hfree

/-- The last statement of an inlined block. -/
theorem emits_compileInlinedResult (expr : AstExpr) (hi : Inv E ctx bctx s)
    (hroom : Room A k bctx clobberSlot s) (hfits : ScopeFits A ctx bctx s) :
    Emits E ctx bctx A k s (compileInlinedResult env ctx bctx (fuel + 1) expr clobberSlot) := by
  rw [compileInlinedResult]
  refine Ensures.getBCtx_bind ?_
  have hrest : ∀ (discard : Bool) s₁, Passes E ctx bctx s s₁ → Emits E ctx bctx A k s₁ (do
      let code ← if discard then pure .empty
        else compileExpression env ctx bctx fuel expr clobberSlot (s.bctxs.get bctx).returnValueSlot
      return closeBefore (s.bctxs.get bctx).mustEmitUpvalueCloseBeforeReturn
        (s.bctxs.get bctx).startSlot (.result (s.bctxs.get bctx).startSlot clobberSlot code)) := by
    intro discard s₁ h₁
    have hstart := hfits.start.trans (h₁.top hi)
    cases discard with
    | true => exact .of_pure h₁.inv (.closeBefore hstart CodeOk.empty.result)
    | false =>
      exact Emits.bind (ih.expression expr h₁.inv (hroom.passes hi h₁) hfits.result_mem)
        fun code s₂ h₂ hok => .of_pure h₂.inv
          (.closeBefore (hstart.trans (h₂.top h₁.inv)) hok.result)
  dsimp only
  split
  · exact Emits.keeps_bind hi (keeps_isDiscardable env expr) (still_isDiscardable _ _ _ _) hrest
  · exact hrest false s (.refl hi)

theorem emits_compileStatements (body : List AstExpr) (hi : Inv E ctx bctx s)
    (hroom : Room A k bctx clobberSlot s) (htop : clobberSlot ≤ topSlot ctx s)
    (hfits : ScopeFits A ctx bctx s) :
    Emits E ctx bctx A k s (compileStatements env ctx bctx (fuel + 1) body clobberSlot) := by
  cases body with rw [compileStatements]
  | nil =>
    exact Ensures.getBCtx_bind
      (Emits.of_pure hi (.closeBefore (Nat.zero_le _) (.ret (Nat.zero_le _))))
  | cons expr rest =>
    refine Ensures.getBCtx_bind ?_
    split
    next retVal _ =>
      split
      · exact ih.ret retVal hi hroom htop
      · exact ih.throw retVal hi hroom htop
    next =>
      split
      · split
        · exact ih.inlinedResult expr hi hroom hfits
        · exact ih.ret expr hi hroom htop
      · refine Emits.bind (ih.statement expr hi hroom) fun code s₁ h₁ hok => ?_
        refine Emits.bind (ih.statements rest h₁.inv (hroom.passes hi h₁) (htop.trans (h₁.top hi))
          (hfits.passes hi h₁)) fun code' s₂ h₂ hok' => .of_pure h₂.inv ?_
        exact (h₂.codeOk h₁.inv hok).seq hok'

theorem emits_compileBlockBody (body : List AstExpr) (hi : Inv E ctx bctx s)
    (hroom : Room A k bctx clobberSlot s) (htop : clobberSlot ≤ topSlot ctx s)
    (hfits : ScopeFits A ctx bctx s) :
    Emits E ctx bctx A k s (compileBlockBody env ctx bctx (fuel + 1) body clobberSlot) := by
  rw [compileBlockBody]
  refine Ensures.getBCtx_bind ?_
  split
  · split
    · refine Emits.of_pure hi ?_
      split
      · exact .empty
      · exact .mov (OperandOk.cst _) hfits.result hfits.result_mem
    · split
      · exact Emits.of_pure hi (.ret (Nat.zero_le _))
      · exact Emits.of_pure hi
          ((CodeOk.mov (OperandOk.cst _) (Nat.zero_le _) hroom.zero).seq (.ret (Nat.zero_le _)))
  · exact ih.statements body hi hroom htop hfits

/-- **The body of a block in its own scope**: the compiler is back in the outer scope afterwards,
and the code is good in the scope of the block. -/
theorem scope_ensures {E' : Set ℕ} {newCtx slot k' free : ℕ} {A' : Set ℕ} {s' : TranslationState}
    {B : BlockTranslationContext} {C C' : Arena TranslationContext} {params locals : List String}
    (hi : Inv E ctx bctx s)
    (h : Installed s.bctxs.size (params ++ locals) slot
      { s with bctxs := s.bctxs.push B, ctxs := C } s')
    (ho : Opens s B C' newCtx) (hlexical : B.lexicalParent = some bctx)
    (hencl : Encloses E' s.bctxs.size { s' with ctxs := C' }) (hsub : E ⊆ E')
    (hE : ∀ b < s.bctxs.size, b ∈ E' → b ∈ E)
    (htop : ∀ c < C'.size, (C'.get c).resultBCtx = B.owningContext →
      slot + (params ++ locals).length ≤ (C'.get c).historyTopSlot)
    (hroom : Room A' k' s.bctxs.size free { s' with ctxs := C' })
    (hfree : free ≤ topSlot newCtx { s' with ctxs := C' })
    (hfits : ScopeFits A' newCtx s.bctxs.size { s' with ctxs := C' }) (body : List AstExpr)
    {f : Code → CompileM Code} {Q : Code → TranslationState → Prop}
    (hf : ∀ code s₂, Ext E s s₂ → Inv E ctx bctx s₂ → C'.size ≤ s₂.ctxs.size →
      (s₂.bctxs.get s.bctxs.size).lexicalParent = some bctx ∧
        (s₂.bctxs.get s.bctxs.size).trueParent = B.trueParent →
      (∀ c < C'.size, (s₂.ctxs.get c).resultBCtx = (C'.get c).resultBCtx) →
      (∀ c, C'.size ≤ c → c < s₂.ctxs.size → BlockOk E s₂ c) → CodeOk E' newCtx A' k' s₂ code →
      topSlot newCtx { s' with ctxs := C' } ≤ topSlot newCtx s₂ →
      Ensures (f code) s₂ Q) :
    Ensures (do
      let code ← compileBlockBody env newCtx s.bctxs.size fuel body free
      uninstallLocalVariables params locals
      f code) { s' with ctxs := C' } Q := by
  have hhere := h.here ho hi.wf (by simpa only [hlexical] using hi.here.map)
  have hinv : Inv E' newCtx s.bctxs.size { s' with ctxs := C' } :=
    ⟨h.wf ho hi.wf, h.top ho hi.wf hi.top htop, hhere, hencl⟩
  refine Ensures.bind (ih.blockBody body hinv hroom hfree hfits) ?_
  rintro code s₁ ⟨hp, hok⟩
  refine uninstallNames_ensures.bind fun _ s₂ hs₂ => ?_
  have hcount (name : String) : (locals.reverse ++ params.reverse).count name =
      (params ++ locals).count name := by
    simp [Nat.add_comm]
  simp only [hcount] at hs₂
  obtain ⟨hext₂, hi₂⟩ := hi.leave (h.later E ho) hE h.map hp.ext hp.inv.wf hp.inv.top hs₂
  subst hs₂
  have hnew : (s₁.bctxs.get s.bctxs.size).lexicalParent = some bctx ∧
      (s₁.bctxs.get s.bctxs.size).trueParent = B.trueParent := by
    rw [hp.ext.lexicalParent hinv.here.bctx_lt, hp.ext.trueParent hinv.here.bctx_lt, h.get_new]
    exact ⟨hlexical, rfl⟩
  exact hf code _ hext₂ hi₂ hp.ext.ctxs_le hnew (fun c hc => (hp.ext.ctx c hc).2.1)
    (fun c hge hlt => ((hp.blocks c hge hlt).mono hsub).imp_right fun h => h.setNames _)
    ⟨hok.slots, hok.touches, hok.loops.setNames _, hok.not_forLoop⟩ (hp.top hinv)

omit ih in
theorem installLocalVariables_codeOk {params locals : List String} {startSlot : ℕ} :
    Ensures (installLocalVariables bctx params locals startSlot) s fun r s' =>
      Installed bctx (params ++ locals) startSlot s s' ∧
        r.2 = startSlot + (params ++ locals).length ∧
        ∀ (E : Set ℕ) (ctx : ℕ) (A : Set ℕ) (k : ℕ) (s'' : TranslationState),
          r.2 ≤ topSlot ctx s'' → (∀ slot, startSlot ≤ slot → slot ∈ A) →
            CodeOk E ctx A k s'' r.1 := by
  refine installNames_ensures.bind fun _ s₁ h₁ => installNames_ensures.bind fun _ s₂ h₂ =>
    Ensures.of_pure ⟨h₁.append h₂, by simp [Nat.add_assoc], ?_⟩
  intro E ctx A k s'' htop hA
  dsimp only
  split
  · exact .empty
  · refine .op (fun slot hs => ?_) fun t ht => ?_
    · rw [Instr.slots, List.mem_range'_1] at hs
      exact hs.2.le.trans htop
    · obtain ⟨slot, hs, rfl⟩ := List.mem_map.mp ht
      rw [List.mem_range'_1] at hs
      exact hA slot (by omega)

theorem emits_inlineBlock (params locals : List String) (body : List AstExpr)
    (mayDiscardReturnValue : Bool) (hi : Inv E ctx bctx s) (hroom : Room A k bctx clobberSlot s)
    (hdest : destSlot ∈ A) :
    Emits E ctx bctx A k s (inlineBlock env ctx bctx (fuel + 1) params locals body clobberSlot
      destSlot mayDiscardReturnValue) := by
  rw [inlineBlock]
  refine Emits.bind (updateTopSlot_ensures hi destSlot) fun _ s₁ h₁ htop₁ =>
    Emits.bind (updateTopSlot_ensures h₁.inv clobberSlot) fun _ s₂ h₂ hstart => ?_
  replace hroom := hroom.passes hi (h₁.trans h₂)
  have hdestTop : destSlot ≤ topSlot ctx s₂ := htop₁.trans (h₂.top h₁.inv)
  have hi₂ := h₂.inv
  clear htop₁ h₁ h₂ hi
  rename' s₂ => s
  refine Ensures.newInlinedBCtx_bind (installLocalVariables_codeOk.bind ?_)
  rintro ⟨fill, free⟩ s' ⟨h, hfree, hfill⟩
  refine Ensures.modify_bind ?_
  rw [h.ctxs]
  simp only at hfree
  have ho := opens_inlined hi₂ clobberSlot destSlot free mayDiscardReturnValue
  have hnew : ((s.ctxs.modify ctx fun c =>
      { c with historyTopSlot := max c.historyTopSlot free }).get ctx).historyTopSlot =
        max (topSlot ctx s) free := by
    rw [Arena.get_modify_self]
    rfl
  have hreal : ∀ c < s.ctxs.size, ((s.ctxs.modify ctx fun c =>
      { c with historyTopSlot := max c.historyTopSlot free }).get c).resultBCtx =
        (s.bctxs.get bctx).owningContext → c = ctx := by
    intro c hc hres
    rw [s.ctxs.get_modify_congr TranslationContext.resultBCtx (by exact fun _ => rfl)] at hres
    exact hi₂.wf.ctx_inj c hc ctx hi₂.here.ctx_lt (hres.trans hi₂.here.owner.symm)
  have hsize' : (s.ctxs.modify ctx fun c =>
      { c with historyTopSlot := max c.historyTopSlot free }).size = s.ctxs.size := rfl
  generalize (s.ctxs.modify ctx fun c =>
    { c with historyTopSlot := max c.historyTopSlot free }) = C' at ho hnew hreal hsize' ⊢
  have hge : topSlot ctx s ≤ topSlot ctx { s' with ctxs := C' } := by
    rw [topSlot, topSlot, hnew]
    exact le_max_left _ _
  have hfreeTop : free ≤ topSlot ctx { s' with ctxs := C' } := by
    rw [topSlot, hnew]
    exact le_max_right _ _
  have hroom' : Room A k s.bctxs.size free { s' with ctxs := C' } := by
    refine ⟨fun slot hs => hroom.free slot (by omega), hroom.zero, fun slot hs => ?_, ?_, ?_⟩
    · rcases h.ownSlot ho hi₂.wf hs with ⟨hge, hlt⟩ | ⟨p, var, hp, hv, hhome, hslot⟩
      · exact ⟨hroom.free slot hge, by omega⟩
      · cases hp
        obtain ⟨hA, hlt⟩ := hroom.own slot ⟨var, hv, hhome, hslot⟩
        exact ⟨hA, by omega⟩
    · have := hroom.pos
      omega
    · have := hroom.le
      omega
  have hfits : ScopeFits A ctx s.bctxs.size { s' with ctxs := C' } := by
    constructor <;> simp only [h.get_new, inlinedBCtx]
    · exact hstart.trans hge
    · exact hdestTop.trans hge
    · exact hdest
  refine scope_ensures ih hi₂ h ho rfl (encloses_inlined hi₂ h ho rfl) (fun _ hb => hb)
    (fun _ _ hb => hb) ?_ hroom' hfreeTop hfits body
    fun code s₃ hext₃ hi₃ _ _ _ hblocks hok htop₃ => ?_
  · intro c hc hres
    rw [hreal c (hsize' ▸ hc) hres, ← hfree]
    exact hfreeTop
  · have hp : Passes E ctx bctx s s₃ :=
      ⟨hext₃, hi₃, fun c hge hlt => hblocks c (hsize' ▸ hge) hlt⟩
    have hcode : CodeOk E ctx A k s₃ (.inlined clobberSlot free (.seq fill code)) :=
      ((hfill E ctx A k s₃ (hfreeTop.trans htop₃) hroom.free).seq hok).inlined
    refine (passes_of_keeps (keeps_propagateThrow _) (still_propagateThrow _ _) hi₃).bind
      fun _ s₄ h₄ => Ensures.of_pure ⟨hp.trans h₄, h₄.codeOk hi₃ hcode⟩

omit ih in
/-- A block gets its code, which is good. -/
theorem setCode_passes {s₁ : TranslationState} {c : ℕ}
    {f : TranslationContext → TranslationContext} (hext : Ext E s s₁) (hi : Inv E ctx bctx s₁)
    (hc : s.ctxs.size ≤ c) (hp : ∀ x, (f x).parent = x.parent)
    (hr : ∀ x, (f x).resultBCtx = x.resultBCtx) (ht : ∀ x, (f x).historyTopSlot = x.historyTopSlot)
    (hblocks : ∀ d, s.ctxs.size ≤ d → d ≠ c → d < s₁.ctxs.size → BlockOk E s₁ d)
    (hslots : ∀ slot ∈ (f (s₁.ctxs.get c)).bytecode.slots, slot ≤ topSlot c s₁)
    (hloops : LoopsOk E s₁ (f (s₁.ctxs.get c)).bytecode) :
    Passes E ctx bctx s { s₁ with ctxs := s₁.ctxs.modify c f } := by
  obtain ⟨hext', hi'⟩ := setCode_ensures hext hi hc hp hr ht
  refine ⟨hext', hi', fun d hge hlt => ?_⟩
  by_cases hd : d = c
  · subst hd
    rw [BlockOk, Arena.get_modify_self, ht]
    exact ⟨hslots, hloops.setCode d hr _⟩
  · rw [BlockOk, Arena.get_modify_of_ne _ hd]
    obtain ⟨hs, hl⟩ := hblocks d hge hd hlt
    exact ⟨hs, hl.setCode c hr _⟩

omit ih in
/-- The slots that a block's closures capture are `self` and variables of the scope it stands in. -/
theorem captures_own {b c slot : ℕ} (hw : Wf s) (hc : c < s.ctxs.size)
    (hres : (s.ctxs.get c).resultBCtx = b) (hlexical : (s.bctxs.get b).lexicalParent = some bctx)
    (htrue : (s.bctxs.get b).trueParent = some (s.bctxs.get bctx).owningContext)
    (h : Captures s c slot) : slot = 0 ∨ OwnSlot s bctx slot := by
  obtain ⟨uv, hmem, hlocal, rfl⟩ := h
  rw [hres] at hmem
  obtain ⟨p, hp, huv⟩ := hw.uv b (hres ▸ (hw.ctx c hc).1) uv hmem
  cases hvar : uv.varInfo with
  | none =>
    simp only [hvar] at huv
    exact .inl huv.2
  | some var =>
    simp only [hvar, if_pos hlocal] at huv
    obtain ⟨⟨-, -, q, hq, hv⟩, hhome, hslot⟩ := huv
    obtain rfl := Option.some.inj (hlexical.symm.trans hq)
    obtain rfl := Option.some.inj (htrue.symm.trans hp)
    exact .inr ⟨var, hv, hhome.symm, hslot.symm⟩

omit ih in
/-- A new closure captures nothing but what may be touched. -/
theorem closure_within {b c : ℕ} {s' : TranslationState} (hi : Inv E ctx bctx s)
    (hroom : Room A k bctx clobberSlot s) (hp : Passes E ctx bctx s s') (hc : c < s'.ctxs.size)
    (hres : (s'.ctxs.get c).resultBCtx = b) (hb : s.bctxs.size ≤ b)
    (hlexical : (s'.bctxs.get b).lexicalParent = some bctx)
    (htrue : (s'.bctxs.get b).trueParent = some (s.bctxs.get bctx).owningContext) :
    (Touch.closure c).Within E s' A k := by
  rw [← hp.ext.owningContext hi.here.bctx_lt] at htrue
  refine ⟨hc, fun hE => ?_, fun slot hcap => ?_⟩
  · exact absurd (hi.encloses.lt _ hE) (by omega)
  · rcases captures_own hp.inv.wf hc hres hlexical htrue hcap with rfl | hown
    · exact hroom.zero
    · exact (hroom.own slot ((hp.ext.toGrows.ownSlot hi.wf hi.here.bctx_lt).mp hown)).1

theorem emits_compileNewBlock (params locals : List String) (body : List AstExpr)
    (hi : Inv E ctx bctx s) (hroom : Room A k bctx clobberSlot s) (hdest : destSlot ∈ A) :
    Emits E ctx bctx A k s
      (compileNewBlock env ctx bctx (fuel + 1) params locals body destSlot) := by
  rw [compileNewBlock]
  refine Emits.bind (updateTopSlot_ensures hi destSlot) fun _ s₁ h₁ htop => ?_
  replace hroom := hroom.passes hi h₁
  have hi₁ := h₁.inv
  clear h₁ hi
  rename' s₁ => s
  refine Ensures.newBlockBCtx_bind (installLocalVariables_codeOk.bind ?_)
  rintro ⟨fill, free⟩ s' ⟨h, hfree, hfill⟩
  refine Ensures.modify_bind ?_
  rw [h.ctxs]
  simp only at hfree
  have ho := opens_block hi₁ (params.length + 1) free
  have hencl := encloses_block hi₁ h ho rfl rfl
  generalize hC : ((s.ctxs.push ⟨0, some ctx, params.length + 1, .method, s.bctxs.size,
    .empty⟩).modify
    s.ctxs.size fun c => { c with historyTopSlot := free }) = C' at ho hencl ⊢
  have hsize' : C'.size = s.ctxs.size + 1 := by rw [← hC]; rfl
  have hnew : (C'.get s.ctxs.size).historyTopSlot = free ∧
      (C'.get s.ctxs.size).resultBCtx = s.bctxs.size := by
    rw [← hC, Arena.get_modify_self, Arena.get_push_self]
    exact ⟨rfl, rfl⟩
  have hroom' : Room Set.univ 0 s.bctxs.size free { s' with ctxs := C' } := by
    refine ⟨fun _ _ => trivial, trivial, fun slot hs => ⟨trivial, ?_⟩, by omega, Nat.zero_le _⟩
    rcases h.ownSlot ho hi₁.wf hs with ⟨-, hlt⟩ | ⟨p, var, hp, hv, hhome, -⟩
    · omega
    · -- a variable of an outer frame
      have hlt := hi₁.wf.var var (hi₁.wf.home_of_visible (ho.parent_lt p hp) hv).1
      have hle := (hi₁.wf.scope _ hlt).2.1
      exact absurd hhome (hle.trans_lt hlt).ne
  have hfits : ScopeFits Set.univ s.ctxs.size s.bctxs.size { s' with ctxs := C' } := by
    constructor <;> simp only [h.get_new, realBCtx]
    · exact Nat.zero_le _
    · exact Nat.zero_le _
    · trivial
  refine scope_ensures ih hi₁ h ho rfl hencl (fun _ hb => .inr hb)
    (fun b hb hE => hE.resolve_left hb.ne) ?_ hroom' hnew.1.ge hfits body
    fun code s₃ hext₃ hi₃ hsize hshape hres hblocks hok htop₃ => ?_
  · intro c hc hres
    rcases (Nat.lt_succ_iff.mp (hsize' ▸ hc)).lt_or_eq with hlt | rfl
    · rw [(ho.ctx_old c hlt).2.1] at hres
      exact absurd hres (hi₁.wf.ctx c hlt).1.ne
    · rw [hnew.1, ← hfree]
  · refine (passes_of_keeps (keeps_propagateThrow _) (still_propagateThrow _ _) hi₃).bind
      fun _ s₄ h₄ => Ensures.getBCtx_bind (Ensures.modify_bind (Ensures.of_pure ?_))
    have hctx : s.ctxs.size < s₃.ctxs.size := by omega
    have hbctx : s.bctxs.size < s₃.bctxs.size := by
      have := (hi₃.wf.ctx _ hctx).1
      rwa [hres _ (by omega), hnew.2] at this
    have hcode : CodeOk E s.ctxs.size Set.univ 0 s₄ (.seq fill code) := by
      refine CodeOk.later ?_ hi₃.wf hctx h₄.ext.toLater
      refine (hfill E _ _ _ s₃ (hnew.1 ▸ htop₃) fun _ _ => trivial).seq
        ⟨hok.slots, ?_, ?_, hok.not_forLoop⟩
      · exact fun t ht => (hok.touches t ht).mono (fun _ hb => .inr hb) (fun _ h => h)
          (Nat.le_refl _)
      · exact hok.loops.mono fun _ hb => .inr hb
    have hpasses := setCode_passes (hext₃.trans h₄.ext) h₄.inv (Nat.le_refl _)
      (f := fun c => { c with
        fnKind := blockKind params.length (s₄.bctxs.get s.bctxs.size).mustMutablyCaptureSelf
        bytecode := .seq fill code }) (by exact fun _ => rfl) (by exact fun _ => rfl)
      (by exact fun _ => rfl) (fun d hge hne hlt => ?_) hcode.slots hcode.loops
    · refine ⟨hpasses, .op ?_ fun t ht => ?_⟩
      · simpa [Instr.slots] using htop.trans (hpasses.top hi₁)
      · simp only [Instr.touches, List.mem_cons, List.not_mem_nil, or_false] at ht
        rcases ht with rfl | rfl
        · have hres₄ : (s₄.ctxs.get s.ctxs.size).resultBCtx = s.bctxs.size := by
            rw [(h₄.ext.ctx _ hctx).2.1, hres _ (by omega), hnew.2]
          refine closure_within hi₁ hroom hpasses (hctx.trans_le h₄.ext.ctxs_le) ?_
            (Nat.le_refl _) ?_ ?_
          · rw [Arena.get_modify_self]
            exact hres₄
          · exact (h₄.ext.lexicalParent hbctx).trans hshape.1
          · exact (h₄.ext.trueParent hbctx).trans hshape.2
        · exact hdest
    · rcases Nat.lt_or_ge d s₃.ctxs.size with hlt' | hge'
      · exact (hblocks d (by omega) hlt').later hi₃.wf hlt' h₄.ext.toLater
      · exact h₄.blocks d hge' hlt

end Steps

/-- **The compiler emits good code.** -/
theorem allEmit (env : MethodEnv) : ∀ fuel : ℕ, AllEmit env fuel
  | 0 => by
    constructor <;> intros <;>
      simp only [compileExpression, compileAssignation, compileTopLevelAssignation, compileOperands,
        compileArguments, compileCondition, compileSOMCall, compileReturn, compileThrow,
        compileStatement, compileInlinedResult, compileStatements, compileBlockBody, inlineBlock,
        compileNewBlock] <;>
      exact Ensures.of_error
  | fuel + 1 =>
    have ih := allEmit env fuel
    ⟨emits_compileExpression ih, emits_compileAssignation ih, emits_compileTopLevelAssignation ih,
      emits_compileOperands ih, emits_compileArguments ih, emits_compileCondition ih,
      emits_compileSOMCall ih, emits_compileReturn ih, emits_compileThrow ih,
      emits_compileStatement ih, emits_compileInlinedResult ih, emits_compileStatements ih,
      emits_compileBlockBody ih, emits_inlineBlock ih, emits_compileNewBlock ih⟩

/-! ## Methods -/

theorem still_bodyTriviality (env : MethodEnv) (ctx bctx : ℕ) (body : List AstExpr) :
    Still (bodyTriviality env ctx bctx body) := by
  rw [bodyTriviality.eq_def]
  split
  · exact .pure _
  next val =>
    cases val with
    | varUse name =>
      refine (still_resolveVariable _ _ _ _ _).bind fun r => ?_
      split <;> exact .pure _
    | _ => exact .pure _
  · exact .pure _

theorem still_detectTrivialMethod (env : MethodEnv) (ctx bctx : ℕ) (meth : AstMethod) :
    Still (detectTrivialMethod env ctx bctx meth) := by
  refine (still_bodyTriviality _ _ _ _).bind fun t => ?_
  rw [setterTriviality]
  split
  · refine (still_resolveVariable _ _ _ _ _).bind fun r => ?_
    split <;> exact .pure _
  · exact .pure _

/-- **Every code block of a method fits its frame, and its loops are left alone.** -/
theorem compileMethodM_blockOk (env : MethodEnv) (fuel : ℕ) (meth : AstMethod) :
    Ensures (compileMethodM env fuel meth) initialState fun _ s =>
      ∀ c < s.ctxs.size, BlockOk {0} s c := by
  refine Ensures.newMethodBCtx_bind (installLocalVariables_codeOk.bind ?_)
  rintro ⟨fill, free⟩ s ⟨h, hfree, hfill⟩
  have hinv := inv_method h hfree
  have ho := opens_method (meth.params.length + 1) free
  refine Ensures.modify_bind ?_
  rw [h.ctxs] at hinv ⊢
  simp only at hfree hinv ⊢
  have hnew : (((initialState.ctxs.push ⟨0, none, meth.params.length + 1, .method, 0,
    .empty⟩).modify
      0 fun c => { c with historyTopSlot := free }).get 0).historyTopSlot = free := by
    rw [Arena.get_modify_self]
  have hsize : ((initialState.ctxs.push ⟨0, none, meth.params.length + 1, .method, 0,
      .empty⟩).modify 0 fun c => { c with historyTopSlot := free }).size = 1 := rfl
  generalize ((initialState.ctxs.push ⟨0, none, meth.params.length + 1, .method, 0, .empty⟩).modify
    0 fun c => { c with historyTopSlot := free }) = C' at ho hinv hnew hsize ⊢
  have hroom : Room Set.univ 0 0 free { s with ctxs := C' } := by
    refine ⟨fun _ _ => trivial, trivial, fun slot hs => ⟨trivial, ?_⟩, by omega, Nat.zero_le _⟩
    rcases h.ownSlot ho wf_initialState hs with ⟨-, hlt⟩ | ⟨p, var, hp, -⟩
    · omega
    · cases hp
  have hget := h.bctx_self
  have hbctx : (s.bctxs.get 0).startSlot = 0 ∧ (s.bctxs.get 0).returnValueSlot = 0 :=
    ⟨congrArg BlockTranslationContext.startSlot hget,
      congrArg BlockTranslationContext.returnValueSlot hget⟩
  have hfits : ScopeFits Set.univ 0 0 { s with ctxs := C' } :=
    ⟨hbctx.1.trans_le (Nat.zero_le _), hbctx.2.trans_le (Nat.zero_le _), trivial⟩
  refine (passes_of_keeps (keeps_detectTrivialMethod env meth) (still_detectTrivialMethod _ _ _ _)
    hinv).bind fun _ s₁ h₁ => ?_
  have hfreeTop : free ≤ topSlot 0 s₁ := hnew.ge.trans (h₁.top hinv)
  refine Ensures.bind ((allEmit env fuel).blockBody meth.body h₁.inv (hroom.passes hinv h₁) hfreeTop
    (hfits.passes hinv h₁)) fun code s₂ h₂ => ?_
  refine uninstallNames_ensures.bind fun _ s₃ hs₃ => Ensures.modify_bind (Ensures.of_pure ?_)
  subst hs₃
  have hp := h₁.trans h₂.1
  have hcode : CodeOk {0} 0 Set.univ 0 s₂ (.seq fill code) :=
    (hfill _ _ _ _ s₂ (hfreeTop.trans (h₂.1.top h₁.inv)) fun _ _ => trivial).seq h₂.2
  intro c hc
  by_cases h0 : c = 0
  · subst h0
    rw [BlockOk, Arena.get_modify_self]
    exact ⟨hcode.slots, hcode.loops.setCode 0 (by exact fun _ => rfl) _⟩
  · rw [BlockOk, Arena.get_modify_of_ne _ h0]
    obtain ⟨hs, hl⟩ := hp.blocks c (by rw [hsize]; omega) hc
    exact ⟨hs, hl.setCode 0 (by exact fun _ => rfl) _⟩

theorem limitBefore_replaceImmutableGets (isImmutable : ℕ → Bool) (c c' : Code) :
    (replaceImmutableGets isImmutable c).limitBefore (replaceImmutableGets isImmutable c') =
      (c.limitBefore c').map fun l => (l.1, replaceImmutableGets isImmutable l.2) := by
  cases c' with
  | op i =>
    cases i with
    | upvalueGetMutable ord output =>
      rw [replaceImmutableGets]
      split <;> rfl
    | _ => rfl
  | _ => rfl

/-- **Immutable reads keep the shape of the code**: the same slots, the same touches, and the loops
and their limits at the same places. -/
theorem replaceImmutableGets_same (isImmutable : ℕ → Bool) (c : Code) :
    (replaceImmutableGets isImmutable c).slots = c.slots ∧
      (replaceImmutableGets isImmutable c).touches = c.touches ∧
      (replaceImmutableGets isImmutable c).loops =
        c.loops.map (fun l => (l.1, replaceImmutableGets isImmutable l.2)) ∧
      (replaceImmutableGets isImmutable c).limits =
        c.limits.map fun l => (l.1, replaceImmutableGets isImmutable l.2) := by
  induction c with
  | empty => exact ⟨rfl, rfl, rfl, rfl⟩
  | op i =>
    cases i with
    | upvalueGetMutable ord output =>
      rw [replaceImmutableGets]
      split <;> exact ⟨rfl, rfl, rfl, rfl⟩
    | _ => exact ⟨rfl, rfl, rfl, rfl⟩
  | seq c c' ih ih' =>
    simp [replaceImmutableGets, Code.slots, Code.touches, Code.loops, Code.limits,
      limitBefore_replaceImmutableGets, ih, ih']
  | branch b body ih =>
    simp [replaceImmutableGets, Code.slots, Code.touches, Code.loops, Code.limits, ih]
  | branchElse b body other ih ih' =>
    simp [replaceImmutableGets, Code.slots, Code.touches, Code.loops, Code.limits, ih, ih']
  | whileLoop cond exit body ih ih' =>
    simp [replaceImmutableGets, Code.slots, Code.touches, Code.loops, Code.limits, ih, ih']
  | forLoop downto base body ih =>
    simp [replaceImmutableGets, Code.slots, Code.touches, Code.loops, Code.limits, ih]
  | inlined start free body ih =>
    simp [replaceImmutableGets, Code.slots, Code.touches, Code.loops, Code.limits, ih]
  | result start free value ih =>
    simp [replaceImmutableGets, Code.slots, Code.touches, Code.loops, Code.limits, ih]
  | assign slot rhs ih =>
    simp [replaceImmutableGets, Code.slots, Code.touches, Code.loops, Code.limits, ih]

theorem compileMethod_blockOk {env : MethodEnv} {fuel : ℕ} {meth : AstMethod}
    {blocks : Arena UnlinkedCodeBlock} {s : TranslationState}
    (h : compileMethod env fuel meth = .ok (blocks, s)) :
    ∃ triviality, blocks = ⟨s.ctxs.size, finishCodeBlock s triviality⟩ ∧
      ∀ c < s.ctxs.size, BlockOk {0} s c :=
  compileMethod_of_ensures (compileMethodM_blockOk env fuel meth) h

theorem lt_stackFrameNumSlots {env : MethodEnv} {fuel : ℕ} {meth : AstMethod}
    {blocks : Arena UnlinkedCodeBlock} {s : TranslationState}
    (h : compileMethod env fuel meth = .ok (blocks, s)) {c slot : ℕ} (hc : c < blocks.size)
    (hs : slot ∈ (blocks.get c).bytecode.slots) : slot < (blocks.get c).stackFrameNumSlots := by
  obtain ⟨triviality, rfl, hblocks⟩ := compileMethod_blockOk h
  simp only [finishCodeBlock, (replaceImmutableGets_same _ _).1] at hs
  exact Nat.lt_succ_of_le ((hblocks c hc).1 slot hs)

/-- **The frame of every code block covers all slots its bytecode names.** -/
theorem compileMethod_slots_lt {env : MethodEnv} {fuel : ℕ} {meth : AstMethod}
    {blocks : Arena UnlinkedCodeBlock} {s : TranslationState}
    (h : compileMethod env fuel meth = .ok (blocks, s)) :
    ∀ c < blocks.size, ∀ slot ∈ (blocks.get c).bytecode.slots,
      slot < (blocks.get c).stackFrameNumSlots :=
  fun _ hc _ hs => lt_stackFrameNumSlots h hc hs

/-- A method `x | y | y := x to: 3 do: [ :i | self foo: i bar: [ i ] ]`. -/
def nestedFrames : AstMethod where
  params := ["x"]
  locals := ["y"]
  body := [.assignation ["y"] (.keywordCall "to:do:" (.varUse "x")
    [.literal (.integer 3), .nestedBlock ["i"] [] [.keywordCall "foo:bar:" (.varUse "self")
      [.varUse "i", .nestedBlock [] [] [.varUse "i"]]]])]

theorem compileMethod_slots_lt_nestedFrames :
    ∃ blocks s, compileMethod ⟨fun _ => none, true, fun _ => 0⟩ 20 nestedFrames = .ok (blocks, s) ∧
      (blocks.get 0).stackFrameNumSlots = 14 ∧ 13 ∈ (blocks.get 0).bytecode.slots ∧
      ∀ c < blocks.size, ∀ slot ∈ (blocks.get c).bytecode.slots,
        slot < (blocks.get c).stackFrameNumSlots := by
  have hrun : (match compileMethod ⟨fun _ => none, true, fun _ => 0⟩ 20 nestedFrames with
      | .ok (blocks, _) => decide ((blocks.get 0).stackFrameNumSlots = 14 ∧
          13 ∈ (blocks.get 0).bytecode.slots)
      | .error _ => false) = true := by decide +kernel
  cases h : compileMethod ⟨fun _ => none, true, fun _ => 0⟩ 20 nestedFrames with
  | error e => simp [h] at hrun
  | ok r =>
    rw [h] at hrun
    obtain ⟨h₁, h₂⟩ := of_decide_eq_true hrun
    exact ⟨r.1, r.2, rfl, h₁, h₂, compileMethod_slots_lt h⟩

/-! ## The two slots of a loop -/

/-- Leaves the `size` slots from `base` on alone. -/
def Touch.Spares (blocks : Arena UnlinkedCodeBlock) (base size : ℕ) : Touch → Prop
  | .write slot => slot ∈ roomAround base size
  | .frame b => base + size ≤ b
  | .closure c =>
    ∀ uv ∈ (blocks.get c).upvalueInfo, uv.isParentLocal → uv.slot ∈ roomAround base size

/-- In the finished code blocks, code spares what it is within during the compilation. -/
theorem Touch.Within.spares {E : Set ℕ} {s : TranslationState} {triviality : Triviality}
    {base size : ℕ} {t : Touch} (h : t.Within E s (roomAround base size) (base + size)) :
    t.Spares ⟨s.ctxs.size, finishCodeBlock s triviality⟩ base size := by
  cases t with
  | write slot => exact h
  | frame b => exact h
  | closure d =>
    intro uv huv hlocal
    obtain ⟨u, hu, rfl⟩ := List.mem_map.mp huv
    exact h.2.2 _ ⟨u, hu, hlocal, rfl⟩

/-- **The body of a compiled loop spares the loop's slots.** -/
theorem compileMethod_loops {env : MethodEnv} {fuel : ℕ} {meth : AstMethod}
    {blocks : Arena UnlinkedCodeBlock} {s : TranslationState}
    (h : compileMethod env fuel meth = .ok (blocks, s)) {c base : ℕ} {body : Code}
    (hc : c < blocks.size) (hl : (base, body) ∈ (blocks.get c).bytecode.loops) :
    ∀ t ∈ body.touches, t.Spares blocks base 2 := by
  obtain ⟨triviality, rfl, hblocks⟩ := compileMethod_blockOk h
  simp only [finishCodeBlock, (replaceImmutableGets_same _ _).2.2.1] at hl
  obtain ⟨⟨base', body'⟩, hmem, heq⟩ := List.mem_map.mp hl
  cases heq
  intro t ht
  rw [(replaceImmutableGets_same _ _).2.1] at ht
  exact ((hblocks c hc).2.body _ hmem t ht).spares

/-- **The limit of a compiled loop is evaluated without the counter.** -/
theorem compileMethod_limits {env : MethodEnv} {fuel : ℕ} {meth : AstMethod}
    {blocks : Arena UnlinkedCodeBlock} {s : TranslationState}
    (h : compileMethod env fuel meth = .ok (blocks, s)) {c base : ℕ} {limit : Code}
    (hc : c < blocks.size) (hl : (base, limit) ∈ (blocks.get c).bytecode.limits) :
    ∀ t ∈ limit.touches, t.Spares blocks base 1 := by
  obtain ⟨triviality, rfl, hblocks⟩ := compileMethod_blockOk h
  simp only [finishCodeBlock, (replaceImmutableGets_same _ _).2.2.2] at hl
  obtain ⟨⟨base', limit'⟩, hmem, heq⟩ := List.mem_map.mp hl
  cases heq
  intro t ht
  rw [(replaceImmutableGets_same _ _).2.1] at ht
  exact ((hblocks c hc).2.limit _ hmem t ht).spares

/-- A loop names its three slots. -/
theorem mem_slots_of_mem_loops {base : ℕ} {body : Code} {c : Code} (h : (base, body) ∈ c.loops) :
    base + 2 ∈ c.slots := by
  induction c with
  | empty => cases h
  | op i => cases h
  | seq c c' ih ih' =>
    rcases List.mem_append.mp h with h | h
    · exact List.mem_append_left _ (ih h)
    · exact List.mem_append_right _ (ih' h)
  | branch b c ih => exact List.mem_append_right _ (ih h)
  | branchElse b c c' ih ih' =>
    rcases List.mem_append.mp h with h | h
    · exact List.mem_append_right _ (List.mem_append_left _ (ih h))
    · exact List.mem_append_right _ (List.mem_append_right _ (ih' h))
  | whileLoop c exit c' ih ih' =>
    rcases List.mem_append.mp h with h | h
    · exact List.mem_append_left _ (ih h)
    · exact List.mem_append_right _ (List.mem_append_right _ (ih' h))
  | forLoop downto b c ih =>
    rcases List.mem_cons.mp h with h | h
    · cases h
      simp [Code.slots]
    · simp [Code.slots, ih h]
  | inlined start free c ih => exact ih h
  | result start free c ih => exact ih h
  | assign slot c ih => exact ih h

end Dsom
