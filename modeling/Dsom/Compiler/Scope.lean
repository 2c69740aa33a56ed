import Dsom.Compiler.Compile
import Dsom.Foundations.Ensures
import Mathlib.Order.Basic
import Mathlib.Order.Nat

/-!
# Compiler/Scope — the scopes during a compilation

What holds of the objects `CompileMethod` allocates, at every moment: `Wf` of the arenas, `Here ctx
bctx` of the place the compiler has reached, and `Ext` between a moment and a later one in the same
scope.  `Keeps` says that a computation of the compiler preserves all of it; it composes, so each
compile function is followed along its text.
-/

namespace Dsom

/-! ## Lexical scoping

Stated by the tree of blocks alone.  The map of names that the compiler works with is compared with
it by the invariant. -/

/-- The declarations visible in a scope, innermost first. -/
def scopeChain (s : TranslationState) : ℕ → ℕ → List (String × ℕ)
  | 0, _ => []
  | fuel + 1, b => (s.bctxs.get b).declares ++
    match (s.bctxs.get b).lexicalParent with
    | some p => scopeChain s fuel p
    | none => []

/-- The declarations in sight from a block, innermost first. -/
def declarations (s : TranslationState) (b : ℕ) : List (String × ℕ) := scopeChain s (b + 1) b

/-- **The innermost lexically enclosing declaration of a name.** -/
def innermost (s : TranslationState) (b : ℕ) (name : String) : Option ℕ :=
  ((declarations s b).find? fun x => x.1 = name).map Prod.snd

/-- A variable some name of the scope or of an outer one may mean. -/
def Visible (s : TranslationState) (b var : ℕ) : Prop := ∃ name, (name, var) ∈ declarations s b

/-- The real block or method whose frame a variable lives in. -/
def homeOf (s : TranslationState) (var : ℕ) : ℕ := (s.bctxs.get (s.vars.get var).bctx).owningContext

/-! ## Well-formed arenas

What is true of the blocks, methods, variables and upvalues at every moment of a compilation. -/

/-- One upvalue of the block `b`: where its parent finds the variable.  The variable is visible
where the block stands, and its scope knows that it is captured. -/
def UvOk (s : TranslationState) (b : ℕ) (uv : UVInfo) : Prop :=
  ∃ p, (s.bctxs.get b).trueParent = some p ∧
    match uv.varInfo with
    | none => uv.isParentLocal = true ∧ uv.slot = 0
    | some var => (var < s.vars.size ∧ (s.bctxs.get (s.vars.get var).bctx).hasCapturedLocal ∧
        ∃ q, (s.bctxs.get b).lexicalParent = some q ∧ Visible s q var) ∧
      if uv.isParentLocal then p = homeOf s var ∧ uv.slot = (s.vars.get var).slotOrd
      else ∃ uv', (s.bctxs.get p).uvs[uv.slot]? = some uv' ∧ uv'.varInfo = some var

/-- A recorded use: its upvalue is the one of the innermost declaration. -/
def ResolvedOk (s : TranslationState) (r : Resolution) : Prop :=
  r.ctx < s.ctxs.size ∧ r.bctx < s.bctxs.size ∧
    (s.ctxs.get r.ctx).resultBCtx = (s.bctxs.get r.bctx).owningContext ∧
    ∃ var, innermost s r.bctx r.name = some var ∧ var < s.vars.size ∧
      ∃ uv, (s.bctxs.get (s.bctxs.get r.bctx).owningContext).uvs[r.ord]? = some uv ∧
        uv.varInfo = some var

/-- The scope of a block: it is inlined into its lexical parent, or owns a frame. -/
def ScopeOk (s : TranslationState) (b : ℕ) : Prop :=
  (∀ p, (s.bctxs.get b).lexicalParent = some p → p < b) ∧
    (s.bctxs.get b).owningContext ≤ b ∧
    (s.bctxs.get (s.bctxs.get b).owningContext).owningContext = (s.bctxs.get b).owningContext ∧
    if (s.bctxs.get b).owningContext = b then
      (s.bctxs.get b).trueParent =
        (s.bctxs.get b).lexicalParent.map fun p => (s.bctxs.get p).owningContext
    else ∃ p, (s.bctxs.get b).lexicalParent = some p ∧
      (s.bctxs.get p).owningContext = (s.bctxs.get b).owningContext ∧
      (s.bctxs.get p).trueParent = (s.bctxs.get b).trueParent

/-- A code block: its scope owns its frame, and so does the scope of its parent. -/
def CtxOk (s : TranslationState) (c : ℕ) : Prop :=
  (s.ctxs.get c).resultBCtx < s.bctxs.size ∧
    (s.bctxs.get (s.ctxs.get c).resultBCtx).owningContext = (s.ctxs.get c).resultBCtx ∧
    (∀ p, (s.ctxs.get c).parent = some p → p < c) ∧
    (s.bctxs.get (s.ctxs.get c).resultBCtx).trueParent =
      (s.ctxs.get c).parent.map fun p => (s.ctxs.get p).resultBCtx

/-- **The arenas are well-formed.** -/
structure Wf (s : TranslationState) : Prop where
  scope : ∀ b < s.bctxs.size, ScopeOk s b
  var : ∀ v < s.vars.size, (s.vars.get v).bctx < s.bctxs.size
  declares : ∀ b < s.bctxs.size, ∀ x ∈ (s.bctxs.get b).declares,
    x.2 < s.vars.size ∧ (s.vars.get x.2).bctx = b
  uv : ∀ b < s.bctxs.size, ∀ uv ∈ (s.bctxs.get b).uvs, UvOk s b uv
  ctx : ∀ c < s.ctxs.size, CtxOk s c
  ctx_inj : ∀ c < s.ctxs.size, ∀ c' < s.ctxs.size,
    (s.ctxs.get c).resultBCtx = (s.ctxs.get c').resultBCtx → c = c'
  resolved : ∀ r ∈ s.resolutions, ResolvedOk s r

/-- Every variable has a slot below the top of its frame. -/
def TopOk (s : TranslationState) : Prop :=
  ∀ c < s.ctxs.size, ∀ v < s.vars.size, homeOf s v = (s.ctxs.get c).resultBCtx →
    (s.vars.get v).slotOrd ≤ (s.ctxs.get c).historyTopSlot

/-- **Where the compiler is**: the code block owns the frame of the scope, and the name map holds
exactly the visible declarations. -/
structure Here (ctx bctx : ℕ) (s : TranslationState) : Prop where
  ctx_lt : ctx < s.ctxs.size
  bctx_lt : bctx < s.bctxs.size
  owner : (s.ctxs.get ctx).resultBCtx = (s.bctxs.get bctx).owningContext
  map : ∀ name, s.localVarMap name =
    ((declarations s bctx).filter fun x => x.1 = name).map Prod.snd

/-- `E` has the blocks around the scope `bctx`, the one that owns its frame included. -/
structure Encloses (E : Set ℕ) (bctx : ℕ) (s : TranslationState) : Prop where
  owner : (s.bctxs.get bctx).owningContext ∈ E
  lt : ∀ b ∈ E, b < s.bctxs.size
  parent : ∀ b ∈ E, ∀ p, (s.bctxs.get b).trueParent = some p → p ∈ E

/-- What every step of the translation of a body keeps. -/
structure Inv (E : Set ℕ) (ctx bctx : ℕ) (s : TranslationState) : Prop where
  wf : Wf s
  top : TopOk s
  here : Here ctx bctx s
  encloses : Encloses E bctx s

/-! ## Growth

The arenas are only added to, and what is fixed when a block is made stays so. -/

/-- What never changes about a scope: all but its flags and its upvalues. -/
def BlockTranslationContext.shape (b : BlockTranslationContext) : BlockTranslationContext :=
  { b with
    hasCapturedLocal := false
    containsThrowableBlocks := false
    blockMayThrow := false
    uvs := [] }

/-- What existed before is still there: variables and scopes keep their place, upvalues are only
added, flags are only raised, and a variable can only lose its immutability. -/
structure Grows (s s' : TranslationState) : Prop where
  vars_le : s.vars.size ≤ s'.vars.size
  bctxs_le : s.bctxs.size ≤ s'.bctxs.size
  ctxs_le : s.ctxs.size ≤ s'.ctxs.size
  var : ∀ v < s.vars.size, (s'.vars.get v).bctx = (s.vars.get v).bctx ∧
    (s'.vars.get v).slotOrd = (s.vars.get v).slotOrd
  isUsed : ∀ v < s.vars.size, (s.vars.get v).isUsed → (s'.vars.get v).isUsed
  isImmutable : ∀ v < s.vars.size, (s'.vars.get v).isImmutable → (s.vars.get v).isImmutable
  shape : ∀ b < s.bctxs.size, (s'.bctxs.get b).shape = (s.bctxs.get b).shape
  uvs : ∀ b < s.bctxs.size, (s.bctxs.get b).uvs <+: (s'.bctxs.get b).uvs
  hasCapturedLocal : ∀ b < s.bctxs.size,
    (s.bctxs.get b).hasCapturedLocal → (s'.bctxs.get b).hasCapturedLocal
  containsThrowableBlocks : ∀ b < s.bctxs.size,
    (s.bctxs.get b).containsThrowableBlocks → (s'.bctxs.get b).containsThrowableBlocks
  blockMayThrow : ∀ b < s.bctxs.size,
    (s.bctxs.get b).blockMayThrow → (s'.bctxs.get b).blockMayThrow
  ctx : ∀ c < s.ctxs.size, (s'.ctxs.get c).parent = (s.ctxs.get c).parent ∧
    (s'.ctxs.get c).resultBCtx = (s.ctxs.get c).resultBCtx ∧
    (s.ctxs.get c).historyTopSlot ≤ (s'.ctxs.get c).historyTopSlot

/-- A later moment: outside of `E` no block has got new upvalues, and the code of the blocks that
are done is as it was. -/
structure Later (E : Set ℕ) (s s' : TranslationState) : Prop extends Grows s s' where
  calm : ∀ b < s.bctxs.size, b ∉ E → (s'.bctxs.get b).uvs = (s.bctxs.get b).uvs
  code : ∀ c < s.ctxs.size, (s'.ctxs.get c).fnKind = (s.ctxs.get c).fnKind ∧
    (s'.ctxs.get c).bytecode = (s.ctxs.get c).bytecode

/-- A later moment in the same scope. -/
structure Ext (E : Set ℕ) (s s' : TranslationState) : Prop extends Later E s s' where
  map : s'.localVarMap = s.localVarMap

section Growth

variable {s s' s₁ s₂ s₃ : TranslationState} {b : ℕ}

theorem Grows.startSlot (h : Grows s s') (hb : b < s.bctxs.size) :
    (s'.bctxs.get b).startSlot = (s.bctxs.get b).startSlot :=
  (congrArg BlockTranslationContext.startSlot (h.shape b hb) :)

theorem Grows.lexicalParent (h : Grows s s') (hb : b < s.bctxs.size) :
    (s'.bctxs.get b).lexicalParent = (s.bctxs.get b).lexicalParent :=
  (congrArg BlockTranslationContext.lexicalParent (h.shape b hb) :)

theorem Grows.owningContext (h : Grows s s') (hb : b < s.bctxs.size) :
    (s'.bctxs.get b).owningContext = (s.bctxs.get b).owningContext :=
  (congrArg BlockTranslationContext.owningContext (h.shape b hb) :)

theorem Grows.trueParent (h : Grows s s') (hb : b < s.bctxs.size) :
    (s'.bctxs.get b).trueParent = (s.bctxs.get b).trueParent :=
  (congrArg BlockTranslationContext.trueParent (h.shape b hb) :)

theorem Grows.declares (h : Grows s s') (hb : b < s.bctxs.size) :
    (s'.bctxs.get b).declares = (s.bctxs.get b).declares :=
  (congrArg BlockTranslationContext.declares (h.shape b hb) :)

/-- Nothing has to change. -/
theorem Grows.refl (s : TranslationState) : Grows s s where
  vars_le := le_refl _
  bctxs_le := le_refl _
  ctxs_le := le_refl _
  var _ _ := ⟨rfl, rfl⟩
  isUsed _ _ := id
  isImmutable _ _ := id
  shape _ _ := rfl
  uvs _ _ := List.prefix_refl _
  hasCapturedLocal _ _ := id
  containsThrowableBlocks _ _ := id
  blockMayThrow _ _ := id
  ctx _ _ := ⟨rfl, rfl, le_refl _⟩

theorem Grows.trans (h : Grows s₁ s₂) (h' : Grows s₂ s₃) : Grows s₁ s₃ := by
  have hv {v : ℕ} (hv : v < s₁.vars.size) := hv.trans_le h.vars_le
  have hb {b : ℕ} (hb : b < s₁.bctxs.size) := hb.trans_le h.bctxs_le
  exact
    { vars_le := h.vars_le.trans h'.vars_le
      bctxs_le := h.bctxs_le.trans h'.bctxs_le
      ctxs_le := h.ctxs_le.trans h'.ctxs_le
      var := fun v hlt => ⟨(h'.var v (hv hlt)).1.trans (h.var v hlt).1,
        (h'.var v (hv hlt)).2.trans (h.var v hlt).2⟩
      isUsed := fun v hlt hu => h'.isUsed v (hv hlt) (h.isUsed v hlt hu)
      isImmutable := fun v hlt hi => h.isImmutable v hlt (h'.isImmutable v (hv hlt) hi)
      shape := fun b hlt => (h'.shape b (hb hlt)).trans (h.shape b hlt)
      uvs := fun b hlt => (h.uvs b hlt).trans (h'.uvs b (hb hlt))
      hasCapturedLocal := fun b hlt hf =>
        h'.hasCapturedLocal b (hb hlt) (h.hasCapturedLocal b hlt hf)
      containsThrowableBlocks := fun b hlt hf =>
        h'.containsThrowableBlocks b (hb hlt) (h.containsThrowableBlocks b hlt hf)
      blockMayThrow := fun b hlt hf => h'.blockMayThrow b (hb hlt) (h.blockMayThrow b hlt hf)
      ctx := fun c hlt => by
        obtain ⟨h₁, h₂, h₃⟩ := h.ctx c hlt
        obtain ⟨h₁', h₂', h₃'⟩ := h'.ctx c (hlt.trans_le h.ctxs_le)
        exact ⟨h₁'.trans h₁, h₂'.trans h₂, h₃.trans h₃'⟩ }

theorem Later.refl (E : Set ℕ) (s : TranslationState) : Later E s s :=
  ⟨Grows.refl s, fun _ _ _ => rfl, fun _ _ => ⟨rfl, rfl⟩⟩

/-- The second part of the way may touch other blocks, if they are new. -/
theorem Later.trans {E E' : Set ℕ} (h : Later E s₁ s₂) (h' : Later E' s₂ s₃)
    (hE : ∀ b < s₁.bctxs.size, b ∈ E' → b ∈ E) : Later E s₁ s₃ where
  toGrows := h.toGrows.trans h'.toGrows
  calm b hb hb' := (h'.calm b (hb.trans_le h.bctxs_le) fun hE' => hb' (hE b hb hE')).trans
    (h.calm b hb hb')
  code c hc := by
    obtain ⟨h₁, h₂⟩ := h.code c hc
    obtain ⟨h₁', h₂'⟩ := h'.code c (hc.trans_le h.ctxs_le)
    exact ⟨h₁'.trans h₁, h₂'.trans h₂⟩

theorem Ext.refl (E : Set ℕ) (s : TranslationState) : Ext E s s := ⟨Later.refl E s, rfl⟩

theorem Ext.trans {E : Set ℕ} (h : Ext E s₁ s₂) (h' : Ext E s₂ s₃) : Ext E s₁ s₃ :=
  ⟨h.toLater.trans h'.toLater fun _ _ => id, h'.map.trans h.map⟩

end Growth

section Stability

variable {s s' : TranslationState}

/-- The declarations seen from a scope depend on nothing younger. -/
theorem scopeChain_congr {n : ℕ}
    (hs : ∀ b < n, ∀ p, (s.bctxs.get b).lexicalParent = some p → p < b)
    (h : ∀ b < n, (s'.bctxs.get b).lexicalParent = (s.bctxs.get b).lexicalParent ∧
      (s'.bctxs.get b).declares = (s.bctxs.get b).declares) :
    ∀ (fuel : ℕ) {b : ℕ}, b < n → scopeChain s' fuel b = scopeChain s fuel b
  | 0, _, _ => rfl
  | fuel + 1, b, hb => by
    obtain ⟨h₁, h₂⟩ := h b hb
    simp only [scopeChain, h₁, h₂]
    cases hp : (s.bctxs.get b).lexicalParent with
    | none => rfl
    | some p =>
      have hpb := hs b hb p hp
      simp only [scopeChain_congr hs h fuel (hpb.trans hb)]

/-- What a block sees does not change. -/
theorem Grows.declarations (h : Grows s s') (hw : Wf s) {b : ℕ} (hb : b < s.bctxs.size) :
    declarations s' b = declarations s b :=
  scopeChain_congr (fun b hb => (hw.scope b hb).1)
    (fun _ hb => ⟨h.lexicalParent hb, h.declares hb⟩) _ hb

/-- More fuel than scopes changes nothing. -/
theorem scopeChain_fuel
    (hs : ∀ b < s.bctxs.size, ∀ p, (s.bctxs.get b).lexicalParent = some p → p < b) :
    ∀ (b : ℕ), b < s.bctxs.size → ∀ fuel, b < fuel → scopeChain s fuel b = declarations s b := by
  intro b
  induction b using Nat.strong_induction_on with
  | _ b ih =>
    intro hb fuel hf
    obtain ⟨fuel, rfl⟩ : ∃ f, fuel = f + 1 := ⟨fuel - 1, by omega⟩
    simp only [scopeChain, Dsom.declarations]
    cases hp : (s.bctxs.get b).lexicalParent with
    | none => rfl
    | some p =>
      have hpb := hs b hb p hp
      simp only [ih p hpb (hpb.trans hb) fuel (by omega), ih p hpb (hpb.trans hb) b hpb]

/-- A block sees its own declarations, then those its parent sees. -/
theorem declarations_eq (hw : Wf s) {b : ℕ} (hb : b < s.bctxs.size) :
    declarations s b = (s.bctxs.get b).declares ++
      match (s.bctxs.get b).lexicalParent with
      | some p => declarations s p
      | none => [] := by
  rw [declarations, scopeChain]
  cases hp : (s.bctxs.get b).lexicalParent with
  | none => rfl
  | some p =>
    have hpb := (hw.scope b hb).1 p hp
    simp only [scopeChain_fuel (fun b hb => (hw.scope b hb).1) p (hpb.trans hb) b hpb]

/-- The method of a variable does not change. -/
theorem Grows.homeOf (h : Grows s s') (hw : Wf s) {v : ℕ} (hv : v < s.vars.size) :
    homeOf s' v = homeOf s v := by
  have hb := hw.var v hv
  rw [Dsom.homeOf, Dsom.homeOf, (h.var v hv).1, h.owningContext hb]

theorem List.IsPrefix.getElem?_some {α : Type} {l l' : List α} (h : l <+: l') {i : ℕ} {a : α}
    (ha : l[i]? = some a) : l'[i]? = some a := by
  obtain ⟨t, rfl⟩ := h
  have hi := (List.getElem?_eq_some_iff.mp ha).1
  rw [List.getElem?_append_left hi, ha]

/-- An inlined block shares the true parent of the block that owns its frame. -/
theorem Wf.trueParent_owner (hw : Wf s) : ∀ {b : ℕ}, b < s.bctxs.size →
    (s.bctxs.get (s.bctxs.get b).owningContext).trueParent = (s.bctxs.get b).trueParent := by
  intro b
  induction b using Nat.strong_induction_on with
  | _ b ih =>
    intro hb
    obtain ⟨hlt, -, -, hscope⟩ := hw.scope b hb
    by_cases howner : (s.bctxs.get b).owningContext = b
    · rw [howner]
    · rw [if_neg howner] at hscope
      obtain ⟨p, hp, hpo, hpt⟩ := hscope
      rw [← hpo, ih p (hlt p hp) ((hlt p hp).trans hb), hpt]

/-- The true parent is older, and owns its frame. -/
theorem Wf.trueParent_lt (hw : Wf s) {b p : ℕ} (hb : b < s.bctxs.size)
    (hp : (s.bctxs.get b).trueParent = some p) : p < b ∧ (s.bctxs.get p).owningContext = p := by
  obtain ⟨-, hle, hidem, -⟩ := hw.scope b hb
  rw [← hw.trueParent_owner hb] at hp
  generalize (s.bctxs.get b).owningContext = o at hle hidem hp
  obtain ⟨hlt, -, -, hscope⟩ := hw.scope o (hle.trans_lt hb)
  rw [if_pos hidem, hp] at hscope
  obtain ⟨q, hq, rfl⟩ := Option.map_eq_some_iff.mp hscope.symm
  have hqo := hlt q hq
  obtain ⟨-, hqle, hqidem, -⟩ := hw.scope q (hqo.trans (hle.trans_lt hb))
  exact ⟨(hqle.trans_lt hqo).trans_le hle, hqidem⟩

/-- A variable in sight stays in sight. -/
theorem Grows.visible (h : Grows s s') (hw : Wf s) {b : ℕ} (hb : b < s.bctxs.size) {var : ℕ}
    (hv : Visible s b var) : Visible s' b var := by
  obtain ⟨name, hmem⟩ := hv
  exact ⟨name, by rwa [h.declarations hw hb]⟩

/-- An upvalue stays good. -/
theorem Grows.uvOk (h : Grows s s') (hw : Wf s) {b : ℕ} (hb : b < s.bctxs.size) {uv : UVInfo}
    (hu : UvOk s b uv) : UvOk s' b uv := by
  obtain ⟨p, hparent, hu⟩ := hu
  have hp := (hw.trueParent_lt hb hparent).1
  refine ⟨p, (h.trueParent hb).trans hparent, ?_⟩
  cases hvar : uv.varInfo with
  | none => simpa [hvar] using hu
  | some var =>
    simp only [hvar] at hu ⊢
    obtain ⟨⟨hv, hcaptured, q, hq, hvisible⟩, hu⟩ := hu
    refine ⟨⟨hv.trans_le h.vars_le, ?_, q, (h.lexicalParent hb).trans hq, ?_⟩, ?_⟩
    · rw [(h.var var hv).1]
      exact h.hasCapturedLocal _ (hw.var var hv) hcaptured
    · exact h.visible hw (((hw.scope b hb).1 q hq).trans hb) hvisible
    · by_cases hloc : uv.isParentLocal
      · rw [if_pos hloc] at hu ⊢
        rw [h.homeOf hw hv, (h.var var hv).2]
        exact hu
      · rw [if_neg hloc] at hu ⊢
        obtain ⟨uv', hget, hvar'⟩ := hu
        exact ⟨uv', List.IsPrefix.getElem?_some (h.uvs p (hp.trans hb)) hget, hvar'⟩

/-- A scope stays well formed. -/
theorem Grows.scopeOk (h : Grows s s') (hw : Wf s) {b : ℕ} (hb : b < s.bctxs.size) :
    ScopeOk s' b := by
  obtain ⟨hlt, hle, hidem, hscope⟩ := hw.scope b hb
  refine ⟨by rwa [h.lexicalParent hb], by rwa [h.owningContext hb], ?_, ?_⟩
  · rw [h.owningContext hb, h.owningContext (hle.trans_lt hb), hidem]
  · rw [h.owningContext hb]
    split at hscope
    next howner =>
      rw [if_pos howner, h.lexicalParent hb, h.trueParent hb, hscope]
      cases hp : (s.bctxs.get b).lexicalParent with
      | none => rfl
      | some p => simp [h.owningContext ((hlt p hp).trans hb)]
    next howner =>
      obtain ⟨p, hp, hpo, hpt⟩ := hscope
      have hpb := (hlt p hp).trans hb
      rw [if_neg howner]
      exact ⟨p, (h.lexicalParent hb).trans hp, (h.owningContext hpb).trans hpo,
        (h.trueParent hpb).trans (hpt.trans (h.trueParent hb).symm)⟩

/-- A method stays well formed. -/
theorem Grows.ctxOk (h : Grows s s') (hw : Wf s) {c : ℕ} (hc : c < s.ctxs.size) : CtxOk s' c := by
  obtain ⟨hr, howner, hlt, ht⟩ := hw.ctx c hc
  obtain ⟨hparent, hres, -⟩ := h.ctx c hc
  refine ⟨?_, ?_, by rwa [hparent], ?_⟩
  · rw [hres]
    exact hr.trans_le h.bctxs_le
  · rw [hres, h.owningContext hr, howner]
  · rw [hres, h.trueParent hr, ht, hparent]
    cases hp : (s.ctxs.get c).parent with
    | none => rfl
    | some p => simp [(h.ctx p ((hlt p hp).trans hc)).2.1]

/-- A resolution stays right. -/
theorem Grows.resolvedOk (h : Grows s s') (hw : Wf s) {r : Resolution} (hr : ResolvedOk s r) :
    ResolvedOk s' r := by
  obtain ⟨hc, hb, howner, var, hinner, hvar, uv, hget, huv⟩ := hr
  have hlt := ((hw.scope _ hb).2.1).trans_lt hb
  refine ⟨hc.trans_le h.ctxs_le, hb.trans_le h.bctxs_le, ?_, var, ?_, hvar.trans_le h.vars_le,
    uv, ?_, huv⟩
  · rw [(h.ctx _ hc).2.1, h.owningContext hb, howner]
  · rw [innermost, h.declarations hw hb]
    exact hinner
  · rw [h.owningContext hb]
    exact List.IsPrefix.getElem?_some (h.uvs _ hlt) hget

/-- **Well-formedness survives growth**, if what is new is well-formed. -/
theorem Wf.grow (hw : Wf s) (h : Grows s s')
    (hscope : ∀ b < s'.bctxs.size, s.bctxs.size ≤ b → ScopeOk s' b)
    (hvar : ∀ v < s'.vars.size, s.vars.size ≤ v → (s'.vars.get v).bctx < s'.bctxs.size)
    (hdeclares : ∀ b < s'.bctxs.size, s.bctxs.size ≤ b → ∀ x ∈ (s'.bctxs.get b).declares,
      x.2 < s'.vars.size ∧ (s'.vars.get x.2).bctx = b)
    (huv : ∀ b < s'.bctxs.size, ∀ uv ∈ (s'.bctxs.get b).uvs,
      b < s.bctxs.size ∧ uv ∈ (s.bctxs.get b).uvs ∨ UvOk s' b uv)
    (hctx : ∀ c < s'.ctxs.size, s.ctxs.size ≤ c → CtxOk s' c)
    (hinj : ∀ c < s'.ctxs.size, s.ctxs.size ≤ c → ∀ c' < s'.ctxs.size,
      (s'.ctxs.get c).resultBCtx = (s'.ctxs.get c').resultBCtx → c = c')
    (hresolved : ∀ r ∈ s'.resolutions, r ∈ s.resolutions ∨ ResolvedOk s' r) : Wf s' where
  scope b hb := by
    rcases lt_or_ge b s.bctxs.size with hlt | hge
    · exact h.scopeOk hw hlt
    · exact hscope b hb hge
  var v hv := by
    rcases lt_or_ge v s.vars.size with hlt | hge
    · rw [(h.var v hlt).1]
      exact (hw.var v hlt).trans_le h.bctxs_le
    · exact hvar v hv hge
  declares b hb x hx := by
    rcases lt_or_ge b s.bctxs.size with hlt | hge
    · rw [h.declares hlt] at hx
      obtain ⟨hx₁, hx₂⟩ := hw.declares b hlt x hx
      exact ⟨hx₁.trans_le h.vars_le, (h.var _ hx₁).1.trans hx₂⟩
    · exact hdeclares b hb hge x hx
  uv b hb uv hu := by
    rcases huv b hb uv hu with ⟨hlt, hold⟩ | hnew
    · exact h.uvOk hw hlt (hw.uv b hlt uv hold)
    · exact hnew
  ctx c hc := by
    rcases lt_or_ge c s.ctxs.size with hlt | hge
    · exact h.ctxOk hw hlt
    · exact hctx c hc hge
  ctx_inj c hc c' hc' heq := by
    rcases lt_or_ge c s.ctxs.size with hlt | hge
    · rcases lt_or_ge c' s.ctxs.size with hlt' | hge'
      · rw [(h.ctx c hlt).2.1, (h.ctx c' hlt').2.1] at heq
        exact hw.ctx_inj c hlt c' hlt' heq
      · exact (hinj c' hc' hge' c hc heq.symm).symm
    · exact hinj c hc hge c' hc' heq
  resolved r hr := by
    rcases hresolved r hr with hold | hnew
    · exact h.resolvedOk hw (hw.resolved r hold)
    · exact hnew

end Stability

end Dsom
