import Dsom.Compiler.Scope

/-!
# Compiler/Capture — capturing and resolving variables

`Keeps` says that a computation leaves the compiler in the same place with its scopes well-formed.
`AddUpvalue` finds or makes an upvalue for the variable in every block between, and
`ResolveVariable` keeps the scopes.
-/

namespace Dsom

section Extension

variable {E : Set ℕ} {ctx bctx : ℕ} {s s' : TranslationState}

/-- The block that is being compiled stays the current one while the arenas grow. -/
theorem Here.grow (hh : Here ctx bctx s) (hw : Wf s) (h : Grows s s')
    (hmap : s'.localVarMap = s.localVarMap) : Here ctx bctx s' where
  ctx_lt := hh.ctx_lt.trans_le h.ctxs_le
  bctx_lt := hh.bctx_lt.trans_le h.bctxs_le
  owner := by rw [(h.ctx _ hh.ctx_lt).2.1, h.owningContext hh.bctx_lt, hh.owner]
  map name := by rw [hmap, hh.map, h.declarations hw hh.bctx_lt]

/-- The enclosing blocks stay the enclosing ones. -/
theorem Encloses.grow (he : Encloses E bctx s) (hb : bctx < s.bctxs.size) (h : Grows s s') :
    Encloses E bctx s' where
  owner := by
    rw [h.owningContext hb]
    exact he.owner
  lt b hE := (he.lt b hE).trans_le h.bctxs_le
  parent b hE p hp := he.parent b hE p (by rwa [h.trueParent (he.lt b hE)] at hp)

/-- Nothing new is needed of the top slots where no context and no variable is added. -/
theorem TopOk.grow (ht : TopOk s) (hw : Wf s) (h : Grows s s') (hv : s'.vars.size = s.vars.size)
    (hc : s'.ctxs.size = s.ctxs.size) : TopOk s' := by
  intro c hc' v hv' hhome
  rw [hc] at hc'
  rw [hv] at hv'
  obtain ⟨-, hres, htop⟩ := h.ctx c hc'
  rw [h.homeOf hw hv', hres] at hhome
  rw [(h.var v hv').2]
  exact (ht c hc' v hv' hhome).trans htop

/-- A change that allocates no variable, scope or code block. -/
structure Quiet (s s' : TranslationState) : Prop extends Grows s s' where
  map : s'.localVarMap = s.localVarMap
  vars_eq : s'.vars.size = s.vars.size
  bctxs_eq : s'.bctxs.size = s.bctxs.size
  ctxs_eq : s'.ctxs.size = s.ctxs.size

/-- A quiet change keeps the arenas well formed, if its new upvalues and resolutions are. -/
theorem Quiet.wf (h : Quiet s s') (hw : Wf s)
    (huv : ∀ b < s.bctxs.size, ∀ uv ∈ (s'.bctxs.get b).uvs, uv ∈ (s.bctxs.get b).uvs ∨ UvOk s' b uv)
    (hresolved : ∀ r ∈ s'.resolutions, r ∈ s.resolutions ∨ ResolvedOk s' r) : Wf s' := by
  refine hw.grow h.toGrows ?_ ?_ ?_ ?_ ?_ ?_ hresolved
  · intro b hb hge
    exact absurd (h.bctxs_eq ▸ hb) hge.not_gt
  · intro v hv hge
    exact absurd (h.vars_eq ▸ hv) hge.not_gt
  · intro b hb hge
    exact absurd (h.bctxs_eq ▸ hb) hge.not_gt
  · intro b hb uv hu
    rw [h.bctxs_eq] at hb
    exact (huv b hb uv hu).imp_left fun hold => ⟨hb, hold⟩
  all_goals
    intro c hc hge
    exact absurd (h.ctxs_eq ▸ hc) hge.not_gt

theorem Quiet.inv (h : Quiet s s') (hi : Inv E ctx bctx s)
    (huv : ∀ b < s.bctxs.size, ∀ uv ∈ (s'.bctxs.get b).uvs, uv ∈ (s.bctxs.get b).uvs ∨ UvOk s' b uv)
    (hresolved : ∀ r ∈ s'.resolutions, r ∈ s.resolutions ∨ ResolvedOk s' r) : Inv E ctx bctx s' :=
  ⟨h.wf hi.wf huv hresolved, hi.top.grow hi.wf h.toGrows h.vars_eq h.ctxs_eq,
    hi.here.grow hi.wf h.toGrows h.map, hi.encloses.grow hi.here.bctx_lt h.toGrows⟩

/-- One that changes no code either, and no upvalues outside of `E`. -/
structure Settled (E : Set ℕ) (s s' : TranslationState) : Prop extends Ext E s s', Quiet s s'

/-- A settled change extends the state and keeps the invariant. -/
theorem Settled.inv (h : Settled E s s') (hi : Inv E ctx bctx s)
    (huv : ∀ b < s.bctxs.size, ∀ uv ∈ (s'.bctxs.get b).uvs, uv ∈ (s.bctxs.get b).uvs ∨ UvOk s' b uv)
    (hresolved : ∀ r ∈ s'.resolutions, r ∈ s.resolutions ∨ ResolvedOk s' r) :
    Ext E s s' ∧ Inv E ctx bctx s' :=
  ⟨h.toExt, h.toQuiet.inv hi huv hresolved⟩

end Extension

/-! ## Programs that keep the scopes

A program keeps the scopes if it only adds to the arenas and leaves the invariant true.  Most steps
of the compiler change no scope at all, and are settled by what they leave alone. -/

instance (E : Set ℕ) : Std.Refl (Ext E) := ⟨Ext.refl E⟩

instance (E : Set ℕ) : IsTrans TranslationState (Ext E) := ⟨fun _ _ _ => Ext.trans⟩

/-- **A computation at `ctx`, `bctx` that leaves the compiler in the same place**, and gives
upvalues to the enclosing blocks `E` only. -/
def Keeps (E : Set ℕ) (ctx bctx : ℕ) {α : Type} (m : CompileM α) : Prop :=
  Maintains (Inv E ctx bctx) (Ext E) m

section Keeps

variable {E : Set ℕ} {ctx bctx : ℕ} {α β : Type}

theorem Keeps.pure (a : α) : Keeps E ctx bctx (pure a) := Maintains.of_pure a

theorem Keeps.error (e : CompileError) : Keeps E ctx bctx (compileError e : CompileM α) :=
  Maintains.of_error e

/-- Two programs one after the other. -/
theorem Keeps.bind {m : CompileM α} {f : α → CompileM β} (hm : Keeps E ctx bctx m)
    (hf : ∀ a, Keeps E ctx bctx (f a)) : Keeps E ctx bctx (m >>= f) :=
  Maintains.bind hm hf

theorem Keeps.get : Keeps E ctx bctx get := Maintains.of_get

theorem Ensures.getVar_bind {v : ℕ} {f : LocalVarInfo → CompileM β} {s : TranslationState}
    {Q : β → TranslationState → Prop} (h : Ensures (f (s.vars.get v)) s Q) :
    Ensures (getVar v >>= f) s Q :=
  h

theorem Ensures.getBCtx_bind {b : ℕ} {f : BlockTranslationContext → CompileM β}
    {s : TranslationState} {Q : β → TranslationState → Prop}
    (h : Ensures (f (s.bctxs.get b)) s Q) : Ensures (getBCtx b >>= f) s Q :=
  h

theorem keeps_getBCtx (b : ℕ) : Keeps E ctx bctx (getBCtx b) := Keeps.get.bind fun _ => .pure _

/-- A change of flags only. -/
theorem keeps_of_settled {g : TranslationState → TranslationState}
    (h : ∀ s, Settled E s (g s) ∧ (∀ b, ((g s).bctxs.get b).uvs = (s.bctxs.get b).uvs) ∧
      (g s).resolutions = s.resolutions) : Keeps E ctx bctx (modify g) := by
  intro s hi
  obtain ⟨hset, huv, hres⟩ := h s
  exact Ensures.of_modify (hset.inv hi (fun b _ uv hu => .inl (huv b ▸ hu))
    fun r hr => .inl (hres ▸ hr))

/-- Setting the flags of a variable is settled. -/
theorem settled_modifyVar (s : TranslationState) (v : ℕ) {f : LocalVarInfo → LocalVarInfo}
    (hb : ∀ x, (f x).bctx = x.bctx) (hs : ∀ x, (f x).slotOrd = x.slotOrd)
    (hu : ∀ x, x.isUsed → (f x).isUsed) (hi : ∀ x, (f x).isImmutable → x.isImmutable) :
    Settled E s { s with vars := s.vars.modify v f } := by
  exact { Ext.refl E s with
    var := fun w _ => ⟨s.vars.get_modify_congr LocalVarInfo.bctx hb v w,
      s.vars.get_modify_congr LocalVarInfo.slotOrd hs v w⟩
    isUsed := fun w _ => s.vars.get_modify_mono hu v w
    isImmutable := fun w _ h => by
      rcases s.vars.get_modify_or v w f with hw | hw
      · simp only [hw] at h
        exact hi _ h
      · simpa only [hw] using h
    vars_eq := rfl
    bctxs_eq := rfl
    ctxs_eq := rfl }

theorem keeps_notifyUse (v : ℕ) : Keeps E ctx bctx (notifyUse v) :=
  keeps_of_settled fun s => ⟨settled_modifyVar s v (fun _ => rfl) (fun _ => rfl) (fun _ _ => rfl)
    fun _ => id, fun _ => rfl, rfl⟩

theorem keeps_notifyWrite (v : ℕ) (inside : Bool) : Keeps E ctx bctx (notifyWrite v inside) :=
  keeps_of_settled fun s => ⟨settled_modifyVar s v (fun _ => rfl) (fun _ => rfl) (fun _ => id)
    fun x hi => by simp_all, fun _ => rfl, rfl⟩

theorem keeps_notify (mode : VarResolveMode) (v : ℕ) (inside : Bool) :
    Keeps E ctx bctx (notify mode v inside) := by
  cases mode with
  | forRead => exact keeps_notifyUse v
  | forWrite => exact keeps_notifyWrite v inside
  | dryRun => exact .pure _

/-- A change of a scope that raises flags and adds upvalues. -/
structure Raises (f : BlockTranslationContext → BlockTranslationContext) : Prop where
  shape : ∀ x, (f x).shape = x.shape
  uvs : ∀ x, x.uvs <+: (f x).uvs
  hasCapturedLocal : ∀ x, x.hasCapturedLocal → (f x).hasCapturedLocal
  containsThrowableBlocks : ∀ x, x.containsThrowableBlocks → (f x).containsThrowableBlocks
  blockMayThrow : ∀ x, x.blockMayThrow → (f x).blockMayThrow

/-- Raising the flags of a block is settled. -/
theorem settled_modifyBCtx (s : TranslationState) (b : ℕ)
    {f : BlockTranslationContext → BlockTranslationContext} (h : Raises f)
    (hb : b ∈ E ∨ ∀ x, (f x).uvs = x.uvs) :
    Settled E s { s with bctxs := s.bctxs.modify b f } :=
  { Ext.refl E s with
    shape := fun c _ => s.bctxs.get_modify_congr _ h.shape b c
    uvs := fun c _ => by
      rcases s.bctxs.get_modify_or b c f with hc | hc <;> simp only [hc]
      · exact h.uvs _
      · exact List.prefix_refl _
    hasCapturedLocal := fun c _ => s.bctxs.get_modify_mono h.hasCapturedLocal b c
    containsThrowableBlocks := fun c _ => s.bctxs.get_modify_mono h.containsThrowableBlocks b c
    blockMayThrow := fun c _ => s.bctxs.get_modify_mono h.blockMayThrow b c
    calm := fun c _ hE => by
      rcases hb with hb | hb
      · have hc : c ≠ b := fun h => hE (h ▸ hb)
        simp only [Arena.get_modify_of_ne _ hc]
      · exact s.bctxs.get_modify_congr BlockTranslationContext.uvs hb b c
    vars_eq := rfl
    bctxs_eq := rfl
    ctxs_eq := rfl }

theorem keeps_modifyBCtx (b : ℕ) {f : BlockTranslationContext → BlockTranslationContext}
    (h : Raises f) (huv : ∀ x, (f x).uvs = x.uvs) : Keeps E ctx bctx (modifyBCtx b f) :=
  keeps_of_settled fun s => ⟨settled_modifyBCtx s b h (.inr huv),
    fun c => s.bctxs.get_modify_congr BlockTranslationContext.uvs huv b c, rfl⟩

theorem raises_hasCapturedLocal : Raises fun x => { x with hasCapturedLocal := true } :=
  ⟨fun _ => rfl, fun _ => List.prefix_refl _, fun _ _ => rfl, fun _ => id, fun _ => id⟩

theorem raises_containsThrowableBlocks :
    Raises fun x => { x with containsThrowableBlocks := true } :=
  ⟨fun _ => rfl, fun _ => List.prefix_refl _, fun _ => id, fun _ _ => rfl, fun _ => id⟩

theorem raises_blockMayThrow : Raises fun x => { x with blockMayThrow := true } :=
  ⟨fun _ => rfl, fun _ => List.prefix_refl _, fun _ => id, fun _ => id, fun _ _ => rfl⟩

theorem raises_uvs (uv : UVInfo) : Raises fun x => { x with uvs := x.uvs ++ [uv] } :=
  ⟨fun _ => rfl, fun _ => List.prefix_append _ _, fun _ => id, fun _ => id, fun _ => id⟩

/-- Raising the top slot of a method is settled. -/
theorem settled_modifyCtx (s : TranslationState) (c : ℕ)
    {f : TranslationContext → TranslationContext}
    (hp : ∀ x, (f x).parent = x.parent) (hr : ∀ x, (f x).resultBCtx = x.resultBCtx)
    (ht : ∀ x, x.historyTopSlot ≤ (f x).historyTopSlot) (hk : ∀ x, (f x).fnKind = x.fnKind)
    (hb : ∀ x, (f x).bytecode = x.bytecode) : Settled E s { s with ctxs := s.ctxs.modify c f } :=
  { Ext.refl E s with
    ctx := fun d _ => by
      rcases s.ctxs.get_modify_or c d f with hd | hd
      · simp only [hd]
        exact ⟨hp _, hr _, ht _⟩
      · simp [hd]
    code := fun d _ => ⟨s.ctxs.get_modify_congr _ hk c d, s.ctxs.get_modify_congr _ hb c d⟩
    vars_eq := rfl
    bctxs_eq := rfl
    ctxs_eq := rfl }

theorem keeps_updateTopSlot (c slot : ℕ) : Keeps E ctx bctx (updateTopSlot c slot) :=
  keeps_of_settled fun s => ⟨settled_modifyCtx s c (fun _ => rfl) (fun _ => rfl)
    (fun _ => le_max_left _ _) (fun _ => rfl) fun _ => rfl, fun _ => rfl, rfl⟩

end Keeps

/-! ## Capturing

`AddUpvalue` goes up the chain of enclosing methods and leaves an upvalue in each of them. -/

section Capture

variable {s s' : TranslationState}

/-- **A visible variable lives in the frame of the scope, or is visible where the block that owns
the frame stands.** -/
theorem Wf.home_of_visible (hw : Wf s) : ∀ {b : ℕ}, b < s.bctxs.size → ∀ {var : ℕ},
    Visible s b var →
    var < s.vars.size ∧ (homeOf s var = (s.bctxs.get b).owningContext ∨
      ∃ q, (s.bctxs.get (s.bctxs.get b).owningContext).lexicalParent = some q ∧
        Visible s q var) := by
  intro b
  induction b using Nat.strong_induction_on with
  | _ b ih =>
    rintro hb var ⟨name, hmem⟩
    rw [declarations_eq hw hb, List.mem_append] at hmem
    rcases hmem with hmem | hmem
    · obtain ⟨hlt, hbctx⟩ := hw.declares b hb _ hmem
      exact ⟨hlt, .inl (by rw [homeOf, hbctx])⟩
    · obtain ⟨hlt, -, -, hscope⟩ := hw.scope b hb
      cases hp : (s.bctxs.get b).lexicalParent with
      | none => simp [hp] at hmem
      | some p =>
        rw [hp] at hmem hscope
        have hvisible : Visible s p var := ⟨name, hmem⟩
        obtain ⟨hvar, hhome⟩ := ih p (hlt p hp) ((hlt p hp).trans hb) hvisible
        refine ⟨hvar, ?_⟩
        split at hscope
        next howner =>
          -- a real block: everything outside is visible where it stands
          exact .inr ⟨p, by rw [howner, hp], hvisible⟩
        next howner =>
          obtain ⟨q, hq, hqo, -⟩ := hscope
          cases hq
          rwa [hqo] at hhome

variable {E : Set ℕ} {ctx bctx : ℕ}

/-- The upvalue is found under the ordinal that is given out. -/
theorem pushUpvalue_ensures (hi : Inv E ctx bctx s) {b : ℕ} (hb : b ∈ E) {uv : UVInfo}
    (hu : UvOk s b uv) :
    Ensures (pushUpvalue b uv) s fun ord s' =>
      (Ext E s s' ∧ Inv E ctx bctx s') ∧ (s'.bctxs.get b).uvs[ord]? = some uv := by
  refine Ensures.modify_bind (Ensures.getBCtx_bind (Ensures.of_pure ?_))
  have hset := settled_modifyBCtx s b (raises_uvs uv) (.inl hb)
  refine ⟨hset.inv hi (fun c hc v hv => ?_) fun r hr => .inl hr, by simp⟩
  by_cases hcb : c = b
  · subst hcb
    simp only [Arena.get_modify_self, List.mem_append, List.mem_singleton] at hv
    rcases hv with hv | rfl
    · exact .inl hv
    · exact .inr (hset.uvOk hi.wf hc hu)
  · simp only [Arena.get_modify_of_ne _ hcb] at hv
    exact .inl hv

/-- Marking a block as captured from keeps the scopes. -/
theorem markCaptured_ensures (hi : Inv E ctx bctx s) (b : ℕ) :
    Ensures (modifyBCtx b fun x => { x with hasCapturedLocal := true }) s fun _ s' =>
      (Ext E s s' ∧ Inv E ctx bctx s') ∧ (s'.bctxs.get b).hasCapturedLocal := by
  intro r s' h
  refine ⟨keeps_modifyBCtx b raises_hasCapturedLocal (fun _ => rfl) s hi r s' h, ?_⟩
  cases h
  simp

/-- **`AddUpvalue` finds or makes an upvalue for the variable.** -/
theorem addUpvalue_ensures {var : ℕ} : ∀ {fuel b : ℕ} {s : TranslationState} {q : ℕ},
    Inv E ctx bctx s → b ∈ E → (s.bctxs.get b).owningContext = b →
    (s.bctxs.get b).lexicalParent = some q → Visible s q var →
    Ensures (addUpvalue fuel b var) s fun ord s' => (Ext E s s' ∧ Inv E ctx bctx s') ∧
      ∃ uv, (s'.bctxs.get b).uvs[ord]? = some uv ∧ uv.varInfo = some var
  | 0, _, _, _, _, _, _, _, _ => Ensures.of_error
  | fuel + 1, b, s, q, hi, hE, howner, hq, hvisible => by
    have hb := hi.encloses.lt b hE
    have hqb := (hi.wf.scope b hb).1 q hq
    obtain ⟨hvar, hhome⟩ := hi.wf.home_of_visible (hqb.trans hb) hvisible
    refine Ensures.getVar_bind (Ensures.bind (markCaptured_ensures hi _) ?_)
    rintro - s₁ ⟨⟨hext, hi₁⟩, hcaptured⟩
    rw [← (hext.var var hvar).1] at hcaptured
    have hb₁ := hb.trans_le hext.bctxs_le
    have hvar₁ := hvar.trans_le hext.vars_le
    have hq₁ := (hext.lexicalParent hb).trans hq
    have hvisible₁ := hext.visible hi.wf (hqb.trans hb) hvisible
    have hparent : (s₁.bctxs.get b).trueParent = some (s₁.bctxs.get q).owningContext := by
      obtain ⟨-, -, -, hscope⟩ := hi₁.wf.scope b hb₁
      rw [if_pos ((hext.owningContext hb).trans howner), hq₁] at hscope
      exact hscope
    refine Ensures.getBCtx_bind ?_
    split
    next ord hord =>
      obtain ⟨hlt, hfound, -⟩ := List.findIdx?_eq_some_iff_getElem.mp hord
      exact Ensures.of_pure ⟨⟨hext, hi₁⟩, _, List.getElem?_eq_getElem hlt, by simpa using hfound⟩
    next =>
      refine Ensures.getBCtx_bind ?_
      have hdef : (s₁.bctxs.get (s.vars.get var).bctx).owningContext = homeOf s₁ var := by
        rw [homeOf, (hext.var var hvar).1]
      rw [hdef, hparent]
      dsimp only
      split
      next hhome' =>
        have hu : UvOk s₁ b ⟨true, (s.vars.get var).slotOrd, some var⟩ :=
          ⟨_, hparent, ⟨hvar₁, hcaptured, q, hq₁, hvisible₁⟩,
            by rw [if_pos rfl]; exact ⟨hhome', (hext.var var hvar).2.symm⟩⟩
        refine (pushUpvalue_ensures hi₁ hE hu).mono fun ord s' h => ?_
        exact ⟨⟨hext.trans h.1.1, h.1.2⟩, _, h.2, rfl⟩
      next hhome' =>
        -- the variable is further out: the parent captures it first
        have hqb₁ := (hqb.trans hb).trans_le hext.bctxs_le
        obtain ⟨-, hfar⟩ := hi₁.wf.home_of_visible hqb₁ hvisible₁
        obtain ⟨q', hq', hvisible'⟩ := hfar.resolve_left fun h => hhome' h.symm
        have hE' := hi₁.encloses.parent b hE _ hparent
        refine (addUpvalue_ensures hi₁ hE' (hi₁.wf.scope q hqb₁).2.2.1 hq' hvisible').bind ?_
        rintro ord s₂ ⟨⟨hext₂, hi₂⟩, uv', hget, huv'⟩
        have hu : UvOk s₂ b ⟨false, ord, some var⟩ := by
          refine ⟨_, (hext₂.trueParent hb₁).trans hparent, ⟨hvar₁.trans_le hext₂.vars_le, ?_, q,
            (hext₂.lexicalParent hb₁).trans hq₁, hext₂.visible hi₁.wf hqb₁ hvisible₁⟩, ?_⟩
          · rw [(hext₂.var var hvar₁).1]
            exact hext₂.hasCapturedLocal _ (hi₁.wf.var var hvar₁) hcaptured
          · rw [if_neg (by simp)]
            exact ⟨uv', hget, huv'⟩
        refine (pushUpvalue_ensures hi₂ hE hu).mono fun ord s' h => ?_
        exact ⟨⟨(hext.trans hext₂).trans h.1.1, h.1.2⟩, _, h.2, rfl⟩

end Capture

/-! ## Resolution -/

section Resolve

variable {E : Set ℕ} {ctx bctx : ℕ} {s : TranslationState}

/-- The head of the name's list is the innermost declaration in sight. -/
theorem Inv.innermost_of_map (hi : Inv E ctx bctx s) {name : String} {var : ℕ} {vars : List ℕ}
    (h : s.localVarMap name = var :: vars) : innermost s bctx name = some var := by
  rw [innermost, ← List.head?_filter, ← List.head?_map, ← hi.here.map, h]
  rfl

/-- The innermost declaration is in sight. -/
theorem visible_of_innermost {name : String} {var : ℕ} (h : innermost s bctx name = some var) :
    Visible s bctx var := by
  obtain ⟨x, hx, rfl⟩ := Option.map_eq_some_iff.mp h
  exact ⟨x.1, List.mem_of_find?_eq_some hx⟩

/-- The upvalue of a use is recorded. -/
theorem record_ensures {name : String} {var ord : ℕ} (hi : Inv E ctx bctx s)
    (hinner : innermost s bctx name = some var) (hvar : var < s.vars.size) {uv : UVInfo}
    (hget : (s.bctxs.get (s.bctxs.get bctx).owningContext).uvs[ord]? = some uv)
    (huv : uv.varInfo = some var) :
    Ext E s { s with resolutions := ⟨ctx, bctx, name, ord⟩ :: s.resolutions } ∧
      Inv E ctx bctx { s with resolutions := ⟨ctx, bctx, name, ord⟩ :: s.resolutions } := by
  have hset : Settled E s { s with resolutions := ⟨ctx, bctx, name, ord⟩ :: s.resolutions } :=
    { Ext.refl E s with
      vars_eq := rfl
      bctxs_eq := rfl
      ctxs_eq := rfl }
  refine hset.inv hi (fun _ _ _ hv => .inl hv) fun r hr => ?_
  rcases List.mem_cons.mp hr with rfl | hold
  · refine .inr (hset.resolvedOk hi.wf ?_)
    exact ⟨hi.here.ctx_lt, hi.here.bctx_lt, hi.here.owner, var, hinner, hvar, uv, hget, huv⟩
  · exact .inl hold

/-- A name found in the map is resolved to its innermost declaration. -/
theorem resolveLocal_ensures {name : String} {var : ℕ} {mode : VarResolveMode}
    (hi : Inv E ctx bctx s) (hinner : innermost s bctx name = some var) :
    Ensures (resolveLocal ctx bctx name mode var) s fun _ s' => Ext E s s' ∧ Inv E ctx bctx s' := by
  have hbctx := hi.here.bctx_lt
  obtain ⟨hvar, hhome⟩ := hi.wf.home_of_visible hbctx (visible_of_innermost hinner)
  obtain ⟨-, hle, hidem, -⟩ := hi.wf.scope _ hbctx
  refine Ensures.getVar_bind (Ensures.bind (keeps_notify _ _ _ s hi) ?_)
  rintro - s₁ ⟨hext, hi₁⟩
  have howner := hext.owningContext hbctx
  have hlt := hle.trans_lt hbctx
  refine Ensures.getBCtx_bind (Ensures.getBCtx_bind ?_)
  split
  next hne =>
    obtain ⟨q, hq, hvisible⟩ := hhome.resolve_left fun heq => hne <| by
      rw [howner, ← heq, ← (hext.var var hvar).1]
      exact hext.homeOf hi.wf hvar
    have hqlt := ((hi.wf.scope _ hlt).1 q hq).trans hlt
    have hvisible₁ := hext.visible hi.wf hqlt hvisible
    have hq₁ : (s₁.bctxs.get (s₁.bctxs.get bctx).owningContext).lexicalParent = some q := by
      rw [howner, hext.lexicalParent hlt, hq]
    refine (addUpvalue_ensures hi₁ hi₁.encloses.owner (hi₁.wf.scope _ hi₁.here.bctx_lt).2.2.1 hq₁
      hvisible₁).bind ?_
    rintro ord s₂ ⟨⟨hext₂, hi₂⟩, uv, hget, huv⟩
    have hinner₂ : innermost s₂ bctx name = some var := by
      rw [innermost, (hext.trans hext₂).declarations hi.wf hbctx]
      exact hinner
    rw [← hext₂.owningContext hi₁.here.bctx_lt] at hget
    have hvar₂ := hvar.trans_le (hext.trans hext₂).vars_le
    obtain ⟨hext₃, hi₃⟩ := record_ensures hi₂ hinner₂ hvar₂ hget huv
    exact Ensures.modify_bind (Ensures.of_pure ⟨(hext.trans hext₂).trans hext₃, hi₃⟩)
  next => exact Ensures.of_pure ⟨hext, hi₁⟩

/-- **`ResolveVariable` keeps the scopes.** -/
theorem keeps_resolveVariable (env : MethodEnv) (name : String) (mode : VarResolveMode) :
    Keeps E ctx bctx (resolveVariable env ctx bctx name mode) := by
  intro s hi
  rw [resolveVariable]
  split
  · split
    · exact Keeps.error _ s hi
    · exact Keeps.pure _ s hi
  · refine Ensures.get_bind ?_
    split
    next var vars hmap => exact resolveLocal_ensures hi (hi.innermost_of_map hmap)
    next =>
      split
      · exact Keeps.pure _ s hi
      · split_ifs
        · exact Keeps.error _ s hi
        all_goals exact Keeps.pure _ s hi

end Resolve

end Dsom
