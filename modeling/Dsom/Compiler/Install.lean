import Dsom.Compiler.Capture

/-!
# Compiler/Install — entering and leaving a scope

`Installed` is what `InstallLocalVariables` does to the objects, and `Opens` what a new scope must
satisfy; together they keep the arenas well-formed.  Leaving the scope brings the old names back.
-/

namespace Dsom

/-! ## Installing

The names are declared one after the other in consecutive slots, and taken off in the opposite
order. -/

/-- The declarations of a scope once `names` are installed from variable `first` on. -/
def declared (first : ℕ) : List String → List (String × ℕ) → List (String × ℕ)
  | [], old => old
  | name :: names, old => declared (first + 1) names ((name, first) :: old)

/-- **What `InstallLocalVariables` does to the objects.** -/
structure Installed (bctx : ℕ) (names : List String) (slot : ℕ)
    (s s' : TranslationState) : Prop where
  vars_size : s'.vars.size = s.vars.size + names.length
  var_old : ∀ v < s.vars.size, s'.vars.get v = s.vars.get v
  var_new : ∀ v < s'.vars.size, s.vars.size ≤ v →
    (s'.vars.get v).bctx = bctx ∧ (s'.vars.get v).slotOrd = slot + (v - s.vars.size)
  bctxs_size : s'.bctxs.size = s.bctxs.size
  bctx_other : ∀ b, b ≠ bctx → s'.bctxs.get b = s.bctxs.get b
  bctx_self : s'.bctxs.get bctx = { s.bctxs.get bctx with
    declares := declared s.vars.size names (s.bctxs.get bctx).declares }
  ctxs : s'.ctxs = s.ctxs
  map : ∀ name, s'.localVarMap name =
    ((declared s.vars.size names []).filter fun x => x.1 = name).map Prod.snd ++ s.localVarMap name
  resolutions : s'.resolutions = s.resolutions

/-- The new declarations stand before the old ones. -/
theorem declared_append (names : List String) : ∀ (first : ℕ) (old : List (String × ℕ)),
    declared first names old = declared first names [] ++ old := by
  induction names with
  | nil => exact fun _ _ => rfl
  | cons name names ih =>
    intro first old
    rw [declared, declared, ih, ih _ [(name, first)], List.append_assoc]
    rfl

/-- A name is declared as often as it stands in the list. -/
theorem count_declared (name : String) (names : List String) : ∀ first : ℕ,
    (((declared first names []).filter fun x => x.1 = name).map Prod.snd).length =
      names.count name := by
  induction names with
  | nil => exact fun _ => rfl
  | cons n names ih =>
    intro first
    rw [declared, declared_append]
    by_cases hn : n = name
    · simpa [hn] using ih (first + 1)
    · simpa [hn, List.count_cons] using ih (first + 1)

/-- A declaration is a new one, with a new variable, or an old one. -/
theorem mem_declared {first : ℕ} {names : List String} : ∀ {old : List (String × ℕ)}
    {x : String × ℕ},
    x ∈ declared first names old → (first ≤ x.2 ∧ x.2 < first + names.length) ∨ x ∈ old := by
  induction names generalizing first with
  | nil => exact fun h => .inr h
  | cons name names ih =>
    intro old x h
    rcases ih h with ⟨h₁, h₂⟩ | h
    · exact .inl ⟨by omega, by simpa using by omega⟩
    · rcases List.mem_cons.mp h with rfl | h
      · exact .inl ⟨le_refl _, by simp⟩
      · exact .inr h

/-- `InstallNames` installs the names in slots one behind the other. -/
theorem installNames_ensures {bctx : ℕ} : ∀ {names : List String} {slot : ℕ} {s : TranslationState},
    Ensures (installNames bctx names slot) s fun _ s' => Installed bctx names slot s s'
  | [], slot, s => Ensures.of_pure
      ⟨rfl, fun _ _ => rfl, fun _ h h' => absurd h h'.not_gt, rfl, fun _ _ => rfl, rfl, rfl,
        fun _ => rfl, rfl⟩
  | name :: names, slot, s => by
    refine Ensures.modify_bind (installNames_ensures.mono fun _ s' h => ?_)
    have hold (v : ℕ) (hv : v < s.vars.size) : s'.vars.get v = s.vars.get v := by
      rw [h.var_old v (by simpa using by omega)]
      exact s.vars.get_push_of_lt hv _
    refine ⟨?_, hold, ?_, h.bctxs_size, ?_, ?_, h.ctxs, ?_, h.resolutions⟩
    · simpa [Nat.add_comm, Nat.add_left_comm] using h.vars_size
    · intro v hv hge
      rcases hge.eq_or_lt with rfl | hlt
      · rw [h.var_old _ (by simp)]
        simp
      · obtain ⟨h₁, h₂⟩ := h.var_new v hv hlt
        refine ⟨h₁, ?_⟩
        simp only [Arena.size_push] at h₂
        omega
    · intro b hb
      rw [h.bctx_other b hb]
      simp only [Arena.get_modify_of_ne _ hb]
    · rw [h.bctx_self]
      simp [declared]
    · intro n
      rw [h.map, declared, declared_append _ _ [_]]
      by_cases hn : n = name
      · simp [hn]
      · have hn' : ¬ name = n := fun h => hn h.symm
        simp [hn, hn']

/-- Declaring two lists one after the other is declaring both. -/
theorem declared_two (first : ℕ) (names names' : List String) (old : List (String × ℕ)) :
    declared first (names ++ names') old =
      declared (first + names.length) names' (declared first names old) := by
  induction names generalizing first old with
  | nil => rfl
  | cons name names ih =>
    rw [List.cons_append, declared, ih, declared, List.length_cons, Nat.add_right_comm,
      Nat.add_assoc]

/-- Installing two lists one after the other is installing both. -/
theorem Installed.append {bctx slot : ℕ} {names names' : List String} {s s₁ s₂ : TranslationState}
    (h : Installed bctx names slot s s₁) (h' : Installed bctx names' (slot + names.length) s₁ s₂) :
    Installed bctx (names ++ names') slot s s₂ where
  vars_size := by rw [h'.vars_size, h.vars_size, List.length_append, Nat.add_assoc]
  var_old v hv := by rw [h'.var_old v (by rw [h.vars_size]; omega), h.var_old v hv]
  var_new v hv hge := by
    rcases lt_or_ge v s₁.vars.size with hlt | hge'
    · rw [h'.var_old v hlt]
      exact h.var_new v hlt hge
    · obtain ⟨h₁, h₂⟩ := h'.var_new v hv hge'
      have := h.vars_size
      exact ⟨h₁, by omega⟩
  bctxs_size := h'.bctxs_size.trans h.bctxs_size
  bctx_other b hb := (h'.bctx_other b hb).trans (h.bctx_other b hb)
  bctx_self := by
    rw [h'.bctx_self, h.bctx_self, h.vars_size, declared_two]
  ctxs := h'.ctxs.trans h.ctxs
  map name := by
    rw [h'.map, h.map, h.vars_size, declared_two, declared_append names' _ (declared _ names [])]
    simp
  resolutions := h'.resolutions.trans h.resolutions

/-- Installing two groups of names one after the other. -/
theorem installLocalVariables_ensures {bctx : ℕ} {params locals : List String} {startSlot : ℕ}
    {s : TranslationState} :
    Ensures (installLocalVariables bctx params locals startSlot) s fun r s' =>
      Installed bctx (params ++ locals) startSlot s s' ∧
        r.2 = startSlot + (params ++ locals).length := by
  refine installNames_ensures.bind fun _ s₁ h₁ => installNames_ensures.bind fun _ s₂ h₂ =>
    Ensures.of_pure ⟨h₁.append h₂, by simp [Nat.add_assoc]⟩

/-- `UninstallNames` changes nothing but the map. -/
theorem uninstallNames_ensures : ∀ {names : List String} {s : TranslationState},
    Ensures (uninstallNames names) s fun _ s' => s' = { s with
      localVarMap := fun name => (s.localVarMap name).drop (names.count name) }
  | [], s => Ensures.of_pure (by simp)
  | name :: names, s => by
    refine Ensures.modify_bind (uninstallNames_ensures.mono fun _ s' h => ?_)
    rw [h]
    congr 1
    funext n
    by_cases hn : n = name
    · simp [hn]
    · have hn' : ¬ name = n := fun h => hn h.symm
      simp [hn, hn']

/-- A scope that may be opened in `s`, with the code blocks `C` afterwards: it is inlined into its
parent or owns a frame, and its upvalues are at most `self`. -/
structure Opens (s : TranslationState) (B : BlockTranslationContext) (C : Arena TranslationContext)
    (ctx : ℕ) : Prop where
  parent_lt : ∀ p, B.lexicalParent = some p → p < s.bctxs.size
  scope : if B.owningContext = s.bctxs.size then
      B.trueParent = B.lexicalParent.map fun p => (s.bctxs.get p).owningContext
    else ∃ p, B.lexicalParent = some p ∧ (s.bctxs.get p).owningContext = B.owningContext ∧
      (s.bctxs.get p).trueParent = B.trueParent
  uvs : ∀ uv ∈ B.uvs, uv = ⟨true, 0, none⟩ ∧ B.trueParent.isSome
  declares : B.declares = []
  ctxs_le : s.ctxs.size ≤ C.size
  le_ctxs : C.size ≤ s.ctxs.size + 1
  ctx_old : ∀ c < s.ctxs.size, (C.get c).parent = (s.ctxs.get c).parent ∧
    (C.get c).resultBCtx = (s.ctxs.get c).resultBCtx ∧
    (s.ctxs.get c).historyTopSlot ≤ (C.get c).historyTopSlot
  code_old : ∀ c < s.ctxs.size, (C.get c).fnKind = (s.ctxs.get c).fnKind ∧
    (C.get c).bytecode = (s.ctxs.get c).bytecode
  ctx_new : ∀ c < C.size, s.ctxs.size ≤ c → (C.get c).resultBCtx = s.bctxs.size ∧
    B.owningContext = s.bctxs.size ∧ (∀ p, (C.get c).parent = some p → p < s.ctxs.size) ∧
    B.trueParent = (C.get c).parent.map fun p => (s.ctxs.get p).resultBCtx
  ctx_lt : ctx < C.size
  owner : (C.get ctx).resultBCtx = B.owningContext

section Open

variable {s s' : TranslationState} {B : BlockTranslationContext} {C C' : Arena TranslationContext}
  {ctx slot : ℕ} {names : List String}

/-- The new block declares the new names. -/
theorem Installed.get_new
    (h : Installed s.bctxs.size names slot { s with bctxs := s.bctxs.push B, ctxs := C } s') :
    s'.bctxs.get s.bctxs.size =
      { B with declares := declared s.vars.size names B.declares } := by
  rw [h.bctx_self]
  simp

/-- The blocks there were are as they were. -/
theorem Installed.get_old
    (h : Installed s.bctxs.size names slot { s with bctxs := s.bctxs.push B, ctxs := C } s')
    {b : ℕ} (hb : b < s.bctxs.size) : s'.bctxs.get b = s.bctxs.get b := by
  rw [h.bctx_other b hb.ne]
  exact s.bctxs.get_push_of_lt hb B

theorem Installed.later (E : Set ℕ)
    (h : Installed s.bctxs.size names slot { s with bctxs := s.bctxs.push B, ctxs := C } s')
    (ho : Opens s B C' ctx) : Later E s { s' with ctxs := C' } where
  vars_le := by
    rw [h.vars_size]
    exact Nat.le_add_right _ _
  bctxs_le := by
    rw [h.bctxs_size]
    exact Nat.le_succ _
  ctxs_le := ho.ctxs_le
  var v hv := by simp [h.var_old v hv]
  isUsed v hv := by simp [h.var_old v hv]
  isImmutable v hv := by simp [h.var_old v hv]
  shape b hb := by simp [h.get_old hb]
  uvs b hb := by simp [h.get_old hb]
  hasCapturedLocal b hb := by simp [h.get_old hb]
  containsThrowableBlocks b hb := by simp [h.get_old hb]
  blockMayThrow b hb := by simp [h.get_old hb]
  ctx := ho.ctx_old
  calm b hb _ := by simp [h.get_old hb]
  code := ho.code_old

/-- Opening a scope only adds to the arenas. -/
theorem Installed.grows
    (h : Installed s.bctxs.size names slot { s with bctxs := s.bctxs.push B, ctxs := C } s')
    (ho : Opens s B C' ctx) : Grows s { s' with ctxs := C' } :=
  (h.later ∅ ho).toGrows

/-- The method that owns the new block is there already, or it is the block itself. -/
theorem Opens.owner_le (ho : Opens s B C ctx) (hw : Wf s) (hne : B.owningContext ≠ s.bctxs.size) :
    B.owningContext < s.bctxs.size ∧
      (s.bctxs.get B.owningContext).owningContext = B.owningContext := by
  have hscope := ho.scope
  rw [if_neg hne] at hscope
  obtain ⟨p, hp, hpo, -⟩ := hscope
  have hlt := ho.parent_lt p hp
  obtain ⟨-, hle, hidem, -⟩ := hw.scope p hlt
  rw [← hpo]
  exact ⟨hle.trans_lt hlt, hidem⟩

/-- The new scope is well formed. -/
theorem Installed.scopeOk
    (h : Installed s.bctxs.size names slot { s with bctxs := s.bctxs.push B, ctxs := C } s')
    (ho : Opens s B C' ctx) (hw : Wf s) : ScopeOk { s' with ctxs := C' } s.bctxs.size := by
  have hscope := ho.scope
  refine ⟨?_, ?_, ?_, ?_⟩ <;> simp only [h.get_new]
  · exact ho.parent_lt
  · by_cases howner : B.owningContext = s.bctxs.size
    · exact howner.le
    · exact (ho.owner_le hw howner).1.le
  · by_cases howner : B.owningContext = s.bctxs.size
    · rw [howner, h.get_new]
      exact howner
    · obtain ⟨hlt, hidem⟩ := ho.owner_le hw howner
      rw [h.get_old hlt, hidem]
  · split at hscope
    next howner =>
      rw [if_pos howner, hscope]
      cases hp : B.lexicalParent with
      | none => rfl
      | some p => simp [h.get_old (ho.parent_lt p hp)]
    next howner =>
      obtain ⟨p, hp, hpo, hpt⟩ := hscope
      rw [if_neg howner]
      exact ⟨p, hp, by rw [h.get_old (ho.parent_lt p hp), hpo],
        by rw [h.get_old (ho.parent_lt p hp), hpt]⟩

/-- **Opening a scope keeps the arenas well-formed.** -/
theorem Installed.wf
    (h : Installed s.bctxs.size names slot { s with bctxs := s.bctxs.push B, ctxs := C } s')
    (ho : Opens s B C' ctx) (hw : Wf s) : Wf { s' with ctxs := C' } := by
  have hsize : s'.bctxs.size = s.bctxs.size + 1 := h.bctxs_size
  have hnew {b : ℕ} (hb : b < s'.bctxs.size) (hge : s.bctxs.size ≤ b) : b = s.bctxs.size := by
    omega
  refine hw.grow (h.grows ho) ?_ ?_ ?_ ?_ ?_ ?_ fun r hr => .inl (by rwa [h.resolutions] at hr)
  · intro b hb hge
    rw [hnew hb hge]
    exact h.scopeOk ho hw
  · intro v hv hge
    simp only [(h.var_new v hv hge).1, hsize]
    omega
  · intro b hb hge x hx
    rw [hnew hb hge] at hx ⊢
    simp only [h.get_new, ho.declares] at hx
    rcases mem_declared hx with ⟨h₁, h₂⟩ | hx
    · have hlt : x.2 < s'.vars.size := by rwa [h.vars_size]
      exact ⟨hlt, (h.var_new _ hlt h₁).1⟩
    · simp at hx
  · intro b hb uv hu
    rcases lt_or_ge b s.bctxs.size with hlt | hge
    · exact .inl ⟨hlt, by simpa only [h.get_old hlt] using hu⟩
    · rw [hnew hb hge] at hu ⊢
      simp only [h.get_new] at hu
      obtain ⟨rfl, hsome⟩ := ho.uvs uv hu
      obtain ⟨p, hp⟩ := Option.isSome_iff_exists.mp hsome
      exact .inr ⟨p, by simp only [h.get_new, hp], rfl, rfl⟩
  · intro c hc hge
    obtain ⟨hres, howner, hparent, htrue⟩ := ho.ctx_new c hc hge
    refine ⟨?_, ?_, ?_, ?_⟩
    · simp only [hres, hsize]
      omega
    · simp only [hres, h.get_new, howner]
    · intro p hp
      exact (hparent p hp).trans_le hge
    · simp only [hres, h.get_new, htrue]
      cases hp : (C'.get c).parent with
      | none => rfl
      | some p => simp [(ho.ctx_old p (hparent p hp)).2.1]
  · intro c hc hge c' hc' heq
    simp only [(ho.ctx_new c hc hge).1] at heq
    rcases lt_or_ge c' s.ctxs.size with hlt | hge'
    · have := (hw.ctx c' hlt).1
      rw [(ho.ctx_old c' hlt).2.1] at heq
      omega
    · have := ho.le_ctxs
      simp only at hc hc'
      omega

/-- The slots of the new names are below the top slot. -/
theorem Installed.top
    (h : Installed s.bctxs.size names slot { s with bctxs := s.bctxs.push B, ctxs := C } s')
    (ho : Opens s B C' ctx) (hw : Wf s) (ht : TopOk s)
    (htop : ∀ c < C'.size, (C'.get c).resultBCtx = B.owningContext →
      slot + names.length ≤ (C'.get c).historyTopSlot) : TopOk { s' with ctxs := C' } := by
  intro c hc v hv hhome
  rcases lt_or_ge v s.vars.size with hlt | hge
  · rw [(h.grows ho).homeOf hw hlt] at hhome
    have hhlt : homeOf s v < s.bctxs.size :=
      ((hw.scope _ (hw.var v hlt)).2.1).trans_lt (hw.var v hlt)
    rcases lt_or_ge c s.ctxs.size with hc' | hge
    · obtain ⟨-, hres, hle⟩ := ho.ctx_old c hc'
      rw [((h.grows ho).var v hlt).2]
      exact (ht c hc' v hlt (hhome.trans hres)).trans hle
    · rw [hhome] at hhlt
      exact absurd (ho.ctx_new c hc hge).1 hhlt.ne
  · obtain ⟨hb, hslot⟩ := h.var_new v hv hge
    simp only [homeOf, hb, h.get_new] at hhome
    have hle := htop c hc hhome.symm
    have hsize : s'.vars.size = s.vars.size + names.length := h.vars_size
    have hslot' : (s'.vars.get v).slotOrd = slot + (v - s.vars.size) := hslot
    simp only at hv ⊢
    omega

/-- The new block is the one being compiled. -/
theorem Installed.here
    (h : Installed s.bctxs.size names slot { s with bctxs := s.bctxs.push B, ctxs := C } s')
    (ho : Opens s B C' ctx) (hw : Wf s)
    (hmap : ∀ name, s.localVarMap name = (List.filter (fun x => x.1 = name)
      (match B.lexicalParent with
        | some p => declarations s p
        | none => [])).map Prod.snd) :
    Here ctx s.bctxs.size { s' with ctxs := C' } := by
  have hsize : s.bctxs.size < s'.bctxs.size := by
    rw [h.bctxs_size]
    exact Nat.lt_succ_self _
  refine ⟨ho.ctx_lt, hsize, ?_, fun name => ?_⟩
  · simp only [h.get_new, ho.owner]
  · rw [declarations_eq (h.wf ho hw) hsize]
    simp only [h.get_new, ho.declares, h.map, hmap, List.filter_append, List.map_append]
    cases hp : B.lexicalParent with
    | none => rfl
    | some p => simp only [(h.grows ho).declarations hw (ho.parent_lt p hp)]

end Open

/-- The name map plays no part in well-formedness. -/
theorem Wf.map_irrel {s : TranslationState} (hw : Wf s) (m : String → List ℕ) :
    Wf { s with localVarMap := m } :=
  hw.grow { Grows.refl s with }
    (fun _ hb hge => absurd hb hge.not_gt) (fun _ hv hge => absurd hv hge.not_gt)
    (fun _ hb hge => absurd hb hge.not_gt) (fun _ hb _ hu => .inl ⟨hb, hu⟩)
    (fun _ hc hge => absurd hc hge.not_gt)
    (fun _ hc hge => absurd hc hge.not_gt) fun _ hr => .inl hr

/-- **Leaving a scope** brings the names back that were there before. -/
theorem Inv.leave {E E' : Set ℕ} {ctx bctx first : ℕ} {names : List String}
    {s s₁ s₂ : TranslationState} (hi : Inv E ctx bctx s) (hlater : Later E s s₁)
    (hE : ∀ b < s.bctxs.size, b ∈ E' → b ∈ E)
    (hmap : ∀ name, s₁.localVarMap name =
      ((declared first names []).filter fun x => x.1 = name).map Prod.snd ++ s.localVarMap name)
    (hext : Ext E' s₁ s₂) (hw : Wf s₂) (ht : TopOk s₂) {s₃ : TranslationState}
    (hs₃ : s₃ = { s₂ with
      localVarMap := fun name => (s₂.localVarMap name).drop (names.count name) }) :
    Ext E s s₃ ∧ Inv E ctx bctx s₃ := by
  have hdrop (name : String) : s₃.localVarMap name = s.localVarMap name := by
    simp only [hs₃]
    rw [hext.map, hmap, List.drop_left' (count_declared name names first)]
  have hext₃ : Ext E s s₃ := by
    refine ⟨hlater.trans ?_ hE, funext hdrop⟩
    rw [hs₃]
    exact { hext.toLater with }
  refine ⟨hext₃, ?_, ?_, hi.here.grow hi.wf hext₃.toGrows hext₃.map,
    hi.encloses.grow hi.here.bctx_lt hext₃.toGrows⟩
  · rw [hs₃]
    exact hw.map_irrel _
  · rw [hs₃]
    exact ht

end Dsom
