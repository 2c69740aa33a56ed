import Dsom.Ssa.Prune

/-!
# Ssa/Preserve — the pass preserves every run

The graph before the pass and the one after it are run side by side.  At the start of a block the
two agree on what was seen so far, on the locals that a `Phi` there is for, and on the locals that
the bytecode needs (`AtStart`); another local may keep an older value in the graph after the pass.
This relation is kept by every block (`AtStart.block`), hence by every run.
-/

namespace Dsom

namespace LocalSsa

/-- What the bytecode needs at the start of a block it needs before the blocks that lead there,
unless they store it. -/
def Graph.LivenessClosed (g : Graph) : Prop :=
  ∀ b ∈ g.cfg.blocks, ∀ succ ∈ g.cfg.successors b, ∀ ident, g.isLiveAtHead succ ident = true →
    ¬ Stores g g.node (g.virtualRegister ident) b → g.isLiveAtHead b ident = true

/-- The results of the loops of `BuildPhiDataFlowGraph`, one after the other. -/
structure Outcome (g : Graph) (s₁ s s' s'' : State) : Prop where
  canonical : CanonicalGraph g s₁
  flagged : Flagged g s₁ s
  replaced : Replaced g s (List.range s.phis.size) s'
  pruning : Pruning g s' (g.cfg.blocks.flatMap g.cfg.nodes) s''

/-- A `Phi` at the head of a block to which a store flows. -/
def Needed (s : State) (b i : ℕ) : Prop :=
  ∃ p, s.phiAtHead b i = some p ∧ (s.phis.get p).canSeeSetLocal = true

section Outcome

variable {g : Graph} {s₁ s s' s'' : State} {b n i : ℕ}

/-- The nodes before pruning. -/
theorem Outcome.node (h : Outcome g s₁ s s' s'') : s'.node = s₁.node :=
  h.replaced.node.trans h.flagged.complete.placed.node

/-- The nodes after pruning. -/
theorem Outcome.pruned (h : Outcome g s₁ s s' s'') (hb : b ∈ g.cfg.blocks)
    (hn : n ∈ g.cfg.nodes b) : s''.node n = prunedNode g s' b n :=
  (h.pruning.node b hb n hn).trans (if_pos (List.mem_flatMap.mpr ⟨b, hb, hn⟩))

/-- The graph before pruning is ready for it. -/
theorem Outcome.ready (h : Outcome g s₁ s s' s'') (hwf : g.WellFormed) : Ready g s₁ s' :=
  h.replaced.ready h.flagged hwf h.canonical

/-- The `Phi` of a load. -/
theorem Outcome.phi_of_load (h : Outcome g s₁ s s' s'') (hb : b ∈ g.cfg.blocks)
    (hn : IsLoad g s₁.node (g.cfg.nodes b) i n) : ∃ p, s.dataFlowInfo n = some p ∧
      s.phiAtHead b i = some p ∧ p < s.phis.size ∧ (s.phis.get p).basicBlock = b ∧
        (s.phis.get p).localOrd = i ∧ deadLoad s' n = !(s.phis.get p).canSeeSetLocal := by
  have hplaced := h.flagged.complete.placed
  have hhead₁ := (h.canonical.blocks b hb).canonical.load i n hn
  have hhead : s.localInfoAtHead b i = .getLocal n := by
    rcases hplaced.events b i with ⟨hh, -⟩ | ⟨hh, -⟩
    · rw [hh, hhead₁]
    · rw [hh] at hhead₁
      cases hhead₁
  obtain ⟨p, hp⟩ := Option.isSome_iff_exists.mp (hplaced.load b hb i n hhead)
  have hat : s.phiAtHead b i = some p := (State.phiAtHead_getLocal hhead).trans hp
  obtain ⟨hlt, hpb, hpi⟩ := hplaced.located b hb i p hat
  obtain ⟨-, ident, hkind, -⟩ := hn
  refine ⟨p, hp, hat, hlt, hpb, hpi, ?_⟩
  rw [deadLoad, h.node, hkind]
  dsimp only
  rw [State.isTriviallyUndefGetLocal, h.replaced.info, hp]
  dsimp only
  rw [(h.replaced.phi p).canSeeSetLocal]

/-- A load that stays is one of a local that is needed. -/
theorem Outcome.needed_of_load (h : Outcome g s₁ s s' s'') (hb : b ∈ g.cfg.blocks)
    (hn : IsLoad g s₁.node (g.cfg.nodes b) i n) (hdead : deadLoad s' n = false) :
    Needed s b i := by
  obtain ⟨p, -, hat, -, -, -, heq⟩ := h.phi_of_load hb hn
  rw [hdead] at heq
  exact ⟨p, hat, by simpa using heq.symm⟩

/-- No store flows to a load that is removed. -/
theorem Outcome.not_flows_of_load (h : Outcome g s₁ s s' s'') (hb : b ∈ g.cfg.blocks)
    (hn : IsLoad g s₁.node (g.cfg.nodes b) i n) (hdead : deadLoad s' n = true) :
    ¬ Flows g s₁.node i (Stores g s₁.node i) b := by
  obtain ⟨p, -, -, hlt, rfl, rfl, heq⟩ := h.phi_of_load hb hn
  rw [hdead] at heq
  rw [← h.flagged.canSee p hlt]
  simpa using heq.symm

/-- A store stays if a `Phi` at a successor could see it. -/
theorem Outcome.store_of_needed (h : Outcome g s₁ s s' s'') (hwf : g.WellFormed)
    (hb : b ∈ g.cfg.blocks) {succ : ℕ} (hsucc : succ ∈ g.cfg.successors b)
    (hneeded : Needed s succ i) (hn : IsStore g s₁.node (g.cfg.nodes b) i n) :
    deadStore g s' b n = false := by
  obtain ⟨p, hat, hsee⟩ := hneeded
  obtain ⟨-, ident, hkind, rfl⟩ := hn
  have hlive := hwf.consistent.closed b hb succ hsucc
  have hat' := (h.replaced.phiAtHead hlive hsee).mpr hat
  have huser : (s'.localInfoAtHead succ (g.virtualRegister ident)).isUser = true := by
    rw [State.phiAtHead] at hat'
    cases hhead : s'.localInfoAtHead succ (g.virtualRegister ident) with
    | getLocal _ => rfl
    | phi _ => rfl
    | _ =>
      rw [hhead] at hat'
      cases hat'
  rw [deadStore, h.node, hkind]
  dsimp only
  rw [List.any_eq_true.mpr ⟨succ, hsucc, huser⟩]
  rfl

/-- What is needed after a block that does not store it is needed before it. -/
theorem Outcome.needed_before (h : Outcome g s₁ s s' s'') (hwf : g.WellFormed)
    (hb : b ∈ g.cfg.blocks) {succ : ℕ} (hsucc : succ ∈ g.cfg.successors b)
    (hneeded : Needed s succ i) (hnot : ¬ Stores g s₁.node i b)
    (hflows : Flows g s₁.node i (Stores g s₁.node i) b) : Needed s b i := by
  obtain ⟨p, hat, -⟩ := hneeded
  have hcomplete := h.flagged.complete
  have hlive := hwf.consistent.closed b hb succ hsucc
  obtain ⟨hlt, rfl, rfl⟩ := hcomplete.placed.located succ hlive i p hat
  have hpred := (hwf.consistent.mem _ hlive b).mpr ⟨hb, hsucc⟩
  obtain ⟨q, hqlt, -, hqat, hqb, hqi⟩ :=
    hcomplete.phi_of_flows h.canonical hwf hlt hpred hflows hnot
  refine ⟨q, hqat, (h.flagged.canSee q hqlt).mpr ?_⟩
  rw [hqb, hqi]
  exact hflows

/-- A store stays if the bytecode needs it at a successor. -/
theorem Outcome.store_of_live (h : Outcome g s₁ s s' s'') {succ : ℕ}
    (hsucc : succ ∈ g.cfg.successors b) {ident : LocalIdentifier}
    (hlive : g.isLiveAtHead succ ident = true) (hkind : (s₁.node n).kind = .setLocal ident) :
    deadStore g s' b n = false := by
  have htail : g.isSetLocalBytecodeLiveAtTail b ident = true :=
    List.any_eq_true.mpr ⟨succ, hsucc, hlive⟩
  rw [deadStore, h.node, hkind]
  dsimp only
  rw [htail, Bool.not_true, Bool.and_false]

end Outcome

/-! ## In a block

The pruned block is run beside the other one; they agree on what is needed. -/

section InBlock

variable {Val : Type} {β : Behaviour Val} {g : Graph} {s₁ s s' s'' : State} {b n : ℕ}
  {c c' c₀ c₀' : Config Val} {done rest : List ℕ}

/-- **The relation** at the start of a block. -/
structure AtStart (g : Graph) (s₁ s : State) (b : ℕ) (c c' : Config Val) : Prop where
  events : c.events = c'.events
  needed : ∀ i, Needed s b i → c.locals i = c'.locals i
  undef : ∀ i, ¬ Flows g s₁.node i (Stores g s₁.node i) b → c.locals i = none ∧ c'.locals i = none
  live : ∀ ident, g.isLiveAtHead b ident = true → ∀ v,
    c.locals (g.virtualRegister ident) = some (ident, v) →
      c'.locals (g.virtualRegister ident) = some (ident, v)

/-- **The relation** in a block, when the nodes of `done` were executed. -/
structure InBlock (β : Behaviour Val) (g : Graph) (s₁ s' : State) (b : ℕ) (c₀ c₀' : Config Val)
    (done : List ℕ) (c c' : Config Val) : Prop where
  events : c.events = c'.events
  env : ∀ v, Available s₁.node s₁.replacement done v →
    β.eval c.env v = β.eval c'.env (replaceValue (undefLoads g s') v)
  unstored : ∀ i, (∀ m, ¬ IsStore g s₁.node done i m) →
    c.locals i = c₀.locals i ∧ c'.locals i = c₀'.locals i
  stored : ∀ i m, IsStore g s₁.node done i m → deadStore g s' b m = false →
    c.locals i = c'.locals i
  ident : ∀ i m, IsStore g s₁.node done i m → ∃ ident v, (s₁.node m).kind = .setLocal ident ∧
    c.locals i = some (ident, v)

/-- A store among the nodes so far, or the next one. -/
theorem IsStore.of_concat {node : ℕ → Node} {i m : ℕ} (h : IsStore g node (done ++ [n]) i m) :
    IsStore g node done i m ∨ m = n ∧ IsStore g node [n] i n := by
  obtain ⟨hmem, hrest⟩ := h
  rcases List.mem_append.mp hmem with hmem | hmem
  · exact .inl ⟨hmem, hrest⟩
  · obtain rfl := List.mem_singleton.mp hmem
    exact .inr ⟨rfl, .head _, hrest⟩

/-- The outputs of one more node. -/
theorem InBlock.env_concat (h : InBlock β g s₁ s' b c₀ c₀' done c c') (hnew : n ∉ done)
    {c₁ c₁' : Config Val} (henv : ∀ m, m ≠ n → c₁.env m = c.env m)
    (henv' : ∀ m, m ≠ n → c₁'.env m = c'.env m)
    (hout : ∀ outputOrd, (s₁.node n).kind.HasOutput outputOrd →
      c₁.env n outputOrd = β.eval c₁'.env (replaceValue (undefLoads g s') (.ssa n outputOrd))) :
    ∀ v, Available s₁.node s₁.replacement (done ++ [n]) v →
      β.eval c₁.env v = β.eval c₁'.env (replaceValue (undefLoads g s') v) := by
  intro v hv
  cases v with
  | constant _ => rfl
  | ssa m outputOrd =>
    obtain ⟨hmem, hkind, hnone⟩ := hv
    rcases List.mem_append.mp hmem with hold | hold
    · have hne : m ≠ n := fun heq => hnew (heq ▸ hold)
      have hleft : β.eval c₁.env (.ssa m outputOrd) = β.eval c.env (.ssa m outputOrd) :=
        congrFun (henv m hne) outputOrd
      rw [hleft, h.env (.ssa m outputOrd) ⟨hold, hkind, hnone⟩, replaceValue, undefLoads]
      split_ifs
      · rfl
      · exact (congrFun (henv' m hne) outputOrd).symm
    · obtain rfl := List.mem_singleton.mp hold
      exact hout outputOrd hkind

/-- A node that is not a store leaves the locals alone. -/
theorem InBlock.locals_concat (h : InBlock β g s₁ s' b c₀ c₀' done c c')
    (hnot : ∀ ident, (s₁.node n).kind ≠ .setLocal ident) {c₁ c₁' : Config Val}
    (hevents : c₁.events = c₁'.events) (henv : ∀ v,
      Available s₁.node s₁.replacement (done ++ [n]) v →
        β.eval c₁.env v = β.eval c₁'.env (replaceValue (undefLoads g s') v))
    (hlocals : c₁.locals = c.locals) (hlocals' : c₁'.locals = c'.locals) :
    InBlock β g s₁ s' b c₀ c₀' (done ++ [n]) c₁ c₁' := by
  have hstore {i m : ℕ} (hm : IsStore g s₁.node (done ++ [n]) i m) :
      IsStore g s₁.node done i m := by
    rcases hm.of_concat with hm | ⟨rfl, -, ident, hkind, -⟩
    · exact hm
    · exact absurd hkind (hnot ident)
  refine ⟨hevents, henv, fun i hno => ?_, fun i m hm => ?_, fun i m hm => ?_⟩
  · rw [hlocals, hlocals']
    exact h.unstored i fun m hm => hno m ⟨List.mem_append_left _ hm.1, hm.2⟩
  · rw [hlocals, hlocals']
    exact h.stored i m (hstore hm)
  · rw [hlocals]
    exact h.ident i m (hstore hm)

/-- A node in the graph after the pass. -/
theorem Outcome.pruned_eq (ho : Outcome g s₁ s s' s'') (hb : b ∈ g.cfg.blocks)
    (hin : n ∈ g.cfg.nodes b) : s''.node n =
      let node := (s₁.node n).doReplacementForInputs (undefLoads g s')
      if deadLoad s' n || deadStore g s' b n then node.convertToNop else node := by
  rw [ho.pruned hb hin, prunedNode, ho.node]

/-- Only loads and stores are removed. -/
theorem Outcome.pruned_of_ne (ho : Outcome g s₁ s s' s'') (hb : b ∈ g.cfg.blocks)
    (hin : n ∈ g.cfg.nodes b) (hload : ∀ ident, (s₁.node n).kind ≠ .getLocal ident)
    (hstore : ∀ ident, (s₁.node n).kind ≠ .setLocal ident) :
    s''.node n = (s₁.node n).doReplacementForInputs (undefLoads g s') := by
  have hliveLoad : deadLoad s' n = false := by
    rw [← Bool.not_eq_true]
    intro hdead
    obtain ⟨ident, hident⟩ := deadLoad_isLoad hdead
    exact hload ident (ho.node ▸ hident)
  have hliveStore : deadStore g s' b n = false := by
    rw [← Bool.not_eq_true]
    intro hdead
    obtain ⟨ident, hident⟩ := deadStore_isStore hdead
    exact hstore ident (ho.node ▸ hident)
  rw [ho.pruned_eq hb hin, hliveLoad, hliveStore]
  rfl

/-- A node that stores a local which no earlier node stores; the other locals stay as they are. -/
theorem InBlock.store_concat (h : InBlock β g s₁ s' b c₀ c₀' done c c') {ident : LocalIdentifier}
    (hkind : (s₁.node n).kind = .setLocal ident)
    (honly : ∀ m, ¬ IsStore g s₁.node done (g.virtualRegister ident) m) {c₁ c₁' : Config Val}
    (hevents : c₁.events = c₁'.events) (henv : c₁.env = c.env) (henv' : c₁'.env = c'.env)
    {v : Val} (hlocals : c₁.locals = Function.update c.locals (g.virtualRegister ident)
      (some (ident, v)))
    (hlocals' : ∀ i ≠ g.virtualRegister ident, c₁'.locals i = c'.locals i)
    (hlive : deadStore g s' b n = false → c₁'.locals (g.virtualRegister ident) = some (ident, v))
    (hnew : n ∉ done) : InBlock β g s₁ s' b c₀ c₀' (done ++ [n]) c₁ c₁' := by
  have hne {i m : ℕ} (hm : IsStore g s₁.node done i m) : i ≠ g.virtualRegister ident := by
    rintro rfl
    exact honly m hm
  have hown {i : ℕ} (hm : IsStore g s₁.node [n] i n) : i = g.virtualRegister ident := by
    obtain ⟨-, ident', hkind', rfl⟩ := hm
    rw [hkind] at hkind'
    cases hkind'
    rfl
  have hother {i : ℕ} (hi : i ≠ g.virtualRegister ident) : c₁.locals i = c.locals i := by
    rw [hlocals, Function.update_of_ne hi]
  have hself : c₁.locals (g.virtualRegister ident) = some (ident, v) := by
    rw [hlocals, Function.update_self]
  refine ⟨hevents, h.env_concat hnew (fun m _ => congrFun henv m) (fun m _ => congrFun henv' m)
    fun outputOrd hout => ?_, fun i hno => ?_, fun i m hm hstays => ?_, fun i m hm => ?_⟩
  · rw [hkind] at hout
    exact hout.elim
  · have hi : i ≠ g.virtualRegister ident := by
      rintro rfl
      exact hno n ⟨List.mem_append_right _ (.head _), ident, hkind, rfl⟩
    have hunstored := h.unstored i fun m hm => hno m ⟨List.mem_append_left _ hm.1, hm.2⟩
    exact ⟨(hother hi).trans hunstored.1, (hlocals' i hi).trans hunstored.2⟩
  · rcases hm.of_concat with hm | ⟨rfl, hm⟩
    · rw [hother (hne hm), hlocals' i (hne hm)]
      exact h.stored i m hm hstays
    · rw [hown hm, hself, hlive hstays]
  · rcases hm.of_concat with hm | ⟨rfl, hm⟩
    · rw [hother (hne hm)]
      exact h.ident i m hm
    · rw [hown hm]
      exact ⟨ident, v, hkind, hself⟩

section Step

variable (h : InBlock β g s₁ s' b c₀ c₀' done c c') (ho : Outcome g s₁ s s' s'')
  (hwf : g.WellFormed) (hb : b ∈ g.cfg.blocks) (hl : g.cfg.nodes b = done ++ n :: rest)

include h ho hb hl

/-- The same checks are run, on inputs that agree. -/
theorem InBlock.runChecks_eq : β.runChecks n c.env (s₁.node n).inputs c.events =
    β.runChecks n c'.env ((s₁.node n).doReplacementForInputs (undefLoads g s')).inputs
      c'.events := by
  rw [h.events]
  exact runChecks_map (ρ := replaceOperand (undefLoads g s')) n c'.events (fun _ => rfl)
    (fun _ => rfl) fun e he =>
      h.env e.value ((ho.canonical.blocks b hb).canonical.uses done n rest hl e he)

/-- The same value is stored. -/
theorem InBlock.soleInput_eq {ident : LocalIdentifier}
    (hkind : (s₁.node n).kind = .setLocal ident) : β.eval c.env (g.soleInput (s₁.node n)) =
      β.eval c'.env (g.soleInput ((s₁.node n).doReplacementForInputs (undefLoads g s'))) := by
  have hcanon := (ho.canonical.blocks b hb).canonical
  obtain ⟨e, hinputs⟩ := hcanon.setLocal n (hl ▸ List.mem_append_right _ (.head _)) ident hkind
  have hinputs' : ((s₁.node n).doReplacementForInputs (undefLoads g s')).inputs =
      [replaceOperand (undefLoads g s') e] :=
    congrArg (List.map (replaceOperand (undefLoads g s'))) hinputs
  rw [Graph.soleInput, Graph.soleInput, hinputs, hinputs']
  exact h.env e.value (hcanon.uses done n rest hl e (hinputs ▸ .head _))

include hwf

omit h ho in
theorem notMem_done : n ∉ done :=
  fun hmem => (List.nodup_append'.mp (hl ▸ hwf.nodup_block hb)).2.2 hmem (.head _)

/-- **A load**: its local was not stored in this block so far. -/
theorem InBlock.step_getLocal (hstart : AtStart g s₁ s b c₀ c₀') {ident : LocalIdentifier}
    (hkind : (s₁.node n).kind = .getLocal ident) :
    InBlock β g s₁ s' b c₀ c₀' (done ++ [n]) (g.exec β n (s₁.node n) c)
      (g.exec β n (s''.node n) c') := by
  have hin : n ∈ g.cfg.nodes b := hl ▸ List.mem_append_right _ (.head _)
  have hnew := notMem_done hwf hb hl
  have hchecks := h.runChecks_eq ho hb hl
  have hpruned := ho.pruned_eq hb hin
  have hmem : IsLoad g s₁.node (g.cfg.nodes b) (g.virtualRegister ident) n :=
    ⟨hin, ident, hkind, rfl⟩
  have hunstored := h.unstored (g.virtualRegister ident) fun m hm => by
    obtain ⟨hmem, ident', hkind', hreg⟩ := hm
    obtain ⟨l, l', rfl⟩ := List.append_of_mem hmem
    rw [List.append_assoc, List.cons_append] at hl
    exact (ho.canonical.blocks b hb).canonical.after l m _ hl ident' hkind' n
      (List.mem_append_right _ (.head _)) ident hkind hreg.symm
  have hstore : deadStore g s' b n = false := by rw [deadStore, ho.node, hkind]
  cases hdead : deadLoad s' n with
  | true =>
    -- nothing flows here: the local is undefined, as the constant that is used instead
    have hnone := hstart.undef _ (ho.not_flows_of_load hb hmem hdead)
    rw [hpruned, hdead, Bool.true_or, if_pos rfl, exec_convertToNop, exec_getLocal hkind]
    refine h.locals_concat (by simp [hkind]) hchecks
      (h.env_concat hnew (fun m hm => Function.update_of_ne hm _ _) (fun _ _ => rfl)
        fun outputOrd _ => ?_) rfl rfl
    dsimp only
    rw [Function.update_self, replaceValue, undefLoads, if_pos hdead, hunstored.1, hnone.1]
    rfl
  | false =>
    have hneeded := hstart.needed _ (ho.needed_of_load hb hmem hdead)
    have hkind' : ((s₁.node n).doReplacementForInputs (undefLoads g s')).kind = .getLocal ident :=
      hkind
    rw [hpruned, hdead, hstore, Bool.false_or, if_neg (by simp), exec_getLocal hkind',
      exec_getLocal hkind]
    refine h.locals_concat (by simp [hkind]) hchecks
      (h.env_concat hnew (fun m hm => Function.update_of_ne hm _ _)
        (fun m hm => Function.update_of_ne hm _ _) fun outputOrd _ => ?_) rfl rfl
    rw [replaceValue, undefLoads, hdead, if_neg (by simp), Option.getD_none]
    dsimp only [Behaviour.eval]
    rw [Function.update_self, Function.update_self, hunstored.1, hunstored.2, hneeded]

/-- **A store**: no other node of the block stores its local. -/
theorem InBlock.step_setLocal {ident : LocalIdentifier}
    (hkind : (s₁.node n).kind = .setLocal ident) :
    InBlock β g s₁ s' b c₀ c₀' (done ++ [n]) (g.exec β n (s₁.node n) c)
      (g.exec β n (s''.node n) c') := by
  have hin : n ∈ g.cfg.nodes b := hl ▸ List.mem_append_right _ (.head _)
  have hnew := notMem_done hwf hb hl
  have hchecks := h.runChecks_eq ho hb hl
  have hload : deadLoad s' n = false := by rw [deadLoad, ho.node, hkind]
  have honly (m : ℕ) : ¬ IsStore g s₁.node done (g.virtualRegister ident) m := by
    intro hm
    have hstore := (ho.canonical.blocks b hb).canonical.store
    have htail := hstore _ m ⟨hl ▸ List.mem_append_left _ hm.1, hm.2⟩
    rw [hstore _ n ⟨hin, ident, hkind, rfl⟩] at htail
    cases htail
    exact hnew hm.1
  cases hstore : deadStore g s' b n with
  | true =>
    rw [ho.pruned_eq hb hin, hload, hstore, Bool.or_true, if_pos rfl, exec_convertToNop,
      exec_setLocal hkind]
    refine h.store_concat hkind honly hchecks rfl rfl rfl (fun _ _ => rfl) (fun hlive => ?_) hnew
    rw [hstore] at hlive
    cases hlive
  | false =>
    have hkind' : ((s₁.node n).doReplacementForInputs (undefLoads g s')).kind = .setLocal ident :=
      hkind
    rw [ho.pruned_eq hb hin, hload, hstore, Bool.or_false, if_neg (by simp), exec_setLocal hkind,
      exec_setLocal hkind', h.soleInput_eq ho hb hl hkind]
    exact h.store_concat hkind honly hchecks rfl rfl rfl
      (fun _ hi => Function.update_of_ne hi _ _) (fun _ => Function.update_self ..) hnew

/-- **A `Nop`** only runs its checks. -/
theorem InBlock.step_nop (hkind : (s₁.node n).kind = .nop) :
    InBlock β g s₁ s' b c₀ c₀' (done ++ [n]) (g.exec β n (s₁.node n) c)
      (g.exec β n (s''.node n) c') := by
  have hkind' : ((s₁.node n).doReplacementForInputs (undefLoads g s')).kind = .nop := hkind
  rw [ho.pruned_of_ne hb (hl ▸ List.mem_append_right _ (.head _)) (by simp [hkind])
    (by simp [hkind]), exec_nop hkind, exec_nop hkind']
  refine h.locals_concat (by simp [hkind]) (h.runChecks_eq ho hb hl)
    (h.env_concat (notMem_done hwf hb hl) (fun _ _ => rfl) (fun _ _ => rfl)
      fun outputOrd hout => ?_) rfl rfl
  rw [hkind] at hout
  exact hout.elim

/-- **Any other node** sees the same values and answers the same. -/
theorem InBlock.step_other (hkind : (s₁.node n).kind.IsOther) :
    InBlock β g s₁ s' b c₀ c₀' (done ++ [n]) (g.exec β n (s₁.node n) c)
      (g.exec β n (s''.node n) c') := by
  let node' := (s₁.node n).doReplacementForInputs (undefLoads g s')
  have hkind' : node'.kind.IsOther := hkind
  have hvalues : ((s₁.node n).inputs.map fun e => β.eval c.env e.value) =
      node'.inputs.map fun e => β.eval c'.env e.value := by
    change _ = ((s₁.node n).inputs.map (replaceOperand (undefLoads g s'))).map _
    rw [List.map_map]
    exact List.map_congr_left fun e he =>
      h.env e.value ((ho.canonical.blocks b hb).canonical.uses done n rest hl e he)
  rw [ho.pruned_of_ne hb (hl ▸ List.mem_append_right _ (.head _)) hkind.1 hkind.2.1,
    exec_other hkind, exec_other hkind', h.runChecks_eq ho hb hl, hvalues]
  refine h.locals_concat hkind.2.1 rfl
    (h.env_concat (notMem_done hwf hb hl) (fun m hm => Function.update_of_ne hm _ _)
      (fun m hm => Function.update_of_ne hm _ _) fun outputOrd _ => ?_) rfl rfl
  have hnone : undefLoads g s' n = none := by
    rw [undefLoads, if_neg fun hdead => ?_]
    obtain ⟨ident, hident⟩ := deadLoad_isLoad hdead
    exact hkind.1 ident (ho.node ▸ hident)
  rw [replaceValue, hnone, Option.getD_none]
  dsimp only [Behaviour.eval]
  rw [Function.update_self, Function.update_self]

/-- **One node** is executed. -/
theorem InBlock.step (hstart : AtStart g s₁ s b c₀ c₀') :
    InBlock β g s₁ s' b c₀ c₀' (done ++ [n]) (g.exec β n (s₁.node n) c)
      (g.exec β n (s''.node n) c') := by
  rcases (s₁.node n).kind.cases with ⟨ident, hkind⟩ | ⟨ident, hkind⟩ | hkind | hkind
  · exact h.step_getLocal ho hwf hb hl hstart hkind
  · exact h.step_setLocal ho hwf hb hl hkind
  · exact h.step_nop ho hwf hb hl hkind
  · exact h.step_other ho hwf hb hl hkind

end Step

/-- All nodes of a block are executed. -/
theorem AtStart.inBlock (hstart : AtStart g s₁ s b c c') (ho : Outcome g s₁ s s' s'')
    (hwf : g.WellFormed) (hb : b ∈ g.cfg.blocks) :
    InBlock β g s₁ s' b c c' (g.cfg.nodes b) (g.execNodes β s₁.node (g.cfg.nodes b) c)
      (g.execNodes β s''.node (g.cfg.nodes b) c') := by
  suffices h : ∀ done rest d d', g.cfg.nodes b = done ++ rest →
      InBlock β g s₁ s' b c c' done d d' → InBlock β g s₁ s' b c c' (g.cfg.nodes b)
        (g.execNodes β s₁.node rest d) (g.execNodes β s''.node rest d') by
    refine h [] (g.cfg.nodes b) c c' rfl ⟨hstart.events, fun v hv => ?_, fun i _ => ⟨rfl, rfl⟩,
      fun i m hm => absurd hm.1 List.not_mem_nil, fun i m hm => absurd hm.1 List.not_mem_nil⟩
    cases v with
    | constant _ => rfl
    | ssa m outputOrd => exact absurd hv.1 List.not_mem_nil
  intro done rest
  induction rest generalizing done with
  | nil =>
    intro d d' hl h
    rw [List.append_nil] at hl
    exact hl ▸ h
  | cons n rest ih =>
    intro d d' hl h
    exact ih (done ++ [n]) _ _ (by rw [hl, List.append_assoc, List.singleton_append])
      (h.step ho hwf hb hl hstart)

/-- What is live after a block is live before it, unless the block stores the local. -/
def LiveThrough (g : Graph) (s₁ : State) : Prop :=
  ∀ b ∈ g.cfg.blocks, ∀ succ ∈ g.cfg.successors b, ∀ ident, g.isLiveAtHead succ ident = true →
    ¬ Stores g s₁.node (g.virtualRegister ident) b → g.isLiveAtHead b ident = true

/-- **One block** is executed. -/
theorem AtStart.block (hstart : AtStart g s₁ s b c c') (ho : Outcome g s₁ s s' s'')
    (hwf : g.WellFormed) (hlive : LiveThrough g s₁) (hb : b ∈ g.cfg.blocks) {succ : ℕ}
    (hsucc : succ ∈ g.cfg.successors b) :
    AtStart g s₁ s succ (g.execNodes β s₁.node (g.cfg.nodes b) c)
      (g.execNodes β s''.node (g.cfg.nodes b) c') := by
  have h := hstart.inBlock (β := β) ho hwf hb
  have hlive' := hwf.consistent.closed b hb succ hsucc
  refine ⟨h.events, fun i hneeded => ?_, fun i hno => ?_, fun ident hident v hv => ?_⟩
  · by_cases hstores : Stores g s₁.node i b
    · obtain ⟨m, hm⟩ := hstores
      exact h.stored i m hm (ho.store_of_needed hwf hb hsucc hneeded hm)
    · obtain ⟨hleft, hright⟩ := h.unstored i fun m hm => hstores ⟨m, hm⟩
      rw [hleft, hright]
      by_cases hflows : Flows g s₁.node i (Stores g s₁.node i) b
      · exact hstart.needed i (ho.needed_before hwf hb hsucc hneeded hstores hflows)
      · obtain ⟨hnone, hnone'⟩ := hstart.undef i hflows
        rw [hnone, hnone']
  · have hnot : ¬ Stores g s₁.node i b := fun hstores => hno (.start hb hstores hsucc)
    obtain ⟨hleft, hright⟩ := h.unstored i fun m hm => hnot ⟨m, hm⟩
    rw [hleft, hright]
    exact hstart.undef i fun hflows => hno (.pass hb hflows hnot hsucc)
  · by_cases hstores : Stores g s₁.node (g.virtualRegister ident) b
    · obtain ⟨m, hm⟩ := hstores
      obtain ⟨ident', v', hkind, hv'⟩ := h.ident _ m hm
      rw [hv'] at hv
      cases hv
      rw [← h.stored _ m hm (ho.store_of_live hsucc hident hkind), hv']
    · obtain ⟨hleft, hright⟩ := h.unstored _ fun m hm => hstores ⟨m, hm⟩
      rw [hleft] at hv
      rw [hright]
      exact hstart.live ident (hlive b hb succ hsucc ident hident hstores) v hv

end InBlock

/-! ## Runs -/

section Run

variable {Val : Type} {β : Behaviour Val} {g : Graph} {s₁ s s' s'' : State}

/-- **The relation** between the two runs, after each has executed some blocks. -/
structure SameRun (g : Graph) (s₁ s : State) (r r' : Option ℕ × Config Val) : Prop where
  block : r.1 = r'.1
  events : r.2.events = r'.2.events
  start : ∀ b, r.1 = some b → b ∈ g.cfg.blocks ∧ AtStart g s₁ s b r.2 r'.2

/-- A run goes to a successor. -/
theorem nextBlock_mem {b succ : ℕ} {c : Config Val} (h : g.nextBlock β b c = some succ) :
    succ ∈ g.cfg.successors b := by
  rw [Graph.nextBlock] at h
  split_ifs at h
  exact List.mem_of_getElem? h

/-- The graph with other nodes. -/
def Graph.withNodes (g : Graph) (node : ℕ → Node) : Graph := { g with node := node }

/-- Any number of blocks. -/
theorem SameRun.run (k : ℕ) {r r' : Option ℕ × Config Val} (h : SameRun g s₁ s r r')
    (ho : Outcome g s₁ s s' s'') (hwf : g.WellFormed) (hlive : LiveThrough g s₁) :
    SameRun g s₁ s ((g.withNodes s₁.node).runBlocks β k r)
      ((g.withNodes s''.node).runBlocks β k r') := by
  induction k generalizing r r' with
  | zero => exact h
  | succ k ih =>
    obtain ⟨b, c⟩ := r
    obtain ⟨b', c'⟩ := r'
    obtain rfl : b = b' := h.block
    cases b with
    | none => exact ih ⟨rfl, h.events, fun b hb => by cases hb⟩
    | some b =>
      obtain ⟨hb, hstart⟩ := h.start b rfl
      have hevents := (hstart.inBlock (β := β) ho hwf hb).events
      have hnext : g.nextBlock β b (g.execNodes β s₁.node (g.cfg.nodes b) c) =
          g.nextBlock β b (g.execNodes β s''.node (g.cfg.nodes b) c') := by
        rw [Graph.nextBlock, Graph.nextBlock, hevents]
      refine ih ⟨hnext, hevents, fun succ hsucc => ?_⟩
      have hmem := nextBlock_mem hsucc
      exact ⟨hwf.consistent.closed b hb succ hmem, hstart.block ho hwf hlive hb hmem⟩

/-- Both runs start with nothing stored. -/
theorem SameRun.begin (hwf : g.WellFormed) (env : ℕ → ℕ → Val) :
    SameRun g s₁ s (g.startConfig env) (g.startConfig env) where
  block := rfl
  events := rfl
  start b hb := by
    cases hb
    refine ⟨hwf.consistent.entry.1, rfl, fun _ _ => rfl, fun _ _ => ⟨rfl, rfl⟩, fun _ _ v hv => ?_⟩
    cases hv

/-! ## Canonicalization -/

/-- Canonicalization keeps whole runs, the locals included. -/
theorem runBlocks_canonical (hwf : g.WellFormed) (hcanon : CanonicalGraph g s₁) (k : ℕ)
    {o : Option ℕ} {c c' : Config Val} (hsame : SameOutside c c')
    (ho : ∀ b, o = some b → b ∈ g.cfg.blocks)
    (hentry : o = some g.cfg.getEntryBB → ∀ i, c.locals i = none) :
    (g.runBlocks β k (o, c)).1 = ((g.withNodes s₁.node).runBlocks β k (o, c')).1 ∧
      SameOutside (g.runBlocks β k (o, c)).2 ((g.withNodes s₁.node).runBlocks β k (o, c')).2 := by
  induction k generalizing o c c' with
  | zero => exact ⟨rfl, hsame⟩
  | succ k ih =>
    cases o with
    | none => exact ih hsame ho hentry
    | some b =>
      have hb := ho b rfl
      have hblock := (hcanon.blocks b hb).same Val β c c' hsame fun heq => hentry (heq ▸ rfl)
      have hnext : g.nextBlock β b (g.execNodes β g.node (g.cfg.nodes b) c) =
          g.nextBlock β b (g.execNodes β s₁.node (g.cfg.nodes b) c') := by
        rw [Graph.nextBlock, Graph.nextBlock, hblock.events]
      have hrun : (g.withNodes s₁.node).runBlocks β (k + 1) (some b, c') =
          (g.withNodes s₁.node).runBlocks β k
            (g.nextBlock β b (g.execNodes β g.node (g.cfg.nodes b) c),
              g.execNodes β s₁.node (g.cfg.nodes b) c') := by
        rw [hnext]
        rfl
      rw [hrun, Graph.runBlocks]
      refine ih hblock (fun succ hsucc => hwf.consistent.closed b hb succ (nextBlock_mem hsucc))
        fun hsucc => ?_
      have hpred := (hwf.consistent.mem _ hwf.consistent.entry.1 b).mpr ⟨hb, nextBlock_mem hsucc⟩
      rw [hwf.consistent.entry.2] at hpred
      cases hpred

end Run

section Stores

variable {Val : Type} {β : Behaviour Val} {g : Graph} {s₁ : State} {node : ℕ → Node} {i b : ℕ}

/-- A local without a store keeps its value. -/
theorem execNodes_locals {l : List ℕ} (c : Config Val) (h : ∀ m, ¬ IsStore g node l i m) :
    (g.execNodes β node l c).locals i = c.locals i := by
  refine Folds.foldl_invariant (P := fun d : Config Val => d.locals i = c.locals i) rfl
    fun d n hn hd => ?_
  rcases (node n).kind.cases with ⟨ident, hkind⟩ | ⟨ident, hkind⟩ | hkind | hkind
  · rw [exec_getLocal hkind]
    exact hd
  · rw [exec_setLocal hkind]
    refine (Function.update_of_ne ?_ _ _).trans hd
    rintro rfl
    exact h n ⟨hn, ident, hkind, rfl⟩
  · rw [exec_nop hkind]
    exact hd
  · rw [exec_other hkind]
    exact hd

theorem exec_keeps_stored (n : ℕ) (node : Node) {c : Config Val} (h : (c.locals i).isSome) :
    ((g.exec β n node c).locals i).isSome := by
  rcases node.kind.cases with ⟨ident, hkind⟩ | ⟨ident, hkind⟩ | hkind | hkind
  · rw [exec_getLocal hkind]
    exact h
  · rw [exec_setLocal hkind]
    dsimp only
    by_cases hi : i = g.virtualRegister ident
    · rw [hi, Function.update_self]
      rfl
    · rwa [Function.update_of_ne hi]
  · rw [exec_nop hkind]
    exact h
  · rw [exec_other hkind]
    exact h

/-- A local with a store has a value. -/
theorem execNodes_stored {l : List ℕ} (c : Config Val) {m : ℕ} (h : IsStore g node l i m) :
    ((g.execNodes β node l c).locals i).isSome := by
  obtain ⟨hmem, ident, hkind, rfl⟩ := h
  obtain ⟨done, rest, rfl⟩ := List.append_of_mem hmem
  rw [execNodes_append]
  have hstep : ((g.exec β m (node m) (g.execNodes β node done c)).locals
      (g.virtualRegister ident)).isSome := by
    rw [exec_setLocal hkind]
    dsimp only
    rw [Function.update_self]
    rfl
  exact Folds.foldl_invariant (P := fun d : Config Val =>
    (d.locals (g.virtualRegister ident)).isSome) (l := rest) hstep
      fun d n _ hd => exec_keeps_stored n (node n) hd

/-- Canonicalization keeps the last store of a local: executing the block tells. -/
theorem stores_of_canonical (hcanon : CanonicalGraph g s₁) (hb : b ∈ g.cfg.blocks)
    (h : Stores g g.node i b) : Stores g s₁.node i b := by
  by_contra hnot
  obtain ⟨m, hm⟩ := h
  let β : Behaviour Unit := ⟨fun _ => (), fun _ _ => (), fun _ => false, fun _ => 0⟩
  let c : Config Unit := ⟨fun _ _ => (), fun _ => none, []⟩
  have hsame := (hcanon.blocks b hb).same Unit β c c ⟨rfl, rfl⟩ fun _ _ => rfl
  have hsome := execNodes_stored (β := β) c hm
  have hnone := execNodes_locals (g := g) (β := β) c fun m hm => hnot ⟨m, hm⟩
  rw [hsame.locals, hnone] at hsome
  cases hsome

/-- What is live at a tail is live at the heads that follow. -/
theorem Graph.LivenessClosed.through (h : g.LivenessClosed) (hcanon : CanonicalGraph g s₁) :
    LiveThrough g s₁ := fun b hb succ hsucc ident hlive hnot =>
  h b hb succ hsucc ident hlive fun hstores => hnot (stores_of_canonical hcanon hb hstores)

end Stores

/-! ## `Nop`s -/

section Nops

variable {Val : Type} {β : Behaviour Val} {g : Graph} {s : State}

/-- A `Nop` without inputs does nothing. -/
theorem exec_emptyNop {n : ℕ} {node : Node} (h : node.isEmptyNop = true) (c : Config Val) :
    g.exec β n node c = c := by
  rw [Node.isEmptyNop, Bool.and_eq_true, beq_iff_eq, List.isEmpty_iff] at h
  rw [exec_nop h.1, h.2]
  rfl

/-- Nor do several of them. -/
theorem execNodes_removeEmptyNopNodes (node : ℕ → Node) (l : List ℕ) (c : Config Val) :
    g.execNodes β node (removeEmptyNopNodes node l) c = g.execNodes β node l c := by
  have hfilter (l : List ℕ) (c : Config Val) :
      g.execNodes β node (l.filter fun n => !(node n).isEmptyNop) c = g.execNodes β node l c := by
    induction l generalizing c with
    | nil => rfl
    | cons n l ih =>
      cases hn : (node n).isEmptyNop with
      | true =>
        rw [List.filter_cons_of_neg (by simp [hn]), ih]
        exact congrArg (g.execNodes β node l) (exec_emptyNop hn c).symm
      | false =>
        rw [List.filter_cons_of_pos (by simp [hn])]
        exact ih _
  rw [removeEmptyNopNodes]
  split_ifs with hempty
  · -- only `Nop`s: the last of them stays
    have hnil : g.execNodes β node l c = c := by
      rw [← hfilter l c, List.isEmpty_iff.mp hempty]
      rfl
    rw [hnil]
    cases hlast : l.getLast? with
    | none => rfl
    | some n =>
      have hn : (node n).isEmptyNop = true := by
        by_contra hnot
        have hmem : n ∈ l.filter fun n => !(node n).isEmptyNop :=
          List.mem_filter.mpr ⟨List.mem_of_getLast? hlast, by simpa using hnot⟩
        rw [List.isEmpty_iff.mp hempty] at hmem
        cases hmem
      exact exec_emptyNop hn c
  · exact hfilter l c

/-- Removing them changes no run. -/
theorem runBlocks_removeNopNodes (k : ℕ) (r : Option ℕ × Config Val) :
    (g.removeNopNodes s).runBlocks β k r = (g.withNodes s.node).runBlocks β k r := by
  induction k generalizing r with
  | zero => rfl
  | succ k ih =>
    obtain ⟨o, c⟩ := r
    cases o with
    | none => exact ih _
    | some b =>
      have hexec : (g.removeNopNodes s).execNodes β s.node ((g.removeNopNodes s).cfg.nodes b) c =
          g.execNodes β s.node (g.cfg.nodes b) c := by
        change g.execNodes β s.node (if b ∈ g.cfg.blocks then
          removeEmptyNopNodes s.node (g.cfg.nodes b) else g.cfg.nodes b) c = _
        split_ifs
        · exact execNodes_removeEmptyNopNodes s.node _ c
        · rfl
      refine (ih _).trans ?_
      change (g.withNodes s.node).runBlocks β k (g.nextBlock β b
        ((g.removeNopNodes s).execNodes β s.node ((g.removeNopNodes s).cfg.nodes b) c),
          (g.removeNopNodes s).execNodes β s.node ((g.removeNopNodes s).cfg.nodes b) c) = _
      rw [hexec]
      rfl

end Nops

/-! ## The pass -/

/-- **Every run** is preserved: the same blocks are executed with the same events, and whenever a
block starts, the locals that the bytecode needs there are the same. -/
theorem runs_preserved {g : Graph} (hwf : g.WellFormed) (hlive : g.LivenessClosed) :
    ∃ fuel₀, ∀ fuel, fuel₀ ≤ fuel → ∃ s,
      g.buildPhiDataFlowGraph fuel g.canonicalizeAllLocalOperations = some s ∧
      ∀ (Val : Type) (β : Behaviour Val) (env : ℕ → ℕ → Val) (k : ℕ),
        let r := g.runBlocks β k (g.startConfig env)
        let r' := (g.removeNopNodes s).runBlocks β k ((g.removeNopNodes s).startConfig env)
        r'.1 = r.1 ∧ r'.2.events = r.2.events ∧ ∀ b, r.1 = some b → ∀ ident,
          g.isLiveAtHead b ident = true → ∀ v,
            r.2.locals (g.virtualRegister ident) = some (ident, v) →
              r'.2.locals (g.virtualRegister ident) = some (ident, v) := by
  have hcanon := canonicalizeAll_spec hwf
  obtain ⟨fuel₀, hbuild⟩ := buildPhiDataFlowGraph_spec hwf hcanon
  refine ⟨fuel₀, fun fuel hfuel => ?_⟩
  obtain ⟨s, s', s'', heq, hflagged, hreplaced, hpruning⟩ := hbuild fuel hfuel
  refine ⟨s'', heq, fun Val β env k => ?_⟩
  have hbegin : SameOutside (⟨env, fun _ => none, []⟩ : Config Val) ⟨env, fun _ => none, []⟩ :=
    ⟨rfl, rfl⟩
  obtain ⟨hblock, hsame⟩ := runBlocks_canonical (β := β) (o := some g.cfg.getEntryBB) hwf hcanon k
    hbegin (fun b hb => by cases hb; exact hwf.consistent.entry.1) fun _ _ => rfl
  have hstart : SameRun g g.canonicalizeAllLocalOperations s (g.startConfig env)
    (g.startConfig env) := .begin hwf env
  have hrun := hstart.run (β := β) k ⟨hcanon, hflagged, hreplaced, hpruning⟩ hwf
    (hlive.through hcanon)
  have hnops := runBlocks_removeNopNodes (β := β) (g := g) (s := s'') k (g.startConfig env)
  intro r r'
  have hr' : r' = (g.withNodes s''.node).runBlocks β k (g.startConfig env) := hnops
  rw [hr']
  refine ⟨hrun.block.symm.trans hblock.symm, hrun.events.symm.trans hsame.events.symm,
    fun b hb ident hident v hv => ?_⟩
  refine (hrun.start b (hblock.symm.trans hb)).2.live ident hident v ?_
  exact (congrFun hsame.locals _).symm.trans hv

/-! ## An example -/

/-- A loop that stores a local and loads it, a dead store, and a load of a local that is never
stored. -/
def loopGraph : Graph where
  cfg :=
    { blocks := [0, 1, 2]
      node := fun _ => ⟨false, 0, false, false, false, none⟩
      nodes := fun bb => if bb = 0 then [0, 1] else if bb = 1 then [2, 3, 4, 5] else [6, 7]
      terminator := fun _ => none
      successors := fun bb => if bb = 0 then [1] else if bb = 1 then [1, 2] else []
      predOrdForSuccessors := fun bb succOrd => if bb = 1 ∧ succOrd = 0 then 1 else 0
      predecessors := fun bb => if bb = 1 then [0, 1] else if bb = 2 then [1] else []
      isReachable := fun _ => true
      replacement := fun _ => none }
  node n :=
    if n = 0 then ⟨.setLocal ⟨0, 0⟩, [⟨.constant 7, 0, false⟩]⟩
    else if n = 1 then ⟨.setLocal ⟨0, 1⟩, [⟨.constant 8, 0, false⟩]⟩
    else if n = 2 then ⟨.getLocal ⟨0, 0⟩, []⟩
    else if n = 3 then ⟨.getLocal ⟨0, 2⟩, []⟩
    else if n = 4 then ⟨.other, [⟨.ssa 2 0, 0, true⟩, ⟨.ssa 3 0, 0, false⟩]⟩
    else if n = 5 then ⟨.setLocal ⟨0, 0⟩, [⟨.ssa 4 0, 0, false⟩]⟩
    else if n = 6 then ⟨.getLocal ⟨0, 0⟩, []⟩
    else if n = 7 then ⟨.other, [⟨.ssa 6 0, 0, false⟩]⟩
    else ⟨.other, []⟩
  undefValue := 0
  numLocals := 3
  virtualRegister ident := ident.location % 3
  interpreterSlot ident := ident.location
  isLiveAtHead bb ident := bb != 0 && ident.location % 3 == 0

/-- A part of a list before an element, by its length. -/
theorem split_eq_take {l done rest : List ℕ} {n : ℕ} (h : l = done ++ n :: rest) :
    done = l.take done.length ∧ l[done.length]? = some n := by
  rw [h, List.take_left]
  simp

theorem loopGraph_blocks {b : ℕ} : b ∈ loopGraph.cfg.blocks ↔ b = 0 ∨ b = 1 ∨ b = 2 := by
  simp [loopGraph]

/-- The example is well formed. -/
theorem loopGraph_wellFormed : loopGraph.WellFormed where
  nodup := by decide
  consistent :=
    { closed := fun b hb s hs => by
        rw [loopGraph_blocks]
        rcases loopGraph_blocks.mp hb with rfl | rfl | rfl <;> simp [loopGraph] at hs <;> omega
      mem := fun b hb p => by
        rw [loopGraph_blocks]
        rcases loopGraph_blocks.mp hb with rfl | rfl | rfl <;> simp only [loopGraph] <;>
          grind
      nodup := fun b hb => by
        rcases loopGraph_blocks.mp hb with rfl | rfl | rfl <;> decide
      ord := fun p hp i s hi => by
        rcases loopGraph_blocks.mp hp with rfl | rfl | rfl <;>
          rcases i with _ | _ | i <;> simp [loopGraph] at hi ⊢ <;> subst hi <;> simp
      entry := ⟨by decide, rfl⟩
      reach := fun b hb => by
        have h₁ : loopGraph.cfg.Reach 0 1 := .single (.head _)
        have h₂ : loopGraph.cfg.Reach 1 2 := .single (.tail _ (.head _))
        rcases loopGraph_blocks.mp hb with rfl | rfl | rfl
        · exact .refl
        · exact h₁
        · exact h₁.trans h₂ }
  nodup_nodes := by decide
  register_lt ident := Nat.mod_lt _ (by decide)
  getLocal n ident h := by
    simp only [loopGraph] at h ⊢
    split_ifs at h ⊢ <;> simp_all
  setLocal n ident h := by
    simp only [loopGraph] at h ⊢
    split_ifs at h ⊢ <;> simp_all
  uses bb hbb done n rest hl e he := by
    obtain ⟨hdone, hn⟩ := split_eq_take hl
    generalize done.length = k at hdone hn
    subst hdone
    rcases loopGraph_blocks.mp hbb with rfl | rfl | rfl <;>
      rcases k with _ | _ | _ | _ | k <;> simp [loopGraph] at hn <;> subst hn <;>
        simp [loopGraph] at he <;> rcases he with rfl | rfl <;>
          simp [loopGraph, Available, NodeKind.HasOutput]

theorem loopGraph_livenessClosed : loopGraph.LivenessClosed := by
  intro b hb succ hsucc ident hident hnot
  have hzero : ident.location % 3 = 0 := by
    simp only [loopGraph, Bool.and_eq_true, beq_iff_eq] at hident
    exact hident.2
  have hreg : loopGraph.virtualRegister ident = 0 := hzero
  rw [hreg] at hnot
  rcases loopGraph_blocks.mp hb with rfl | rfl | rfl
  · exact absurd ⟨0, by decide, ⟨0, 0⟩, rfl, rfl⟩ hnot
  · exact absurd ⟨5, by decide, ⟨0, 0⟩, rfl, rfl⟩ hnot
  · cases hsucc

theorem runs_preserved_loopGraph : ∃ fuel₀, ∀ fuel, fuel₀ ≤ fuel → ∃ s,
    loopGraph.buildPhiDataFlowGraph fuel loopGraph.canonicalizeAllLocalOperations = some s ∧
    ∀ (Val : Type) (β : Behaviour Val) (env : ℕ → ℕ → Val) (k : ℕ),
      let r := loopGraph.runBlocks β k (loopGraph.startConfig env)
      let r' := (loopGraph.removeNopNodes s).runBlocks β k
        ((loopGraph.removeNopNodes s).startConfig env)
      r'.1 = r.1 ∧ r'.2.events = r.2.events ∧ ∀ b, r.1 = some b → ∀ ident,
        loopGraph.isLiveAtHead b ident = true → ∀ v,
          r.2.locals (loopGraph.virtualRegister ident) = some (ident, v) →
            r'.2.locals (loopGraph.virtualRegister ident) = some (ident, v) :=
  runs_preserved loopGraph_wellFormed loopGraph_livenessClosed

end LocalSsa

end Dsom
