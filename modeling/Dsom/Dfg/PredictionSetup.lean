import Dsom.Dfg.Prediction
import Mathlib.Data.Option.Basic

/-!
# Dfg/PredictionSetup — the rules of a graph, and what is made of them

`nodeRules` are the propagation rules of a node, and `Graph.rules` those of a graph, as a plain list
over the cells.  Every rule of a node is either run when the node is processed, or put into the
rules of its block, or is a guard of it (`processNode_effect`).
-/

namespace Dsom

namespace Prediction

open Rules

/-! ## The rules -/

/-- One cell follows another. -/
def copyRule (dst src : Cell) : Rule Cell TypeMask where
  dst := dst
  val σ := σ src

/-- A cell has a mask that is known beforehand. -/
def fixedRule (dst : Cell) (mask : TypeMask) : Rule Cell TypeMask where
  dst := dst
  val _ := mask

section Rules

variable (masks : TypeMasks) (bbOrd nodeIdx : ℕ)

/-- The rule for an output of a guest language node. -/
def outputRule (inputs : List (Option Value)) (output : TypeDeduction × ℕ) :
    Rule Cell TypeMask where
  dst := .output bbOrd nodeIdx output.2
  val σ := match output.1 with
    | .function f => f (inputs.map fun input => input.map fun v => σ (v.cell bbOrd))
    | deduction => initialMask masks deduction

/-- The propagation rules of a node. -/
def nodeRules : Node → List (Rule Cell TypeMask)
  | .guest inputs hasDirectOutput outputs =>
      (outputOrds hasDirectOutput outputs).map (outputRule masks bbOrd nodeIdx inputs)
  | .noOutput => []
  | .getLocal lvOrd => [copyRule (.output bbOrd nodeIdx 0) (.logicalVar lvOrd)]
  | .setLocal lvOrd input => [copyRule (.logicalVar lvOrd) (input.cell bbOrd)]
  | .createCapturedVar cvOrd none =>
      [fixedRule (.capturedVar cvOrd) masks.tFunction,
        fixedRule (.output bbOrd nodeIdx 0) masks.tOpaque]
  | .createCapturedVar cvOrd (some input) =>
      [copyRule (.capturedVar cvOrd) (input.cell bbOrd),
        fixedRule (.output bbOrd nodeIdx 0) masks.tOpaque]
  | .getCapturedVar cvOrd => [copyRule (.output bbOrd nodeIdx 0) (.capturedVar cvOrd)]
  | .setCapturedVar cvOrd input => [copyRule (.capturedVar cvOrd) (input.cell bbOrd)]
  | .getKthVariadicRes => [fixedRule (.output bbOrd nodeIdx 0) masks.tBoxedValueTop]
  | .getNumVariadicRes => [fixedRule (.output bbOrd nodeIdx 0) masks.tOpaque]
  | .i64SubSaturateToZero => [fixedRule (.output bbOrd nodeIdx 0) masks.tOpaque]
  | .createFunctionObject => [fixedRule (.output bbOrd nodeIdx 0) masks.tFunction]
  | .getUpvalue => [fixedRule (.output bbOrd nodeIdx 0) masks.tBoxedValueTop]

end Rules

/-- **All propagation rules of a graph.** -/
def Graph.rules (masks : TypeMasks) (g : Graph) : List (Rule Cell TypeMask) :=
  (g.constantLikeNodes.zipIdx.map fun c =>
      fixedRule (.constantLike c.2) (constantLikeMask masks c.1)) ++
    g.blocks.zipIdx.flatMap fun block => block.1.zipIdx.flatMap fun node =>
      nodeRules masks block.2 node.2 node.1

/-! ## Graphs in block-local SSA form

A node uses constants and earlier nodes of its own block. -/

/-- The values a node uses. -/
def Node.inputs : Node → List Value
  | .guest inputs _ _ => inputs.filterMap id
  | .setLocal _ input => [input]
  | .createCapturedVar _ input => input.toList
  | .setCapturedVar _ input => [input]
  | _ => []

/-- The value is available to the node at `nodeIdx`. -/
def Value.Available (numConstantLike nodeIdx : ℕ) (v : Value) : Prop :=
  match v.operand with
  | .constantLike ord => ord < numConstantLike
  | .node idx => idx < nodeIdx

/-- The variables of a node exist. -/
def Node.VarsExist (g : Graph) : Node → Prop
  | .getLocal lvOrd => lvOrd < g.numLogicalVars
  | .setLocal lvOrd _ => lvOrd < g.numLogicalVars
  | .createCapturedVar cvOrd _ => cvOrd < g.numCapturedVars
  | .getCapturedVar cvOrd => cvOrd < g.numCapturedVars
  | .setCapturedVar cvOrd _ => cvOrd < g.numCapturedVars
  | _ => True

/-- A type deduction function that never takes a type back when an input gains one. -/
def MonotoneFn (f : List (Option TypeMask) → TypeMask) : Prop :=
  ∀ ⦃ins ins' : List (Option TypeMask)⦄, List.Forall₂ (Option.Rel (· ≤ ·)) ins ins' → f ins ≤ f ins'

/-- Every type deduction function of the node is monotone. -/
def Node.MonotoneFns : Node → Prop
  | .guest _ _ outputs => ∀ f, .function f ∈ outputs → MonotoneFn f
  | _ => True

/-- **Block-local SSA form**: a node uses constant-like nodes and earlier nodes of its block, and
in a block a logical variable is read at most once, before it is written, and written at most once.
-/
structure Graph.BlockLocalSSA (g : Graph) : Prop where
  entry : g.blocks ≠ []
  available : ∀ nodes ∈ g.blocks, ∀ (i : ℕ) (node : Node), nodes[i]? = some node →
    ∀ v ∈ node.inputs, v.Available g.constantLikeNodes.length i
  varsExist : ∀ nodes ∈ g.blocks, ∀ node ∈ nodes, node.VarsExist g
  getLocal_once : ∀ nodes ∈ g.blocks, ∀ (i j lv : ℕ), nodes[i]? = some (.getLocal lv) →
    nodes[j]? = some (.getLocal lv) → i = j
  setLocal_once : ∀ nodes ∈ g.blocks, ∀ (i j lv : ℕ) (v w : Value),
    nodes[i]? = some (.setLocal lv v) →
    nodes[j]? = some (.setLocal lv w) → i = j
  get_before_set : ∀ nodes ∈ g.blocks, ∀ (i j lv : ℕ) (v : Value),
    nodes[i]? = some (.getLocal lv) →
    nodes[j]? = some (.setLocal lv v) → i < j

/-- Every type deduction function of the graph is monotone. -/
def Graph.MonotoneFns (g : Graph) : Prop := ∀ nodes ∈ g.blocks, ∀ node ∈ nodes, node.MonotoneFns

/-- No output is to be value-profiled. -/
def Node.Unprofiled : Node → Prop
  | .guest _ _ outputs => .valueProfile ∉ outputs
  | _ => True

/-! ## The shape of a rule -/

section Shape

variable {masks : TypeMasks} {b i : ℕ} {node : Node} {r : Rule Cell TypeMask}

/-- A rule of a node writes an output of the node or the variable it sets. -/
theorem nodeRules_dst (h : r ∈ nodeRules masks b i node) :
    (∃ o, r.dst = .output b i o) ∨ (∃ lv v, node = .setLocal lv v ∧ r.dst = .logicalVar lv) ∨
      ∃ cv, r.dst = .capturedVar cv ∧
        ((∃ v, node = .setCapturedVar cv v) ∨ ∃ v, node = .createCapturedVar cv v) := by
  cases node with
  | guest inputs hd outputs =>
      obtain ⟨output, -, rfl⟩ := List.mem_map.mp h
      exact .inl ⟨_, rfl⟩
  | noOutput => simp [nodeRules] at h
  | setLocal lv v =>
      rw [nodeRules, List.mem_singleton] at h
      exact .inr (.inl ⟨lv, v, rfl, h ▸ rfl⟩)
  | createCapturedVar cv v =>
      cases v <;> rw [nodeRules, List.mem_pair] at h <;> rcases h with rfl | rfl
      · exact .inr (.inr ⟨cv, rfl, .inr ⟨_, rfl⟩⟩)
      · exact .inl ⟨0, rfl⟩
      · exact .inr (.inr ⟨cv, rfl, .inr ⟨_, rfl⟩⟩)
      · exact .inl ⟨0, rfl⟩
  | setCapturedVar cv v =>
      rw [nodeRules, List.mem_singleton] at h
      exact .inr (.inr ⟨cv, h ▸ rfl, .inl ⟨v, rfl⟩⟩)
  | _ =>
      rw [nodeRules, List.mem_singleton] at h
      exact .inl ⟨0, h ▸ rfl⟩

/-- A copy reads its source. -/
theorem copyRule_readsOnly (dst src : Cell) : (copyRule dst src).ReadsOnly {src} :=
  fun _ _ h => h src rfl

/-- A fixed mask reads nothing. -/
theorem fixedRule_readsOnly (dst : Cell) (mask : TypeMask) : (fixedRule dst mask).ReadsOnly ∅ :=
  fun _ _ _ => rfl

/-- An output rule reads the inputs of its node. -/
theorem outputRule_readsOnly (inputs : List (Option Value)) (output : TypeDeduction × ℕ) :
    (outputRule masks b i inputs output).ReadsOnly {c | ∃ v, some v ∈ inputs ∧ c = v.cell b} := by
  intro σ τ h
  cases hd : output.1 with
  | function f =>
      simp only [outputRule, hd]
      refine congrArg f (List.map_congr_left fun input hin => ?_)
      cases input with
      | none => rfl
      | some v => exact congrArg some (h _ ⟨v, hin, rfl⟩)
  | _ => simp only [outputRule, hd]

/-- A rule of a node reads inputs of the node, or the variable the node gets. -/
theorem nodeRules_reads (h : r ∈ nodeRules masks b i node) :
    ∃ S : Set Cell, r.ReadsOnly S ∧ ∀ k ∈ S, (∃ v ∈ node.inputs, k = v.cell b) ∨
      (∃ lv, node = .getLocal lv ∧ k = .logicalVar lv) ∨
      ∃ cv, node = .getCapturedVar cv ∧ k = .capturedVar cv := by
  cases node with
  | guest inputs hd outputs =>
      obtain ⟨output, -, rfl⟩ := List.mem_map.mp h
      refine ⟨_, outputRule_readsOnly inputs output, ?_⟩
      rintro k ⟨v, hv, rfl⟩
      exact .inl ⟨v, by simpa [Node.inputs] using hv, rfl⟩
  | noOutput => simp [nodeRules] at h
  | getLocal lv =>
      rw [nodeRules, List.mem_singleton] at h
      refine ⟨_, h ▸ copyRule_readsOnly _ _, ?_⟩
      rintro k rfl
      exact .inr (.inl ⟨lv, rfl, rfl⟩)
  | getCapturedVar cv =>
      rw [nodeRules, List.mem_singleton] at h
      refine ⟨_, h ▸ copyRule_readsOnly _ _, ?_⟩
      rintro k rfl
      exact .inr (.inr ⟨cv, rfl, rfl⟩)
  | setLocal lv v =>
      rw [nodeRules, List.mem_singleton] at h
      refine ⟨_, h ▸ copyRule_readsOnly _ _, ?_⟩
      rintro k rfl
      exact .inl ⟨v, .head _, rfl⟩
  | setCapturedVar cv v =>
      rw [nodeRules, List.mem_singleton] at h
      refine ⟨_, h ▸ copyRule_readsOnly _ _, ?_⟩
      rintro k rfl
      exact .inl ⟨v, .head _, rfl⟩
  | createCapturedVar cv v =>
      cases v with
      | none =>
          rw [nodeRules, List.mem_pair] at h
          rcases h with rfl | rfl <;> exact ⟨∅, fixedRule_readsOnly _ _, by simp⟩
      | some v =>
          rw [nodeRules, List.mem_pair] at h
          rcases h with rfl | rfl
          · refine ⟨_, copyRule_readsOnly _ _, ?_⟩
            rintro k rfl
            exact .inl ⟨v, by simp [Node.inputs], rfl⟩
          · exact ⟨∅, fixedRule_readsOnly _ _, by simp⟩
  | _ =>
      rw [nodeRules, List.mem_singleton] at h
      exact ⟨∅, h ▸ fixedRule_readsOnly _ _, by simp⟩

/-- An output rule is monotone if its function is. -/
theorem outputRule_monotone {inputs : List (Option Value)} {output : TypeDeduction × ℕ}
    (h : ∀ f, output.1 = .function f → MonotoneFn f) :
    Monotone (outputRule masks b i inputs output).val := by
  intro σ τ hle
  cases hd : output.1 with
  | function f =>
      simp only [outputRule, hd]
      refine h f hd ?_
      rw [List.forall₂_map_left_iff, List.forall₂_map_right_iff, List.forall₂_same]
      intro input _
      cases input with
      | none => exact .none
      | some v => exact .some (hle _)
  | _ => simp only [outputRule, hd, le_refl]

/-- So are the rules of a node. -/
theorem nodeRules_monotone (hm : node.MonotoneFns) (h : r ∈ nodeRules masks b i node) :
    Monotone r.val := by
  have hcopy : ∀ dst src, Monotone (copyRule dst src).val := fun _ src _ _ hle => hle src
  have hfixed : ∀ dst mask, Monotone (fixedRule dst mask).val := fun _ _ _ _ _ => le_rfl
  cases node with
  | guest inputs hd outputs =>
      obtain ⟨output, hout, rfl⟩ := List.mem_map.mp h
      refine outputRule_monotone fun f hf => hm f ?_
      rw [← hf]
      exact List.fst_mem_of_mem_zipIdx hout
  | noOutput => simp [nodeRules] at h
  | createCapturedVar cv v =>
      cases v <;> rw [nodeRules, List.mem_pair] at h <;> rcases h with rfl | rfl
      · exact hfixed ..
      · exact hfixed ..
      · exact hcopy ..
      · exact hfixed ..
  | _ =>
      rw [nodeRules, List.mem_singleton] at h
      subst h
      first | exact hcopy .. | exact hfixed ..

end Shape

/-! ## Rules over the store of the pass

The store of the pass also has the private copies of the captured variables. -/

/-- A rule over the cells, as a rule over the store. -/
def lift (r : Rule Cell TypeMask) : Rule Loc TypeMask where
  dst := .cell r.dst
  val σ := r.val fun c => σ (.cell c)

section Lift

variable {r : Rule Cell TypeMask}

theorem lift_readsOnly {S : Set Cell} (h : r.ReadsOnly S) : (lift r).ReadsOnly (Loc.cell '' S) :=
  fun _ _ hst => h fun k hk => hst _ ⟨k, hk, rfl⟩

theorem lift_monotone (h : Monotone r.val) : Monotone (lift r).val :=
  fun _ _ hle => h fun c => hle (.cell c)

end Lift

/-- The node of a variable in the graph of the plan. -/
def varNode (g : Graph) : Loc → Option ℕ
  | .cell (.logicalVar lvOrd) => some (g.lvNode lvOrd)
  | .cell (.capturedVar cvOrd) => some (g.cvNode cvOrd)
  | _ => none

/-- The edge is between the block and a variable of the graph. -/
def PlanEdge (g : Graph) (b source dest : ℕ) : Prop :=
  (source = b ∧ g.numBBs ≤ dest ∧ dest < g.numNodes) ∨
    (dest = b ∧ g.numBBs ≤ source ∧ source < g.numNodes)

/-! ## What processing a node does

Some of the node's rules are run at once, the others are added; nothing else is written. -/

/-- **The rules of a node**: `ran` were run at once, on inputs that are final; `added` and `guards`
are what the block has from the node, and nothing if the node is not referenced. -/
structure Effect (masks : TypeMasks) (g : Graph) (b i : ℕ) (node : Node) (s t : Pass)
    (ran added : List (Rule Loc TypeMask)) (guards : List (Guard Loc)) (referenced : Bool) :
    Prop where
  predictions : t.predictions = runAll ran s.predictions
  rules : t.nodeRuleBuffer.flatten = s.nodeRuleBuffer.flatten ++ added
  guards_eq : t.gvRuleBuffer = s.gvRuleBuffer ++ guards
  referenced_eq : t.nodeReferenced = Function.update s.nodeReferenced i referenced
  lifted : ∀ r ∈ ran ++ added, ∃ r₀ ∈ nodeRules masks b i node, r = lift r₀
  covered : ∀ r₀ ∈ nodeRules masks b i node,
    lift r₀ ∈ ran ++ added ∨ ∃ gd ∈ guards, lift r₀ = gd.rule
  ran_final : ∀ r ∈ ran, ∃ S : Set Cell, r.ReadsOnly (Loc.cell '' S) ∧
    ∀ k ∈ S, ∃ v ∈ node.inputs, k = v.cell b ∧ s.isReferenced v = false
  quiet : referenced = false → added = [] ∧ guards = []
  guard_shape : ∀ gd ∈ guards,
    (∃ lv, node = .getLocal lv ∧ gd = ⟨.cell (.logicalVar lv), .cell (.output b i 0)⟩) ∨
      ∃ cv, node = .getCapturedVar cv ∧ cv ∉ s.cvSeen ∧
        gd = ⟨.cell (.capturedVar cv), .privateCopy b cv⟩
  getLocal_rules : ∀ lv, node = .getLocal lv → ran = [] ∧ added = []
  seen : ∀ cv, node = .getCapturedVar cv → cv ∈ s.cvSeen ∨
    ⟨.cell (.capturedVar cv), .privateCopy b cv⟩ ∈ guards
  seen_iff : ∀ cv, cv ∈ t.cvSeen ↔ cv ∈ s.cvSeen ∨ node = .getCapturedVar cv
  edges_mono : ∀ x y, y ∈ s.edges x → y ∈ t.edges x
  edges_new : ∀ x y, y ∈ t.edges x → y ∈ s.edges x ∨ PlanEdge g b x y
  guard_edge : ∀ gd ∈ guards, ∃ x, varNode g gd.var = some x ∧ b ∈ t.edges x
  rule_edge : ∀ r ∈ ran ++ added, ∀ x, varNode g r.dst = some x → x ∈ t.edges b

/-- The node has an effect. -/
def HasEffect (masks : TypeMasks) (g : Graph) (b i : ℕ) (node : Node) (s t : Pass) : Prop :=
  ∃ ran added guards referenced, Effect masks g b i node s t ran added guards referenced

section Effects

variable {masks : TypeMasks} {g : Graph} {b i : ℕ} {s : Pass}

/-- The edges after one more. -/
theorem mem_addEdge {x y source dest : ℕ} :
    y ∈ (s.addEdge source dest).edges x ↔ y ∈ s.edges x ∨ (x = source ∧ y = dest) := by
  by_cases hx : x = source
  · subst hx
    simp [Pass.addEdge]
  · simp [Pass.addEdge, hx]

/-- On a prediction that is still `tBottom`, an assignment is a rule. -/
theorem update_eq_run {σ : Store} {c : Cell} (h : σ (.cell c) = ⊥) (mask : TypeMask) :
    Function.update σ (.cell c) mask = (lift (fixedRule c mask)).run σ := by
  show _ = Function.update σ (.cell c) (σ (.cell c) ⊔ mask)
  rw [h, bot_sup_eq]

theorem update_bot {σ : Store} {l : Loc} (h : σ l = ⊥) : Function.update σ l ⊥ = σ := by
  rw [← h, Function.update_eq_self]

/-- A node that gets no variable: all its rules are run or added. -/
theorem plain_effect {node : Node} {t : Pass} (ran added : List (Rule Loc TypeMask))
    {referenced : Bool} (hget : ∀ lv, node ≠ .getLocal lv) (hgetc : ∀ cv, node ≠ .getCapturedVar cv)
    (hpred : t.predictions = runAll ran s.predictions)
    (hrules : t.nodeRuleBuffer.flatten = s.nodeRuleBuffer.flatten ++ added)
    (hgv : t.gvRuleBuffer = s.gvRuleBuffer) (hseen : t.cvSeen = s.cvSeen)
    (href : t.nodeReferenced = Function.update s.nodeReferenced i referenced)
    (hlift : ∀ r, r ∈ ran ++ added ↔ ∃ r₀ ∈ nodeRules masks b i node, r = lift r₀)
    (hfinal : ∀ r ∈ ran, ∃ S : Set Cell, r.ReadsOnly (Loc.cell '' S) ∧
      ∀ k ∈ S, ∃ v ∈ node.inputs, k = v.cell b ∧ s.isReferenced v = false)
    (hquiet : referenced = false → added = [])
    (hmono : ∀ x y, y ∈ s.edges x → y ∈ t.edges x)
    (hnew : ∀ x y, y ∈ t.edges x → y ∈ s.edges x ∨ PlanEdge g b x y)
    (hedge : ∀ r ∈ ran ++ added, ∀ x, varNode g r.dst = some x → x ∈ t.edges b) :
    HasEffect masks g b i node s t :=
  ⟨ran, added, [], referenced,
    { predictions := hpred
      rules := hrules
      guards_eq := hgv.trans (List.append_nil _).symm
      referenced_eq := href
      lifted := fun r hr => (hlift r).mp hr
      covered := fun r₀ hr₀ => .inl ((hlift _).mpr ⟨r₀, hr₀, rfl⟩)
      ran_final := hfinal
      quiet := fun h => ⟨hquiet h, rfl⟩
      guard_shape := by simp
      getLocal_rules := fun lv h => absurd h (hget lv)
      seen := fun cv h => absurd h (hgetc cv)
      seen_iff := fun cv => by simp [hseen, hgetc]
      edges_mono := hmono
      edges_new := hnew
      guard_edge := by simp
      rule_edge := hedge }⟩

theorem fixed_final {node : Node} (c : Cell) (mask : TypeMask) :
    ∃ S : Set Cell, (lift (fixedRule c mask)).ReadsOnly (Loc.cell '' S) ∧
      ∀ k ∈ S, ∃ v ∈ node.inputs, k = v.cell b ∧ s.isReferenced v = false :=
  ⟨∅, lift_readsOnly (fixedRule_readsOnly _ _), by simp⟩

/-- A node with one fixed mask has it set at once. -/
theorem fixed_effect {node : Node} {mask : TypeMask}
    (hrules : nodeRules masks b i node = [fixedRule (.output b i 0) mask])
    (hget : ∀ lv, node ≠ .getLocal lv) (hgetc : ∀ cv, node ≠ .getCapturedVar cv)
    (hfresh : s.predictions (.cell (.output b i 0)) = ⊥) :
    HasEffect masks g b i node s (processFixed b i mask (s.setReferenced i false)) :=
  plain_effect [lift (fixedRule (.output b i 0) mask)] [] hget hgetc (update_eq_run hfresh mask)
    (List.append_nil _).symm rfl rfl rfl
    (fun r => by simp [hrules])
    (fun r hr => List.mem_singleton.mp hr ▸ fixed_final _ _) (fun _ => rfl)
    (fun _ _ h => h) (fun _ _ h => .inl h) (by simp [lift, fixedRule, varNode])

/-- A node without an output is only marked. -/
theorem noOutput_effect : HasEffect masks g b i .noOutput s (s.setReferenced i false) :=
  plain_effect [] [] (by simp) (by simp) rfl (List.append_nil _).symm rfl rfl rfl
    (fun r => by simp [nodeRules]) (by simp) (fun _ => rfl) (fun _ _ h => h) (fun _ _ h => .inl h)
    (by simp)

/-- A load of a local copies the variable. -/
theorem getLocal_effect {lv : ℕ} (hlv : lv < g.numLogicalVars)
    (hfresh : s.predictions (.cell (.output b i 0)) = ⊥) :
    HasEffect masks g b i (.getLocal lv) s
      (processGetLocal g b i lv (s.setReferenced i false)) := by
  refine ⟨[], [], [⟨.cell (.logicalVar lv), .cell (.output b i 0)⟩], true, ?_⟩
  constructor
  case predictions => exact update_bot hfresh
  case rules => exact (List.append_nil _).symm
  case guards_eq => rfl
  case referenced_eq => exact Function.update_idem ..
  case lifted => simp
  case covered =>
    intro r₀ hr
    obtain rfl := List.mem_singleton.mp hr
    exact .inr ⟨_, .head _, rfl⟩
  case ran_final => simp
  case quiet => simp
  case guard_shape =>
    intro gd hgd
    exact .inl ⟨lv, rfl, List.mem_singleton.mp hgd⟩
  case getLocal_rules => exact fun _ _ => ⟨rfl, rfl⟩
  case seen => simp
  case seen_iff => simp [processGetLocal, Pass.setPrediction, Pass.setReferenced, Pass.addEdge]
  case edges_mono => exact fun x y h => mem_addEdge.mpr (.inl h)
  case edges_new =>
    intro x y h
    rcases mem_addEdge.mp h with h | ⟨rfl, rfl⟩
    · exact .inl h
    · refine .inr (.inr ⟨rfl, Nat.le_add_right .., ?_⟩)
      simp only [Graph.lvNode, Graph.numNodes]
      omega
  case guard_edge =>
    intro gd hgd
    obtain rfl := List.mem_singleton.mp hgd
    exact ⟨_, rfl, mem_addEdge.mpr (.inr ⟨rfl, rfl⟩)⟩
  case rule_edge => simp

/-- The flag of a node itself does not count for its inputs. -/
theorem isReferenced_setReferenced {m : ℕ} {v : Value} (h : v.Available m i) (f : Bool) :
    (s.setReferenced i f).isReferenced v = s.isReferenced v := by
  rcases v with ⟨ord | idx, o⟩
  · rfl
  · exact Function.update_of_ne (Nat.ne_of_lt h) ..

/-- An edge is an old one or one of the plan. -/
theorem addEdge_new {x y source dest : ℕ} (hd : PlanEdge g b source dest)
    (h : y ∈ (s.addEdge source dest).edges x) : y ∈ s.edges x ∨ PlanEdge g b x y := by
  rcases mem_addEdge.mp h with h | ⟨rfl, rfl⟩
  · exact .inl h
  · exact .inr hd

/-- The rule from an input that is final reads what is final. -/
theorem sssd_final {node : Node} {c : Cell} {input : Value} (hin : input ∈ node.inputs)
    (hr : s.isReferenced input = false) :
    ∃ S : Set Cell, (sssd (.cell c) (.cell (input.cell b))).ReadsOnly (Loc.cell '' S) ∧
      ∀ k ∈ S, ∃ v ∈ node.inputs, k = v.cell b ∧ s.isReferenced v = false := by
  refine ⟨{input.cell b}, lift_readsOnly (copyRule_readsOnly c (input.cell b)), ?_⟩
  rintro k rfl
  exact ⟨input, hin, rfl, hr⟩

/-- `SetLocal` and `SetCapturedVar`: an input goes into a variable. -/
theorem move_effect {node : Node} {c : Cell} {x : ℕ} {input : Value}
    (hget : ∀ lv, node ≠ .getLocal lv) (hgetc : ∀ cv, node ≠ .getCapturedVar cv)
    (hrules : nodeRules masks b i node = [copyRule c (input.cell b)]) (hin : input ∈ node.inputs)
    (hx : varNode g (.cell c) = some x) (hxlt : g.numBBs ≤ x ∧ x < g.numNodes) :
    HasEffect masks g b i node s (((s.setReferenced i false).addOrRunRule i (s.isReferenced input)
      [sssd (.cell c) (.cell (input.cell b))]).addEdge b x) := by
  have hplan : PlanEdge g b b x := .inl ⟨rfl, hxlt⟩
  have hedge : ∀ t : Pass, ∀ r ∈ [sssd (.cell c) (.cell (input.cell b))], ∀ y,
      varNode g r.dst = some y → y ∈ (t.addEdge b x).edges b := by
    intro t r hr y hy
    obtain rfl := List.mem_singleton.mp hr
    obtain rfl : x = y := Option.some.inj (hx.symm.trans hy)
    exact mem_addEdge.mpr (.inr ⟨rfl, rfl⟩)
  cases hr : s.isReferenced input with
  | false =>
      refine plain_effect [sssd (.cell c) (.cell (input.cell b))] [] hget hgetc rfl
        (List.append_nil _).symm rfl rfl rfl (fun r => by simp [hrules]; rfl)
        (fun r h => List.mem_singleton.mp h ▸ sssd_final hin hr) (fun _ => rfl)
        (fun _ _ h => mem_addEdge.mpr (.inl h)) (fun _ _ h => addEdge_new hplan h) ?_
      exact hedge _
  | true =>
      refine plain_effect [] [sssd (.cell c) (.cell (input.cell b))] hget hgetc rfl
        (by simp [Pass.addEdge, Pass.addOrRunRule, Pass.setReferenced]) rfl rfl
        (Function.update_idem ..) (fun r => by simp [hrules]; rfl) (by simp) (by simp)
        (fun _ _ h => mem_addEdge.mpr (.inl h)) (fun _ _ h => addEdge_new hplan h) ?_
      exact hedge _

/-- A new captured variable takes its input. -/
theorem createCapturedVar_effect {cv : ℕ} {input : Option Value} {m : ℕ}
    (hav : ∀ v ∈ input, v.Available m i) (hcv : cv < g.numCapturedVars)
    (hfresh : s.predictions (.cell (.output b i 0)) = ⊥) :
    HasEffect masks g b i (.createCapturedVar cv input) s
      (processCreateCapturedVar masks g b i cv input (s.setReferenced i false)) := by
  have hplan : PlanEdge g b b (g.cvNode cv) := by
    refine .inl ⟨rfl, ?_⟩
    simp only [Graph.cvNode, Graph.numNodes]
    omega
  have hout : ∀ y, varNode g (lift (fixedRule (.output b i 0) masks.tOpaque)).dst ≠ some y := by
    simp [lift, fixedRule, varNode]
  cases input with
  | none =>
      refine plain_effect [lift (fixedRule (.capturedVar cv) masks.tFunction),
        lift (fixedRule (.output b i 0) masks.tOpaque)] [] (by simp) (by simp) ?_
        (List.append_nil _).symm rfl rfl rfl (fun r => by simp [nodeRules]) ?_ (fun _ => rfl)
        (fun _ _ h => mem_addEdge.mpr (.inl h)) (fun _ _ h => addEdge_new hplan h) ?_
      · exact update_eq_run ((Function.update_of_ne (by simp) ..).trans hfresh) _
      · intro r hr
        rcases List.mem_pair.mp hr with rfl | rfl <;> exact fixed_final _ _
      · intro r hr y hy
        rcases List.mem_pair.mp hr with rfl | rfl
        · obtain rfl : g.cvNode cv = y := Option.some.inj hy
          exact mem_addEdge.mpr (.inr ⟨rfl, rfl⟩)
        · exact absurd hy (hout y)
  | some input =>
      have hedge : ∀ t : Pass, ∀ r, r = sssd (.cell (.capturedVar cv)) (.cell (input.cell b)) ∨
          r = lift (fixedRule (.output b i 0) masks.tOpaque) → ∀ y,
          varNode g r.dst = some y → y ∈ (t.addEdge b (g.cvNode cv)).edges b := by
        rintro t r (rfl | rfl) y hy
        · obtain rfl : g.cvNode cv = y := Option.some.inj hy
          exact mem_addEdge.mpr (.inr ⟨rfl, rfl⟩)
        · exact absurd hy (hout y)
      rw [processCreateCapturedVar]
      simp only [isReferenced_setReferenced (hav input rfl)]
      cases hr : s.isReferenced input with
      | false =>
          refine plain_effect [sssd (.cell (.capturedVar cv)) (.cell (input.cell b)),
            lift (fixedRule (.output b i 0) masks.tOpaque)] [] (by simp) (by simp) ?_
            (List.append_nil _).symm rfl rfl rfl (fun r => by simp [nodeRules]; rfl) ?_
            (fun _ => rfl)
            (fun _ _ h => mem_addEdge.mpr (.inl h)) (fun _ _ h => addEdge_new hplan h) ?_
          · exact update_eq_run ((Rule.run_of_ne (by simp [sssd])).trans hfresh) _
          · intro r hr'
            rcases List.mem_pair.mp hr' with rfl | rfl
            · exact sssd_final (by simp [Node.inputs]) hr
            · exact fixed_final _ _
          · exact fun r h => hedge _ r (by simpa using h)
      | true =>
          refine plain_effect [lift (fixedRule (.output b i 0) masks.tOpaque)]
            [sssd (.cell (.capturedVar cv)) (.cell (input.cell b))] (by simp) (by simp)
            (update_eq_run hfresh _)
            (by simp [Pass.addEdge, Pass.addOrRunRule, Pass.setReferenced, Pass.setPrediction])
            rfl rfl (Function.update_idem ..)
            (fun r => by simp [nodeRules, or_comm]; rfl)
            (fun r h => List.mem_singleton.mp h ▸ fixed_final _ _) (by simp)
            (fun _ _ h => mem_addEdge.mpr (.inl h)) (fun _ _ h => addEdge_new hplan h) ?_
          exact fun r h => hedge _ r (by simpa [or_comm] using h)

/-- A captured variable that was read in the block before has its private copy. -/
theorem getCapturedVar_effect_of_seen {cv : ℕ} (hseen : cv ∈ s.cvSeen)
    (hfresh : s.predictions (.cell (.output b i 0)) = ⊥) :
    HasEffect masks g b i (.getCapturedVar cv) s
      (processGetCapturedVar g b i cv (s.setReferenced i false)) := by
  have hseen' : cv ∈ (s.setReferenced i false).cvSeen := hseen
  rw [processGetCapturedVar]
  simp only [hseen', if_true]
  refine ⟨[], [sssd (.cell (.output b i 0)) (.cell (.capturedVar cv))], [], true, ?_⟩
  constructor
  case predictions => exact update_bot hfresh
  case rules => simp [Pass.addOrRunRule, Pass.setReferenced, Pass.setPrediction]
  case guards_eq => exact (List.append_nil _).symm
  case referenced_eq => exact Function.update_idem ..
  case lifted =>
    intro r hr
    obtain rfl := List.mem_singleton.mp hr
    exact ⟨_, .head _, rfl⟩
  case covered =>
    intro r₀ hr
    obtain rfl := List.mem_singleton.mp hr
    exact .inl (.head _)
  case ran_final => simp
  case quiet => simp
  case guard_shape => simp
  case getLocal_rules => simp
  case seen => simp [hseen]
  case seen_iff =>
    intro cv'
    simp only [Node.getCapturedVar.injEq]
    refine ⟨.inl, ?_⟩
    rintro (h | rfl)
    · exact h
    · exact hseen
  case edges_mono => exact fun _ _ h => h
  case edges_new => exact fun _ _ h => .inl h
  case guard_edge => simp
  case rule_edge => simp [sssd, varNode]

/-- The first read in a block makes the private copy, and an edge of the plan. -/
theorem getCapturedVar_effect_of_new {cv : ℕ} (hcv : cv < g.numCapturedVars) (hseen : cv ∉ s.cvSeen)
    (hfresh : s.predictions (.cell (.output b i 0)) = ⊥)
    (hcopy : s.predictions (.privateCopy b cv) = ⊥) :
    HasEffect masks g b i (.getCapturedVar cv) s
      (processGetCapturedVar g b i cv (s.setReferenced i false)) := by
  have hplan : PlanEdge g b (g.cvNode cv) b := by
    refine .inr ⟨rfl, ?_⟩
    simp only [Graph.cvNode, Graph.numNodes]
    omega
  have hseen' : cv ∉ (s.setReferenced i false).cvSeen := hseen
  rw [processGetCapturedVar]
  simp only [hseen', if_false]
  refine ⟨[], [sssd (.cell (.output b i 0)) (.cell (.capturedVar cv))],
    [⟨.cell (.capturedVar cv), .privateCopy b cv⟩], true, ?_⟩
  constructor
  case predictions =>
    have hcopied : Function.update s.predictions (.privateCopy b cv) ⊥ = s.predictions :=
      update_bot hcopy
    show Function.update (Function.update s.predictions _ _) _ _ = s.predictions
    rw [hcopied, update_bot hfresh]
  case rules =>
    simp [Pass.addOrRunRule, Pass.setReferenced, Pass.setPrediction, Pass.addEdge]
  case guards_eq => rfl
  case referenced_eq => exact Function.update_idem ..
  case lifted =>
    intro r hr
    obtain rfl := List.mem_singleton.mp hr
    exact ⟨_, .head _, rfl⟩
  case covered =>
    intro r₀ hr
    obtain rfl := List.mem_singleton.mp hr
    exact .inl (.head _)
  case ran_final => simp
  case quiet => simp
  case guard_shape =>
    intro gd hgd
    exact .inr ⟨cv, rfl, hseen, List.mem_singleton.mp hgd⟩
  case getLocal_rules => simp
  case seen =>
    intro cv' h
    obtain rfl := Node.getCapturedVar.inj h
    exact .inr (.head _)
  case seen_iff =>
    intro cv'
    show cv' ∈ cv :: s.cvSeen ↔ _
    rw [List.mem_cons, Node.getCapturedVar.injEq, or_comm, eq_comm]
  case edges_mono => exact fun x y h => mem_addEdge.mpr (.inl h)
  case edges_new => exact fun x y h => addEdge_new hplan h
  case guard_edge =>
    intro gd hgd
    obtain rfl := List.mem_singleton.mp hgd
    exact ⟨_, rfl, mem_addEdge.mpr (.inr ⟨rfl, rfl⟩)⟩
  case rule_edge => simp [sssd, varNode]

/-- A read of a captured variable goes through a private copy. -/
theorem getCapturedVar_effect {cv : ℕ} (hcv : cv < g.numCapturedVars)
    (hfresh : s.predictions (.cell (.output b i 0)) = ⊥)
    (hcopy : s.predictions (.privateCopy b cv) = ⊥) :
    HasEffect masks g b i (.getCapturedVar cv) s
      (processGetCapturedVar g b i cv (s.setReferenced i false)) := by
  by_cases hseen : cv ∈ s.cvSeen
  · exact getCapturedVar_effect_of_seen hseen hfresh
  · exact getCapturedVar_effect_of_new hcv hseen hfresh hcopy

/-! ### Guest language nodes -/

/-- The output has a type deduction function. -/
def TypeDeduction.isFunction : TypeDeduction → Bool
  | .function _ => true
  | _ => false

/-- The propagation functions of a node are its output rules. -/
theorem propagationFn_eq (masks : TypeMasks) (inputs : List (Option Value)) (hd : Bool)
    (outputs : List TypeDeduction) :
    propagationFn b i inputs hd outputs
      = ((outputOrds hd outputs).filter fun output => output.1.isFunction).map
        fun output => lift (outputRule masks b i inputs output) := by
  rw [propagationFn]
  induction outputOrds hd outputs with
  | nil => rfl
  | cons output rest ih =>
      obtain ⟨d, o⟩ := output
      rw [List.filterMap_cons, List.filter_cons, ih]
      cases d <;> rfl

/-- The initial masks are what the rules for the other outputs give. -/
theorem foldl_setPrediction (inputs : List (Option Value)) {outs : List (TypeDeduction × ℕ)}
    (hnd : (outs.map Prod.snd).Nodup) {s : Pass}
    (hfresh : ∀ o ∈ outs.map Prod.snd, s.predictions (.cell (.output b i o)) = ⊥) :
    outs.foldl (fun s output => s.setPrediction (.cell (.output b i output.2))
        (initialMask masks output.1)) s
      = { s with predictions := runAll ((outs.filter fun output => !output.1.isFunction).map
          fun output => lift (outputRule masks b i inputs output)) s.predictions } := by
  induction outs generalizing s with
  | nil => rfl
  | cons output outs ih =>
      obtain ⟨d, o⟩ := output
      obtain ⟨ho, hnd⟩ := List.nodup_cons.mp hnd
      obtain ⟨hfresh₀, hfresh⟩ := List.forall_mem_cons.mp hfresh
      rw [List.foldl_cons, ih hnd, List.filter_cons]
      · have hset : ∀ {σ τ : Store} (rs : List (Rule Loc TypeMask)), σ = τ →
            { s with predictions := runAll rs σ } = { s with predictions := runAll rs τ } :=
          fun rs h => by rw [h]
        cases d with
        | function f => exact hset _ (update_bot hfresh₀)
        | valueProfile => exact hset _ (update_eq_run hfresh₀ _)
        | constant mask => exact hset _ (update_eq_run hfresh₀ _)
      · intro o' ho'
        refine (Function.update_of_ne ?_ ..).trans (hfresh o' ho')
        rintro heq
        simp only [Loc.cell.injEq, Cell.output.injEq, true_and] at heq
        exact ho (heq ▸ ho')

theorem outputRule_fixed {inputs : List (Option Value)} {output : TypeDeduction × ℕ}
    (h : output.1.isFunction = false) : (outputRule masks b i inputs output).ReadsOnly ∅ := by
  obtain ⟨d, o⟩ := output
  cases d with
  | function f => cases h
  | _ => exact fun _ _ _ => rfl

/-- No output is set twice. -/
theorem outputOrds_nodup (hd : Bool) (outputs : List TypeDeduction) :
    ((outputOrds hd outputs).map Prod.snd).Nodup := by
  rw [outputOrds, List.zipIdx_map_snd]
  exact List.nodup_range'

/-- The rules with a deduction function and those without are all the rules of the node. -/
theorem mem_outputRules {inputs : List (Option Value)} {hd : Bool} {outputs : List TypeDeduction}
    {r : Rule Loc TypeMask} :
    r ∈ ((outputOrds hd outputs).filter fun output => !output.1.isFunction).map
          (fun output => lift (outputRule masks b i inputs output)) ++
        ((outputOrds hd outputs).filter fun output => output.1.isFunction).map
          (fun output => lift (outputRule masks b i inputs output)) ↔
      ∃ r₀ ∈ nodeRules masks b i (.guest inputs hd outputs), r = lift r₀ := by
  rw [nodeRules, ← List.map_append, List.mem_map]
  simp only [List.mem_append, List.mem_filter, List.mem_map, ← and_or_left]
  constructor
  · rintro ⟨output, ⟨hout, -⟩, rfl⟩
    exact ⟨_, ⟨output, hout, rfl⟩, rfl⟩
  · rintro ⟨_, ⟨output, hout, rfl⟩, rfl⟩
    exact ⟨output, ⟨hout, by cases output.1.isFunction <;> simp⟩, rfl⟩

/-- The own flag of a node does not matter for whether its inputs are referenced. -/
theorem any_isReferenced_setReferenced {inputs : List (Option Value)} {m : ℕ}
    (hav : ∀ v, some v ∈ inputs → v.Available m i) :
    (inputs.any fun input => input.any (s.setReferenced i false).isReferenced) =
      inputs.any fun input => input.any s.isReferenced := by
  rw [Bool.eq_iff_iff, List.any_eq_true, List.any_eq_true]
  refine exists_congr fun input => and_congr_right fun hin => ?_
  cases input with
  | none => exact Iff.rfl
  | some v =>
      rw [Option.any_some, Option.any_some, isReferenced_setReferenced (hav v hin) false]

/-- A node of the guest language. -/
theorem guest_effect {noValueProfile : Bool} {inputs : List (Option Value)} {hd : Bool}
    {outputs : List TypeDeduction} {m : ℕ} (hav : ∀ v, some v ∈ inputs → v.Available m i)
    (hp : noValueProfile = true ∨ .valueProfile ∉ outputs)
    (hfresh : ∀ o, s.predictions (.cell (.output b i o)) = ⊥) :
    ∃ t, processGuestLanguageNode masks noValueProfile b i inputs hd outputs
        (s.setReferenced i false) = some t ∧
      HasEffect masks g b i (.guest inputs hd outputs) s t := by
  rw [processGuestLanguageNode]
  by_cases hnil : outputs = []
  · subst hnil
    refine ⟨_, rfl, plain_effect [] [] (by simp) (by simp) rfl (List.append_nil _).symm rfl rfl rfl
      (fun r => ?_) (by simp) (fun _ => rfl) (fun _ _ h => h) (fun _ _ h => .inl h) (by simp)⟩
    simp [nodeRules, outputOrds]
  have hprof : ¬ (outputs.any TypeDeduction.isValueProfile && !noValueProfile) = true := by
    rcases hp with rfl | hp
    · simp
    · rw [Bool.and_eq_true, List.any_eq_true]
      rintro ⟨⟨d, hd', hmatch⟩, -⟩
      cases d with
      | valueProfile => exact hp hd'
      | _ => cases hmatch
  rw [if_neg hnil, if_neg hprof]
  simp only [any_isReferenced_setReferenced hav]
  have hfresh' : ∀ o ∈ (outputOrds hd outputs).map Prod.snd,
      (s.setReferenced i false).predictions (.cell (.output b i o)) = ⊥ := fun o _ => hfresh o
  rw [foldl_setPrediction inputs (outputOrds_nodup hd outputs) hfresh', propagationFn_eq masks]
  generalize hfns : ((outputOrds hd outputs).filter fun output => output.1.isFunction).map
    (fun output => lift (outputRule masks b i inputs output)) = fns
  generalize hfix : ((outputOrds hd outputs).filter fun output => !output.1.isFunction).map
    (fun output => lift (outputRule masks b i inputs output)) = fixed
  have hmem : ∀ r, r ∈ fixed ++ fns ↔
      ∃ r₀ ∈ nodeRules masks b i (.guest inputs hd outputs), r = lift r₀ := by
    intro r
    rw [← hfns, ← hfix]
    exact mem_outputRules
  have hvar : ∀ r ∈ fixed ++ fns, ∀ x, varNode g r.dst ≠ some x := by
    intro r hr x
    obtain ⟨r₀, hr₀, rfl⟩ := (hmem r).mp hr
    obtain ⟨output, -, rfl⟩ := List.mem_map.mp hr₀
    simp [lift, outputRule, varNode]
  have hfixed : ∀ r ∈ fixed, ∃ S : Set Cell, r.ReadsOnly (Loc.cell '' S) ∧
      ∀ k ∈ S, ∃ v ∈ Node.inputs (.guest inputs hd outputs), k = v.cell b ∧
        s.isReferenced v = false := by
    intro r hr
    rw [← hfix] at hr
    obtain ⟨output, hout, rfl⟩ := List.mem_map.mp hr
    have := (List.mem_filter.mp hout).2
    exact ⟨∅, lift_readsOnly (outputRule_fixed (by simpa using this)), by simp⟩
  by_cases hempty : fns = []
  · rw [List.isEmpty_iff.mpr hempty, if_pos rfl]
    refine ⟨_, rfl, plain_effect fixed [] (by simp) (by simp) rfl
      (List.append_nil _).symm rfl rfl rfl (fun r => ?_) hfixed (fun _ => rfl) (fun _ _ h => h)
      (fun _ _ h => .inl h) (fun r hr x hx => ?_)⟩
    · rw [← hempty]
      exact hmem r
    · exact absurd hx (hvar r (List.mem_append_left _ (by simpa using hr)) x)
  rw [List.isEmpty_eq_false_iff.mpr hempty]
  cases hr : inputs.any fun input => input.any s.isReferenced with
  | true =>
      refine ⟨_, rfl, plain_effect fixed fns (by simp) (by simp) rfl
        (by simp [Pass.addOrRunRule, Pass.setReferenced]) rfl rfl (Function.update_idem ..) hmem
        hfixed (by simp) (fun _ _ h => h) (fun _ _ h => .inl h) fun r hr x hx =>
          absurd hx (hvar r hr x)⟩
  | false =>
      refine ⟨_, rfl, plain_effect (fixed ++ fns) [] (by simp) (by simp) runAll_append.symm
        (List.append_nil _).symm rfl rfl rfl (fun r => by rw [List.append_nil, hmem])
        (fun r hr' => ?_) (fun _ => rfl) (fun _ _ h => h) (fun _ _ h => .inl h) fun r hr x hx =>
          absurd hx (hvar r (by simpa using hr) x)⟩
      rcases List.mem_append.mp hr' with hr' | hr'
      · exact hfixed r hr'
      · rw [← hfns] at hr'
        obtain ⟨output, -, rfl⟩ := List.mem_map.mp hr'
        refine ⟨_, lift_readsOnly (outputRule_readsOnly inputs output), ?_⟩
        rintro k ⟨v, hv, rfl⟩
        refine ⟨v, by simpa [Node.inputs] using hv, rfl, ?_⟩
        rw [List.any_eq_false] at hr
        simpa using hr (some v) hv

/-- **Processing a node** of a graph in block-local SSA form, on predictions that were not set yet.
-/
theorem processNode_effect {noValueProfile : Bool} {node : Node} {m : ℕ}
    (hav : ∀ v ∈ node.inputs, v.Available m i) (hvars : node.VarsExist g)
    (hp : noValueProfile = true ∨ node.Unprofiled)
    (hfresh : ∀ o, s.predictions (.cell (.output b i o)) = ⊥)
    (hcopy : ∀ cv, s.predictions (.privateCopy b cv) = ⊥) :
    ∃ t, processNode masks noValueProfile g b i node s = some t ∧
      HasEffect masks g b i node s t := by
  have hlv : ∀ lv, lv < g.numLogicalVars → g.numBBs ≤ g.lvNode lv ∧ g.lvNode lv < g.numNodes := by
    intro lv hlt
    simp only [Graph.lvNode, Graph.numNodes]
    omega
  have hcv : ∀ cv, cv < g.numCapturedVars → g.numBBs ≤ g.cvNode cv ∧ g.cvNode cv < g.numNodes := by
    intro cv hlt
    simp only [Graph.cvNode, Graph.numNodes]
    omega
  cases node with
  | guest inputs hd outputs =>
      exact guest_effect (fun v hv => hav v (by simpa [Node.inputs] using hv)) hp hfresh
  | noOutput => exact ⟨_, rfl, noOutput_effect⟩
  | getLocal lv => exact ⟨_, rfl, getLocal_effect hvars (hfresh 0)⟩
  | setLocal lv input =>
      have hr := isReferenced_setReferenced (s := s) (hav input (.head _)) false
      refine ⟨_, rfl, ?_⟩
      rw [processSetLocal, hr]
      exact move_effect (by simp) (by simp) rfl (.head _) rfl (hlv lv hvars)
  | createCapturedVar cv input =>
      refine ⟨_, rfl, createCapturedVar_effect (fun v hv => hav v ?_) hvars (hfresh 0)⟩
      simpa [Node.inputs] using hv
  | getCapturedVar cv => exact ⟨_, rfl, getCapturedVar_effect hvars (hfresh 0) (hcopy cv)⟩
  | setCapturedVar cv input =>
      have hr := isReferenced_setReferenced (s := s) (hav input (.head _)) false
      refine ⟨_, rfl, ?_⟩
      rw [processSetCapturedVar, hr]
      exact move_effect (by simp) (by simp) rfl (.head _) rfl (hcv cv hvars)
  | _ => exact ⟨_, rfl, fixed_effect rfl (by simp) (by simp) (hfresh 0)⟩

end Effects

end Prediction

end Dsom
