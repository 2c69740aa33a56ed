import Dsom.Dfg.PredictionSetup
import Dsom.Graph.Search

/-!
# Dfg/PredictionFixpoint — `RunPropagation` reaches the least fixpoint

`BlockInv` is what holds while a block is processed, and `BlockOk` what is left of it afterwards:
the guards and rules of the block, and why a rule that was run at once need not be run again.  With
the order of the plan this makes the blocks a `Layout`, and the plan one in which no component
writes what an earlier one guards.

The predictions are then a solution of the rules, and, since nothing but rules was run, the least
(`runPropagation_least`).
-/

namespace Dsom

namespace Prediction

open Rules

/-! ## Processing a block

`Final` cells are not written any more; a rule that reads only such cells has been run. -/

/-- The cell is of a constant-like node, or of a node of the block before `i` that is not
referenced: it will not change any more. -/
def Final (b i : ℕ) (s : Pass) (k : Cell) : Prop :=
  (∃ ord, k = .constantLike ord) ∨ ∃ j < i, ∃ o, k = .output b j o ∧ s.nodeReferenced j = false

/-- The rule is among the rules of the block, is one of its guards, or holds for good. -/
def Covered (b i : ℕ) (s : Pass) (r : Rule Loc TypeMask) : Prop :=
  r ∈ s.nodeRuleBuffer.flatten ∨ (∃ gd ∈ s.gvRuleBuffer, r = gd.rule) ∨
    (r.Holds s.predictions ∧ ∃ S : Set Cell, r.ReadsOnly (Loc.cell '' S) ∧ ∀ k ∈ S, Final b i s k)

/-- The rule, with the index of its node, is a rule of a referenced node that gets no local. -/
def RuleOf (masks : TypeMasks) (b : ℕ) (done : List Node) (s : Pass) (p : ℕ × Rule Loc TypeMask) :
    Prop :=
  s.nodeReferenced p.1 = true ∧ ∃ node, done[p.1]? = some node ∧ (∀ lv, node ≠ .getLocal lv) ∧
    ∃ r₀ ∈ nodeRules masks b p.1 node, p.2 = lift r₀

/-- The nodes `done` of the block have been processed. -/
structure BlockInv (masks : TypeMasks) (g : Graph) (b : ℕ) (done : List Node) (s : Pass) :
    Prop where
  fresh : ∀ j, done.length ≤ j → ∀ o, s.predictions (.cell (.output b j o)) = ⊥
  copies : ∀ cv, s.predictions (.privateCopy b cv) = ⊥
  guard_shape : ∀ gd ∈ s.gvRuleBuffer,
    (∃ lv j, done[j]? = some (.getLocal lv) ∧
      gd = ⟨.cell (.logicalVar lv), .cell (.output b j 0)⟩) ∨
    ∃ cv, gd = ⟨.cell (.capturedVar cv), .privateCopy b cv⟩
  guard_bot : ∀ gd ∈ s.gvRuleBuffer, s.predictions gd.copy = ⊥
  guard_edge : ∀ gd ∈ s.gvRuleBuffer, ∃ x, varNode g gd.var = some x ∧ b ∈ s.edges x
  seen : ∀ cv ∈ s.cvSeen, ⟨.cell (.capturedVar cv), .privateCopy b cv⟩ ∈ s.gvRuleBuffer
  got_seen : ∀ (j cv : ℕ), done[j]? = some (.getCapturedVar cv) → cv ∈ s.cvSeen
  getLocal_referenced : ∀ (j lv : ℕ), done[j]? = some (.getLocal lv) → s.nodeReferenced j = true
  rules : ∃ l : List (ℕ × Rule Loc TypeMask), s.nodeRuleBuffer.flatten = l.map Prod.snd ∧
    l.Pairwise (fun p q => p.1 ≤ q.1) ∧ ∀ p ∈ l, RuleOf masks b done s p
  rule_edge : ∀ r ∈ s.nodeRuleBuffer.flatten, ∀ x, varNode g r.dst = some x → x ∈ s.edges b
  covered : ∀ (j : ℕ) (node : Node), done[j]? = some node → ∀ r₀ ∈ nodeRules masks b j node,
    Covered b done.length s (lift r₀)

section Block

variable {masks : TypeMasks} {g : Graph} {b i : ℕ} {node : Node} {s t : Pass}
  {ran added : List (Rule Loc TypeMask)} {guards : List (Guard Loc)} {referenced : Bool}

/-- Processing a node writes its own outputs and variables. -/
theorem Effect.dst_cases (h : Effect masks g b i node s t ran added guards referenced)
    {r : Rule Loc TypeMask} (hr : r ∈ ran ++ added) :
    (∃ o, r.dst = .cell (.output b i o)) ∨ ∃ x, varNode g r.dst = some x := by
  obtain ⟨r₀, hr₀, rfl⟩ := h.lifted r hr
  rcases nodeRules_dst hr₀ with ⟨o, ho⟩ | ⟨lv, v, -, hd⟩ | ⟨cv, hd, -⟩
  · exact .inl ⟨o, congrArg Loc.cell ho⟩
  · exact .inr ⟨_, by simp only [lift, hd]; rfl⟩
  · exact .inr ⟨_, by simp only [lift, hd]; rfl⟩

/-- …and nothing else. -/
theorem Effect.predictions_of_ne (h : Effect masks g b i node s t ran added guards referenced)
    {l : Loc} (hvar : varNode g l = none) (hout : ∀ o, l ≠ .cell (.output b i o)) :
    t.predictions l = s.predictions l := by
  rw [h.predictions]
  refine runAll_of_notMem fun r hr heq => ?_
  rcases h.dst_cases (List.mem_append_left _ hr) with ⟨o, ho⟩ | ⟨x, hx⟩
  · exact hout o (heq.trans ho)
  · rw [← heq, hvar] at hx
    cases hx

theorem Effect.le (h : Effect masks g b i node s t ran added guards referenced) :
    s.predictions ≤ t.predictions := h.predictions ▸ le_runAll

/-- Processing a node sets its own flag only. -/
theorem Effect.referenced_of_ne (h : Effect masks g b i node s t ran added guards referenced)
    {j : ℕ} (hj : j ≠ i) : t.nodeReferenced j = s.nodeReferenced j := by
  rw [h.referenced_eq, Function.update_of_ne hj]

/-- A final cell keeps its value and stays final. -/
theorem Effect.final (h : Effect masks g b i node s t ran added guards referenced) {k : Cell}
    (hk : Final b i s k) : Final b (i + 1) t k ∧ t.predictions (.cell k) =
    s.predictions (.cell k) := by
  rcases hk with ⟨ord, rfl⟩ | ⟨j, hj, o, rfl, href⟩
  · exact ⟨.inl ⟨ord, rfl⟩, h.predictions_of_ne rfl (by simp)⟩
  · refine ⟨.inr ⟨j, by omega, o, rfl, ?_⟩, h.predictions_of_ne rfl ?_⟩
    · rwa [h.referenced_of_ne (by omega)]
    · intro o' heq
      simp only [Loc.cell.injEq, Cell.output.injEq] at heq
      omega

/-- A rule that was covered stays so. -/
theorem Effect.covered_old (h : Effect masks g b i node s t ran added guards referenced)
    {r : Rule Loc TypeMask} (hr : Covered b i s r) : Covered b (i + 1) t r := by
  rcases hr with hr | ⟨gd, hgd, hr⟩ | ⟨hholds, S, hreads, hS⟩
  · refine .inl ?_
    rw [h.rules]
    exact List.mem_append_left _ hr
  · refine .inr (.inl ⟨gd, ?_, hr⟩)
    rw [h.guards_eq]
    exact List.mem_append_left _ hgd
  · refine .inr (.inr ⟨hholds.of_le hreads ?_ h.le, S, hreads, fun k hk => (h.final (hS k hk)).1⟩)
    rintro _ ⟨k, hk, rfl⟩
    exact (h.final (hS k hk)).2.symm

/-- An available input that is not referenced is final. -/
theorem final_of_available {m : ℕ} {v : Value} (hav : v.Available m i)
    (hr : s.isReferenced v = false) : Final b i s (v.cell b) := by
  rcases v with ⟨ord | j, o⟩
  · exact .inl ⟨ord, rfl⟩
  · exact .inr ⟨j, hav, o, rfl, hr⟩

/-- The rules of the node itself are covered. -/
theorem Effect.covered_new (h : Effect masks g b i node s t ran added guards referenced) {m : ℕ}
    (hav : ∀ v ∈ node.inputs, v.Available m i) {r₀ : Rule Cell TypeMask}
    (hr₀ : r₀ ∈ nodeRules masks b i node) : Covered b (i + 1) t (lift r₀) := by
  rcases h.covered r₀ hr₀ with hr | ⟨gd, hgd, hr⟩
  · rcases List.mem_append.mp hr with hr | hr
    · obtain ⟨S, hreads, hS⟩ := h.ran_final _ hr
      have hfinal : ∀ k ∈ S, Final b i s k := by
        intro k hk
        obtain ⟨v, hv, rfl, href⟩ := hS k hk
        exact final_of_available (hav v hv) href
      refine .inr (.inr ⟨?_, S, hreads, fun k hk => (h.final (hfinal k hk)).1⟩)
      obtain ⟨before, after, hsplit⟩ := List.append_of_mem hr
      have hrun : t.predictions = runAll after ((lift r₀).run (runAll before s.predictions)) := by
        rw [h.predictions, hsplit, runAll_append, runAll_cons]
      have hle : runAll before s.predictions ≤ t.predictions := by
        rw [hrun]
        exact Rule.le_run.trans le_runAll
      refine Rule.holds_of_run_le hreads ?_ (hrun ▸ le_runAll)
      rintro _ ⟨k, hk, rfl⟩
      refine le_antisymm (hle _) ?_
      rw [(h.final (hfinal k hk)).2]
      exact le_runAll _
    · refine .inl ?_
      rw [h.rules]
      exact List.mem_append_right _ hr
  · refine .inr (.inl ⟨gd, ?_, hr⟩)
    rw [h.guards_eq]
    exact List.mem_append_right _ hgd

variable {done : List Node}

theorem getElem?_concat_cases {j : ℕ} {x : Node} (h : (done ++ [node])[j]? = some x) :
    (j < done.length ∧ done[j]? = some x) ∨ (j = done.length ∧ x = node) := by
  rw [List.getElem?_append] at h
  split_ifs at h with hj
  · exact .inl ⟨hj, h⟩
  · rw [List.getElem?_singleton] at h
    split_ifs at h with hj'
    exact .inr ⟨by omega, (Option.some.inj h).symm⟩

theorem getElem?_concat_left {j : ℕ} {x : Node} (h : done[j]? = some x) :
    (done ++ [node])[j]? = some x := by
  rw [List.getElem?_append_left (List.getElem?_eq_some_iff.mp h).1, h]

/-- The outputs of the other nodes keep their predictions. -/
theorem Effect.output_of_ne (h : Effect masks g b i node s t ran added guards referenced) {j : ℕ}
    (hj : j ≠ i) (o : ℕ) :
    t.predictions (.cell (.output b j o)) = s.predictions (.cell (.output b j o)) := by
  refine h.predictions_of_ne rfl fun o' heq => ?_
  simp only [Loc.cell.injEq, Cell.output.injEq] at heq
  omega

section Step

variable (h : BlockInv masks g b done s)
  (he : Effect masks g b done.length node s t ran added guards referenced)

include h he

/-- Guards are on loads and on private copies. -/
theorem BlockInv.guard_shape_concat : ∀ gd ∈ t.gvRuleBuffer,
    (∃ lv j, (done ++ [node])[j]? = some (.getLocal lv) ∧
      gd = ⟨.cell (.logicalVar lv), .cell (.output b j 0)⟩) ∨
    ∃ cv, gd = ⟨.cell (.capturedVar cv), .privateCopy b cv⟩ := by
  intro gd hgd
  rw [he.guards_eq] at hgd
  rcases List.mem_append.mp hgd with hgd | hgd
  · rcases h.guard_shape gd hgd with ⟨lv, j, hj, rfl⟩ | hcv
    · exact .inl ⟨lv, j, getElem?_concat_left hj, rfl⟩
    · exact .inr hcv
  · rcases he.guard_shape gd hgd with ⟨lv, rfl, rfl⟩ | ⟨cv, -, -, rfl⟩
    · exact .inl ⟨lv, done.length, by simp, rfl⟩
    · exact .inr ⟨cv, rfl⟩

/-- No copy has a prediction of its own yet: a load is processed without rules of its own. -/
theorem BlockInv.guard_bot_concat : ∀ gd ∈ t.gvRuleBuffer, t.predictions gd.copy = ⊥ := by
  have hcopy (cv : ℕ) : t.predictions (.privateCopy b cv) = ⊥ :=
    (he.predictions_of_ne rfl (by simp)).trans (h.copies cv)
  intro gd hgd
  rw [he.guards_eq] at hgd
  rcases List.mem_append.mp hgd with hgd | hgd
  · have hbot := h.guard_bot gd hgd
    rcases h.guard_shape gd hgd with ⟨lv, j, hj, rfl⟩ | ⟨cv, rfl⟩
    · exact (he.output_of_ne (List.getElem?_eq_some_iff.mp hj).1.ne 0).trans hbot
    · exact hcopy cv
  · rcases he.guard_shape gd hgd with ⟨lv, hnode, rfl⟩ | ⟨cv, -, -, rfl⟩
    · rw [he.predictions, (he.getLocal_rules lv hnode).1]
      exact h.fresh _ (Nat.le_refl _) 0
    · exact hcopy cv

/-- A load is referenced: otherwise nothing would cover the rule of it. -/
theorem BlockInv.getLocal_referenced_concat : ∀ (j lv : ℕ),
    (done ++ [node])[j]? = some (.getLocal lv) → t.nodeReferenced j = true := by
  intro j lv hj
  rcases getElem?_concat_cases hj with ⟨hlt, hj⟩ | ⟨rfl, hnode⟩
  · rw [he.referenced_of_ne (by omega)]
    exact h.getLocal_referenced j lv hj
  · rw [he.referenced_eq, Function.update_self]
    by_contra hfalse
    have hquiet := he.quiet (by simpa using hfalse)
    have hrules := he.getLocal_rules lv hnode.symm
    have hmem : copyRule (.output b done.length 0) (.logicalVar lv)
        ∈ nodeRules masks b done.length node := by
      rw [← hnode]
      exact .head _
    have hcov := he.covered _ hmem
    simp [hquiet.1, hquiet.2, hrules.1] at hcov

/-- The rules in the buffer, each with its node, in the order of the nodes. -/
theorem BlockInv.rules_concat : ∃ l : List (ℕ × Rule Loc TypeMask),
    t.nodeRuleBuffer.flatten = l.map Prod.snd ∧ l.Pairwise (fun p q => p.1 ≤ q.1) ∧
      ∀ p ∈ l, RuleOf masks b (done ++ [node]) t p := by
  obtain ⟨l, hl, hsorted, hof⟩ := h.rules
  have hlt : ∀ p ∈ l, p.1 < done.length := fun p hp => by
    obtain ⟨-, node, hnode, -⟩ := hof p hp
    exact (List.getElem?_eq_some_iff.mp hnode).1
  refine ⟨l ++ added.map fun r => (done.length, r), ?_, ?_, ?_⟩
  · rw [he.rules, hl, List.map_append, List.map_map]
    exact congrArg _ (List.map_id _).symm
  · refine List.pairwise_append.mpr ⟨hsorted, ?_, fun p hp q hq => ?_⟩
    · exact List.pairwise_map.mpr (List.pairwise_of_forall fun _ _ => Nat.le_refl _)
    · obtain ⟨r, -, rfl⟩ := List.mem_map.mp hq
      exact (hlt p hp).le
  · intro p hp
    rcases List.mem_append.mp hp with hp | hp
    · obtain ⟨href, node', hnode, hget, hrule⟩ := hof p hp
      refine ⟨?_, node', getElem?_concat_left hnode, hget, hrule⟩
      rw [he.referenced_of_ne (hlt p hp).ne]
      exact href
    · -- a rule that was added just now; the node is referenced
      obtain ⟨r, hr, rfl⟩ := List.mem_map.mp hp
      refine ⟨?_, node, by simp, fun lv hnode => ?_, he.lifted r (List.mem_append_right _ hr)⟩
      · rw [he.referenced_eq, Function.update_self]
        by_contra hfalse
        simp [(he.quiet (by simpa using hfalse)).1] at hr
      · simp [(he.getLocal_rules lv hnode).2] at hr

/-- **One node** more. -/
theorem BlockInv.step {m : ℕ} (hav : ∀ v ∈ node.inputs, v.Available m done.length) :
    BlockInv masks g b (done ++ [node]) t := by
  have hlen : (done ++ [node]).length = done.length + 1 := by simp
  have hold : ∀ gd ∈ s.gvRuleBuffer, gd ∈ t.gvRuleBuffer := fun gd hgd => by
    rw [he.guards_eq]
    exact List.mem_append_left _ hgd
  constructor
  case fresh =>
    intro j hj o
    rw [he.output_of_ne (by omega) o]
    exact h.fresh j (by omega) o
  case copies =>
    intro cv
    rw [he.predictions_of_ne rfl (by simp)]
    exact h.copies cv
  case guard_shape => exact h.guard_shape_concat he
  case guard_bot => exact h.guard_bot_concat he
  case guard_edge =>
    intro gd hgd
    rw [he.guards_eq] at hgd
    rcases List.mem_append.mp hgd with hgd | hgd
    · obtain ⟨x, hx, hedge⟩ := h.guard_edge gd hgd
      exact ⟨x, hx, he.edges_mono x b hedge⟩
    · exact he.guard_edge gd hgd
  case seen =>
    intro cv hcv
    rcases (he.seen_iff cv).mp hcv with hcv | hnode
    · exact hold _ (h.seen cv hcv)
    · rcases he.seen cv hnode with hcv | hgd
      · exact hold _ (h.seen cv hcv)
      · rw [he.guards_eq]
        exact List.mem_append_right _ hgd
  case got_seen =>
    intro j cv hj
    rw [he.seen_iff]
    rcases getElem?_concat_cases hj with ⟨-, hj⟩ | ⟨-, hnode⟩
    · exact .inl (h.got_seen j cv hj)
    · exact .inr hnode.symm
  case getLocal_referenced => exact h.getLocal_referenced_concat he
  case rules => exact h.rules_concat he
  case rule_edge =>
    intro r hr x hx
    rw [he.rules] at hr
    rcases List.mem_append.mp hr with hr | hr
    · exact he.edges_mono b x (h.rule_edge r hr x hx)
    · exact he.rule_edge r (List.mem_append_right _ hr) x hx
  case covered =>
    intro j x hj r₀ hr₀
    rw [hlen]
    rcases getElem?_concat_cases hj with ⟨-, hj⟩ | ⟨rfl, rfl⟩
    · exact he.covered_old (h.covered j x hj r₀ hr₀)
    · exact he.covered_new hav hr₀

end Step

end Block

/-! ## The passage from one store to the next -/

/-- A solution, with every private copy equal to its variable. -/
def extend (ρ : Cell → TypeMask) : Store
  | .cell c => ρ c
  | .privateCopy _ cv => ρ (.capturedVar cv)

/-- What changes while the blocks `B` are processed: their own outputs, variables and edges, and
never above a solution `ρ` of their rules. -/
structure Passage (g : Graph) (ρ : Cell → TypeMask) (B : Set ℕ) (s t : Pass) : Prop where
  le : s.predictions ≤ t.predictions
  frame : ∀ l, varNode g l = none → (∀ b ∈ B, ∀ i o, l ≠ .cell (.output b i o)) →
    t.predictions l = s.predictions l
  edges_mono : ∀ x y, y ∈ s.edges x → y ∈ t.edges x
  edges_new : ∀ x y, y ∈ t.edges x → y ∈ s.edges x ∨ ∃ b ∈ B, PlanEdge g b x y
  below : s.predictions ≤ extend ρ → t.predictions ≤ extend ρ

section Passage

variable {masks : TypeMasks} {g : Graph} {ρ : Cell → TypeMask} {B B' : Set ℕ} {b i : ℕ}
  {s t u : Pass}

theorem Passage.refl (s : Pass) : Passage g ρ B s s :=
  ⟨le_rfl, fun _ _ _ => rfl, fun _ _ h => h, fun _ _ h => .inl h, fun h => h⟩

/-- The passage of more blocks. -/
theorem Passage.mono (h : Passage g ρ B s t) (hsub : B ⊆ B') : Passage g ρ B' s t where
  le := h.le
  frame l hv ho := h.frame l hv fun b hb => ho b (hsub hb)
  edges_mono := h.edges_mono
  edges_new x y hy := (h.edges_new x y hy).imp_right fun ⟨b, hb, he⟩ => ⟨b, hsub hb, he⟩
  below := h.below

/-- One passage after another. -/
theorem Passage.trans (h : Passage g ρ B s t) (h' : Passage g ρ B t u) : Passage g ρ B s u where
  le := h.le.trans h'.le
  frame l hv ho := (h'.frame l hv ho).trans (h.frame l hv ho)
  edges_mono x y hy := h'.edges_mono x y (h.edges_mono x y hy)
  edges_new x y hy := by
    rcases h'.edges_new x y hy with hy | hy
    · exact h.edges_new x y hy
    · exact .inr hy
  below hs := h'.below (h.below hs)

/-- Processing a node is a passage of its block. -/
theorem Effect.passage {node : Node} {ran added : List (Rule Loc TypeMask)}
    {guards : List (Guard Loc)} {referenced : Bool}
    (h : Effect masks g b i node s t ran added guards referenced) (hm : node.MonotoneFns)
    (hρ : ∀ r ∈ nodeRules masks b i node, r.Holds ρ) : Passage g ρ {b} s t where
  le := h.le
  frame l hv ho := h.predictions_of_ne hv (ho b rfl i)
  edges_mono := h.edges_mono
  edges_new x y hy := (h.edges_new x y hy).imp_right fun he => ⟨b, rfl, he⟩
  below hs := by
    rw [h.predictions]
    refine runAll_le (fun r hr => ?_) (fun r hr => ?_) hs
    all_goals obtain ⟨r₀, hr₀, rfl⟩ := h.lifted r (List.mem_append_left _ hr)
    · exact lift_monotone (nodeRules_monotone hm hr₀)
    · exact hρ r₀ hr₀

/-- The nodes of a block are fit to be processed. -/
structure NodesOk (g : Graph) (noValueProfile : Bool) (nodes : List Node) : Prop where
  available : ∀ (i : ℕ) (node : Node), nodes[i]? = some node →
    ∀ v ∈ node.inputs, v.Available g.constantLikeNodes.length i
  varsExist : ∀ node ∈ nodes, node.VarsExist g
  unprofiled : noValueProfile = true ∨ ∀ node ∈ nodes, node.Unprofiled
  monotone : ∀ node ∈ nodes, node.MonotoneFns

/-- The loop over the nodes keeps the invariant, and is a passage of the block. -/
theorem processNodes_inv {noValueProfile : Bool} {done rest : List Node}
    (hok : NodesOk g noValueProfile (done ++ rest))
    (hρ : ∀ (i : ℕ) (node : Node), (done ++ rest)[i]? = some node →
      ∀ r ∈ nodeRules masks b i node, r.Holds ρ)
    (h : BlockInv masks g b done s) :
    ∃ t, processNodes masks noValueProfile g b done.length rest s = some t ∧
      BlockInv masks g b (done ++ rest) t ∧ Passage g ρ {b} s t := by
  induction rest generalizing done s with
  | nil => exact ⟨s, rfl, by simpa using h, Passage.refl s⟩
  | cons node rest ih =>
      have hat : (done ++ node :: rest)[done.length]? = some node := by simp
      have hmem : node ∈ done ++ node :: rest := by simp
      have hav := hok.available done.length node hat
      have hp : noValueProfile = true ∨ node.Unprofiled :=
        hok.unprofiled.imp_right fun h => h node hmem
      obtain ⟨t, hproc, ran, added, guards, referenced, he⟩ := processNode_effect hav
        (hok.varsExist node hmem) hp (h.fresh done.length (Nat.le_refl _)) h.copies
      have hassoc : done ++ node :: rest = done ++ [node] ++ rest := by simp
      have hlen : (done ++ [node]).length = done.length + 1 := by simp
      obtain ⟨u, hrest, hinv, hpass⟩ := ih (hassoc ▸ hok) (hassoc ▸ hρ) (h.step he hav)
      refine ⟨u, ?_, hassoc ▸ hinv,
        (he.passage (hok.monotone node hmem) (hρ done.length node hat)).trans hpass⟩
      rw [processNodes, hproc, Option.bind_some, ← hlen]
      exact hrest

end Passage

/-! ## A block that has been processed -/

/-- The location is of a constant-like node or of a node of the block. -/
def Local (b : ℕ) (l : Loc) : Prop :=
  (∃ ord, l = .cell (.constantLike ord)) ∨ ∃ j o, l = .cell (.output b j o)

/-- The guards and rules of a block, and what they cover. -/
structure BlockOk (masks : TypeMasks) (g : Graph) (b : ℕ) (nodes : List Node)
    (G : Group Loc TypeMask) (s : Pass) : Prop where
  guard_shape : ∀ gd ∈ G.guards,
    (∃ lv j, nodes[j]? = some (.getLocal lv) ∧
      gd = ⟨.cell (.logicalVar lv), .cell (.output b j 0)⟩) ∨
    ∃ cv, gd = ⟨.cell (.capturedVar cv), .privateCopy b cv⟩
  guard_bot : ∀ gd ∈ G.guards, s.predictions gd.copy = ⊥
  guard_edge : ∀ gd ∈ G.guards, ∃ x, varNode g gd.var = some x ∧ b ∈ s.edges x
  rule_of : ∀ r ∈ G.rules, ∃ (j : ℕ) (node : Node), nodes[j]? = some node ∧
    (∀ lv, node ≠ .getLocal lv) ∧ ∃ r₀ ∈ nodeRules masks b j node, r = lift r₀
  rule_edge : ∀ r ∈ G.rules, ∀ x, varNode g r.dst = some x → x ∈ s.edges b
  reads : ∀ before r after, G.rules = before ++ r :: after → ∃ S : Set Loc, r.ReadsOnly S ∧
    ∀ k ∈ S, (∃ gd ∈ G.guards, gd.var = k) ∨ (∀ r' ∈ r :: after, k ≠ r'.dst) ∧ Local b k
  covered : ∀ (j : ℕ) (node : Node), nodes[j]? = some node → ∀ r₀ ∈ nodeRules masks b j node,
    lift r₀ ∈ G.rules ∨ (∃ gd ∈ G.guards, lift r₀ = gd.rule) ∨
      ((lift r₀).Holds s.predictions ∧ ∃ S : Set Loc, (lift r₀).ReadsOnly S ∧
        ∀ k ∈ S, k ∉ G.writes ∧ Local b k)

section Ok

variable {masks : TypeMasks} {g : Graph} {ρ : Cell → TypeMask} {b : ℕ} {nodes : List Node}
  {s t : Pass}

/-- The values that a node may use are local to its block. -/
theorem local_of_available {m i : ℕ} {v : Value} (hav : v.Available m i) :
    Local b (.cell (v.cell b)) := by
  rcases v with ⟨ord | j, o⟩
  · exact .inl ⟨ord, rfl⟩
  · exact .inr ⟨j, o, rfl⟩

/-- An input of a node is not written by it or by a later one. -/
theorem ne_dst_of_available {m i j : ℕ} (hij : i ≤ j) {v : Value} (hav : v.Available m i)
    {node : Node} {r₀ : Rule Cell TypeMask} (hr₀ : r₀ ∈ nodeRules masks b j node) :
    v.cell b ≠ r₀.dst := by
  rcases v with ⟨ord | idx, o⟩ <;> rcases nodeRules_dst hr₀ with ⟨o', h⟩ | ⟨lv, w, -, h⟩ |
    ⟨cv, h, -⟩ <;>
    rw [h] <;> simp only [Value.cell, ne_eq, reduceCtorEq, not_false_eq_true, Cell.output.injEq,
      not_and]
  intro _ hj
  have : idx < i := hav
  omega

/-- A rule reads nothing that a later rule of the block writes. -/
theorem BlockInv.reads {noValueProfile : Bool} (hok : NodesOk g noValueProfile nodes)
    (h : BlockInv masks g b nodes s) {before after : List (Rule Loc TypeMask)}
    {r : Rule Loc TypeMask} (hsplit : s.nodeRuleBuffer.flatten = before ++ r :: after) :
    ∃ S : Set Loc, r.ReadsOnly S ∧ ∀ k ∈ S, (∃ gd ∈ s.gvRuleBuffer, gd.var = k) ∨
      (∀ r' ∈ r :: after, k ≠ r'.dst) ∧ Local b k := by
  obtain ⟨l, hl, hsorted, hof⟩ := h.rules
  obtain ⟨lb, lr, rfl, hlb, hlr⟩ := List.map_eq_append_iff.mp (hl.symm.trans hsplit)
  obtain ⟨p, la, rfl, rfl, hla⟩ := List.map_eq_cons_iff.mp hlr
  obtain ⟨-, node, hnode, hget, r₀, hr₀, heq⟩ := hof p (by simp)
  obtain ⟨S, hreads, hS⟩ := nodeRules_reads hr₀
  rw [heq]
  refine ⟨_, lift_readsOnly hreads, ?_⟩
  rintro _ ⟨k, hk, rfl⟩
  rcases hS k hk with ⟨v, hv, rfl⟩ | ⟨lv, rfl, -⟩ | ⟨cv, rfl, rfl⟩
  · have hav := hok.available p.1 node hnode v hv
    refine .inr ⟨fun r' hr' => ?_, local_of_available hav⟩
    have hq : ∃ q ∈ p :: la, q.2 = r' := by
      rw [← heq, ← hla] at hr'
      exact List.mem_map.mp (by simpa using hr')
    obtain ⟨q, hq, rfl⟩ := hq
    have hle : p.1 ≤ q.1 := by
      rcases List.mem_cons.mp hq with rfl | hq
      · exact Nat.le_refl _
      · exact (List.pairwise_cons.mp (List.pairwise_append.mp hsorted).2.1).1 q hq
    obtain ⟨-, node', -, -, r₁, hr₁, heq₁⟩ := hof q (List.mem_append_right _ hq)
    rw [heq₁]
    exact fun hd => ne_dst_of_available hle hav hr₁ (Loc.cell.inj hd)
  · exact absurd rfl (hget lv)
  · exact .inl ⟨_, h.seen cv (h.got_seen p.1 cv hnode), rfl⟩

/-- A final cell is written by no rule that was kept. -/
theorem BlockInv.not_written (h : BlockInv masks g b nodes s) {i : ℕ} {k : Cell}
    (hk : Final b i s k) :
    Loc.cell k ∉ s.gvRuleBuffer.map Guard.copy ++ s.nodeRuleBuffer.flatten.map Rule.dst := by
  rw [List.mem_append, List.mem_map, List.mem_map]
  rintro (⟨gd, hgd, heq⟩ | ⟨r, hr, heq⟩)
  · rcases h.guard_shape gd hgd with ⟨lv, j, hj, rfl⟩ | ⟨cv, rfl⟩
    · obtain rfl := Loc.cell.inj heq
      rcases hk with ⟨ord, hk⟩ | ⟨j', -, o, hk, href⟩
      · cases hk
      · obtain ⟨-, rfl, -⟩ := Cell.output.inj hk
        rw [h.getLocal_referenced j lv hj] at href
        cases href
    · cases heq
  · obtain ⟨l, hl, -, hof⟩ := h.rules
    rw [hl] at hr
    obtain ⟨p, hp, rfl⟩ := List.mem_map.mp hr
    obtain ⟨href, node, -, -, r₀, hr₀, hrule⟩ := hof p hp
    rw [hrule] at heq
    obtain rfl := Loc.cell.inj heq
    rcases hk with ⟨ord, hk⟩ | ⟨j', -, o, hk, href'⟩
    · rcases nodeRules_dst hr₀ with ⟨o', h'⟩ | ⟨lv, w, -, h'⟩ | ⟨cv, h', -⟩ <;> rw [h'] at hk <;>
        cases hk
    · rcases nodeRules_dst hr₀ with ⟨o', h'⟩ | ⟨lv, w, -, h'⟩ | ⟨cv, h', -⟩ <;> rw [h'] at hk
      · obtain ⟨-, rfl, -⟩ := Cell.output.inj hk
        rw [href] at href'
        cases href'
      · cases hk
      · cases hk

/-- Final cells are local to the block. -/
theorem Final.isLocal {i : ℕ} {k : Cell} (h : Final b i s k) : Local b (.cell k) := by
  rcases h with ⟨ord, rfl⟩ | ⟨j, -, o, rfl, -⟩
  · exact .inl ⟨ord, rfl⟩
  · exact .inr ⟨j, o, rfl⟩

/-- The invariant at the end of the block says that the block is in order. -/
theorem BlockInv.ok {noValueProfile : Bool} (hok : NodesOk g noValueProfile nodes)
    (h : BlockInv masks g b nodes s) :
    BlockOk masks g b nodes ⟨s.gvRuleBuffer, s.nodeRuleBuffer.flatten⟩ s where
  guard_shape := h.guard_shape
  guard_bot := h.guard_bot
  guard_edge := h.guard_edge
  rule_of r hr := by
    obtain ⟨l, hl, -, hof⟩ := h.rules
    change r ∈ s.nodeRuleBuffer.flatten at hr
    rw [hl] at hr
    obtain ⟨p, hp, rfl⟩ := List.mem_map.mp hr
    obtain ⟨-, node, hnode, hget, hrule⟩ := hof p hp
    exact ⟨p.1, node, hnode, hget, hrule⟩
  rule_edge := h.rule_edge
  reads before r after hsplit := h.reads hok hsplit
  covered j node hj r₀ hr₀ := by
    rcases h.covered j node hj r₀ hr₀ with hr | hg | ⟨hholds, S, hreads, hS⟩
    · exact .inl hr
    · exact .inr (.inl hg)
    · refine .inr (.inr ⟨hholds, _, hreads, ?_⟩)
      rintro _ ⟨k, hk, rfl⟩
      exact ⟨h.not_written (hS k hk), (hS k hk).isLocal⟩

/-- The passage of other blocks leaves local cells alone. -/
theorem Local.frame {B : Set ℕ} (hp : Passage g ρ B s t) (hb : b ∉ B) {l : Loc} (h : Local b l) :
    t.predictions l = s.predictions l := by
  rcases h with ⟨ord, rfl⟩ | ⟨j, o, rfl⟩
  · exact hp.frame _ rfl (by simp)
  · refine hp.frame _ rfl fun b' hb' i o' heq => ?_
    simp only [Loc.cell.injEq, Cell.output.injEq] at heq
    exact hb (heq.1 ▸ hb')

/-- Processing other blocks does not disturb it. -/
theorem BlockOk.passage {G : Group Loc TypeMask} {B : Set ℕ} (h : BlockOk masks g b nodes G s)
    (hp : Passage g ρ B s t) (hb : b ∉ B) : BlockOk masks g b nodes G t where
  guard_shape := h.guard_shape
  guard_bot gd hgd := by
    have hbot := h.guard_bot gd hgd
    rcases h.guard_shape gd hgd with ⟨lv, j, -, rfl⟩ | ⟨cv, rfl⟩
    · exact (Local.frame hp hb (.inr ⟨j, 0, rfl⟩)).trans hbot
    · exact (hp.frame _ rfl (by simp)).trans hbot
  guard_edge gd hgd := by
    obtain ⟨x, hx, hedge⟩ := h.guard_edge gd hgd
    exact ⟨x, hx, hp.edges_mono x b hedge⟩
  rule_of := h.rule_of
  rule_edge r hr x hx := hp.edges_mono b x (h.rule_edge r hr x hx)
  reads := h.reads
  covered j node hj r₀ hr₀ := by
    rcases h.covered j node hj r₀ hr₀ with hr | hg | ⟨hholds, S, hreads, hS⟩
    · exact .inl hr
    · exact .inr (.inl hg)
    · refine .inr (.inr ⟨hholds.of_le hreads (fun k hk => ?_) hp.le, S, hreads, hS⟩)
      exact ((hS k hk).2.frame hp hb).symm

end Ok

/-! ## All blocks -/

section Blocks

variable {masks : TypeMasks} {g : Graph} {ρ : Cell → TypeMask} {noValueProfile : Bool} {s : Pass}

/-- Nothing of the blocks from `k` on has been set. -/
def Untouched (k : ℕ) (s : Pass) : Prop :=
  ∀ b, k ≤ b → (∀ i o, s.predictions (.cell (.output b i o)) = ⊥) ∧
    ∀ cv, s.predictions (.privateCopy b cv) = ⊥

/-- A block with nothing written yet can be processed. -/
theorem processBasicBlock_ok {b : ℕ} {nodes : List Node} (hok : NodesOk g noValueProfile nodes)
    (hρ : ∀ (i : ℕ) (node : Node),
    nodes[i]? = some node → ∀ r ∈ nodeRules masks b i node, r.Holds ρ)
    (hs : Untouched b s) :
    ∃ t G, processBasicBlock masks noValueProfile g b nodes s = some (t, G) ∧
      BlockOk masks g b nodes G t ∧ Passage g ρ {b} s t := by
  have hinv : BlockInv masks g b []
      { s with gvRuleBuffer := [], nodeRuleBuffer := [], cvSeen := [] } := by
    constructor
    case fresh => exact fun j _ o => (hs b (Nat.le_refl b)).1 j o
    case copies => exact (hs b (Nat.le_refl b)).2
    case rules => exact ⟨[], rfl, .nil, by simp⟩
    all_goals simp
  obtain ⟨t, hproc, hinv', hpass⟩ := processNodes_inv
    (show NodesOk g noValueProfile ([] ++ nodes) from hok) hρ hinv
  refine ⟨t, _, by rw [processBasicBlock]; exact congrArg _ hproc, hinv'.ok hok, ?_⟩
  exact ⟨hpass.le, hpass.frame, hpass.edges_mono, hpass.edges_new, hpass.below⟩

/-- The blocks behind are still untouched. -/
theorem Untouched.passage {k : ℕ} {t : Pass} (h : Untouched k s) (hp : Passage g ρ {k} s t) :
    Untouched (k + 1) t := by
  intro b hb
  obtain ⟨hout, hcopy⟩ := h b (by omega)
  refine ⟨fun i o => (hp.frame _ rfl ?_).trans (hout i o), fun cv =>
    (hp.frame _ rfl (by simp)).trans (hcopy cv)⟩
  rintro b' rfl i' o' heq
  simp only [Loc.cell.injEq, Cell.output.injEq] at heq
  omega

/-- The loop over the blocks. -/
theorem processBasicBlocks_ok {k : ℕ} {blocks : List (List Node)}
    (hok : ∀ nodes ∈ blocks, NodesOk g noValueProfile nodes)
    (hρ : ∀ (j : ℕ) (nodes : List Node), blocks[j]? = some nodes → ∀ (i : ℕ) (node : Node),
      nodes[i]? = some node → ∀ r ∈ nodeRules masks (k + j) i node, r.Holds ρ)
    (hs : Untouched k s) :
    ∃ t rs, processBasicBlocks masks noValueProfile g k blocks s = some (t, rs) ∧
      rs.length = blocks.length ∧
      (∀ (j : ℕ) (nodes : List Node), blocks[j]? = some nodes →
        BlockOk masks g (k + j) nodes (rs.getD j ⟨[], []⟩) t) ∧
      Passage g ρ {b | k ≤ b ∧ b < k + blocks.length} s t := by
  induction blocks generalizing k s with
  | nil => exact ⟨s, [], rfl, rfl, by simp, Passage.refl s⟩
  | cons nodes blocks ih =>
      obtain ⟨hok₀, hoks⟩ := List.forall_mem_cons.mp hok
      have hρ₀ : ∀ (i : ℕ) (node : Node), nodes[i]? = some node →
          ∀ r ∈ nodeRules masks k i node, r.Holds ρ := hρ 0 nodes rfl
      obtain ⟨t, G, hproc, hG, hpass⟩ := processBasicBlock_ok hok₀ hρ₀ hs
      have hρ' : ∀ (j : ℕ) (nodes : List Node), blocks[j]? = some nodes → ∀ (i : ℕ) (node : Node),
          nodes[i]? = some node → ∀ r ∈ nodeRules masks (k + 1 + j) i node, r.Holds ρ := by
        intro j nodes' hj
        rw [Nat.add_right_comm]
        exact hρ (j + 1) nodes' hj
      obtain ⟨u, rs, hrest, hlen, hGs, hpass'⟩ := ih hoks hρ' (hs.passage hpass)
      refine ⟨u, G :: rs, ?_, by simp [hlen], ?_, ?_⟩
      · rw [processBasicBlocks, hproc]
        show (processBasicBlocks masks noValueProfile g (k + 1) blocks t).bind _ = _
        rw [hrest]
        rfl
      · intro j nodes' hj
        cases j with
        | zero =>
            obtain rfl : nodes = nodes' := by simpa using hj
            exact hG.passage hpass' (by simp)
        | succ j =>
            have := hGs j nodes' hj
            rwa [Nat.add_right_comm] at this
      · refine (hpass.mono ?_).trans (hpass'.mono ?_)
        · rintro b rfl
          exact ⟨Nat.le_refl _, by simp⟩
        · rintro b ⟨hb, hlt⟩
          refine ⟨by omega, ?_⟩
          rw [List.length_cons]
          omega

end Blocks

/-! ## The blocks are a layout

The rules of a block write what is local to it, or a variable behind a guard. -/

section Layout

variable {masks : TypeMasks} {g : Graph} {rs : List (Group Loc TypeMask)} {s : Pass}

/-- The rules of each block, and none where there is no block. -/
def groupAt (rs : List (Group Loc TypeMask)) (b : ℕ) : Group Loc TypeMask := rs.getD b ⟨[], []⟩

/-- Every block has been processed. -/
structure Processed (masks : TypeMasks) (g : Graph) (rs : List (Group Loc TypeMask)) (s : Pass) :
    Prop where
  length_eq : rs.length = g.numBBs
  ok : ∀ (b : ℕ) (nodes : List Node), g.blocks[b]? = some nodes →
    BlockOk masks g b nodes (groupAt rs b) s

/-- A group with anything in it belongs to a block in order. -/
theorem Processed.exists_ok (h : Processed masks g rs s) {b : ℕ}
    (hb : groupAt rs b ≠ ⟨[], []⟩) :
    ∃ nodes, g.blocks[b]? = some nodes ∧ BlockOk masks g b nodes (groupAt rs b) s := by
  have hlt : b < rs.length := by
    by_contra hnot
    exact hb (List.getD_eq_default _ _ (by omega))
  rw [h.length_eq] at hlt
  exact ⟨g.blocks.get ⟨b, hlt⟩, List.getElem?_eq_getElem hlt,
    h.ok b _ (List.getElem?_eq_getElem hlt)⟩

/-- So does the block of a guard. -/
theorem Processed.guard_ok (h : Processed masks g rs s) {b : ℕ} {gd : Guard Loc}
    (hgd : gd ∈ (groupAt rs b).guards) :
    ∃ nodes, g.blocks[b]? = some nodes ∧ BlockOk masks g b nodes (groupAt rs b) s :=
  h.exists_ok fun heq => by simp [heq] at hgd

/-- So does the block of a rule. -/
theorem Processed.rule_ok (h : Processed masks g rs s) {b : ℕ} {r : Rule Loc TypeMask}
    (hr : r ∈ (groupAt rs b).rules) :
    ∃ nodes, g.blocks[b]? = some nodes ∧ BlockOk masks g b nodes (groupAt rs b) s :=
  h.exists_ok fun heq => by simp [heq] at hr

/-- A rule of a block writes outputs of the block, and no output of a `GetLocal`, or a variable. -/
theorem BlockOk.dst_cases {b : ℕ} {nodes : List Node} {G : Group Loc TypeMask}
    (h : BlockOk masks g b nodes G s) {r : Rule Loc TypeMask} (hr : r ∈ G.rules) :
    (∃ j o, r.dst = .cell (.output b j o) ∧ ∀ lv, nodes[j]? ≠ some (.getLocal lv)) ∨
      ∃ x, varNode g r.dst = some x := by
  obtain ⟨j, node, hnode, hget, r₀, hr₀, rfl⟩ := h.rule_of r hr
  rcases nodeRules_dst hr₀ with ⟨o, ho⟩ | ⟨lv, v, -, hd⟩ | ⟨cv, hd, -⟩
  · refine .inl ⟨j, o, congrArg Loc.cell ho, fun lv hj => hget lv ?_⟩
    exact Option.some.inj (hnode.symm.trans hj)
  · exact .inr ⟨_, by simp only [lift, hd]; rfl⟩
  · exact .inr ⟨_, by simp only [lift, hd]; rfl⟩

/-- A copy is not a variable. -/
theorem BlockOk.copy_not_var {b : ℕ} {nodes : List Node} {G : Group Loc TypeMask}
    (h : BlockOk masks g b nodes G s) {gd : Guard Loc} (hgd : gd ∈ G.guards) :
    varNode g gd.copy = none := by
  rcases h.guard_shape gd hgd with ⟨lv, j, -, rfl⟩ | ⟨cv, rfl⟩ <;> rfl

/-- What is of a block is not written by another one. -/
theorem Processed.local_not_written (h : Processed masks g rs s) {b b' : ℕ} (hb : b' ≠ b) {l : Loc}
    (hl : Local b l) : l ∉ (groupAt rs b').writes := by
  have hne : ∀ j o, l ≠ .cell (.output b' j o) := by
    rintro j o rfl
    rcases hl with ⟨ord, hl⟩ | ⟨j', o', hl⟩
    · cases hl
    · simp only [Loc.cell.injEq, Cell.output.injEq] at hl
      exact hb hl.1
  have hvar : varNode g l = none := by
    rcases hl with ⟨ord, rfl⟩ | ⟨j', o', rfl⟩ <;> rfl
  rw [Group.writes, List.mem_append, List.mem_map, List.mem_map]
  rintro (⟨gd, hgd, rfl⟩ | ⟨r, hr, rfl⟩)
  · obtain ⟨nodes, -, hok⟩ := h.guard_ok hgd
    rcases hok.guard_shape gd hgd with ⟨lv, j, -, rfl⟩ | ⟨cv, rfl⟩
    · exact hne j 0 rfl
    · rcases hl with ⟨ord, hl⟩ | ⟨j', o', hl⟩ <;> cases hl
  · obtain ⟨nodes, -, hok⟩ := h.rule_ok hr
    rcases hok.dst_cases hr with ⟨j, o, hd, -⟩ | ⟨x, hx⟩
    · exact hne j o hd
    · rw [hvar] at hx
      cases hx

/-- **The blocks do not disturb each other.** -/
theorem Processed.layout (h : Processed masks g rs s) : Layout (groupAt rs) where
  var_ne_copy b b' gd hgd gd' hgd' heq := by
    obtain ⟨nodes, -, hok⟩ := h.guard_ok hgd
    obtain ⟨nodes', -, hok'⟩ := h.guard_ok hgd'
    obtain ⟨x, hx, -⟩ := hok.guard_edge gd hgd
    rw [heq, hok'.copy_not_var hgd'] at hx
    cases hx
  copy_fresh b b' gd hgd r hr heq := by
    obtain ⟨nodes, hb, hok⟩ := h.guard_ok hgd
    obtain ⟨nodes', hb', hok'⟩ := h.rule_ok hr
    rcases hok'.dst_cases hr with ⟨j, o, hd, hget⟩ | ⟨x, hx⟩
    · rw [hd] at heq
      rcases hok.guard_shape gd hgd with ⟨lv, j', hj', rfl⟩ | ⟨cv, rfl⟩
      · simp only [Loc.cell.injEq, Cell.output.injEq] at heq
        obtain ⟨rfl, rfl, -⟩ := heq
        rw [hb'] at hb
        exact hget lv (Option.some.inj hb ▸ hj')
      · cases heq
    · rw [heq, hok.copy_not_var hgd] at hx
      cases hx
  copy_own b b' hbb gd hgd gd' hgd' heq := by
    obtain ⟨nodes, -, hok⟩ := h.guard_ok hgd
    obtain ⟨nodes', -, hok'⟩ := h.guard_ok hgd'
    rcases hok.guard_shape gd hgd with ⟨lv, j, -, rfl⟩ | ⟨cv, rfl⟩ <;>
      rcases hok'.guard_shape gd' hgd' with ⟨lv', j', -, rfl⟩ | ⟨cv', rfl⟩ <;>
      simp only [Loc.cell.injEq, Cell.output.injEq, Loc.privateCopy.injEq, reduceCtorEq] at heq
    · exact hbb heq.1.symm
    · exact hbb heq.1.symm
  copy_inj b gd hgd gd' hgd' heq := by
    obtain ⟨nodes, -, hok⟩ := h.guard_ok hgd
    rcases hok.guard_shape gd hgd with ⟨lv, j, hj, rfl⟩ | ⟨cv, rfl⟩ <;>
      rcases hok.guard_shape gd' hgd' with ⟨lv', j', hj', rfl⟩ | ⟨cv', rfl⟩ <;>
      simp only [Loc.cell.injEq, Cell.output.injEq, Loc.privateCopy.injEq, reduceCtorEq] at heq
    · rw [heq.2.1, hj'] at hj
      simpa using hj.symm
    · rw [heq.2]
  reads b before r after hsplit := by
    have hr : r ∈ (groupAt rs b).rules := by
      rw [hsplit]
      simp
    obtain ⟨nodes, -, hok⟩ := h.rule_ok hr
    obtain ⟨S, hreads, hS⟩ := hok.reads before r after hsplit
    refine ⟨S, hreads, fun k hk => (hS k hk).imp_right fun hlocal => ⟨hlocal.1, ?_⟩⟩
    exact fun b' hb' => h.local_not_written hb' hlocal.2

/-- Every copy starts behind its variable. -/
theorem Processed.tracks (h : Processed masks g rs s) (b : ℕ) :
    Tracks (groupAt rs) b s.predictions := by
  intro gd hgd
  obtain ⟨nodes, -, hok⟩ := h.guard_ok hgd
  rw [hok.guard_bot gd hgd]
  exact bot_le

/-- What one block writes and another one guards, the plan has a path for. -/
theorem Processed.path (h : Processed masks g rs s) {b b' : ℕ} {gd : Guard Loc}
    {r : Rule Loc TypeMask} (hgd : gd ∈ (groupAt rs b).guards) (hr : r ∈ (groupAt rs b').rules)
    (heq : gd.var = r.dst) : ∃ x, x ∈ s.edges b' ∧ b ∈ s.edges x := by
  obtain ⟨nodes, -, hok⟩ := h.guard_ok hgd
  obtain ⟨nodes', -, hok'⟩ := h.rule_ok hr
  obtain ⟨x, hx, hedge⟩ := hok.guard_edge gd hgd
  exact ⟨x, hok'.rule_edge r hr x (heq ▸ hx), hedge⟩

end Layout

/-! ## The plan

The strongly connected components in their order; a block alone in its component is run once. -/

section Plan

variable {g : Graph} {edges : ℕ → List ℕ} {masks : TypeMasks} {rs : List (Group Loc TypeMask)}
  {s : Pass}

/-- The edges go between blocks and variables. -/
def PlanEdges (g : Graph) (edges : ℕ → List ℕ) : Prop :=
  ∀ x y, y ∈ edges x → (x < g.numBBs ∧ g.numBBs ≤ y ∧ y < g.numNodes) ∨
    (y < g.numBBs ∧ g.numBBs ≤ x ∧ x < g.numNodes)

/-- A component of the graph as an item of the plan, if it has blocks. -/
def itemOf (g : Graph) (span : List ℕ) : Option (Item ℕ) :=
  let bbs := span.filter (· < g.numBBs)
  if bbs.length > 0 then
    some { range := bbs, runOnceIsEnough := bbs.length = 1 && span.length = 1 }
  else none

/-- An item is the blocks of a span, and runs once only if the span is one block. -/
theorem itemOf_eq_some {span : List ℕ} {item : Item ℕ} (h : itemOf g span = some item) :
    item.range = span.filter (· < g.numBBs) ∧
      (item.runOnceIsEnough = true → ∃ b, span = [b] ∧ item.range = [b]) := by
  simp only [itemOf] at h
  split_ifs at h
  obtain rfl := Option.some.inj h
  refine ⟨rfl, fun honce => ?_⟩
  simp only [Bool.and_eq_true, decide_eq_true_eq] at honce
  obtain ⟨b, rfl⟩ := List.length_eq_one_iff.mp honce.2
  refine ⟨b, rfl, ?_⟩
  by_cases hb : b < g.numBBs
  · simp [hb]
  · simp [hb] at honce

/-- Where a component stands in the order. -/
theorem idxOf_le_of_sorted {order : List ℕ} {sccInfo : ℕ → ℕ} {n K : ℕ}
    (hperm : order.Perm (List.range K)) (hlt : ∀ v < n, sccInfo v < K)
    (hE : ∀ u < n, ∀ w ∈ edges u, w < n)
    (hsorted : ∀ before c after, order = before ++ c :: after →
      ∀ u < n, ∀ w ∈ edges u, sccInfo w = c → sccInfo u ≠ c → sccInfo u ∈ before)
    {u w : ℕ} (hu : u < n) (hw : w ∈ edges u) :
    order.idxOf (sccInfo u) ≤ order.idxOf (sccInfo w) := by
  by_cases heq : sccInfo u = sccInfo w
  · rw [heq]
  · have hmem : sccInfo w ∈ order :=
      hperm.mem_iff.mpr (List.mem_range.mpr (hlt w (hE u hu w hw)))
    obtain ⟨before, after, hsplit⟩ := List.append_of_mem hmem
    have hbefore := hsorted before _ after hsplit u hu w hw rfl heq
    have hnd : order.Nodup := hperm.nodup_iff.mpr List.nodup_range
    have hnot : sccInfo w ∉ before := by
      rw [hsplit] at hnd
      exact fun h => (List.disjoint_of_nodup_append hnd) h (.head _)
    rw [hsplit, List.idxOf_append_of_mem hbefore, List.idxOf_append_of_notMem hnot]
    have := List.idxOf_lt_length_of_mem hbefore
    omega

/-- The order of the components, as the plan uses it. -/
structure Ordered (g : Graph) (edges : ℕ → List ℕ) (sccInfo : ℕ → ℕ) (order : List ℕ) : Prop where
  nodup : order.Nodup
  mem : ∀ v < g.numNodes, sccInfo v ∈ order
  le : ∀ u w, w ∈ edges u → sccInfo w ≤ sccInfo u
  idxOf_le : ∀ u w, w ∈ edges u → order.idxOf (sccInfo u) ≤ order.idxOf (sccInfo w)

/-- The nodes of a component. -/
def spanOf (g : Graph) (sccInfo : ℕ → ℕ) (c : ℕ) : List ℕ :=
  (List.range g.numNodes).filter fun v => sccInfo v = c

/-- The plan of an order of the components. -/
def planOf (g : Graph) (sccInfo : ℕ → ℕ) (order : List ℕ) : List (Item ℕ) :=
  order.filterMap fun c => itemOf g (spanOf g sccInfo c)

/-- The edges are between prediction nodes. -/
theorem PlanEdges.lt (h : PlanEdges g edges) {x y : ℕ} (hy : y ∈ edges x) :
    x < g.numNodes ∧ y < g.numNodes := by
  have hbb : g.numBBs ≤ g.numNodes := by
    simp only [Graph.numNodes]
    omega
  rcases h x y hy with h | h <;> omega

/-- The plan is made of a topological order of the components. -/
theorem computePlan_eq (hedges : PlanEdges g edges) :
    ∃ sccInfo order, computePlan g edges = some (planOf g sccInfo order) ∧
      Ordered g edges sccInfo order := by
  have hE : ∀ u < g.numNodes, ∀ w ∈ edges u, w < g.numNodes := fun _ _ _ hw => (hedges.lt hw).2
  obtain ⟨K, sccInfo, hscc, hlt, hle⟩ := Scc.computeForGenericGraph_le hE
  obtain ⟨order, hperm, hcomp, hsorted⟩ := Condensation.compute_components hE hlt hle false
  refine ⟨sccInfo, order, ?_, ?_⟩
  · rw [computePlan, hscc]
    simp only [Option.map_some, hcomp, List.filterMap_map]
    rfl
  · exact
      { nodup := hperm.nodup_iff.mpr List.nodup_range
        mem := fun v hv => hperm.mem_iff.mpr (List.mem_range.mpr (hlt v hv))
        le := fun u w hw => hle u (hedges.lt hw).1 w hw
        idxOf_le := fun u w hw => idxOf_le_of_sorted hperm hlt hE hsorted (hedges.lt hw).1 hw }

section PlanOf

variable {sccInfo : ℕ → ℕ} {order : List ℕ}

/-- The blocks of an item are those of its component. -/
theorem mem_range_itemOf {c : ℕ} {item : Item ℕ} (h : itemOf g (spanOf g sccInfo c) = some item)
    {b : ℕ} (hb : b ∈ item.range) : b < g.numBBs ∧ sccInfo b = c := by
  rw [(itemOf_eq_some h).1] at hb
  simp only [spanOf, List.mem_filter, List.mem_range, decide_eq_true_eq] at hb
  exact ⟨hb.2, hb.1.2⟩

/-- A span with a block in it has an item. -/
theorem exists_itemOf {span : List ℕ} {b : ℕ} (hb : b ∈ span) (hlt : b < g.numBBs) :
    ∃ item, itemOf g span = some item ∧ b ∈ item.range := by
  have hmem : b ∈ span.filter (· < g.numBBs) := by simp [hb, hlt]
  exact ⟨_, by rw [itemOf, if_pos (List.length_pos_of_mem hmem)], hmem⟩

/-- Every block is in the plan. -/
theorem Ordered.mem_groupsOf (ho : Ordered g edges sccInfo order) (b : ℕ) :
    b ∈ groupsOf (planOf g sccInfo order) ↔ b < g.numBBs := by
  constructor
  · intro hb
    obtain ⟨item, hitem, hb⟩ := List.mem_flatMap.mp hb
    obtain ⟨c, -, hitem⟩ := List.mem_filterMap.mp hitem
    exact (mem_range_itemOf hitem hb).1
  · intro hb
    have hlt : b < g.numNodes := by
      simp only [Graph.numNodes]
      omega
    obtain ⟨item, hitem, hmem⟩ :=
      exists_itemOf (show b ∈ spanOf g sccInfo (sccInfo b) by simp [spanOf, hlt]) hb
    exact List.mem_flatMap.mpr ⟨item, List.mem_filterMap.mpr ⟨_, ho.mem b hlt, hitem⟩, hmem⟩

/-- …and only once. -/
theorem Ordered.nodup_groupsOf (ho : Ordered g edges sccInfo order) :
    (groupsOf (planOf g sccInfo order)).Nodup := by
  refine List.nodup_flatMap.mpr ⟨fun item hitem => ?_, ?_⟩
  · obtain ⟨c, -, hitem⟩ := List.mem_filterMap.mp hitem
    rw [(itemOf_eq_some hitem).1]
    exact (List.nodup_range.filter _).filter _
  · refine List.pairwise_filterMap.mpr (ho.nodup.imp fun hne i hi j hj b hbi hbj => hne ?_)
    exact (mem_range_itemOf hi hbi).2.symm.trans (mem_range_itemOf hj hbj).2

/-- A block that is run once does not set a variable it gets: the variable would be in its
component. -/
theorem Ordered.item_ok (ho : Ordered g s.edges sccInfo order) (h : Processed masks g rs s)
    (hedges : PlanEdges g s.edges) :
    ∀ item ∈ planOf g sccInfo order, item.Ok (groupAt rs) := by
  intro item hitem honce
  obtain ⟨c, -, hitem⟩ := List.mem_filterMap.mp hitem
  obtain ⟨b, hspan, hb⟩ := (itemOf_eq_some hitem).2 honce
  refine ⟨b, hb, ?_⟩
  rintro b' hb' gd hgd r hr heq
  obtain rfl := List.mem_singleton.mp hb'
  obtain ⟨x, hx, hxb⟩ := h.path hgd hr heq
  have hbc := mem_range_itemOf hitem (by rw [hb]; exact .head _)
  have hsame : sccInfo x = sccInfo b' := Nat.le_antisymm (ho.le b' x hx) (ho.le x b' hxb)
  have hmem : x ∈ spanOf g sccInfo c := by simp [spanOf, (hedges.lt hx).2, hsame, hbc.2]
  rw [hspan, List.mem_singleton] at hmem
  subst hmem
  rcases hedges x x hx with h | h <;> omega

/-- No component sets a variable that an earlier one gets. -/
theorem Ordered.pairwise_quiet (ho : Ordered g s.edges sccInfo order)
    (h : Processed masks g rs s) :
    (planOf g sccInfo order).Pairwise fun i j => ∀ b ∈ i.range, Quiet (groupAt rs) b j.range := by
  have hbefore : order.Pairwise fun c d => order.idxOf c < order.idxOf d := by
    rw [List.pairwise_iff_getElem]
    intro i j hi hj hij
    rwa [ho.nodup.idxOf_getElem, ho.nodup.idxOf_getElem]
  refine List.pairwise_filterMap.mpr
    (hbefore.imp fun hcd i hi j hj b hb b' hb' gd hgd r hr heq => ?_)
  obtain ⟨x, hx, hxb⟩ := h.path hgd hr heq
  have h₁ := ho.idxOf_le b' x hx
  have h₂ := ho.idxOf_le x b hxb
  rw [(mem_range_itemOf hj hb').2] at h₁
  rw [(mem_range_itemOf hi hb).2] at h₂
  omega

end PlanOf

end Plan

/-! ## The result -/

section Result

variable {masks : TypeMasks} {g : Graph} {noValueProfile : Bool} {ρ : Cell → TypeMask}

/-- The rules of a node are rules of the graph. -/
theorem mem_rules_of_node {b i : ℕ} {nodes : List Node} {node : Node}
    (hb : g.blocks[b]? = some nodes) (hi : nodes[i]? = some node) {r : Rule Cell TypeMask}
    (hr : r ∈ nodeRules masks b i node) : r ∈ g.rules masks := by
  refine List.mem_append_right _ (List.mem_flatMap.mpr ⟨(nodes, b), ?_,
    List.mem_flatMap.mpr ⟨(node, i), ?_, hr⟩⟩)
  · exact List.mk_mem_zipIdx_iff_getElem?.mpr hb
  · exact List.mk_mem_zipIdx_iff_getElem?.mpr hi

/-- The rules of a graph are those of its constant-like nodes and of the nodes of its blocks. -/
theorem rules_cases {r : Rule Cell TypeMask} (h : r ∈ g.rules masks) :
    (∃ (ord : ℕ) (c : ConstantLike), g.constantLikeNodes[ord]? = some c ∧
      r = fixedRule (.constantLike ord) (constantLikeMask masks c)) ∨
    ∃ (b : ℕ) (nodes : List Node) (i : ℕ) (node : Node), g.blocks[b]? = some nodes ∧
      nodes[i]? = some node ∧ r ∈ nodeRules masks b i node := by
  rcases List.mem_append.mp h with h | h
  · obtain ⟨⟨c, ord⟩, hc, rfl⟩ := List.mem_map.mp h
    exact .inl ⟨ord, c, List.mk_mem_zipIdx_iff_getElem?.mp hc, rfl⟩
  · obtain ⟨⟨nodes, b⟩, hb, h⟩ := List.mem_flatMap.mp h
    obtain ⟨⟨node, i⟩, hi, h⟩ := List.mem_flatMap.mp h
    exact .inr ⟨b, nodes, i, node, List.mk_mem_zipIdx_iff_getElem?.mp hb,
      List.mk_mem_zipIdx_iff_getElem?.mp hi, h⟩

/-- Constants have their masks from the start. -/
theorem initialPass_constant {ord : ℕ} {c : ConstantLike}
    (h : g.constantLikeNodes[ord]? = some c) :
    (initialPass masks g).predictions (.cell (.constantLike ord)) = constantLikeMask masks c := by
  simp [initialPass, List.getD, h]

/-- No block is written at the start. -/
theorem initialPass_untouched : Untouched 0 (initialPass masks g) := fun _ _ =>
  ⟨fun _ _ => rfl, fun _ => rfl⟩

/-- The predictions of the constant-like nodes are below every solution. -/
theorem initialPass_below (hρ : ∀ r ∈ g.rules masks, r.Holds ρ) :
    (initialPass masks g).predictions ≤ extend ρ := by
  intro l
  rcases l with ⟨ord | _ | _ | _⟩ | _
  · cases hc : g.constantLikeNodes[ord]? with
    | none =>
        have : (initialPass masks g).predictions (.cell (.constantLike ord)) = ⊥ := by
          simp [initialPass, List.getD, hc]
        rw [this]
        exact bot_le
    | some c =>
        rw [initialPass_constant hc]
        refine hρ (fixedRule (.constantLike ord) (constantLikeMask masks c)) ?_
        refine List.mem_append_left _ (List.mem_map.mpr ⟨(c, ord), ?_, rfl⟩)
        exact List.mk_mem_zipIdx_iff_getElem?.mpr hc
  all_goals exact bot_le

/-- What the graph has to be like, block by block. -/
theorem Graph.BlockLocalSSA.nodesOk (hg : g.BlockLocalSSA) (hm : g.MonotoneFns)
    (hp : noValueProfile = true ∨ ∀ nodes ∈ g.blocks, ∀ node ∈ nodes, node.Unprofiled) :
    ∀ nodes ∈ g.blocks, NodesOk g noValueProfile nodes := fun nodes hn =>
  { available := hg.available nodes hn
    varsExist := hg.varsExist nodes hn
    unprofiled := hp.imp_right fun h => h nodes hn
    monotone := hm nodes hn }

/-- If the node functions are monotone, the rules are. -/
theorem rules_monotone (hm : g.MonotoneFns) {r : Rule Cell TypeMask} (h : r ∈ g.rules masks) :
    Monotone r.val := by
  rcases rules_cases h with ⟨ord, c, -, rfl⟩ | ⟨b, nodes, i, node, hb, hi, hr⟩
  · exact fun _ _ _ => le_rfl
  · exact nodeRules_monotone
      (hm nodes (List.mem_of_getElem? hb) node (List.mem_of_getElem? hi)) hr

/-- The edges of the plan, when all blocks have been processed. -/
theorem Passage.planEdges {t : Pass}
    (hp : Passage g ρ {b | 0 ≤ b ∧ b < 0 + g.blocks.length} (initialPass masks g) t) :
    PlanEdges g t.edges := by
  intro x y hy
  rcases hp.edges_new x y hy with hy | ⟨b, ⟨-, hb⟩, hedge⟩
  · cases hy
  · rw [Nat.zero_add] at hb
    rcases hedge with ⟨rfl, h⟩ | ⟨rfl, h⟩
    · exact .inl ⟨hb, h⟩
    · exact .inr ⟨hb, h⟩

section Final

variable {rs : List (Group Loc TypeMask)} {s : Pass} {bs : List ℕ} {ω : Store}

/-- **Every rule of the graph holds** where every block is done. -/
theorem Processed.holds (h : Processed masks g rs s)
    (hconst : (initialPass masks g).predictions ≤ s.predictions)
    (hruns : Runs (groupAt rs) bs s.predictions ω)
    (hdone : ∀ b < g.numBBs, Done (groupAt rs) b ω) {r : Rule Cell TypeMask}
    (hr : r ∈ g.rules masks) : (lift r).Holds ω := by
  rcases rules_cases hr with ⟨ord, c, hc, rfl⟩ | ⟨b, nodes, i, node, hb, hi, hr⟩
  · have hle := (hconst.trans hruns.le) (.cell (.constantLike ord))
    rwa [initialPass_constant hc] at hle
  · have hd := hdone b (List.getElem?_eq_some_iff.mp hb).1
    rcases (h.ok b nodes hb).covered i node hi r hr with hmem | ⟨gd, hgd, heq⟩ | ⟨hh, S, hreads, hS⟩
    · exact hd.2 _ hmem
    · rw [heq]
      exact hd.1 gd hgd
    · refine hh.of_le hreads (fun k hk => (hruns.of_notMem fun b' _ => ?_).symm) hruns.le
      by_cases hbb : b' = b
      · exact hbb ▸ (hS k hk).1
      · exact h.local_not_written hbb (hS k hk).2

/-- **Nothing but the rules of the graph is run.** -/
theorem Processed.le_extend (h : Processed masks g rs s) (hm : g.MonotoneFns)
    (hρ : ∀ r ∈ g.rules masks, r.Holds ρ) (hs : s.predictions ≤ extend ρ)
    (hruns : Runs (groupAt rs) bs s.predictions ω) : ω ≤ extend ρ := by
  have hrule : ∀ b, ∀ r ∈ (groupAt rs b).rules, ∃ r₀ ∈ g.rules masks, r = lift r₀ := by
    intro b r hr
    obtain ⟨nodes, hb, hok⟩ := h.rule_ok hr
    obtain ⟨j, node, hnode, -, r₀, hr₀, rfl⟩ := hok.rule_of r hr
    exact ⟨r₀, mem_rules_of_node hb hnode hr₀, rfl⟩
  refine hruns.le_solution (fun b _ r hr => ?_) (fun b _ r hr => ?_) (fun b _ gd hgd => ?_) hs
  · obtain ⟨r₀, hr₀, rfl⟩ := hrule b r hr
    exact lift_monotone (rules_monotone hm hr₀)
  · obtain ⟨r₀, hr₀, rfl⟩ := hrule b r hr
    exact hρ r₀ hr₀
  · obtain ⟨nodes, hb, hok⟩ := h.guard_ok hgd
    rcases hok.guard_shape gd hgd with ⟨lv, j, hj, rfl⟩ | ⟨cv, rfl⟩
    · exact hρ _ (mem_rules_of_node hb hj (.head _))
    · exact le_refl (ρ (.capturedVar cv))

end Final

/-- **`RunPropagation` ends with the least solution of the propagation rules**, which is where
running them all until nothing changes ends. -/
theorem runPropagation_least (masks : TypeMasks) (noValueProfile : Bool) (g : Graph)
    (hg : g.BlockLocalSSA) (hm : g.MonotoneFns)
    (hp : noValueProfile = true ∨ ∀ nodes ∈ g.blocks, ∀ node ∈ nodes, node.Unprofiled) :
    ∃ σ, (∃ n, ∀ fuel, n ≤ fuel → runPropagation masks noValueProfile g fuel = some σ) ∧
      IsLeast {τ | ∀ r ∈ g.rules masks, r.Holds τ} σ ∧
      ∃ n, ∀ fuel, n ≤ fuel → naive (g.rules masks) fuel ⊥ = some σ := by
  have hmono : ∀ r ∈ g.rules masks, Monotone r.val := fun _ => rules_monotone hm
  obtain ⟨n₀, ρ, hnaive⟩ := exists_naive (g.rules masks) ⊥
  obtain ⟨⟨-, hρ⟩, hleast⟩ := naive_isLeast hmono hnaive
  have hρ' : ∀ (j : ℕ) (nodes : List Node), g.blocks[j]? = some nodes → ∀ (i : ℕ) (node : Node),
      nodes[i]? = some node → ∀ r ∈ nodeRules masks (0 + j) i node, r.Holds ρ := by
    intro j nodes hj i node hi r hr
    rw [Nat.zero_add] at hr
    exact hρ r (mem_rules_of_node hj hi hr)
  obtain ⟨s, rs, hblocks, hlen, hok, hpass⟩ := processBasicBlocks_ok (hg.nodesOk hm hp) hρ'
    initialPass_untouched
  have hproc : Processed masks g rs s := ⟨hlen, fun b nodes hb => by
    have := hok b nodes hb
    rwa [Nat.zero_add] at this⟩
  obtain ⟨sccInfo, order, hplan, hord⟩ := computePlan_eq hpass.planEdges
  obtain ⟨n, ω, hrun, hruns, hdone⟩ :=
    hproc.layout.runPlan_done (hord.item_ok hproc hpass.planEdges)
    hord.nodup_groupsOf (hord.pairwise_quiet hproc) hproc.tracks
  have hholds : ∀ r ∈ g.rules masks, r.Holds fun c => ω (.cell c) := fun r hr =>
    hproc.holds hpass.le hruns (fun b hb => hdone b ((hord.mem_groupsOf b).mpr hb)) hr
  have hle : ω ≤ extend ρ :=
    hproc.le_extend hm hρ (hpass.below (initialPass_below hρ)) hruns
  have heq : (fun c => ω (.cell c)) = ρ :=
    le_antisymm (fun c => hle (.cell c)) (hleast ⟨bot_le, hholds⟩)
  refine ⟨ρ, ⟨n, fun fuel hfuel => ?_⟩, ⟨hρ, fun τ hτ => hleast ⟨bot_le, hτ⟩⟩, n₀, fun fuel hfuel =>
    untilStable_mono hnaive hfuel⟩
  rw [runPropagation, hblocks]
  show (computePlan g s.edges).bind _ = _
  rw [hplan, Option.bind_some]
  show (runPlan (groupAt rs) fuel _ s.predictions).bind _ = _
  rw [hrun fuel hfuel, Option.bind_some, ← heq]
  rfl

/-- The types `tFunction` and three more. -/
def someMasks : TypeMasks := ⟨⟨1⟩, ⟨2⟩, ⟨4⟩, ⟨7⟩⟩

/-- A loop that swaps two locals, one of them through a guest language node. -/
def swapLoop : Graph where
  constantLikeNodes := [.constant ⟨1⟩, .constant ⟨2⟩]
  blocks :=
    [[.setLocal 0 ⟨.constantLike 0, 0⟩, .setLocal 1 ⟨.constantLike 1, 0⟩],
      [.getLocal 0, .getLocal 1,
        .guest [some ⟨.node 0, 0⟩] true [.function fun ins => (ins.headD none).getD ⊥],
        .setLocal 0 ⟨.node 1, 0⟩, .setLocal 1 ⟨.node 2, 0⟩]]
  numLogicalVars := 2
  numCapturedVars := 0

theorem swapLoop_blockLocalSSA : swapLoop.BlockLocalSSA := by
  constructor
  case entry => simp [swapLoop]
  case varsExist => simp [swapLoop, Node.VarsExist]
  case available =>
    intro nodes hn i node hi
    rcases List.mem_pair.mp hn with rfl | rfl <;>
      rcases i with _ | _ | _ | _ | _ | i <;> simp at hi <;> subst hi <;>
      simp [Node.inputs, Value.Available, swapLoop]
  case getLocal_once =>
    intro nodes hn i j lv hi hj
    rcases List.mem_pair.mp hn with rfl | rfl <;>
      rcases i with _ | _ | _ | _ | _ | i <;> simp at hi <;>
      rcases j with _ | _ | _ | _ | _ | j <;> simp at hj <;> omega
  case setLocal_once =>
    intro nodes hn i j lv v w hi hj
    rcases List.mem_pair.mp hn with rfl | rfl <;>
      rcases i with _ | _ | _ | _ | _ | i <;> simp at hi <;>
      rcases j with _ | _ | _ | _ | _ | j <;> simp at hj <;> omega
  case get_before_set =>
    intro nodes hn i j lv v hi hj
    rcases List.mem_pair.mp hn with rfl | rfl <;>
      rcases i with _ | _ | _ | _ | _ | i <;> simp at hi <;>
      rcases j with _ | _ | _ | _ | _ | j <;> simp at hj <;> omega

theorem monotoneFn_head : MonotoneFn fun ins => (ins.headD none).getD ⊥ := by
  intro ins ins' h
  cases h with
  | nil => exact le_rfl
  | cons h _ =>
      cases h with
      | none => exact le_rfl
      | some h => exact h

theorem swapLoop_monotoneFns : swapLoop.MonotoneFns := by
  intro nodes hn node hnode
  rcases List.mem_pair.mp hn with rfl | rfl <;>
    simp only [List.mem_cons, List.not_mem_nil, or_false] at hnode
  · rcases hnode with rfl | rfl <;> exact trivial
  · rcases hnode with rfl | rfl | rfl | rfl | rfl
    · exact trivial
    · exact trivial
    · intro f hf
      obtain rfl := TypeDeduction.function.inj (List.mem_singleton.mp hf)
      exact monotoneFn_head
    · exact trivial
    · exact trivial

theorem runPropagation_least_swapLoop :
    swapLoop.BlockLocalSSA ∧ swapLoop.MonotoneFns ∧
    ∃ σ, (∃ n, ∀ fuel, n ≤ fuel → runPropagation someMasks true swapLoop fuel = some σ) ∧
      IsLeast {τ | ∀ r ∈ swapLoop.rules someMasks, r.Holds τ} σ ∧
      ∃ n, ∀ fuel, n ≤ fuel → naive (swapLoop.rules someMasks) fuel ⊥ = some σ :=
  ⟨swapLoop_blockLocalSSA, swapLoop_monotoneFns,
    runPropagation_least someMasks true swapLoop swapLoop_blockLocalSSA swapLoop_monotoneFns
      (.inl rfl)⟩

end Result

end Prediction

end Dsom
