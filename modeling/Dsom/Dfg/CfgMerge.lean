import Dsom.Dfg.CfgReach

/-!
# Dfg/CfgMerge — blocks that are merged into their predecessor

When a block is merged into its only predecessor, of which it is the only successor, that block
takes its place in the lists of predecessors (`mergeSuccessorBlock_predecessors`), so the lists stay
consistent (`Consistent.merge`), and no other block changes whether it can be merged
(`Step.canMerge`).  A node that takes over the variadic result is dropped when the block it is moved
to produces one; all other nodes are executed in the same order (`Step.sameRuns`).
-/

namespace Dsom

namespace CfgCleanup

namespace Graph

open Traces

/-- A block that was not merged away. -/
def Live (g : Graph) (b : ℕ) : Prop := b ∈ g.blocks ∧ (g.replacement b).isSome = true

/-- A node of a live block. -/
def HasNode (g : Graph) (n : ℕ) : Prop := ∃ b, g.Live b ∧ n ∈ g.nodes b

/-- The block is the only successor of its only predecessor. -/
def CanMerge (g : Graph) (b : ℕ) : Prop :=
  (g.predecessors b).length = 1 ∧ ∀ p ∈ g.predecessors b, (g.successors p).length = 1

/-- No successor can be merged into the block. -/
def Finished (g : Graph) (b : ℕ) : Prop :=
  ∀ s, g.successors b = [s] → (g.predecessors s).length ≠ 1

section Nodes

variable {g : Graph}

/-- Only inputs that are there are set. -/
def SameNodes (node node' : ℕ → Node) : Prop :=
  ∀ n, ∃ input, node' n = { node n with variadicResultInputNode := input } ∧
    (input = none ↔ (node n).variadicResultInputNode = none)

/-- Who inherits a variadic result does not change. -/
theorem SameNodes.inheritsVarRes {node node' : ℕ → Node} (h : SameNodes node node') (n : ℕ) :
    (node' n).inheritsVarRes = (node n).inheritsVarRes := by
  obtain ⟨input, heq, hnone⟩ := h n
  rw [heq, Node.inheritsVarRes, Node.inheritsVarRes]
  refine congrArg _ ?_
  rw [Bool.eq_iff_iff, Option.isNone_iff_eq_none, Option.isNone_iff_eq_none]
  exact hnone

theorem SameNodes.isEmptyNop {node node' : ℕ → Node} (h : SameNodes node node') (n : ℕ) :
    (node' n).isEmptyNop = (node n).isEmptyNop := by
  obtain ⟨input, heq, -⟩ := h n
  rw [heq]
  rfl

theorem SameNodes.refl (node : ℕ → Node) : SameNodes node node := fun _ => ⟨_, rfl, Iff.rfl⟩

theorem SameNodes.trans {node node' node'' : ℕ → Node} (h : SameNodes node node')
    (h' : SameNodes node' node'') : SameNodes node node'' := by
  intro n
  obtain ⟨input, heq, hnone⟩ := h n
  obtain ⟨input', heq', hnone'⟩ := h' n
  refine ⟨input', by rw [heq', heq], hnone'.trans ?_⟩
  rw [heq]
  exact hnone

/-- The input may be replaced by another one. -/
theorem SameNodes.set {node : ℕ → Node} {n : ℕ} {input : Option ℕ}
    (h : input = none ↔ (node n).variadicResultInputNode = none) :
    SameNodes node (Function.update node n { node n with variadicResultInputNode := input }) := by
  intro n'
  by_cases heq : n' = n
  · subst heq
    exact ⟨input, Function.update_self .., h⟩
  · exact ⟨_, Function.update_of_ne heq .., Iff.rfl⟩

/-- A node is dropped if it takes over a variadic result that the block produces. -/
def drops (node : ℕ → Node) (originalNodes : List ℕ) (n : ℕ) : Bool :=
  (node n).inheritsVarRes && originalNodes.any fun other => (node other).isNodeGeneratesVR

theorem SameNodes.drops {node node' : ℕ → Node} (h : SameNodes node node') (l : List ℕ) (n : ℕ) :
    drops node' l n = drops node l n := by
  have hgen : (fun other => (node' other).isNodeGeneratesVR)
      = fun other => (node other).isNodeGeneratesVR := by
    funext other
    obtain ⟨input, heq, -⟩ := h other
    rw [heq]
  rw [Graph.drops, Graph.drops, h.inheritsVarRes, hgen]

/-- One node of the successor is moved to the block or dropped. -/
theorem mergeNode_spec (original : List ℕ) {s : MergeState} {n : ℕ}
    (h : s.inheritVarResNode = none ↔ s.lastVarResProducingNode = none) :
    SameNodes s.node (mergeNode original s n).node ∧
      ((mergeNode original s n).inheritVarResNode = none
        ↔ (mergeNode original s n).lastVarResProducingNode = none) ∧
      (mergeNode original s n).nodes
        = s.nodes ++ if drops s.node original n then [] else [n] := by
  rw [mergeNode, drops]
  by_cases hinherits : (s.node n).inheritsVarRes = true
  · simp only [hinherits, if_true, Bool.true_and]
    cases hfind : original.reverse.find? fun other => (s.node other).isNodeGeneratesVR with
    | none =>
      have hnone : (original.any fun other => (s.node other).isNodeGeneratesVR) = false := by
        simpa using hfind
      exact ⟨.refl _, h, by simp [hnone]⟩
    | some last =>
      have hsome : (original.any fun other => (s.node other).isNodeGeneratesVR) = true := by
        have hlast : (s.node last).isNodeGeneratesVR = true := by
          simpa using List.find?_some hfind
        exact List.any_eq_true.mpr
          ⟨last, List.mem_reverse.mp (List.mem_of_find?_eq_some hfind), hlast⟩
      exact ⟨.refl _, by simp, by simp [hsome]⟩
  · simp only [hinherits, Bool.false_eq_true, if_false, Bool.false_and]
    split_ifs with hset
    · refine ⟨.set ?_, h, rfl⟩
      rw [hset.2]
      exact h.symm
    · exact ⟨.refl _, h, rfl⟩

/-- The loop over the nodes of the merged block. -/
theorem foldl_mergeNode (original l : List ℕ) {s : MergeState}
    (h : s.inheritVarResNode = none ↔ s.lastVarResProducingNode = none) :
    SameNodes s.node (l.foldl (mergeNode original) s).node ∧
      (l.foldl (mergeNode original) s).nodes
        = s.nodes ++ l.filter fun n => !drops s.node original n := by
  induction l generalizing s with
  | nil => exact ⟨.refl _, by simp⟩
  | cons n l ih =>
    obtain ⟨hsame, hlast, hnodes⟩ := mergeNode_spec original (n := n) h
    obtain ⟨hsame', hnodes'⟩ := ih hlast
    refine ⟨hsame.trans hsame', ?_⟩
    have hdrops : (fun n' => !drops (mergeNode original s n).node original n')
        = fun n' => !drops s.node original n' := funext fun n' => by rw [hsame.drops]
    rw [List.foldl_cons, hnodes', hnodes, hdrops, List.append_assoc]
    cases hd : drops s.node original n <;> simp [hd]

/-- The nodes of the merged block follow, but for those that are dropped. -/
theorem mergedNodes_spec (u v : ℕ) :
    SameNodes g.node (g.mergedNodes u v).node ∧
      (g.mergedNodes u v).nodes
        = g.nodes u ++ (g.nodes v).filter fun n => !drops g.node (g.nodes u) n :=
  foldl_mergeNode (g.nodes u) (g.nodes v) (s := ⟨g.nodes u, none, none, g.node⟩) Iff.rfl

end Nodes

/-! ## The predecessors

The successors of the merged block have it replaced among their predecessors, in place. -/

section Predecessors

/-- A block takes the place of another. -/
def rename (u v : ℕ) (l : List ℕ) : List ℕ := l.map fun p => if p = v then u else p

variable {g : Graph} {u v : ℕ} {l : List ℕ}

theorem set_eq_rename (hnodup : l.Nodup) {k : ℕ} (hk : l[k]? = some v) :
    l.set k u = rename u v l := by
  obtain ⟨hlt, hget⟩ := List.getElem?_eq_some_iff.mp hk
  refine List.ext_getElem (by simp [rename]) fun i hi hi' => ?_
  have hi : i < l.length := by simpa using hi
  rw [List.getElem_set]
  simp only [rename, List.getElem_map]
  by_cases heq : k = i
  · subst heq
    simp [hget]
  · have hne : l[i] ≠ v := fun h => heq ((hnodup.getElem_inj_iff).mp (hget.trans h.symm))
    simp [heq, hne]

theorem set_rename {k : ℕ} (hk : l[k]? = some v) : (rename u v l).set k u = rename u v l := by
  obtain ⟨hlt, hget⟩ := List.getElem?_eq_some_iff.mp hk
  have hlt' : k < (rename u v l).length := by simpa [rename] using hlt
  have hat : (rename u v l)[k] = u := by simp [rename, hget]
  have hself : (rename u v l).set k (rename u v l)[k] = rename u v l := List.set_getElem_self hlt'
  rwa [hat] at hself

theorem rename_of_notMem (hv : v ∉ l) : rename u v l = l := by
  conv_rhs => rw [← List.map_id l]
  refine List.map_congr_left fun p hp => if_neg ?_
  rintro rfl
  exact hv hp

@[simp] theorem length_rename : (rename u v l).length = l.length := List.length_map _

/-- The predecessors after the renaming. -/
theorem mem_rename {p : ℕ} : p ∈ rename u v l ↔ (p ∈ l ∧ p ≠ v) ∨ (p = u ∧ v ∈ l) := by
  simp only [rename, List.mem_map]
  constructor
  · rintro ⟨q, hq, rfl⟩
    split_ifs with h
    · exact .inr ⟨rfl, h ▸ hq⟩
    · exact .inl ⟨hq, h⟩
  · rintro (⟨hp, hne⟩ | ⟨rfl, hv⟩)
    · exact ⟨p, hp, if_neg hne⟩
    · exact ⟨v, hv, if_pos rfl⟩

theorem nodup_rename (hnodup : l.Nodup) (hu : u ∉ l) : (rename u v l).Nodup := by
  refine hnodup.map_on fun p hp q hq h => ?_
  split_ifs at h with hpv hqv hqv
  · exact hpv.trans hqv.symm
  · exact absurd (h ▸ hq) hu
  · exact absurd (h ▸ hp) hu
  · exact h

/-- The renaming keeps the order. -/
theorem getElem?_rename {k p : ℕ} (hk : l[k]? = some p) :
    (rename u v l)[k]? = some (if p = v then u else p) := by
  rw [rename, List.getElem?_map, hk]
  rfl

/-- The loop over the successors of the block that is merged. -/
theorem foldl_setPredecessor (edges : List (ℕ × ℕ)) (ords : ℕ → ℕ) {preds preds₀ : ℕ → List ℕ}
    (hpreds : ∀ s, preds s = preds₀ s ∨ preds s = rename u v (preds₀ s))
    (hat : ∀ e ∈ edges, (preds₀ e.1)[ords e.2]? = some v ∧ (preds₀ e.1).Nodup) (s : ℕ) :
    edges.foldl (fun predecessors (succ, i) =>
        Function.update predecessors succ ((predecessors succ).set (ords i) u)) preds s
      = if s ∈ edges.map Prod.fst then rename u v (preds₀ s) else preds s := by
  induction edges generalizing preds with
  | nil => simp
  | cons e edges ih =>
    obtain ⟨hk, hnodup⟩ := hat e (.head _)
    have hset : (preds e.1).set (ords e.2) u = rename u v (preds₀ e.1) := by
      rcases hpreds e.1 with h | h
      · rw [h, set_eq_rename hnodup hk]
      · rw [h, set_rename hk]
    rw [List.foldl_cons]
    dsimp only
    rw [hset, ih (fun s => ?_) fun e' he' => hat e' (.tail _ he')]
    · by_cases hin : s ∈ edges.map Prod.fst
      · simp [hin]
      · by_cases heq : s = e.1
        · simp [heq]
        · simp [hin, heq]
    · by_cases heq : s = e.1
      · subst heq
        exact .inr (Function.update_self ..)
      · rw [Function.update_of_ne heq]
        exact hpreds s

end Predecessors

/-! ## One merge

`u` has the one successor `v`, and `v` the one predecessor `u`. -/

/-- The block `v` is merged into `u`, and marked. -/
def merge (g : Graph) (u v : ℕ) : Graph := (g.mergeSuccessorBlock u v).setReplacement v none

/-- What the loop checks before it merges. -/
structure Merges (g : Graph) (u v : ℕ) : Prop where
  consistent : g.Consistent g.Live
  live : g.Live u
  successors : g.successors u = [v]
  predecessors : (g.predecessors v).length = 1

section Merge

variable {g : Graph} {u v : ℕ} (h : g.Merges u v)

include h

theorem Merges.mem_successors : v ∈ g.successors u := h.successors ▸ .head _

theorem Merges.live_v : g.Live v := h.consistent.closed u h.live v h.mem_successors

theorem Merges.predecessors_eq : g.predecessors v = [u] := by
  obtain ⟨p, hp⟩ := List.length_eq_one_iff.mp h.predecessors
  have hu := (h.consistent.mem v h.live_v u).mpr ⟨h.live, h.mem_successors⟩
  rw [hp, List.mem_singleton] at hu
  rw [hp, hu]

/-- Only the block itself has the other as a successor. -/
theorem Merges.eq_of_mem {p : ℕ} (hp : g.Live p) (hv : v ∈ g.successors p) : p = u := by
  have := (h.consistent.mem v h.live_v p).mpr ⟨hp, hv⟩
  rwa [h.predecessors_eq, List.mem_singleton] at this

theorem Merges.ne_entry : v ≠ g.getEntryBB := by
  rintro rfl
  have := h.predecessors
  rw [h.consistent.entry.2] at this
  exact absurd this (by decide)

/-- A block is not merged into itself: it would not be reached. -/
theorem Merges.ne : u ≠ v := by
  intro heq
  have hreach := h.consistent.reach v h.live_v
  suffices hnot : ∀ b, g.Reach g.getEntryBB b → g.Live b ∧ b ≠ v from (hnot v hreach).2 rfl
  intro b hb
  induction hb with
  | refl => exact ⟨h.consistent.entry.1, h.ne_entry.symm⟩
  | tail _ hstep ih =>
    refine ⟨h.consistent.closed _ ih.1 _ hstep, ?_⟩
    rintro rfl
    exact ih.2 ((h.eq_of_mem ih.1 hstep).trans heq)

theorem Merges.notMem_self : v ∉ g.successors v := fun hv => h.ne (h.eq_of_mem h.live_v hv).symm

omit h in
/-- Every other block stays alive. -/
theorem merge_live {b : ℕ} : (g.merge u v).Live b ↔ g.Live b ∧ b ≠ v := by
  rw [Live, Live]
  change b ∈ g.blocks ∧ (Function.update g.replacement v none b).isSome = true ↔ _
  by_cases heq : b = v <;> simp [heq]

omit h in
theorem merge_entry : (g.merge u v).getEntryBB = g.getEntryBB := rfl

/-- The block takes over the successors. -/
theorem Merges.successors_self : (g.merge u v).successors u = g.successors v := by
  change Function.update (Function.update g.successors u _) v [] u = _
  rw [Function.update_of_ne h.ne, Function.update_self]

omit h in
/-- The other blocks keep theirs. -/
theorem merge_successors_of_ne {b : ℕ} (hu : b ≠ u) (hv : b ≠ v) :
    (g.merge u v).successors b = g.successors b := by
  change Function.update (Function.update g.successors u _) v [] b = _
  rw [Function.update_of_ne hv, Function.update_of_ne hu]

/-- The predecessors of a live block, after the merge. -/
theorem Merges.predecessors_merge {s : ℕ} (hs : g.Live s) (hne : s ≠ v) :
    (g.merge u v).predecessors s = rename u v (g.predecessors s) := by
  have hat : ∀ e ∈ (g.successors v).zipIdx,
      (g.predecessors e.1)[g.predOrdForSuccessors v e.2]? = some v ∧
        (g.predecessors e.1).Nodup := by
    intro e he
    have hget := List.mem_zipIdx_iff_getElem?.mp he
    have hlive := h.consistent.closed v h.live_v e.1 (List.mem_of_getElem? hget)
    exact ⟨h.consistent.ord v h.live_v e.2 e.1 hget, h.consistent.nodup e.1 hlive⟩
  change Function.update ((g.successors v).zipIdx.foldl _ g.predecessors) v [] s = _
  rw [Function.update_of_ne hne, foldl_setPredecessor _ _ (fun _ => .inl rfl) hat,
    List.zipIdx_map_fst]
  split_ifs with hin
  · rfl
  · -- the block that is merged is no predecessor
    refine (rename_of_notMem fun hv => hin ?_).symm
    exact ((h.consistent.mem s hs v).mp hv).2

theorem Merges.u_notMem {s : ℕ} (hs : g.Live s) (hne : s ≠ v) : u ∉ g.predecessors s := by
  intro hu
  have := ((h.consistent.mem s hs u).mp hu).2
  rw [h.successors, List.mem_singleton] at this
  exact hne this

/-- The ordinals of the branches stay those of their places in the lists. -/
theorem Merges.ord_merge : ∀ p, (g.merge u v).Live p → ∀ (i : ℕ) s,
    ((g.merge u v).successors p)[i]? = some s →
    ((g.merge u v).predecessors s)[(g.merge u v).predOrdForSuccessors p i]? = some p := by
  have hc := h.consistent
  intro p hlive i s hs
  obtain ⟨hp, hpv⟩ := merge_live.mp hlive
  by_cases hpu : p = u
  · subst hpu
    rw [h.successors_self] at hs
    have hin := List.mem_of_getElem? hs
    have hord : (g.merge p v).predOrdForSuccessors p i = g.predOrdForSuccessors v i := by
      obtain ⟨hlt, -⟩ := List.getElem?_eq_some_iff.mp hs
      change Function.update g.predOrdForSuccessors p _ p i = _
      rw [Function.update_self]
      exact if_pos hlt
    have hsv : s ≠ v := fun heq => h.notMem_self (heq ▸ hin)
    rw [hord, h.predecessors_merge (hc.closed v h.live_v s hin) hsv,
      getElem?_rename (hc.ord v h.live_v i s hs), if_pos rfl]
  · rw [merge_successors_of_ne hpu hpv] at hs
    have hin := List.mem_of_getElem? hs
    have hsv : s ≠ v := by
      rintro rfl
      exact hpu (h.eq_of_mem hp hin)
    have hord : (g.merge u v).predOrdForSuccessors p i = g.predOrdForSuccessors p i := by
      change Function.update g.predOrdForSuccessors u _ p i = _
      rw [Function.update_of_ne hpu]
    rw [hord, h.predecessors_merge (hc.closed p hp s hin) hsv,
      getElem?_rename (hc.ord p hp i s hs), if_neg hpv]

/-- A path passes through the block where it passed through the one that is merged. -/
theorem Merges.reach_merge {b : ℕ} (hb : g.Reach g.getEntryBB b) :
    g.Live b ∧ (g.merge u v).Reach g.getEntryBB (if b = v then u else b) := by
  have hc := h.consistent
  induction hb with
  | refl =>
    rw [if_neg h.ne_entry.symm]
    exact ⟨hc.entry.1, .refl⟩
  | @tail a b _ hstep ih =>
    obtain ⟨ha, hreach⟩ := ih
    have hb := hc.closed a ha b hstep
    refine ⟨hb, ?_⟩
    by_cases hbv : b = v
    · subst hbv
      obtain rfl := h.eq_of_mem ha hstep
      rw [if_neg h.ne] at hreach
      rwa [if_pos rfl]
    · rw [if_neg hbv]
      refine hreach.tail ?_
      by_cases hav : a = v
      · subst hav
        rw [if_pos rfl, Succ, h.successors_self]
        exact hstep
      · have hau : a ≠ u := by
          rintro rfl
          rw [Succ, h.successors, List.mem_singleton] at hstep
          exact hbv hstep
        rw [if_neg hav, Succ, merge_successors_of_ne hau hav]
        exact hstep

/-- **The lists stay consistent.** -/
theorem Consistent.merge : (g.merge u v).Consistent (g.merge u v).Live := by
  have hc := h.consistent
  constructor
  case closed =>
    intro b hlive s hs
    obtain ⟨hb, hbv⟩ := merge_live.mp hlive
    by_cases hbu : b = u
    · subst hbu
      rw [h.successors_self] at hs
      exact merge_live.mpr ⟨hc.closed v h.live_v s hs, fun heq => h.notMem_self (heq ▸ hs)⟩
    · rw [merge_successors_of_ne hbu hbv] at hs
      refine merge_live.mpr ⟨hc.closed b hb s hs, ?_⟩
      rintro rfl
      exact hbu (h.eq_of_mem hb hs)
  case mem =>
    intro b hlive p
    obtain ⟨hb, hbv⟩ := merge_live.mp hlive
    rw [h.predecessors_merge hb hbv, mem_rename, merge_live]
    by_cases hpu : p = u
    · subst hpu
      rw [h.successors_self, hc.mem b hb v]
      simp [h.u_notMem hb hbv, h.live, h.live_v, h.ne]
    · by_cases hpv : p = v
      · simp [hpv, h.ne.symm]
      · rw [merge_successors_of_ne hpu hpv, hc.mem b hb p]
        simp [hpu, hpv]
  case nodup =>
    intro b hlive
    obtain ⟨hb, hbv⟩ := merge_live.mp hlive
    rw [h.predecessors_merge hb hbv]
    exact nodup_rename (hc.nodup b hb) (h.u_notMem hb hbv)
  case ord => exact h.ord_merge
  case entry =>
    refine ⟨merge_live.mpr ⟨hc.entry.1, h.ne_entry.symm⟩, ?_⟩
    rw [merge_entry, h.predecessors_merge hc.entry.1 h.ne_entry.symm, hc.entry.2]
    rfl
  case reach =>
    intro b hlive
    obtain ⟨hb, hbv⟩ := merge_live.mp hlive
    have := (h.reach_merge (hc.reach b hb)).2
    rwa [if_neg hbv] at this

/-- No other block changes whether it can be merged. -/
theorem Merges.canMerge {b : ℕ} (hb : g.Live b) (hbv : b ≠ v) :
    (g.merge u v).CanMerge b ↔ g.CanMerge b := by
  rw [CanMerge, CanMerge, h.predecessors_merge hb hbv, length_rename]
  refine and_congr_right fun _ => ⟨fun hall p hp => ?_, fun hall p hp => ?_⟩
  · have hpu : p ≠ u := fun heq => h.u_notMem hb hbv (heq ▸ hp)
    by_cases hpv : p = v
    · subst hpv
      have := hall u (mem_rename.mpr (.inr ⟨rfl, hp⟩))
      rwa [h.successors_self] at this
    · have := hall p (mem_rename.mpr (.inl ⟨hp, hpv⟩))
      rwa [merge_successors_of_ne hpu hpv] at this
  · rcases mem_rename.mp hp with ⟨hp, hpv⟩ | ⟨rfl, hv⟩
    · have hpu : p ≠ u := fun heq => h.u_notMem hb hbv (heq ▸ hp)
      rw [merge_successors_of_ne hpu hpv]
      exact hall p hp
    · rw [h.successors_self]
      exact hall v hv

/-- A block that is finished stays so while another takes in blocks. -/
theorem Merges.finished {b : ℕ} (hb : g.Live b) (hbv : b ≠ v) (hbu : b ≠ u)
    (hfin : g.Finished b) : (g.merge u v).Finished b := by
  intro s hs
  rw [merge_successors_of_ne hbu hbv] at hs
  have hin : s ∈ g.successors b := hs ▸ .head _
  have hsv : s ≠ v := by
    rintro rfl
    exact hbu (h.eq_of_mem hb hin)
  rw [h.predecessors_merge (h.consistent.closed b hb s hin) hsv, length_rename]
  exact hfin s hs

end Merge

/-! ### The nodes of a merge -/

/-- A node is in one live block, and once. -/
structure UniqueNodes (g : Graph) : Prop where
  nodup : ∀ b, g.Live b → (g.nodes b).Nodup
  unique : ∀ b b' n, g.Live b → g.Live b' → n ∈ g.nodes b → n ∈ g.nodes b' → b = b'

section Nodes

variable {g : Graph} {u v : ℕ}

/-- The block takes over the nodes, but for those that are dropped. -/
theorem merge_nodes_self : (g.merge u v).nodes u
    = g.nodes u ++ (g.nodes v).filter fun n => !drops g.node (g.nodes u) n := by
  change Function.update g.nodes u _ u = _
  rw [Function.update_self, (mergedNodes_spec u v).2]

theorem merge_nodes_of_ne {b : ℕ} (hb : b ≠ u) : (g.merge u v).nodes b = g.nodes b :=
  Function.update_of_ne hb ..

variable (h : g.Merges u v)

include h

/-- Where a node was before. -/
theorem Merges.mem_nodes {b n : ℕ} (hb : (g.merge u v).Live b)
    (hn : n ∈ (g.merge u v).nodes b) :
    ∃ b', g.Live b' ∧ n ∈ g.nodes b' ∧ (if b' = v then u else b') = b := by
  obtain ⟨hlive, hbv⟩ := merge_live.mp hb
  by_cases hbu : b = u
  · subst hbu
    rw [merge_nodes_self] at hn
    rcases List.mem_append.mp hn with hn | hn
    · exact ⟨b, hlive, hn, if_neg hbv⟩
    · exact ⟨v, h.live_v, (List.mem_filter.mp hn).1, if_pos rfl⟩
  · rw [merge_nodes_of_ne hbu] at hn
    exact ⟨b, hlive, hn, if_neg hbv⟩

/-- No new node comes in. -/
theorem Merges.hasNode {n : ℕ} (hn : (g.merge u v).HasNode n) : g.HasNode n := by
  obtain ⟨b, hb, hn⟩ := hn
  obtain ⟨b', hb', hn', -⟩ := h.mem_nodes hb hn
  exact ⟨b', hb', hn'⟩

/-- A node is still in one block only. -/
theorem UniqueNodes.merge (hu : g.UniqueNodes) : (g.merge u v).UniqueNodes := by
  refine ⟨fun b hb => ?_, fun b b' n hb hb' hn hn' => ?_⟩
  · obtain ⟨hlive, hbv⟩ := merge_live.mp hb
    by_cases hbu : b = u
    · subst hbu
      rw [merge_nodes_self]
      refine List.nodup_append.mpr ⟨hu.nodup b hlive, (hu.nodup v h.live_v).filter _, ?_⟩
      rintro n hn _ hn' rfl
      exact hbv (hu.unique b v n hlive h.live_v hn (List.mem_filter.mp hn').1)
    · rw [merge_nodes_of_ne hbu]
      exact hu.nodup b hlive
  · obtain ⟨a, ha, hna, rfl⟩ := h.mem_nodes hb hn
    obtain ⟨a', ha', hna', rfl⟩ := h.mem_nodes hb' hn'
    rw [hu.unique a a' n ha ha' hna hna']

end Nodes

/-! ### The runs of a merge -/

section Runs

variable {g g' : Graph} {keep keep' : ℕ → Bool} {decisions : ℕ → Bool} {u v : ℕ}

/-- A run goes on to one of the successors. -/
theorem execBlock_next {b k s k' : ℕ} {events : List Event}
    (h : g.execBlock keep decisions (b, k) = (events, some (s, k'))) : s ∈ g.successors b := by
  rw [execBlock] at h
  dsimp only at h
  cases hsucc : g.successors b with
  | nil => simp [hsucc] at h
  | cons s₀ succs =>
    cases succs with
    | nil =>
      simp only [hsucc, Prod.mk.injEq, Option.some.injEq] at h
      simp [h.2.1]
    | cons s₁ succs =>
      simp only [hsucc, Prod.mk.injEq, Option.some.injEq] at h
      obtain ⟨-, hs, -⟩ := h
      cases hd : decisions k <;> simp [← hs, hd]

/-- The graphs do the same in a block from which runs go on to related blocks. -/
theorem matches_of_eq {R : ℕ × ℕ → ℕ × ℕ → Prop} {b k : ℕ}
    (heq : g.execBlock keep decisions (b, k) = g'.execBlock keep' decisions (b, k))
    (hR : ∀ s ∈ g.successors b, ∀ k', R (s, k') (s, k')) :
    Matches R (g.execBlock keep decisions) (b, k) (g'.execBlock keep' decisions) (b, k) := by
  rcases hexec : g.execBlock keep decisions (b, k) with ⟨events, _ | ⟨s, k'⟩⟩
  · exact ⟨0, 0, events, none, none, runFor_one hexec, runFor_one (heq ▸ hexec), .none⟩
  · exact ⟨0, 0, events, some (s, k'), some (s, k'), runFor_one hexec,
      runFor_one (heq ▸ hexec), .some (hR s (execBlock_next hexec) k')⟩

/-- **One merge** leaves the runs the same, but for the nodes that are dropped. -/
theorem Merges.sameRuns (h : g.Merges u v)
    (hkeep : ∀ n ∈ g.nodes v, drops g.node (g.nodes u) n = true → keep n = false) :
    g.SameRuns keep (g.merge u v) keep := by
  intro decisions
  rw [merge_entry]
  refine agree_of_matches (R := fun s t => s = t ∧ (g.merge u v).Live s.1) ?_
    ⟨rfl, (Consistent.merge h).entry.1⟩
  rintro ⟨b, k⟩ _ ⟨rfl, hb⟩
  obtain ⟨hlive, hbv⟩ := merge_live.mp hb
  have hclosed := (Consistent.merge h).closed b hb
  by_cases hbu : b = u
  · subst hbu
    rw [h.successors_self] at hclosed
    have hfirst : g.execBlock keep decisions (b, k)
        = (((g.nodes b).filter keep).map .node, some (v, k)) := by
      simp only [execBlock, h.successors]
    -- the block shows what both showed
    have hfilter : ((g.merge b v).nodes b).filter keep
        = (g.nodes b).filter keep ++ (g.nodes v).filter keep := by
      rw [merge_nodes_self, List.filter_append, List.filter_filter]
      refine congrArg _ (List.filter_congr fun n hn => ?_)
      cases hd : drops g.node (g.nodes b) n
      · simp
      · simp [hkeep n hn hd]
    have hboth : (g.merge b v).execBlock keep decisions (b, k)
        = (((g.nodes b).filter keep).map .node ++ (g.execBlock keep decisions (v, k)).1,
          (g.execBlock keep decisions (v, k)).2) := by
      simp only [execBlock, h.successors_self, hfilter, List.map_append]
      split <;> simp
    rcases hexec : g.execBlock keep decisions (v, k) with ⟨events, out⟩
    rw [hexec] at hboth
    refine ⟨1, 0, _, out, out, runFor_append (runFor_one hfirst) (runFor_one hexec),
      runFor_one hboth, ?_⟩
    rcases out with _ | ⟨s, k'⟩
    · exact .none
    · exact .some ⟨rfl, hclosed s (execBlock_next hexec)⟩
  · refine matches_of_eq ?_ fun s hs k' => ⟨rfl, ?_⟩
    · simp only [execBlock, merge_successors_of_ne hbu hbv, merge_nodes_of_ne hbu]
    · have hs' : s ∈ (g.merge u v).successors b := by rwa [merge_successors_of_ne hbu hbv]
      exact hclosed s hs'

end Runs

/-! ## Chains of merges

A block is merged with its successors until that is no longer possible; each merge leaves one block
fewer. -/

/-- From one graph to the next. -/
theorem SameRuns.trans {g g' g'' : Graph} {keep keep' keep'' : ℕ → Bool}
    (h : g.SameRuns keep g' keep') (h' : g'.SameRuns keep' g'' keep'') :
    g.SameRuns keep g'' keep'' := fun decisions => (h decisions).trans (h' decisions)

/-- **The invariant** of the merges. -/
structure MergeInv (g : Graph) : Prop where
  consistent : g.Consistent g.Live
  unique : g.UniqueNodes

/-- What any number of merges does. -/
structure MergedTo (g g' : Graph) : Prop where
  blocks : g'.blocks = g.blocks
  live : ∀ b, g'.Live b → g.Live b
  canMerge : ∀ b, g'.Live b → (g'.CanMerge b ↔ g.CanMerge b)
  node : SameNodes g.node g'.node
  hasNode : ∀ n, g'.HasNode n → g.HasNode n
  sameRuns : ∀ keep : ℕ → Bool, (∀ n, g.HasNode n → (g.node n).inheritsVarRes = true →
    ¬ g'.HasNode n → keep n = false) → g.SameRuns keep g' keep

section Chain

variable {g g' g'' : Graph} {u v : ℕ}

theorem MergedTo.refl (g : Graph) : MergedTo g g :=
  ⟨rfl, fun _ h => h, fun _ _ => Iff.rfl, .refl _, fun _ h => h,
    fun _ _ _ => .refl _ _⟩

theorem MergedTo.trans (h : MergedTo g g') (h' : MergedTo g' g'') : MergedTo g g'' where
  blocks := h'.blocks.trans h.blocks
  live b hb := h.live b (h'.live b hb)
  canMerge b hb := (h'.canMerge b hb).trans (h.canMerge b (h'.live b hb))
  node := h.node.trans h'.node
  hasNode n hn := h.hasNode n (h'.hasNode n hn)
  sameRuns keep hkeep := by
    refine (h.sameRuns keep fun n hn hi hnot => ?_).trans (h'.sameRuns keep fun n hn hi hnot => ?_)
    · exact hkeep n hn hi fun hn'' => hnot (h'.hasNode n hn'')
    · exact hkeep n (h.hasNode n hn) (h.node.inheritsVarRes n ▸ hi) hnot

/-- One merge keeps the invariant. -/
theorem MergeInv.merge (hinv : g.MergeInv) (h : g.Merges u v) : (g.merge u v).MergeInv :=
  ⟨Consistent.merge h, UniqueNodes.merge h hinv.unique⟩

/-- The blocks that were visited take in no more blocks, unless they will be merged themselves. -/
def Visited (g : Graph) (seen : List ℕ) : Prop :=
  ∀ b ∈ seen, g.Live b → ¬ g.CanMerge b → g.Finished b

end Chain

end Graph

end CfgCleanup

end Dsom
