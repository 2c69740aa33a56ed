import Dsom.Dfg.CfgBypass

/-!
# Dfg/CfgReach — reachable blocks and their predecessors

The worklist marks exactly the blocks that are reached from the entry (`reachLoop_spec`), and the
loop after it enters every edge of a reachable block in the list of predecessors of its target, once
for two edges between the same blocks (`Entered`).  What holds then is `Consistent`, the invariant
of everything that comes after.
-/

namespace Dsom

namespace CfgCleanup

namespace Graph

/-- The successors and the predecessors of the blocks that are live agree. -/
structure Consistent (g : Graph) (live : ℕ → Prop) : Prop where
  closed : ∀ b, live b → ∀ s ∈ g.successors b, live s
  mem : ∀ b, live b → ∀ p, p ∈ g.predecessors b ↔ live p ∧ b ∈ g.successors p
  nodup : ∀ b, live b → (g.predecessors b).Nodup
  ord : ∀ p, live p → ∀ i s, (g.successors p)[i]? = some s →
    (g.predecessors s)[g.predOrdForSuccessors p i]? = some p
  entry : live g.getEntryBB ∧ g.predecessors g.getEntryBB = []
  reach : ∀ b, live b → g.Reach g.getEntryBB b

/-! ## The worklist

Every block in it is marked, and a block is put into it once. -/

section Worklist

variable {g g' : Graph} {entry : ℕ}

/-- How many blocks are not marked. -/
def unmarked (g : Graph) : ℕ := (g.blocks.filter fun b => !g.isReachable b).length

/-- **The invariant** of the worklist: the blocks that are marked are reached, and those of them
that are off the list have their successors marked. -/
structure Marked (g : Graph) (entry : ℕ) (worklist : List ℕ) (g' : Graph) : Prop where
  rest : ∃ m, g' = { g with isReachable := m }
  start : g'.isReachable entry = true
  reach : ∀ b ∈ g.blocks, g'.isReachable b = true → g.Reach entry b
  listed : ∀ b ∈ worklist, b ∈ g.blocks ∧ g'.isReachable b = true
  closed : ∀ b ∈ g.blocks, g'.isReachable b = true → b ∉ worklist →
    ∀ s ∈ g.successors b, g'.isReachable s = true

end Worklist

/-! ## The predecessors -/

/-- The edges that were entered: the block, which of its successors, and the successor. -/
structure Entered (g : Graph) (edges : List (ℕ × ℕ × ℕ)) (g' : Graph) : Prop where
  rest : ∃ ords preds, g' = { g with predOrdForSuccessors := ords, predecessors := preds }
  mem : ∀ b ∈ g.blocks, ∀ p, p ∈ g'.predecessors b ↔ ∃ i, (p, i, b) ∈ edges
  nodup : ∀ b ∈ g.blocks, (g'.predecessors b).Nodup
  ord : ∀ e ∈ edges, (g'.predecessors e.2.2)[g'.predOrdForSuccessors e.1 e.2.1]? = some e.1

section Predecessors

variable {g g' : Graph} {edges : List (ℕ × ℕ × ℕ)} {bb i succ : ℕ}

/-- The ordinals of other edges are kept. -/
theorem update_ords_of_ne {ords : ℕ → ℕ → ℕ} {x : ℕ} {e : ℕ × ℕ × ℕ}
    (h : ¬ (e.1 = bb ∧ e.2.1 = i)) :
    Function.update ords bb (Function.update (ords bb) i x) e.1 e.2.1 = ords e.1 e.2.1 := by
  by_cases hb : e.1 = bb
  · have hi : e.2.1 ≠ i := fun hi => h ⟨hb, hi⟩
    simp [hb, hi]
  · simp [hb]

/-- The second of two edges to the same block gets the ordinal of the first. -/
theorem Entered.again {ords : ℕ → ℕ → ℕ} {preds : ℕ → List ℕ}
    (h : Entered g edges { g with predOrdForSuccessors := ords, predecessors := preds })
    (hold : ∀ e ∈ edges, ¬ (e.1 = bb ∧ e.2.1 = i)) (hfirst : (bb, 0, succ) ∈ edges) :
    Entered g (edges ++ [(bb, i, succ)]) { g with
      predOrdForSuccessors :=
        Function.update ords bb (Function.update (ords bb) i (ords bb 0))
      predecessors := preds } := by
  refine ⟨⟨_, preds, rfl⟩, fun b hb p => (h.mem b hb p).trans ?_, h.nodup, fun e he => ?_⟩
  · refine ⟨fun ⟨j, hj⟩ => ⟨j, List.mem_append_left _ hj⟩, fun ⟨j, hj⟩ => ?_⟩
    rcases List.mem_append.mp hj with hj | hj
    · exact ⟨j, hj⟩
    · obtain ⟨rfl, rfl, rfl⟩ := by simpa using hj
      exact ⟨0, hfirst⟩
  · rcases List.mem_append.mp he with he | he
    · dsimp only
      rw [update_ords_of_ne (hold e he)]
      exact h.ord e he
    · rw [List.mem_singleton.mp he]
      simpa using h.ord _ hfirst

/-- The first edge to a block makes a new predecessor. -/
theorem Entered.first {ords : ℕ → ℕ → ℕ} {preds : ℕ → List ℕ}
    (h : Entered g edges { g with predOrdForSuccessors := ords, predecessors := preds })
    (hold : ∀ e ∈ edges, ¬ (e.1 = bb ∧ e.2.1 = i)) (hnone : ∀ j, (bb, j, succ) ∉ edges) :
    Entered g (edges ++ [(bb, i, succ)]) { g with
      predOrdForSuccessors :=
        Function.update ords bb (Function.update (ords bb) i (preds succ).length)
      predecessors := Function.update preds succ (preds succ ++ [bb]) } := by
  refine ⟨⟨_, _, rfl⟩, fun b hb p => ?_, fun b hb => ?_, fun e he => ?_⟩
  · have hm := h.mem b hb p
    by_cases hbs : b = succ
    · subst hbs
      simp only [Function.update_self, List.mem_append, List.mem_singleton, Prod.mk.injEq,
        and_true, hm]
      constructor
      · rintro (⟨j, hj⟩ | rfl)
        · exact ⟨j, .inl hj⟩
        · exact ⟨i, .inr ⟨rfl, rfl⟩⟩
      · rintro ⟨j, hj | ⟨rfl, -⟩⟩
        · exact .inl ⟨j, hj⟩
        · exact .inr rfl
    · simp only [Function.update_of_ne hbs, List.mem_append, List.mem_singleton, Prod.mk.injEq,
        hbs, and_false, or_false]
      exact hm
  · by_cases hbs : b = succ
    · subst hbs
      simp only [Function.update_self]
      refine List.nodup_append.mpr ⟨h.nodup b hb, List.nodup_singleton _, ?_⟩
      rintro p hp _ hq rfl
      obtain ⟨j, hj⟩ := (h.mem b hb p).mp hp
      exact hnone j (List.mem_singleton.mp hq ▸ hj)
    · simpa [hbs] using h.nodup b hb
  · rcases List.mem_append.mp he with he | he
    · have hord := h.ord e he
      dsimp only at hord ⊢
      rw [update_ords_of_ne (hold e he)]
      by_cases hes : e.2.2 = succ
      · rw [hes] at hord ⊢
        rw [Function.update_self]
        obtain ⟨hlt, -⟩ := List.getElem?_eq_some_iff.mp hord
        rwa [List.getElem?_append_left hlt]
      · rwa [Function.update_of_ne hes]
    · rw [List.mem_singleton.mp he]
      simp

/-- **One more edge** is entered. -/
theorem Entered.step (h : Entered g edges g') (hnew : ∀ s, (bb, i, s) ∉ edges)
    (hdup : ∀ j, (bb, j, succ) ∈ edges → i = 1 ∧ (g.successors bb)[0]? = some succ)
    (hzero : i = 1 → (g.successors bb)[0]? = some succ → (bb, 0, succ) ∈ edges) :
    Entered g (edges ++ [(bb, i, succ)]) (addPredecessor bb g' i succ) := by
  have hold : ∀ e ∈ edges, ¬ (e.1 = bb ∧ e.2.1 = i) := by
    rintro ⟨p, j, s⟩ he ⟨rfl, rfl⟩
    exact hnew s he
  obtain ⟨ords, preds, rfl⟩ := h.rest
  rw [addPredecessor]
  dsimp only
  split_ifs with htwice
  · exact h.again hold (hzero htwice.1 htwice.2)
  · exact h.first hold fun j hj => htwice (hdup j hj)

/-- The edges out of a block. -/
def edgesOf (g : Graph) (b : ℕ) : List (ℕ × ℕ × ℕ) :=
  (g.successors b).zipIdx.map fun (s, i) => (b, i, s)

/-- The edges out of one block. -/
theorem mem_edgesOf {b p s : ℕ} :
    (p, i, s) ∈ g.edgesOf b ↔ p = b ∧ (g.successors b)[i]? = some s := by
  simp only [edgesOf, List.mem_map, Prod.mk.injEq, Prod.exists, List.mem_zipIdx_iff_getElem?]
  exact ⟨fun ⟨_, _, h, hp, hi, hs⟩ => ⟨hp.symm, hs ▸ hi ▸ h⟩,
    fun ⟨hp, h⟩ => ⟨s, i, h, hp.symm, rfl, rfl⟩⟩

/-- **The edges of a block** are entered. -/
theorem Entered.block (htwo : (g.successors bb).length ≤ 2) (h : Entered g edges g')
    (hnew : ∀ j s, (bb, j, s) ∉ edges) (hreach : g.isReachable bb = true) :
    Entered g (edges ++ g.edgesOf bb) (addPredecessors g' bb) := by
  have hsame : g'.successors = g.successors ∧ g'.isReachable = g.isReachable := by
    obtain ⟨ords, preds, rfl⟩ := h.rest
    exact ⟨rfl, rfl⟩
  rw [addPredecessors, if_pos (hsame.2 ▸ hreach), hsame.1, edgesOf]
  match hsucc : g.successors bb, htwo with
  | [], _ => simpa using h
  | [s₀], _ =>
    exact h.step (hnew 0) (fun j hj => absurd hj (hnew j s₀)) fun hi => absurd hi Nat.zero_ne_one
  | [s₀, s₁], _ =>
    have h₀ : Entered g (edges ++ [(bb, 0, s₀)]) (addPredecessor bb g' 0 s₀) :=
      h.step (hnew 0) (fun j hj => absurd hj (hnew j s₀)) fun hi => absurd hi Nat.zero_ne_one
    suffices h₁ : Entered g (edges ++ [(bb, 0, s₀)] ++ [(bb, 1, s₁)])
        (addPredecessor bb (addPredecessor bb g' 0 s₀) 1 s₁) by
      simpa using h₁
    refine h₀.step ?_ ?_ ?_
    · intro s hs
      rcases List.mem_append.mp hs with hs | hs
      · exact hnew 1 s hs
      · simp at hs
    · intro j hj
      rcases List.mem_append.mp hj with hj | hj
      · exact absurd hj (hnew j s₁)
      · obtain ⟨-, rfl⟩ := by simpa using hj
        exact ⟨rfl, by rw [hsucc]; rfl⟩
    · intro _ heq
      rw [hsucc] at heq
      obtain rfl := Option.some.inj heq
      simp

/-- The edges of the blocks that are reachable. -/
def reachableEdges (g : Graph) (l : List ℕ) : List (ℕ × ℕ × ℕ) :=
  l.flatMap fun b => if g.isReachable b then g.edgesOf b else []

/-- The edges out of the reachable blocks. -/
theorem mem_reachableEdges {l : List ℕ} {p s : ℕ} :
    (p, i, s) ∈ g.reachableEdges l
      ↔ p ∈ l ∧ g.isReachable p = true ∧ (g.successors p)[i]? = some s := by
  simp only [reachableEdges, List.mem_flatMap]
  constructor
  · rintro ⟨b, hb, h⟩
    split_ifs at h with hreach
    · obtain ⟨rfl, h⟩ := mem_edgesOf.mp h
      exact ⟨hb, hreach, h⟩
    · exact absurd h List.not_mem_nil
  · rintro ⟨hp, hreach, h⟩
    refine ⟨p, hp, ?_⟩
    rw [if_pos hreach]
    exact mem_edgesOf.mpr ⟨rfl, h⟩

/-- The loop over the blocks records the edges of the reachable ones. -/
theorem Entered.blocks (htwo : ∀ b ∈ g.blocks, (g.successors b).length ≤ 2) {seen rest : List ℕ}
    (hnodup : (seen ++ rest).Nodup) (hsub : rest ⊆ g.blocks)
    (h : Entered g (g.reachableEdges seen) g') :
    Entered g (g.reachableEdges (seen ++ rest)) (rest.foldl addPredecessors g') := by
  induction rest generalizing seen g' with
  | nil => simpa using h
  | cons b rest ih =>
    have hb : b ∉ seen := fun hin => (List.nodup_append.mp hnodup).2.2 b hin b (.head _) rfl
    rw [List.foldl_cons]
    rw [← List.singleton_append, ← List.append_assoc] at hnodup ⊢
    refine ih hnodup (fun _ hx => hsub (.tail _ hx)) ?_
    have hedges : g.reachableEdges (seen ++ [b])
        = g.reachableEdges seen ++ if g.isReachable b then g.edgesOf b else [] := by
      simp [reachableEdges]
    rw [hedges]
    by_cases hreach : g.isReachable b = true
    · rw [if_pos hreach]
      refine h.block (htwo b (hsub (.head _))) (fun j s hin => ?_) hreach
      exact hb (mem_reachableEdges.mp hin).1
    · have hsame : g'.isReachable = g.isReachable := by
        obtain ⟨ords, preds, rfl⟩ := h.rest
        rfl
      rw [if_neg hreach, List.append_nil, addPredecessors, if_neg (hsame ▸ hreach)]
      exact h

end Predecessors

/-! ## The blocks that are left -/

section Reachable

variable {g g' : Graph}

/-- What the second half of the pass begins with: the blocks of a graph that are reached. -/
structure Reachable (g g' : Graph) : Prop where
  rest : ∃ m ords preds blocks, g' = { g with
    blocks := blocks
    isReachable := m
    predOrdForSuccessors := ords
    predecessors := preds }
  blocks : ∀ b, b ∈ g'.blocks ↔ b ∈ g.blocks ∧ g.Reach g.getEntryBB b
  sublist : g'.blocks.Sublist g.blocks
  entry : g'.getEntryBB = g.getEntryBB
  consistent : g'.Consistent (· ∈ g'.blocks)

theorem headD_filter {l : List ℕ} {p : ℕ → Bool} (h : p (l.headD 0) = true) :
    (l.filter p).headD 0 = l.headD 0 := by
  cases l with
  | nil => rfl
  | cons first l =>
    have hfirst : p first = true := h
    rw [List.filter_cons_of_pos hfirst]
    rfl

/-- The graph when its marks and predecessors were cleared. -/
def cleared (g : Graph) : Graph :=
  { g with
    isReachable := fun b => if b ∈ g.blocks then false else g.isReachable b
    predecessors := fun b => if b ∈ g.blocks then [] else g.predecessors b }

/-- The graph with these marks. -/
def withMarks (g : Graph) (m : ℕ → Bool) : Graph := { g with isReachable := m }

/-- The unreachable blocks are removed from a graph in which all edges were entered. -/
theorem Entered.reachable {m : ℕ → Bool}
    (hclosed : ∀ b ∈ g.blocks, ∀ s ∈ g.successors b, s ∈ g.blocks)
    (hentry : g.getEntryBB ∈ g.blocks) (hnopred : ∀ b ∈ g.blocks, g.getEntryBB ∉ g.successors b)
    (hiff : ∀ b ∈ g.blocks, m b = true ↔ g.Reach g.getEntryBB b)
    (h : Entered (g.cleared.withMarks m) ((g.cleared.withMarks m).reachableEdges g.blocks) g') :
    Reachable g g'.removeTriviallyUnreachableBlocks := by
  obtain ⟨ords, preds, rfl⟩ := h.rest
  have hblocks : ∀ b, b ∈ g.blocks.filter (fun bb => m bb) ↔
      b ∈ g.blocks ∧ g.Reach g.getEntryBB b := by
    intro b
    rw [List.mem_filter]
    exact and_congr_right fun hb => hiff b hb
  have hhead : (removeTriviallyUnreachableBlocks { g.cleared.withMarks m with
      predOrdForSuccessors := ords
      predecessors := preds }).getEntryBB = g.getEntryBB :=
    headD_filter ((hiff _ hentry).mpr .refl)
  have hpred : ∀ b ∈ g.blocks, ∀ p, p ∈ preds b ↔
      (p ∈ g.blocks ∧ g.Reach g.getEntryBB p) ∧ b ∈ g.successors p := by
    intro b hb p
    refine (h.mem b hb p).trans ?_
    constructor
    · rintro ⟨i, hi⟩
      obtain ⟨hp, hm, hs⟩ := mem_reachableEdges.mp hi
      exact ⟨⟨hp, (hiff p hp).mp hm⟩, List.mem_of_getElem? hs⟩
    · rintro ⟨⟨hp, hm⟩, hs⟩
      obtain ⟨i, hi⟩ := List.mem_iff_getElem?.mp hs
      exact ⟨i, mem_reachableEdges.mpr ⟨hp, (hiff p hp).mpr hm, hi⟩⟩
  refine ⟨⟨_, _, _, _, rfl⟩, hblocks, List.filter_sublist, hhead, ⟨fun b hb s hs => ?_,
    fun b hb p => ?_, fun b hb => ?_, fun p hp i s hs => ?_, ⟨?_, ?_⟩, fun b hb => ?_⟩⟩
  · obtain ⟨hb, hreach⟩ := (hblocks b).mp hb
    exact (hblocks s).mpr ⟨hclosed b hb s hs, hreach.tail hs⟩
  · exact (hpred b ((hblocks b).mp hb).1 p).trans (and_congr_left' (hblocks p).symm)
  · exact h.nodup b ((hblocks b).mp hb).1
  · obtain ⟨hp, hreach⟩ := (hblocks p).mp hp
    exact h.ord (p, i, s) (mem_reachableEdges.mpr ⟨hp, (hiff p hp).mpr hreach, hs⟩)
  · rw [hhead]
    exact (hblocks _).mpr ⟨hentry, .refl⟩
  · rw [hhead]
    refine List.eq_nil_iff_forall_not_mem.mpr fun p hp => ?_
    obtain ⟨⟨hp, -⟩, hs⟩ := (hpred _ hentry p).mp hp
    exact hnopred p hp hs
  · rw [hhead]
    exact ((hblocks b).mp hb).2

end Reachable

end Graph

end CfgCleanup

end Dsom
