import Dsom.Dfg.ControlFlow
import Mathlib.Logic.Relation

/-!
# Dfg/Blocks — what the traversal finds

Control flow between bytecodes (`Next`, `Reachable`, `IsLast`) knows nothing of blocks.
`generateBytecodeOffsetToBBMap_isCfg`: the traversal returns, and its list is the control-flow graph
of the reachable bytecode (`IsCfg`): each block is a maximal straight line, each starts at a
different reachable bytecode, and the successors of a block are where its last bytecode can go.
-/

namespace Dsom

namespace BytecodeFunction

variable {numLocals : ℕ} {f : BytecodeFunction numLocals}

/-! ## Control flow between bytecodes -/

variable (f) in
/-- Control can go from a bytecode to another. -/
def Next (i j : ℕ) : Prop :=
  (f.bytecode i).isBarrier = false ∧ j = i + 1 ∨ (f.bytecode i).branchTarget = some j

variable (f) in
/-- The bytecodes on paths from the function entry. -/
def Reachable (i : ℕ) : Prop := Relation.ReflTransGen f.Next 0 i

variable (f) in
/-- The last bytecode of a straight line: it can do something else than fall through, or the next
bytecode can be reached by a branch. -/
def IsLast (i : ℕ) : Prop :=
  (f.bytecode i).isBarrier = true ∨ f.mayBranch i = true ∨
    ∃ j < f.numBytecodes, (f.bytecode j).branchTarget = some (i + 1)

/-- Inside a block the next bytecode is the only successor. -/
theorem next_iff_of_not_isLast {i j : ℕ} (h : ¬ f.IsLast i) : f.Next i j ↔ j = i + 1 := by
  have hb : (f.bytecode i).isBarrier = false := by
    by_contra hb
    exact h (.inl (eq_true_of_ne_false hb))
  have ht : (f.bytecode i).branchTarget = none := by
    by_contra ht
    exact h (.inr (.inl (Option.isSome_iff_ne_none.mpr ht)))
  simp [Next, hb, ht]

/-- Control does not leave the function. -/
theorem Next.lt {i j : ℕ} (h : f.Next i j) (hi : i < f.numBytecodes) : j < f.numBytecodes := by
  rcases h with ⟨hb, rfl⟩ | ht
  · by_contra hj
    have hlast : i = f.numBytecodes - 1 := by omega
    rw [hlast, f.last_isBarrier] at hb
    exact absurd hb (by decide)
  · exact f.target_lt i hi j ht

theorem Reachable.lt {i : ℕ} (h : f.Reachable i) : i < f.numBytecodes := by
  induction h with
  | refl => exact f.numBytecodes_pos
  | tail _ hn ih => exact hn.lt ih

/-! ## Block starts

`bbStartOffsets` is sorted, and `bbIdx` finds a start in it. -/

/-- The starts are the first bytecode and those the bytecodes ask for. -/
theorem mem_bbStartOffsets {p : ℕ} : p ∈ f.bbStartOffsets ↔
    p = 0 ∨ ∃ i < f.numBytecodes, p ∈ f.startsFrom i := by
  simp [bbStartOffsets]

/-- A bytecode asks for a start behind a barrier or a branch, and at its target. -/
theorem mem_startsFrom {p i : ℕ} : p ∈ f.startsFrom i ↔
    p = i + 1 ∧ ((f.bytecode i).isBarrier = true ∨ f.mayBranch i = true) ∨
      (f.bytecode i).branchTarget = some p := by
  unfold startsFrom
  by_cases h : (f.bytecode i).isBarrier || f.mayBranch i
  · have h' := h
    rw [Bool.or_eq_true] at h'
    simp [h, h']
  · have h' := h
    rw [Bool.or_eq_true] at h'
    simp [h, h']

/-- A bytecode is the last of its line if the next one is a block start. -/
theorem succ_mem_bbStartOffsets {i : ℕ} (hi : i < f.numBytecodes) :
    i + 1 ∈ f.bbStartOffsets ↔ f.IsLast i := by
  rw [mem_bbStartOffsets]
  constructor
  · rintro (h | ⟨j, hj, h⟩)
    · omega
    · rcases mem_startsFrom.mp h with ⟨hij, hb⟩ | ht
      · obtain rfl : i = j := by omega
        exact hb.imp_right .inl
      · exact .inr (.inr ⟨j, hj, ht⟩)
  · rintro (hb | hm | ⟨j, hj, ht⟩)
    · exact .inr ⟨i, hi, mem_startsFrom.mpr (.inl ⟨rfl, .inl hb⟩)⟩
    · exact .inr ⟨i, hi, mem_startsFrom.mpr (.inl ⟨rfl, .inr hm⟩)⟩
    · exact .inr ⟨j, hj, mem_startsFrom.mpr (.inr ht)⟩

theorem numBytecodes_mem_bbStartOffsets : f.numBytecodes ∈ f.bbStartOffsets := by
  have hpos := f.numBytecodes_pos
  have h := (succ_mem_bbStartOffsets (f := f) (i := f.numBytecodes - 1) (by omega)).mpr
    (.inl f.last_isBarrier)
  rwa [Nat.sub_add_cancel hpos] at h

/-- The starts are in order, each once. -/
theorem sortedLT_bbStartOffsets : f.bbStartOffsets.SortedLT := by
  rw [List.sortedLT_iff_nodup_and_sortedLE]
  exact ⟨List.nodup_dedup _, (List.pairwise_insertionSort (· ≤ ·) _).sublist
    (List.dedup_sublist _) |>.sortedLE⟩

theorem le_numBytecodes_of_mem {p : ℕ} (hp : p ∈ f.bbStartOffsets) : p ≤ f.numBytecodes := by
  rcases mem_bbStartOffsets.mp hp with rfl | ⟨i, hi, h⟩
  · exact Nat.zero_le _
  · rcases mem_startsFrom.mp h with ⟨rfl, -⟩ | ht
    · exact hi
    · exact (f.target_lt i hi p ht).le

/-- `lower_bound` finds a start that is in the list. -/
theorem getElem?_bbIdx {p : ℕ} (hp : p ∈ f.bbStartOffsets) :
    f.bbStartOffsets[f.bbIdx p]? = some p := by
  obtain ⟨m, hm, hpm⟩ := List.getElem_of_mem hp
  have hk : f.bbIdx p < f.bbStartOffsets.length :=
    List.findIdx_lt_length_of_exists ⟨p, hp, by simp⟩
  have hle : p ≤ f.bbStartOffsets[f.bbIdx p] := of_decide_eq_true (List.findIdx_getElem (w := hk))
  have hkm : f.bbIdx p ≤ m := by
    by_contra hlt
    have := List.not_of_lt_findIdx (not_le.mp hlt)
    simp [hpm] at this
  have hge : f.bbStartOffsets[f.bbIdx p] ≤ p :=
    (sortedLT_bbStartOffsets.getElem_le_getElem_iff.mpr hkm).trans_eq hpm
  rw [List.getElem?_eq_getElem hk, le_antisymm hge hle]

/-- Two starts have two indices. -/
theorem bbIdx_injective {p q : ℕ} (hp : p ∈ f.bbStartOffsets) (hq : q ∈ f.bbStartOffsets)
    (h : f.bbIdx p = f.bbIdx q) : p = q := by
  have := getElem?_bbIdx hp
  rw [h, getElem?_bbIdx hq] at this
  exact (Option.some.inj this).symm

theorem bbIdx_lt_length {p : ℕ} (hp : p ∈ f.bbStartOffsets) :
    f.bbIdx p < f.bbStartOffsets.length := by
  obtain ⟨h, -⟩ := List.getElem?_eq_some_iff.mp (getElem?_bbIdx hp)
  exact h

/-- **A block ends at the next start.** -/
theorem bcPosEnd_spec {p : ℕ} (hp : p ∈ f.bbStartOffsets) (hlt : p < f.numBytecodes) :
    p < f.bcPosEnd p ∧ f.bcPosEnd p ∈ f.bbStartOffsets ∧
      ∀ r ∈ f.bbStartOffsets, p < r → f.bcPosEnd p ≤ r := by
  obtain ⟨hk, hkp⟩ := List.getElem?_eq_some_iff.mp (getElem?_bbIdx hp)
  -- a start behind `p` stands behind it in the list
  have hbehind : ∀ r ∈ f.bbStartOffsets, p < r →
      ∃ m, ∃ hm : m < f.bbStartOffsets.length, f.bbStartOffsets[m] = r ∧ f.bbIdx p + 1 ≤ m := by
    intro r hr hpr
    obtain ⟨m, hm, hmr⟩ := List.getElem_of_mem hr
    refine ⟨m, hm, hmr, ?_⟩
    rw [← hkp, ← hmr] at hpr
    exact sortedLT_bbStartOffsets.getElem_lt_getElem_iff.mp hpr
  obtain ⟨m, hm, -, hkm⟩ := hbehind _ numBytecodes_mem_bbStartOffsets hlt
  have hk' : f.bbIdx p + 1 < f.bbStartOffsets.length := hkm.trans_lt hm
  have hend : f.bcPosEnd p = f.bbStartOffsets[f.bbIdx p + 1] := by
    rw [bcPosEnd, List.getD_eq_getElem?_getD, List.getElem?_eq_getElem hk']
    rfl
  refine ⟨?_, ?_, fun r hr hpr => ?_⟩
  · have hstep : f.bbStartOffsets[f.bbIdx p] < f.bbStartOffsets[f.bbIdx p + 1] :=
      sortedLT_bbStartOffsets.getElem_lt_getElem_iff.mpr (Nat.lt_succ_self _)
    rwa [hkp, ← hend] at hstep
  · rw [hend]
    exact List.getElem_mem hk'
  · obtain ⟨m, hm, rfl, hkm⟩ := hbehind r hr hpr
    rw [hend]
    exact sortedLT_bbStartOffsets.getElem_le_getElem_iff.mpr hkm

/-! ## The control-flow graph -/

/-- A block of the graph is a maximal straight line of bytecodes. -/
structure IsBlock (f : BytecodeFunction numLocals) (bb : BasicBlockUpvalueInfo numLocals) :
    Prop where
  start_le : bb.bytecodeIndex ≤ bb.terminalNode
  terminal_lt : bb.terminalNode < f.numBytecodes
  start_first : ∀ i, i + 1 = bb.bytecodeIndex → f.IsLast i
  terminal_isLast : f.IsLast bb.terminalNode
  inner_not_isLast : ∀ i, bb.bytecodeIndex ≤ i → i < bb.terminalNode → ¬ f.IsLast i

/-- Where the blocks of a list start. -/
def startAt (bbs : List (BasicBlockUpvalueInfo numLocals)) (ord : ℕ) : Option ℕ :=
  bbs[ord]?.map (·.bytecodeIndex)

/-- **A list of blocks is the control-flow graph of the reachable bytecode.** -/
structure IsCfg (f : BytecodeFunction numLocals) (bbs : List (BasicBlockUpvalueInfo numLocals)) :
    Prop where
  entry : startAt bbs 0 = some 0
  isBlock : ∀ (ord : ℕ) bb, bbs[ord]? = some bb → IsBlock f bb
  reachable : ∀ (ord : ℕ) bb, bbs[ord]? = some bb → f.Reachable bb.bytecodeIndex
  start_injective : ∀ ord ord' p, startAt bbs ord = some p → startAt bbs ord' = some p → ord = ord'
  succ_isSome : ∀ (ord : ℕ) bb, bbs[ord]? = some bb → ∀ succ ∈ bb.successors,
    (startAt bbs succ).isSome
  next_iff : ∀ (ord : ℕ) bb, bbs[ord]? = some bb → ∀ j,
    f.Next bb.terminalNode j ↔ ∃ succ ∈ bb.successors, startAt bbs succ = some j

/-- The line that starts at a block start. -/
theorem isBlock_of_start {p : ℕ} (hp : p ∈ f.bbStartOffsets) (hlt : p < f.numBytecodes)
    {bb : BasicBlockUpvalueInfo numLocals} (hstart : bb.bytecodeIndex = p)
    (hterm : bb.terminalNode = f.bcPosEnd p - 1) : IsBlock f bb := by
  obtain ⟨hend, hmem, hnext⟩ := bcPosEnd_spec hp hlt
  have hle := le_numBytecodes_of_mem hmem
  constructor
  · omega
  · omega
  · rintro i hi
    refine (succ_mem_bbStartOffsets (by omega)).mp ?_
    rwa [hi, hstart]
  · refine (succ_mem_bbStartOffsets (by omega)).mp ?_
    rw [hterm, Nat.sub_add_cancel (by omega)]
    exact hmem
  · intro i hi hit hlast
    have := hnext (i + 1) ((succ_mem_bbStartOffsets (by omega)).mpr hlast) (by omega)
    omega

/-- Inside a block every bytecode is reachable from its first one. -/
theorem reachable_of_start_le {bb : BasicBlockUpvalueInfo numLocals} (h : IsBlock f bb)
    (hr : f.Reachable bb.bytecodeIndex) {i : ℕ} (hi : bb.bytecodeIndex ≤ i) :
    i ≤ bb.terminalNode → f.Reachable i := by
  induction i, hi using Nat.le_induction with
  | base => exact fun _ => hr
  | succ i hi ih =>
    intro hlt
    exact (ih (by omega)).tail
      ((next_iff_of_not_isLast (h.inner_not_isLast i hi hlt)).mpr rfl)

/-- The end of a block is reached with its start. -/
theorem reachable_terminal {bb : BasicBlockUpvalueInfo numLocals} (h : IsBlock f bb)
    (hr : f.Reachable bb.bytecodeIndex) : f.Reachable bb.terminalNode :=
  reachable_of_start_le h hr h.start_le le_rfl

/-- The positions the traversal goes on to are where the terminal bytecode can go. -/
theorem mem_succPositions {p : ℕ} (hp : p ∈ f.bbStartOffsets) (hlt : p < f.numBytecodes) {j : ℕ} :
    j ∈ f.succPositions p ↔ f.Next (f.bcPosEnd p - 1) j := by
  obtain ⟨hend, -, -⟩ := bcPosEnd_spec hp hlt
  have h1 : f.bcPosEnd p - 1 + 1 = f.bcPosEnd p := Nat.sub_add_cancel (by omega)
  unfold succPositions Next
  rw [h1]
  by_cases hb : (f.bytecode (f.bcPosEnd p - 1)).isBarrier
  · simp [hb]
  · simp [hb]

/-- A successor's position is a start. -/
theorem mem_bbStartOffsets_of_mem_succPositions {p : ℕ} (hp : p ∈ f.bbStartOffsets)
    (hlt : p < f.numBytecodes) {j : ℕ} (h : j ∈ f.succPositions p) : j ∈ f.bbStartOffsets := by
  obtain ⟨hend, hmem, -⟩ := bcPosEnd_spec hp hlt
  have hle := le_numBytecodes_of_mem hmem
  rcases (mem_succPositions hp hlt).mp h with ⟨-, rfl⟩ | ht
  · rwa [Nat.sub_add_cancel (by omega)]
  · exact mem_bbStartOffsets.mpr (.inr ⟨_, by omega, mem_startsFrom.mpr (.inr ht)⟩)

/-! ## The traversal

A depth-first search from the first bytecode; what it has not visited yet gets smaller. -/

namespace Traversal

variable {t t' t'' : Traversal numLocals}

/-- The blocks in the list and the ordinals on record belong to each other. -/
structure Ok (f : BytecodeFunction numLocals) (t : Traversal numLocals) : Prop where
  ofIdx : ∀ k ord, t.bbForStartOffsets k = some ord →
    ∃ p, startAt t.bbInNaturalOrder ord = some p ∧ f.bbIdx p = k
  start : ∀ ord p, startAt t.bbInNaturalOrder ord = some p →
    p ∈ f.bbStartOffsets ∧ f.Reachable p ∧ t.bbForStartOffsets (f.bbIdx p) = some ord
  terminal : ∀ (ord : ℕ) bb, t.bbInNaturalOrder[ord]? = some bb →
    bb.terminalNode = f.bcPosEnd bb.bytecodeIndex - 1

/-- A later state: it only adds to what was there. -/
structure Extends (t t' : Traversal numLocals) : Prop where
  idx : ∀ k ord, t.bbForStartOffsets k = some ord → t'.bbForStartOffsets k = some ord
  bbs : ∀ (ord : ℕ) bb, t.bbInNaturalOrder[ord]? = some bb → t'.bbInNaturalOrder[ord]? = some bb

theorem Extends.refl (t : Traversal numLocals) : Extends t t := ⟨fun _ _ => id, fun _ _ => id⟩

theorem Extends.trans (h : Extends t t') (h' : Extends t' t'') : Extends t t'' :=
  ⟨fun k ord hk => h'.idx k ord (h.idx k ord hk), fun ord bb hb => h'.bbs ord bb (h.bbs ord bb hb)⟩

/-- A block that has been made keeps its start. -/
theorem Extends.startAt (h : Extends t t') {ord p : ℕ}
    (hp : BytecodeFunction.startAt t.bbInNaturalOrder ord = some p) :
    BytecodeFunction.startAt t'.bbInNaturalOrder ord = some p := by
  obtain ⟨bb, hb, rfl⟩ := Option.map_eq_some_iff.mp hp
  exact Option.map_eq_some_iff.mpr ⟨bb, h.bbs ord bb hb, rfl⟩

/-- The successors of a block are on record. -/
def Finished (f : BytecodeFunction numLocals) (t : Traversal numLocals) (ord : ℕ) : Prop :=
  ∃ bb, t.bbInNaturalOrder[ord]? = some bb ∧
    bb.successors.map (BytecodeFunction.startAt t.bbInNaturalOrder)
      = (f.succPositions bb.bytecodeIndex).map some

/-- The block starts that have no block yet. -/
def unvisited (f : BytecodeFunction numLocals) (t : Traversal numLocals) : Finset ℕ :=
  (Finset.range f.bbStartOffsets.length).filter fun k => t.bbForStartOffsets k = none

/-- Nothing becomes unvisited again. -/
theorem Extends.unvisited_subset (h : Extends t t') : unvisited f t' ⊆ unvisited f t := by
  intro k hk
  simp only [unvisited, Finset.mem_filter] at hk ⊢
  refine ⟨hk.1, ?_⟩
  by_contra hne
  obtain ⟨ord, hord⟩ := Option.ne_none_iff_exists'.mp hne
  rw [h.idx k ord hord] at hk
  exact absurd hk.2 (by simp)

theorem map_startAt_of_le {g g' : ℕ → Option ℕ} (h : ∀ s p, g s = some p → g' s = some p) :
    ∀ (ords poss : List ℕ), ords.map g = poss.map some → ords.map g' = poss.map some
  | [], [], _ => rfl
  | ord :: ords, pos :: poss, he => by
      simp only [List.map_cons, List.cons.injEq] at he ⊢
      exact ⟨h ord pos he.1, map_startAt_of_le h ords poss he.2⟩
  | [], _ :: _, he => absurd he (by simp)
  | _ :: _, [], he => absurd he (by simp)

/-- What is finished stays finished. -/
theorem Finished.extends {ord : ℕ} (h : Finished f t ord) (ht : Extends t t') :
    Finished f t' ord := by
  obtain ⟨bb, hb, hs⟩ := h
  exact ⟨bb, ht.bbs ord bb hb, map_startAt_of_le (fun _ _ => ht.startAt) _ _ hs⟩

/-- What a piece of the traversal leaves behind. -/
structure Grown (f : BytecodeFunction numLocals) (t t' : Traversal numLocals) : Prop where
  ok : Ok f t'
  ext : Extends t t'
  finished : ∀ ord, t.bbInNaturalOrder.length ≤ ord → ord < t'.bbInNaturalOrder.length →
    Finished f t' ord

theorem Grown.refl (h : Ok f t) : Grown f t t :=
  ⟨h, .refl t, fun _ h h' => absurd h (not_le.mpr h')⟩

theorem Grown.trans (h : Grown f t t') (h' : Grown f t' t'') : Grown f t t'' := by
  refine ⟨h'.ok, h.ext.trans h'.ext, fun ord hle hlt => ?_⟩
  by_cases hmid : ord < t'.bbInNaturalOrder.length
  · exact (h.finished ord hle hmid).extends h'.ext
  · exact h'.finished ord (not_lt.mp hmid) hlt

/-- The state in which the successors of a new block are traversed. -/
def push (f : BytecodeFunction numLocals) (t : Traversal numLocals) (p : ℕ) :
    Traversal numLocals where
  bbForStartOffsets :=
    Function.update t.bbForStartOffsets (f.bbIdx p) (some t.bbInNaturalOrder.length)
  bbInNaturalOrder := t.bbInNaturalOrder ++ [f.newBB p]

/-- A pushed block starts where it was asked to. -/
theorem startAt_push {p ord : ℕ} : BytecodeFunction.startAt (t.push f p).bbInNaturalOrder ord =
    if ord = t.bbInNaturalOrder.length then some p
    else BytecodeFunction.startAt t.bbInNaturalOrder ord := by
  unfold BytecodeFunction.startAt push
  by_cases h : ord = t.bbInNaturalOrder.length
  · subst h; simp [newBB]
  · rw [if_neg h]
    rcases Nat.lt_or_gt_of_ne h with hlt | hgt
    · rw [List.getElem?_append_left hlt]
    · rw [List.getElem?_eq_none (by simp; omega), List.getElem?_eq_none (by omega)]

/-- Pushing a block extends the traversal. -/
theorem push_extends {p : ℕ} (hnew : t.bbForStartOffsets (f.bbIdx p) = none) :
    Extends t (t.push f p) := by
  refine ⟨fun k ord hk => ?_, fun ord bb hb => ?_⟩
  · have hne : k ≠ f.bbIdx p := by
      rintro rfl
      rw [hnew] at hk
      exact absurd hk (by simp)
    exact (Function.update_of_ne hne _ _).trans hk
  · obtain ⟨hlt, -⟩ := List.getElem?_eq_some_iff.mp hb
    exact (List.getElem?_append_left hlt).trans hb

/-- Pushing a reachable start keeps the traversal in order. -/
theorem Ok.push {p : ℕ} (h : Ok f t) (hp : p ∈ f.bbStartOffsets) (hr : f.Reachable p)
    (hnew : t.bbForStartOffsets (f.bbIdx p) = none) : Ok f (t.push f p) := by
  have hext := push_extends (f := f) (t := t) hnew
  constructor
  · intro k ord hk
    by_cases hkp : k = f.bbIdx p
    · subst hkp
      obtain rfl : t.bbInNaturalOrder.length = ord := by
        simpa [Traversal.push] using hk
      exact ⟨p, by rw [startAt_push, if_pos rfl], rfl⟩
    · obtain ⟨q, hq, hqk⟩ := h.ofIdx k ord (by simpa [Traversal.push, hkp] using hk)
      exact ⟨q, hext.startAt hq, hqk⟩
  · intro ord q hq
    rw [startAt_push] at hq
    split_ifs at hq with hord
    · obtain rfl := Option.some.inj hq
      exact ⟨hp, hr, by simp [Traversal.push, hord]⟩
    · obtain ⟨hq1, hq2, hq3⟩ := h.start ord q hq
      exact ⟨hq1, hq2, hext.idx _ _ hq3⟩
  · intro ord bb hb
    rcases List.mem_append.mp (List.mem_of_getElem? hb) with hm | hm
    · obtain ⟨m, hm⟩ := List.mem_iff_getElem?.mp hm
      exact h.terminal m bb hm
    · obtain rfl := List.mem_singleton.mp hm
      rfl

/-- Pushing a new block leaves fewer to visit. -/
theorem card_unvisited_push_lt {p : ℕ} (hp : p ∈ f.bbStartOffsets)
    (hnew : t.bbForStartOffsets (f.bbIdx p) = none) :
    (unvisited f (t.push f p)).card < (unvisited f t).card := by
  have hsub := (push_extends (t := t) hnew).unvisited_subset (f := f)
  refine Finset.card_lt_card ((Finset.ssubset_iff_of_subset hsub).mpr ⟨f.bbIdx p, ?_, ?_⟩)
  · simp [bbIdx_lt_length hp, hnew, unvisited]
  · rw [unvisited, Finset.mem_filter]
    simp [Traversal.push]

/-- The successors of a block are put on record. -/
def setSuccessors (t : Traversal numLocals) (ord : ℕ) (succs : List ℕ) : Traversal numLocals :=
  { t with bbInNaturalOrder := t.bbInNaturalOrder.modify ord fun bb =>
      { bb with successors := succs } }

theorem getElem?_setSuccessors {ord ord' : ℕ} {succs : List ℕ} :
    (t.setSuccessors ord succs).bbInNaturalOrder[ord']? =
      if ord = ord' then t.bbInNaturalOrder[ord']?.map fun bb => { bb with successors := succs }
      else t.bbInNaturalOrder[ord']? := by
  unfold setSuccessors
  rw [List.getElem?_modify]
  split_ifs with h
  · rfl
  · simp

theorem startAt_setSuccessors {ord : ℕ} {succs : List ℕ} :
    BytecodeFunction.startAt (t.setSuccessors ord succs).bbInNaturalOrder =
      BytecodeFunction.startAt t.bbInNaturalOrder := by
  funext ord'
  unfold BytecodeFunction.startAt
  rw [getElem?_setSuccessors]
  split_ifs
  · rw [Option.map_map]
    rfl
  · rfl

theorem Ok.setSuccessors {ord : ℕ} {succs : List ℕ} (h : Ok f t) :
    Ok f (t.setSuccessors ord succs) := by
  constructor
  · rw [startAt_setSuccessors]; exact h.ofIdx
  · rw [startAt_setSuccessors]; exact h.start
  · intro ord' bb hb
    rw [getElem?_setSuccessors] at hb
    split_ifs at hb with hord
    · obtain ⟨bb', hb', rfl⟩ := Option.map_eq_some_iff.mp hb
      exact h.terminal ord' bb' hb'
    · exact h.terminal ord' bb hb

/-- A block is done once the traversal of its successors is. -/
theorem Grown.setSuccessors {p : ℕ} {succs : List ℕ}
    (hnew : t.bbForStartOffsets (f.bbIdx p) = none) (h : Grown f (t.push f p) t')
    (hs : succs.map (BytecodeFunction.startAt t'.bbInNaturalOrder)
      = (f.succPositions p).map some) :
    Grown f t (t'.setSuccessors t.bbInNaturalOrder.length succs) := by
  have hlast : BytecodeFunction.startAt t'.bbInNaturalOrder t.bbInNaturalOrder.length = some p :=
    h.ext.startAt (by rw [startAt_push, if_pos rfl])
  refine ⟨h.ok.setSuccessors, ⟨?_, ?_⟩, ?_⟩
  · exact fun k ord hk => h.ext.idx k ord ((push_extends hnew).idx k ord hk)
  · intro ord bb hb
    obtain ⟨hlt, -⟩ := List.getElem?_eq_some_iff.mp hb
    rw [getElem?_setSuccessors, if_neg (by omega)]
    exact h.ext.bbs ord bb ((push_extends hnew).bbs ord bb hb)
  · intro ord hle hlt
    by_cases hord : ord = t.bbInNaturalOrder.length
    · subst hord
      obtain ⟨bb, hb, hbp⟩ := Option.map_eq_some_iff.mp hlast
      refine ⟨{ bb with successors := succs }, ?_, ?_⟩
      · rw [getElem?_setSuccessors, if_pos rfl, hb]; rfl
      · rw [startAt_setSuccessors, hs]
        change _ = (f.succPositions bb.bytecodeIndex).map some
        rw [hbp]
    · have hlen : (t.push f p).bbInNaturalOrder.length = t.bbInNaturalOrder.length + 1 := by
        simp [Traversal.push]
      have hlt' : ord < t'.bbInNaturalOrder.length := by
        simpa [Traversal.setSuccessors] using hlt
      obtain ⟨bb, hb, hbs⟩ := h.finished ord (by omega) hlt'
      refine ⟨bb, ?_, ?_⟩
      · rw [getElem?_setSuccessors, if_neg (Ne.symm hord)]; exact hb
      · rw [startAt_setSuccessors]; exact hbs

end Traversal

open Traversal

/-- A list of positions is traversed as well as each of them is. -/
theorem traverseAll_spec {n : ℕ}
    {tr : ℕ → Traversal numLocals → Option (ℕ × Traversal numLocals)}
    (htr : ∀ p t, Ok f t → p ∈ f.bbStartOffsets → f.Reachable p → (unvisited f t).card < n →
      ∃ ord t', tr p t = some (ord, t') ∧ Grown f t t' ∧
        startAt t'.bbInNaturalOrder ord = some p) :
    ∀ (poss : List ℕ) (t : Traversal numLocals), Ok f t →
      (∀ p ∈ poss, p ∈ f.bbStartOffsets ∧ f.Reachable p) → (unvisited f t).card < n →
      ∃ ords t', traverseAll tr poss t = some (ords, t') ∧ Grown f t t' ∧
        ords.map (startAt t'.bbInNaturalOrder) = poss.map some
  | [], t, h, _, _ => ⟨[], t, rfl, .refl h, rfl⟩
  | p :: poss, t, h, hp, hn => by
      obtain ⟨hp1, hp2⟩ := hp p List.mem_cons_self
      obtain ⟨ord, t₁, htr₁, hg₁, hord⟩ := htr p t h hp1 hp2 hn
      obtain ⟨ords, t₂, htr₂, hg₂, hords⟩ := traverseAll_spec htr poss t₁ hg₁.ok
        (fun q hq => hp q (List.mem_cons_of_mem p hq))
        ((Finset.card_le_card hg₁.ext.unvisited_subset).trans_lt hn)
      refine ⟨ord :: ords, t₂, ?_, hg₁.trans hg₂, ?_⟩
      · simp only [traverseAll, htr₁, Option.bind_some, htr₂, Option.map_some]
      · rw [List.map_cons, List.map_cons, hords, hg₂.ext.startAt hord]

/-- **The traversal returns**, having added finished blocks only. -/
theorem traverse_spec : ∀ (fuel p : ℕ) (t : Traversal numLocals), Ok f t → p ∈ f.bbStartOffsets →
    f.Reachable p → (unvisited f t).card < fuel →
    ∃ ord t', f.traverse fuel p t = some (ord, t') ∧ Grown f t t' ∧
      startAt t'.bbInNaturalOrder ord = some p
  | 0, _, _, _, _, _, hn => absurd hn (Nat.not_lt_zero _)
  | fuel + 1, p, t, h, hp, hr, hn => by
      cases hidx : t.bbForStartOffsets (f.bbIdx p) with
      | some ord =>
        refine ⟨ord, t, by simp [traverse, hidx], .refl h, ?_⟩
        obtain ⟨q, hq, hqp⟩ := h.ofIdx _ _ hidx
        rwa [bbIdx_injective (h.start ord q hq).1 hp hqp] at hq
      | none =>
        have hsucc : ∀ q ∈ f.succPositions p, q ∈ f.bbStartOffsets ∧ f.Reachable q := by
          intro q hq
          refine ⟨mem_bbStartOffsets_of_mem_succPositions hp hr.lt hq, ?_⟩
          have hline : IsBlock f (f.newBB p) := isBlock_of_start hp hr.lt rfl rfl
          exact (reachable_terminal hline hr).tail ((mem_succPositions hp hr.lt).mp hq)
        obtain ⟨succs, t', htr, hg, hs⟩ := traverseAll_spec (traverse_spec fuel)
          (f.succPositions p) (t.push f p) (h.push hp hr hidx) hsucc
          (by have := card_unvisited_push_lt hp hidx; omega)
        refine ⟨t.bbInNaturalOrder.length, t'.setSuccessors t.bbInNaturalOrder.length succs, ?_,
          hg.setSuccessors hidx hs, ?_⟩
        · rw [traverse, hidx]
          change (traverseAll (f.traverse fuel) (f.succPositions p) (t.push f p)).map _ = _
          rw [htr]
          rfl
        · rw [startAt_setSuccessors]
          exact hg.ext.startAt (by rw [startAt_push, if_pos rfl])

/-- The ordinal of a new block is the number of blocks before it. -/
theorem eq_length_of_traverse {fuel p ord : ℕ} {t t' : Traversal numLocals}
    (hnew : t.bbForStartOffsets (f.bbIdx p) = none) (h : f.traverse fuel p t = some (ord, t')) :
    ord = t.bbInNaturalOrder.length := by
  cases fuel with
  | zero => exact absurd h (by simp [traverse])
  | succ fuel =>
    simp only [traverse, hnew, Option.map_eq_some_iff, Prod.mk.injEq] at h
    obtain ⟨_, _, rfl, -⟩ := h
    rfl

/-- All blocks finished, the list is the graph. -/
theorem isCfg_of_finished {t : Traversal numLocals} (hok : Ok f t)
    (hentry : startAt t.bbInNaturalOrder 0 = some 0)
    (hfin : ∀ ord < t.bbInNaturalOrder.length, Finished f t ord) : IsCfg f t.bbInNaturalOrder := by
  have hstart : ∀ (ord : ℕ) bb, t.bbInNaturalOrder[ord]? = some bb →
      bb.bytecodeIndex ∈ f.bbStartOffsets ∧ f.Reachable bb.bytecodeIndex := by
    intro ord bb hb
    obtain ⟨h1, h2, -⟩ := hok.start ord bb.bytecodeIndex (by rw [startAt, hb]; rfl)
    exact ⟨h1, h2⟩
  have hsucc : ∀ (ord : ℕ) bb, t.bbInNaturalOrder[ord]? = some bb →
      bb.successors.map (startAt t.bbInNaturalOrder)
        = (f.succPositions bb.bytecodeIndex).map some := by
    intro ord bb hb
    obtain ⟨hlt, -⟩ := List.getElem?_eq_some_iff.mp hb
    obtain ⟨bb', hb', hs⟩ := hfin ord hlt
    rw [hb] at hb'
    rwa [Option.some.inj hb']
  refine ⟨hentry, ?_, fun ord bb hb => (hstart ord bb hb).2, ?_, ?_, ?_⟩
  · intro ord bb hb
    obtain ⟨h1, h2⟩ := hstart ord bb hb
    exact isBlock_of_start h1 h2.lt rfl (hok.terminal ord bb hb)
  · intro ord ord' p h h'
    have := (hok.start ord p h).2.2
    rw [(hok.start ord' p h').2.2] at this
    exact (Option.some.inj this).symm
  · intro ord bb hb succ hs
    have hmem := List.mem_map_of_mem (f := startAt t.bbInNaturalOrder) hs
    rw [hsucc ord bb hb] at hmem
    obtain ⟨p, -, hp⟩ := List.mem_map.mp hmem
    rw [← hp]
    rfl
  · intro ord bb hb j
    obtain ⟨h1, h2⟩ := hstart ord bb hb
    have hmem : j ∈ f.succPositions bb.bytecodeIndex ↔
        some j ∈ bb.successors.map (startAt t.bbInNaturalOrder) := by
      rw [hsucc ord bb hb]
      simp
    rw [hok.terminal ord bb hb, ← mem_succPositions h1 h2.lt, hmem, List.mem_map]

/-- **The blocks of the traversal are the control-flow graph.** -/
theorem generateBytecodeOffsetToBBMap_isCfg (fuel : ℕ) (hfuel : f.bbStartOffsets.length < fuel) :
    ∃ bbs, f.generateBytecodeOffsetToBBMap fuel = some bbs ∧ IsCfg f bbs := by
  have hok : Ok f ⟨fun _ => none, []⟩ := by
    constructor
    · exact fun _ _ h => absurd h (by simp)
    · exact fun _ _ h => absurd h (by simp [startAt])
    · exact fun _ _ h => absurd h (by simp)
  have hunv : (unvisited f ⟨fun _ => none, []⟩).card ≤ f.bbStartOffsets.length :=
    (Finset.card_filter_le _ _).trans_eq (Finset.card_range _)
  obtain ⟨ord, t, htr, hg, hord⟩ := traverse_spec fuel 0 ⟨fun _ => none, []⟩ hok
    (mem_bbStartOffsets.mpr (.inl rfl)) .refl (by omega)
  refine ⟨t.bbInNaturalOrder, by rw [generateBytecodeOffsetToBBMap, htr]; rfl, ?_⟩
  obtain rfl := eq_length_of_traverse rfl htr
  exact isCfg_of_finished hg.ok hord fun ord => hg.finished ord (Nat.zero_le _)

end BytecodeFunction

end Dsom
