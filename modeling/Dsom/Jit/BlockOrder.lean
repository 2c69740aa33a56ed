import Dsom.Jit.CodeLayout
import Mathlib.Data.List.Nodup

/-!
# Jit/BlockOrder — the search finds the blocks that are reached

A call of the search puts blocks behind those that were found before; once it has returned, all of
them end in a known way and have their successors in the order (`Explored`).  So a path that does
not leave the blocks found since some moment stays in those found by the calls since then, and an
edge that closes such a path leads to a block that was on the stack: it is marked
(`Explored.cycles`).
-/

namespace Dsom

namespace CodeLayout

/-- How a block ends whose successors have these places. -/
def terminatorOf (selfOrd : ℕ) : List ℕ → TerminatorInfo → TerminatorInfo
  | [], t => t.initNoSuccessor
  | [destOrd], t => t.initUnconditionalBranch selfOrd destOrd
  | defaultDestOrd :: branchDestOrd :: _, t => t.initCondBranch selfOrd defaultDestOrd branchDestOrd

/-! ## Edges between places

A place is an index into the order in which the blocks are emitted. -/

section Edges

variable (g : Graph) (order : List ℕ)

/-- An edge from the block at one place to that at another. -/
def Edge (i j : ℕ) : Prop := ∃ b s, order[i]? = some b ∧ order[j]? = some s ∧ s ∈ g.successors b

/-- A path through the blocks from a place on. -/
def Within (j : ℕ) : ℕ → ℕ → Prop :=
  Relation.ReflTransGen fun a b => Edge g order a b ∧ j ≤ b

/-- An edge that closes a cycle whose first block, in the order, is the one it leads to. -/
def BackEdge (i j : ℕ) : Prop := Edge g order i j ∧ Within g order j j i

variable {g order}

theorem Within.le {j i : ℕ} (h : Within g order j j i) : j ≤ i := by
  induction h with
  | refl => exact Nat.le_refl _
  | tail _ h _ => exact h.2

end Edges

namespace Plan

/-- The blocks in the order they are emitted in. -/
def order (p : Plan) : List ℕ := p.bbOrder.map (·.bb)

/-- The places that are written down are the right ones. -/
structure Ok (p : Plan) : Prop where
  nodup : p.order.Nodup
  ord : ∀ b i, p.ordInCodegenOrder b = some i ↔ p.order[i]? = some b

/-- The block at this place of the order is on the stack of the search. -/
def OnStack (p : Plan) (j : ℕ) : Prop :=
  ∃ info, p.bbOrder[j]? = some info ∧ info.isOnDfsStack = true

/-- The block at this place of the order is the target of a back edge. -/
def Marked (p : Plan) (j : ℕ) : Prop :=
  ∃ info, p.bbOrder[j]? = some info ∧ info.isReachedByBackEdge = true

/-- A block that was left. -/
def Done (g : Graph) (p : Plan) (i : ℕ) (info : BlockInfo) : Prop :=
  info.isOnDfsStack = false ∧ ∃ ords t,
    List.Forall₂ (fun s ord => p.order[ord]? = some s) (g.successors info.bb) ords ∧
      info.terminatorInfo = terminatorOf i ords t

variable {g : Graph} {p p' : Plan}

@[simp] theorem length_order (p : Plan) : p.order.length = p.bbOrder.length := List.length_map _

theorem order_getElem? (p : Plan) (i : ℕ) : p.order[i]? = (p.bbOrder[i]?).map (·.bb) :=
  List.getElem?_map

/-- A block is emitted once. -/
theorem Ok.inj (h : p.Ok) {i j b : ℕ} (hi : p.order[i]? = some b) (hj : p.order[j]? = some b) :
    i = j :=
  Option.some.inj (((h.ord b i).mpr hi).symm.trans ((h.ord b j).mpr hj))

/-- A block without an ordinal is not in the order yet. -/
theorem Ok.notMem (h : p.Ok) {b : ℕ} (hb : p.ordInCodegenOrder b = none) : b ∉ p.order := by
  intro hmem
  obtain ⟨i, hi⟩ := List.mem_iff_getElem?.mp hmem
  rw [(h.ord b i).mpr hi] at hb
  exact absurd hb (Option.some_ne_none _)

/-- Places stay when more blocks are found. -/
theorem getElem?_extend {l l' : List ℕ} (h : l <+: l') {i b : ℕ} (hi : l[i]? = some b) :
    l'[i]? = some b := by
  obtain ⟨m, rfl⟩ := h
  rw [List.getElem?_append_left (List.getElem?_eq_some_iff.mp hi).1, hi]

/-- What is done stays done. -/
theorem Done.mono (h : p.order <+: p'.order) {i : ℕ} {info : BlockInfo} (hdone : p.Done g i info) :
    p'.Done g i info := by
  obtain ⟨hstack, ords, t, hall, hterm⟩ := hdone
  exact ⟨hstack, ords, t, hall.imp fun _ _ hs => getElem?_extend h hs, hterm⟩

/-- The successors of a block that is done are in the order. -/
theorem Done.mem {i s : ℕ} {info : BlockInfo} (hdone : p.Done g i info)
    (hs : s ∈ g.successors info.bb) : s ∈ p.order := by
  obtain ⟨-, ords, t, hall, -⟩ := hdone
  obtain ⟨k, hk⟩ := List.mem_iff_getElem?.mp hs
  obtain ⟨hlt, hget⟩ := List.getElem?_eq_some_iff.mp hk
  have := (List.forall₂_iff_get.mp hall).2 k hlt (hall.length_eq ▸ hlt)
  exact List.mem_iff_getElem?.mpr ⟨_, this.trans (congrArg some hget)⟩

/-! ## Changes of one block -/

section Modify

variable {ord : ℕ} {f : BlockInfo → BlockInfo}

theorem modify_getElem?_self (p : Plan) (ord : ℕ) (f : BlockInfo → BlockInfo) :
    (p.modify ord f).bbOrder[ord]? = (p.bbOrder[ord]?).map f :=
  List.getElem?_modify_eq f ord p.bbOrder

theorem modify_getElem?_ne (p : Plan) (f : BlockInfo → BlockInfo) {i : ℕ} (h : ord ≠ i) :
    (p.modify ord f).bbOrder[i]? = p.bbOrder[i]? :=
  List.getElem?_modify_ne f p.bbOrder h

theorem order_modify (hf : ∀ info, (f info).bb = info.bb) : (p.modify ord f).order = p.order := by
  refine List.ext_getElem? fun i => ?_
  rw [order_getElem?, order_getElem?]
  by_cases hi : ord = i
  · subst hi
    rw [modify_getElem?_self, Option.map_map]
    exact congrArg (Option.map · _) (funext hf)
  · rw [modify_getElem?_ne p f hi]

/-- Changing a block keeps the plan in order. -/
theorem Ok.modify (h : p.Ok) (hf : ∀ info, (f info).bb = info.bb) : (p.modify ord f).Ok := by
  refine ⟨(order_modify hf).symm ▸ h.nodup, fun b i => ?_⟩
  rw [order_modify hf]
  exact h.ord b i

end Modify

/-! ## A block more

It comes last, and is on the stack. -/

theorem order_push (p : Plan) (bb : ℕ) : (p.push bb).order = p.order ++ [bb] := List.map_append

/-- The blocks before are as they were. -/
theorem push_getElem?_of_lt {i : ℕ} (hi : i < p.bbOrder.length) (bb : ℕ) :
    (p.push bb).bbOrder[i]? = p.bbOrder[i]? :=
  List.getElem?_append_left hi

theorem push_getElem?_self (p : Plan) (bb : ℕ) :
    (p.push bb).bbOrder[p.bbOrder.length]? = some { bb := bb, isOnDfsStack := true } := by
  rw [Plan.push, List.getElem?_append_right (Nat.le_refl _), Nat.sub_self]
  rfl

theorem order_push_self (p : Plan) (bb : ℕ) : (p.push bb).order[p.bbOrder.length]? = some bb := by
  rw [order_getElem?, push_getElem?_self]
  rfl

/-- Whatever was on the stack still is. -/
theorem OnStack.push {j : ℕ} (h : p.OnStack j) (bb : ℕ) : (p.push bb).OnStack j := by
  obtain ⟨info, hinfo, hstack⟩ := h
  have hlt := (List.getElem?_eq_some_iff.mp hinfo).1
  exact ⟨info, (push_getElem?_of_lt hlt bb).trans hinfo, hstack⟩

/-- The plan stays in order. -/
theorem Ok.push (h : p.Ok) {bb : ℕ} (hbb : p.ordInCodegenOrder bb = none) : (p.push bb).Ok := by
  have horder := p.order_push bb
  refine ⟨?_, fun b i => ?_⟩
  · rw [horder, ← List.concat_eq_append]
    exact h.nodup.concat (h.notMem hbb)
  rw [horder, List.getElem?_append, length_order]
  change (if b = bb then some p.bbOrder.length else p.ordInCodegenOrder b) = some i ↔ _
  split_ifs with hb hi hi
  · subst hb
    have hne : p.order[i]? ≠ some b := fun hget =>
      h.notMem hbb (List.mem_iff_getElem?.mpr ⟨i, hget⟩)
    exact iff_of_false (fun heq => absurd (Option.some.inj heq) (Nat.ne_of_gt hi)) hne
  · subst hb
    rw [List.getElem?_singleton, Option.some_inj]
    split_ifs with hzero
    · exact iff_of_true (by omega) rfl
    · exact iff_of_false (by omega) nofun
  · exact h.ord b i
  · rw [h.ord, List.getElem?_eq_none (by rw [length_order]; omega), List.getElem?_singleton]
    refine iff_of_false (Option.some_ne_none _).symm fun heq => ?_
    split_ifs at heq
    exact hb (Option.some.inj heq).symm

end Plan

/-! ## What a call does

A call adds blocks to the order, and leaves no other block on the stack. -/

open Plan

/-- Some calls, for these targets, have led from one plan to another. -/
structure Explored (g : Graph) (p : Plan) (targets : List ℕ) (p' : Plan) : Prop where
  ok : p'.Ok
  order : p.order <+: p'.order
  old : ∀ (i : ℕ) (info : BlockInfo), p.bbOrder[i]? = some info → ∃ marked,
    p'.bbOrder[i]? = some { info with isReachedByBackEdge := marked } ∧
      (info.isReachedByBackEdge = true → marked = true)
  found : ∀ t ∈ targets, t ∈ p'.order
  done : ∀ i info, p.bbOrder.length ≤ i → p'.bbOrder[i]? = some info → p'.Done g i info
  /-- An edge to a block on the stack marks it. -/
  marks : ∀ j s, p.OnStack j → p.order[j]? = some s →
    (s ∈ targets ∨ ∃ i b, p.bbOrder.length ≤ i ∧ p'.order[i]? = some b ∧ s ∈ g.successors b) →
    p'.Marked j
  cycles : ∀ i j, p.bbOrder.length ≤ j → BackEdge g p'.order i j → p'.Marked j
  reach : ∀ b ∈ p'.order, b ∈ p.order ∨ ∃ t ∈ targets, g.Reach t b

namespace Explored

variable {g : Graph} {p p₁ p₂ : Plan} {l l' : List ℕ}

theorem marked (h : Explored g p l p₁) {j : ℕ} (hj : p.Marked j) : p₁.Marked j := by
  obtain ⟨info, hinfo, hmarked⟩ := hj
  obtain ⟨marked, hget, himp⟩ := h.old j info hinfo
  exact ⟨_, hget, himp hmarked⟩

/-- So does a place on the stack. -/
theorem onStack (h : Explored g p l p₁) {j : ℕ} (hj : p.OnStack j) : p₁.OnStack j := by
  obtain ⟨info, hinfo, hstack⟩ := hj
  obtain ⟨marked, hget, -⟩ := h.old j info hinfo
  exact ⟨_, hget, hstack⟩

/-- A place found by the first calls has kept its block. -/
theorem order_eq (h : Explored g p l p₁) {i : ℕ} (hi : i < p.bbOrder.length) :
    p₁.order[i]? = p.order[i]? := by
  obtain ⟨m, hm⟩ := h.order
  rw [← hm, List.getElem?_append_left (by rwa [length_order])]

theorem refl (hok : p.Ok) : Explored g p [] p where
  ok := hok
  order := List.prefix_refl _
  old := fun i info h => ⟨info.isReachedByBackEdge, h, id⟩
  found := nofun
  done := fun i info hle h => absurd (List.getElem?_eq_some_iff.mp h).1 (Nat.not_lt.mpr hle)
  marks := by
    rintro j s - - (h | ⟨i, b, hle, hget, -⟩)
    · exact absurd h List.not_mem_nil
    · exact absurd (List.getElem?_eq_some_iff.mp hget).1 (by rw [length_order]; omega)
  cycles := by
    rintro i j hle ⟨⟨b, s, -, hget, -⟩, -⟩
    exact absurd (List.getElem?_eq_some_iff.mp hget).1 (by rw [length_order]; omega)
  reach := fun b hb => .inl hb

/-- A path does not leave the blocks that earlier calls have found. -/
theorem within (h : Explored g p l p₁) (h' : Explored g p₁ l' p₂) {i j : ℕ}
    (hle : p.bbOrder.length ≤ j) (hlt : j < p₁.bbOrder.length) (hpath : Within g p₂.order j j i) :
    i < p₁.bbOrder.length ∧ Within g p₁.order j j i := by
  induction hpath with
  | refl => exact ⟨hlt, .refl⟩
  | @tail a b hbefore hstep ih =>
    obtain ⟨hlta, hpath⟩ := ih
    obtain ⟨⟨u, v, hu, hv, hsucc⟩, hb⟩ := hstep
    rw [h'.order_eq hlta, order_getElem?] at hu
    obtain ⟨info, hinfo, rfl⟩ := Option.map_eq_some_iff.mp hu
    have hdone := h.done a info (hle.trans hpath.le) hinfo
    obtain ⟨k, hk⟩ := List.mem_iff_getElem?.mp (hdone.mem hsucc)
    obtain rfl := h'.ok.inj (getElem?_extend h'.order hk) hv
    have hltk : k < p₁.bbOrder.length := by
      simpa using (List.getElem?_eq_some_iff.mp hk).1
    refine ⟨hltk, hpath.tail ⟨⟨_, v, ?_, hk, hsucc⟩, hb⟩⟩
    rw [order_getElem?, hinfo]
    rfl

/-- **Calls one after another.** -/
theorem trans (h : Explored g p l p₁) (h' : Explored g p₁ l' p₂) : Explored g p (l ++ l') p₂ where
  ok := h'.ok
  order := h.order.trans h'.order
  old := fun i info hi => by
    obtain ⟨marked, hget, himp⟩ := h.old i info hi
    obtain ⟨marked', hget', himp'⟩ := h'.old i _ hget
    exact ⟨marked', hget', fun hm => himp' (himp hm)⟩
  found := fun t ht => by
    rcases List.mem_append.mp ht with ht | ht
    · exact h'.order.subset (h.found t ht)
    · exact h'.found t ht
  done := fun i info hle hi => by
    rcases Nat.lt_or_ge i p₁.bbOrder.length with hlt | hge
    · obtain ⟨info₁, hinfo₁⟩ : ∃ info₁, p₁.bbOrder[i]? = some info₁ :=
        ⟨_, List.getElem?_eq_getElem hlt⟩
      obtain ⟨marked, hget, -⟩ := h'.old i info₁ hinfo₁
      obtain rfl := Option.some.inj (hget.symm.trans hi)
      exact (h.done i info₁ hle hinfo₁).mono h'.order
    · exact h'.done i info hge hi
  marks := by
    intro j s hstack hs hedge
    have hlt : j < p.bbOrder.length := by simpa using (List.getElem?_eq_some_iff.mp hs).1
    have hs₁ : p₁.order[j]? = some s := (h.order_eq hlt).trans hs
    rcases hedge with ht | ⟨i, b, hle, hget, hsucc⟩
    · rcases List.mem_append.mp ht with ht | ht
      · exact h'.marked (h.marks j s hstack hs (.inl ht))
      · exact h'.marks j s (h.onStack hstack) hs₁ (.inl ht)
    · rcases Nat.lt_or_ge i p₁.bbOrder.length with hi | hi
      · rw [h'.order_eq hi] at hget
        exact h'.marked (h.marks j s hstack hs (.inr ⟨i, b, hle, hget, hsucc⟩))
      · exact h'.marks j s (h.onStack hstack) hs₁ (.inr ⟨i, b, hi, hget, hsucc⟩)
  cycles := fun i j hle hback => by
    rcases Nat.lt_or_ge j p₁.bbOrder.length with hlt | hge
    · obtain ⟨hi, hpath⟩ := h.within h' hle hlt hback.2
      obtain ⟨b, s, hb, hs, hsucc⟩ := hback.1
      rw [h'.order_eq hi] at hb
      rw [h'.order_eq hlt] at hs
      exact h'.marked (h.cycles i j hle ⟨⟨b, s, hb, hs, hsucc⟩, hpath⟩)
    · exact h'.cycles i j hge hback
  reach := fun b hb => by
    rcases h'.reach b hb with hb | ⟨t, ht, hreach⟩
    · rcases h.reach b hb with hb | ⟨t, ht, hreach⟩
      · exact .inl hb
      · exact .inr ⟨t, List.mem_append_left _ ht, hreach⟩
    · exact .inr ⟨t, List.mem_append_right _ ht, hreach⟩

/-- **A block that was found before** is marked if it is on the stack. -/
theorem markBackEdge (hok : p.Ok) {bb ord : ℕ} (hord : p.ordInCodegenOrder bb = some ord) :
    Explored g p [bb] (p.markBackEdge ord) := by
  have hplace := (hok.ord bb ord).mp hord
  have hf : ∀ info : BlockInfo,
      (if info.isOnDfsStack then { info with isReachedByBackEdge := true } else info).bb
        = info.bb := by
    intro info
    split_ifs <;> rfl
  have horder : (p.markBackEdge ord).order = p.order := order_modify hf
  have hlen : (p.markBackEdge ord).bbOrder.length = p.bbOrder.length := List.length_modify _ _ _
  have hnone : ∀ {i b}, p.bbOrder.length ≤ i → (p.markBackEdge ord).order[i]? ≠ some b :=
    fun hle hget => absurd (List.getElem?_eq_some_iff.mp hget).1 (by rw [length_order]; omega)
  refine ⟨hok.modify hf, by rw [horder], fun i info hi => ?_, fun t ht => ?_,
    fun i info hle hi => ?_, ?_, fun i j hle ⟨⟨_, _, _, hget, _⟩, _⟩ => absurd hget (hnone hle),
    fun b hb => .inl (horder ▸ hb)⟩
  · by_cases heq : ord = i
    · subst heq
      rw [Plan.markBackEdge, modify_getElem?_self, hi, Option.map_some]
      split_ifs
      · exact ⟨true, rfl, fun _ => rfl⟩
      · exact ⟨_, rfl, id⟩
    · rw [Plan.markBackEdge, modify_getElem?_ne p _ heq, hi]
      exact ⟨_, rfl, id⟩
  · rw [horder, List.mem_singleton.mp ht]
    exact List.mem_iff_getElem?.mpr ⟨ord, hplace⟩
  · exact absurd (List.getElem?_eq_some_iff.mp hi).1 (by omega)
  · rintro j s ⟨info, hinfo, hstack⟩ hs (ht | ⟨i, b, hle, hget, -⟩)
    · rw [List.mem_singleton.mp ht] at hs
      obtain rfl := hok.inj hplace hs
      refine ⟨{ info with isReachedByBackEdge := true }, ?_, rfl⟩
      rw [Plan.markBackEdge, modify_getElem?_self, hinfo, Option.map_some, if_pos hstack]
    · exact absurd hget (hnone hle)

/-- The place of the block, once it was left. -/
theorem leave_self {bb : ℕ} (h : Explored g (p.push bb) l p₁) (ords : List ℕ) :
    ∃ marked, (p₁.Marked p.bbOrder.length → marked = true) ∧
      (p₁.leave p.bbOrder.length (terminatorOf p.bbOrder.length ords)).bbOrder[p.bbOrder.length]? =
        some {
          bb := bb
          terminatorInfo := terminatorOf p.bbOrder.length ords {}
          isReachedByBackEdge := marked } := by
  obtain ⟨marked, hget, -⟩ := h.old _ _ (push_getElem?_self p bb)
  refine ⟨marked, fun ⟨info, hinfo, hm⟩ => ?_, ?_⟩
  · obtain rfl := Option.some.inj (hget.symm.trans hinfo)
    exact hm
  · rw [Plan.leave, modify_getElem?_self, hget]
    rfl

/-- Leaving a block does not take a mark away. -/
theorem marked_leave {bb : ℕ} (h : Explored g (p.push bb) l p₁) (ords : List ℕ) {j : ℕ}
    (hj : p₁.Marked j) :
    (p₁.leave p.bbOrder.length (terminatorOf p.bbOrder.length ords)).Marked j := by
  obtain ⟨marked, hmarked, hself⟩ := h.leave_self ords
  obtain ⟨info, hinfo, hm⟩ := id hj
  by_cases heq : p.bbOrder.length = j
  · subst heq
    exact ⟨_, hself, hmarked hj⟩
  · exact ⟨info, (modify_getElem?_ne p₁ _ heq).trans hinfo, hm⟩

/-- **A new block** is left when the calls for its successors have returned. -/
theorem leave {bb : ℕ} (hok : p.Ok) (hbb : p.ordInCodegenOrder bb = none)
    (h : Explored g (p.push bb) (g.successors bb) p₁) {ords : List ℕ}
    (hords : List.Forall₂ (fun s ord => p₁.order[ord]? = some s) (g.successors bb) ords) :
    Explored g p [bb] (p₁.leave p.bbOrder.length (terminatorOf p.bbOrder.length ords)) := by
  have horder : (p₁.leave p.bbOrder.length (terminatorOf p.bbOrder.length ords)).order =
      p₁.order := order_modify fun _ => rfl
  have hne {i : ℕ} (hi : p.bbOrder.length ≠ i) :
      (p₁.leave p.bbOrder.length (terminatorOf p.bbOrder.length ords)).bbOrder[i]? =
        p₁.bbOrder[i]? := modify_getElem?_ne p₁ _ hi
  have hpush : (p.push bb).bbOrder.length = p.bbOrder.length + 1 := List.length_append
  have hself : p₁.order[p.bbOrder.length]? = some bb :=
    getElem?_extend h.order (order_push_self p bb)
  constructor
  case ok => exact h.ok.modify fun _ => rfl
  case order =>
    rw [horder]
    exact (p.order_push bb ▸ List.prefix_append _ _ : p.order <+: (p.push bb).order).trans h.order
  case old =>
    intro i info hi
    have hlt := (List.getElem?_eq_some_iff.mp hi).1
    obtain ⟨marked, hget, himp⟩ := h.old i info ((push_getElem?_of_lt hlt bb).trans hi)
    exact ⟨marked, (hne hlt.ne').trans hget, himp⟩
  case found =>
    intro t ht
    rw [horder, List.mem_singleton.mp ht]
    exact List.mem_iff_getElem?.mpr ⟨_, hself⟩
  case done =>
    intro i info hle hi
    by_cases heq : p.bbOrder.length = i
    · subst heq
      obtain ⟨marked, -, hget⟩ := h.leave_self ords
      obtain rfl := Option.some.inj (hget.symm.trans hi)
      exact ⟨rfl, ords, _, by rwa [horder], rfl⟩
    · refine (h.done i info (by omega) ((hne heq).symm.trans hi)).mono ?_
      rw [horder]
  case marks =>
    intro j s hstack hs hedge
    have hlt : j < p.order.length := (List.getElem?_eq_some_iff.mp hs).1
    have hs' : (p.push bb).order[j]? = some s := by
      rw [p.order_push, List.getElem?_append_left hlt, hs]
    refine h.marked_leave ords (h.marks j s (hstack.push bb) hs' ?_)
    rcases hedge with ht | ⟨i, b, hle, hget, hsucc⟩
    · rw [List.mem_singleton.mp ht] at hs
      exact absurd (List.mem_iff_getElem?.mpr ⟨j, hs⟩) (hok.notMem hbb)
    · rw [horder] at hget
      by_cases heq : i = p.bbOrder.length
      · subst heq
        obtain rfl := Option.some.inj (hself.symm.trans hget)
        exact .inl hsucc
      · exact .inr ⟨i, b, by omega, hget, hsucc⟩
  case cycles =>
    intro i j hle hback
    rw [horder] at hback
    refine h.marked_leave ords ?_
    by_cases heq : j = p.bbOrder.length
    · subst heq
      obtain ⟨⟨b, s, hb, hs, hsucc⟩, hpath⟩ := hback
      obtain rfl := Option.some.inj (hself.symm.trans hs)
      refine h.marks _ bb ⟨_, push_getElem?_self p bb, rfl⟩ (order_push_self p bb) ?_
      by_cases hi : i = p.bbOrder.length
      · subst hi
        obtain rfl := Option.some.inj (hself.symm.trans hb)
        exact .inl hsucc
      · have := hpath.le
        exact .inr ⟨i, b, by omega, hb, hsucc⟩
    · exact h.cycles i j (by omega) hback
  case reach =>
    intro b hb
    rw [horder] at hb
    rcases h.reach b hb with hb | ⟨t, ht, hreach⟩
    · rw [p.order_push] at hb
      rcases List.mem_append.mp hb with hb | hb
      · exact .inl hb
      · exact .inr ⟨bb, List.mem_singleton_self _, List.mem_singleton.mp hb ▸ .refl⟩
    · exact .inr ⟨bb, List.mem_singleton_self _, .head ht hreach⟩

end Explored

/-! ## The search

By recursion on the fuel, with the number of unvisited blocks as the bound. -/

section Search

variable {g : Graph} {p : Plan}

/-- The number of blocks that are not found yet. -/
def unvisited (g : Graph) (p : Plan) : ℕ := (g.blocks.filter fun b => b ∉ p.order).length

/-- Nothing becomes unvisited again. -/
theorem unvisited_le {p' : Plan} (h : p.order <+: p'.order) : unvisited g p' ≤ unvisited g p := by
  refine (List.monotone_filter_right g.blocks fun b hb => ?_).length_le
  rw [decide_eq_true_eq] at hb ⊢
  exact fun hmem => hb (h.subset hmem)

/-- A new block leaves fewer to visit. -/
theorem unvisited_push_lt {bb : ℕ} (hmem : bb ∈ g.blocks) (hbb : bb ∉ p.order) :
    unvisited g (p.push bb) < unvisited g p := by
  have horder := p.order_push bb
  have hsub : (g.blocks.filter fun b => b ∉ (p.push bb).order).Sublist
      (g.blocks.filter fun b => b ∉ p.order) := by
    refine List.monotone_filter_right g.blocks fun b hb => ?_
    rw [horder, decide_eq_true_eq, List.mem_append, not_or] at hb
    exact decide_eq_true hb.1
  refine lt_of_le_of_ne hsub.length_le fun heq => ?_
  have hin : bb ∈ g.blocks.filter fun b => b ∉ p.order :=
    List.mem_filter.mpr ⟨hmem, decide_eq_true hbb⟩
  rw [← hsub.eq_of_length heq, List.mem_filter, decide_eq_true_eq, horder] at hin
  exact hin.2 (List.mem_append_right _ (List.mem_singleton_self _))

/-- **A call of the search** returns, with the place of its block. -/
theorem dfsBasicBlock_spec (hwf : g.WellFormed) {fuel bb : ℕ} (hok : p.Ok) (hbb : bb ∈ g.blocks)
    (hfuel : unvisited g p < fuel) :
    ∃ ord p', dfsBasicBlock g fuel p bb = some (ord, p') ∧ Explored g p [bb] p' ∧
      p'.order[ord]? = some bb ∧ (p.ordInCodegenOrder bb = none → ord = p.bbOrder.length) := by
  induction fuel generalizing p bb with
  | zero => exact absurd hfuel (Nat.not_lt_zero _)
  | succ fuel ih =>
    rw [dfsBasicBlock]
    cases hord : p.ordInCodegenOrder bb with
    | some ord =>
      have h := Explored.markBackEdge (g := g) hok hord
      refine ⟨ord, _, rfl, h, ?_, fun h => absurd h (Option.some_ne_none _)⟩
      exact getElem?_extend h.order ((hok.ord bb ord).mp hord)
    | none =>
      have hnew := hok.notMem hord
      have hpush := hok.push hord
      have hfuel' : unvisited g (p.push bb) < fuel := by
        have := unvisited_push_lt hbb hnew
        omega
      have hself := order_push_self p bb
      have hclosed := hwf.closed bb hbb
      have hleave : ∀ {p₁ : Plan} {ords : List ℕ},
          Explored g (p.push bb) (g.successors bb) p₁ →
          List.Forall₂ (fun s ord => p₁.order[ord]? = some s) (g.successors bb) ords →
          ∃ p', p₁.leave p.bbOrder.length (terminatorOf p.bbOrder.length ords) = p' ∧
            Explored g p [bb] p' ∧ p'.order[p.bbOrder.length]? = some bb := by
        intro p₁ ords h hords
        have hexplored := h.leave hok hord hords
        have horder : (p₁.leave p.bbOrder.length (terminatorOf p.bbOrder.length ords)).order
            = p₁.order := order_modify fun _ => rfl
        exact ⟨_, rfl, hexplored, horder ▸ getElem?_extend h.order hself⟩
      match hsucc : g.successors bb, hwf.le_two bb hbb with
      | [], _ =>
        rw [hsucc] at hleave
        obtain ⟨p', hp', hexplored, hplace⟩ := hleave (.refl hpush) .nil
        exact ⟨_, p', congrArg (fun p => some (_, p)) hp', hexplored, hplace, fun _ => rfl⟩
      | [succ], _ =>
        rw [hsucc] at hleave hclosed
        obtain ⟨dest, p₁, hcall, h₁, hdest, -⟩ := ih hpush (hclosed succ (.head _)) hfuel'
        obtain ⟨p', hp', hexplored, hplace⟩ := hleave h₁ (.cons hdest .nil)
        refine ⟨_, p', ?_, hexplored, hplace, fun _ => rfl⟩
        simp only [hcall, Option.map_some]
        exact congrArg (fun p => some (_, p)) hp'
      | [defaultSucc, branchSucc], _ =>
        rw [hsucc] at hleave hclosed
        obtain ⟨dest, p₁, hcall, h₁, hdest, -⟩ := ih hpush (hclosed _ (.head _)) hfuel'
        obtain ⟨dest', p₂, hcall', h₂, hdest', -⟩ :=
          ih h₁.ok (hclosed branchSucc (.tail _ (.head _)))
            (lt_of_le_of_lt (unvisited_le h₁.order) hfuel')
        obtain ⟨p', hp', hexplored, hplace⟩ := hleave (h₁.trans h₂)
          (.cons (getElem?_extend h₂.order hdest) (.cons hdest' .nil))
        refine ⟨_, p', ?_, hexplored, hplace, fun _ => rfl⟩
        simp only [hcall, hcall', Option.bind_some, Option.map_some]
        exact congrArg (fun p => some (_, p)) hp'

/-- What is known of the blocks once they are in order. -/
structure Ordered (g : Graph) (bbOrder : List BlockInfo) : Prop where
  nodup : (bbOrder.map (·.bb)).Nodup
  entry : (bbOrder.map (·.bb))[0]? = some g.getEntryBB
  reach : ∀ b, b ∈ bbOrder.map (·.bb) ↔ g.Reach g.getEntryBB b
  /-- A block ends with branches to the places of its successors. -/
  terminator : ∀ i info, bbOrder[i]? = some info → ∃ ords t,
    List.Forall₂ (fun s ord => (bbOrder.map (·.bb))[ord]? = some s) (g.successors info.bb) ords ∧
      info.terminatorInfo = terminatorOf i ords t
  /-- The block before one that a back edge leads to is padded. -/
  padded : ∀ i j info, BackEdge g (bbOrder.map (·.bb)) i (j + 1) → bbOrder[j]? = some info →
    info.shouldPadFastPathTo16ByteAlignmentAtEnd = true
  noBackEdge : ∀ i, ¬ BackEdge g (bbOrder.map (·.bb)) i 0

/-- The padding changes nothing else. -/
theorem getElem?_padBlocks (l : List BlockInfo) (i : ℕ) : ∃ pad,
    (padBlocks l)[i]? = (l[i]?).map (fun info =>
      { info with shouldPadFastPathTo16ByteAlignmentAtEnd := pad }) ∧
    ∀ next, l[i + 1]? = some next → next.isReachedByBackEdge = true → pad = true := by
  induction l generalizing i with
  | nil => exact ⟨true, rfl, fun _ _ _ => rfl⟩
  | cons info l ih =>
    cases l with
    | nil =>
      cases i with
      | zero => exact ⟨info.shouldPadFastPathTo16ByteAlignmentAtEnd, rfl, nofun⟩
      | succ i => exact ⟨true, rfl, fun _ _ _ => rfl⟩
    | cons next l =>
      cases i with
      | zero =>
        refine ⟨_, rfl, fun next' hnext' hmarked => ?_⟩
        obtain rfl := Option.some.inj hnext'
        rw [hmarked, Bool.or_true]
      | succ i => exact ih i

/-- **The order of the blocks.** -/
theorem planBasicBlockOrder_spec (hwf : g.WellFormed) {fuel : ℕ} (hfuel : g.blocks.length < fuel) :
    ∃ bbOrder, planBasicBlockOrder fuel g = some bbOrder ∧ Ordered g bbOrder := by
  have hentry : g.getEntryBB ∈ g.blocks := by
    obtain ⟨b, l, hl⟩ := List.exists_cons_of_ne_nil hwf.nonempty
    rw [Graph.getEntryBB, hl]
    exact .head _
  have hempty : Plan.Ok ⟨[], fun _ => none⟩ := ⟨List.nodup_nil, fun b i => iff_of_false nofun nofun⟩
  obtain ⟨ord, p, hcall, h, hplace, hord⟩ := dfsBasicBlock_spec hwf hempty hentry
    (lt_of_le_of_lt (List.length_filter_le _ _) hfuel)
  refine ⟨padBlocks p.bbOrder, by rw [planBasicBlockOrder, hcall, Option.map_some], ?_⟩
  have horder : (padBlocks p.bbOrder).map (·.bb) = p.order := by
    refine List.ext_getElem? fun i => ?_
    obtain ⟨pad, hget, -⟩ := getElem?_padBlocks p.bbOrder i
    rw [List.getElem?_map, hget, Option.map_map, order_getElem?]
    rfl
  have hdone : ∀ i info, p.bbOrder[i]? = some info → p.Done g i info := fun i info =>
    h.done i info (Nat.zero_le _)
  have hzero : p.order[0]? = some g.getEntryBB := by
    rw [hord rfl] at hplace
    exact hplace
  refine ⟨horder ▸ h.ok.nodup, horder ▸ hzero, fun b => ?_, fun i info hi => ?_,
    fun i j info hback hj => ?_, fun i hback => ?_⟩
  · rw [horder]
    refine ⟨fun hb => ?_, fun hb => ?_⟩
    · obtain hb | ⟨t, ht, hreach⟩ := h.reach b hb
      · exact absurd hb List.not_mem_nil
      · rwa [List.mem_singleton.mp ht] at hreach
    · induction hb with
      | refl => exact List.mem_of_getElem? hzero
      | tail _ hstep ih =>
        obtain ⟨info, hinfo, rfl⟩ := List.mem_map.mp ih
        obtain ⟨i, hi⟩ := List.mem_iff_getElem?.mp hinfo
        exact (hdone i info hi).mem hstep
  · rw [horder]
    obtain ⟨pad, hget, -⟩ := getElem?_padBlocks p.bbOrder i
    rw [hget] at hi
    obtain ⟨info', hinfo', rfl⟩ := Option.map_eq_some_iff.mp hi
    exact (hdone i info' hinfo').2
  · rw [horder] at hback
    obtain ⟨next, hnext, hmarked⟩ := h.cycles i (j + 1) (Nat.zero_le _) hback
    obtain ⟨pad, hget, hpad⟩ := getElem?_padBlocks p.bbOrder j
    rw [hget] at hj
    obtain ⟨info', -, rfl⟩ := Option.map_eq_some_iff.mp hj
    exact hpad next hnext hmarked
  · -- no edge leads to the entry
    rw [horder] at hback
    obtain ⟨⟨b, s, hb, hs, hsucc⟩, -⟩ := hback
    obtain rfl := Option.some.inj (hzero.symm.trans hs)
    refine hwf.entry b ?_ hsucc
    have hreach : g.Reach g.getEntryBB b := by
      obtain hmem | ⟨t, ht, hreach⟩ := h.reach b (List.mem_of_getElem? hb)
      · exact absurd hmem List.not_mem_nil
      · rwa [List.mem_singleton.mp ht] at hreach
    clear hb hsucc
    induction hreach with
    | refl => exact hentry
    | tail _ hstep ih => exact hwf.closed _ ih _ hstep

end Search

end CodeLayout

end Dsom
