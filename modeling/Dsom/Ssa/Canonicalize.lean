import Dsom.Ssa.Canonical
import Mathlib.Data.List.Pairwise

/-!
# Ssa/Canonicalize — `CanonicalizeLocalOperationsInBasicBlock`

The first loop over a block brings the nodes it has passed into canonical form and knows what every
local holds (`Loop`, `Runs`); a load that is not the first of its local, or comes after a store, is
replaced by the value that it would load.  The second loop drops loads to which no node refers.
The locals are the same after the block as before the pass, and so is all that is seen
(`canonicalizeBlock_spec`).
-/

namespace Dsom

namespace LocalSsa

/-! ## One node -/

section Step

variable (g : Graph) (s : BlockState) (n : ℕ)

/-- A node when its inputs were replaced. -/
def replacedNode : Node := (s.node n).doReplacementForInputs s.replacement

/-- The value that a load is replaced by. -/
def reusedValue : PhiOrNode → Option Ir.Value
  | .getLocal m => some (.ssa m 0)
  | .setLocal m => some (g.soleInput (Function.update s.node n (replacedNode s n) m))
  | .undefValue => some (.constant g.undefValue)
  | _ => none

/-- What the first loop can do with a node. -/
inductive Step : BlockState → Prop
  | other (hget : ∀ ident, (replacedNode s n).kind ≠ .getLocal ident)
      (hset : ∀ ident, (replacedNode s n).kind ≠ .setLocal ident) :
      Step (s.doReplacementForInputs n)
  | reuse {ident : LocalIdentifier} {v : Ir.Value}
      (hkind : (replacedNode s n).kind = .getLocal ident)
      (hvalue : reusedValue g s n (s.tail (g.virtualRegister ident)) = some v) :
      Step ((s.doReplacementForInputs n).replaceBy n v)
  | load {ident : LocalIdentifier} (hkind : (replacedNode s n).kind = .getLocal ident)
      (htail : s.tail (g.virtualRegister ident) = .null) :
      Step { s.doReplacementForInputs n with
        head := Function.update s.head (g.virtualRegister ident) (.getLocal n)
        tail := Function.update s.tail (g.virtualRegister ident) (.getLocal n) }
  | store {ident : LocalIdentifier} (hkind : (replacedNode s n).kind = .setLocal ident)
      (htail : ∀ m, s.tail (g.virtualRegister ident) ≠ .setLocal m) :
      Step { s.doReplacementForInputs n with
        head := headAfterStore s.head s.tail (g.virtualRegister ident) n
        tail := Function.update s.tail (g.virtualRegister ident) (.setLocal n) }
  | overwrite {ident : LocalIdentifier} {m : ℕ}
      (hkind : (replacedNode s n).kind = .setLocal ident)
      (htail : s.tail (g.virtualRegister ident) = .setLocal m) :
      Step { (s.doReplacementForInputs n).convertToNop m with
        head := if s.head (g.virtualRegister ident) = .setLocal m then
            Function.update s.head (g.virtualRegister ident) (.setLocal n) else s.head
        tail := Function.update s.tail (g.virtualRegister ident) (.setLocal n) }

variable {g s n}

/-- The step at a node. -/
theorem canonicalizeNode_step (htail : ∀ i ord, s.tail i ≠ .phi ord) :
    Step g s n (g.canonicalizeNode s n) := by
  have hnode : (s.doReplacementForInputs n).node n = replacedNode s n := Function.update_self ..
  rw [Graph.canonicalizeNode, hnode]
  split
  case h_1 ident hkind =>
    rw [Graph.canonicalizeGetLocal]
    have htail' : (s.doReplacementForInputs n).tail = s.tail := rfl
    rw [htail']
    split
    case h_1 m heq => exact .reuse hkind (by rw [heq]; rfl)
    case h_2 m heq => exact .reuse hkind (by rw [heq]; rfl)
    case h_3 heq => exact .reuse hkind (by rw [heq]; rfl)
    case h_4 heq => exact .load hkind heq
    case h_5 ord heq => exact absurd heq (htail _ ord)
  case h_2 ident hkind =>
    have htail' : (s.doReplacementForInputs n).tail = s.tail := rfl
    rw [BlockState.canonicalizeSetLocal, htail']
    have hhead (e : PhiOrNode) (he : s.tail (g.virtualRegister ident) = e)
        (hnot : ∀ m, e ≠ .getLocal m) : headAfterStore s.head s.tail (g.virtualRegister ident) n =
          Function.update s.head (g.virtualRegister ident) (.setLocal n) := by
      funext j
      rw [headAfterStore, he]
      cases e with
      | getLocal m => exact absurd rfl (hnot m)
      | _ => rfl
    split
    case h_1 m heq =>
      have := Step.store (g := g) hkind (by rw [heq]; simp)
      have hsame : headAfterStore s.head s.tail (g.virtualRegister ident) n = s.head := by
        funext j
        rw [headAfterStore, heq]
      rwa [hsame] at this
    case h_2 heq =>
      have := Step.store (g := g) hkind (by rw [heq]; simp)
      rwa [hhead _ heq (by simp)] at this
    case h_3 m heq =>
      have := Step.overwrite hkind heq
      have hhead' : (s.doReplacementForInputs n).head = s.head := rfl
      rw [hhead']
      split_ifs with hh
      · rwa [if_pos hh] at this
      · rwa [if_neg hh] at this
    case h_4 heq =>
      have := Step.store (g := g) hkind (by rw [heq]; simp)
      rwa [hhead _ heq (by simp)] at this
    case h_5 ord heq => exact absurd heq (htail _ ord)
  case h_3 hget hset => exact .other hget hset

end Step

/-! ## A store that is overwritten

It is dropped as soon as the next store is seen. -/

section Overwrite

variable {s : BlockState} {i m n : ℕ}

/-- The state in which a store was dropped that is about to be overwritten. -/
def dropOverwritten (s : BlockState) (i m : ℕ) : BlockState :=
  { s with
    node := dropNode s.node m
    head := if s.head i = .setLocal m then Function.update s.head i .null else s.head
    tail := Function.update s.tail i (if s.head i = .setLocal m then .null else s.head i) }

theorem dropOverwritten_tail_self :
    (dropOverwritten s i m).tail i = if s.head i = .setLocal m then .null else s.head i :=
  Function.update_self ..

theorem headAfterStore_dropOverwritten
    (hhead : s.head i = .setLocal m ∨ ∃ m', s.head i = .getLocal m') :
    headAfterStore (dropOverwritten s i m).head (dropOverwritten s i m).tail i n =
      if s.head i = .setLocal m then Function.update s.head i (.setLocal n) else s.head := by
  funext j
  rw [headAfterStore, dropOverwritten_tail_self]
  rcases hhead with hh | ⟨m', hh⟩
  · rw [if_pos hh, if_pos hh, dropOverwritten]
    dsimp only
    rw [if_pos hh, Function.update_idem]
  · have hne : s.head i ≠ .setLocal m := by simp [hh]
    rw [if_neg hne, if_neg hne, hh, dropOverwritten]
    dsimp only
    rw [if_neg hne]

/-- Overwriting a store is dropping it and storing. -/
theorem overwrite_eq (hne : m ≠ n)
    (hhead : s.head i = .setLocal m ∨ ∃ m', s.head i = .getLocal m') :
    { (s.doReplacementForInputs n).convertToNop m with
        head := if s.head i = .setLocal m then Function.update s.head i (.setLocal n) else s.head
        tail := Function.update s.tail i (.setLocal n) : BlockState } =
      { (dropOverwritten s i m).doReplacementForInputs n with
        head := headAfterStore (dropOverwritten s i m).head (dropOverwritten s i m).tail i n
        tail := Function.update (dropOverwritten s i m).tail i (.setLocal n) } := by
  have hnode : (dropOverwritten s i m).node n = s.node n := dropNode_of_ne hne.symm
  have hm : (s.doReplacementForInputs n).node m = s.node m := Function.update_of_ne hne _ _
  rw [headAfterStore_dropOverwritten hhead, BlockState.mk.injEq]
  refine ⟨?_, rfl, ?_, rfl, (Function.update_idem ..).symm⟩
  · have hleft : ((s.doReplacementForInputs n).convertToNop m).node =
        Function.update (Function.update s.node n ((s.node n).doReplacementForInputs s.replacement))
          m ((s.doReplacementForInputs n).node m).convertToNop := rfl
    have hright : ((dropOverwritten s i m).doReplacementForInputs n).node =
        Function.update (dropNode s.node m) n
          (((dropOverwritten s i m).node n).doReplacementForInputs s.replacement) := rfl
    refine hleft.trans (Eq.trans ?_ hright.symm)
    rw [hm, hnode]
    exact Function.update_comm hne.symm _ _ _
  · have hright : ((dropOverwritten s i m).doReplacementForInputs n).isReferenced =
        (((dropOverwritten s i m).node n).doReplacementForInputs s.replacement).inputs.foldl
          setReferenced s.isReferenced := rfl
    refine Eq.trans ?_ hright.symm
    rw [hnode]
    rfl

end Overwrite

/-! ## The form of the nodes that were passed

The block is canonical as far as the loop has come. -/

/-- What a node can become: it stays what it is, or becomes a `Nop`. -/
def StaysOrNop (node node' : Node) : Prop := node'.kind = node.kind ∨ node'.kind = .nop

/-- **The invariant** of the first loop over the nodes `l` of a block, when `done` are passed. -/
structure Loop (g : Graph) (l : List ℕ) (s₀ : BlockState) (done : List ℕ)
    (s : BlockState) : Prop where
  canonical : Canonical g s.node done s.replacement s.head s.tail
  rest : ∀ n ∈ l, n ∉ done → s.node n = g.node n ∧ s.replacement n = none
  frame : ∀ n, n ∉ l → s.node n = s₀.node n ∧ s.replacement n = s₀.replacement n
  replaced : ∀ n ∈ done, ∀ v, s.replacement n = some v →
    (s.node n).kind = .nop ∧ Available s.node s.replacement done v
  kinds : ∀ n ∈ done, StaysOrNop (g.node n) (s.node n)
  kept : ∀ n ∈ done, s.replacement n = none → ∀ outputOrd,
    (g.node n).kind.HasOutput outputOrd → (s.node n).kind.HasOutput outputOrd
  referenced : ∀ n ∈ done, ∀ e ∈ (s.node n).inputs, ∀ m outputOrd, e.value = .ssa m outputOrd →
    s.isReferenced m = true

section References

theorem foldl_setReferenced_mono (inputs : List Edge) {isReferenced : ℕ → Bool} {m : ℕ}
    (h : isReferenced m = true) : (inputs.foldl setReferenced isReferenced) m = true := by
  refine Folds.foldl_invariant (P := fun r : ℕ → Bool => r m = true) h
    fun isReferenced e _ h => ?_
  cases hvalue : e.value with
  | constant _ => rwa [setReferenced, hvalue]
  | ssa n _ =>
    rw [setReferenced, hvalue]
    dsimp only
    by_cases heq : m = n
    · rw [heq, Function.update_self]
    · rwa [Function.update_of_ne heq]

/-- The inputs of a node are referenced. -/
theorem foldl_setReferenced {inputs : List Edge} {isReferenced : ℕ → Bool} {e : Edge}
    {m outputOrd : ℕ} (he : e ∈ inputs) (hvalue : e.value = .ssa m outputOrd) :
    (inputs.foldl setReferenced isReferenced) m = true := by
  obtain ⟨before, after, rfl⟩ := List.append_of_mem he
  rw [List.foldl_append, List.foldl_cons]
  refine foldl_setReferenced_mono after ?_
  rw [setReferenced, hvalue]
  exact Function.update_self ..

end References

section LoopStep

variable {g : Graph} {l done rest : List ℕ} {s₀ s s' : BlockState} {n : ℕ}

/-- The value that takes the place of one that was available before. -/
theorem Loop.replaceValue (h : Loop g l s₀ done s) {v : Ir.Value}
    (hv : Available g.node (fun _ => none) done v) :
    Available s.node s.replacement done (replaceValue s.replacement v) := by
  cases v with
  | constant _ => trivial
  | ssa m outputOrd =>
    obtain ⟨hm, hout, -⟩ := hv
    cases hρ : s.replacement m with
    | some v =>
      rw [LocalSsa.replaceValue, hρ]
      exact (h.replaced m hm v hρ).2
    | none =>
      rw [LocalSsa.replaceValue, hρ]
      exact ⟨hm, h.kept m hm hρ outputOrd hout, hρ⟩

/-- The inputs of the next node, after replacement. -/
theorem Loop.inputs (h : Loop g l s₀ done s) (hl : l = done ++ n :: rest)
    (hnodup : l.Nodup)
    (huses : ∀ e ∈ (g.node n).inputs, Available g.node (fun _ => none) done e.value) :
    n ∉ done ∧ s.node n = g.node n ∧ s.replacement n = none ∧
      ∀ e ∈ (replacedNode s n).inputs, Available s.node s.replacement done e.value := by
  have hn : n ∉ done := by
    rw [hl] at hnodup
    exact fun hin => (List.nodup_append'.mp hnodup).2.2 hin (.head _)
  obtain ⟨hnode, hρ⟩ := h.rest n (hl ▸ List.mem_append_right _ (.head _)) hn
  refine ⟨hn, hnode, hρ, fun e he => ?_⟩
  rw [replacedNode, hnode] at he
  obtain ⟨e₀, he₀, rfl⟩ := List.mem_map.mp he
  exact h.replaceValue (huses e₀ he₀)

/-- The node with its inputs replaced. -/
theorem doReplacementForInputs_node_self (s : BlockState) (n : ℕ) :
    (s.doReplacementForInputs n).node n = replacedNode s n :=
  Function.update_self ..

/-- Only its inputs are replaced. -/
theorem replacedNode_kind (hnode : s.node n = g.node n) :
    (replacedNode s n).kind = (g.node n).kind := by
  rw [← hnode]
  rfl

/-- The nodes in front of it stay as they are. -/
theorem Loop.adds (h : Loop g l s₀ done s) (hl : l = done ++ n :: rest) (hnodup : l.Nodup)
    (huses : ∀ e ∈ (g.node n).inputs, Available g.node (fun _ => none) done e.value) :
    Adds s.node s.replacement done n (s.doReplacementForInputs n).node s.replacement := by
  obtain ⟨hn, -, -, hinputs⟩ := h.inputs hl hnodup huses
  refine ⟨fun m hm => ?_, fun _ _ => rfl, doReplacementForInputs_node_self s n ▸ hinputs⟩
  exact Function.update_of_ne (by rintro rfl; exact hn hm) _ _

/-- The parts of the invariant besides the form. -/
theorem Loop.concat (h : Loop g l s₀ done s) (hl : l = done ++ n :: rest) {node : Node}
    (hn : n ∉ done) (hnode : s'.node = Function.update s.node n node)
    (hρ : ∀ m, m ≠ n → s'.replacement m = s.replacement m)
    (href : s'.isReferenced = (replacedNode s n).inputs.foldl setReferenced s.isReferenced)
    (hinputs : ∀ e ∈ node.inputs, e ∈ (replacedNode s n).inputs)
    (hcanonical : Canonical g s'.node (done ++ [n]) s'.replacement s'.head s'.tail)
    (hreplaced : ∀ v, s'.replacement n = some v →
      node.kind = .nop ∧ Available s.node s.replacement done v)
    (hkind : StaysOrNop (g.node n) node)
    (hkept : s'.replacement n = none → ∀ outputOrd, (g.node n).kind.HasOutput outputOrd →
      node.kind.HasOutput outputOrd) : Loop g l s₀ (done ++ [n]) s' := by
  have hself : s'.node n = node := by rw [hnode, Function.update_self]
  have hne (m : ℕ) (hm : m ≠ n) : s'.node m = s.node m := by
    rw [hnode, Function.update_of_ne hm]
  have hin (m : ℕ) (hm : m ∈ done) : m ≠ n := by
    rintro rfl
    exact hn hm
  have havail (v : Ir.Value) (hv : Available s.node s.replacement done v) :
      Available s'.node s'.replacement (done ++ [n]) v :=
    hv.mono (List.subset_append_left _ _) (fun m hm => by rw [hne m (hin m hm)])
      fun m hm => hρ m (hin m hm)
  constructor
  case canonical => exact hcanonical
  case rest =>
    intro m hm hnot
    have hmn : m ≠ n := fun heq => hnot (heq ▸ List.mem_append_right _ (.head _))
    rw [hne m hmn, hρ m hmn]
    exact h.rest m hm fun hin => hnot (List.mem_append_left _ hin)
  case frame =>
    intro m hm
    have hmn : m ≠ n := by
      rintro rfl
      exact hm (hl ▸ List.mem_append_right _ (.head _))
    rw [hne m hmn, hρ m hmn]
    exact h.frame m hm
  case replaced =>
    intro m hm v hv
    rcases List.mem_append.mp hm with hm | hm
    · obtain ⟨hnop, hv⟩ := h.replaced m hm v (hρ m (hin m hm) ▸ hv)
      exact ⟨by rw [hne m (hin m hm), hnop], havail v hv⟩
    · obtain rfl := List.mem_singleton.mp hm
      obtain ⟨hnop, hv⟩ := hreplaced v hv
      exact ⟨hself ▸ hnop, havail v hv⟩
  case kinds =>
    intro m hm
    rcases List.mem_append.mp hm with hm | hm
    · rw [hne m (hin m hm)]
      exact h.kinds m hm
    · rw [List.mem_singleton.mp hm, hself]
      exact hkind
  case kept =>
    intro m hm hnone
    rcases List.mem_append.mp hm with hm | hm
    · rw [hne m (hin m hm)]
      exact h.kept m hm (hρ m (hin m hm) ▸ hnone)
    · obtain rfl := List.mem_singleton.mp hm
      exact hself ▸ hkept hnone
  case referenced =>
    intro m hm e he x outputOrd hvalue
    rw [href]
    rcases List.mem_append.mp hm with hm | hm
    · rw [hne m (hin m hm)] at he
      exact foldl_setReferenced_mono _ (h.referenced m hm e he x outputOrd hvalue)
    · rw [List.mem_singleton.mp hm, hself] at he
      exact foldl_setReferenced (hinputs e he) hvalue

/-- An overwritten store is dropped. -/
theorem Loop.dropStore (h : Loop g l s₀ done s) {i m : ℕ} (hsub : done ⊆ l)
    (htail : s.tail i = .setLocal m) {head tail : ℕ → PhiOrNode}
    (hother : ∀ j, j ≠ i → head j = s.head j ∧ tail j = s.tail j)
    (hstore : s.head i = .setLocal m → head i = .null ∧ tail i = .null)
    (hload : s.head i ≠ .setLocal m → head i = s.head i ∧ tail i = s.head i) :
    Loop g l s₀ done
      { s with node := LocalSsa.dropNode s.node m, head := head, tail := tail } := by
  have hm : IsStore g s.node done i m := (htail ▸ h.canonical.events i).tail_setLocal.1
  have hnot (n outputOrd : ℕ) (hout : (s.node n).kind.HasOutput outputOrd) : n ≠ m := by
    rintro rfl
    obtain ⟨-, ident, hkind, -⟩ := hm
    exact (hkind ▸ hout : (NodeKind.setLocal ident).HasOutput outputOrd).elim
  constructor
  case canonical => exact h.canonical.dropStore hm hother hstore hload
  case rest =>
    intro n hn hnotin
    have hne : n ≠ m := by
      rintro rfl
      exact hnotin hm.1
    exact ⟨(dropNode_of_ne hne).trans (h.rest n hn hnotin).1, (h.rest n hn hnotin).2⟩
  case frame =>
    intro n hn
    have hne : n ≠ m := by
      rintro rfl
      exact hn (hsub hm.1)
    exact ⟨(dropNode_of_ne hne).trans (h.frame n hn).1, (h.frame n hn).2⟩
  case replaced =>
    intro n hn v hv
    obtain ⟨hnop, havail⟩ := h.replaced n hn v hv
    have hne : n ≠ m := by
      rintro rfl
      obtain ⟨-, ident, hkind, -⟩ := hm
      rw [hkind] at hnop
      cases hnop
    refine ⟨(congrArg Node.kind (dropNode_of_ne hne)).trans hnop, ?_⟩
    cases v with
    | constant _ => trivial
    | ssa x outputOrd =>
      refine ⟨havail.1, ?_, havail.2.2⟩
      dsimp only
      rw [dropNode_of_ne (hnot x outputOrd havail.2.1)]
      exact havail.2.1
  case kinds =>
    intro n hn
    dsimp only
    by_cases heq : n = m
    · subst heq
      rw [dropNode_self]
      exact .inr rfl
    · rw [dropNode_of_ne heq]
      exact h.kinds n hn
  case kept =>
    intro n hn hnone outputOrd hout
    have hout' := h.kept n hn hnone outputOrd hout
    dsimp only
    rwa [dropNode_of_ne (hnot n outputOrd hout')]
  case referenced =>
    exact fun n hn e he => h.referenced n hn e (mem_inputs_dropNode he)

/-- The loop after an overwritten store is dropped. -/
theorem Loop.dropOverwritten (h : Loop g l s₀ done s) {i m : ℕ} (hsub : done ⊆ l)
    (htail : s.tail i = .setLocal m) : Loop g l s₀ done (dropOverwritten s i m) := by
  refine h.dropStore hsub htail (fun j hj => ⟨?_, Function.update_of_ne hj _ _⟩) (fun hh => ?_)
    fun hh => ?_
  · split_ifs
    · exact Function.update_of_ne hj _ _
    · rfl
  · rw [if_pos hh, if_pos hh, Function.update_self, Function.update_self]
    exact ⟨rfl, rfl⟩
  · rw [if_neg hh, if_neg hh, Function.update_self]
    exact ⟨rfl, rfl⟩

/-- The store of a local that has none. -/
theorem Loop.store (h : Loop g l s₀ done s) (hl : l = done ++ n :: rest) (hnodup : l.Nodup)
    (huses : ∀ e ∈ (g.node n).inputs, Available g.node (fun _ => none) done e.value)
    (hset : ∀ ident, (g.node n).kind = .setLocal ident → ∃ e, (g.node n).inputs = [e])
    {ident : LocalIdentifier} (hkind : (g.node n).kind = .setLocal ident)
    (htail : ∀ m, s.tail (g.virtualRegister ident) ≠ .setLocal m) :
    Loop g l s₀ (done ++ [n]) { s.doReplacementForInputs n with
      head := headAfterStore s.head s.tail (g.virtualRegister ident) n
      tail := Function.update s.tail (g.virtualRegister ident) (.setLocal n) } := by
  obtain ⟨hn, hnode, -, -⟩ := h.inputs hl hnodup huses
  have hself := doReplacementForInputs_node_self s n
  have hkind' : (replacedNode s n).kind = .setLocal ident := (replacedNode_kind hnode).trans hkind
  have hadds := h.adds hl hnodup huses
  refine h.concat hl hn rfl (fun _ _ => rfl) rfl (fun _ he => he) ?_ (fun v hv => ?_) (.inl ?_)
    fun _ outputOrd hout => ?_
  · refine h.canonical.concat_store hadds (hself ▸ hkind') rfl ?_ htail
    obtain ⟨e, he⟩ := hset ident hkind
    refine ⟨replaceOperand s.replacement e, ?_⟩
    rw [hself, replacedNode, hnode, Node.doReplacementForInputs, he]
    rfl
  · have hnone := (h.rest n (hl ▸ List.mem_append_right _ (.head _)) hn).2
    exact absurd (hnone.symm.trans hv) (by simp)
  · exact hkind'.trans hkind.symm
  · rw [hkind] at hout
    exact hout.elim

/-- The value of the last event of a local is available. -/
theorem Loop.reusedValue_available (h : Loop g l s₀ done s) (hn : n ∉ done) {i : ℕ} {v : Ir.Value}
    (hvalue : reusedValue g s n (s.tail i) = some v) : Available s.node s.replacement done v := by
  have hevents := h.canonical.events i
  generalize s.tail i = e at hvalue hevents
  cases e with
  | getLocal m =>
    obtain ⟨-, hm, ident, hm', -⟩ := hevents.tail_getLocal
    cases hvalue
    refine ⟨hm, hm' ▸ rfl, Option.eq_none_iff_forall_ne_some.mpr fun w hw => ?_⟩
    have := (h.replaced m hm w hw).1
    rw [hm'] at this
    cases this
  | setLocal m =>
    obtain ⟨hm, -⟩ := hevents.tail_setLocal
    have hmn : m ≠ n := by
      rintro rfl
      exact hn hm.1
    have hv : g.soleInput (s.node m) = v := by
      rw [reusedValue, Function.update_of_ne hmn] at hvalue
      exact Option.some_inj.mp hvalue
    exact hv ▸ h.canonical.soleInput_available hm
  | undefValue =>
    cases hvalue
    trivial
  | null => cases hvalue
  | phi _ => cases hvalue

/-- A load becomes a `Nop` if an event before it has its value. -/
theorem Loop.reuse (h : Loop g l s₀ done s) (hl : l = done ++ n :: rest) (hn : n ∉ done)
    {v : Ir.Value} (hnil : (replacedNode s n).inputs = [])
    (hv : Available s.node s.replacement done v) :
    Loop g l s₀ (done ++ [n]) ((s.doReplacementForInputs n).replaceBy n v) := by
  have hnop : (replacedNode s n).convertToNop.inputs = [] := by
    rw [Node.convertToNop, hnil]
    rfl
  have hnodes : ((s.doReplacementForInputs n).replaceBy n v).node =
      Function.update s.node n (replacedNode s n).convertToNop := by
    rw [BlockState.replaceBy, doReplacementForInputs_node_self]
    exact Function.update_idem ..
  have hρ (m : ℕ) (hm : m ≠ n) :
      ((s.doReplacementForInputs n).replaceBy n v).replacement m = s.replacement m :=
    Function.update_of_ne hm _ _
  have hρn : ((s.doReplacementForInputs n).replaceBy n v).replacement n = some v :=
    Function.update_self ..
  have hadds : Adds s.node s.replacement done n
      ((s.doReplacementForInputs n).replaceBy n v).node
      ((s.doReplacementForInputs n).replaceBy n v).replacement := by
    refine ⟨fun m hm => ?_, fun m hm => hρ m (by rintro rfl; exact hn hm), ?_⟩
    · rw [hnodes]
      exact Function.update_of_ne (by rintro rfl; exact hn hm) _ _
    · rw [hnodes, Function.update_self, hnop]
      exact fun e he => absurd he List.not_mem_nil
  refine h.concat hl hn hnodes hρ rfl (hnop ▸ fun e he => absurd he List.not_mem_nil)
    (h.canonical.concat_other hadds ?_ ?_) (fun w hw => ?_) (.inr rfl) fun hnone => ?_
  · rw [hnodes, Function.update_self]
    exact fun ident h => by cases h
  · rw [hnodes, Function.update_self]
    exact fun ident h => by cases h
  · obtain rfl := Option.some_inj.mp (hρn.symm.trans hw)
    exact ⟨rfl, hv⟩
  · exact absurd (hρn.symm.trans hnone) (by simp)

/-- **One step** of the first loop. -/
theorem Loop.step (h : Loop g l s₀ done s) (hl : l = done ++ n :: rest) (hnodup : l.Nodup)
    (huses : ∀ e ∈ (g.node n).inputs, Available g.node (fun _ => none) done e.value)
    (hget : ∀ ident, (g.node n).kind = .getLocal ident → (g.node n).inputs = [])
    (hset : ∀ ident, (g.node n).kind = .setLocal ident → ∃ e, (g.node n).inputs = [e])
    (hstep : Step g s n s') : Loop g l s₀ (done ++ [n]) s' := by
  obtain ⟨hn, hnode, hnone, -⟩ := h.inputs hl hnodup huses
  have hkinds := replacedNode_kind hnode
  have hself := doReplacementForInputs_node_self s n
  have hadds := h.adds hl hnodup huses
  have hnotReplaced (v : Ir.Value) (hv : s.replacement n = some v) :
      (replacedNode s n).kind = .nop ∧ Available s.node s.replacement done v :=
    absurd (hnone.symm.trans hv) (by simp)
  have hnil {ident : LocalIdentifier} (hkind : (replacedNode s n).kind = .getLocal ident) :
      (replacedNode s n).inputs = [] := by
    rw [replacedNode, hnode, Node.doReplacementForInputs, hget ident (hkinds ▸ hkind)]
    rfl
  cases hstep with
  | other hget' hset' =>
    exact h.concat hl hn rfl (fun _ _ => rfl) rfl (fun _ he => he)
      (h.canonical.concat_other hadds (hself ▸ hget') (hself ▸ hset')) hnotReplaced (.inl hkinds)
      fun _ outputOrd hout => hkinds ▸ hout
  | reuse hkind hvalue => exact h.reuse hl hn (hnil hkind) (h.reusedValue_available hn hvalue)
  | load hkind htail =>
    exact h.concat hl hn rfl (fun _ _ => rfl) rfl (fun _ he => he)
      (h.canonical.concat_load hadds (hself ▸ hkind) rfl (hself ▸ hnil hkind) htail) hnotReplaced
      (.inl hkinds) fun _ outputOrd hout => hkinds ▸ hout
  | store hkind htail => exact h.store hl hnodup huses hset (hkinds ▸ hkind) htail
  | @overwrite ident m hkind htail =>
    obtain ⟨hm, hhead⟩ := (htail ▸ h.canonical.events _).tail_setLocal
    have hmn : m ≠ n := by
      rintro rfl
      exact hn hm.1
    rw [overwrite_eq hmn (hhead.imp_right (Exists.imp fun _ => And.left))]
    have hdrop := h.dropOverwritten (hl ▸ List.subset_append_left _ _) htail
    refine hdrop.store hl hnodup huses hset (hkinds ▸ hkind) fun x hx => ?_
    rw [dropOverwritten_tail_self] at hx
    split_ifs at hx with hh
    rcases hhead with heq | ⟨m', heq, -⟩
    · exact hh heq
    · rw [heq] at hx
      cases hx

end LoopStep

/-! ## What was executed

The nodes so far do what the original ones did, but for the stores that are still to come. -/

section Runs

variable {Val : Type} (β : Behaviour Val) (g : Graph)

/-- What a local holds after its last event. -/
def HoldsEvent (node : ℕ → Node) (c₀ c : Config Val) (i : ℕ) : PhiOrNode → Prop
  | .null => c.locals i = c₀.locals i
  | .getLocal m => c.locals i = c₀.locals i ∧ c.env m 0 = g.loaded β (c₀.locals i)
  | .setLocal m => ∃ ident, c.locals i = some (ident, β.eval c.env (g.soleInput (node m)))
  | .undefValue => c.locals i = none
  | .phi _ => True

/-- **The invariant** of the first loop, as to what the nodes that were passed do; nothing is said
about the locals that are left out. -/
structure Runs (c₀ c₀' : Config Val) (leftOut : ℕ → Prop) (done : List ℕ) (s : BlockState) :
    Prop where
  events : (g.execNodes β g.node done c₀).events = (g.execNodes β s.node done c₀').events
  locals : ∀ i, ¬ leftOut i →
    (g.execNodes β g.node done c₀).locals i = (g.execNodes β s.node done c₀').locals i
  env : ∀ n ∈ done, ∀ outputOrd, (g.node n).kind.HasOutput outputOrd →
    (g.execNodes β g.node done c₀).env n outputOrd =
      β.eval (g.execNodes β s.node done c₀').env (replaceValue s.replacement (.ssa n outputOrd))
  holds : ∀ i, ¬ leftOut i →
    HoldsEvent β g s.node c₀' (g.execNodes β s.node done c₀') i (s.tail i)

variable {β g}

/-- A value that was available keeps its meaning. -/
theorem Available.eval {node : ℕ → Node} {ρ : ℕ → Option Ir.Value} {done : List ℕ} {n : ℕ}
    {v : Ir.Value} {N : Node} {c : Config Val} (h : Available node ρ done v) (hn : n ∉ done) :
    β.eval (g.exec β n N c).env v = β.eval c.env v := by
  cases v with
  | constant _ => rfl
  | ssa m outputOrd =>
    have hne : m ≠ n := by
      rintro rfl
      exact hn h.1
    exact congrFun (exec_env_of_ne hne) outputOrd

section RunsStep

variable {l done rest : List ℕ} {s₀ s s' : BlockState} {n : ℕ} {c₀ c₀' : Config Val}
  {leftOut : ℕ → Prop}

/-- The inputs of a node have the values that they had before. -/
theorem Runs.value (h : Runs β g c₀ c₀' leftOut done s) {v : Ir.Value}
    (hv : Available g.node (fun _ => none) done v) :
    β.eval (g.execNodes β g.node done c₀).env v =
      β.eval (g.execNodes β s.node done c₀').env (replaceValue s.replacement v) := by
  cases v with
  | constant _ => rfl
  | ssa m outputOrd => exact h.env m hv.1 outputOrd hv.2.1

/-- The checks of a node are the same. -/
theorem Runs.checks (h : Runs β g c₀ c₀' leftOut done s) (hnode : s.node n = g.node n)
    (huses : ∀ e ∈ (g.node n).inputs, Available g.node (fun _ => none) done e.value) :
    β.runChecks n (g.execNodes β g.node done c₀).env (g.node n).inputs
        (g.execNodes β g.node done c₀).events =
      β.runChecks n (g.execNodes β s.node done c₀').env (replacedNode s n).inputs
        (g.execNodes β s.node done c₀').events := by
  rw [replacedNode, hnode, h.events]
  exact runChecks_map n _ (fun _ => rfl) (fun _ => rfl) fun e he => h.value (huses e he)

/-- A local whose last event is not the new node. -/
theorem HoldsEvent.concat (hloop : Loop g l s₀ done s) {N : Node} {c : Config Val} {i : ℕ}
    {node : ℕ → Node} (hn : n ∉ done) (hnode : ∀ m ∈ done, node m = s.node m)
    (hlocals : (g.exec β n N c).locals i = c.locals i)
    (h : HoldsEvent β g s.node c₀ c i (s.tail i)) :
    HoldsEvent β g node c₀ (g.exec β n N c) i (s.tail i) := by
  have hevents := hloop.canonical.events i
  generalize s.tail i = e at h hevents
  cases e with
  | null => exact hlocals.trans h
  | getLocal m =>
    have hne : m ≠ n := by
      rintro rfl
      exact hn hevents.tail_getLocal.2.1
    exact ⟨hlocals.trans h.1, (congrFun (exec_env_of_ne hne) 0).trans h.2⟩
  | setLocal m =>
    obtain ⟨ident, h⟩ := h
    have hm := hevents.tail_setLocal.1
    refine ⟨ident, hlocals.trans (h.trans ?_)⟩
    rw [hnode m hm.1, (hloop.canonical.soleInput_available hm).eval hn]
  | undefValue => exact hlocals.trans h
  | phi _ => trivial

/-- The invariant for one more node. -/
theorem Runs.concat (h : Runs β g c₀ c₀' leftOut done s) (hloop : Loop g l s₀ done s)
    {leftOut' : ℕ → Prop} (hn : n ∉ done) (hnode : ∀ m, m ≠ n → s'.node m = s.node m)
    (hρ : ∀ m, m ≠ n → s'.replacement m = s.replacement m)
    (hevents : (g.exec β n (g.node n) (g.execNodes β g.node done c₀)).events =
      (g.exec β n (s'.node n) (g.execNodes β s.node done c₀')).events)
    (hlocals : ∀ i, ¬ leftOut' i →
      (g.exec β n (g.node n) (g.execNodes β g.node done c₀)).locals i =
        (g.exec β n (s'.node n) (g.execNodes β s.node done c₀')).locals i)
    (henv : ∀ outputOrd, (g.node n).kind.HasOutput outputOrd →
      (g.exec β n (g.node n) (g.execNodes β g.node done c₀)).env n outputOrd =
        β.eval (g.exec β n (s'.node n) (g.execNodes β s.node done c₀')).env
          (replaceValue s'.replacement (.ssa n outputOrd)))
    (hholds : ∀ i, ¬ leftOut' i → HoldsEvent β g s'.node c₀'
      (g.exec β n (s'.node n) (g.execNodes β s.node done c₀')) i (s'.tail i)) :
    Runs β g c₀ c₀' leftOut' (done ++ [n]) s' := by
  have hne (m : ℕ) (hm : m ∈ done) : m ≠ n := by
    rintro rfl
    exact hn hm
  have hsame : g.execNodes β s'.node done c₀' = g.execNodes β s.node done c₀' :=
    execNodes_congr fun m hm => hnode m (hne m hm)
  refine ⟨?_, fun i hi => ?_, fun m hm outputOrd hout => ?_, fun i hi => ?_⟩
  · rw [execNodes_concat, execNodes_concat, hsame, hevents]
  · rw [execNodes_concat, execNodes_concat, hsame, hlocals i hi]
  · rw [execNodes_concat, execNodes_concat, hsame]
    rcases List.mem_append.mp hm with hm | hm
    · have hv := hloop.replaceValue (v := .ssa m outputOrd) ⟨hm, hout, rfl⟩
      have hvalue : replaceValue s'.replacement (.ssa m outputOrd) =
          replaceValue s.replacement (.ssa m outputOrd) := by
        rw [replaceValue, replaceValue, hρ m (hne m hm)]
      rw [hvalue, hv.eval hn, ← h.env m hm outputOrd hout, exec_env_of_ne (hne m hm)]
    · obtain rfl := List.mem_singleton.mp hm
      exact henv outputOrd hout
  · rw [execNodes_concat, hsame]
    exact hholds i hi

/-- A store; the invariant need not say anything about its local before. -/
theorem Runs.store (h : Runs β g c₀ c₀' leftOut done s) (hloop : Loop g l s₀ done s)
    (hl : l = done ++ n :: rest) (hnodup : l.Nodup)
    (huses : ∀ e ∈ (g.node n).inputs, Available g.node (fun _ => none) done e.value)
    (hset : ∀ ident, (g.node n).kind = .setLocal ident → ∃ e, (g.node n).inputs = [e])
    {ident : LocalIdentifier} (hkind : (g.node n).kind = .setLocal ident)
    (hleft : ∀ i, leftOut i → i = g.virtualRegister ident) :
    Runs β g c₀ c₀' (fun _ => False) (done ++ [n]) { s.doReplacementForInputs n with
      head := headAfterStore s.head s.tail (g.virtualRegister ident) n
      tail := Function.update s.tail (g.virtualRegister ident) (.setLocal n) } := by
  obtain ⟨hn, hnode, hnone, hinputs⟩ := hloop.inputs hl hnodup huses
  have hself : (s.doReplacementForInputs n).node n = replacedNode s n := Function.update_self ..
  have hkind' : (replacedNode s n).kind = .setLocal ident := by
    rw [← hkind, ← hnode]
    rfl
  obtain ⟨e, he⟩ := hset ident hkind
  have hsole : g.soleInput (replacedNode s n) = replaceValue s.replacement e.value := by
    rw [Graph.soleInput, replacedNode, hnode, Node.doReplacementForInputs, he]
    rfl
  have hsole₀ : g.soleInput (g.node n) = e.value := by
    rw [Graph.soleInput, he]
    rfl
  have hvalue := h.value (huses e (he ▸ .head _))
  refine h.concat hloop hn (fun m hm => Function.update_of_ne hm _ _) (fun _ _ => rfl) ?_ ?_ ?_ ?_
  · dsimp only
    rw [hself, exec_setLocal hkind, exec_setLocal hkind']
    exact h.checks hnode huses
  · intro i _
    dsimp only
    rw [hself, exec_setLocal hkind, exec_setLocal hkind']
    dsimp only
    by_cases heq : i = g.virtualRegister ident
    · rw [heq, Function.update_self, Function.update_self, hsole, hsole₀, hvalue]
    · rw [Function.update_of_ne heq, Function.update_of_ne heq,
        h.locals i fun hi => heq (hleft i hi)]
  · intro outputOrd hout
    rw [hkind] at hout
    exact hout.elim
  · intro i _
    dsimp only
    rw [hself]
    by_cases heq : i = g.virtualRegister ident
    · rw [heq, Function.update_self]
      refine ⟨ident, ?_⟩
      rw [exec_setLocal hkind', hself]
      exact Function.update_self ..
    · rw [Function.update_of_ne heq]
      refine HoldsEvent.concat hloop hn (fun m hm => ?_) ?_ (h.holds i fun hi => heq (hleft i hi))
      · exact Function.update_of_ne (by rintro rfl; exact hn hm) _ _
      · rw [exec_setLocal hkind']
        exact Function.update_of_ne heq _ _

/-- The invariant when a store was dropped that is about to be overwritten. -/
theorem Runs.dropOverwritten (h : Runs β g c₀ c₀' (fun _ => False) done s)
    (hloop : Loop g l s₀ done s) (hnodup : done.Nodup) {i m : ℕ}
    (htail : s.tail i = .setLocal m) :
    Runs β g c₀ c₀' (· = i) done (dropOverwritten s i m) := by
  have hm : IsStore g s.node done i m := (htail ▸ hloop.canonical.events i).tail_setLocal.1
  have hsame := hloop.canonical.execNodes_dropStore (β := β) (c := c₀') hnodup hm
  have hnode : (LocalSsa.dropOverwritten s i m).node = LocalSsa.dropNode s.node m := rfl
  refine ⟨?_, fun j hj => ?_, fun n hn outputOrd hout => ?_, fun j hj => ?_⟩
  · rw [hnode, hsame.events, h.events]
  · rw [hnode, hsame.locals j hj, h.locals j not_false]
  · rw [hnode, hsame.env]
    exact h.env n hn outputOrd hout
  · have htail' : (LocalSsa.dropOverwritten s i m).tail j = s.tail j := Function.update_of_ne hj _ _
    have hholds := h.holds j not_false
    have hevents := hloop.canonical.events j
    rw [htail', hnode]
    generalize s.tail j = e at hholds hevents
    cases e with
    | null => exact (hsame.locals j hj).trans hholds
    | getLocal x => exact ⟨(hsame.locals j hj).trans hholds.1, by rw [hsame.env]; exact hholds.2⟩
    | setLocal x =>
      obtain ⟨ident, hx⟩ := hholds
      have hne : x ≠ m := by
        rintro rfl
        exact hj (hevents.tail_setLocal.1.unique hm)
      exact ⟨ident, by rw [hsame.locals j hj, hsame.env, dropNode_of_ne hne, hx]⟩
    | undefValue => exact (hsame.locals j hj).trans hholds
    | phi _ => trivial

/-- The value that a load is replaced by is what it would load. -/
theorem Runs.reusedValue (h : Runs β g c₀ c₀' (fun _ => False) done s) (hloop : Loop g l s₀ done s)
    (hn : n ∉ done) {i : ℕ} {v : Ir.Value} (hvalue : reusedValue g s n (s.tail i) = some v) :
    g.loaded β ((g.execNodes β s.node done c₀').locals i) =
      β.eval (g.execNodes β s.node done c₀').env v := by
  have hholds := h.holds i not_false
  have hevents := hloop.canonical.events i
  generalize s.tail i = e at hholds hevents hvalue
  cases e with
  | null => cases hvalue
  | getLocal m =>
    cases hvalue
    rw [hholds.1]
    exact hholds.2.symm
  | setLocal m =>
    have hne : m ≠ n := by
      rintro rfl
      exact hn hevents.tail_setLocal.1.1
    obtain ⟨ident, hm⟩ := hholds
    rw [LocalSsa.reusedValue, Function.update_of_ne hne] at hvalue
    rw [hm, ← Option.some_inj.mp hvalue]
    rfl
  | undefValue =>
    cases hvalue
    have hnone : (g.execNodes β s.node done c₀').locals i = none := hholds
    rw [hnone]
    rfl
  | phi _ => cases hvalue

section Cases

variable (h : Runs β g c₀ c₀' (fun _ => False) done s) (hloop : Loop g l s₀ done s)
  (hl : l = done ++ n :: rest) (hnodup : l.Nodup)
  (huses : ∀ e ∈ (g.node n).inputs, Available g.node (fun _ => none) done e.value)

include h hloop hl hnodup huses

/-- **A node that is neither a load nor a store**: the same, on other names of its inputs. -/
theorem Runs.other (hget : ∀ ident, (replacedNode s n).kind ≠ .getLocal ident)
    (hset : ∀ ident, (replacedNode s n).kind ≠ .setLocal ident) :
    Runs β g c₀ c₀' (fun _ => False) (done ++ [n]) (s.doReplacementForInputs n) := by
  obtain ⟨hn, hnode, hnone, hinputs⟩ := hloop.inputs hl hnodup huses
  have hself : (s.doReplacementForInputs n).node n = replacedNode s n := Function.update_self ..
  have hkinds : (replacedNode s n).kind = (g.node n).kind := by
    rw [← hnode]
    rfl
  have hsame (m : ℕ) (hm : m ≠ n) : (s.doReplacementForInputs n).node m = s.node m :=
    Function.update_of_ne hm _ _
  have hchecks := h.checks hnode huses
  have hstay (i : ℕ) : (g.exec β n (replacedNode s n)
      (g.execNodes β s.node done c₀')).locals i = (g.execNodes β s.node done c₀').locals i := by
    rw [exec_locals hset]
  have hholds (i : ℕ) (_ : ¬ False) : HoldsEvent β g (s.doReplacementForInputs n).node c₀'
      (g.exec β n ((s.doReplacementForInputs n).node n) (g.execNodes β s.node done c₀')) i
        ((s.doReplacementForInputs n).tail i) := by
    refine HoldsEvent.concat hloop hn (fun m hm => hsame m ?_) ?_ (h.holds i not_false)
    · rintro rfl
      exact hn hm
    · rw [hself, hstay]
  have hlocals (i : ℕ) (_ : ¬ False) :
      (g.exec β n (g.node n) (g.execNodes β g.node done c₀)).locals i =
        (g.exec β n ((s.doReplacementForInputs n).node n)
          (g.execNodes β s.node done c₀')).locals i := by
    rw [hself, hstay, exec_locals (hkinds ▸ hset), h.locals i not_false]
  rcases (g.node n).kind.cases with ⟨ident, hkind⟩ | ⟨ident, hkind⟩ | hkind | hkind
  · exact absurd (hkinds.trans hkind) (hget ident)
  · exact absurd (hkinds.trans hkind) (hset ident)
  · refine h.concat hloop hn hsame (fun _ _ => rfl) ?_ hlocals (fun _ hout => ?_) hholds
    · rw [hself, exec_nop hkind, exec_nop (hkinds.trans hkind)]
      exact hchecks
    · rw [hkind] at hout
      exact hout.elim
  · have hkind' : (replacedNode s n).kind.IsOther := hkinds ▸ hkind
    have hvalues : ((g.node n).inputs.map fun e =>
        β.eval (g.execNodes β g.node done c₀).env e.value) =
        (replacedNode s n).inputs.map fun e =>
          β.eval (g.execNodes β s.node done c₀').env e.value := by
      rw [replacedNode, hnode, Node.doReplacementForInputs, List.map_map]
      exact List.map_congr_left fun e he => h.value (huses e he)
    refine h.concat hloop hn hsame (fun _ _ => rfl) ?_ hlocals (fun outputOrd _ => ?_) hholds
    · rw [hself, exec_other hkind, exec_other hkind', hchecks, hvalues]
    · have hown : replaceValue (s.doReplacementForInputs n).replacement (.ssa n outputOrd) =
          .ssa n outputOrd := by
        rw [replaceValue, BlockState.doReplacementForInputs, hnone]
        rfl
      rw [hown, hself, exec_other hkind, exec_other hkind', hchecks, hvalues]
      dsimp only
      rw [Behaviour.eval, Function.update_self, Function.update_self]

/-- **A load whose value is known**: it becomes a `Nop`, and the value is used in its place. -/
theorem Runs.reuse (hget : ∀ ident, (g.node n).kind = .getLocal ident → (g.node n).inputs = [])
    {ident : LocalIdentifier} {v : Ir.Value} (hkind : (g.node n).kind = .getLocal ident)
    (hvalue : LocalSsa.reusedValue g s n (s.tail (g.virtualRegister ident)) = some v) :
    Runs β g c₀ c₀' (fun _ => False) (done ++ [n])
      ((s.doReplacementForInputs n).replaceBy n v) := by
  obtain ⟨hn, hnode, hnone, hinputs⟩ := hloop.inputs hl hnodup huses
  have hnodes (m : ℕ) (hm : m ≠ n) :
      ((s.doReplacementForInputs n).replaceBy n v).node m = s.node m :=
    (Function.update_of_ne hm _ _).trans (Function.update_of_ne hm _ _)
  have hnop : ((s.doReplacementForInputs n).replaceBy n v).node n =
      (replacedNode s n).convertToNop :=
    (Function.update_self ..).trans (congrArg Node.convertToNop (Function.update_self ..))
  have hnil : (replacedNode s n).convertToNop.inputs = [] := by
    rw [replacedNode, hnode, Node.doReplacementForInputs, hget ident hkind]
    rfl
  have hexec (c : Config Val) :
      g.exec β n (((s.doReplacementForInputs n).replaceBy n v).node n) c = c := by
    rw [hnop, exec_nop rfl, hnil]
    rfl
  have hlocals (i : ℕ) : (g.execNodes β g.node done c₀).locals i =
      (g.execNodes β s.node done c₀').locals i := h.locals i not_false
  refine h.concat hloop hn hnodes (fun m hm => Function.update_of_ne hm _ _) ?_ (fun i _ => ?_)
    (fun outputOrd hout => ?_) fun i _ => ?_
  · rw [hexec, exec_getLocal hkind, hget ident hkind]
    exact h.events
  · rw [hexec, exec_getLocal hkind]
    exact hlocals i
  · rw [hkind] at hout
    obtain rfl : outputOrd = 0 := hout
    have hρ : replaceValue ((s.doReplacementForInputs n).replaceBy n v).replacement (.ssa n 0) =
        v := by
      have hn' : ((s.doReplacementForInputs n).replaceBy n v).replacement n = some v :=
        Function.update_self ..
      rw [replaceValue, hn']
      rfl
    rw [hexec, hρ, exec_getLocal hkind]
    dsimp only
    rw [Function.update_self, hlocals]
    exact h.reusedValue hloop hn hvalue
  · -- the last event of each local is one of before
    rw [hexec]
    have hholds := h.holds i not_false
    have hevents := hloop.canonical.events i
    have htail : ((s.doReplacementForInputs n).replaceBy n v).tail i = s.tail i := rfl
    rw [htail]
    generalize s.tail i = e at hholds hevents
    cases e with
    | setLocal m =>
      obtain ⟨ident', hm⟩ := hholds
      have hne : m ≠ n := by
        rintro rfl
        exact hn hevents.tail_setLocal.1.1
      exact ⟨ident', by rw [hnodes m hne, hm]⟩
    | _ => exact hholds

/-- **The first load of a local** in the block: it loads what the local held at the start. -/
theorem Runs.load {ident : LocalIdentifier} (hkind : (g.node n).kind = .getLocal ident)
    (htail : s.tail (g.virtualRegister ident) = .null) :
    Runs β g c₀ c₀' (fun _ => False) (done ++ [n]) { s.doReplacementForInputs n with
      head := Function.update s.head (g.virtualRegister ident) (.getLocal n)
      tail := Function.update s.tail (g.virtualRegister ident) (.getLocal n) } := by
  obtain ⟨hn, hnode, hnone, hinputs⟩ := hloop.inputs hl hnodup huses
  have hself : (s.doReplacementForInputs n).node n = replacedNode s n := Function.update_self ..
  have hkind' : (replacedNode s n).kind = .getLocal ident :=
    (congrArg Node.kind hnode).trans hkind
  have hsame (m : ℕ) (hm : m ≠ n) : (s.doReplacementForInputs n).node m = s.node m :=
    Function.update_of_ne hm _ _
  have hlocals (i : ℕ) : (g.execNodes β g.node done c₀).locals i =
      (g.execNodes β s.node done c₀').locals i := h.locals i not_false
  have hnull : (g.execNodes β s.node done c₀').locals (g.virtualRegister ident) =
      c₀'.locals (g.virtualRegister ident) := by
    have hholds := h.holds (g.virtualRegister ident) not_false
    rwa [htail] at hholds
  refine h.concat hloop hn hsame (fun _ _ => rfl) ?_ (fun i _ => ?_) (fun outputOrd hout => ?_)
    fun i _ => ?_
  · dsimp only
    rw [hself, exec_getLocal hkind, exec_getLocal hkind']
    exact h.checks hnode huses
  · dsimp only
    rw [hself, exec_getLocal hkind, exec_getLocal hkind']
    exact hlocals i
  · have hown : replaceValue (s.doReplacementForInputs n).replacement (.ssa n outputOrd) =
        .ssa n outputOrd := by
      rw [replaceValue, BlockState.doReplacementForInputs, hnone]
      rfl
    dsimp only
    rw [hown, hself, exec_getLocal hkind, exec_getLocal hkind', Behaviour.eval]
    dsimp only
    rw [Function.update_self, Function.update_self, hlocals]
  · dsimp only
    rw [hself]
    by_cases heq : i = g.virtualRegister ident
    · rw [heq, Function.update_self, exec_getLocal hkind']
      refine ⟨hnull, ?_⟩
      dsimp only
      rw [Function.update_self, hnull]
    · rw [Function.update_of_ne heq]
      refine HoldsEvent.concat hloop hn (fun m hm => hsame m ?_) ?_ (h.holds i not_false)
      · rintro rfl
        exact hn hm
      · rw [exec_getLocal hkind']

/-- **One step** of the first loop, as to what is executed. -/
theorem Runs.step (hget : ∀ ident, (g.node n).kind = .getLocal ident → (g.node n).inputs = [])
    (hset : ∀ ident, (g.node n).kind = .setLocal ident → ∃ e, (g.node n).inputs = [e])
    (hstep : Step g s n s') : Runs β g c₀ c₀' (fun _ => False) (done ++ [n]) s' := by
  obtain ⟨hn, hnode, -⟩ := hloop.inputs hl hnodup huses
  have hkinds : (replacedNode s n).kind = (g.node n).kind := by
    rw [← hnode]
    rfl
  cases hstep with
  | other hget' hset' => exact h.other hloop hl hnodup huses hget' hset'
  | reuse hkind hvalue => exact h.reuse hloop hl hnodup huses hget (hkinds ▸ hkind) hvalue
  | load hkind htail => exact h.load hloop hl hnodup huses (hkinds ▸ hkind) htail
  | store hkind htail =>
    exact h.store hloop hl hnodup huses hset (hkinds ▸ hkind) fun _ => False.elim
  | @overwrite ident m hkind htail =>
    -- without the store that is overwritten, and then as any store
    obtain ⟨hm, hhead⟩ := (htail ▸ hloop.canonical.events _).tail_setLocal
    have hne : m ≠ n := by
      rintro rfl
      exact hn hm.1
    rw [overwrite_eq hne (hhead.imp_right (Exists.imp fun _ => And.left))]
    have hdone : done.Nodup := (hl ▸ hnodup).of_append_left
    exact (h.dropOverwritten hloop hdone htail).store
      (hloop.dropOverwritten (hl ▸ List.subset_append_left _ _) htail) hl hnodup huses hset
      (hkinds ▸ hkind) fun _ => id

end Cases

end RunsStep

end Runs

/-! ## The events at the head -/

/-- In the entry block locals are undefined until they are stored, in the others they are not. -/
structure AtHead (atEntry : Prop) (head : ℕ → PhiOrNode) : Prop where
  entry : atEntry → ∀ i, head i = .undefValue ∨ ∃ m, head i = .setLocal m
  notEntry : ¬ atEntry → ∀ i, head i ≠ .undefValue

section AtHead

variable {g : Graph} {l done : List ℕ} {s₀ s s' : BlockState} {n : ℕ} {atEntry : Prop}

/-- The events at the head after a store. -/
theorem AtHead.update {head : ℕ → PhiOrNode} (h : AtHead atEntry head) (i m : ℕ) :
    AtHead atEntry (Function.update head i (.setLocal m)) where
  entry hentry j := by
    by_cases hj : j = i
    · rw [hj, Function.update_self]
      exact .inr ⟨m, rfl⟩
    · rw [Function.update_of_ne hj]
      exact h.entry hentry j
  notEntry hentry j := by
    by_cases hj : j = i
    · rw [hj, Function.update_self]
      simp
    · rw [Function.update_of_ne hj]
      exact h.notEntry hentry j

/-- The events at the head after any node. -/
theorem AtHead.step (h : AtHead atEntry s.head) (hloop : Loop g l s₀ done s)
    (hstep : Step g s n s') : AtHead atEntry s'.head := by
  cases hstep with
  | other => exact h
  | reuse => exact h
  | @load ident hkind htail =>
    have hnull : s.head (g.virtualRegister ident) = .null :=
      (htail ▸ hloop.canonical.events _).tail_null
    refine ⟨fun hentry => ?_, fun hentry j => ?_⟩
    · rcases h.entry hentry (g.virtualRegister ident) with heq | ⟨m, heq⟩
      · exact absurd (hnull.symm.trans heq) (by simp)
      · exact absurd (hnull.symm.trans heq) (by simp)
    · dsimp only
      by_cases hj : j = g.virtualRegister ident
      · rw [hj, Function.update_self]
        simp
      · rw [Function.update_of_ne hj]
        exact h.notEntry hentry j
  | @store ident hkind htail =>
    have hhead : headAfterStore s.head s.tail (g.virtualRegister ident) n = s.head ∨
        headAfterStore s.head s.tail (g.virtualRegister ident) n =
          Function.update s.head (g.virtualRegister ident) (.setLocal n) := by
      cases heq : s.tail (g.virtualRegister ident) with
      | getLocal _ =>
        refine .inl (funext fun j => ?_)
        rw [headAfterStore, heq]
      | _ =>
        refine .inr (funext fun j => ?_)
        rw [headAfterStore, heq]
    dsimp only
    rcases hhead with heq | heq
    · rw [heq]
      exact h
    · rw [heq]
      exact h.update _ _
  | overwrite =>
    dsimp only
    split_ifs
    · exact h.update _ _
    · exact h

end AtHead

/-! ## Dead loads

A load that nothing uses is dropped in a second loop. -/

/-- What holds of a block during the second loop. -/
structure Passed (g : Graph) (l : List ℕ) (s₀ s : BlockState) : Prop where
  canonical : Canonical g s.node l s.replacement s.head s.tail
  frame : ∀ n, n ∉ l → s.node n = s₀.node n ∧ s.replacement n = s₀.replacement n
  kinds : ∀ n ∈ l, StaysOrNop (g.node n) (s.node n)
  referenced : ∀ n ∈ l, ∀ e ∈ (s.node n).inputs, ∀ m outputOrd, e.value = .ssa m outputOrd →
    s.isReferenced m = true

/-- Two configurations look the same from outside of a block. -/
structure SameOutside {Val : Type} (c c' : Config Val) : Prop where
  events : c.events = c'.events
  locals : c.locals = c'.locals

section DeadLoads

variable {g : Graph} {l : List ℕ} {s₀ s : BlockState} {n : ℕ} {atEntry : Prop}

/-- A load is kept, or it is dropped. -/
theorem removeDeadGetLocal_eq :
    g.removeDeadGetLocal s n = s ∨
      ∃ ident, (s.node n).kind = .getLocal ident ∧ s.isReferenced n = false ∧
        ∃ head tail, g.removeDeadGetLocal s n =
            { s with node := dropNode s.node n, head := head, tail := tail } ∧
          (∀ j, j ≠ g.virtualRegister ident → head j = s.head j ∧ tail j = s.tail j) ∧
          (s.tail (g.virtualRegister ident) = .getLocal n →
            head (g.virtualRegister ident) = .null ∧ tail (g.virtualRegister ident) = .null) ∧
          (s.tail (g.virtualRegister ident) ≠ .getLocal n →
            head (g.virtualRegister ident) = s.tail (g.virtualRegister ident) ∧
              tail (g.virtualRegister ident) = s.tail (g.virtualRegister ident)) := by
  rw [Graph.removeDeadGetLocal]
  split
  case h_2 => exact .inl rfl
  case h_1 ident hkind =>
    by_cases href : s.isReferenced n = true
    · exact .inl (if_pos href)
    rw [if_neg href]
    dsimp only
    by_cases htail : s.tail (g.virtualRegister ident) = .getLocal n
    · rw [if_pos htail]
      refine .inr ⟨ident, hkind, Bool.eq_false_iff.mpr href, _, _, rfl, fun j hj => ?_, fun _ => ?_,
        fun hne => absurd htail hne⟩
      · exact ⟨Function.update_of_ne hj _ _, Function.update_of_ne hj _ _⟩
      · exact ⟨Function.update_self .., Function.update_self ..⟩
    · rw [if_neg htail]
      refine .inr ⟨ident, hkind, Bool.eq_false_iff.mpr href, _, _, rfl, fun j hj => ?_,
        fun heq => absurd heq htail, fun _ => ?_⟩
      · exact ⟨Function.update_of_ne hj _ _, rfl⟩
      · exact ⟨Function.update_self .., rfl⟩

/-- A load that is not referenced is not used. -/
theorem Passed.notUsed (h : Passed g l s₀ s) (href : s.isReferenced n = false) :
    ∀ m ∈ l, ∀ e ∈ (s.node m).inputs, ∀ outputOrd, e.value ≠ .ssa n outputOrd := by
  intro m hm e he outputOrd hvalue
  have := h.referenced m hm e he n outputOrd hvalue
  rw [href] at this
  cases this

/-- **One step** of the second loop. -/
theorem Passed.step (h : Passed g l s₀ s) (hhead : AtHead atEntry s.head) (hn : n ∈ l) :
    Passed g l s₀ (g.removeDeadGetLocal s n) ∧
      AtHead atEntry (g.removeDeadGetLocal s n).head ∧
      ∀ (Val : Type) (β : Behaviour Val) (c : Config Val),
        SameOutside (g.execNodes β (g.removeDeadGetLocal s n).node l c)
          (g.execNodes β s.node l c) := by
  rcases removeDeadGetLocal_eq (g := g) (s := s) (n := n) with
    heq | ⟨ident, hkind, href, head, tail, heq, hother, hload, hstore⟩
  · rw [heq]
    exact ⟨h, hhead, fun _ _ _ => ⟨rfl, rfl⟩⟩
  rw [heq]
  have hm : IsLoad g s.node l (g.virtualRegister ident) n := ⟨hn, ident, hkind, rfl⟩
  have huses := h.notUsed href
  refine ⟨⟨h.canonical.dropLoad hm huses hother hload hstore, fun m hout => ?_, fun m hin => ?_,
    fun m hin e he => h.referenced m hin e (mem_inputs_dropNode he)⟩, ⟨fun hentry => ?_,
    fun hentry j => ?_⟩, fun Val β c => ?_⟩
  · have hne : m ≠ n := by
      rintro rfl
      exact hout hn
    exact ⟨(dropNode_of_ne hne).trans (h.frame m hout).1, (h.frame m hout).2⟩
  · dsimp only
    by_cases hmn : m = n
    · subst hmn
      rw [dropNode_self]
      exact .inr rfl
    · rw [dropNode_of_ne hmn]
      exact h.kinds m hin
  · -- the entry block has no loads
    have hl := h.canonical.load _ n hm
    rcases hhead.entry hentry (g.virtualRegister ident) with heq | ⟨m, heq⟩
    · exact absurd (hl.symm.trans heq) (by simp)
    · exact absurd (hl.symm.trans heq) (by simp)
  · dsimp only
    by_cases hj : j = g.virtualRegister ident
    · subst hj
      by_cases htail : s.tail (g.virtualRegister ident) = .getLocal n
      · rw [(hload htail).1]
        simp
      · rw [(hstore htail).1]
        have hevents := h.canonical.events (g.virtualRegister ident)
        intro hundef
        exact hhead.notEntry hentry _ (hundef ▸ hevents).tail_undef
    · rw [(hother j hj).1]
      exact hhead.notEntry hentry j
  · have hsame := h.canonical.execNodes_dropLoad (β := β) (c := c) hm huses
    exact ⟨hsame.events, hsame.locals⟩

end DeadLoads

/-! ## The whole pass over the blocks

The blocks have different nodes, so each can be treated alone. -/

section Blocks

variable {g : Graph}

/-- A block of the graph as it was given. -/
structure Unvisited (g : Graph) (bb : ℕ) (s : State) : Prop where
  node : ∀ n ∈ g.cfg.nodes bb, s.node n = g.node n
  replacement : ∀ n ∈ g.cfg.nodes bb, s.replacement n = none

/-- A block that was canonicalized: from the same locals it does what the block did before. -/
structure BlockOk (g : Graph) (bb : ℕ) (s : State) : Prop where
  canonical : Canonical g s.node (g.cfg.nodes bb) s.replacement (s.localInfoAtHead bb)
    (s.localInfoAtTail bb)
  atHead : AtHead (bb = g.cfg.getEntryBB) (s.localInfoAtHead bb)
  kinds : ∀ n ∈ g.cfg.nodes bb, StaysOrNop (g.node n) (s.node n)
  same : ∀ (Val : Type) (β : Behaviour Val) (c c' : Config Val), SameOutside c c' →
    (bb = g.cfg.getEntryBB → ∀ i, c.locals i = none) →
    SameOutside (g.execNodes β g.node (g.cfg.nodes bb) c)
      (g.execNodes β s.node (g.cfg.nodes bb) c')

theorem Graph.WellFormed.nodup_block (hwf : g.WellFormed) {bb : ℕ} (hbb : bb ∈ g.cfg.blocks) :
    (g.cfg.nodes bb).Nodup :=
  (List.nodup_flatMap.mp hwf.nodup_nodes).1 bb hbb

/-- The first loop over a block. -/
theorem firstLoop_spec (hwf : g.WellFormed) {bb : ℕ} (hbb : bb ∈ g.cfg.blocks) (s₀ : BlockState)
    {event : PhiOrNode} (hevent : event = if bb = g.cfg.getEntryBB then .undefValue else .null)
    (hnode : ∀ n ∈ g.cfg.nodes bb, s₀.node n = g.node n)
    (hρ : ∀ n ∈ g.cfg.nodes bb, s₀.replacement n = none) (hhead : s₀.head = fun _ => event)
    (htail : s₀.tail = fun _ => event) :
    let s := (g.cfg.nodes bb).foldl g.canonicalizeNode s₀
    Loop g (g.cfg.nodes bb) s₀ (g.cfg.nodes bb) s ∧ AtHead (bb = g.cfg.getEntryBB) s.head ∧
      ∀ (Val : Type) (β : Behaviour Val) (c c' : Config Val), SameOutside c c' →
        (bb = g.cfg.getEntryBB → ∀ i, c.locals i = none) →
        Runs β g c c' (fun _ => False) (g.cfg.nodes bb) s := by
  have hstart : Canonical g s₀.node [] s₀.replacement s₀.head s₀.tail := by
    refine ⟨fun i => ?_, fun i m hm => absurd hm.1 List.not_mem_nil,
      fun i m hm => absurd hm.1 List.not_mem_nil, fun done m rest hsplit => ?_,
      fun n hn => absurd hn List.not_mem_nil, fun n hn => absurd hn List.not_mem_nil,
      fun done n rest hsplit => ?_⟩
    · rw [hhead, htail, hevent]
      dsimp only
      split_ifs
      · exact .undef
      · exact .none
    · exact absurd hsplit.symm (List.append_ne_nil_of_right_ne_nil _ (List.cons_ne_nil _ _))
    · exact absurd hsplit.symm (List.append_ne_nil_of_right_ne_nil _ (List.cons_ne_nil _ _))
  refine Folds.foldl_prefix (P := fun done s => Loop g (g.cfg.nodes bb) s₀ done s ∧
    AtHead (bb = g.cfg.getEntryBB) s.head ∧
      ∀ (Val : Type) (β : Behaviour Val) (c c' : Config Val), SameOutside c c' →
        (bb = g.cfg.getEntryBB → ∀ i, c.locals i = none) →
        Runs β g c c' (fun _ => False) done s) ⟨?_, ?_, ?_⟩ ?_
  · exact ⟨hstart, fun n hn _ => ⟨hnode n hn, hρ n hn⟩, fun _ _ => ⟨rfl, rfl⟩,
      fun n hn => absurd hn List.not_mem_nil, fun n hn => absurd hn List.not_mem_nil,
      fun n hn => absurd hn List.not_mem_nil, fun n hn => absurd hn List.not_mem_nil⟩
  · rw [hhead, hevent]
    refine ⟨fun hentry _ => .inl (if_pos hentry), fun hentry _ => ?_⟩
    rw [if_neg hentry]
    simp
  · intro Val β c c' hsame hnone
    refine ⟨hsame.events, fun i _ => congrFun hsame.locals i,
      fun n hn => absurd hn List.not_mem_nil, fun i _ => ?_⟩
    rw [htail, hevent]
    dsimp only
    split_ifs with hentry
    · exact (congrFun hsame.locals i).symm.trans (hnone hentry i)
    · exact (rfl : c'.locals i = c'.locals i)
  · rintro done n rest s hl ⟨hloop, hatHead, hruns⟩
    have hnodup := hwf.nodup_block hbb
    have huses := hwf.uses bb hbb done n rest hl
    have hstep : Step g s n (g.canonicalizeNode s n) := canonicalizeNode_step fun i ord heq =>
      (heq ▸ hloop.canonical.events i).tail_phi
    exact ⟨hloop.step hl hnodup huses (hwf.getLocal n) (hwf.setLocal n) hstep,
      hatHead.step hloop hstep, fun Val β c c' hsame hnone =>
      (hruns Val β c c' hsame hnone).step hloop hl hnodup huses (hwf.getLocal n)
        (hwf.setLocal n) hstep⟩

/-- **`CanonicalizeLocalOperationsInBasicBlock`**. -/
theorem canonicalizeBlock_spec (hwf : g.WellFormed) {bb : ℕ} (hbb : bb ∈ g.cfg.blocks) {s : State}
    (h : Unvisited g bb s) :
    let s' := g.canonicalizeLocalOperationsInBasicBlock s bb
    BlockOk g bb s' ∧
      (∀ n, n ∉ g.cfg.nodes bb → s'.node n = s.node n ∧ s'.replacement n = s.replacement n) ∧
      (∀ b, b ≠ bb → s'.localInfoAtHead b = s.localInfoAtHead b ∧
        s'.localInfoAtTail b = s.localInfoAtTail b) ∧
      s'.phis = s.phis ∧ s'.dataFlowInfo = s.dataFlowInfo := by
  intro s'
  let event : PhiOrNode := if bb = g.cfg.getEntryBB then .undefValue else .null
  let s₀ : BlockState := ⟨s.node, s.replacement, s.isReferenced, fun _ => event, fun _ => event⟩
  let s₁ := (g.cfg.nodes bb).foldl g.canonicalizeNode s₀
  let s₂ := (g.cfg.nodes bb).foldl g.removeDeadGetLocal s₁
  obtain ⟨hloop, hatHead, hruns⟩ := firstLoop_spec hwf hbb s₀ rfl h.node h.replacement rfl rfl
  have hsecond : Passed g (g.cfg.nodes bb) s₀ s₂ ∧ AtHead (bb = g.cfg.getEntryBB) s₂.head ∧
      ∀ (Val : Type) (β : Behaviour Val) (c : Config Val),
        SameOutside (g.execNodes β s₂.node (g.cfg.nodes bb) c)
          (g.execNodes β s₁.node (g.cfg.nodes bb) c) := by
    refine Folds.foldl_invariant (P := fun s => Passed g (g.cfg.nodes bb) s₀ s ∧
      AtHead (bb = g.cfg.getEntryBB) s.head ∧ ∀ (Val : Type) (β : Behaviour Val) (c : Config Val),
        SameOutside (g.execNodes β s.node (g.cfg.nodes bb) c)
          (g.execNodes β s₁.node (g.cfg.nodes bb) c)) ?_ ?_
    · exact ⟨⟨hloop.canonical, hloop.frame, hloop.kinds, hloop.referenced⟩, hatHead,
        fun _ _ _ => ⟨rfl, rfl⟩⟩
    · rintro s n hn ⟨hpassed, hatHead, hsame⟩
      obtain ⟨hpassed', hatHead', hstep⟩ := hpassed.step hatHead hn
      refine ⟨hpassed', hatHead', fun Val β c => ?_⟩
      exact ⟨(hstep Val β c).events.trans (hsame Val β c).events,
        (hstep Val β c).locals.trans (hsame Val β c).locals⟩
  obtain ⟨hpassed, hatHead', hsame⟩ := hsecond
  have hhead : s'.localInfoAtHead bb = s₂.head := Function.update_self ..
  have htail : s'.localInfoAtTail bb = s₂.tail := Function.update_self ..
  refine ⟨⟨hhead ▸ htail ▸ hpassed.canonical, hhead ▸ hatHead', hpassed.kinds,
    fun Val β c c' hout hnone => ?_⟩, hpassed.frame, fun b hb => ?_, rfl, rfl⟩
  · have hrun := hruns Val β c c' hout hnone
    exact ⟨hrun.events.trans (hsame Val β c').events.symm,
      (funext fun i => hrun.locals i not_false).trans (hsame Val β c').locals.symm⟩
  · exact ⟨Function.update_of_ne hb _ _, Function.update_of_ne hb _ _⟩

/-- A node is in one block only. -/
theorem Graph.WellFormed.disjoint (hwf : g.WellFormed) {b b' n : ℕ} (hb : b ∈ g.cfg.blocks)
    (hb' : b' ∈ g.cfg.blocks) (hn : n ∈ g.cfg.nodes b) (hn' : n ∈ g.cfg.nodes b') : b = b' := by
  by_contra hne
  have hsymm : Std.Symm (Function.onFun List.Disjoint g.cfg.nodes) :=
    ⟨fun _ _ h _ hn hn' => h hn' hn⟩
  exact (List.nodup_flatMap.mp hwf.nodup_nodes).2.forall hb hb' hne hn hn'

/-- A block depends on its own nodes. -/
theorem BlockOk.congr {bb : ℕ} {s s' : State} (h : BlockOk g bb s)
    (hnode : ∀ n ∈ g.cfg.nodes bb, s'.node n = s.node n)
    (hρ : ∀ n ∈ g.cfg.nodes bb, s'.replacement n = s.replacement n)
    (hhead : s'.localInfoAtHead bb = s.localInfoAtHead bb)
    (htail : s'.localInfoAtTail bb = s.localInfoAtTail bb) : BlockOk g bb s' where
  canonical := hhead ▸ htail ▸ h.canonical.congr hnode hρ
  atHead := hhead ▸ h.atHead
  kinds n hn := hnode n hn ▸ h.kinds n hn
  same Val β c c' hout hnone := by
    rw [execNodes_congr hnode]
    exact h.same Val β c c' hout hnone

/-- The graph after all blocks were canonicalized. -/
structure CanonicalGraph (g : Graph) (s : State) : Prop where
  blocks : ∀ bb ∈ g.cfg.blocks, BlockOk g bb s
  phis : s.phis.size = 0
  dataFlowInfo : ∀ n, s.dataFlowInfo n = none

/-- Some blocks were canonicalized, the others are as they were given. -/
structure Visited (g : Graph) (done : List ℕ) (s : State) : Prop where
  ok : ∀ bb ∈ g.cfg.blocks, bb ∈ done → BlockOk g bb s
  rest : ∀ bb ∈ g.cfg.blocks, bb ∉ done → Unvisited g bb s
  phis : s.phis = g.initialState.phis
  dataFlowInfo : s.dataFlowInfo = g.initialState.dataFlowInfo

theorem Visited.step (hwf : g.WellFormed) {done rest : List ℕ} {bb : ℕ} {s : State}
    (hl : g.cfg.blocks = done ++ bb :: rest) (h : Visited g done s) :
    Visited g (done ++ [bb]) (g.canonicalizeLocalOperationsInBasicBlock s bb) := by
  have hbb : bb ∈ g.cfg.blocks := hl ▸ List.mem_append_right _ (.head _)
  have hnot : bb ∉ done := by
    have hnodup := hwf.nodup
    rw [hl] at hnodup
    exact fun hin => (List.nodup_append'.mp hnodup).2.2 hin (.head _)
  obtain ⟨hok, hframe, hlocal, hphis, hinfo⟩ := canonicalizeBlock_spec hwf hbb (h.rest bb hbb hnot)
  have hother (b : ℕ) (hb : b ∈ g.cfg.blocks) (hne : b ≠ bb) (n : ℕ) (hn : n ∈ g.cfg.nodes b) :
      n ∉ g.cfg.nodes bb := fun hn' => hne (hwf.disjoint hb hbb hn hn')
  refine ⟨fun b hb hin => ?_, fun b hb hnotin => ?_, hphis.trans h.phis,
    hinfo.trans h.dataFlowInfo⟩
  · by_cases heq : b = bb
    · exact heq ▸ hok
    · have hin' := (List.mem_append.mp hin).resolve_right fun h => heq (List.mem_singleton.mp h)
      exact (h.ok b hb hin').congr (fun n hn => (hframe n (hother b hb heq n hn)).1)
        (fun n hn => (hframe n (hother b hb heq n hn)).2) (hlocal b heq).1 (hlocal b heq).2
  · have heq : b ≠ bb := fun heq => hnotin (heq ▸ List.mem_append_right _ (.head _))
    have hun := h.rest b hb fun hin => hnotin (List.mem_append_left _ hin)
    exact ⟨fun n hn => (hframe n (hother b hb heq n hn)).1.trans (hun.node n hn),
      fun n hn => (hframe n (hother b hb heq n hn)).2.trans (hun.replacement n hn)⟩

/-- **`CanonicalizeAllLocalOperations`**. -/
theorem canonicalizeAll_spec (hwf : g.WellFormed) :
    CanonicalGraph g g.canonicalizeAllLocalOperations := by
  have h : Visited g g.cfg.blocks g.canonicalizeAllLocalOperations :=
    Folds.foldl_prefix (P := Visited g)
      ⟨fun _ _ h => absurd h List.not_mem_nil, fun _ _ _ => ⟨fun _ _ => rfl, fun _ _ => rfl⟩, rfl,
        rfl⟩ fun _ _ _ _ hl h => h.step hwf hl
  exact ⟨fun bb hbb => h.ok bb hbb hbb, congrArg Arena.size h.phis,
    fun n => congrFun h.dataFlowInfo n⟩

end Blocks

end LocalSsa

end Dsom
