import Dsom.Dfg.PhantomDeaths
import Mathlib.Order.Nat

/-!
# Dfg/PhantomRun — the run of the pass over a block

`Inv` ties the state of the pass to the block: after `k` nodes it tracks `held k`, and has inserted
just the `Phantom`s of the deaths so far.  One node keeps it (`Inv.step`), so a run does
(`Inv.run`), and `processBasicBlock_spec` says what an accepted block and its output are.
-/

namespace Dsom

namespace Ir

namespace PhantomInsertion

variable {bb : BasicBlock} {k : ℕ} {st st' : State} {v : Value} {q : ℕ × Node}

/-! ## The invariant -/

/-- A node before this place saves the slot. -/
def SavedBefore (bb : BasicBlock) (k slot : ℕ) : Prop :=
  ∃ j < k, ∃ node ∈ bb.nodes[j]?, Saves node slot

/-- **What the pass has checked of a node**, in terms of the block. -/
structure Accepted (bb : BasicBlock) (k : ℕ) (node : Node) : Prop where
  store : ∀ {s}, StoresTo node s → s < bb.numInterpreterSlots ∧ ¬ SavedBefore bb k s
  input : ∀ {s}, node.kind = .shadowStore s → ∃ e, node.inputs = [e]
  save : ∀ {s}, Saves node s → ∃ e, node.inputs = [e] ∧ held bb k s = some e.value
  branch : node.MayOsrExit → ∀ {old}, exitDestBefore bb k = some old → old.IsBranchDest →
    node.osrExitDest = old
  known : node.MayOsrExit → ∀ {old s}, exitDestBefore bb k = some old →
    ¬ node.osrExitDest.IsBranchDest → s < bb.numInterpreterSlots → bb.destLive old s = false →
    bb.destLive node.osrExitDest s = true →
    (writes bb node (held bb k) s).isSome ∨ SavedBefore bb (k + 1) s

/-- The value was not touched since the last exit before `k`. -/
def UntouchedSinceExit (bb : BasicBlock) (k : ℕ) (v : Value) : Prop :=
  ∃ m, lastExitBefore bb k = some m ∧ ∀ j, m ≤ j → j < k → ¬ Touches bb j v

/-- **The invariant of the pass** after `k` nodes. -/
structure Inv (bb : BasicBlock) (k : ℕ) (st : State) : Prop where
  val : st.interpSlotVal = held bb k
  saved : ∀ s, st.interpSlotSavedToDfgSlot s = true ↔ SavedBefore bb k s
  exitIdx : st.nodeIndexOfLastExitDest = lastExitBefore bb k
  exitDest : st.lastExitDest = exitDestBefore bb k
  seen : st.seenBranchDest = true ↔ ∃ d, st.lastExitDest = some d ∧ d.IsBranchDest
  use_le : ∀ v, st.lastUseExitOrd v ≤ st.lastExitOrd
  use : ∀ {v}, st.lastUseExitOrd v ≠ 0 →
    (st.lastUseExitOrd v < st.lastExitOrd ↔ UntouchedSinceExit bb k v)
  range : ∀ s v, held bb k s = some v → s < bb.numInterpreterSlots
  inserts : ∀ q, q ∈ st.inserts ↔ ∃ d < k, ∃ s v, DiesAt bb d s v ∧ PhantomFor bb d v q
  accepted : ∀ j < k, ∀ node ∈ bb.nodes[j]?, Accepted bb j node

theorem Inv.init : Inv bb 0 .init where
  val := rfl
  saved s := by simp [State.init, SavedBefore]
  exitIdx := rfl
  exitDest := rfl
  seen := by simp [State.init]
  use_le v := Nat.zero_le _
  use h := absurd rfl h
  range s v h := by cases h
  inserts q := by simp [State.init]
  accepted j hj := absurd hj (Nat.not_lt_zero j)

section Step

variable {st₁ st₂ : State} {node : Node} (hnode : bb.nodes[k]? = some node)
include hnode

theorem touches_iff : Touches bb k v ↔ node.Uses v ∨ node.Defines k v := by
  simp [Touches, hnode]

theorem exitAt_iff : ExitAt bb k ↔ node.MayOsrExit := by
  simp [ExitAt, hnode]

/-- An exit is the last one, one node later. -/
theorem lastExitBefore_succ_of_exit (hexit : node.MayOsrExit) :
    lastExitBefore bb (k + 1) = some k := by
  rw [lastExitBefore, if_pos ((exitAt_iff hnode).mpr hexit)]

theorem lastExitBefore_succ_of_not_exit (hexit : ¬ node.MayOsrExit) :
    lastExitBefore bb (k + 1) = lastExitBefore bb k := by
  rw [lastExitBefore, if_neg (fun h => hexit ((exitAt_iff hnode).mp h))]

theorem exitDestBefore_succ_of_exit (hexit : node.MayOsrExit) :
    exitDestBefore bb (k + 1) = some node.osrExitDest := by
  simp [exitDestBefore, lastExitBefore_succ_of_exit hnode hexit, hnode]

theorem exitDestBefore_succ_of_not_exit (hexit : ¬ node.MayOsrExit) :
    exitDestBefore bb (k + 1) = exitDestBefore bb k := by
  rw [exitDestBefore, lastExitBefore_succ_of_not_exit hnode hexit, exitDestBefore]

/-- What a slot holds, one node later. -/
theorem held_succ (s : ℕ) : held bb (k + 1) s =
    if node.MayOsrExit ∧ Kills bb node.osrExitDest (exitDestBefore bb k) s then none
    else writes bb node (held bb k) s := by
  rw [held, hnode]

/-- What has been saved, one node later. -/
theorem savedBefore_succ (s : ℕ) :
    SavedBefore bb (k + 1) s ↔ SavedBefore bb k s ∨ Saves node s := by
  simp only [SavedBefore, Nat.lt_succ_iff_lt_or_eq]
  constructor
  · rintro ⟨j, hj | rfl, n, hn, hs⟩
    · exact Or.inl ⟨j, hj, n, hn, hs⟩
    · obtain rfl := Option.some.inj (hnode.symm.trans hn)
      exact Or.inr hs
  · rintro (⟨j, hj, h⟩ | hs)
    · exact ⟨j, Or.inl hj, h⟩
    · exact ⟨k, Or.inr rfl, node, hnode, hs⟩

/-- How a slot dies at a node. -/
theorem diesAt_iff {s : ℕ} : DiesAt bb k s v ↔ StoresTo node s ∧ held bb k s = some v ∨
    node.MayOsrExit ∧ Kills bb node.osrExitDest (exitDestBefore bb k) s ∧
      writes bb node (held bb k) s = some v := by
  have hlt := (List.getElem?_eq_some_iff.mp hnode).1
  simp [DiesAt, hnode, Nat.ne_of_lt hlt]

/-- The uses of the node are recorded before its deaths are decided. -/
theorem Inv.clock (hI : Inv bb k st) : Clock bb k (updateLastUse k node st) where
  exitIdx := hI.exitIdx
  use := by
    intro w hw
    simp only [updateLastUse] at hw ⊢
    split_ifs at hw ⊢ with ht hexit
    · refine iff_of_false (by omega) ?_
      rintro ⟨m, hm, hun⟩
      exact hun k (exitAt_of_lastExitBefore hm).1.le le_rfl ((touches_iff hnode).mpr ht)
    · refine iff_of_false (by omega) ?_
      rintro ⟨m, hm, hun⟩
      exact hun k (exitAt_of_lastExitBefore hm).1.le le_rfl ((touches_iff hnode).mpr ht)
    · rw [hI.use hw]
      refine exists_congr fun m => and_congr_right fun _ =>
        ⟨fun h j hmj hjk => ?_, fun h j hmj hjk => h j hmj hjk.le⟩
      rcases hjk.lt_or_eq with hlt | rfl
      · exact h j hmj hlt
      · rwa [touches_iff hnode]

/-- No touch since the last exit, one node later. -/
theorem untouchedSinceExit_succ_of_not_exit (hexit : ¬ node.MayOsrExit) :
    UntouchedSinceExit bb (k + 1) v ↔
      ∃ m, lastExitBefore bb k = some m ∧ ∀ j, m ≤ j → j ≤ k → ¬ Touches bb j v := by
  simp only [UntouchedSinceExit, lastExitBefore_succ_of_not_exit hnode hexit, Nat.lt_succ_iff]

/-- Behind an exit only the exit itself could have touched the value. -/
theorem untouchedSinceExit_succ_of_exit (hexit : node.MayOsrExit) :
    UntouchedSinceExit bb (k + 1) v ↔ ¬ Touches bb k v := by
  simp only [UntouchedSinceExit, lastExitBefore_succ_of_exit hnode hexit, Option.some.injEq,
    exists_eq_left']
  refine ⟨fun h => h k le_rfl (Nat.lt_succ_self k), fun h j hkj hjk => ?_⟩
  rwa [show j = k by omega]

/-- The record of last uses after a node that does not exit, and after one that does. -/
theorem Inv.use_succ (hI : Inv bb k st) {ord : ℕ}
    (hord : ord = if node.MayOsrExit then st.lastExitOrd + 1 else st.lastExitOrd) (w : Value) :
    (updateLastUse k node st).lastUseExitOrd w ≤ ord ∧
      ((updateLastUse k node st).lastUseExitOrd w ≠ 0 →
        ((updateLastUse k node st).lastUseExitOrd w < ord ↔ UntouchedSinceExit bb (k + 1) w)) := by
  by_cases hexit : node.MayOsrExit
  · rw [if_pos hexit] at hord
    rw [untouchedSinceExit_succ_of_exit hnode hexit, touches_iff hnode, hord]
    have hle := hI.use_le w
    simp only [updateLastUse, if_pos hexit]
    split_ifs with ht
    · exact ⟨le_rfl, fun _ => iff_of_false (by omega) (not_not_intro ht)⟩
    · exact ⟨by omega, fun _ => iff_of_true (by omega) ht⟩
  · rw [if_neg hexit] at hord
    rw [untouchedSinceExit_succ_of_not_exit hnode hexit, hord]
    refine ⟨?_, (hI.clock hnode).use⟩
    have hle := hI.use_le w
    simp only [updateLastUse, if_neg hexit]
    split_ifs
    · exact le_rfl
    · exact hle

/-- The Phantoms of the next node are those of its deaths. -/
theorem Inv.inserts_succ (hI : Inv bb k st) {ins : List (ℕ × Node)}
    (hins : ∀ q, q ∈ ins ↔ q ∈ st.inserts ∨ ∃ s v, DiesAt bb k s v ∧ PhantomFor bb k v q)
    (q : ℕ × Node) :
    q ∈ ins ↔ ∃ d < k + 1, ∃ s v, DiesAt bb d s v ∧ PhantomFor bb d v q := by
  rw [hins, hI.inserts]
  constructor
  · rintro (⟨d, hd, h⟩ | h)
    · exact ⟨d, Nat.lt_succ_of_lt hd, h⟩
    · exact ⟨k, Nat.lt_succ_self k, h⟩
  · rintro ⟨d, hd, h⟩
    rcases Nat.lt_succ_iff_lt_or_eq.mp hd with hlt | rfl
    · exact Or.inl ⟨d, hlt, h⟩
    · exact Or.inr h

/-- Every node so far was accepted. -/
theorem Inv.accepted_succ (hI : Inv bb k st) (hok : Accepted bb k node) :
    ∀ j < k + 1, ∀ node ∈ bb.nodes[j]?, Accepted bb j node := by
  intro j hj n hn
  rcases Nat.lt_succ_iff_lt_or_eq.mp hj with hlt | rfl
  · exact hI.accepted j hlt n hn
  · obtain rfl := Option.some.inj (hnode.symm.trans hn)
    exact hok

omit hnode in
/-- Only slots of the block hold anything. -/
theorem writes_range (hrange : ∀ s v, held bb k s = some v → s < bb.numInterpreterSlots)
    (hstore : ∀ {s}, StoresTo node s → s < bb.numInterpreterSlots) (s : ℕ) (w : Value)
    (hw : writes bb node (held bb k) s = some w) : s < bb.numInterpreterSlots := by
  by_cases hs : StoresTo node s
  · exact hstore hs
  · refine hrange s w ?_
    cases hk : node.kind with
    | shadowStore t =>
      have hne : s ≠ t := by simpa [StoresTo, hk] using hs
      simpa [writes, hk, hne] using hw
    | shadowStoreUndefToRange start len =>
      have hne : ¬ (start ≤ s ∧ s < start + len) := by simpa only [StoresTo, hk] using hs
      simpa only [writes, hk, if_neg hne] using hw
    | setLocal t =>
      by_cases hst : s = t
      · simp [writes, hk, hst] at hw
      · simpa [writes, hk, hst] using hw
    | phantom => simpa [writes, hk] using hw
    | other => simpa [writes, hk] using hw

/-- **What a node has done before its exit**: `st` is the invariant's state, `st₁` the one then. -/
structure BeforeExit (bb : BasicBlock) (k : ℕ) (node : Node) (st st₁ : State) : Prop where
  clock : Clock bb k st₁
  val : st₁.interpSlotVal = writes bb node (held bb k)
  saved : ∀ s, st₁.interpSlotSavedToDfgSlot s = true ↔ SavedBefore bb (k + 1) s
  lastExitOrd : st₁.lastExitOrd = st.lastExitOrd
  use : st₁.lastUseExitOrd = (updateLastUse k node st).lastUseExitOrd
  exitDest : st₁.lastExitDest = exitDestBefore bb k
  seen : st₁.seenBranchDest = true ↔ ∃ d, st₁.lastExitDest = some d ∧ d.IsBranchDest
  range : ∀ s w, st₁.interpSlotVal s = some w → s < bb.numInterpreterSlots
  inserts : ∀ q, q ∈ st₁.inserts ↔ q ∈ st.inserts ∨
    ∃ s v, StoresTo node s ∧ held bb k s = some v ∧ PhantomFor bb k v q
  store : ∀ {s}, StoresTo node s → s < bb.numInterpreterSlots ∧ ¬ SavedBefore bb k s
  input : ∀ {s}, node.kind = .shadowStore s → ∃ e, node.inputs = [e]
  save : ∀ {s}, Saves node s → ∃ e, node.inputs = [e] ∧ held bb k s = some e.value

/-- It is what the node's kind asks for. -/
theorem Inv.beforeExit (hI : Inv bb k st)
    (h : processNodeKind bb node (updateLastUse k node st) = some st₁) :
    BeforeExit bb k node st st₁ := by
  obtain ⟨hkind, hclock, hord, huse, hdest, hseen, hval, hsaved, hins⟩ :=
    processNodeKind_spec (hI.clock hnode) h
  change ∀ s, _ ↔ st.interpSlotSavedToDfgSlot s = true ∨ _ at hsaved
  change ∀ q, _ ↔ q ∈ st.inserts ∨ ∃ s v, _ ∧ st.interpSlotVal s = some v ∧ _ at hins
  change _ = writes bb node st.interpSlotVal at hval
  change _ = st.lastExitDest at hdest
  change _ = st.seenBranchDest at hseen
  have hstore {s : ℕ} (hs : StoresTo node s) :
      s < bb.numInterpreterSlots ∧ ¬ SavedBefore bb k s := by
    obtain ⟨hlt, hns⟩ := hkind.store hs
    refine ⟨hlt, fun hsv => ?_⟩
    rw [← hI.saved] at hsv
    exact Bool.noConfusion (hsv.symm.trans hns)
  rw [hI.val] at hval
  exact {
    clock := hclock
    val := hval
    saved := fun s => by rw [hsaved, hI.saved, savedBefore_succ hnode]
    lastExitOrd := hord
    use := huse
    exitDest := hdest.trans hI.exitDest
    seen := by rw [hseen, hdest, hI.seen]
    range := fun s w hw => by
      rw [hval] at hw
      exact writes_range hI.range (fun hs => (hstore hs).1) s w hw
    inserts := by simpa only [hI.val] using hins
    store := hstore
    input := hkind.input
    save := fun hs => by
      rw [← hI.val]
      exact hkind.save hs }

/-- A node that does not exit. -/
theorem Inv.step_of_not_exit (hI : Inv bb k st) (h : BeforeExit bb k node st st₁)
    (hexit : ¬ node.MayOsrExit) : Inv bb (k + 1) st₁ := by
  have hord : st₁.lastExitOrd =
      if node.MayOsrExit then st.lastExitOrd + 1 else st.lastExitOrd := by
    rw [if_neg hexit, h.lastExitOrd]
  exact {
    val := by
      funext s
      rw [held_succ hnode, h.val]
      simp only [hexit, false_and, if_false]
    saved := h.saved
    exitIdx := by
      rw [lastExitBefore_succ_of_not_exit hnode hexit]
      exact h.clock.exitIdx
    exitDest := by rw [exitDestBefore_succ_of_not_exit hnode hexit, h.exitDest]
    seen := h.seen
    use_le := fun w => by
      rw [h.use]
      exact (hI.use_succ hnode hord w).1
    use := fun {w} hw => by
      rw [h.use] at hw ⊢
      exact (hI.use_succ hnode hord w).2 hw
    range := fun s w hw => by
      rw [held_succ hnode] at hw
      split_ifs at hw
      exact h.range s w (by rw [h.val]; exact hw)
    inserts := hI.inserts_succ hnode fun q => by
      rw [h.inserts]
      refine or_congr_right ?_
      simp only [diesAt_iff hnode, hexit, false_and, or_false, and_assoc]
    accepted := hI.accepted_succ hnode {
      store := h.store
      input := h.input
      save := h.save
      branch := fun hex => absurd hex hexit
      known := fun hex => absurd hex hexit } }

/-- A node that exits. -/
theorem Inv.step_of_exit (hI : Inv bb k st) (h : BeforeExit bb k node st st₁)
    (hexit : node.MayOsrExit) (h₂ : handleOsrExitDest bb node.osrExitDest st₁ = some st₂) :
    Inv bb (k + 1) { st₂ with
      lastExitOrd := st₂.lastExitOrd + 1
      lastExitDest := some node.osrExitDest
      nodeIndexOfLastExitDest := some k } := by
  obtain ⟨hok, hc, hord₂, huse, hsaved, hseen, hdeaths⟩ :=
    handleOsrExitDest_spec h.clock h.seen h.range h₂
  rw [h.exitDest] at hdeaths
  have hval : st₂.interpSlotVal = held bb (k + 1) := by
    funext s
    rw [hdeaths.val, held_succ hnode, h.val]
    simp only [hexit, true_and]
  have hord : st₂.lastExitOrd + 1 =
      if node.MayOsrExit then st.lastExitOrd + 1 else st.lastExitOrd := by
    rw [if_pos hexit, hord₂, h.lastExitOrd]
  exact {
    val := hval
    saved := fun s => by rw [← h.saved, ← hsaved]
    exitIdx := (lastExitBefore_succ_of_exit hnode hexit).symm
    exitDest := (exitDestBefore_succ_of_exit hnode hexit).symm
    seen := by simpa using hseen
    use_le := fun w => by
      rw [huse, h.use]
      exact (hI.use_succ hnode hord w).1
    use := fun {w} hw => by
      rw [huse, h.use] at hw ⊢
      exact (hI.use_succ hnode hord w).2 hw
    range := fun s w hw => by
      rw [held_succ hnode] at hw
      split_ifs at hw
      exact h.range s w (by rw [h.val]; exact hw)
    inserts := hI.inserts_succ hnode fun q => by
      rw [hdeaths.inserts, h.inserts, h.val, or_assoc]
      refine or_congr_right ?_
      simp only [diesAt_iff hnode, hexit, true_and, or_and_right, exists_or, and_assoc]
    accepted := hI.accepted_succ hnode {
      store := h.store
      input := h.input
      save := h.save
      branch := fun _ {old} hold => by
        rw [← h.exitDest] at hold
        exact hok.branch hold
      known := fun _ {old s} hold hb hs hdead hlive => by
        rw [← h.exitDest] at hold
        rw [← h.saved, ← h.val]
        exact hok.known hold hb hs hdead hlive } }

/-- **One node keeps the invariant.** -/
theorem Inv.step (hI : Inv bb k st) (h : processNode bb k node st = some st') :
    Inv bb (k + 1) st' := by
  obtain ⟨st₁, h₁, h⟩ := Option.bind_eq_some_iff.mp h
  have hbefore := hI.beforeExit hnode h₁
  split_ifs at h with hexit
  · obtain ⟨st₂, h₂, rfl⟩ := Option.map_eq_some_iff.mp h
    exact hI.step_of_exit hnode hbefore hexit h₂
  · obtain rfl := Option.some.inj h
    exact hI.step_of_not_exit hnode hbefore hexit

end Step

/-- **A run keeps the invariant**, by induction on the nodes left. -/
theorem Inv.run : ∀ {rest : List Node} {k : ℕ} {st : State}, Inv bb k st → bb.nodes.drop k = rest →
    processNodes bb k rest st = some st' → k + rest.length = bb.nodes.length →
    Inv bb bb.nodes.length st'
  | [], k, st, hI, _, h, hlen => by
    obtain rfl := Option.some.inj h
    rwa [← hlen]
  | node :: rest, k, st, hI, hdrop, h, hlen => by
    obtain ⟨st₁, h₁, h⟩ := Option.bind_eq_some_iff.mp h
    have hnode : bb.nodes[k]? = some node := by
      rw [← Nat.add_zero k, ← List.getElem?_drop, hdrop]
      rfl
    refine (hI.step hnode h₁).run ?_ h (by simp only [List.length_cons] at hlen; omega)
    rw [← List.drop_drop, hdrop]
    rfl

/-- At the end of the block no node is left to use the value. -/
theorem Inv.clock_end (hI : Inv bb bb.nodes.length st) : Clock bb bb.nodes.length st where
  exitIdx := hI.exitIdx
  use := by
    intro w hw
    rw [hI.use hw]
    refine exists_congr fun m => and_congr_right fun _ =>
      ⟨fun h j hmj hj => ?_, fun h j hmj hj => h j hmj hj.le⟩
    rcases hj.lt_or_eq with hlt | rfl
    · exact h j hmj hlt
    · simp [Touches]

/-- At the end of the block every slot dies that still holds a value. -/
theorem diesAt_end {s : ℕ} :
    DiesAt bb bb.nodes.length s v ↔ held bb bb.nodes.length s = some v := by
  simp [DiesAt]

/-- A slot dies in the block or at its end. -/
theorem DiesAt.le_length {d s : ℕ} (h : DiesAt bb d s v) : d ≤ bb.nodes.length := by
  obtain ⟨node, hnode, -⟩ | ⟨rfl, -⟩ := h
  · exact (List.getElem?_eq_some_iff.mp hnode).1.le
  · exact le_rfl

/-- **What an accepted block gives**: the nodes were accepted, and the output is the block with the
`Phantom`s of all deaths. -/
theorem processBasicBlock_spec {out : List Node} (h : processBasicBlock bb = some out) :
    (∀ {j node}, bb.nodes[j]? = some node → Accepted bb j node) ∧
      ∃ inserts, out = commit inserts 0 bb.nodes ∧
        ∀ q, q ∈ inserts ↔ ∃ d s v, DiesAt bb d s v ∧ PhantomFor bb d v q := by
  simp only [processBasicBlock, testAssert_eq_some, Option.bind_eq_some_iff,
    Option.map_eq_some_iff] at h
  obtain ⟨st, hrun, -, st', hdeaths, rfl⟩ := h
  have hI : Inv bb bb.nodes.length st := Inv.init.run rfl hrun (Nat.zero_add _)
  obtain ⟨-, -, hins⟩ := processDeaths_spec hI.clock_end hdeaths
  refine ⟨fun {j node} hnode =>
    hI.accepted j (List.getElem?_eq_some_iff.mp hnode).1 node hnode, st'.inserts, rfl, fun q => ?_⟩
  rw [hins, hI.inserts, hI.val]
  constructor
  · rintro (⟨d, -, h⟩ | ⟨s, -, -, v, hv, hp⟩)
    · exact ⟨d, h⟩
    · exact ⟨_, s, v, diesAt_end.mpr hv, hp⟩
  · rintro ⟨d, s, v, hd, hp⟩
    rcases hd.le_length.lt_or_eq with hlt | rfl
    · exact Or.inl ⟨d, hlt, s, v, hd, hp⟩
    · have hv := diesAt_end.mp hd
      exact Or.inr ⟨s, List.mem_range.mpr (hI.range s v hv), rfl, v, hv, hp⟩

end PhantomInsertion

end Ir

end Dsom
