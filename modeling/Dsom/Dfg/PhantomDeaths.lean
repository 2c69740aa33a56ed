import Dsom.Dfg.PhantomInsertion
import Mathlib.Tactic.Common

/-!
# Dfg/PhantomDeaths — what one node does to the slots

What the pass is for, in terms of the block alone.  `latestShadowStore` is what each interpreter
slot holds after some nodes; `ExitValuesKept`: at every node that may exit, every value held by a
slot that is live at the destination is used by that node or a later one.  `NoUnneededPhantom`: no
`Phantom` is inserted for a value whose uses reach all of its exits anyway.

`held` and `DiesAt` say the same of the pass: which value it tracks for a slot, and where it stops.
One lemma for each operation of the pass (`processNodeKind_spec`, `handleOsrExitDest_spec`) says
which slots die and which `Phantom`s that inserts.
-/

namespace Dsom

namespace Ir

namespace PhantomInsertion

variable (bb : BasicBlock)

/-! ## What the pass is for -/

/-- The node stores a value into the slot. -/
def StoresTo (node : Node) (slot : ℕ) : Prop :=
  match node.kind with
  | .shadowStore s => slot = s
  | .shadowStoreUndefToRange start len => start ≤ slot ∧ slot < start + len
  | _ => False

/-- What a node does to the values of the slots: stores them, or saves one to a local. -/
def writes (node : Node) (held : ℕ → Option Value) : ℕ → Option Value :=
  match node.kind with
  | .shadowStore s => Function.update held s (node.inputs.head?.map Edge.value)
  | .shadowStoreUndefToRange start len => fun slot =>
    if start ≤ slot ∧ slot < start + len then some (.constant bb.undefValue) else held slot
  | .setLocal s => Function.update held s none
  | _ => held

/-- The value of the latest `ShadowStore` to each slot, unless a `SetLocal` has saved it. -/
def latestShadowStore (nodes : List Node) : ℕ → Option Value :=
  nodes.foldl (fun held node => writes bb node held) fun _ => none

/-- **Values are kept for exits.** -/
def ExitValuesKept (nodes : List Node) : Prop :=
  ∀ before node after, nodes = before ++ node :: after → node.MayOsrExit → ∀ slot v, v.IsSsa →
    bb.destLive node.osrExitDest slot = true → latestShadowStore bb before slot = some v →
    ∃ user ∈ node :: after, user.Uses v

/-- The uses of a value reach all of its exits. -/
def Covered (v : Value) : Prop :=
  ∀ before node after, bb.nodes = before ++ node :: after → node.MayOsrExit → ∀ slot,
    bb.destLive node.osrExitDest slot = true → latestShadowStore bb before slot = some v →
    ∃ user ∈ node :: after, user.Uses v

/-- **No `Phantom` is inserted for a value that its uses keep alive.** -/
def NoUnneededPhantom (out : List Node) : Prop :=
  ∀ node ∈ out, node.kind = .phantom → ∀ v, node.Uses v → ¬ Covered bb v

/-! ## How long a slot holds a value

A slot holds the value of a `ShadowStore` until the next one, a `SetLocal`, or an exit at whose
destination it is dead. -/

/-- The node at this place may exit. -/
def ExitAt (k : ℕ) : Prop := ∃ node ∈ bb.nodes[k]?, node.MayOsrExit

instance (k : ℕ) : Decidable (ExitAt bb k) := inferInstanceAs (Decidable (∃ node ∈ _, _))

/-- The last node before index `k` that may exit. -/
def lastExitBefore : ℕ → Option ℕ
  | 0 => none
  | k + 1 => if ExitAt bb k then some k else lastExitBefore k

/-- Where the last exit before this place leaves to. -/
def exitDestBefore (k : ℕ) : Option OsrExitDestination :=
  (lastExitBefore bb k).bind fun m => (bb.nodes[m]?).map Node.osrExitDest

/-- The slot stops being live at an exit: it is dead there, and this is the first exit, or the first
one to a branch destination, or the slot was live at the one before. -/
def Kills (dest : OsrExitDestination) (old : Option OsrExitDestination) (slot : ℕ) : Prop :=
  bb.destLive dest slot = false ∧
    ∀ d ∈ old, (dest.IsBranchDest → ¬ d.IsBranchDest) ∧
      (¬ dest.IsBranchDest → bb.destLive d slot = true)

instance (dest : OsrExitDestination) (old : Option OsrExitDestination) (slot : ℕ) :
    Decidable (Kills bb dest old slot) := inferInstanceAs (Decidable (_ ∧ _))

/-- What each slot holds before the node at index `k`. -/
def held : ℕ → ℕ → Option Value
  | 0, _ => none
  | k + 1, slot =>
    match bb.nodes[k]? with
    | none => held k slot
    | some node =>
      if node.MayOsrExit ∧ Kills bb node.osrExitDest (exitDestBefore bb k) slot then none
      else writes bb node (held k) slot

/-- **A slot that holds the value dies** at a node: it is overwritten or dead at the node's exit, or
the block ends. -/
def DiesAt (d slot : ℕ) (v : Value) : Prop :=
  (∃ node ∈ bb.nodes[d]?, StoresTo node slot ∧ held bb d slot = some v ∨
    node.MayOsrExit ∧ Kills bb node.osrExitDest (exitDestBefore bb d) slot ∧
      writes bb node (held bb d) slot = some v) ∨
  d = bb.nodes.length ∧ held bb d slot = some v

/-- The value is not used from the last exit before `d` up to `d`. -/
def UnusedSinceExit (d : ℕ) (v : Value) : Prop :=
  ∃ m, lastExitBefore bb d = some m ∧ ∀ j, m ≤ j → j ≤ d → ∀ node ∈ bb.nodes[j]?, ¬ node.Uses v

/-- **No slot dies too early**: a slot that dies when its value was not used since the last exit
holds a value whose uses do not reach all of its exits. -/
def NoEarlyDeath : Prop :=
  ∀ d slot v, v.IsSsa → DiesAt bb d slot v → UnusedSinceExit bb d v → ¬ Covered bb v

/-! ## Blocks the pass is run on -/

/-- **What the IR promises**: stores to slots do not exit, there are no `Phantom`s yet, operands are
defined by earlier nodes of the block, and a slot that is dead at an exit and live at a later branch
destination was written in between. -/
structure WellFormed : Prop where
  store_not_exit : ∀ node ∈ bb.nodes, ∀ slot, StoresTo node slot → ¬ node.MayOsrExit
  not_phantom : ∀ node ∈ bb.nodes, node.kind ≠ .phantom
  defined : ∀ {k} {node : Node} {n outputOrd},
    bb.nodes[k]? = some node → node.Uses (.ssa n outputOrd) → n < k
  revived : ∀ {k m slot} {node old : Node}, bb.nodes[k]? = some node → node.MayOsrExit →
    node.osrExitDest.IsBranchDest → lastExitBefore bb k = some m → bb.nodes[m]? = some old →
    bb.destLive old.osrExitDest slot = false → bb.destLive node.osrExitDest slot = true →
    ∃ j, m ≤ j ∧ j < k ∧ ∃ writer ∈ bb.nodes[j]?,
      StoresTo writer slot ∨ writer.kind = .setLocal slot

/-! ## Deaths while one node is processed

A slot dies at a store to it, or at an exit where it is no longer live. -/

variable {bb}

/-- The node at index `j` uses or outputs the value. -/
def Touches (bb : BasicBlock) (j : ℕ) (v : Value) : Prop :=
  ∃ node ∈ bb.nodes[j]?, node.Uses v ∨ node.Defines j v

/-- The `Phantom` for a value whose slot dies at index `k`. -/
def PhantomFor (bb : BasicBlock) (k : ℕ) (v : Value) (q : ℕ × Node) : Prop :=
  v.IsSsa ∧ ∃ m node, lastExitBefore bb k = some m ∧ bb.nodes[m]? = some node ∧
    (∀ j, m ≤ j → j ≤ k → ¬ Touches bb j v) ∧ q = (m + 1, Node.createPhantomNode v node)

/-- **The clock of the pass** while the node at index `k` is processed: comparing exit ordinals
tells whether a value was touched since the last exit. -/
structure Clock (bb : BasicBlock) (k : ℕ) (st : State) : Prop where
  exitIdx : st.nodeIndexOfLastExitDest = lastExitBefore bb k
  use : ∀ {v}, st.lastUseExitOrd v ≠ 0 → (st.lastUseExitOrd v < st.lastExitOrd ↔
    ∃ m, lastExitBefore bb k = some m ∧ ∀ j, m ≤ j → j ≤ k → ¬ Touches bb j v)

/-- The last exit is an exit, and before. -/
theorem exitAt_of_lastExitBefore {k m : ℕ} (h : lastExitBefore bb k = some m) :
    m < k ∧ ExitAt bb m := by
  induction k with
  | zero => cases h
  | succ k ih =>
    simp only [lastExitBefore] at h
    split_ifs at h with hk
    · obtain rfl := Option.some.inj h
      exact ⟨Nat.lt_succ_self _, hk⟩
    · obtain ⟨hlt, hm⟩ := ih h
      exact ⟨Nat.lt_succ_of_lt hlt, hm⟩

variable {k : ℕ} {st st' : State} {v : Value} {q : ℕ × Node}

/-- **The decision to insert a `Phantom`.** -/
theorem Clock.mem_phantomFor (h : Clock bb k st) {ps : List (ℕ × Node)}
    (hps : phantomFor bb st v = some ps) : q ∈ ps ↔ PhantomFor bb k v q := by
  cases v with
  | constant c =>
    obtain rfl := Option.some.inj hps
    simp [PhantomFor, Value.IsSsa]
  | ssa n o =>
    simp only [phantomFor, testAssert_eq_some] at hps
    obtain ⟨hne, hps⟩ := hps
    split_ifs at hps with hlt
    · obtain ⟨m, hm, hps⟩ := Option.bind_eq_some_iff.mp hps
      obtain ⟨node, hnode, rfl⟩ := Option.map_eq_some_iff.mp hps
      rw [h.exitIdx] at hm
      obtain ⟨m', hm', hun⟩ := (h.use hne).mp hlt
      obtain rfl := Option.some.inj (hm.symm.trans hm')
      rw [List.mem_singleton]
      constructor
      · rintro rfl
        exact ⟨trivial, m, node, hm, hnode, hun, rfl⟩
      · rintro ⟨-, m', node', hm', hnode', -, rfl⟩
        obtain rfl := Option.some.inj (hm.symm.trans hm')
        obtain rfl := Option.some.inj (hnode.symm.trans hnode')
        rfl
    · obtain rfl := Option.some.inj hps
      simp only [List.not_mem_nil, false_iff]
      rintro ⟨-, m, node, hm, -, hun, -⟩
      exact hlt ((h.use hne).mpr ⟨m, hm, hun⟩)

/-- The states agree but for the slots' values and the insertions. -/
structure SameClock (st st' : State) : Prop where
  saved : st'.interpSlotSavedToDfgSlot = st.interpSlotSavedToDfgSlot
  lastExitOrd : st'.lastExitOrd = st.lastExitOrd
  lastExitDest : st'.lastExitDest = st.lastExitDest
  exitIdx : st'.nodeIndexOfLastExitDest = st.nodeIndexOfLastExitDest
  lastUse : st'.lastUseExitOrd = st.lastUseExitOrd
  seen : st'.seenBranchDest = st.seenBranchDest

/-- From one moment to the next. -/
theorem SameClock.trans {st₁ : State} (h : SameClock st st₁) (h' : SameClock st₁ st') :
    SameClock st st' where
  saved := h'.saved.trans h.saved
  lastExitOrd := h'.lastExitOrd.trans h.lastExitOrd
  lastExitDest := h'.lastExitDest.trans h.lastExitDest
  exitIdx := h'.exitIdx.trans h.exitIdx
  lastUse := h'.lastUse.trans h.lastUse
  seen := h'.seen.trans h.seen

theorem SameClock.clock (h : SameClock st st') (hc : Clock bb k st) : Clock bb k st' where
  exitIdx := h.exitIdx.trans hc.exitIdx
  use := by
    rw [h.lastUse, h.lastExitOrd]
    exact hc.use

/-- **One death.** -/
theorem processInterpreterSlotDeath_spec {slot : ℕ} (hc : Clock bb k st)
    (h : processInterpreterSlotDeath bb slot st = some st') :
    SameClock st st' ∧ st'.interpSlotVal = Function.update st.interpSlotVal slot none ∧
      ∀ q, q ∈ st'.inserts ↔
        q ∈ st.inserts ∨ ∃ v, st.interpSlotVal slot = some v ∧ PhantomFor bb k v q := by
  simp only [processInterpreterSlotDeath, testAssert_eq_some, Option.bind_eq_some_iff,
    Option.map_eq_some_iff] at h
  obtain ⟨-, v, hv, ps, hps, rfl⟩ := h
  refine ⟨⟨rfl, rfl, rfl, rfl, rfl, rfl⟩, rfl, fun q => ?_⟩
  rw [List.mem_append, hc.mem_phantomFor hps]
  simp only [hv, Option.some.injEq, exists_eq_left']

/-- **Many deaths**, by induction on the slots. -/
theorem processDeaths_spec {dead : ℕ → Bool} : ∀ {slots : List ℕ} {st : State}, Clock bb k st →
    processDeaths bb slots dead st = some st' →
    SameClock st st' ∧
      (∀ s, st'.interpSlotVal s = if s ∈ slots ∧ dead s = true then none else st.interpSlotVal s) ∧
      ∀ q, q ∈ st'.inserts ↔ q ∈ st.inserts ∨
        ∃ s ∈ slots, dead s = true ∧ ∃ v, st.interpSlotVal s = some v ∧ PhantomFor bb k v q
  | [], st, _, h => by
    obtain rfl := Option.some.inj h
    exact ⟨⟨rfl, rfl, rfl, rfl, rfl, rfl⟩, by simp, by simp⟩
  | slot :: slots, st, hc, h => by
    simp only [processDeaths, List.foldlM_cons] at h
    obtain ⟨st₁, h₁, h⟩ := Option.bind_eq_some_iff.mp h
    -- the first slot dies, or holds nothing, or is not dead
    have hhead : SameClock st st₁ ∧
        (∀ s, st₁.interpSlotVal s =
          if s = slot ∧ dead s = true then none else st.interpSlotVal s) ∧
        ∀ q, q ∈ st₁.inserts ↔ q ∈ st.inserts ∨
          dead slot = true ∧ ∃ v, st.interpSlotVal slot = some v ∧ PhantomFor bb k v q := by
      split_ifs at h₁ with hd
      · obtain ⟨hsame, hval, hins⟩ := processInterpreterSlotDeath_spec hc h₁
        refine ⟨hsame, fun s => ?_, fun q => by rw [hins]; simp only [hd.2, true_and]⟩
        rw [hval]
        by_cases hs : s = slot
        · subst hs
          simp [hd.2]
        · simp [hs]
      · obtain rfl := Option.some.inj h₁
        refine ⟨⟨rfl, rfl, rfl, rfl, rfl, rfl⟩, fun s => ?_, fun q => ?_⟩
        · split_ifs with hs
          · obtain ⟨rfl, hdead⟩ := hs
            simpa [hdead] using hd
          · rfl
        · refine ⟨Or.inl, ?_⟩
          rintro (hq | ⟨hdead, v, hv, -⟩)
          · exact hq
          · exact absurd ⟨by simp [hv], hdead⟩ hd
    obtain ⟨hsame, hval, hins⟩ := hhead
    obtain ⟨hsame', hval', hins'⟩ := processDeaths_spec (hsame.clock hc) h
    refine ⟨hsame.trans hsame', fun s => ?_, fun q => ?_⟩
    · rw [hval', hval]
      by_cases hd : dead s = true
      · by_cases hs : s = slot
        · subst hs
          simp [hd]
        · simp [hs, hd]
      · simp [hd]
    · rw [hins', hins]
      constructor
      · rintro ((hq | ⟨hd, v, hv, hp⟩) | ⟨s, hs, hd, v, hv, hp⟩)
        · exact Or.inl hq
        · exact Or.inr ⟨slot, by simp, hd, v, hv, hp⟩
        · rw [hval] at hv
          split_ifs at hv with hslot
          exact Or.inr ⟨s, List.mem_cons_of_mem _ hs, hd, v, hv, hp⟩
      · rintro (hq | ⟨s, hs, hd, v, hv, hp⟩)
        · exact Or.inl (Or.inl hq)
        · by_cases hslot : s = slot
          · subst hslot
            exact Or.inl (Or.inr ⟨hd, v, hv, hp⟩)
          · refine Or.inr ⟨s, (List.mem_cons.mp hs).resolve_left hslot, hd, v, ?_, hp⟩
            rw [hval, if_neg (fun h => hslot h.1), hv]

/-! ## One node -/

/-- What the record of saved slots gains from a node. -/
def Saves (node : Node) (slot : ℕ) : Prop := node.kind = .setLocal slot

/-- The node was accepted: it stores to slots that are not saved, and saves what a slot holds. -/
structure KindOK (bb : BasicBlock) (node : Node) (st : State) : Prop where
  store : ∀ {slot}, StoresTo node slot →
    slot < bb.numInterpreterSlots ∧ st.interpSlotSavedToDfgSlot slot = false
  input : ∀ {slot}, node.kind = .shadowStore slot → ∃ e, node.inputs = [e]
  save : ∀ {slot}, Saves node slot → ∃ e, node.inputs = [e] ∧ st.interpSlotVal slot = some e.value

/-- A shadow store ends the life of the value that was there. -/
theorem processShadowStore_spec {slot : ℕ} {value : Value} (hc : Clock bb k st)
    (h : processShadowStore bb slot value st = some st') :
    slot < bb.numInterpreterSlots ∧ st.interpSlotSavedToDfgSlot slot = false ∧ SameClock st st' ∧
      st'.interpSlotVal = Function.update st.interpSlotVal slot (some value) ∧
      ∀ q, q ∈ st'.inserts ↔
        q ∈ st.inserts ∨ ∃ v, st.interpSlotVal slot = some v ∧ PhantomFor bb k v q := by
  simp only [processShadowStore, testAssert_eq_some, Option.map_eq_some_iff] at h
  obtain ⟨⟨hlt, hsaved⟩, st₁, h₁, rfl⟩ := h
  refine ⟨hlt, hsaved, ?_⟩
  split_ifs at h₁ with hsome
  · obtain ⟨hsame, hval, hins⟩ := processInterpreterSlotDeath_spec hc h₁
    refine ⟨⟨hsame.1, hsame.2, hsame.3, hsame.4, hsame.5, hsame.6⟩, ?_, hins⟩
    rw [hval, Function.update_idem]
  · obtain rfl := Option.some.inj h₁
    refine ⟨⟨rfl, rfl, rfl, rfl, rfl, rfl⟩, rfl, fun q => ?_⟩
    rw [Option.not_isSome_iff_eq_none.mp hsome]
    simp

/-- A range of stores, by induction on its length. -/
theorem processRange_spec {start : ℕ} {value : Value} (hc : Clock bb k st) : ∀ {len : ℕ}
    {st' : State},
    (List.range len).foldlM (fun st i => processShadowStore bb (start + i) value st) st = some st' →
    (∀ slot, start ≤ slot → slot < start + len →
      slot < bb.numInterpreterSlots ∧ st.interpSlotSavedToDfgSlot slot = false) ∧ SameClock st st' ∧
      (∀ s, st'.interpSlotVal s =
        if start ≤ s ∧ s < start + len then some value else st.interpSlotVal s) ∧
      ∀ q, q ∈ st'.inserts ↔ q ∈ st.inserts ∨ ∃ s v, (start ≤ s ∧ s < start + len) ∧
        st.interpSlotVal s = some v ∧ PhantomFor bb k v q
  | 0, st', h => by
    obtain rfl := Option.some.inj h
    refine ⟨fun slot hge hlt => ?_, ⟨rfl, rfl, rfl, rfl, rfl, rfl⟩, fun s => ?_, fun q => ?_⟩
    · omega
    · rw [if_neg (by omega)]
    · refine ⟨Or.inl, ?_⟩
      rintro (hq | ⟨s, v, hs, -⟩)
      · exact hq
      · omega
  | len + 1, st', h => by
    rw [List.range_succ, List.foldlM_append] at h
    obtain ⟨st₁, h₁, h⟩ := Option.bind_eq_some_iff.mp h
    obtain ⟨st₂, h₂, h⟩ := Option.bind_eq_some_iff.mp h
    obtain rfl := Option.some.inj h
    obtain ⟨hok, hsame, hval, hins⟩ := processRange_spec hc h₁
    obtain ⟨hlt, hsaved, hsame', hval', hins'⟩ := processShadowStore_spec (hsame.clock hc) h₂
    refine ⟨fun slot hge hslot => ?_, hsame.trans hsame', fun s => ?_, fun q => ?_⟩
    · by_cases hlast : slot = start + len
      · subst hlast
        exact ⟨hlt, by rwa [hsame.saved] at hsaved⟩
      · exact hok slot hge (by omega)
    · rw [hval']
      by_cases hlast : s = start + len
      · subst hlast
        rw [Function.update_self, if_pos (by omega)]
      · rw [Function.update_of_ne hlast, hval]
        exact if_congr (by omega) rfl rfl
    · rw [hins', hins, hval, if_neg (by omega)]
      constructor
      · rintro ((hq | ⟨s, v, hs, hv, hp⟩) | ⟨v, hv, hp⟩)
        · exact Or.inl hq
        · exact Or.inr ⟨s, v, ⟨hs.1, by omega⟩, hv, hp⟩
        · exact Or.inr ⟨start + len, v, by omega, hv, hp⟩
      · rintro (hq | ⟨s, v, hs, hv, hp⟩)
        · exact Or.inl (Or.inl hq)
        · by_cases hlast : s = start + len
          · subst hlast
            exact Or.inr ⟨v, hv, hp⟩
          · exact Or.inl (Or.inr ⟨s, v, ⟨hs.1, by omega⟩, hv, hp⟩)

/-- **What a node does to the slots.** -/
theorem processNodeKind_spec {node : Node} (hc : Clock bb k st)
    (h : processNodeKind bb node st = some st') :
    KindOK bb node st ∧ Clock bb k st' ∧ st'.lastExitOrd = st.lastExitOrd ∧
      st'.lastUseExitOrd = st.lastUseExitOrd ∧ st'.lastExitDest = st.lastExitDest ∧
      st'.seenBranchDest = st.seenBranchDest ∧ st'.interpSlotVal = writes bb node st.interpSlotVal ∧
      (∀ s, st'.interpSlotSavedToDfgSlot s = true ↔
        st.interpSlotSavedToDfgSlot s = true ∨ Saves node s) ∧
      ∀ q, q ∈ st'.inserts ↔ q ∈ st.inserts ∨
        ∃ s v, StoresTo node s ∧ st.interpSlotVal s = some v ∧ PhantomFor bb k v q := by
  unfold processNodeKind at h
  split at h
  · next slot hkind =>
    split at h
    · next e hin =>
      obtain ⟨hlt, hsaved, hsame, hval, hins⟩ := processShadowStore_spec hc h
      refine ⟨⟨fun hs => ?_, fun _ => ⟨e, hin⟩, fun hs => ?_⟩, hsame.clock hc, hsame.lastExitOrd,
        hsame.lastUse, hsame.lastExitDest, hsame.seen, ?_, fun s => ?_, fun q => ?_⟩
      · simp only [StoresTo, hkind] at hs
        exact hs ▸ ⟨hlt, hsaved⟩
      · simp [Saves, hkind] at hs
      · rw [hval]
        simp [writes, hkind, hin]
      · simp [hsame.saved, Saves, hkind]
      · rw [hins]
        simp [StoresTo, hkind]
    · cases h
  · next start len hkind =>
    obtain ⟨hok, hsame, hval, hins⟩ := processRange_spec hc h
    refine ⟨⟨fun hs => ?_, fun hs => ?_, fun hs => ?_⟩, hsame.clock hc, hsame.lastExitOrd,
      hsame.lastUse, hsame.lastExitDest, hsame.seen, ?_, fun s => ?_, fun q => ?_⟩
    · simp only [StoresTo, hkind] at hs
      exact hok _ hs.1 hs.2
    · simp [hkind] at hs
    · simp [Saves, hkind] at hs
    · funext s
      rw [hval]
      simp [writes, hkind]
    · simp [hsame.saved, Saves, hkind]
    · rw [hins]
      simp [StoresTo, hkind]
  · next slot hkind =>
    split at h
    · next e hin =>
      simp only [testAssert_eq_some, Option.some.injEq] at h
      obtain ⟨⟨hlt, hsaved⟩, hval, rfl⟩ := h
      refine ⟨⟨fun hs => ?_, fun hs => ?_, fun hs => ?_⟩, ⟨hc.exitIdx, hc.use⟩, rfl, rfl, rfl, rfl,
        ?_, fun s => ?_, fun q => ?_⟩
      · simp [StoresTo, hkind] at hs
      · simp [hkind] at hs
      · simp only [Saves, hkind, NodeKind.setLocal.injEq] at hs
        exact ⟨e, hin, hs ▸ hval⟩
      · simp [writes, hkind]
      · by_cases hs : s = slot
        · subst hs
          simp [Saves, hkind]
        · have hs' : slot ≠ s := fun heq => hs heq.symm
          simp [Saves, hkind, hs, hs']
      · simp [StoresTo, hkind]
    · cases h
  · next h₁ h₂ h₃ =>
    obtain rfl := Option.some.inj h
    have hkind : node.kind = .phantom ∨ node.kind = .other := by
      cases hk : node.kind with
      | shadowStore s => exact absurd hk (h₁ s)
      | shadowStoreUndefToRange start len => exact absurd hk (h₂ start len)
      | setLocal s => exact absurd hk (h₃ s)
      | phantom => exact Or.inl rfl
      | other => exact Or.inr rfl
    refine ⟨⟨fun {s} hs => ?_, fun {s} hs => absurd hs (h₁ s), fun {s} hs => absurd hs (h₃ s)⟩, hc,
      rfl, rfl, rfl, rfl, ?_, fun s => ?_, fun q => ?_⟩
    · rcases hkind with hkind | hkind <;> simp [StoresTo, hkind] at hs
    · rcases hkind with hkind | hkind <;> simp [writes, hkind]
    · rcases hkind with hkind | hkind <;> simp [Saves, hkind]
    · rcases hkind with hkind | hkind <;> simp [StoresTo, hkind]

/-! ## One exit

Where the exit leaves to decides which slots are compared with the exit before. -/

/-- Exactly the slots that stop being live die. -/
structure Deaths (bb : BasicBlock) (k : ℕ) (dead : ℕ → Prop) [DecidablePred dead] (st st' : State) :
    Prop where
  val : ∀ s, st'.interpSlotVal s = if dead s then none else st.interpSlotVal s
  inserts : ∀ q, q ∈ st'.inserts ↔ q ∈ st.inserts ∨
    ∃ s v, dead s ∧ st.interpSlotVal s = some v ∧ PhantomFor bb k v q

/-- The deaths of the slots in a list. -/
theorem processDeaths_deaths {slots : List ℕ} {dead : ℕ → Bool} {P : ℕ → Prop} [DecidablePred P]
    (hc : Clock bb k st) (hP : ∀ s v,
    st.interpSlotVal s = some v → (s ∈ slots ∧ dead s = true ↔ P s))
    (h : processDeaths bb slots dead st = some st') : SameClock st st' ∧ Deaths bb k P st st' := by
  obtain ⟨hsame, hval, hins⟩ := processDeaths_spec hc h
  refine ⟨hsame, fun s => ?_, fun q => ?_⟩
  · rw [hval]
    cases hs : st.interpSlotVal s with
    | none => simp
    | some v => exact if_congr (hP s v hs) rfl rfl
  · rw [hins]
    refine or_congr_right ⟨?_, ?_⟩
    · rintro ⟨s, hs, hd, v, hv, hp⟩
      exact ⟨s, v, (hP s v hv).mp ⟨hs, hd⟩, hv, hp⟩
    · rintro ⟨s, v, hs, hv, hp⟩
      obtain ⟨hs, hd⟩ := (hP s v hv).mpr hs
      exact ⟨s, hs, hd, v, hv, hp⟩

theorem Deaths.refl {P : ℕ → Prop} [DecidablePred P] (hP : ∀ s, ¬ P s) : Deaths bb k P st st where
  val s := by rw [if_neg (hP s)]
  inserts q := by simp [hP]

/-- The exit was accepted: after a branch destination there is no other, and a slot that becomes
live between two code origins is known. -/
structure ExitOK (bb : BasicBlock) (dest : OsrExitDestination) (st : State) : Prop where
  branch : ∀ {old}, st.lastExitDest = some old → old.IsBranchDest → dest = old
  known : ∀ {old s}, st.lastExitDest = some old → ¬ dest.IsBranchDest → s < bb.numInterpreterSlots →
    bb.destLive old s = false → bb.destLive dest s = true → st.Known s

/-- Two code origins of one frame differ in the liveness of its locals only. -/
theorem isLive_sameFrame {old new : CodeOrigin}
    (hframe : old.inlinedCallFrame = new.inlinedCallFrame)
    {s : ℕ} (hne : bb.isLive old s ≠ bb.isLive new s) :
    let f := bb.frames old.inlinedCallFrame
    f.baseInterpreterFrameSlot ≤ s ∧ s - f.baseInterpreterFrameSlot < f.numBytecodeLocals := by
  simp only [BasicBlock.isLive, ← hframe] at hne ⊢
  split_ifs at hne with hbase hlocal
  · exact absurd rfl hne
  · exact absurd rfl hne
  · exact ⟨Nat.not_lt.mp hbase, Nat.not_le.mp hlocal⟩

/-- A local of the frame is live where its bytecode says. -/
theorem isLive_local {origin : CodeOrigin} {s : ℕ}
    (hbase : (bb.frames origin.inlinedCallFrame).baseInterpreterFrameSlot ≤ s)
    (hlocal : s - (bb.frames origin.inlinedCallFrame).baseInterpreterFrameSlot <
      (bb.frames origin.inlinedCallFrame).numBytecodeLocals) :
    bb.isLive origin s = (bb.frames origin.inlinedCallFrame).codeBlock.liveness origin.bytecodeIndex
      .beforeUse (s - (bb.frames origin.inlinedCallFrame).baseInterpreterFrameSlot) := by
  simp only [BasicBlock.isLive]
  rw [if_neg (Nat.not_lt.mpr hbase), if_neg (Nat.not_le.mpr hlocal)]

theorem mem_locals {f : InlinedCallFrame} {s : ℕ} :
    s ∈ (List.range f.numBytecodeLocals).map (f.baseInterpreterFrameSlot + ·) ↔
      f.baseInterpreterFrameSlot ≤ s ∧ s - f.baseInterpreterFrameSlot < f.numBytecodeLocals := by
  simp only [List.mem_map, List.mem_range]
  constructor
  · rintro ⟨i, hi, rfl⟩
    omega
  · rintro ⟨hbase, hlocal⟩
    exact ⟨s - f.baseInterpreterFrameSlot, hlocal, by omega⟩

/-- **What an exit leads to**: the slots that stop being live die. -/
structure Exited (bb : BasicBlock) (k : ℕ) (dest : OsrExitDestination) (st st' : State) : Prop where
  ok : ExitOK bb dest st
  clock : Clock bb k st'
  lastExitOrd : st'.lastExitOrd = st.lastExitOrd
  lastUse : st'.lastUseExitOrd = st.lastUseExitOrd
  saved : st'.interpSlotSavedToDfgSlot = st.interpSlotSavedToDfgSlot
  seen : st'.seenBranchDest = true ↔ dest.IsBranchDest
  deaths : Deaths bb k (Kills bb dest st.lastExitDest) st st'

section Exit

variable (hc : Clock bb k st)
  (hseen : st.seenBranchDest = true ↔ ∃ d, st.lastExitDest = some d ∧ d.IsBranchDest)
  (hrange : ∀ s v, st.interpSlotVal s = some v → s < bb.numInterpreterSlots)

include hc hseen hrange

/-- **An exit to the destination of a branch**: the tail of the block decides. -/
theorem exited_branch {origin : CodeOrigin}
    (h : handleOsrExitDest bb (.branch origin) st = some st') :
    Exited bb k (.branch origin) st st' := by
  simp only [handleOsrExitDest, testAssert_eq_some] at h
  obtain ⟨hsame, h⟩ := h
  have hok : ExitOK bb (.branch origin) st := by
    refine ⟨fun {old} hold hb => ?_, fun {old s} _ hb => absurd trivial hb⟩
    have hlast := hsame (hseen.mpr ⟨old, hold, hb⟩)
    exact Option.some.inj (hlast.symm.trans hold)
  split_ifs at h with hs
  · -- the slots died at the first such exit
    obtain rfl := Option.some.inj h
    obtain ⟨d, hd, hb⟩ := hseen.mp hs
    refine ⟨hok, hc, rfl, rfl, rfl, by simp [hs, OsrExitDestination.IsBranchDest],
      .refl fun s hk => ?_⟩
    exact (hk.2 d hd).1 trivial hb
  · have hcl : Clock bb k { st with seenBranchDest := true } := ⟨hc.exitIdx, hc.use⟩
    have hP : ∀ s v, st.interpSlotVal s = some v →
        (s ∈ allSlots bb ∧ (!(bb.tail s).isLive) = true ↔
          Kills bb (.branch origin) st.lastExitDest s) := by
      intro s v hv
      have hlt := hrange s v hv
      simp only [allSlots, List.mem_range, hlt, true_and, Kills, BasicBlock.destLive,
        Bool.not_eq_true']
      refine ⟨fun hdead => ⟨hdead, fun d hd => ⟨fun _ hb => ?_, fun hb => absurd trivial hb⟩⟩,
        And.left⟩
      exact hs (hseen.mpr ⟨d, hd, hb⟩)
    obtain ⟨hsc, hdeaths⟩ := processDeaths_deaths hcl hP h
    refine ⟨hok, hsc.clock hcl, hsc.lastExitOrd, hsc.lastUse, hsc.saved, ?_,
      ⟨hdeaths.val, hdeaths.inserts⟩⟩
    simp [hsc.seen, OsrExitDestination.IsBranchDest]

section Normal

variable {old new : CodeOrigin} (hnotSeen : st.seenBranchDest = false)

include hnotSeen

omit hc hrange in
/-- No destination of a branch was seen, so every other destination is accepted. -/
theorem eq_of_isBranchDest {dest old : OsrExitDestination} (hold : st.lastExitDest = some old)
    (hb : old.IsBranchDest) : dest = old := by
  rw [hseen.mpr ⟨old, hold, hb⟩] at hnotSeen
  cases hnotSeen

/-- **The first exit** of the block: what is not live there dies. -/
theorem exited_first (hnone : st.lastExitDest = none)
    (h : processDeaths bb (allSlots bb) (fun slot => !bb.isLive new slot) st = some st') :
    Exited bb k (.normal new) st st' := by
  have hP : ∀ s v, st.interpSlotVal s = some v →
      (s ∈ allSlots bb ∧ (!bb.isLive new s) = true ↔
        Kills bb (.normal new) st.lastExitDest s) := by
    intro s v hv
    simp [allSlots, hrange s v hv, Kills, hnone, BasicBlock.destLive]
  obtain ⟨hsc, hdeaths⟩ := processDeaths_deaths hc hP h
  exact ⟨⟨eq_of_isBranchDest hseen hnotSeen, fun hold => by rw [hnone] at hold; cases hold⟩,
    hsc.clock hc, hsc.lastExitOrd, hsc.lastUse, hsc.saved,
    by simp [hsc.seen, hnotSeen, OsrExitDestination.IsBranchDest], hdeaths⟩

variable (hold : st.lastExitDest = some (.normal old))

include hold

omit hc hseen hrange hnotSeen in
/-- Between two plain exits, a slot dies where it is no longer live. -/
theorem kills_normal_iff (s : ℕ) : Kills bb (.normal new) st.lastExitDest s ↔
    bb.isLive old s = true ∧ bb.isLive new s = false := by
  simp [Kills, hold, BasicBlock.destLive, OsrExitDestination.IsBranchDest, and_comm]

omit hc hrange in
/-- A plain exit can be handled where the slots that come to life are known. -/
theorem exitOK_normal (hknown : ∀ s < bb.numInterpreterSlots, bb.isLive old s = false →
    bb.isLive new s = true → st.Known s) : ExitOK bb (.normal new) st := by
  refine ⟨eq_of_isBranchDest hseen hnotSeen, fun {old' s} hold' _ hs hdead hlive => ?_⟩
  obtain rfl := Option.some.inj (hold.symm.trans hold')
  exact hknown s hs hdead hlive

omit hrange in
/-- **The same code origin again**: nothing dies. -/
theorem exited_same (heq : new = old) : Exited bb k (.normal new) st st := by
  refine ⟨exitOK_normal hseen hnotSeen hold fun s _ hdead hlive => ?_, hc, rfl, rfl, rfl,
    by simp [hnotSeen, OsrExitDestination.IsBranchDest], .refl fun s hk => ?_⟩
  · rw [heq, hdead] at hlive
    cases hlive
  · obtain ⟨hlive, hdead⟩ := (kills_normal_iff hold s).mp hk
    rw [heq, hlive] at hdead
    cases hdead

/-- **Another frame**: all slots are compared. -/
theorem exited_otherFrame (hknown : ∀ slot < bb.numInterpreterSlots, bb.isLive old slot = false →
      bb.isLive new slot = true → st.Known slot)
    (h : processDeaths bb (allSlots bb) (fun slot => bb.isLive old slot && !bb.isLive new slot) st =
      some st') : Exited bb k (.normal new) st st' := by
  have hP : ∀ s v, st.interpSlotVal s = some v →
      (s ∈ allSlots bb ∧ (bb.isLive old s && !bb.isLive new s) = true ↔
        Kills bb (.normal new) st.lastExitDest s) := by
    intro s v hv
    rw [kills_normal_iff hold s]
    simp [allSlots, hrange s v hv]
  obtain ⟨hsc, hdeaths⟩ := processDeaths_deaths hc hP h
  exact ⟨exitOK_normal hseen hnotSeen hold hknown, hsc.clock hc, hsc.lastExitOrd, hsc.lastUse,
    hsc.saved, by simp [hsc.seen, hnotSeen, OsrExitDestination.IsBranchDest], hdeaths⟩

omit hrange in
/-- **The same frame**: the locals of the frame are compared, by the liveness of its code block; no
other slot can differ. -/
theorem exited_sameFrame (hframe : old.inlinedCallFrame = new.inlinedCallFrame) :
    let f := bb.frames old.inlinedCallFrame
    let liveness := fun origin slot => f.codeBlock.liveness (CodeOrigin.bytecodeIndex origin)
      .beforeUse (slot - f.baseInterpreterFrameSlot)
    let locals := (List.range f.numBytecodeLocals).map (f.baseInterpreterFrameSlot + ·)
    (∀ slot ∈ locals, liveness new slot = true → liveness old slot = false → st.Known slot) →
    processDeaths bb locals (fun slot => liveness old slot && !liveness new slot) st = some st' →
    Exited bb k (.normal new) st st' := by
  intro f liveness locals hknown h
  have hlocal : ∀ {s}, s ∈ locals → bb.isLive old s = liveness old s ∧
      bb.isLive new s = liveness new s := by
    intro s hs
    obtain ⟨hbase, hlt⟩ := mem_locals.mp hs
    refine ⟨isLive_local hbase hlt, ?_⟩
    simp only [liveness, f]
    simp only [f, hframe] at hbase hlt ⊢
    exact isLive_local hbase hlt
  have hmem : ∀ {s}, bb.isLive old s ≠ bb.isLive new s → s ∈ locals :=
    fun hne => mem_locals.mpr (isLive_sameFrame hframe hne)
  have hP : ∀ s v, st.interpSlotVal s = some v →
      (s ∈ locals ∧ (liveness old s && !liveness new s) = true ↔
        Kills bb (.normal new) st.lastExitDest s) := by
    intro s v hv
    rw [kills_normal_iff hold s]
    constructor
    · rintro ⟨hs, hd⟩
      obtain ⟨ho, hn⟩ := hlocal hs
      simpa [ho, hn] using hd
    · rintro ⟨ho, hn⟩
      have hs := hmem (by rw [ho, hn]; exact Bool.noConfusion)
      obtain ⟨ho', hn'⟩ := hlocal hs
      exact ⟨hs, by simp [← ho', ← hn', ho, hn]⟩
  obtain ⟨hsc, hdeaths⟩ := processDeaths_deaths hc hP h
  refine ⟨exitOK_normal hseen hnotSeen hold fun s _ hdead hlive => ?_, hsc.clock hc,
    hsc.lastExitOrd, hsc.lastUse, hsc.saved,
    by simp [hsc.seen, hnotSeen, OsrExitDestination.IsBranchDest], hdeaths⟩
  have hs := hmem (by rw [hdead, hlive]; exact Bool.noConfusion)
  obtain ⟨ho', hn'⟩ := hlocal hs
  exact hknown s hs (hn' ▸ hlive) (ho' ▸ hdead)

end Normal

/-- **An exit**: the slots that stop being live die, whichever way the pass compares the liveness.
-/
theorem handleOsrExitDest_spec {dest : OsrExitDestination}
    (h : handleOsrExitDest bb dest st = some st') : Exited bb k dest st st' := by
  cases dest with
  | branch origin => exact exited_branch hc hseen hrange h
  | normal new =>
    simp only [handleOsrExitDest, testAssert_eq_some] at h
    obtain ⟨-, hnotSeen, h⟩ := h
    split at h
    · next hnone => exact exited_first hc hseen hrange hnotSeen hnone h
    · cases h
    · next old hold =>
      split_ifs at h with heq hframe
      · obtain rfl := Option.some.inj h
        exact exited_same hc hseen hnotSeen hold heq
      · obtain ⟨hknown, h⟩ := testAssert_eq_some.mp h
        exact exited_sameFrame hc hseen hnotSeen hold hframe hknown h
      · obtain ⟨hknown, h⟩ := testAssert_eq_some.mp h
        exact exited_otherFrame hc hseen hrange hnotSeen hold hknown h

end Exit

end PhantomInsertion

end Ir

end Dsom
