import Dsom.Ssa.Invariant

/-!
# Ssa/Exact — which loads and stores stay

A store flows to a load if there is a way from the one to the other on which the local is not
stored (`FlowsTo`).  The pass removes exactly the loads to which no store flows, and exactly the
stores that flow to no load and that the bytecode does not need (`stays_iff`); so it leaves the
relation as it was.
-/

namespace Dsom

namespace LocalSsa

section Ways

variable (g : Graph) (node : ℕ → Node) (i : ℕ)

/-- One step of a way that goes through a block in which the local is not stored. -/
def Passes (a b : ℕ) : Prop := a ∈ g.cfg.blocks ∧ ¬ Stores g node i a ∧ b ∈ g.cfg.successors a

/-- A way from the end of a block to the head of one. -/
def Way (a b : ℕ) : Prop :=
  a ∈ g.cfg.blocks ∧ ∃ succ ∈ g.cfg.successors a, Relation.ReflTransGen (Passes g node i) succ b

/-- **A store flows to a load.**  In a block in canonical form loads come before stores. -/
def FlowsTo (m n : ℕ) : Prop :=
  ∃ i a b, IsStore g node (g.cfg.nodes a) i m ∧ Way g node i a b ∧ b ∈ g.cfg.blocks ∧
    IsLoad g node (g.cfg.nodes b) i n

end Ways

section Lemmas

variable {g : Graph} {node : ℕ → Node} {i a b n n' : ℕ} {source : ℕ → Prop}

/-- What flows into a block comes along a way. -/
theorem flows_iff_way : Flows g node i source b ↔ ∃ a, source a ∧ Way g node i a b := by
  constructor
  · intro h
    induction h with
    | start ha hsource hsucc => exact ⟨_, hsource, ha, _, hsucc, .refl⟩
    | pass ha _ hnot hsucc ih =>
      obtain ⟨a, hsource, hlive, succ, hin, hchain⟩ := ih
      exact ⟨a, hsource, hlive, succ, hin, hchain.tail ⟨ha, hnot, hsucc⟩⟩
  · rintro ⟨a, hsource, ha, succ, hsucc, hchain⟩
    induction hchain with
    | refl => exact .start ha hsource hsucc
    | tail _ hstep ih => exact .pass hstep.1 ih hstep.2.1 hstep.2.2

/-- Once a local was stored, a store flows everywhere. -/
theorem Flows.next (h : Flows g node i (Stores g node i) a) (ha : a ∈ g.cfg.blocks)
    (hb : b ∈ g.cfg.successors a) : Flows g node i (Stores g node i) b := by
  by_cases hstores : Stores g node i a
  · exact .start ha hstores hb
  · exact .pass ha h hstores hb

/-- A load is of one local. -/
theorem IsLoad.local_eq {l l' : List ℕ} {i' : ℕ} (h : IsLoad g node l i n)
    (h' : IsLoad g node l' i' n) : i' = i := by
  obtain ⟨-, ident, hkind, rfl⟩ := h
  obtain ⟨-, ident', hkind', rfl⟩ := h'
  cases hkind.symm.trans hkind'
  rfl

end Lemmas

section Outcome

variable {g : Graph} {s₁ s s' s'' : State} {i a b m n p : ℕ}

/-- A load to which a store flows is one of a local that is needed. -/
theorem Outcome.needed_of_flows (h : Outcome g s₁ s s' s'') (hb : b ∈ g.cfg.blocks)
    (hn : IsLoad g s₁.node (g.cfg.nodes b) i n)
    (hflows : Flows g s₁.node i (Stores g s₁.node i) b) :
    Needed s b i ∧ deadLoad s' n = false := by
  obtain ⟨p, -, hat, hlt, rfl, rfl, heq⟩ := h.phi_of_load hb hn
  have hsee := (h.flagged.canSee p hlt).mpr hflows
  rw [hsee] at heq
  exact ⟨⟨p, hat, hsee⟩, heq⟩

/-- On a way to a local that is needed, the local is needed. -/
theorem Outcome.needed_of_way (h : Outcome g s₁ s s' s'') (hwf : g.WellFormed)
    (hflows : Flows g s₁.node i (Stores g s₁.node i) a)
    (hway : Relation.ReflTransGen (Passes g s''.node i) a b) (hneeded : Needed s b i) :
    Needed s a i ∧ Relation.ReflTransGen (Passes g s₁.node i) a b := by
  induction hway using Relation.ReflTransGen.head_induction_on with
  | refl => exact ⟨hneeded, .refl⟩
  | @head x y hstep _ ih =>
    obtain ⟨ha, hnot, hsucc⟩ := hstep
    obtain ⟨hnext, hchain⟩ := ih (hflows.next ha hsucc)
    have hnot₁ : ¬ Stores g s₁.node i x := by
      rintro ⟨m, hm⟩
      exact hnot ⟨m, (h.isStore_iff ha).mpr ⟨hm, h.store_of_needed hwf ha hsucc hnext hm⟩⟩
    exact ⟨h.needed_before hwf ha hsucc hnext hnot₁ hflows, .head ⟨ha, hnot₁, hsucc⟩ hchain⟩

/-- The stores that were removed block no way. -/
theorem Outcome.passes (h : Outcome g s₁ s s' s'') (hstep : Passes g s₁.node i a b) :
    Passes g s''.node i a b := by
  obtain ⟨ha, hnot, hsucc⟩ := hstep
  refine ⟨ha, ?_, hsucc⟩
  rintro ⟨m, hm⟩
  exact hnot ⟨m, ((h.isStore_iff ha).mp hm).1⟩

/-- **The relation** is left as it was. -/
theorem Outcome.flowsTo_iff (h : Outcome g s₁ s s' s'') (hwf : g.WellFormed) :
    FlowsTo g s''.node m n ↔ FlowsTo g s₁.node m n := by
  constructor
  · rintro ⟨i, a, b, hm, ⟨ha, succ, hsucc, hchain⟩, hb, hn⟩
    obtain ⟨hm₁, -⟩ := (h.isStore_iff ha).mp hm
    obtain ⟨hn₁, hdead⟩ := (h.isLoad_iff hb).mp hn
    obtain ⟨-, hchain₁⟩ := h.needed_of_way hwf (.start ha ⟨m, hm₁⟩ hsucc) hchain
      (h.needed_of_load hb hn₁ hdead)
    exact ⟨i, a, b, hm₁, ⟨ha, succ, hsucc, hchain₁⟩, hb, hn₁⟩
  · rintro ⟨i, a, b, hm, ⟨ha, succ, hsucc, hchain⟩, hb, hn⟩
    have hflows : Flows g s₁.node i (Stores g s₁.node i) b :=
      flows_iff_way.mpr ⟨a, ⟨m, hm⟩, ha, succ, hsucc, hchain⟩
    obtain ⟨hneeded, hdead⟩ := h.needed_of_flows hb hn hflows
    have hchain' : Relation.ReflTransGen (Passes g s''.node i) succ b :=
      hchain.lift id fun _ _ => h.passes
    have hsuccNeeded := (h.needed_of_way hwf (.start ha ⟨m, hm⟩ hsucc) hchain' hneeded).1
    exact ⟨i, a, b,
      (h.isStore_iff ha).mpr ⟨hm, h.store_of_needed hwf ha hsucc hsuccNeeded hm⟩,
      ⟨ha, succ, hsucc, hchain'⟩, hb, (h.isLoad_iff hb).mpr ⟨hn, hdead⟩⟩

/-- What is needed is loaded. -/
theorem Outcome.load_of_needed (h : Outcome g s₁ s s' s'') (hwf : g.WellFormed)
    (hb : b ∈ g.cfg.blocks) (hneeded : Needed s b i) : ∃ b' ∈ g.cfg.blocks, ∃ n,
      IsLoad g s₁.node (g.cfg.nodes b') i n ∧
        Relation.ReflTransGen (Passes g s₁.node i) b b' := by
  have hcomplete := h.flagged.complete
  obtain ⟨p, hat, -⟩ := hneeded
  obtain ⟨hlt, rfl, rfl⟩ := hcomplete.placed.located b hb i p hat
  obtain ⟨b', hb', i', p₀, hhead, hinfo, hchain⟩ := hcomplete.originated p hlt
  obtain ⟨hp₀, rfl, hi'⟩ := hcomplete.placed.located b' hb' i' p₀
    ((State.phiAtHead_getLocal hhead).trans hinfo)
  have hload : IsLoad g s₁.node (g.cfg.nodes (s.phis.get p₀).basicBlock) i'
      (s.phis.get p).originNode := by
    rcases hcomplete.placed.tail_cases h.canonical hb' i' with hevents | ⟨x, hx, -⟩
    · rw [hhead, hcomplete.placed.node] at hevents
      exact hevents.head_getLocal.1
    · rw [hhead] at hx
      cases hx
  have hway : p < s.phis.size ∧ (s.phis.get p).localOrd = i' ∧
      Relation.ReflTransGen (Passes g s₁.node i') (s.phis.get p).basicBlock
        (s.phis.get p₀).basicBlock := by
    clear hload hhead hinfo hat hb hlt
    induction hchain with
    | refl => exact ⟨hp₀, hi', .refl⟩
    | @tail y x _ hstep ih =>
      obtain ⟨hy, hyi, hchain⟩ := ih
      have hx := hcomplete.comesIn_lt h.canonical hwf hy hstep
      obtain ⟨hi, hpred, hnot⟩ := (hcomplete.comesIn_iff h.canonical hwf hx hy).mp hstep
      obtain ⟨hxb, hsucc⟩ :=
        (hwf.consistent.mem _ (hcomplete.placed.block y hy).1 _).mp hpred
      have hxi := hi.trans hyi
      rw [hcomplete.stored_iff h.canonical hxb, hxi] at hnot
      exact ⟨hx, hxi, .head ⟨hxb, hnot, hsucc⟩ hchain⟩
  obtain ⟨-, hi, hchain⟩ := hway
  rw [hi]
  exact ⟨_, hb', _, hload, hchain⟩

/-- A load stays if a store flows to it. -/
theorem Outcome.load_stays_iff (h : Outcome g s₁ s s' s'') (hwf : g.WellFormed)
    (hb : b ∈ g.cfg.blocks) (hn : IsLoad g s₁.node (g.cfg.nodes b) i n) :
    IsLoad g s''.node (g.cfg.nodes b) i n ↔ ∃ m, FlowsTo g s₁.node m n := by
  constructor
  · intro hstays
    have hdead := ((h.isLoad_iff hb).mp hstays).2
    obtain ⟨p, -, -, hlt, hpb, hpi, heq⟩ := h.phi_of_load hb hn
    rw [hdead] at heq
    have hflows := (h.flagged.canSee p hlt).mp (by simpa using heq.symm)
    rw [hpb, hpi] at hflows
    obtain ⟨a, ⟨m, hm⟩, hway⟩ := flows_iff_way.mp hflows
    exact ⟨m, i, a, b, hm, hway, hb, hn⟩
  · rintro ⟨m, hflows⟩
    obtain ⟨i', a, b', -, -, hb', hn'⟩ := (h.flowsTo_iff hwf).mpr hflows
    obtain rfl := hn.local_eq ((h.isLoad_iff hb').mp hn').1
    exact ⟨hn.1, hn'.2⟩

/-- A store stays if it flows to a load or is live. -/
theorem Outcome.store_stays_iff (h : Outcome g s₁ s s' s'') (hwf : g.WellFormed)
    (hb : b ∈ g.cfg.blocks) (hm : m ∈ g.cfg.nodes b) {ident : LocalIdentifier}
    (hkind : (s₁.node m).kind = .setLocal ident) :
    (s''.node m).kind = .setLocal ident ↔
      (∃ n, FlowsTo g s₁.node m n) ∨ g.isSetLocalBytecodeLiveAtTail b ident = true := by
  have hstore : IsStore g s₁.node (g.cfg.nodes b) (g.virtualRegister ident) m :=
    ⟨hm, ident, hkind, rfl⟩
  have hkept {ident' : LocalIdentifier} (hkind' : (s''.node m).kind = .setLocal ident') :
      (s''.node m).kind = .setLocal ident := by
    rw [h.kind hb hm (by simp [hkind']), hkind]
  constructor
  · intro hstays
    rcases h.notDead hwf hb hm hstays with ⟨p, hp, hin⟩ | hlive
    · left
      obtain ⟨hlt, hsee⟩ := h.inGraph_iff.mp hp
      obtain ⟨hblock, -, hat⟩ := h.flagged.complete.placed.block p hlt
      rw [h.children hwf hlt hsee, List.mem_map, (h.phi p).basicBlock, (h.phi p).localOrd] at hin
      obtain ⟨a, ha, hvalue⟩ := hin
      obtain ⟨halive, hsucc⟩ := (hwf.consistent.mem _ hblock a).mp ha
      obtain ⟨b', hb', n, hn, hchain⟩ := h.load_of_needed hwf hblock ⟨p, hat, hsee⟩
      have hsource : IsStore g s₁.node (g.cfg.nodes a) (s.phis.get p).localOrd m := by
        rcases h.events halive (s.phis.get p).localOrd with hevents | ⟨x, -, hx⟩
        · rw [tail_of_valueAtTail hvalue (by simp) (by simp)] at hevents
          exact ((h.isStore_iff halive).mp hevents.tail_setLocal.1).1
        · rw [State.valueAtTail_of_ne hx (by simp)] at hvalue
          cases hvalue
      exact ⟨n, _, a, b', hsource, ⟨halive, _, hsucc, hchain⟩, hb', hn⟩
    · exact .inr hlive
  · rintro (⟨n, hflows⟩ | hlive)
    · obtain ⟨-, a, -, ⟨-, ident', hkind', -⟩, -, -⟩ := (h.flowsTo_iff hwf).mpr hflows
      exact hkept hkind'
    · obtain ⟨succ, hsucc, hhead⟩ := List.any_eq_true.mp hlive
      obtain ⟨-, ident', hkind', -⟩ :=
        (h.isStore_iff hb).mpr ⟨hstore, h.store_of_live hsucc hhead hkind⟩
      exact hkept hkind'

/-- The second flag: nothing was stored on a way from the entry. -/
theorem Outcome.maybeUndef_iff (h : Outcome g s₁ s s' s'') (hb : b ∈ g.cfg.blocks)
    (hn : IsLoad g s''.node (g.cfg.nodes b) i n) (hinfo : s''.dataFlowInfo n = some p) :
    (s''.phis.get p).maybeUndefVal = true ↔
      ¬ Stores g s₁.node i g.cfg.getEntryBB ∧ Way g s₁.node i g.cfg.getEntryBB b := by
  obtain ⟨p', hp', -, hlt, rfl, rfl, -⟩ := h.phi_of_load hb ((h.isLoad_iff hb).mp hn).1
  obtain rfl : p' = p := Option.some_inj.mp (hp'.symm.trans (h.info ▸ hinfo))
  rw [(h.phi p').maybeUndefVal, h.flagged.maybeUndef p' hlt, flows_iff_way]
  constructor
  · rintro ⟨a, ⟨rfl, hnot⟩, hway⟩
    exact ⟨hnot, hway⟩
  · rintro ⟨hnot, hway⟩
    exact ⟨_, ⟨rfl, hnot⟩, hway⟩

end Outcome

/-- **Which nodes stay**, and what is known of the loads. -/
theorem stays_iff {g : Graph} (hwf : g.WellFormed) :
    ∃ fuel₀, ∀ fuel, fuel₀ ≤ fuel → ∃ s,
      g.buildPhiDataFlowGraph fuel g.canonicalizeAllLocalOperations = some s ∧
      let s₁ := g.canonicalizeAllLocalOperations
      (∀ b ∈ g.cfg.blocks, ∀ i n, IsLoad g s₁.node (g.cfg.nodes b) i n →
        (IsLoad g s.node (g.cfg.nodes b) i n ↔ ∃ m, FlowsTo g s₁.node m n)) ∧
      (∀ b ∈ g.cfg.blocks, ∀ m ∈ g.cfg.nodes b, ∀ ident, (s₁.node m).kind = .setLocal ident →
        ((s.node m).kind = .setLocal ident ↔
          (∃ n, FlowsTo g s₁.node m n) ∨ g.isSetLocalBytecodeLiveAtTail b ident = true)) ∧
      (∀ m n, FlowsTo g s.node m n ↔ FlowsTo g s₁.node m n) ∧
      ∀ b ∈ g.cfg.blocks, ∀ i n, IsLoad g s.node (g.cfg.nodes b) i n →
        ∃ p, s.dataFlowInfo n = some p ∧ ((s.phis.get p).maybeUndefVal = true ↔
          ¬ Stores g s₁.node i g.cfg.getEntryBB ∧ Way g s₁.node i g.cfg.getEntryBB b) := by
  obtain ⟨fuel₀, houtcome⟩ := exists_outcome hwf
  refine ⟨fuel₀, fun fuel hfuel => ?_⟩
  obtain ⟨s, s', s'', heq, h⟩ := houtcome fuel hfuel
  refine ⟨s'', heq, fun b hb i n hn => h.load_stays_iff hwf hb hn,
    fun b hb m hm ident hkind => h.store_stays_iff hwf hb hm hkind,
    fun m n => h.flowsTo_iff hwf, fun b hb i n hn => ?_⟩
  obtain ⟨p, hp, -⟩ := h.phi_of_load hb ((h.isLoad_iff hb).mp hn).1
  have hinfo : s''.dataFlowInfo n = some p := h.info ▸ hp
  exact ⟨p, hinfo, h.maybeUndef_iff hb hn hinfo⟩

theorem stays_iff_loopGraph : ∃ fuel₀, ∀ fuel, fuel₀ ≤ fuel → ∃ s,
    loopGraph.buildPhiDataFlowGraph fuel loopGraph.canonicalizeAllLocalOperations = some s ∧
    ∀ b ∈ loopGraph.cfg.blocks, ∀ i n,
      IsLoad loopGraph loopGraph.canonicalizeAllLocalOperations.node
        (loopGraph.cfg.nodes b) i n →
      (IsLoad loopGraph s.node (loopGraph.cfg.nodes b) i n ↔
        ∃ m, FlowsTo loopGraph loopGraph.canonicalizeAllLocalOperations.node m n) := by
  obtain ⟨fuel₀, h⟩ := stays_iff loopGraph_wellFormed
  refine ⟨fuel₀, fun fuel hfuel => ?_⟩
  obtain ⟨s, heq, hloads, -⟩ := h fuel hfuel
  exact ⟨s, heq, hloads⟩

end LocalSsa

end Dsom
