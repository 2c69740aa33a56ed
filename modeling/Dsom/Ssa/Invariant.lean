import Dsom.Ssa.Preserve

/-!
# Ssa/Invariant — what the pass establishes

The checks of `AssertBlockLocalSSAInvariant`, which the test builds make at the end of the pass, as
an invariant (`BlockLocalSsa`).  It is what later passes rely on: every block is in canonical form,
the inputs of each `Phi` are the values at the tails of the predecessors, the flags agree with the
inputs, and there is neither a dead store nor a `Phi` that no load uses.

`Place` lists what can become of the events of one local in one block.
-/

namespace Dsom

namespace LocalSsa

/-! ## The events of one place -/

section Place

variable (g : Graph) (s₁ s s' : State) (b i : ℕ)

/-- The events of a local before the last loops, and after them. -/
inductive Place : PhiOrNode → PhiOrNode → PhiOrNode → PhiOrNode → Prop
  | none : Place .null .null .null .null
  | undef : Place .undefValue .undefValue .undefValue .undefValue
  | phi {p : ℕ} (hp : (s.phis.get p).canSeeSetLocal = true) :
    Place (.phi p) (.phi p) (.phi p) (.phi p)
  | phiUndef {p : ℕ} (hlt : p < s.phis.size) (hp : (s.phis.get p).canSeeSetLocal = false) :
    Place (.phi p) (.phi p) .undefValue .undefValue
  | load {n : ℕ} (hn : IsLoad g s₁.node (g.cfg.nodes b) i n) (hdead : deadLoad s' n = false) :
    Place (.getLocal n) (.getLocal n) (.getLocal n) (.getLocal n)
  | loadUndef {n : ℕ} (hn : IsLoad g s₁.node (g.cfg.nodes b) i n) (hdead : deadLoad s' n = true) :
    Place (.getLocal n) (.getLocal n) .undefValue .undefValue
  | loadStore {n m : ℕ} (hn : IsLoad g s₁.node (g.cfg.nodes b) i n)
    (hm : IsStore g s₁.node (g.cfg.nodes b) i m) (hdead : deadLoad s' n = false)
    (hdead' : deadStore g s' b m = false) :
    Place (.getLocal n) (.setLocal m) (.getLocal n) (.setLocal m)
  | loadDrop {n m : ℕ} (hn : IsLoad g s₁.node (g.cfg.nodes b) i n)
    (hm : IsStore g s₁.node (g.cfg.nodes b) i m) (hdead : deadLoad s' n = false)
    (hdead' : deadStore g s' b m = true) :
    Place (.getLocal n) (.setLocal m) (.getLocal n) (.getLocal n)
  | undefStore {n m : ℕ} (hn : IsLoad g s₁.node (g.cfg.nodes b) i n)
    (hm : IsStore g s₁.node (g.cfg.nodes b) i m) (hdead : deadLoad s' n = true)
    (hdead' : deadStore g s' b m = false) :
    Place (.getLocal n) (.setLocal m) (.setLocal m) (.setLocal m)
  | undefDrop {n m : ℕ} (hn : IsLoad g s₁.node (g.cfg.nodes b) i n)
    (hm : IsStore g s₁.node (g.cfg.nodes b) i m) (hdead : deadLoad s' n = true)
    (hdead' : deadStore g s' b m = true) : Place (.getLocal n) (.setLocal m) .null .null
  | store {m : ℕ} (hm : IsStore g s₁.node (g.cfg.nodes b) i m)
    (hdead : deadStore g s' b m = false) :
    Place (.setLocal m) (.setLocal m) (.setLocal m) (.setLocal m)
  | drop {m : ℕ} (hm : IsStore g s₁.node (g.cfg.nodes b) i m)
    (hdead : deadStore g s' b m = true) : Place (.setLocal m) (.setLocal m) .null .null

end Place

section Outcome

variable {g : Graph} {s₁ s s' s'' : State} {b i n : ℕ}

/-- The events of a place, before and after. -/
theorem Outcome.place (h : Outcome g s₁ s s' s'') (hb : b ∈ g.cfg.blocks) (i : ℕ) :
    Place g s₁ s s' b i (s.localInfoAtHead b i) (s.localInfoAtTail b i)
      (s''.localInfoAtHead b i) (s''.localInfoAtTail b i) := by
  have hplaced := h.flagged.complete.placed
  have hevents := h.pruning.events b hb i
  rw [h.replaced.head b hb i, h.replaced.tail b hb i] at hevents
  have hhead := congrArg Prod.fst hevents
  have htail := congrArg Prod.snd hevents
  dsimp only at hhead htail
  rw [hhead, htail]
  have hall {l : List ℕ} (hl : l = g.cfg.blocks.flatMap g.cfg.nodes) {n : ℕ}
      (hn : n ∈ g.cfg.nodes b) : n ∈ l := hl ▸ List.mem_flatMap.mpr ⟨b, hb, hn⟩
  generalize hl : g.cfg.blocks.flatMap g.cfg.nodes = l
  rcases hplaced.tail_cases h.canonical hb i with hlocal | ⟨p, hh, ht⟩
  · rw [hplaced.node] at hlocal
    generalize s.localInfoAtHead b i = e, s.localInfoAtTail b i = e' at hlocal
    cases hlocal with
    | none => exact .none
    | undef => exact .undef
    | @load n hn =>
      cases hdead : deadLoad s' n with
      | true =>
        have : eventsAfter g s' b l (.getLocal n, .getLocal n) = (.undefValue, .undefValue) := by
          simp [eventsAfter, afterLoad, afterStore, hall hl.symm hn.1, hdead]
        simp only [clean, this]
        exact .loadUndef hn hdead
      | false =>
        have : eventsAfter g s' b l (.getLocal n, .getLocal n) = (.getLocal n, .getLocal n) := by
          simp [eventsAfter, afterLoad, afterStore, hdead]
        simp only [clean, this]
        exact .load hn hdead
    | @loadStore n m hn hm =>
      have hm' := hall hl.symm hm.1
      have hn' := hall hl.symm hn.1
      cases hdead : deadLoad s' n with
      | true =>
        cases hdead' : deadStore g s' b m with
        | true =>
          have : eventsAfter g s' b l (.getLocal n, .setLocal m) = (.null, .null) := by
            simp [eventsAfter, afterLoad, afterStore, hm', hn', hdead, hdead']
          simp only [clean, this]
          exact .undefDrop hn hm hdead hdead'
        | false =>
          have : eventsAfter g s' b l (.getLocal n, .setLocal m) = (.setLocal m, .setLocal m) := by
            simp [eventsAfter, afterLoad, afterStore, hn', hdead, hdead']
          simp only [clean, this]
          exact .undefStore hn hm hdead hdead'
      | false =>
        cases hdead' : deadStore g s' b m with
        | true =>
          have : eventsAfter g s' b l (.getLocal n, .setLocal m) = (.getLocal n, .getLocal n) := by
            simp [eventsAfter, afterLoad, afterStore, hm', hdead, hdead']
          simp only [clean, this]
          exact .loadDrop hn hm hdead hdead'
        | false =>
          have : eventsAfter g s' b l (.getLocal n, .setLocal m) = (.getLocal n, .setLocal m) := by
            simp [eventsAfter, afterLoad, afterStore, hdead, hdead']
          simp only [clean, this]
          exact .loadStore hn hm hdead hdead'
    | @store m hm =>
      cases hdead : deadStore g s' b m with
      | true =>
        have : eventsAfter g s' b l (.setLocal m, .setLocal m) = (.null, .null) := by
          simp [eventsAfter, afterLoad, afterStore, hall hl.symm hm.1, hdead]
        simp only [clean, this]
        exact .drop hm hdead
      | false =>
        have : eventsAfter g s' b l (.setLocal m, .setLocal m) = (.setLocal m, .setLocal m) := by
          simp [eventsAfter, afterLoad, afterStore, hdead]
        simp only [clean, this]
        exact .store hm hdead
  · have hlt := (hplaced.located b hb i p (State.phiAtHead_phi hh)).1
    rw [hh, ht]
    cases hsee : (s.phis.get p).canSeeSetLocal with
    | true =>
      rw [clean_phi_live hsee]
      exact .phi hsee
    | false =>
      have hclean : clean s (List.range s.phis.size) (.phi p) = .undefValue := by
        rw [clean, if_pos ⟨List.mem_range.mpr hlt, hsee⟩]
      rw [hclean]
      exact .phiUndef hlt hsee

end Outcome

section Final

variable {g : Graph} {s₁ s s' s'' : State} {b i n m p q : ℕ}

theorem Outcome.phis (h : Outcome g s₁ s s' s'') : s''.phis = s'.phis := h.pruning.phis

theorem Outcome.info (h : Outcome g s₁ s s' s'') : s''.dataFlowInfo = s.dataFlowInfo :=
  h.pruning.info.trans h.replaced.info

theorem Outcome.phi (h : Outcome g s₁ s s' s'') (p : ℕ) :
    SamePhi (s.phis.get p) (s''.phis.get p) := h.phis ▸ h.replaced.phi p

/-- The nodes that stay are of the kind they were. -/
theorem Outcome.kind (h : Outcome g s₁ s s' s'') (hb : b ∈ g.cfg.blocks) (hn : n ∈ g.cfg.nodes b)
    (hnop : (s''.node n).kind ≠ .nop) : (s''.node n).kind = (s₁.node n).kind := by
  rw [h.pruned hb hn, prunedNode, h.node] at hnop ⊢
  split_ifs at hnop ⊢
  · exact absurd rfl hnop
  · rfl

/-- The loads that stay. -/
theorem Outcome.isLoad_iff (h : Outcome g s₁ s s' s'') (hb : b ∈ g.cfg.blocks) :
    IsLoad g s''.node (g.cfg.nodes b) i n ↔
      IsLoad g s₁.node (g.cfg.nodes b) i n ∧ deadLoad s' n = false := by
  constructor
  · rintro ⟨hin, ident, hkind, hreg⟩
    rw [h.pruned hb hin, prunedNode, h.node] at hkind
    split_ifs at hkind with hdead
    · cases hkind
    · rw [Bool.or_eq_true, not_or, Bool.not_eq_true] at hdead
      exact ⟨⟨hin, ident, hkind, hreg⟩, hdead.1⟩
  · rintro ⟨⟨hin, ident, hkind, hreg⟩, hdead⟩
    have hstore : deadStore g s' b n = false := by rw [deadStore, h.node, hkind]
    refine ⟨hin, ident, ?_, hreg⟩
    rw [h.pruned hb hin, prunedNode, hdead, hstore, h.node]
    exact hkind

/-- The stores that stay. -/
theorem Outcome.isStore_iff (h : Outcome g s₁ s s' s'') (hb : b ∈ g.cfg.blocks) :
    IsStore g s''.node (g.cfg.nodes b) i m ↔
      IsStore g s₁.node (g.cfg.nodes b) i m ∧ deadStore g s' b m = false := by
  constructor
  · rintro ⟨hin, ident, hkind, hreg⟩
    rw [h.pruned hb hin, prunedNode, h.node] at hkind
    split_ifs at hkind with hdead
    · cases hkind
    · rw [Bool.or_eq_true, not_or, Bool.not_eq_true, Bool.not_eq_true] at hdead
      exact ⟨⟨hin, ident, hkind, hreg⟩, hdead.2⟩
  · rintro ⟨⟨hin, ident, hkind, hreg⟩, hdead⟩
    have hload : deadLoad s' m = false := by rw [deadLoad, h.node, hkind]
    refine ⟨hin, ident, ?_, hreg⟩
    rw [h.pruned hb hin, prunedNode, hdead, hload, h.node]
    exact hkind

/-- **The `Phi`s that stay** are those to which a store flows. -/
theorem Outcome.phiAtHead_iff (h : Outcome g s₁ s s' s'') (hb : b ∈ g.cfg.blocks) :
    s''.phiAtHead b i = some p ↔
      s.phiAtHead b i = some p ∧ (s.phis.get p).canSeeSetLocal = true := by
  have hplace := h.place hb i
  rw [State.phiAtHead, State.phiAtHead, h.info]
  generalize s.localInfoAtHead b i = e₁, s.localInfoAtTail b i = e₂,
    s''.localInfoAtHead b i = e₃, s''.localInfoAtTail b i = e₄ at hplace
  have hlive {n : ℕ} (hn : IsLoad g s₁.node (g.cfg.nodes b) i n) (hdead : deadLoad s' n = false) :
      s.dataFlowInfo n = some p ↔
        s.dataFlowInfo n = some p ∧ (s.phis.get p).canSeeSetLocal = true := by
    refine (and_iff_left_of_imp fun hp => ?_).symm
    obtain ⟨p', hp', -, -, -, -, heq⟩ := h.phi_of_load hb hn
    cases hp.symm.trans hp'
    rw [hdead] at heq
    simpa using heq.symm
  have hgone {n : ℕ} (hn : IsLoad g s₁.node (g.cfg.nodes b) i n) (hdead : deadLoad s' n = true) :
      ¬ (s.dataFlowInfo n = some p ∧ (s.phis.get p).canSeeSetLocal = true) := by
    rintro ⟨hp, hsee⟩
    obtain ⟨p', hp', -, -, -, -, heq⟩ := h.phi_of_load hb hn
    cases hp.symm.trans hp'
    rw [hdead, hsee] at heq
    cases heq
  cases hplace with
  | none => simp
  | undef => simp
  | phi hp =>
    simp only [Option.some_inj]
    constructor
    · rintro rfl
      exact ⟨rfl, hp⟩
    · exact And.left
  | phiUndef _ hp =>
    simp only [Option.some_inj, reduceCtorEq, false_iff]
    rintro ⟨rfl, hsee⟩
    rw [hp] at hsee
    cases hsee
  | load hn hdead => exact hlive hn hdead
  | loadUndef hn hdead => simpa using hgone hn hdead
  | loadStore hn _ hdead _ => exact hlive hn hdead
  | loadDrop hn _ hdead _ => exact hlive hn hdead
  | undefStore hn _ hdead _ => simpa using hgone hn hdead
  | undefDrop hn _ hdead _ => simpa using hgone hn hdead
  | store => simp
  | drop => simp

/-- What comes in from a block that does not store the local. -/
theorem Outcome.valueAtTail_of_not (h : Outcome g s₁ s s' s'') (hb : b ∈ g.cfg.blocks)
    (hnot : ¬ Stores g s₁.node i b) :
    s''.valueAtTail b i = clean s (List.range s.phis.size) (s.valueAtTail b i) := by
  have hplace := h.place hb i
  rw [State.valueAtTail, State.valueAtTail, h.info]
  generalize s.localInfoAtHead b i = e₁, s.localInfoAtTail b i = e₂,
    s''.localInfoAtHead b i = e₃, s''.localInfoAtTail b i = e₄ at hplace
  cases hplace with
  | none => rfl
  | undef => rfl
  | phi hp => exact (clean_phi_live hp).symm
  | @phiUndef p hlt hp => rw [clean, if_pos ⟨List.mem_range.mpr hlt, hp⟩]
  | load hn hdead =>
    obtain ⟨p, hp, -, -, -, -, heq⟩ := h.phi_of_load hb hn
    rw [hdead] at heq
    dsimp only
    rw [hp, Option.map_some, Option.getD_some, clean_phi_live (by simpa using heq.symm)]
  | loadUndef hn hdead =>
    obtain ⟨p, hp, -, hlt, -, -, heq⟩ := h.phi_of_load hb hn
    rw [hdead] at heq
    dsimp only
    rw [hp, Option.map_some, Option.getD_some, clean,
      if_pos ⟨List.mem_range.mpr hlt, by simpa using heq.symm⟩]
  | loadStore _ hm => exact absurd ⟨_, hm⟩ hnot
  | loadDrop _ hm => exact absurd ⟨_, hm⟩ hnot
  | undefStore _ hm => exact absurd ⟨_, hm⟩ hnot
  | undefDrop _ hm => exact absurd ⟨_, hm⟩ hnot
  | store hm => exact absurd ⟨_, hm⟩ hnot
  | drop hm => exact absurd ⟨_, hm⟩ hnot

/-- A store is the last event. -/
theorem Outcome.tail_of_store (h : Outcome g s₁ s s' s'') (hb : b ∈ g.cfg.blocks)
    (hm : IsStore g s''.node (g.cfg.nodes b) i m) : s''.localInfoAtTail b i = .setLocal m := by
  obtain ⟨hm₁, hdead⟩ := (h.isStore_iff hb).mp hm
  have htail := (h.canonical.blocks b hb).canonical.store i m hm₁
  have hplaced := h.flagged.complete.placed
  have hold : s.localInfoAtTail b i = .setLocal m := by
    rcases hplaced.events b i with ⟨-, ht⟩ | ⟨-, hnull, -⟩
    · rw [ht, htail]
    · rw [hnull] at htail
      cases htail
  have hplace := h.place hb i
  rw [hold] at hplace
  generalize s.localInfoAtHead b i = e₁, s''.localInfoAtHead b i = e₃,
    s''.localInfoAtTail b i = e₄ at hplace
  cases hplace with
  | loadStore => rfl
  | loadDrop _ _ _ hdead' => rw [hdead] at hdead'; cases hdead'
  | undefStore => rfl
  | undefDrop _ _ _ hdead' => rw [hdead] at hdead'; cases hdead'
  | store => rfl
  | drop _ hdead' => rw [hdead] at hdead'; cases hdead'

/-- A load is the first. -/
theorem Outcome.head_of_load (h : Outcome g s₁ s s' s'') (hb : b ∈ g.cfg.blocks)
    (hn : IsLoad g s''.node (g.cfg.nodes b) i n) : s''.localInfoAtHead b i = .getLocal n := by
  obtain ⟨hn₁, hdead⟩ := (h.isLoad_iff hb).mp hn
  have hhead := (h.canonical.blocks b hb).canonical.load i n hn₁
  have hold : s.localInfoAtHead b i = .getLocal n := by
    rcases h.flagged.complete.placed.events b i with ⟨hh, -⟩ | ⟨hnull, -, -⟩
    · rw [hh, hhead]
    · rw [hnull] at hhead
      cases hhead
  have hplace := h.place hb i
  rw [hold] at hplace
  generalize s.localInfoAtTail b i = e₂, s''.localInfoAtHead b i = e₃,
    s''.localInfoAtTail b i = e₄ at hplace
  cases hplace with
  | load => rfl
  | loadUndef _ hdead' => rw [hdead] at hdead'; cases hdead'
  | loadStore => rfl
  | loadDrop => rfl
  | undefStore _ _ hdead' => rw [hdead] at hdead'; cases hdead'
  | undefDrop _ _ hdead' => rw [hdead] at hdead'; cases hdead'

/-- The events of a local are consistent with the nodes. -/
theorem Outcome.events (h : Outcome g s₁ s s' s'') (hb : b ∈ g.cfg.blocks) (i : ℕ) :
    LocalEvents g s''.node (g.cfg.nodes b) i (s''.localInfoAtHead b i) (s''.localInfoAtTail b i) ∨
      ∃ p, s''.localInfoAtHead b i = .phi p ∧ s''.localInfoAtTail b i = .phi p := by
  have hplace := h.place hb i
  have hload {n : ℕ} (hn : IsLoad g s₁.node (g.cfg.nodes b) i n) (hdead : deadLoad s' n = false) :=
    (h.isLoad_iff hb).mpr ⟨hn, hdead⟩
  have hstore {m : ℕ} (hm : IsStore g s₁.node (g.cfg.nodes b) i m)
      (hdead : deadStore g s' b m = false) := (h.isStore_iff hb).mpr ⟨hm, hdead⟩
  generalize s.localInfoAtHead b i = e₁, s.localInfoAtTail b i = e₂,
    s''.localInfoAtHead b i = e₃, s''.localInfoAtTail b i = e₄ at hplace
  cases hplace with
  | none => exact .inl .none
  | undef => exact .inl .undef
  | phi => exact .inr ⟨_, rfl, rfl⟩
  | phiUndef => exact .inl .undef
  | load hn hdead => exact .inl (.load (hload hn hdead))
  | loadUndef => exact .inl .undef
  | loadStore hn hm hdead hdead' => exact .inl (.loadStore (hload hn hdead) (hstore hm hdead'))
  | loadDrop hn _ hdead _ => exact .inl (.load (hload hn hdead))
  | undefStore _ hm _ hdead' => exact .inl (.store (hstore hm hdead'))
  | undefDrop => exact .inl .none
  | store hm hdead => exact .inl (.store (hstore hm hdead))
  | drop => exact .inl .none

/-- What comes in at a `Phi` that stays. -/
theorem Outcome.valueAtTail (h : Outcome g s₁ s s' s'') (hwf : g.WellFormed) (hb : b ∈ g.cfg.blocks)
    {succ : ℕ} (hsucc : succ ∈ g.cfg.successors b) (hneeded : Needed s succ i) :
    s''.valueAtTail b i = clean s (List.range s.phis.size) (s.valueAtTail b i) := by
  by_cases hstores : Stores g s₁.node i b
  · obtain ⟨m, hm⟩ := hstores
    have htail := h.tail_of_store hb
      ((h.isStore_iff hb).mpr ⟨hm, h.store_of_needed hwf hb hsucc hneeded hm⟩)
    obtain ⟨m', hm'⟩ := (h.flagged.complete.stored_iff h.canonical hb i).mpr ⟨m, hm⟩
    have hsame : m' = m := by
      have hplace := h.place hb i
      rw [hm', htail] at hplace
      generalize s.localInfoAtHead b i = e₁, s''.localInfoAtHead b i = e₃ at hplace
      cases hplace <;> rfl
    rw [State.valueAtTail_of_ne htail (by simp), State.valueAtTail_of_ne hm' (by simp), hsame]
    rfl
  · exact h.valueAtTail_of_not hb hstores

/-- **The inputs** of a `Phi` that stays. -/
theorem Outcome.children (h : Outcome g s₁ s s' s'') (hwf : g.WellFormed) (hp : p < s.phis.size)
    (hsee : (s.phis.get p).canSeeSetLocal = true) : (s''.phis.get p).children =
      (g.cfg.predecessors (s''.phis.get p).basicBlock).map fun pred =>
        s''.valueAtTail pred (s''.phis.get p).localOrd := by
  have hcomplete := h.flagged.complete
  obtain ⟨hblock, -, hat⟩ := hcomplete.placed.block p hp
  refine List.ext_getElem? fun k => ?_
  rw [(h.phi p).basicBlock, (h.phi p).localOrd, h.phis, h.replaced.children p hp hsee,
    hcomplete.children p hp, List.getElem?_map, List.getElem?_map, Option.map_map]
  refine Option.map_congr fun pred hpred => ?_
  obtain ⟨hlive, hsucc⟩ := (hwf.consistent.mem _ hblock pred).mp (List.mem_of_getElem? hpred)
  exact (h.valueAtTail hwf hlive hsucc ⟨p, hat, hsee⟩).symm

end Final

/-! ## The invariant

What the two assertion functions of the pass check. -/

/-- A `Phi` of the graph. -/
def State.InGraph (g : Graph) (s : State) (p : ℕ) : Prop :=
  ∃ b ∈ g.cfg.blocks, ∃ i, s.phiAtHead b i = some p

/-- **Block-local SSA form**: what `AssertBasicBlockHeadTailLocalInfoConsistent` and
`AssertPhiGraphConsistent` check. -/
structure BlockLocalSsa (g : Graph) (s : State) : Prop where
  events : ∀ b ∈ g.cfg.blocks, ∀ i,
    LocalEvents g s.node (g.cfg.nodes b) i (s.localInfoAtHead b i) (s.localInfoAtTail b i) ∨
      ∃ p, s.localInfoAtHead b i = .phi p ∧ s.localInfoAtTail b i = .phi p
  load : ∀ b ∈ g.cfg.blocks, ∀ i n, IsLoad g s.node (g.cfg.nodes b) i n →
    s.localInfoAtHead b i = .getLocal n
  store : ∀ b ∈ g.cfg.blocks, ∀ i m, IsStore g s.node (g.cfg.nodes b) i m →
    s.localInfoAtTail b i = .setLocal m
  undef : ∀ b ∈ g.cfg.blocks, ∀ i, s.localInfoAtHead b i = .undefValue →
    ∀ pred ∈ g.cfg.predecessors b, s.localInfoAtTail pred i = .undefValue
  origin : ∀ b ∈ g.cfg.blocks, ∀ i n, IsLoad g s.node (g.cfg.nodes b) i n →
    ∃ p, s.dataFlowInfo n = some p ∧ (s.phis.get p).originNode = n
  located : ∀ b ∈ g.cfg.blocks, ∀ i p, s.phiAtHead b i = some p →
    (s.phis.get p).basicBlock = b ∧ (s.phis.get p).localOrd = i ∧ i < g.numLocals
  children : ∀ p, s.InGraph g p → (s.phis.get p).children =
    (g.cfg.predecessors (s.phis.get p).basicBlock).map fun pred =>
      s.valueAtTail pred (s.phis.get p).localOrd
  notNull : ∀ p, s.InGraph g p → PhiOrNode.null ∉ (s.phis.get p).children
  comesIn : ∀ p, s.InGraph g p → ∀ q, s.ComesIn q p → s.InGraph g q
  notTriviallyUndef : ∀ p, s.InGraph g p → (s.phis.get p).canSeeSetLocal = true ∧
    ∃ e ∈ (s.phis.get p).children, (∃ m, e = .setLocal m) ∨ ∃ q, e = .phi q
  maybeUndef : ∀ p, s.InGraph g p → ((s.phis.get p).maybeUndefVal = true ↔
    .undefValue ∈ (s.phis.get p).children ∨
      ∃ q, s.ComesIn q p ∧ (s.phis.get q).maybeUndefVal = true)
  notDead : ∀ b ∈ g.cfg.blocks, ∀ m ∈ g.cfg.nodes b, ∀ ident, (s.node m).kind = .setLocal ident →
    (∃ p, s.InGraph g p ∧ .setLocal m ∈ (s.phis.get p).children) ∨
      g.isSetLocalBytecodeLiveAtTail b ident = true
  reached : ∀ p, s.InGraph g p →
    Flows g s.node (s.phis.get p).localOrd (Stores g s.node (s.phis.get p).localOrd)
      (s.phis.get p).basicBlock
  notStray : ∀ p, s.InGraph g p → ∃ b ∈ g.cfg.blocks, ∃ i p₀,
    IsLoad g s.node (g.cfg.nodes b) i (s.phis.get p).originNode ∧
      s.dataFlowInfo (s.phis.get p).originNode = some p₀ ∧ Relation.ReflTransGen s.ComesIn p p₀

section Establish

variable {g : Graph} {s₁ s s' s'' : State} {b i n m p q : ℕ}

/-- The `Phi`s that stay. -/
theorem Outcome.inGraph_iff (h : Outcome g s₁ s s' s'') :
    s''.InGraph g p ↔ p < s.phis.size ∧ (s.phis.get p).canSeeSetLocal = true := by
  have hplaced := h.flagged.complete.placed
  constructor
  · rintro ⟨b, hb, i, hat⟩
    obtain ⟨hat, hsee⟩ := (h.phiAtHead_iff hb).mp hat
    exact ⟨(hplaced.located b hb i p hat).1, hsee⟩
  · rintro ⟨hp, hsee⟩
    obtain ⟨hb, -, hat⟩ := hplaced.block p hp
    exact ⟨_, hb, _, (h.phiAtHead_iff hb).mpr ⟨hat, hsee⟩⟩

/-- Their children, with the others cleaned away. -/
theorem Outcome.mem_children (h : Outcome g s₁ s s' s'') (hp : p < s.phis.size)
    (hsee : (s.phis.get p).canSeeSetLocal = true) {e : PhiOrNode} :
    e ∈ (s''.phis.get p).children ↔
      ∃ e' ∈ (s.phis.get p).children, clean s (List.range s.phis.size) e' = e := by
  simp only [List.mem_iff_getElem?, h.phis, h.replaced.children p hp hsee, Option.map_eq_some_iff]
  constructor
  · rintro ⟨k, e', hk, he⟩
    exact ⟨e', ⟨k, hk⟩, he⟩
  · rintro ⟨e', ⟨k, hk⟩, he⟩
    exact ⟨k, e', hk, he⟩

/-- What came in from a predecessor, cleaned, is one of them. -/
theorem Outcome.clean_mem_children (h : Outcome g s₁ s s' s'') (hp : p < s.phis.size)
    (hsee : (s.phis.get p).canSeeSetLocal = true) {a : ℕ}
    (ha : a ∈ g.cfg.predecessors (s.phis.get p).basicBlock) :
    clean s (List.range s.phis.size) (s.valueAtTail a (s.phis.get p).localOrd) ∈
      (s''.phis.get p).children := by
  refine (h.mem_children hp hsee).mpr ⟨_, ?_, rfl⟩
  rw [h.flagged.complete.children p hp]
  exact List.mem_map_of_mem ha

/-- A `Phi` that stays comes in where it did. -/
theorem Outcome.comesIn_iff (h : Outcome g s₁ s s' s'') (hwf : g.WellFormed)
    (hp : p < s.phis.size) (hsee : (s.phis.get p).canSeeSetLocal = true) :
    s''.ComesIn q p ↔ s.ComesIn q p ∧ (s.phis.get q).canSeeSetLocal = true := by
  rw [State.ComesIn, h.mem_children hp hsee]
  constructor
  · rintro ⟨e, he, hclean⟩
    obtain rfl := clean_eq_phi hclean
    have hq := h.flagged.complete.comesIn_lt h.canonical hwf hp he
    refine ⟨he, ?_⟩
    rw [clean] at hclean
    split_ifs at hclean with hdead
    exact (Bool.not_eq_false _).mp fun hfalse => hdead ⟨List.mem_range.mpr hq, hfalse⟩
  · rintro ⟨hin, hq⟩
    exact ⟨_, hin, clean_phi_live hq⟩

/-- Where one `Phi` comes in at another, stores flow on. -/
theorem Outcome.canSee_of_comesIn (h : Outcome g s₁ s s' s'') (hwf : g.WellFormed)
    (hp : p < s.phis.size) (hin : s.ComesIn q p) (hq : (s.phis.get q).canSeeSetLocal = true) :
    (s.phis.get p).canSeeSetLocal = true := by
  have hcomplete := h.flagged.complete
  have hqlt := hcomplete.comesIn_lt h.canonical hwf hp hin
  obtain ⟨hi, hpred, hnot⟩ := (hcomplete.comesIn_iff h.canonical hwf hqlt hp).mp hin
  obtain ⟨hlive, hsucc⟩ :=
    (hwf.consistent.mem _ (hcomplete.placed.block p hp).1 _).mp hpred
  have hflows := (h.flagged.canSee q hqlt).mp hq
  rw [hi] at hflows hnot
  exact (h.flagged.canSee p hp).mpr
    (.pass hlive hflows ((hcomplete.stored_iff h.canonical hlive _).not.mp hnot) hsucc)

/-- An undefined head: no store flows there. -/
theorem Outcome.head_undef (h : Outcome g s₁ s s' s'') (hb : b ∈ g.cfg.blocks)
    (hhead : s''.localInfoAtHead b i = .undefValue) : b = g.cfg.getEntryBB ∨
      ∃ p, s.phiAtHead b i = some p ∧ p < s.phis.size ∧ (s.phis.get p).canSeeSetLocal = false := by
  have hplaced := h.flagged.complete.placed
  have hplace := h.place hb i
  rw [hhead] at hplace
  generalize he₁ : s.localInfoAtHead b i = e₁, s.localInfoAtTail b i = e₂,
    s''.localInfoAtTail b i = e₄ at hplace
  cases hplace with
  | undef =>
    left
    by_contra hentry
    have hnot := (h.canonical.blocks b hb).atHead.notEntry hentry i
    rcases hplaced.events b i with ⟨hh, -⟩ | ⟨-, -, x, hh, -⟩
    · exact hnot (hh.symm.trans he₁)
    · rw [he₁] at hh
      cases hh
  | phiUndef hlt hp => exact .inr ⟨_, State.phiAtHead_phi he₁, hlt, hp⟩
  | loadUndef hn hdead =>
    obtain ⟨p, -, hat, hlt, -, -, heq⟩ := h.phi_of_load hb hn
    rw [hdead] at heq
    exact .inr ⟨p, hat, hlt, by simpa using heq.symm⟩

/-- The value at the tail, where it is not that of a `Phi`. -/
theorem tail_of_valueAtTail {v : PhiOrNode} (h : s.valueAtTail b i = v) (hnull : v ≠ .null)
    (hphi : ∀ q, v ≠ .phi q) : s.localInfoAtTail b i = v := by
  cases htail : s.localInfoAtTail b i with
  | getLocal n =>
    rw [State.valueAtTail_getLocal htail] at h
    cases hinfo : s.dataFlowInfo n with
    | none =>
      rw [hinfo] at h
      exact absurd h.symm hnull
    | some q =>
      rw [hinfo] at h
      exact absurd h.symm (hphi q)
  | _ => rw [← h, State.valueAtTail_of_ne htail (by simp)]

/-- Where a local is undefined at the head, it is so at every predecessor. -/
theorem Outcome.undef (h : Outcome g s₁ s s' s'') (hwf : g.WellFormed) (hb : b ∈ g.cfg.blocks)
    (hhead : s''.localInfoAtHead b i = .undefValue) :
    ∀ pred ∈ g.cfg.predecessors b, s''.localInfoAtTail pred i = .undefValue := by
  intro pred hpred
  rcases h.head_undef hb hhead with rfl | ⟨p, hat, hlt, hsee⟩
  · rw [hwf.consistent.entry.2] at hpred
    cases hpred
  have hcomplete := h.flagged.complete
  obtain ⟨-, rfl, rfl⟩ := hcomplete.placed.located b hb i p hat
  have hno := (h.flagged.canSee p hlt).not.mp (by simp [hsee])
  obtain ⟨hlive, hsucc⟩ := (hwf.consistent.mem _ hb pred).mp hpred
  have hnot : ¬ Stores g s₁.node (s.phis.get p).localOrd pred :=
    fun hstores => hno (.start hlive hstores hsucc)
  refine tail_of_valueAtTail ?_ (by simp) (by simp)
  rw [h.valueAtTail_of_not hlive hnot]
  by_cases hundef : s.localInfoAtTail pred (s.phis.get p).localOrd = .undefValue
  · rw [State.valueAtTail_of_ne hundef (by simp)]
    rfl
  · obtain ⟨q, hq⟩ := valueAtTail_cases (hcomplete.notNull p hlt pred hpred)
      ((hcomplete.stored_iff h.canonical hlive _).not.mpr hnot) hundef
    obtain ⟨hqat, -⟩ := (hcomplete.valueAtTail_iff h.canonical hlive).mp hq
    obtain ⟨hqlt, hqb, hqi⟩ := hcomplete.placed.located pred hlive _ q hqat
    have hqdead : (s.phis.get q).canSeeSetLocal = false := by
      rw [← Bool.not_eq_true, h.flagged.canSee q hqlt, hqb, hqi]
      exact fun hflows => hno (.pass hlive hflows hnot hsucc)
    rw [hq, clean, if_pos ⟨List.mem_range.mpr hqlt, hqdead⟩]

/-- Every chain of `Phi`s that stays leads to a load that stays. -/
theorem Outcome.notStray (h : Outcome g s₁ s s' s'') (hwf : g.WellFormed) (hp : p < s.phis.size)
    (hsee : (s.phis.get p).canSeeSetLocal = true) : ∃ b ∈ g.cfg.blocks, ∃ i p₀,
      IsLoad g s''.node (g.cfg.nodes b) i (s.phis.get p).originNode ∧
        s''.dataFlowInfo (s.phis.get p).originNode = some p₀ ∧
          Relation.ReflTransGen s''.ComesIn p p₀ := by
  have hcomplete := h.flagged.complete
  obtain ⟨b, hb, i, p₀, hload, hinfo, hchain⟩ := hcomplete.originated p hp
  have hat : s.phiAtHead b i = some p₀ := (State.phiAtHead_getLocal hload).trans hinfo
  have hp₀ := (hcomplete.placed.located b hb i p₀ hat).1
  have hloadNode : IsLoad g s₁.node (g.cfg.nodes b) i (s.phis.get p).originNode := by
    rcases hcomplete.placed.tail_cases h.canonical hb i with hevents | ⟨x, hx, -⟩
    · rw [hload, hcomplete.placed.node] at hevents
      exact hevents.head_getLocal.1
    · rw [hload] at hx
      cases hx
  -- from the load back to `p`, everything is in the table
  have hlt {x : ℕ} (hx : Relation.ReflTransGen (fun p q => s.ComesIn q p) p₀ x) :
      x < s.phis.size := by
    induction hx with
    | refl => exact hp₀
    | tail _ hstep ih => exact hcomplete.comesIn_lt h.canonical hwf ih hstep
  have hall : (s.phis.get p₀).canSeeSetLocal = true ∧ Relation.ReflTransGen s''.ComesIn p p₀ := by
    clear hload hinfo hloadNode hp
    induction hchain with
    | refl => exact ⟨hsee, .refl⟩
    | @tail x p hxp hstep ih =>
      have hxlt := hlt hxp
      have hx := h.canSee_of_comesIn hwf hxlt hstep hsee
      obtain ⟨hp₀see, hchain⟩ := ih hx
      exact ⟨hp₀see, .head ((h.comesIn_iff hwf hxlt hx).mpr ⟨hstep, hsee⟩) hchain⟩
  refine ⟨b, hb, i, p₀, (h.isLoad_iff hb).mpr ⟨hloadNode, ?_⟩, by rw [h.info, hinfo], hall.2⟩
  obtain ⟨p', hp', -, -, -, -, heq⟩ := h.phi_of_load hb hloadNode
  cases hinfo.symm.trans hp'
  rw [heq, hall.1]
  rfl

/-- A flag and the inputs of a `Phi`. -/
theorem Outcome.maybeUndef (h : Outcome g s₁ s s' s'') (hwf : g.WellFormed) (hp : p < s.phis.size)
    (hsee : (s.phis.get p).canSeeSetLocal = true) :
    (s''.phis.get p).maybeUndefVal = true ↔ .undefValue ∈ (s''.phis.get p).children ∨
      ∃ q, s''.ComesIn q p ∧ (s''.phis.get q).maybeUndefVal = true := by
  have hcomplete := h.flagged.complete
  obtain ⟨hblock, -, hat⟩ := hcomplete.placed.block p hp
  have hpred {x : ℕ} := hwf.consistent.mem _ hblock x
  rw [(h.phi p).maybeUndefVal, h.flagged.maybeUndef p hp]
  constructor
  · intro hflows
    generalize hb : (s.phis.get p).basicBlock = b at hflows
    cases hflows with
    | @start x _ hx hsource hsucc =>
      left
      have := h.clean_mem_children hp hsee (hpred.mpr ⟨hx, hb ▸ hsucc⟩)
      rwa [State.valueAtTail_of_ne ((hcomplete.undef_iff h.canonical hx _).mpr hsource)
        (by simp)] at this
    | @pass x _ hx hflows hnot hsucc =>
      have hx' := hpred.mpr ⟨hx, hb ▸ hsucc⟩
      obtain ⟨q, hqlt, hq, -, hqb, hqi⟩ :=
        hcomplete.phi_of_flows h.canonical hwf hp hx' hflows hnot
      have := h.clean_mem_children hp hsee hx'
      rw [hq] at this
      cases hqsee : (s.phis.get q).canSeeSetLocal with
      | true =>
        right
        rw [clean_phi_live hqsee] at this
        refine ⟨q, this, ?_⟩
        rw [(h.phi q).maybeUndefVal, h.flagged.maybeUndef q hqlt, hqb, hqi]
        exact hflows
      | false =>
        left
        rwa [clean, if_pos ⟨List.mem_range.mpr hqlt, hqsee⟩] at this
  · rintro (hundef | ⟨q, hin, hq⟩)
    · obtain ⟨e, he, hclean⟩ := (h.mem_children hp hsee).mp hundef
      rw [hcomplete.children p hp] at he
      obtain ⟨x, hx, rfl⟩ := List.mem_map.mp he
      obtain ⟨hlive, hsucc⟩ := hpred.mp hx
      cases hvalue : s.valueAtTail x (s.phis.get p).localOrd with
      | undefValue =>
        exact .start hlive ((hcomplete.undef_iff h.canonical hlive _).mp
          (tail_of_valueAtTail hvalue (by simp) (by simp))) hsucc
      | phi q =>
        rw [hvalue, clean] at hclean
        split_ifs at hclean with hdead
        obtain ⟨hqat, hqnot⟩ := (hcomplete.valueAtTail_iff h.canonical hlive).mp hvalue
        obtain ⟨hqlt, hqb, hqi⟩ := hcomplete.placed.located x hlive _ q hqat
        have hnone := (h.flagged.canSee q hqlt).not.mp (by simp [hdead.2])
        rw [hqb, hqi] at hnone
        exact .pass hlive ((hcomplete.flows_or_undef h.canonical hwf hlive hqat).resolve_left hnone)
          ((hcomplete.stored_iff h.canonical hlive _).not.mp hqnot) hsucc
      | _ =>
        rw [hvalue] at hclean
        cases hclean
    · have hin' := ((h.comesIn_iff hwf hp hsee).mp hin).1
      have hqlt := hcomplete.comesIn_lt h.canonical hwf hp hin'
      obtain ⟨hi, hqpred, hnot⟩ := (hcomplete.comesIn_iff h.canonical hwf hqlt hp).mp hin'
      obtain ⟨hlive, hsucc⟩ := hpred.mp hqpred
      rw [(h.phi q).maybeUndefVal, h.flagged.maybeUndef q hqlt] at hq
      rw [hi] at hq hnot
      exact .pass hlive hq ((hcomplete.stored_iff h.canonical hlive _).not.mp hnot) hsucc

/-- Something that is not undefined comes in at a `Phi` that stays. -/
theorem Outcome.notTriviallyUndef (h : Outcome g s₁ s s' s'') (hwf : g.WellFormed)
    (hp : p < s.phis.size) (hsee : (s.phis.get p).canSeeSetLocal = true) :
    ∃ e ∈ (s''.phis.get p).children, (∃ m, e = .setLocal m) ∨ ∃ q, e = .phi q := by
  have hcomplete := h.flagged.complete
  obtain ⟨hblock, -, hat⟩ := hcomplete.placed.block p hp
  have hpred {x : ℕ} := hwf.consistent.mem _ hblock x
  have hflows := (h.flagged.canSee p hp).mp hsee
  generalize hb : (s.phis.get p).basicBlock = b at hflows
  cases hflows with
  | @start x _ hx hstores hsucc =>
    obtain ⟨m, hm⟩ := (hcomplete.stored_iff h.canonical hx _).mpr hstores
    refine ⟨_, h.clean_mem_children hp hsee (hpred.mpr ⟨hx, hb ▸ hsucc⟩), .inl ⟨m, ?_⟩⟩
    rw [State.valueAtTail_of_ne hm (by simp)]
    rfl
  | @pass x _ hx hflows hnot hsucc =>
    have hx' := hpred.mpr ⟨hx, hb ▸ hsucc⟩
    obtain ⟨q, hqlt, hq, -, hqb, hqi⟩ :=
      hcomplete.phi_of_flows h.canonical hwf hp hx' hflows hnot
    have hqsee : (s.phis.get q).canSeeSetLocal = true := by
      rw [h.flagged.canSee q hqlt, hqb, hqi]
      exact hflows
    have := h.clean_mem_children hp hsee hx'
    rw [hq, clean_phi_live hqsee] at this
    exact ⟨_, this, .inr ⟨q, rfl⟩⟩

/-- Where a store flows to a `Phi` that stays, a store that stays does. -/
theorem Outcome.flows (h : Outcome g s₁ s s' s'') (hwf : g.WellFormed)
    (hflows : Flows g s₁.node i (Stores g s₁.node i) b) (hb : b ∈ g.cfg.blocks)
    (hneeded : Needed s b i) : Flows g s''.node i (Stores g s''.node i) b := by
  induction hflows with
  | start ha hsource hsucc =>
    obtain ⟨m, hm⟩ := hsource
    have hstays := h.store_of_needed hwf ha hsucc hneeded hm
    exact .start ha ⟨m, (h.isStore_iff ha).mpr ⟨hm, hstays⟩⟩ hsucc
  | pass ha hflows hnot hsucc ih =>
    refine .pass ha (ih ha (h.needed_before hwf ha hsucc hneeded hnot hflows)) ?_ hsucc
    rintro ⟨m, hm⟩
    exact hnot ⟨m, ((h.isStore_iff ha).mp hm).1⟩

/-- A user at the head of a successor is a `Phi` that stays. -/
theorem Outcome.needed_of_isUser (h : Outcome g s₁ s s' s'') (hwf : g.WellFormed)
    (hb : b ∈ g.cfg.blocks) {succ : ℕ} (hsucc : succ ∈ g.cfg.successors b)
    (hstores : Stores g s₁.node i b) (huser : (s'.localInfoAtHead succ i).isUser = true) :
    Needed s succ i := by
  have hlive := hwf.consistent.closed b hb succ hsucc
  have hready := h.ready hwf
  cases hhead : s'.localInfoAtHead succ i with
  | getLocal n =>
    exact h.needed_of_load hlive (h.node ▸ hready.head_getLocal hlive hhead)
      (hready.users b hb i (h.node ▸ hstores) succ hsucc n hhead)
  | phi p =>
    rw [h.replaced.head succ hlive i] at hhead
    have hat := State.phiAtHead_phi (clean_eq_phi hhead)
    refine ⟨p, hat, ?_⟩
    rw [clean_eq_phi hhead, clean] at hhead
    split_ifs at hhead with hdead
    have hlt := (h.flagged.complete.placed.located succ hlive i p hat).1
    exact (Bool.not_eq_false _).mp fun hfalse => hdead ⟨List.mem_range.mpr hlt, hfalse⟩
  | _ =>
    rw [hhead] at huser
    cases huser

/-- A store that stays is seen by a `Phi`, or needed by the bytecode. -/
theorem Outcome.notDead (h : Outcome g s₁ s s' s'') (hwf : g.WellFormed) (hb : b ∈ g.cfg.blocks)
    (hm : m ∈ g.cfg.nodes b) {ident : LocalIdentifier}
    (hkind : (s''.node m).kind = .setLocal ident) :
    (∃ p, s''.InGraph g p ∧ .setLocal m ∈ (s''.phis.get p).children) ∨
      g.isSetLocalBytecodeLiveAtTail b ident = true := by
  have hstore : IsStore g s''.node (g.cfg.nodes b) (g.virtualRegister ident) m :=
    ⟨hm, ident, hkind, rfl⟩
  obtain ⟨⟨-, ident', hkind', -⟩, hdead⟩ := (h.isStore_iff hb).mp hstore
  obtain rfl : ident' = ident := by
    rw [h.pruned hb hm, prunedNode, h.node, hdead] at hkind
    split_ifs at hkind
    · cases hkind
    · exact NodeKind.setLocal.inj (hkind'.symm.trans hkind)
  rw [deadStore, h.node, hkind'] at hdead
  dsimp only at hdead
  rw [Bool.and_eq_false_iff, Bool.not_eq_false', Bool.not_eq_false'] at hdead
  refine hdead.imp_left fun hany => ?_
  obtain ⟨succ, hsucc, huser⟩ := List.any_eq_true.mp hany
  have hlive := hwf.consistent.closed b hb succ hsucc
  obtain ⟨p, hat, hsee⟩ := h.needed_of_isUser hwf hb hsucc ⟨m, hm, ident', hkind', rfl⟩ huser
  obtain ⟨hlt, hpb, hpi⟩ := h.flagged.complete.placed.located succ hlive _ p hat
  refine ⟨p, h.inGraph_iff.mpr ⟨hlt, hsee⟩, ?_⟩
  rw [h.children hwf hlt hsee, (h.phi p).basicBlock, (h.phi p).localOrd, hpb, hpi]
  have hvalue : s''.valueAtTail b (g.virtualRegister ident') = .setLocal m :=
    State.valueAtTail_of_ne (h.tail_of_store hb hstore) (by simp)
  rw [← hvalue]
  exact List.mem_map_of_mem ((hwf.consistent.mem succ hlive b).mpr ⟨hb, hsucc⟩)

/-- **The invariant** holds in the end. -/
theorem Outcome.blockLocalSsa (h : Outcome g s₁ s s' s'') (hwf : g.WellFormed) :
    BlockLocalSsa g s'' := by
  have hcomplete := h.flagged.complete
  constructor
  case events => exact fun b hb i => h.events hb i
  case load => exact fun b hb i n hn => h.head_of_load hb hn
  case store => exact fun b hb i m hm => h.tail_of_store hb hm
  case undef => exact fun b hb i hhead => h.undef hwf hb hhead
  case origin =>
    intro b hb i n hn
    obtain ⟨p, hinfo, -, -, -, -, -⟩ := h.phi_of_load hb ((h.isLoad_iff hb).mp hn).1
    refine ⟨p, by rw [h.info, hinfo], ?_⟩
    rw [(h.phi p).originNode]
    exact (hcomplete.placed.origin n p hinfo).2
  case located =>
    intro b hb i p hat
    rw [(h.phi p).basicBlock, (h.phi p).localOrd]
    obtain ⟨hlt, hpb, rfl⟩ := hcomplete.placed.located b hb i p ((h.phiAtHead_iff hb).mp hat).1
    exact ⟨hpb, rfl, (hcomplete.placed.block p hlt).2.1⟩
  case children =>
    intro p hp
    obtain ⟨hlt, hsee⟩ := h.inGraph_iff.mp hp
    exact h.children hwf hlt hsee
  case notNull =>
    intro p hp hmem
    obtain ⟨hlt, hsee⟩ := h.inGraph_iff.mp hp
    obtain ⟨e, he, hclean⟩ := (h.mem_children hlt hsee).mp hmem
    rw [hcomplete.children p hlt] at he
    obtain ⟨pred, hpred, rfl⟩ := List.mem_map.mp he
    refine hcomplete.notNull p hlt pred hpred ?_
    cases hvalue : s.valueAtTail pred (s.phis.get p).localOrd with
    | null => rfl
    | phi q =>
      rw [hvalue, clean] at hclean
      split_ifs at hclean
    | _ =>
      rw [hvalue] at hclean
      cases hclean
  case comesIn =>
    intro p hp q hin
    obtain ⟨hlt, hsee⟩ := h.inGraph_iff.mp hp
    obtain ⟨hold, hqsee⟩ := (h.comesIn_iff hwf hlt hsee).mp hin
    exact h.inGraph_iff.mpr ⟨hcomplete.comesIn_lt h.canonical hwf hlt hold, hqsee⟩
  case notTriviallyUndef =>
    intro p hp
    obtain ⟨hlt, hsee⟩ := h.inGraph_iff.mp hp
    exact ⟨(h.phi p).canSeeSetLocal.trans hsee, h.notTriviallyUndef hwf hlt hsee⟩
  case maybeUndef =>
    intro p hp
    obtain ⟨hlt, hsee⟩ := h.inGraph_iff.mp hp
    exact h.maybeUndef hwf hlt hsee
  case notDead => exact fun b hb m hm ident hkind => h.notDead hwf hb hm hkind
  case reached =>
    intro p hp
    obtain ⟨hlt, hsee⟩ := h.inGraph_iff.mp hp
    obtain ⟨hb, -, hat⟩ := hcomplete.placed.block p hlt
    rw [(h.phi p).basicBlock, (h.phi p).localOrd]
    exact h.flows hwf ((h.flagged.canSee p hlt).mp hsee) hb ⟨p, hat, hsee⟩
  case notStray =>
    intro p hp
    obtain ⟨hlt, hsee⟩ := h.inGraph_iff.mp hp
    rw [(h.phi p).originNode]
    exact h.notStray hwf hlt hsee

/-- The loops of the pass end. -/
theorem exists_outcome (hwf : g.WellFormed) : ∃ fuel₀, ∀ fuel, fuel₀ ≤ fuel → ∃ s s' s'',
    g.buildPhiDataFlowGraph fuel g.canonicalizeAllLocalOperations = some s'' ∧
      Outcome g g.canonicalizeAllLocalOperations s s' s'' := by
  have hcanon := canonicalizeAll_spec hwf
  obtain ⟨fuel₀, hbuild⟩ := buildPhiDataFlowGraph_spec hwf hcanon
  refine ⟨fuel₀, fun fuel hfuel => ?_⟩
  obtain ⟨s, s', s'', heq, hflagged, hreplaced, hpruning⟩ := hbuild fuel hfuel
  exact ⟨s, s', s'', heq, hcanon, hflagged, hreplaced, hpruning⟩

end Establish

/-- **The pass** ends, with a graph in block-local SSA form. -/
theorem blockLocalSsa_established {g : Graph} (hwf : g.WellFormed) :
    ∃ fuel₀, ∀ fuel, fuel₀ ≤ fuel → ∃ s,
      g.buildPhiDataFlowGraph fuel g.canonicalizeAllLocalOperations = some s ∧
        BlockLocalSsa g s := by
  obtain ⟨fuel₀, houtcome⟩ := exists_outcome hwf
  refine ⟨fuel₀, fun fuel hfuel => ?_⟩
  obtain ⟨s, s', s'', heq, h⟩ := houtcome fuel hfuel
  exact ⟨s'', heq, h.blockLocalSsa hwf⟩

theorem blockLocalSsa_established_loopGraph : ∃ fuel₀, ∀ fuel, fuel₀ ≤ fuel → ∃ s,
    loopGraph.buildPhiDataFlowGraph fuel loopGraph.canonicalizeAllLocalOperations = some s ∧
      BlockLocalSsa loopGraph s := blockLocalSsa_established loopGraph_wellFormed

end LocalSsa

end Dsom
