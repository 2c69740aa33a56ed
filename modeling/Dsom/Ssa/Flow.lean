import Dsom.Foundations.Marking
import Dsom.Ssa.PhiGraph

/-!
# Ssa/Flow — which stores flow to which loads

A value that is stored in a block flows along the blocks that do not store the local (`Flows`).  The
graph of `Phi`s has a path for each such way (`Complete.flows_iff`), so that the worklists for the
two flags find exactly the `Phi`s that a store, or the undefined value at the entry, can flow to
(`computeFlags_spec`).
-/

namespace Dsom

namespace LocalSsa

/-! ## Ways through the blocks

Said by the blocks and the nodes alone, with no `Phi` at all. -/

section Flows

variable (g : Graph) (node : ℕ → Node) (i : ℕ)

/-- A block in which a local is stored. -/
def Stores (b : ℕ) : Prop := ∃ m, IsStore g node (g.cfg.nodes b) i m

/-- What a local has at the end of a block of `source` can be what it has at the head of a block. -/
inductive Flows (source : ℕ → Prop) : ℕ → Prop
  | start {a b : ℕ} (ha : a ∈ g.cfg.blocks) (hsource : source a) (hb : b ∈ g.cfg.successors a) :
    Flows source b
  | pass {a b : ℕ} (ha : a ∈ g.cfg.blocks) (h : Flows source a) (hnot : ¬ Stores g node i a)
    (hb : b ∈ g.cfg.successors a) : Flows source b

/-- Nothing was stored since the entry. -/
def UndefAtEntry (b : ℕ) : Prop := b = g.cfg.getEntryBB ∧ ¬ Stores g node i b

end Flows

/-! ## Successors of a `Phi`

They are the `Phi`s that have it coming in. -/

section Complete

variable {g : Graph} {s₁ s : State} {p q k : ℕ}

/-- A local is stored in a block if the block has a store. -/
theorem Complete.stored_iff (h : Complete g s₁ s) (hcanon : CanonicalGraph g s₁) {b : ℕ}
    (hb : b ∈ g.cfg.blocks) (i : ℕ) : s.Stored b i ↔ Stores g s₁.node i b := by
  have hcanonical := (hcanon.blocks b hb).canonical
  rcases h.placed.events b i with ⟨-, ht⟩ | ⟨-, ht₁, q, -, ht⟩
  · rw [State.Stored, ht]
    exact ⟨Exists.imp fun m hm => (hm ▸ hcanonical.events i).tail_setLocal.1,
      Exists.imp fun m hm => hcanonical.store i m hm⟩
  · constructor
    · rintro ⟨m, hm⟩
      rw [ht] at hm
      cases hm
    · rintro ⟨m, hm⟩
      have := hcanonical.store i m hm
      rw [ht₁] at this
      cases this

/-- A local is undefined at the entry if nothing was stored there. -/
theorem Complete.undef_iff (h : Complete g s₁ s) (hcanon : CanonicalGraph g s₁) {b : ℕ}
    (hb : b ∈ g.cfg.blocks) (i : ℕ) :
    s.localInfoAtTail b i = .undefValue ↔ UndefAtEntry g s₁.node i b := by
  obtain ⟨hcanonical, hatHead, -, -⟩ := hcanon.blocks b hb
  have hevents := hcanonical.events i
  have hiff : s.localInfoAtTail b i = .undefValue ↔ s₁.localInfoAtTail b i = .undefValue := by
    rcases h.placed.events b i with ⟨-, ht⟩ | ⟨-, ht₁, q, -, ht⟩
    · rw [ht]
    · rw [ht, ht₁]
      simp
  rw [hiff]
  constructor
  · intro hundef
    refine ⟨?_, fun ⟨m, hm⟩ => ?_⟩
    · by_contra hentry
      exact hatHead.notEntry hentry i (hundef ▸ hevents).tail_undef
    · rw [hcanonical.store i m hm] at hundef
      cases hundef
  · rintro ⟨hentry, hnot⟩
    rcases hatHead.entry hentry i with hhead | ⟨m, hhead⟩
    · rw [hhead] at hevents
      generalize s₁.localInfoAtTail b i = e at hevents ⊢
      cases hevents
      rfl
    · rw [hhead] at hevents
      generalize s₁.localInfoAtTail b i = e at hevents
      cases hevents with
      | store hs => exact absurd ⟨m, hs⟩ hnot

/-- A `Phi` at the head of a block whose local is not stored there is also at the tail. -/
theorem Complete.valueAtTail_of_phiAtHead (h : Complete g s₁ s) (hcanon : CanonicalGraph g s₁)
    {b i : ℕ} (hb : b ∈ g.cfg.blocks) (hp : s.phiAtHead b i = some p) (hnot : ¬ s.Stored b i) :
    s.valueAtTail b i = .phi p := by
  cases hhead : s.localInfoAtHead b i with
  | getLocal n =>
    rcases h.placed.tail_cases hcanon hb i with hevents | ⟨x, hx, -⟩
    · rw [hhead] at hevents
      rcases hevents.head_getLocal.2 with ht | ⟨m, ht, -⟩
      · rw [State.phiAtHead_getLocal hhead] at hp
        rw [State.valueAtTail_getLocal ht, hp]
        rfl
      · exact absurd ⟨m, ht⟩ hnot
    · rw [hhead] at hx
      cases hx
  | phi x =>
    rw [State.phiAtHead_phi hhead] at hp
    cases hp
    rcases h.placed.tail_cases hcanon hb i with hevents | ⟨x, hx, ht⟩
    · rw [hhead] at hevents
      cases hevents
    · rw [hhead] at hx
      cases hx
      exact State.valueAtTail_of_ne ht (by simp)
  | _ =>
    rw [State.phiAtHead, hhead] at hp
    cases hp

/-- The successors that the pass goes to. -/
theorem mem_phiSuccessors_iff : (q, k) ∈ g.phiSuccessors s p ↔
    ¬ s.Stored (s.phis.get p).basicBlock (s.phis.get p).localOrd ∧ ∃ j succ,
      (g.cfg.successors (s.phis.get p).basicBlock)[j]? = some succ ∧
        s.phiAtHead succ (s.phis.get p).localOrd = some q ∧
          g.cfg.predOrdForSuccessors (s.phis.get p).basicBlock j = k := by
  rw [Graph.phiSuccessors]
  dsimp only
  split
  · rename_i m hm
    exact ⟨fun hin => absurd hin List.not_mem_nil, fun h => absurd ⟨m, hm⟩ h.1⟩
  · rename_i hno
    have hstored : ¬ s.Stored (s.phis.get p).basicBlock (s.phis.get p).localOrd := by
      rintro ⟨m, hm⟩
      exact hno m hm
    rw [List.mem_filterMap, and_iff_right hstored]
    constructor
    · rintro ⟨⟨succ, j⟩, hj, hx⟩
      refine ⟨j, succ, List.mem_zipIdx_iff_getElem?.mp hj, ?_⟩
      rw [State.phiAtHead]
      cases hhead : s.localInfoAtHead succ (s.phis.get p).localOrd with
      | getLocal n =>
        simp only [hhead, Option.map_eq_some_iff, Prod.mk.injEq] at hx
        obtain ⟨x, hx, rfl, hk⟩ := hx
        exact ⟨hx, hk⟩
      | phi x =>
        simp only [hhead, Option.some_inj, Prod.mk.injEq] at hx
        exact ⟨congrArg some hx.1, hx.2⟩
      | _ => simp only [hhead, reduceCtorEq] at hx
    · rintro ⟨j, succ, hj, hat, rfl⟩
      refine ⟨(succ, j), List.mem_zipIdx_iff_getElem?.mpr hj, ?_⟩
      rw [State.phiAtHead] at hat
      cases hhead : s.localInfoAtHead succ (s.phis.get p).localOrd with
      | getLocal n =>
        rw [hhead] at hat
        simp only [hat, Option.map_some]
      | phi x =>
        rw [hhead] at hat
        simp only [Option.some_inj.mp hat]
      | _ =>
        rw [hhead] at hat
        cases hat

/-- What comes in at a `Phi` from a block is the `Phi` there, unless the local is stored. -/
theorem Complete.valueAtTail_iff (h : Complete g s₁ s) (hcanon : CanonicalGraph g s₁) {b i : ℕ}
    (hb : b ∈ g.cfg.blocks) : s.valueAtTail b i = .phi p ↔
      s.phiAtHead b i = some p ∧ ¬ s.Stored b i := by
  constructor
  · intro hvalue
    refine ⟨h.placed.valueAtTail_phi hcanon hb hvalue, ?_⟩
    rintro ⟨m, hm⟩
    rw [State.valueAtTail_of_ne hm (by simp)] at hvalue
    cases hvalue
  · rintro ⟨hp, hnot⟩
    exact h.valueAtTail_of_phiAtHead hcanon hb hp hnot

/-- A `Phi` is at the head of its own block. -/
theorem Complete.block_eq (h : Complete g s₁ s) {b i : ℕ} (hb : b ∈ g.cfg.blocks)
    (hp : p < s.phis.size) : s.phiAtHead b i = some p ↔
      (s.phis.get p).basicBlock = b ∧ (s.phis.get p).localOrd = i := by
  constructor
  · exact fun hat => (h.placed.located b hb i p hat).2
  · rintro ⟨rfl, rfl⟩
    exact (h.placed.block p hp).2.2

/-- **The successors of a `Phi`** are the `Phi`s at which it comes in. -/
theorem Complete.mem_phiSuccessors (h : Complete g s₁ s) (hwf : g.WellFormed)
    (hcanon : CanonicalGraph g s₁) (hp : p < s.phis.size) :
    (q, k) ∈ g.phiSuccessors s p ↔
      q < s.phis.size ∧ (s.phis.get q).children[k]? = some (.phi p) := by
  obtain ⟨hblock, -, hat⟩ := h.placed.block p hp
  rw [mem_phiSuccessors_iff]
  constructor
  · rintro ⟨hnot, j, succ, hj, hq, rfl⟩
    have hsucc := hwf.consistent.closed _ hblock succ (List.mem_of_getElem? hj)
    obtain ⟨hlt, hqb, hqi⟩ := h.placed.located succ hsucc _ q hq
    refine ⟨hlt, ?_⟩
    rw [h.children q hlt, hqb, hqi, List.getElem?_map, hwf.consistent.ord _ hblock j succ hj,
      Option.map_some, h.valueAtTail_of_phiAtHead hcanon hblock hat hnot]
  · rintro ⟨hlt, hk⟩
    obtain ⟨hqblock, -, hqat⟩ := h.placed.block q hlt
    rw [h.children q hlt, List.getElem?_map, Option.map_eq_some_iff] at hk
    obtain ⟨pred, hpred, hvalue⟩ := hk
    obtain ⟨hlive, hsucc⟩ := (hwf.consistent.mem _ hqblock pred).mp (List.mem_of_getElem? hpred)
    obtain ⟨hhead, hnot⟩ := (h.valueAtTail_iff hcanon hlive).mp hvalue
    obtain ⟨hpb, hpi⟩ := (h.block_eq hlive hp).mp hhead
    obtain ⟨j, hj⟩ := List.mem_iff_getElem?.mp hsucc
    have hord := hwf.consistent.ord pred hlive j _ hj
    have hnodup := hwf.consistent.nodup _ hqblock
    refine ⟨hpb ▸ hpi ▸ hnot, j, (s.phis.get q).basicBlock, hpb ▸ hj, hpi ▸ hqat, ?_⟩
    rw [hpb]
    exact (List.getElem?_inj (List.getElem?_eq_some_iff.mp hord).1 hnodup).mp
      (hord.trans hpred.symm)

/-- What comes into a `Phi`. -/
theorem Complete.comesIn_iff (h : Complete g s₁ s) (hcanon : CanonicalGraph g s₁)
    (hwf : g.WellFormed) (hp : p < s.phis.size) (hq : q < s.phis.size) :
    s.ComesIn p q ↔ (s.phis.get p).localOrd = (s.phis.get q).localOrd ∧
      (s.phis.get p).basicBlock ∈ g.cfg.predecessors (s.phis.get q).basicBlock ∧
        ¬ s.Stored (s.phis.get p).basicBlock (s.phis.get p).localOrd := by
  have hqblock := (h.placed.block q hq).1
  rw [State.ComesIn, h.children q hq, List.mem_map]
  constructor
  · rintro ⟨pred, hpred, hvalue⟩
    have hlive := ((hwf.consistent.mem _ hqblock pred).mp hpred).1
    obtain ⟨hhead, hnot⟩ := (h.valueAtTail_iff hcanon hlive).mp hvalue
    obtain ⟨rfl, hpi⟩ := (h.block_eq hlive hp).mp hhead
    exact ⟨hpi, hpred, hpi ▸ hnot⟩
  · rintro ⟨hi, hpred, hnot⟩
    obtain ⟨hblock, -, hat⟩ := h.placed.block p hp
    exact ⟨_, hpred, hi ▸ h.valueAtTail_of_phiAtHead hcanon hblock hat hnot⟩

/-- Only `Phi`s that exist come in. -/
theorem Complete.comesIn_lt (h : Complete g s₁ s) (hcanon : CanonicalGraph g s₁)
    (hwf : g.WellFormed) (hq : q < s.phis.size) (hin : s.ComesIn p q) : p < s.phis.size := by
  rw [State.ComesIn, h.children q hq, List.mem_map] at hin
  obtain ⟨pred, hpred, hvalue⟩ := hin
  have hlive := ((hwf.consistent.mem _ (h.placed.block q hq).1 pred).mp hpred).1
  exact (h.placed.located pred hlive _ p ((h.valueAtTail_iff hcanon hlive).mp hvalue).1).1

/-- The `Phi`s at which a `Phi` comes in. -/
def phiSuccs (g : Graph) (s : State) (p : ℕ) : List ℕ := (g.phiSuccessors s p).map Prod.fst

/-- The successors, as a list. -/
theorem Complete.mem_phiSuccs (h : Complete g s₁ s) (hwf : g.WellFormed)
    (hcanon : CanonicalGraph g s₁) (hp : p < s.phis.size) :
    q ∈ phiSuccs g s p ↔ q < s.phis.size ∧ s.ComesIn p q := by
  rw [phiSuccs, List.mem_map, State.ComesIn, List.mem_iff_getElem?]
  constructor
  · rintro ⟨⟨x, k⟩, hin, rfl⟩
    obtain ⟨hx, hk⟩ := (h.mem_phiSuccessors hwf hcanon hp).mp hin
    exact ⟨hx, k, hk⟩
  · rintro ⟨hx, k, hk⟩
    exact ⟨(q, k), (h.mem_phiSuccessors hwf hcanon hp).mpr ⟨hx, hk⟩, rfl⟩

/-- Ways along the successors are those along what comes in. -/
theorem Complete.chain_iff (h : Complete g s₁ s) (hwf : g.WellFormed)
    (hcanon : CanonicalGraph g s₁) {p₀ : ℕ} (hp : p < s.phis.size) :
    p₀ < s.phis.size ∧ Relation.ReflTransGen (fun x y => y ∈ phiSuccs g s x) p₀ p ↔
      p₀ < s.phis.size ∧ (s.phis.get p₀).localOrd = (s.phis.get p).localOrd ∧
        Relation.ReflTransGen s.ComesIn p₀ p := by
  constructor
  · rintro ⟨hp₀, hchain⟩
    refine ⟨hp₀, ?_⟩
    clear hp
    suffices hall : p < s.phis.size ∧ (s.phis.get p₀).localOrd = (s.phis.get p).localOrd ∧
      Relation.ReflTransGen s.ComesIn p₀ p from hall.2
    induction hchain with
    | refl => exact ⟨hp₀, rfl, .refl⟩
    | tail _ hstep ih =>
      obtain ⟨hx, hi, hchain⟩ := ih
      obtain ⟨hy, hin⟩ := (h.mem_phiSuccs hwf hcanon hx).mp hstep
      exact ⟨hy, hi.trans ((h.comesIn_iff hcanon hwf hx hy).mp hin).1, hchain.tail hin⟩
  · rintro ⟨hp₀, -, hchain⟩
    refine ⟨hp₀, ?_⟩
    induction hchain with
    | refl => exact .refl
    | tail _ hstep ih =>
      have hx := h.comesIn_lt hcanon hwf hp hstep
      exact (ih hx).tail ((h.mem_phiSuccs hwf hcanon hx).mpr ⟨hp, hstep⟩)

/-- What comes in is a `Phi`, if it is neither a store nor undefined. -/
theorem valueAtTail_cases {b i : ℕ} (hne : s.valueAtTail b i ≠ .null) (hnot : ¬ s.Stored b i)
    (hundef : s.localInfoAtTail b i ≠ .undefValue) : ∃ q, s.valueAtTail b i = .phi q := by
  cases htail : s.localInfoAtTail b i with
  | getLocal n =>
    rw [State.valueAtTail_getLocal htail] at hne ⊢
    cases hinfo : s.dataFlowInfo n with
    | none =>
      rw [hinfo] at hne
      exact absurd rfl hne
    | some q => exact ⟨q, rfl⟩
  | setLocal m => exact absurd ⟨m, htail⟩ hnot
  | undefValue => exact absurd htail hundef
  | phi q => exact ⟨q, State.valueAtTail_of_ne htail (by simp)⟩
  | null => exact absurd (State.valueAtTail_of_ne htail (by simp)) hne

/-- Nothing flows to the entry. -/
theorem Flows.ne_entry (hwf : g.WellFormed) {i : ℕ} {node : ℕ → Node} {source : ℕ → Prop} {b : ℕ}
    (h : Flows g node i source b) : b ∈ g.cfg.blocks ∧ b ≠ g.cfg.getEntryBB := by
  have hfrom {a : ℕ} (ha : a ∈ g.cfg.blocks) (hb : b ∈ g.cfg.successors a) :
      b ∈ g.cfg.blocks ∧ b ≠ g.cfg.getEntryBB := by
    have hlive := hwf.consistent.closed a ha b hb
    refine ⟨hlive, ?_⟩
    rintro rfl
    have := (hwf.consistent.mem _ hlive a).mpr ⟨ha, hb⟩
    rw [hwf.consistent.entry.2] at this
    cases this
  cases h with
  | start ha _ hb => exact hfrom ha hb
  | pass ha _ _ hb => exact hfrom ha hb

/-- What flows on through a block that does not store is a `Phi` of that block. -/
theorem Complete.phi_of_flows (h : Complete g s₁ s) (hcanon : CanonicalGraph g s₁)
    (hwf : g.WellFormed) (hp : p < s.phis.size) {source : ℕ → Prop} {a : ℕ}
    (hpred : a ∈ g.cfg.predecessors (s.phis.get p).basicBlock)
    (hflows : Flows g s₁.node (s.phis.get p).localOrd source a)
    (hnot : ¬ Stores g s₁.node (s.phis.get p).localOrd a) : ∃ q < s.phis.size,
      s.valueAtTail a (s.phis.get p).localOrd = .phi q ∧
        s.phiAtHead a (s.phis.get p).localOrd = some q ∧
          (s.phis.get q).basicBlock = a ∧ (s.phis.get q).localOrd = (s.phis.get p).localOrd := by
  obtain ⟨ha, hne⟩ := hflows.ne_entry hwf
  obtain ⟨q, hq⟩ := valueAtTail_cases (h.notNull p hp a hpred)
    ((h.stored_iff hcanon ha _).not.mpr hnot)
    fun hundef => hne ((h.undef_iff hcanon ha _).mp hundef).1
  have hat := ((h.valueAtTail_iff hcanon ha).mp hq).1
  obtain ⟨hlt, hqb, hqi⟩ := h.placed.located a ha _ q hat
  exact ⟨q, hlt, hq, hat, hqb, hqi⟩

/-- Something of `source` comes in at a `Phi` directly. -/
def Direct (g : Graph) (s : State) (source : ℕ → Prop) (p : ℕ) : Prop :=
  ∃ pred ∈ g.cfg.predecessors (s.phis.get p).basicBlock, source pred

/-- **Ways through the blocks** are ways along the `Phi`s. -/
theorem Complete.flows_iff (h : Complete g s₁ s) (hcanon : CanonicalGraph g s₁)
    (hwf : g.WellFormed) (hp : p < s.phis.size) {source : ℕ → Prop} :
    Flows g s₁.node (s.phis.get p).localOrd source (s.phis.get p).basicBlock ↔
      ∃ p₀ < s.phis.size, (s.phis.get p₀).localOrd = (s.phis.get p).localOrd ∧
        Direct g s source p₀ ∧ Relation.ReflTransGen s.ComesIn p₀ p := by
  have hmem {b pred : ℕ} (hb : b ∈ g.cfg.blocks) := hwf.consistent.mem b hb pred
  constructor
  · intro hflows
    generalize hb : (s.phis.get p).basicBlock = b at hflows
    generalize hi : (s.phis.get p).localOrd = i at hflows
    induction hflows generalizing p with
    | @start a b ha hsource hsucc =>
      subst hb
      exact ⟨p, hp, hi, ⟨a, (hmem (h.placed.block p hp).1).mpr ⟨ha, hsucc⟩, hsource⟩, .refl⟩
    | @pass a b ha hrest hnot hsucc ih =>
      subst hb hi
      have hpred := (hmem (h.placed.block p hp).1).mpr ⟨ha, hsucc⟩
      obtain ⟨q, hlt, hq, -, hqb, hqi⟩ := h.phi_of_flows hcanon hwf hp hpred hrest hnot
      obtain ⟨p₀, hp₀, hi₀, hdirect, hchain⟩ := ih hlt hqb hqi
      refine ⟨p₀, hp₀, hi₀, hdirect, hchain.tail ?_⟩
      rw [State.ComesIn, h.children p hp]
      exact List.mem_map.mpr ⟨a, hpred, hq⟩
  · rintro ⟨p₀, hp₀, hi, ⟨pred, hpred, hsource⟩, hchain⟩
    induction hchain with
    | refl =>
      obtain ⟨hlive, hsucc⟩ := (hmem (h.placed.block p₀ hp₀).1).mp hpred
      exact .start hlive hsource hsucc
    | @tail q p _ hstep ih =>
      have hq := h.comesIn_lt hcanon hwf hp hstep
      obtain ⟨hqi, hqpred, hnot⟩ := (h.comesIn_iff hcanon hwf hq hp).mp hstep
      obtain ⟨hlive, hsucc⟩ := (hmem (h.placed.block p hp).1).mp hqpred
      have hflows := ih hq (hi.trans hqi.symm)
      rw [hqi] at hflows hnot
      exact .pass hlive hflows ((h.stored_iff hcanon hlive _).not.mp hnot) hsucc

end Complete

/-! ## The two flags

Each is raised at some `Phi`s and propagated to their successors. -/

section Flags

/-- A flag is about nothing else in a `Phi`. -/
structure Flag.Lawful (flag : Flag) : Prop where
  keeps : KeepsPlace flag.raise
  children : ∀ φ, (flag.raise φ).children = φ.children
  get_raise : ∀ φ, flag.get (flag.raise φ) = true
  raise_of_get : ∀ φ, flag.get φ = true → flag.raise φ = φ

theorem canSeeSetLocal_lawful : canSeeSetLocal.Lawful where
  keeps := ⟨fun _ => rfl, fun _ => rfl, fun _ => rfl⟩
  children _ := rfl
  get_raise _ := rfl
  raise_of_get φ h := by
    cases φ
    cases h
    rfl

theorem maybeUndefVal_lawful : maybeUndefVal.Lawful where
  keeps := ⟨fun _ => rfl, fun _ => rfl, fun _ => rfl⟩
  children _ := rfl
  get_raise _ := rfl
  raise_of_get φ h := by
    cases φ
    cases h
    rfl

variable {g : Graph} {flag : Flag} {s₁ s : State} {M : ℕ → Bool}

/-- The flag is raised at the `Phi`s that are M. -/
def raised (flag : Flag) (s : State) (M : ℕ → Bool) : State :=
  { s with
    phis := ⟨s.phis.size, fun p =>
      if M p then flag.raise (s.phis.get p) else s.phis.get p⟩ }

variable (flag s M) in
/-- A `Phi` after flags are raised. -/
theorem raised_get (p : ℕ) : (raised flag s M).phis.get p = flag.raise (s.phis.get p) ∨
    (raised flag s M).phis.get p = s.phis.get p := by
  rw [raised]
  dsimp only
  split_ifs
  · exact .inl rfl
  · exact .inr rfl

/-- A part of a `Phi` that is not the flag. -/
theorem raised_congr {β : Type} (part : Phi → β) (h : ∀ φ, part (flag.raise φ) = part φ)
    (p : ℕ) : part ((raised flag s M).phis.get p) = part (s.phis.get p) := by
  rcases raised_get flag s M p with heq | heq
  · rw [heq, h]
  · rw [heq]

theorem raised_flag (hflag : flag.Lawful) {p : ℕ}
    (hmono : flag.get (s.phis.get p) = true → M p = true) :
    flag.get ((raised flag s M).phis.get p) = M p := by
  rw [raised]
  dsimp only
  split_ifs with hp
  · rw [hflag.get_raise, hp]
  · cases hget : flag.get (s.phis.get p) with
    | true => exact absurd (hmono hget) hp
    | false => exact (Bool.not_eq_true _ ▸ hp).symm

/-- Raising flags changes no successors. -/
theorem raised_phiSuccessors (hflag : flag.Lawful) (p : ℕ) :
    g.phiSuccessors (raised flag s M) p = g.phiSuccessors s p := by
  rw [Graph.phiSuccessors, Graph.phiSuccessors,
    raised_congr Phi.basicBlock hflag.keeps.basicBlock,
    raised_congr Phi.localOrd hflag.keeps.localOrd]
  rfl

/-- The marks of the `Phi`s at which the flag is raised already. -/
theorem raised_self (hflag : flag.Lawful) :
    raised flag s (fun p => flag.get (s.phis.get p)) = s := by
  have hget : (fun p => if flag.get (s.phis.get p) then flag.raise (s.phis.get p)
      else s.phis.get p) = s.phis.get := by
    funext p
    split_ifs with h
    · exact hflag.raise_of_get _ h
    · rfl
  rw [raised, hget]

/-- Raising one flag is marking one `Phi`. -/
theorem raiseFlag_raised (hflag : flag.Lawful)
    (hmono : ∀ p, flag.get (s.phis.get p) = true → M p = true) (q : List ℕ) (p : ℕ) :
    Graph.raiseFlag flag (raised flag s M, q) p =
      (raised flag s (Marking.visit (M, q) p).1, (Marking.visit (M, q) p).2) := by
  rw [Graph.raiseFlag, raised_flag hflag (hmono p), Marking.visit]
  split_ifs with hp
  · rfl
  · refine Prod.ext ?_ rfl
    have hget : ((raised flag s M).phis.modify p flag.raise).get =
        (raised flag s (Function.update M p true)).phis.get := by
      funext x
      by_cases hx : x = p
      · subst hx
        rw [Arena.get_modify_self, raised, raised]
        simp [hp]
      · rw [Arena.get_modify_of_ne _ hx, raised, raised]
        simp [hx]
    exact congrArg (fun f => ({ s with phis := ⟨s.phis.size, f⟩ } : State)) hget

theorem visit_mono {a b : ℕ} {M : ℕ → Bool} {q : List ℕ} (h : M b = true) :
    (Marking.visit (M, q) a).1 b = true := by
  rw [Marking.visit]
  split_ifs with ha
  · exact h
  · by_cases hb : b = a
    · rw [hb]
      exact Function.update_self ..
    · exact (Function.update_of_ne hb _ _).trans h

/-- Raising the flags of several `Phi`s. -/
theorem foldl_raiseFlag (hflag : flag.Lawful) (l : List ℕ)
    (hmono : ∀ p, flag.get (s.phis.get p) = true → M p = true) (q : List ℕ) :
    l.foldl (Graph.raiseFlag flag) (raised flag s M, q) =
        (raised flag s (l.foldl Marking.visit (M, q)).1,
          (l.foldl Marking.visit (M, q)).2) ∧
      ∀ p, flag.get (s.phis.get p) = true → (l.foldl Marking.visit (M, q)).1 p = true := by
  induction l generalizing M q with
  | nil => exact ⟨rfl, hmono⟩
  | cons a l ih =>
    rw [List.foldl_cons, List.foldl_cons, raiseFlag_raised hflag hmono]
    exact ih (fun p hp => visit_mono (hmono p hp)) _

/-- **The worklist for a flag** is one that marks `Phi`s. -/
theorem propagateFlag_raised (hflag : flag.Lawful) {fuel : ℕ} {q : List ℕ}
    (hmono : ∀ p, flag.get (s.phis.get p) = true → M p = true) :
    g.propagateFlag flag fuel (raised flag s M) q =
      (Marking.run (fun p => (g.phiSuccessors s p).map Prod.fst) fuel M q).map
        (raised flag s) := by
  induction fuel generalizing M q with
  | zero => cases q <;> rfl
  | succ fuel ih =>
    cases q with
    | nil => rfl
    | cons p q =>
      obtain ⟨hfold, hmono'⟩ := foldl_raiseFlag hflag ((g.phiSuccessors s p).map Prod.fst) hmono q
      rw [Graph.propagateFlag, raised_phiSuccessors hflag, hfold, Marking.run]
      exact ih hmono'

/-- Raising flags keeps the graph complete. -/
theorem Complete.raised (h : Complete g s₁ s) (hflag : flag.Lawful)
    (horigin : ∀ φ, (flag.raise φ).originNode = φ.originNode) :
    Complete g s₁ (raised flag s M) := by
  have hblock := raised_congr (s := s) (M := M) Phi.basicBlock hflag.keeps.basicBlock
  have hlocal := raised_congr (s := s) (M := M) Phi.localOrd hflag.keeps.localOrd
  have hchildren := raised_congr (s := s) (M := M) Phi.children hflag.children
  have horigin' := raised_congr (s := s) (M := M) Phi.originNode horigin
  refine ⟨h.placed.setPhis rfl fun p => ⟨hblock p, hlocal p, horigin' p⟩, fun p hp => ?_,
    fun p hp => ?_, fun p hp => ?_⟩
  · rw [hchildren, hblock, hlocal]
    exact h.children p hp
  · rw [hblock, hlocal]
    exact h.notNull p hp
  · rw [horigin']
    obtain ⟨b, hb, i, p₀, hload, hinfo, hchain⟩ := h.originated p hp
    refine ⟨b, hb, i, p₀, hload, hinfo, hchain.lift id fun x y hin => ?_⟩
    change PhiOrNode.phi y ∈ ((LocalSsa.raised flag s M).phis.get x).children
    rw [hchildren]
    exact hin

/-- **A flag** is raised at the `Phi`s to which something of `source` flows. -/
theorem propagateFlag_spec (h : Complete g s₁ s) (hcanon : CanonicalGraph g s₁)
    (hwf : g.WellFormed) (hflag : flag.Lawful) (source : ℕ → ℕ → Prop) {q : List ℕ}
    (hdirect : ∀ p < s.phis.size, flag.get (s.phis.get p) = true ↔
      Direct g s (source (s.phis.get p).localOrd) p)
    (hq : ∀ p, p ∈ q ↔ p < s.phis.size ∧ flag.get (s.phis.get p) = true) {fuel : ℕ}
    (hfuel : s.phis.size + q.length ≤ fuel) :
    ∃ M, g.propagateFlag flag fuel s q = some (raised flag s M) ∧
      ∀ p < s.phis.size, flag.get ((LocalSsa.raised flag s M).phis.get p) = true ↔
        Flows g s₁.node (s.phis.get p).localOrd (source (s.phis.get p).localOrd)
          (s.phis.get p).basicBlock := by
  have hmem {p : ℕ} : p ∈ List.range s.phis.size ↔ p < s.phis.size := List.mem_range
  have hunmarked : Marking.unmarked (List.range s.phis.size)
      (fun p => flag.get (s.phis.get p)) + q.length ≤ fuel := by
    refine Nat.le_trans (Nat.add_le_add_right ?_ _) hfuel
    exact Nat.le_trans (List.length_filter_le _ _) (Nat.le_of_eq List.length_range)
  obtain ⟨M, hrun, hmarked⟩ := Marking.run_spec
    (fun a ha b (hb : b ∈ phiSuccs g s a) =>
      hmem.mpr ((h.mem_phiSuccs hwf hcanon (hmem.mp ha)).mp hb).1)
    (fun a ha => ((hq a).mp ha).imp_left hmem.mpr)
    (fun a ha hget => (hq a).mpr ⟨hmem.mp ha, hget⟩) hunmarked
  refine ⟨M, ?_, fun p hp => ?_⟩
  · have hraised : g.propagateFlag flag fuel
        (raised flag s fun p => flag.get (s.phis.get p)) q = _ :=
      propagateFlag_raised hflag fun _ hp => hp
    rw [raised_self hflag] at hraised
    exact hraised.trans (congrArg (Option.map _) hrun)
  · have hiff := hmarked p (hmem.mpr hp)
    rw [raised_flag hflag fun hget => hiff.mpr ⟨p, hmem.mpr hp, hget, .refl⟩, hiff,
      h.flows_iff hcanon hwf hp]
    refine exists_congr fun p₀ => ?_
    have hchain := @Complete.chain_iff g s₁ s p h hwf hcanon p₀ hp
    rw [hmem]
    constructor
    · rintro ⟨hp₀, hget, hsucc⟩
      obtain ⟨-, hi, hcomes⟩ := hchain.mp ⟨hp₀, hsucc⟩
      exact ⟨hp₀, hi, hi ▸ (hdirect p₀ hp₀).mp hget, hcomes⟩
    · rintro ⟨hp₀, hi, hd, hcomes⟩
      exact ⟨hp₀, (hdirect p₀ hp₀).mpr (hi.symm ▸ hd), (hchain.mpr ⟨hp₀, hi, hcomes⟩).2⟩

/-- There is no `Phi` at the entry. -/
theorem Complete.phiAtHead_entry (h : Complete g s₁ s) (hcanon : CanonicalGraph g s₁)
    (hwf : g.WellFormed) (i : ℕ) : s.phiAtHead g.cfg.getEntryBB i = none := by
  have hatHead := (hcanon.blocks _ hwf.consistent.entry.1).atHead.entry rfl i
  rcases h.placed.events g.cfg.getEntryBB i with ⟨hh, -⟩ | ⟨hnull, -⟩
  · rw [State.phiAtHead, hh]
    rcases hatHead with heq | ⟨m, heq⟩ <;> rw [heq]
  · rw [hnull] at hatHead
    rcases hatHead with heq | ⟨m, heq⟩ <;> cases heq

/-- Unreachable blocks have been removed: a store flows to every `Phi`, or the undefined value
does. -/
theorem Complete.flows_or_undef (h : Complete g s₁ s) (hcanon : CanonicalGraph g s₁)
    (hwf : g.WellFormed) {i b p : ℕ} (hb : b ∈ g.cfg.blocks) (hp : s.phiAtHead b i = some p) :
    Flows g s₁.node i (Stores g s₁.node i) b ∨
      Flows g s₁.node i (UndefAtEntry g s₁.node i) b := by
  have hreach := hwf.consistent.reach b hb
  clear hb
  suffices hall : b ∈ g.cfg.blocks ∧ ∀ p, s.phiAtHead b i = some p →
      Flows g s₁.node i (Stores g s₁.node i) b ∨
        Flows g s₁.node i (UndefAtEntry g s₁.node i) b from hall.2 p hp
  clear hp
  induction hreach with
  | refl =>
    refine ⟨hwf.consistent.entry.1, fun p hp => ?_⟩
    rw [h.phiAtHead_entry hcanon hwf] at hp
    cases hp
  | @tail a b _ hstep ih =>
    obtain ⟨ha, ih⟩ := ih
    have hb := hwf.consistent.closed a ha b hstep
    refine ⟨hb, fun p hp => ?_⟩
    obtain ⟨hlt, rfl, rfl⟩ := h.placed.located b hb i p hp
    have hpred := (hwf.consistent.mem _ hb a).mpr ⟨ha, hstep⟩
    by_cases hstored : s.Stored a (s.phis.get p).localOrd
    · exact .inl (.start ha ((h.stored_iff hcanon ha _).mp hstored) hstep)
    have hnot := (h.stored_iff hcanon ha _).not.mp hstored
    by_cases hundef : s.localInfoAtTail a (s.phis.get p).localOrd = .undefValue
    · exact .inr (.start ha ((h.undef_iff hcanon ha _).mp hundef) hstep)
    obtain ⟨q, hq⟩ := valueAtTail_cases (h.notNull p hlt a hpred) hstored hundef
    exact (ih q ((h.valueAtTail_iff hcanon ha).mp hq).1).imp (.pass ha · hnot hstep)
      (.pass ha · hnot hstep)

/-- The flags are right. -/
structure Flagged (g : Graph) (s₁ s : State) : Prop where
  complete : Complete g s₁ s
  canSee : ∀ p < s.phis.size, (s.phis.get p).canSeeSetLocal = true ↔
    Flows g s₁.node (s.phis.get p).localOrd (Stores g s₁.node (s.phis.get p).localOrd)
      (s.phis.get p).basicBlock
  maybeUndef : ∀ p < s.phis.size, (s.phis.get p).maybeUndefVal = true ↔
    Flows g s₁.node (s.phis.get p).localOrd (UndefAtEntry g s₁.node (s.phis.get p).localOrd)
      (s.phis.get p).basicBlock

/-- The first flag is raised where a store comes in directly. -/
theorem Built.direct_stores {w : Work} (h : Built g s₁ w) (hcanon : CanonicalGraph g s₁)
    (hwf : g.WellFormed) {p : ℕ} (hp : p < w.state.phis.size) :
    (w.state.phis.get p).canSeeSetLocal = true ↔
      Direct g w.state (Stores g s₁.node (w.state.phis.get p).localOrd) p := by
  have hb := (h.complete.placed.block p hp).1
  rw [h.stored p hp]
  refine exists_congr fun pred => and_congr_right fun hpred => ?_
  exact h.complete.stored_iff hcanon ((hwf.consistent.mem _ hb pred).mp hpred).1 _

/-- The second is raised where the undefined value comes in directly. -/
theorem Built.direct_undef {w : Work} (h : Built g s₁ w) (hcanon : CanonicalGraph g s₁)
    (hwf : g.WellFormed) {p : ℕ} (hp : p < w.state.phis.size) :
    (w.state.phis.get p).maybeUndefVal = true ↔
      Direct g w.state (UndefAtEntry g s₁.node (w.state.phis.get p).localOrd) p := by
  have hb := (h.complete.placed.block p hp).1
  rw [h.undef p hp]
  refine exists_congr fun pred => and_congr_right fun hpred => ?_
  exact h.complete.undef_iff hcanon ((hwf.consistent.mem _ hb pred).mp hpred).1 _

/-- One flag of all `Phi`s is raised in a loop. -/
theorem foldl_raise (flag : Flag) (s : State) :
    (List.range s.phis.size).foldl
        (fun s p => { s with phis := s.phis.modify p flag.raise }) s =
      raised flag s fun p => decide (p < s.phis.size) := by
  simp only [← List.mem_range]
  refine Folds.foldl_prefix
    (P := fun done s' => s' = raised flag s fun p => decide (p ∈ done)) ?_ ?_
  · simp [raised]
  · rintro done p rest s' hl rfl
    have hnot : p ∉ done := by
      have hnodup := List.nodup_range (n := s.phis.size)
      rw [hl] at hnodup
      exact fun hin => (List.nodup_append'.mp hnodup).2.2 hin (.head _)
    have hget : ((raised flag s fun p => decide (p ∈ done)).phis.modify p flag.raise).get =
        (raised flag s fun x => decide (x ∈ done ++ [p])).phis.get := by
      funext x
      by_cases hx : x = p
      · subst hx
        rw [Arena.get_modify_self, raised, raised]
        simp [hnot]
      · rw [Arena.get_modify_of_ne _ hx, raised, raised]
        simp [hx]
    exact congrArg (fun f => ({ s with phis := ⟨s.phis.size, f⟩ } : State)) hget

/-- Raising a flag does not move a `Phi`. -/
theorem raised_place {flag : Flag} (hflag : flag.Lawful) (s : State) (M : ℕ → Bool) (p : ℕ) :
    ((raised flag s M).phis.get p).basicBlock = (s.phis.get p).basicBlock ∧
      ((raised flag s M).phis.get p).localOrd = (s.phis.get p).localOrd :=
  ⟨raised_congr Phi.basicBlock hflag.keeps.basicBlock p,
    raised_congr Phi.localOrd hflag.keeps.localOrd p⟩

/-- Where some `Phi` has the undefined value among its inputs, each flag is propagated. -/
theorem computeFlags_of_undef {w : Work} (h : Built g s₁ w) (hcanon : CanonicalGraph g s₁)
    (hwf : g.WellFormed) {fuel : ℕ} (hundef : w.hasPhiReferenceUndefValue = true)
    (hfuel₂ : w.state.phis.size + w.q2.length ≤ fuel)
    (hfuel₃ : w.state.phis.size + w.q3.length ≤ fuel) :
    ∃ s, g.computeFlags fuel w = some s ∧ Flagged g s₁ s ∧ s.phis.size = w.state.phis.size := by
  obtain ⟨M, hrun, hsee⟩ := propagateFlag_spec h.complete hcanon hwf canSeeSetLocal_lawful
    (Stores g s₁.node) (fun p hp => h.direct_stores hcanon hwf hp) h.q2 hfuel₂
  have hcan := h.complete.raised (M := M) canSeeSetLocal_lawful fun _ => rfl
  have hmaybe (p : ℕ) : ((raised canSeeSetLocal w.state M).phis.get p).maybeUndefVal =
      (w.state.phis.get p).maybeUndefVal := raised_congr Phi.maybeUndefVal (fun _ => rfl) p
  have hdirect (p : ℕ) (hp : p < w.state.phis.size) :
      maybeUndefVal.get ((raised canSeeSetLocal w.state M).phis.get p) = true ↔
        Direct g (raised canSeeSetLocal w.state M) (UndefAtEntry g s₁.node
          ((raised canSeeSetLocal w.state M).phis.get p).localOrd) p := by
    obtain ⟨hb, hi⟩ := raised_place canSeeSetLocal_lawful w.state M p
    rw [Direct, hb, hi]
    exact (iff_of_eq (congrArg (· = true) (hmaybe p))).trans (h.direct_undef hcanon hwf hp)
  have hq₃ (p : ℕ) : p ∈ w.q3 ↔ p < w.state.phis.size ∧
      maybeUndefVal.get ((raised canSeeSetLocal w.state M).phis.get p) = true :=
    (h.q3 p).trans (and_congr_right fun _ =>
      (iff_of_eq (congrArg (· = true) (hmaybe p))).symm)
  obtain ⟨M', hrun', hmay⟩ := propagateFlag_spec hcan hcanon hwf maybeUndefVal_lawful
    (UndefAtEntry g s₁.node) hdirect hq₃ hfuel₃
  refine ⟨raised maybeUndefVal (raised canSeeSetLocal w.state M) M', ?_,
    ⟨hcan.raised maybeUndefVal_lawful fun _ => rfl, fun p hp => ?_, fun p hp => ?_⟩, rfl⟩
  · rw [Graph.computeFlags, if_pos hundef, hrun]
    exact hrun'
  · obtain ⟨hb, hi⟩ := raised_place maybeUndefVal_lawful (raised canSeeSetLocal w.state M) M' p
    obtain ⟨hb', hi'⟩ := raised_place canSeeSetLocal_lawful w.state M p
    rw [hb, hi, hb', hi', ← hsee p hp]
    exact iff_of_eq (congrArg (· = true) (raised_congr Phi.canSeeSetLocal (fun _ => rfl) p))
  · obtain ⟨hb, hi⟩ := raised_place maybeUndefVal_lawful (raised canSeeSetLocal w.state M) M' p
    rw [hb, hi]
    exact hmay p hp

/-- Where none has, a store flows to every `Phi`. -/
theorem computeFlags_of_not_undef {w : Work} (h : Built g s₁ w) (hcanon : CanonicalGraph g s₁)
    (hwf : g.WellFormed) (fuel : ℕ) (hundef : w.hasPhiReferenceUndefValue = false) :
    ∃ s, g.computeFlags fuel w = some s ∧ Flagged g s₁ s ∧ s.phis.size = w.state.phis.size ∧
      ∀ p < s.phis.size, (s.phis.get p).canSeeSetLocal = true := by
  have hnone {p : ℕ} (hp : p < w.state.phis.size) :
      ¬ (w.state.phis.get p).maybeUndefVal = true := by
    intro hm
    have := h.hasUndef.mpr ⟨p, hp, hm⟩
    rw [hundef] at this
    cases this
  generalize hM : (fun p => decide (p < w.state.phis.size)) = M
  have hall (p : ℕ) (hp : p < w.state.phis.size) :
      ((raised canSeeSetLocal w.state M).phis.get p).canSeeSetLocal = true := by
    rw [raised, ← hM]
    dsimp only
    rw [if_pos (decide_eq_true hp)]
    rfl
  refine ⟨raised canSeeSetLocal w.state M, ?_,
    ⟨h.complete.raised canSeeSetLocal_lawful fun _ => rfl, fun p hp => ?_, fun p hp => ?_⟩, rfl,
    hall⟩
  · rw [Graph.computeFlags, if_neg (by simp [hundef]), ← hM]
    exact congrArg some (foldl_raise canSeeSetLocal w.state)
  · obtain ⟨hb, hi⟩ := raised_place canSeeSetLocal_lawful w.state M p
    obtain ⟨hblock, -, hat⟩ := h.complete.placed.block p hp
    rw [hb, hi]
    refine ⟨fun _ => (h.complete.flows_or_undef hcanon hwf hblock hat).resolve_right
      fun hflows => ?_, fun _ => hall p hp⟩
    obtain ⟨p₀, hp₀, hi₀, hdirect, -⟩ := (h.complete.flows_iff hcanon hwf hp).mp hflows
    exact hnone hp₀ ((h.direct_undef hcanon hwf hp₀).mpr (hi₀ ▸ hdirect))
  · obtain ⟨hb, hi⟩ := raised_place canSeeSetLocal_lawful w.state M p
    rw [hb, hi, raised_congr Phi.maybeUndefVal (fun _ => rfl)]
    refine ⟨fun hm => absurd hm (hnone hp), fun hflows => ?_⟩
    obtain ⟨p₀, hp₀, hi₀, hdirect, -⟩ := (h.complete.flows_iff hcanon hwf hp).mp hflows
    exact absurd ((h.direct_undef hcanon hwf hp₀).mpr (hi₀ ▸ hdirect)) (hnone hp₀)

/-- **Both flags** are right in the end. -/
theorem computeFlags_spec {w : Work} (h : Built g s₁ w) (hcanon : CanonicalGraph g s₁)
    (hwf : g.WellFormed) {fuel : ℕ}
    (hfuel : w.state.phis.size + max w.q2.length w.q3.length ≤ fuel) :
    ∃ s, g.computeFlags fuel w = some s ∧ Flagged g s₁ s ∧ s.phis.size = w.state.phis.size ∧
      (w.hasPhiReferenceUndefValue = false →
        ∀ p < s.phis.size, (s.phis.get p).canSeeSetLocal = true) := by
  cases hundef : w.hasPhiReferenceUndefValue with
  | true =>
    have hfuel₂ : w.state.phis.size + w.q2.length ≤ fuel := by omega
    have hfuel₃ : w.state.phis.size + w.q3.length ≤ fuel := by omega
    obtain ⟨s, hrun, hflagged, hsize⟩ :=
      computeFlags_of_undef h hcanon hwf hundef hfuel₂ hfuel₃
    exact ⟨s, hrun, hflagged, hsize, fun heq => by cases heq⟩
  | false =>
    obtain ⟨s, hrun, hflagged, hsize, hall⟩ :=
      computeFlags_of_not_undef h hcanon hwf fuel hundef
    exact ⟨s, hrun, hflagged, hsize, fun _ => hall⟩

end Flags

end LocalSsa

end Dsom
