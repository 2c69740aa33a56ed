import Dsom.Ssa.Exact

/-!
# Ssa/LogicalVariables — one variable for what can flow

`SetupLogicalVariables`.  The nodes that a `Phi` stands for are merged, with one of its loads as the
representative (`mergedNodes`); then every set of loads and stores gets an entry of
`m_allLogicalVariables`.  Two of them get the same entry just when they are related by the
equivalence that `FlowsTo` generates (`logicalVariable_eq_iff`).
-/

namespace Dsom

namespace LocalSsa

/-! ## The pass -/

/-- `LogicalVariableInfo`: the local and the interpreter slot of a logical variable. -/
structure LogicalVariableInfo where
  localOrd : ℕ
  interpreterSlotOrd : ℕ
  deriving DecidableEq

/-- What the pass writes; a variable is given by its ordinal. -/
structure Variables where
  dsuParent : ℕ → ℕ
  logicalVariable : ℕ → Option ℕ
  allLogicalVariables : List LogicalVariableInfo
  ofPhi : ℕ → Option ℕ

/-- `GetLocalOperationLocalIdentifier`. -/
def Node.localIdentifier (node : Node) : Option LocalIdentifier :=
  match node.kind with
  | .getLocal ident => some ident
  | .setLocal ident => some ident
  | _ => none

namespace State

variable (s : State)

/-- The pairs that are merged for a `Phi`. -/
def mergedNodes (phi : ℕ) : List (ℕ × ℕ) :=
  let p := s.phis.get phi
  p.children.filterMap fun e =>
    match e with
    | .phi q => some (p.originNode, (s.phis.get q).originNode)
    | .setLocal m => some (p.originNode, m)
    | _ => none

/-- The last loop of `SetupLogicalVariables`. -/
def setLogicalVariable (v : Variables) (phi : ℕ) : Variables :=
  { v with
    ofPhi := Function.update v.ofPhi phi (v.logicalVariable (s.phis.get phi).originNode) }

end State

namespace Graph

variable (g : Graph)

/-- `LogicalVariableInfo::Create`. -/
def createInfo (ident : LocalIdentifier) : LogicalVariableInfo :=
  ⟨g.virtualRegister ident, g.interpreterSlot ident⟩

/-- Every phi at the head of a block. -/
def allPhis (s : State) : List ℕ :=
  g.cfg.blocks.flatMap fun bb => (List.range g.numLocals).filterMap (s.phiAtHead bb)

/-- The root of a set gets a new variable if it has none. -/
def registerRoot (s : State) (v : Variables) (root : ℕ) : Option Variables :=
  match v.logicalVariable root with
  | some _ => some v
  | none =>
    (s.node root).localIdentifier.map fun ident =>
      { v with
        logicalVariable :=
          Function.update v.logicalVariable root (some v.allLogicalVariables.length)
        allLogicalVariables := v.allLogicalVariables ++ [g.createInfo ident] }

/-- `SetupLogicalVariableInfoAfterDsuMerge`. -/
def setupLogicalVariableInfoAfterDsuMerge (fuel : ℕ) (s : State) (v : Variables) (n : ℕ) :
    Option Variables :=
  if (v.logicalVariable n).isSome then some v
  else
    (UnionFind.findRoot fuel v.dsuParent n).bind fun found =>
    (g.registerRoot s { v with dsuParent := found.2 } found.1).map fun v =>
      if n = found.1 then v
      else
        { v with
          logicalVariable :=
            Function.update v.logicalVariable n (v.logicalVariable found.1) }

/-- One node of the pass after the merge: only the accesses of locals have a variable. -/
def setupLogicalVariable (fuel : ℕ) (s : State) (v : Variables) (n : ℕ) : Option Variables :=
  if (s.node n).localIdentifier.isSome then g.setupLogicalVariableInfoAfterDsuMerge fuel s v n
  else some v

/-- `SetupLogicalVariables`: merge, number the accesses, then the phis. -/
def setupLogicalVariables (fuel : ℕ) (s : State) : Option Variables :=
  (UnionFind.mergeAll fuel (fun n => n) ((g.allPhis s).flatMap s.mergedNodes)).bind fun parent =>
  (g.cfg.blocks.foldlM
    (fun v bb => (g.cfg.nodes bb).foldlM (g.setupLogicalVariable fuel s) v)
    ⟨parent, fun _ => none, [], fun _ => none⟩).map fun v =>
  (g.allPhis s).foldl s.setLogicalVariable v

end Graph

/-! ## Numbering the sets

Each set gets a number the first time one of its members is seen. -/

section Numbered

open UnionFind

/-- A node that loads or stores a local. -/
def AccessOf (g : Graph) (s : State) (i n : ℕ) : Prop :=
  ∃ ident, (s.node n).localIdentifier = some ident ∧ g.virtualRegister ident = i

/-- **The invariant**: the sets of which a node was passed have a number, and the number of a set is
that of its root. -/
structure Numbered (g : Graph) (s : State) (l : List ℕ) (R : ℕ → ℕ → Prop) (done : List ℕ)
    (v : Variables) : Prop where
  represents : Represents l v.dsuParent R
  root : ∀ n ∈ l, ∀ k, v.logicalVariable n = some k → ∀ r, Root v.dsuParent n r →
    v.logicalVariable r = some k
  unique : ∀ n ∈ l, ∀ m ∈ l, ∀ k, v.logicalVariable n = some k → v.logicalVariable m = some k →
    R n m
  info : ∀ n ∈ l, ∀ k, v.logicalVariable n = some k → ∃ m ∈ l, R n m ∧ ∃ ident,
    (s.node m).localIdentifier = some ident ∧ v.allLogicalVariables[k]? = some (g.createInfo ident)
  used : ∀ k < v.allLogicalVariables.length, ∃ n ∈ l, v.logicalVariable n = some k ∧
    (s.node n).localIdentifier.isSome
  passed : ∀ n ∈ done, (s.node n).localIdentifier.isSome → (v.logicalVariable n).isSome

variable {g : Graph} {s : State} {l done : List ℕ} {R : ℕ → ℕ → Prop} {v : Variables} {n r k : ℕ}

/-- Variables that are given exist. -/
theorem Numbered.lt (h : Numbered g s l R done v) (hn : n ∈ l) (hk : v.logicalVariable n = some k) :
    k < v.allLogicalVariables.length := by
  obtain ⟨-, -, -, ident, -, hget⟩ := h.info n hn k hk
  exact (List.getElem?_eq_some_iff.mp hget).1

/-- The parents change, but not the roots. -/
theorem Numbered.setParent (h : Numbered g s l R done v) {parent : ℕ → ℕ}
    (hrep : Represents l parent R) (hroots : ∀ b r, Root v.dsuParent b r → Root parent b r) :
    Numbered g s l R done { v with dsuParent := parent } where
  represents := hrep
  root n hn k hk r hr := by
    obtain ⟨r', hr'⟩ := h.represents.root n hn
    obtain rfl := (hroots n r' hr').unique hr
    exact h.root n hn k hk r' hr'
  unique := h.unique
  info := h.info
  used := h.used
  passed := h.passed

/-- **A new number** for a root. -/
theorem Numbered.register (h : Numbered g s l R done v) (hr : r ∈ l) (hroot : v.dsuParent r = r)
    (hnone : v.logicalVariable r = none) {ident : LocalIdentifier}
    (hident : (s.node r).localIdentifier = some ident) :
    Numbered g s l R done
      { v with
        logicalVariable :=
          Function.update v.logicalVariable r (some v.allLogicalVariables.length)
        allLogicalVariables := v.allLogicalVariables ++ [g.createInfo ident] } := by
  have hrefl : R r r := (h.represents.related_iff hr hr (.self hroot) (.self hroot)).mpr rfl
  have hcases {n k : ℕ} (hk : Function.update v.logicalVariable r
      (some v.allLogicalVariables.length) n = some k) :
      n = r ∧ k = v.allLogicalVariables.length ∨ n ≠ r ∧ v.logicalVariable n = some k := by
    by_cases hn : n = r
    · subst hn
      rw [Function.update_self] at hk
      exact .inl ⟨rfl, (Option.some_inj.mp hk).symm⟩
    · rw [Function.update_of_ne hn] at hk
      exact .inr ⟨hn, hk⟩
  refine ⟨h.represents, fun n hn k hk r' hr' => ?_, fun n hn m hm k hk hk' => ?_,
    fun n hn k hk => ?_, fun k hk => ?_, fun n hn hlocal => ?_⟩
  · dsimp only
    rcases hcases hk with ⟨rfl, rfl⟩ | ⟨-, hk⟩
    · obtain rfl := Root.unique hr' (.self hroot)
      exact Function.update_self ..
    · have hold := h.root n hn k hk r' hr'
      rwa [Function.update_of_ne]
      rintro rfl
      rw [hnone] at hold
      cases hold
  · rcases hcases hk with ⟨rfl, rfl⟩ | ⟨-, hold⟩ <;> rcases hcases hk' with ⟨rfl, heq⟩ | ⟨-, hold'⟩
    · exact hrefl
    · exact absurd (h.lt hm hold') (lt_irrefl _)
    · exact absurd (heq ▸ h.lt hn hold) (lt_irrefl _)
    · exact h.unique n hn m hm k hold hold'
  · dsimp only
    rcases hcases hk with ⟨rfl, rfl⟩ | ⟨-, hold⟩
    · exact ⟨n, hr, hrefl, ident, hident, by simp⟩
    · obtain ⟨m, hm, hR, ident', hident', hget⟩ := h.info n hn k hold
      exact ⟨m, hm, hR, ident', hident', by rwa [List.getElem?_append_left (h.lt hn hold)]⟩
  · dsimp only at hk ⊢
    rw [List.length_append, List.length_singleton] at hk
    rcases Nat.lt_succ_iff_lt_or_eq.mp hk with hlt | rfl
    · obtain ⟨n, hn, hold, hlocal⟩ := h.used k hlt
      have hne : n ≠ r := by
        rintro rfl
        rw [hnone] at hold
        cases hold
      exact ⟨n, hn, by rwa [Function.update_of_ne hne], hlocal⟩
    · exact ⟨r, hr, Function.update_self .., by rw [hident]; rfl⟩
  · dsimp only
    by_cases hne : n = r
    · rw [hne, Function.update_self]
      rfl
    · rw [Function.update_of_ne hne]
      exact h.passed n hn hlocal

/-- A node gets the number of its root. -/
theorem Numbered.assign (h : Numbered g s l R done v) (hn : n ∈ l) (hr : Root v.dsuParent n r)
    (hk : v.logicalVariable r = some k) (hnone : v.logicalVariable n = none) :
    Numbered g s l R done
      { v with logicalVariable := Function.update v.logicalVariable n (some k) } := by
  have hrl := h.represents.root_mem hn hr
  have hnr : R n r := (h.represents.related_iff hn hrl hr (.self hr.fixed)).mpr rfl
  have hrn : R r n := (h.represents.related_iff hrl hn (.self hr.fixed) hr).mpr rfl
  have hne : r ≠ n := by
    rintro rfl
    rw [hnone] at hk
    cases hk
  have htrans {x y z : ℕ} (hx : x ∈ l) (hy : y ∈ l) (hz : z ∈ l) (hxy : R x y) (hyz : R y z) :
      R x z := by
    obtain ⟨a, hxa, hya⟩ := (h.represents.same x hx y hy).mpr hxy
    obtain ⟨b, hyb, hzb⟩ := (h.represents.same y hy z hz).mpr hyz
    obtain rfl := hya.unique hyb
    exact (h.represents.same x hx z hz).mp ⟨a, hxa, hzb⟩
  have hcases {m j : ℕ} (hj : Function.update v.logicalVariable n (some k) m = some j) :
      m = n ∧ j = k ∨ v.logicalVariable m = some j := by
    by_cases hm : m = n
    · subst hm
      rw [Function.update_self] at hj
      exact .inl ⟨rfl, (Option.some_inj.mp hj).symm⟩
    · rw [Function.update_of_ne hm] at hj
      exact .inr hj
  have hkept {m j : ℕ} (hj : v.logicalVariable m = some j) :
      Function.update v.logicalVariable n (some k) m = some j := by
    rwa [Function.update_of_ne]
    rintro rfl
    rw [hnone] at hj
    cases hj
  refine ⟨h.represents, fun m hm j hj r' hr' => ?_, fun m hm m' hm' j hj hj' => ?_,
    fun m hm j hj => ?_, fun j hj => ?_, fun m hm hlocal => ?_⟩
  · rcases hcases hj with ⟨rfl, rfl⟩ | hj
    · obtain rfl := hr.unique hr'
      exact hkept hk
    · exact hkept (h.root m hm j hj r' hr')
  · rcases hcases hj with ⟨rfl, rfl⟩ | hold <;> rcases hcases hj' with ⟨rfl, heq⟩ | hold'
    · exact (h.represents.related_iff hn hn hr hr).mpr rfl
    · exact htrans hn hrl hm' hnr (h.unique r hrl m' hm' _ hk hold')
    · exact htrans hm hrl hn (h.unique m hm r hrl _ (heq ▸ hold) hk) hrn
    · exact h.unique m hm m' hm' j hold hold'
  · rcases hcases hj with ⟨rfl, rfl⟩ | hold
    · obtain ⟨x, hx, hrx, hrest⟩ := h.info r hrl _ hk
      exact ⟨x, hx, htrans hn hrl hx hnr hrx, hrest⟩
    · exact h.info m hm j hold
  · obtain ⟨m, hm, hold, hlocal⟩ := h.used j hj
    exact ⟨m, hm, hkept hold, hlocal⟩
  · obtain ⟨j, hj⟩ := Option.isSome_iff_exists.mp (h.passed m hm hlocal)
    dsimp only
    rw [hkept hj]
    rfl

/-- **One node** is passed. -/
theorem Numbered.step {fuel : ℕ} (h : Numbered g s l R done v) (hn : n ∈ l)
    (hfuel : l.length ≤ fuel)
    (haccess : ∀ x ∈ l, R n x → (s.node n).localIdentifier.isSome →
      (s.node x).localIdentifier.isSome) :
    ∃ v', g.setupLogicalVariable fuel s v n = some v' ∧ Numbered g s l R (done ++ [n]) v' := by
  have hpass {v' : Variables} (h' : Numbered g s l R done v')
      (hsome : (s.node n).localIdentifier.isSome → (v'.logicalVariable n).isSome) :
      Numbered g s l R (done ++ [n]) v' := by
    refine ⟨h'.represents, h'.root, h'.unique, h'.info, h'.used, fun x hx hlocal => ?_⟩
    rcases List.mem_append.mp hx with hx | hx
    · exact h'.passed x hx hlocal
    · obtain rfl := List.mem_singleton.mp hx
      exact hsome hlocal
  rw [Graph.setupLogicalVariable]
  split_ifs with hlocal
  · rw [Graph.setupLogicalVariableInfoAfterDsuMerge]
    split_ifs with hnew
    · exact ⟨v, rfl, hpass h fun _ => hnew⟩
    · rw [Bool.not_eq_true, Option.isSome_eq_false_iff, Option.isNone_iff_eq_none] at hnew
      obtain ⟨m, r, hends, hm⟩ := h.represents.exists_ends hn
      obtain ⟨parent, hfind, hrep, hroots⟩ :=
        findRoot_spec h.represents hn hends (Nat.lt_of_lt_of_le hm hfuel)
      have hr : Root parent n r := hroots n r ⟨m, hends⟩
      have h₁ := h.setParent hrep hroots
      have hrl := hrep.root_mem hn hr
      obtain ⟨v₂, k, hreg, h₂, hk, hother, hparent⟩ : ∃ v₂ k,
          g.registerRoot s { v with dsuParent := parent } r = some v₂ ∧
            Numbered g s l R done v₂ ∧ v₂.logicalVariable r = some k ∧
              (n ≠ r → v₂.logicalVariable n = none) ∧ v₂.dsuParent = parent := by
        rw [Graph.registerRoot]
        dsimp only
        cases hold : v.logicalVariable r with
        | some k => exact ⟨_, k, rfl, h₁, hold, fun _ => hnew, rfl⟩
        | none =>
          obtain ⟨ident, hident⟩ := Option.isSome_iff_exists.mp
            (haccess r hrl ((hrep.related_iff hn hrl hr (.self hr.fixed)).mpr rfl) hlocal)
          rw [hident]
          refine ⟨_, _, rfl, h₁.register hrl hr.fixed hold hident, Function.update_self ..,
            fun hne => ?_, rfl⟩
          dsimp only
          rw [Function.update_of_ne hne]
          exact hnew
      rw [hfind, Option.bind_some, hreg, Option.map_some]
      split_ifs with hnr
      · subst hnr
        exact ⟨v₂, rfl, hpass h₂ fun _ => by rw [hk]; rfl⟩
      · rw [hk]
        refine ⟨_, rfl, hpass (h₂.assign hn (hparent ▸ hr) hk (hother hnr)) fun _ => ?_⟩
        dsimp only
        rw [Function.update_self]
        rfl
  · exact ⟨v, rfl, hpass h fun h' => absurd h' hlocal⟩

end Numbered

/-! ## What is merged

The origin of a `Phi` with everything that comes in. -/

section Merged

open Relation

variable {g : Graph} {s : State} {a b i m n p q x y : ℕ}

/-- Two nodes are merged for some `Phi`. -/
def Merges (g : Graph) (s : State) (x y : ℕ) : Prop :=
  (x, y) ∈ (g.allPhis s).flatMap s.mergedNodes

/-- The pairs that a `Phi` merges. -/
theorem mem_mergedNodes : (x, y) ∈ s.mergedNodes p ↔ x = (s.phis.get p).originNode ∧
    ((∃ q, s.ComesIn q p ∧ y = (s.phis.get q).originNode) ∨
      .setLocal y ∈ (s.phis.get p).children) := by
  rw [State.mergedNodes, List.mem_filterMap]
  constructor
  · rintro ⟨e, he, hsome⟩
    cases e with
    | phi q =>
      obtain ⟨rfl, rfl⟩ := Prod.ext_iff.mp (Option.some_inj.mp hsome)
      exact ⟨rfl, .inl ⟨q, he, rfl⟩⟩
    | setLocal m =>
      obtain ⟨rfl, rfl⟩ := Prod.ext_iff.mp (Option.some_inj.mp hsome)
      exact ⟨rfl, .inr he⟩
    | _ => cases hsome
  · rintro ⟨rfl, ⟨q, hin, rfl⟩ | hin⟩
    · exact ⟨.phi q, hin, rfl⟩
    · exact ⟨.setLocal y, hin, rfl⟩

/-- Every `Phi` of the graph is at some head. -/
theorem BlockLocalSsa.mem_allPhis (h : BlockLocalSsa g s) : p ∈ g.allPhis s ↔ s.InGraph g p := by
  simp only [Graph.allPhis, List.mem_flatMap, List.mem_filterMap, List.mem_range]
  constructor
  · rintro ⟨b, hb, i, -, hat⟩
    exact ⟨b, hb, i, hat⟩
  · rintro ⟨b, hb, i, hat⟩
    exact ⟨b, hb, i, (h.located b hb i p hat).2.2, hat⟩

/-- What is merged, by the `Phi`s of the graph. -/
theorem BlockLocalSsa.merges_iff (h : BlockLocalSsa g s) : Merges g s x y ↔
    ∃ p, s.InGraph g p ∧ x = (s.phis.get p).originNode ∧
      ((∃ q, s.ComesIn q p ∧ y = (s.phis.get q).originNode) ∨
        .setLocal y ∈ (s.phis.get p).children) := by
  simp only [Merges, List.mem_flatMap, h.mem_allPhis, mem_mergedNodes]

/-- Where a `Phi` of the graph is. -/
theorem BlockLocalSsa.block (h : BlockLocalSsa g s) (hp : s.InGraph g p) :
    (s.phis.get p).basicBlock ∈ g.cfg.blocks ∧
      s.phiAtHead (s.phis.get p).basicBlock (s.phis.get p).localOrd = some p := by
  obtain ⟨b, hb, i, hat⟩ := hp
  obtain ⟨rfl, rfl, -⟩ := h.located b hb i p hat
  exact ⟨hb, hat⟩

/-- What comes in at a `Phi` comes from a predecessor. -/
theorem BlockLocalSsa.mem_children (h : BlockLocalSsa g s) (hwf : g.WellFormed)
    (hp : s.InGraph g p) {e : PhiOrNode} (he : e ∈ (s.phis.get p).children) :
    ∃ a ∈ g.cfg.blocks, (s.phis.get p).basicBlock ∈ g.cfg.successors a ∧
      s.valueAtTail a (s.phis.get p).localOrd = e := by
  rw [h.children p hp, List.mem_map] at he
  obtain ⟨a, ha, hvalue⟩ := he
  obtain ⟨halive, hsucc⟩ := (hwf.consistent.mem _ (h.block hp).1 a).mp ha
  exact ⟨a, halive, hsucc, hvalue⟩

/-- The `Phi` at the tail of a block is the one at its head. -/
theorem BlockLocalSsa.valueAtTail_phi (h : BlockLocalSsa g s) (ha : a ∈ g.cfg.blocks)
    (hvalue : s.valueAtTail a i = .phi q) : s.phiAtHead a i = some q ∧ ¬ Stores g s.node i a := by
  have hnot : ¬ Stores g s.node i a := by
    rintro ⟨m, hm⟩
    rw [State.valueAtTail_of_ne (h.store a ha i m hm) (by simp)] at hvalue
    cases hvalue
  refine ⟨?_, hnot⟩
  rcases h.events a ha i with hevents | ⟨p, hh, ht⟩
  · cases htail : s.localInfoAtTail a i with
    | getLocal n =>
      obtain ⟨hhead, -⟩ := (htail ▸ hevents).tail_getLocal
      rw [State.phiAtHead_getLocal hhead]
      rw [State.valueAtTail_getLocal htail] at hvalue
      cases hinfo : s.dataFlowInfo n with
      | none =>
        rw [hinfo] at hvalue
        cases hvalue
      | some p =>
        rw [hinfo] at hvalue
        exact congrArg some (PhiOrNode.phi.inj hvalue)
    | phi p => exact (htail ▸ hevents).tail_phi.elim
    | _ =>
      rw [State.valueAtTail_of_ne htail (by simp)] at hvalue
      cases hvalue
  · rw [State.valueAtTail_of_ne ht (by simp)] at hvalue
    obtain rfl := PhiOrNode.phi.inj hvalue
    exact State.phiAtHead_phi hh

/-- A `Phi` comes in from a block that leaves the local alone. -/
theorem BlockLocalSsa.passes (h : BlockLocalSsa g s) (hwf : g.WellFormed) (hp : s.InGraph g p)
    (hin : s.ComesIn q p) : (s.phis.get q).localOrd = (s.phis.get p).localOrd ∧
      Passes g s.node (s.phis.get p).localOrd (s.phis.get q).basicBlock
        (s.phis.get p).basicBlock := by
  obtain ⟨a, ha, hsucc, hvalue⟩ := h.mem_children hwf hp hin
  obtain ⟨hat, hnot⟩ := h.valueAtTail_phi ha hvalue
  obtain ⟨rfl, hi, -⟩ := h.located a ha _ q hat
  exact ⟨hi, ha, hnot, hsucc⟩

/-- From a `Phi` there is a way to the load that stands for it. -/
theorem BlockLocalSsa.way_origin (h : BlockLocalSsa g s) (hwf : g.WellFormed)
    (hp : s.InGraph g p) : ∃ b ∈ g.cfg.blocks,
      IsLoad g s.node (g.cfg.nodes b) (s.phis.get p).localOrd (s.phis.get p).originNode ∧
        ReflTransGen (Passes g s.node (s.phis.get p).localOrd) (s.phis.get p).basicBlock b := by
  obtain ⟨b, hb, i, p₀, hload, hinfo, hchain⟩ := h.notStray p hp
  have hat : s.phiAtHead b i = some p₀ :=
    (State.phiAtHead_getLocal (h.load b hb i _ hload)).trans hinfo
  obtain ⟨rfl, rfl, -⟩ := h.located b hb i p₀ hat
  have hall : s.InGraph g p₀ ∧ (s.phis.get p).localOrd = (s.phis.get p₀).localOrd ∧
      ReflTransGen (Passes g s.node (s.phis.get p₀).localOrd) (s.phis.get p).basicBlock
        (s.phis.get p₀).basicBlock := by
    have hp₀ : s.InGraph g p₀ := ⟨_, hb, _, hat⟩
    clear hload hinfo hat hb
    induction hchain using ReflTransGen.head_induction_on with
    | refl => exact ⟨hp₀, rfl, .refl⟩
    | @head q r hstep hrest ih =>
      have hr : s.InGraph g r := by
        clear ih hstep hp
        induction hrest using ReflTransGen.head_induction_on with
        | refl => exact hp₀
        | head hstep _ ih => exact h.comesIn _ ih _ hstep
      obtain ⟨-, hri, hway⟩ := ih hr
      obtain ⟨hqi, hpass⟩ := h.passes hwf hr hstep
      exact ⟨hp₀, hqi.trans hri, .head (hri ▸ hpass) hway⟩
  obtain ⟨-, hi, hway⟩ := hall
  rw [hi]
  exact ⟨_, hb, hload, hway⟩

/-- A store that flows to a `Phi` flows to the load that stands for it. -/
theorem BlockLocalSsa.flowsTo_origin (h : BlockLocalSsa g s) (hwf : g.WellFormed)
    (hp : s.InGraph g p) (hm : IsStore g s.node (g.cfg.nodes a) (s.phis.get p).localOrd m)
    (hway : Way g s.node (s.phis.get p).localOrd a (s.phis.get p).basicBlock) :
    FlowsTo g s.node m (s.phis.get p).originNode := by
  obtain ⟨ha, succ, hsucc, hchain⟩ := hway
  obtain ⟨b, hb, hload, hrest⟩ := h.way_origin hwf hp
  exact ⟨_, a, b, hm, ⟨ha, succ, hsucc, hchain.trans hrest⟩, hb, hload⟩

/-- A store that comes in at a `Phi`. -/
theorem BlockLocalSsa.flowsTo_of_child (h : BlockLocalSsa g s) (hwf : g.WellFormed)
    (hp : s.InGraph g p) (hm : .setLocal m ∈ (s.phis.get p).children) :
    FlowsTo g s.node m (s.phis.get p).originNode := by
  obtain ⟨a, ha, hsucc, hvalue⟩ := h.mem_children hwf hp hm
  have htail := tail_of_valueAtTail hvalue (by simp) (by simp)
  have hstore : IsStore g s.node (g.cfg.nodes a) (s.phis.get p).localOrd m := by
    rcases h.events a ha (s.phis.get p).localOrd with hevents | ⟨x, -, hx⟩
    · exact (htail ▸ hevents).tail_setLocal.1
    · rw [htail] at hx
      cases hx
  exact h.flowsTo_origin hwf hp hstore ⟨ha, _, hsucc, .refl⟩

/-- **What is merged** is related: a store flows to both. -/
theorem BlockLocalSsa.related_of_merges (h : BlockLocalSsa g s) (hwf : g.WellFormed)
    (hmerges : Merges g s x y) : EqvGen (FlowsTo g s.node) x y := by
  obtain ⟨p, hp, rfl, ⟨q, hin, rfl⟩ | hm⟩ := h.merges_iff.mp hmerges
  · have hq := h.comesIn p hp q hin
    obtain ⟨hi, hpass⟩ := h.passes hwf hp hin
    obtain ⟨a, ⟨m, hm⟩, ha, succ, hsucc, hchain⟩ := flows_iff_way.mp (h.reached q hq)
    have hflows : FlowsTo g s.node m (s.phis.get p).originNode := by
      refine h.flowsTo_origin hwf hp (hi ▸ hm) ⟨ha, succ, hsucc, ?_⟩
      rw [hi] at hchain
      exact hchain.tail hpass
    exact (EqvGen.rel _ _ hflows).symm.trans _ _ _
      (.rel _ _ (h.flowsTo_origin hwf hq hm ⟨ha, succ, hsucc, hchain⟩))
  · exact (EqvGen.rel _ _ (h.flowsTo_of_child hwf hp hm)).symm

/-- The `Phi`s on a way to a load are merged with it. -/
theorem BlockLocalSsa.merged_on_way (h : BlockLocalSsa g s) (hwf : g.WellFormed)
    (hb : b ∈ g.cfg.blocks) (hn : IsLoad g s.node (g.cfg.nodes b) i n)
    (hway : ReflTransGen (Passes g s.node i) a b)
    (hdef : a ∈ g.cfg.blocks ∧ s.localInfoAtHead a i ≠ .undefValue) :
    ∃ p, s.phiAtHead a i = some p ∧ EqvGen (Merges g s) (s.phis.get p).originNode n := by
  induction hway using ReflTransGen.head_induction_on with
  | refl =>
    obtain ⟨p, hinfo, horigin⟩ := h.origin b hb i n hn
    refine ⟨p, (State.phiAtHead_getLocal (h.load b hb i n hn)).trans hinfo, ?_⟩
    rw [horigin]
    exact .refl n
  | @head a c hstep _ ih =>
    obtain ⟨ha, hnot, hsucc⟩ := hstep
    have hc := hwf.consistent.closed a ha c hsucc
    have hpred := (hwf.consistent.mem c hc a).mpr ⟨ha, hsucc⟩
    have htail : s.localInfoAtTail a i ≠ .undefValue := by
      intro hundef
      rcases h.events a ha i with hevents | ⟨x, -, hx⟩
      · exact hdef.2 (hundef ▸ hevents).tail_undef
      · rw [hundef] at hx
        cases hx
    obtain ⟨p, hat, hrelated⟩ :=
      ih ⟨hc, fun hundef => htail (h.undef c hc i hundef a hpred)⟩
    have hp : s.InGraph g p := ⟨c, hc, i, hat⟩
    obtain ⟨rfl, rfl, -⟩ := h.located c hc i p hat
    have hchild : s.valueAtTail a (s.phis.get p).localOrd ∈ (s.phis.get p).children := by
      rw [h.children p hp]
      exact List.mem_map_of_mem hpred
    have hnull : s.valueAtTail a (s.phis.get p).localOrd ≠ .null :=
      fun hnull => h.notNull p hp (hnull ▸ hchild)
    have hstored : ¬ s.Stored a (s.phis.get p).localOrd := by
      rintro ⟨m, hm⟩
      rcases h.events a ha (s.phis.get p).localOrd with hevents | ⟨x, -, hx⟩
      · exact hnot ⟨m, (hm ▸ hevents).tail_setLocal.1⟩
      · rw [hm] at hx
        cases hx
    obtain ⟨q, hq⟩ := valueAtTail_cases hnull hstored htail
    rw [hq] at hchild
    refine ⟨q, (h.valueAtTail_phi ha hq).1, EqvGen.trans _ _ _ (.symm _ _ (.rel _ _ ?_)) hrelated⟩
    exact h.merges_iff.mpr ⟨p, hp, rfl, .inl ⟨q, hchild, rfl⟩⟩

/-- **What is related** by a flow is merged. -/
theorem BlockLocalSsa.merges_of_flowsTo (h : BlockLocalSsa g s) (hwf : g.WellFormed)
    (hflows : FlowsTo g s.node m n) : EqvGen (Merges g s) m n := by
  obtain ⟨i, a, b, hm, ⟨ha, succ, hsucc, hchain⟩, hb, hn⟩ := hflows
  have hlive := hwf.consistent.closed a ha succ hsucc
  have hpred := (hwf.consistent.mem succ hlive a).mpr ⟨ha, hsucc⟩
  have htail := h.store a ha i m hm
  obtain ⟨p, hat, hrelated⟩ := h.merged_on_way hwf hb hn hchain ⟨hlive, fun hundef => by
    have := h.undef succ hlive i hundef a hpred
    rw [htail] at this
    cases this⟩
  have hp : s.InGraph g p := ⟨succ, hlive, i, hat⟩
  obtain ⟨rfl, rfl, -⟩ := h.located succ hlive i p hat
  refine EqvGen.trans _ _ _ (.symm _ _ (.rel _ _ ?_)) hrelated
  refine h.merges_iff.mpr ⟨p, hp, rfl, .inr ?_⟩
  have hvalue := State.valueAtTail_of_ne htail (by simp)
  rw [h.children p hp, ← hvalue]
  exact List.mem_map_of_mem hpred

/-- The merges and the flows generate the same classes. -/
theorem BlockLocalSsa.related_iff (h : BlockLocalSsa g s) (hwf : g.WellFormed) :
    EqvGen (Merges g s) x y ↔ EqvGen (FlowsTo g s.node) x y := by
  have hle : EqvGen (Merges g s) ≤ EqvGen (FlowsTo g s.node) :=
    EqvGen.eqvGen_le fun _ _ hmerges => h.related_of_merges hwf hmerges
  have hge : EqvGen (FlowsTo g s.node) ≤ EqvGen (Merges g s) :=
    EqvGen.eqvGen_le fun _ _ hflows => h.merges_of_flowsTo hwf hflows
  exact ⟨hle x y, hge x y⟩

end Merged

/-! ## The variables

Accesses have the same variable exactly if something flows between them. -/

section Variables

open Relation

variable {g : Graph} {s : State} {v : Variables} {i m n p x y : ℕ}

/-- A node of the graph that loads or stores a local. -/
def IsAccess (g : Graph) (s : State) (n : ℕ) : Prop :=
  n ∈ g.cfg.blocks.flatMap g.cfg.nodes ∧ (s.node n).localIdentifier.isSome

/-- What flows goes from an access to an access. -/
theorem FlowsTo.isAccess (h : FlowsTo g s.node m n) : IsAccess g s m ∧ IsAccess g s n := by
  obtain ⟨i, a, b, ⟨hm, ident, hkind, -⟩, ⟨ha, -⟩, hb, hn, ident', hkind', -⟩ := h
  refine ⟨⟨List.mem_flatMap.mpr ⟨a, ha, hm⟩, ?_⟩, List.mem_flatMap.mpr ⟨b, hb, hn⟩, ?_⟩
  · rw [Node.localIdentifier, hkind]
    rfl
  · rw [Node.localIdentifier, hkind']
    rfl

/-- Nodes that are related are about the same local. -/
theorem accessOf_of_related (h : EqvGen (FlowsTo g s.node) x y) :
    AccessOf g s i x ↔ AccessOf g s i y := by
  induction h with
  | rel m n h =>
    obtain ⟨j, a, b, ⟨-, ident, hkind, rfl⟩, -, -, -, ident', hkind', hreg⟩ := h
    simp only [AccessOf, Node.localIdentifier, hkind, hkind', Option.some_inj, exists_eq_left',
      hreg]
  | refl => rfl
  | symm _ _ _ ih => exact ih.symm
  | trans _ _ _ _ _ ih ih' => exact ih.trans ih'

theorem isSome_iff_accessOf : (s.node n).localIdentifier.isSome ↔ ∃ i, AccessOf g s i n := by
  rw [Option.isSome_iff_exists]
  constructor
  · rintro ⟨ident, hident⟩
    exact ⟨_, ident, hident, rfl⟩
  · rintro ⟨-, ident, hident, -⟩
    exact ⟨ident, hident⟩

theorem foldl_setLogicalVariable (l : List ℕ) (v : Variables) :
    ∃ ofPhi, l.foldl s.setLogicalVariable v = { v with ofPhi := ofPhi } ∧
      ∀ p ∈ l, ofPhi p = v.logicalVariable (s.phis.get p).originNode := by
  refine Folds.foldl_prefix (P := fun done v' => ∃ ofPhi, v' = { v with ofPhi := ofPhi } ∧
    ∀ p ∈ done, ofPhi p = v.logicalVariable (s.phis.get p).originNode) ?_ ?_
  · exact ⟨v.ofPhi, rfl, fun p hp => by cases hp⟩
  · rintro done q rest - - ⟨ofPhi, rfl, hdone⟩
    refine ⟨_, rfl, fun p hp => ?_⟩
    by_cases hpq : p = q
    · subst hpq
      exact Function.update_self ..
    · rw [Function.update_of_ne hpq]
      exact hdone p ((List.mem_append.mp hp).resolve_right fun h =>
        hpq (List.mem_singleton.mp h))

/-- **What the variables are**: classes of loads and stores between which values can flow. -/
structure ClassesOfFlows (g : Graph) (s : State) (v : Variables) : Prop where
  same : ∀ n n', IsAccess g s n → IsAccess g s n' →
    (v.logicalVariable n = v.logicalVariable n' ↔ EqvGen (FlowsTo g s.node) n n')
  info : ∀ n, IsAccess g s n → ∀ ident, (s.node n).localIdentifier = some ident →
    ∃ k n' ident', v.logicalVariable n = some k ∧ EqvGen (FlowsTo g s.node) n n' ∧
      (s.node n').localIdentifier = some ident' ∧
      v.allLogicalVariables[k]? = some (g.createInfo ident') ∧
      g.virtualRegister ident' = g.virtualRegister ident
  used : ∀ k < v.allLogicalVariables.length, ∃ n, IsAccess g s n ∧ v.logicalVariable n = some k
  phi : ∀ p, s.InGraph g p → v.ofPhi p = v.logicalVariable (s.phis.get p).originNode
  comesIn : ∀ p, s.InGraph g p → ∀ q, s.ComesIn q p → v.ofPhi q = v.ofPhi p
  stored : ∀ p, s.InGraph g p → ∀ m, .setLocal m ∈ (s.phis.get p).children →
    v.logicalVariable m = v.ofPhi p

/-- A `Phi` was made for a load. -/
theorem BlockLocalSsa.isAccess_originNode (h : BlockLocalSsa g s) (hwf : g.WellFormed) {p : ℕ}
    (hp : s.InGraph g p) : IsAccess g s (s.phis.get p).originNode := by
  obtain ⟨b, hb, ⟨hin, ident, hkind, -⟩, -⟩ := h.way_origin hwf hp
  refine ⟨List.mem_flatMap.mpr ⟨b, hb, hin⟩, ?_⟩
  rw [Node.localIdentifier, hkind]
  rfl

/-- Only loads and stores of the graph are merged. -/
theorem BlockLocalSsa.mem_of_merged (h : BlockLocalSsa g s) (hwf : g.WellFormed) :
    ∀ p ∈ (g.allPhis s).flatMap s.mergedNodes, p.1 ∈ g.cfg.blocks.flatMap g.cfg.nodes ∧
      p.2 ∈ g.cfg.blocks.flatMap g.cfg.nodes := by
  rintro ⟨x, y⟩ hxy
  obtain ⟨p, hp, rfl, ⟨q, hin, rfl⟩ | hm⟩ := h.merges_iff.mp hxy
  · exact ⟨(h.isAccess_originNode hwf hp).1,
      (h.isAccess_originNode hwf (h.comesIn p hp q hin)).1⟩
  · have hflows := (h.flowsTo_of_child hwf hp hm).isAccess
    exact ⟨hflows.2.1, hflows.1.1⟩

/-- Nothing is numbered at first. -/
theorem Numbered.init {l : List ℕ} {R : ℕ → ℕ → Prop} {parent : ℕ → ℕ}
    (h : UnionFind.Represents l parent R) :
    Numbered g s l R [] ⟨parent, fun _ => none, [], fun _ => none⟩ := by
  refine ⟨h, ?_, ?_, ?_, ?_, fun n hn => by cases hn⟩
  · intro n _ k hk
    cases hk
  · intro n _ m _ k hk
    cases hk
  · intro n _ k hk
    cases hk
  · intro k hk
    cases hk

/-- In the end two loads or stores have the same number just when they are related. -/
theorem Numbered.same_iff {l : List ℕ} {R : ℕ → ℕ → Prop} {v : Variables}
    (hv : Numbered g s l R l v) {n n' : ℕ} (hn : n ∈ l) (hn' : n' ∈ l)
    (hlocal : (s.node n).localIdentifier.isSome) (hlocal' : (s.node n').localIdentifier.isSome) :
    v.logicalVariable n = v.logicalVariable n' ↔ R n n' := by
  obtain ⟨k, hk⟩ := Option.isSome_iff_exists.mp (hv.passed n hn hlocal)
  obtain ⟨k', hk'⟩ := Option.isSome_iff_exists.mp (hv.passed n' hn' hlocal')
  constructor
  · intro heq
    exact hv.unique n hn n' hn' k hk (heq ▸ hk)
  · intro hrelated
    obtain ⟨r, hr, hr'⟩ := (hv.represents.same n hn n' hn').mpr hrelated
    have heq := hv.root n hn k hk r hr
    rw [hv.root n' hn' k' hk' r hr'] at heq
    rw [hk, hk', ← heq]

/-- **`SetupLogicalVariables`** on a graph in block-local SSA form. -/
theorem BlockLocalSsa.setupLogicalVariables_spec (h : BlockLocalSsa g s) (hwf : g.WellFormed)
    {fuel : ℕ} (hfuel : (g.cfg.blocks.flatMap g.cfg.nodes).length ≤ fuel) :
    ∃ v, g.setupLogicalVariables fuel s = some v ∧ ClassesOfFlows g s v := by
  have horigin {p : ℕ} (hp : s.InGraph g p) := h.isAccess_originNode hwf hp
  have hpairs := h.mem_of_merged hwf
  generalize hl : g.cfg.blocks.flatMap g.cfg.nodes = l at hfuel hpairs
  obtain ⟨parent, hmerge, hrep⟩ :=
    UnionFind.mergeAll_spec (UnionFind.Represents.singletons l) hpairs hfuel
  have hR (x y : ℕ) : EqvGen (fun x y => False ∨ (x, y) ∈ (g.allPhis s).flatMap s.mergedNodes) x y ↔
      EqvGen (FlowsTo g s.node) x y := by
    simp only [false_or]
    exact h.related_iff hwf
  obtain ⟨v, hloop, hv⟩ : ∃ v, l.foldlM (g.setupLogicalVariable fuel s)
      ⟨parent, fun _ => none, [], fun _ => none⟩ = some v ∧
      Numbered g s l (EqvGen (FlowsTo g s.node)) l v := by
    refine Folds.foldlM_prefix (P := Numbered g s l (EqvGen (FlowsTo g s.node)))
      (.init (hrep.congr fun x _ y _ => hR x y)) ?_
    intro done n rest v hl h'
    refine h'.step (hl ▸ List.mem_append_right _ (.head _)) hfuel fun x _ hx hn => ?_
    obtain ⟨i, hi⟩ := (isSome_iff_accessOf (g := g)).mp hn
    exact isSome_iff_accessOf.mpr ⟨i, (accessOf_of_related hx).mp hi⟩
  obtain ⟨ofPhi, hfold, hofPhi⟩ := foldl_setLogicalVariable (s := s) (g.allPhis s) v
  have hsame : ∀ n n', IsAccess g s n → IsAccess g s n' →
      (v.logicalVariable n = v.logicalVariable n' ↔ EqvGen (FlowsTo g s.node) n n') :=
    fun n n' hn hn' => hv.same_iff (hl ▸ hn.1) (hl ▸ hn'.1) hn.2 hn'.2
  have hphi {p : ℕ} (hp : s.InGraph g p) :
      ofPhi p = v.logicalVariable (s.phis.get p).originNode := hofPhi p (h.mem_allPhis.mpr hp)
  refine ⟨{ v with ofPhi := ofPhi }, ?_, hsame, fun n hn ident hident => ?_, fun k hk => ?_,
    fun p hp => hphi hp, fun p hp q hin => ?_, fun p hp m hm => ?_⟩
  · rw [Graph.setupLogicalVariables, hmerge, Option.bind_some, Folds.foldlM_flatMap, hl, hloop,
      Option.map_some, hfold]
  · obtain ⟨hin, hlocal⟩ := hn
    rw [hl] at hin
    obtain ⟨k, hk⟩ := Option.isSome_iff_exists.mp (hv.passed n hin hlocal)
    obtain ⟨n', hn', hrelated, ident', hident', hget⟩ := hv.info n hin k hk
    refine ⟨k, n', ident', hk, hrelated, hident', hget, ?_⟩
    obtain ⟨ident'', hident'', hreg⟩ :=
      (accessOf_of_related (i := g.virtualRegister ident) hrelated).mp ⟨ident, hident, rfl⟩
    cases hident'.symm.trans hident''
    exact hreg
  · obtain ⟨n, hn, hk, hlocal⟩ := hv.used k hk
    exact ⟨n, ⟨hl ▸ hn, hlocal⟩, hk⟩
  · have hq := h.comesIn p hp q hin
    dsimp only
    rw [hphi hq, hphi hp, hsame _ _ (horigin hq) (horigin hp), ← h.related_iff hwf]
    exact .symm _ _ (.rel _ _ (h.merges_iff.mpr ⟨p, hp, rfl, .inl ⟨q, hin, rfl⟩⟩))
  · have hflows := h.flowsTo_of_child hwf hp hm
    dsimp only
    rw [hphi hp, hsame _ _ hflows.isAccess.1 (horigin hp)]
    exact .rel _ _ hflows

end Variables

/-- **Logical variables**: after the pass, two loads or stores have the same one just when they are
related by flows of values. -/
theorem logicalVariables_established {g : Graph} (hwf : g.WellFormed) :
    ∃ fuel₀, ∀ fuel, fuel₀ ≤ fuel → ∃ s v,
      g.buildPhiDataFlowGraph fuel g.canonicalizeAllLocalOperations = some s ∧
        g.setupLogicalVariables fuel s = some v ∧ ClassesOfFlows g s v := by
  obtain ⟨fuel₀, houtcome⟩ := exists_outcome hwf
  refine ⟨max fuel₀ (g.cfg.blocks.flatMap g.cfg.nodes).length, fun fuel hfuel => ?_⟩
  obtain ⟨s, s', s'', heq, h⟩ := houtcome fuel ((Nat.le_max_left ..).trans hfuel)
  obtain ⟨v, hv, hclasses⟩ :=
    (h.blockLocalSsa hwf).setupLogicalVariables_spec hwf ((Nat.le_max_right ..).trans hfuel)
  exact ⟨s'', v, heq, hv, hclasses⟩

theorem logicalVariables_established_loopGraph : ∃ fuel₀, ∀ fuel, fuel₀ ≤ fuel → ∃ s v,
    loopGraph.buildPhiDataFlowGraph fuel loopGraph.canonicalizeAllLocalOperations = some s ∧
      loopGraph.setupLogicalVariables fuel s = some v ∧ ClassesOfFlows loopGraph s v :=
  logicalVariables_established loopGraph_wellFormed

end LocalSsa

end Dsom
