import Dsom.Ssa.Flow

/-!
# Ssa/Prune — dead stores and undefined loads are removed

The end of `BuildPhiDataFlowGraph`.  A `Phi` to which no store flows is replaced by `UndefValue`
(`clean`), a load of such a `Phi` too, and a store is removed if no `Phi` at a successor could see
it and the bytecode does not need it (`State.deadLoad`, `State.deadStore`).

The loop decides with the heads of blocks it has changed already.  It decides the same as with those
before the loop: at the successors of a block that stores a local, no load of it is removed.
-/

namespace Dsom

namespace LocalSsa

/-! ## Writing events -/

section Events

variable (s : State) (b i : ℕ) (v : PhiOrNode) (b' j : ℕ)

theorem setHead_head : (s.setHead b i v).localInfoAtHead b' j =
    if b' = b ∧ j = i then v else s.localInfoAtHead b' j := by
  rw [State.setHead]
  by_cases hb : b' = b
  · subst hb
    by_cases hj : j = i <;> simp [hj]
  · simp [hb]

theorem setTail_tail : (s.setTail b i v).localInfoAtTail b' j =
    if b' = b ∧ j = i then v else s.localInfoAtTail b' j := by
  rw [State.setTail]
  by_cases hb : b' = b
  · subst hb
    by_cases hj : j = i <;> simp [hj]
  · simp [hb]

@[simp] theorem setHead_tail : (s.setHead b i v).localInfoAtTail = s.localInfoAtTail := rfl

@[simp] theorem setTail_head : (s.setTail b i v).localInfoAtHead = s.localInfoAtHead := rfl

/-- **`removeUndefGetLocal`** writes one node, its replacement and the events of one place. -/
theorem removeUndefGetLocal_spec (g : Graph) (n : ℕ) :
    (g.removeUndefGetLocal b s n i).node = Function.update s.node n (s.node n).convertToNop ∧
      (g.removeUndefGetLocal b s n i).replacement =
        Function.update s.replacement n (some (.constant g.undefValue)) ∧
      (g.removeUndefGetLocal b s n i).phis = s.phis ∧
      (g.removeUndefGetLocal b s n i).dataFlowInfo = s.dataFlowInfo ∧
      ∀ b' j, ((g.removeUndefGetLocal b s n i).localInfoAtHead b' j,
          (g.removeUndefGetLocal b s n i).localInfoAtTail b' j) =
        if b' = b ∧ j = i then
          if s.localInfoAtTail b i = .getLocal n then (.undefValue, .undefValue)
          else (s.localInfoAtTail b i, s.localInfoAtTail b i)
        else (s.localInfoAtHead b' j, s.localInfoAtTail b' j) := by
  rw [Graph.removeUndefGetLocal]
  split_ifs with htail
  · refine ⟨rfl, rfl, rfl, rfl, fun b' j => ?_⟩
    refine (congrArg₂ Prod.mk (setHead_head s b i .undefValue b' j)
      (setTail_tail (s.setHead b i .undefValue) b i .undefValue b' j)).trans ?_
    rw [setHead_tail]
    split_ifs <;> rfl
  · refine ⟨rfl, rfl, rfl, rfl, fun b' j => ?_⟩
    refine (congrArg₂ Prod.mk (setHead_head s b i (s.localInfoAtTail b i) b' j) rfl).trans ?_
    split_ifs with hbj
    · obtain ⟨rfl, rfl⟩ := hbj
      rfl
    · rfl

/-- **`removeDeadSetLocal`** writes one node and the events of one place. -/
theorem removeDeadSetLocal_spec (n : ℕ) :
    (s.removeDeadSetLocal b n i).node = Function.update s.node n (s.node n).convertToNop ∧
      (s.removeDeadSetLocal b n i).replacement = s.replacement ∧
      (s.removeDeadSetLocal b n i).phis = s.phis ∧
      (s.removeDeadSetLocal b n i).dataFlowInfo = s.dataFlowInfo ∧
      ∀ b' j, ((s.removeDeadSetLocal b n i).localInfoAtHead b' j,
          (s.removeDeadSetLocal b n i).localInfoAtTail b' j) =
        if b' = b ∧ j = i then
          if s.localInfoAtHead b i = .setLocal n then (.null, .null)
          else (s.localInfoAtHead b i, s.localInfoAtHead b i)
        else (s.localInfoAtHead b' j, s.localInfoAtTail b' j) := by
  rw [State.removeDeadSetLocal]
  split_ifs with hhead
  · refine ⟨rfl, rfl, rfl, rfl, fun b' j => ?_⟩
    refine (congrArg₂ Prod.mk (setHead_head s b i .null b' j)
      (setTail_tail (s.setHead b i .null) b i .null b' j)).trans ?_
    rw [setHead_tail]
    split_ifs <;> rfl
  · refine ⟨rfl, rfl, rfl, rfl, fun b' j => ?_⟩
    refine (congrArg₂ Prod.mk rfl (setTail_tail s b i (s.localInfoAtHead b i) b' j)).trans ?_
    split_ifs with hbj
    · obtain ⟨rfl, rfl⟩ := hbj
      rfl
    · rfl

end Events

/-! ## `Phi`s that are trivially undefined

Those that no store flows to; they are replaced by the undefined value. -/

section Replace

variable {g : Graph} {s₁ s s' : State}

/-- The `Phi`s of a list that are trivially undefined give way to `UndefValue`. -/
def clean (s : State) (done : List ℕ) : PhiOrNode → PhiOrNode
  | .phi p => if p ∈ done ∧ (s.phis.get p).canSeeSetLocal = false then .undefValue else .phi p
  | e => e

theorem clean_phi_live {done : List ℕ} {p : ℕ} (h : (s.phis.get p).canSeeSetLocal = true) :
    clean s done (.phi p) = .phi p := by
  rw [clean, if_neg (by simp [h])]

theorem clean_eq_phi {done : List ℕ} {e : PhiOrNode} {p : ℕ} (h : clean s done e = .phi p) :
    e = .phi p := by
  cases e with
  | phi q =>
    rw [clean] at h
    split_ifs at h
    exact h
  | _ => cases h

/-- What a part of a `Phi` that is not its inputs is. -/
structure SamePhi (φ φ' : Phi) : Prop where
  basicBlock : φ'.basicBlock = φ.basicBlock
  localOrd : φ'.localOrd = φ.localOrd
  originNode : φ'.originNode = φ.originNode
  canSeeSetLocal : φ'.canSeeSetLocal = φ.canSeeSetLocal
  maybeUndefVal : φ'.maybeUndefVal = φ.maybeUndefVal

theorem SamePhi.refl (φ : Phi) : SamePhi φ φ := ⟨rfl, rfl, rfl, rfl, rfl⟩

theorem SamePhi.trans {φ φ' φ'' : Phi} (h : SamePhi φ φ') (h' : SamePhi φ' φ'') : SamePhi φ φ'' :=
  ⟨h'.basicBlock.trans h.basicBlock, h'.localOrd.trans h.localOrd,
    h'.originNode.trans h.originNode, h'.canSeeSetLocal.trans h.canSeeSetLocal,
    h'.maybeUndefVal.trans h.maybeUndefVal⟩

/-- **The invariant**: the `Phi`s of `done` were replaced.  What the inputs of a `Phi` are does not
matter if it is to be replaced itself. -/
structure Replaced (g : Graph) (s : State) (done : List ℕ) (s' : State) : Prop where
  node : s'.node = s.node
  replacement : s'.replacement = s.replacement
  info : s'.dataFlowInfo = s.dataFlowInfo
  size : s'.phis.size = s.phis.size
  phi : ∀ p, SamePhi (s.phis.get p) (s'.phis.get p)
  head : ∀ b ∈ g.cfg.blocks, ∀ i, s'.localInfoAtHead b i = clean s done (s.localInfoAtHead b i)
  tail : ∀ b ∈ g.cfg.blocks, ∀ i, s'.localInfoAtTail b i = clean s done (s.localInfoAtTail b i)
  children : ∀ q < s.phis.size, (s.phis.get q).canSeeSetLocal = true → ∀ k : ℕ,
    (s'.phis.get q).children[k]? = ((s.phis.get q).children[k]?).map (clean s done)

/-- Several inputs are set to `UndefValue`. -/
theorem foldl_setIncomingValue (l : List (ℕ × ℕ)) (s : State) :
    ∃ A, l.foldl (fun s x => s.setIncomingValue x.1 x.2 .undefValue) s = { s with phis := A } ∧
      A.size = s.phis.size ∧ (∀ p, SamePhi (s.phis.get p) (A.get p)) ∧
      ∀ q (k : ℕ), (A.get q).children[k]? =
        if (q, k) ∈ l then ((s.phis.get q).children[k]?).map fun _ => .undefValue
        else (s.phis.get q).children[k]? := by
  induction l generalizing s with
  | nil => exact ⟨s.phis, rfl, rfl, fun p => .refl _, fun q k => by simp⟩
  | cons x l ih =>
    obtain ⟨A, hfold, hsize, hsame, hchildren⟩ := ih (s.setIncomingValue x.1 x.2 .undefValue)
    refine ⟨A, hfold, hsize, fun p => .trans ?_ (hsame p), fun q k => ?_⟩
    · rcases s.phis.get_modify_or x.1 p
        (fun φ => { φ with children := φ.children.set x.2 .undefValue }) with heq | heq
      · rw [State.setIncomingValue, heq]
        exact ⟨rfl, rfl, rfl, rfl, rfl⟩
      · rw [State.setIncomingValue, heq]
        exact .refl _
    · rw [hchildren, State.setIncomingValue]
      by_cases hq : q = x.1
      · subst hq
        rw [Arena.get_modify_self]
        dsimp only
        rw [List.getElem?_set]
        by_cases hk : k = x.2
        · subst hk
          by_cases hlt : x.2 < (s.phis.get x.1).children.length
          · simp [hlt]
          · simp [hlt]
        · have : (x.1, k) ∈ x :: l ↔ (x.1, k) ∈ l := by
            rw [List.mem_cons]
            exact or_iff_right fun heq => hk (congrArg Prod.snd heq)
          simp only [this, if_neg (Ne.symm hk)]
      · rw [Arena.get_modify_of_ne _ hq]
        have : (q, k) ∈ x :: l ↔ (q, k) ∈ l := by
          rw [List.mem_cons]
          exact or_iff_right fun heq => hq (congrArg Prod.fst heq)
        simp only [this]

/-- Heads are found as before. -/
theorem Replaced.phiAtHead {done : List ℕ} (h : Replaced g s done s') {b i q : ℕ}
    (hb : b ∈ g.cfg.blocks) (hq : (s.phis.get q).canSeeSetLocal = true) :
    s'.phiAtHead b i = some q ↔ s.phiAtHead b i = some q := by
  rw [State.phiAtHead, State.phiAtHead, h.head b hb i, h.info]
  cases s.localInfoAtHead b i with
  | phi p =>
    rw [clean]
    split_ifs with hp
    · simp only [Option.some_inj, false_iff]
      rintro rfl
      rw [hq] at hp
      cases hp.2
    · rfl
  | _ => rfl

/-- Replacing changes no store. -/
theorem Replaced.stored {done : List ℕ} (h : Replaced g s done s') {b : ℕ} (hb : b ∈ g.cfg.blocks)
    (i : ℕ) : s'.Stored b i ↔ s.Stored b i := by
  rw [State.Stored, State.Stored, h.tail b hb i]
  refine exists_congr fun m => ?_
  cases s.localInfoAtTail b i with
  | phi p =>
    rw [clean]
    split_ifs <;> simp
  | _ => rfl

/-- The inputs of a `Phi` that stays are cleaned. -/
theorem Replaced.mem_phiSuccessors {done : List ℕ} (h : Replaced g s done s')
    (hcomplete : Complete g s₁ s) (hwf : g.WellFormed) (hcanon : CanonicalGraph g s₁) {p q k : ℕ}
    (hp : p < s.phis.size) (hq : (s.phis.get q).canSeeSetLocal = true) :
    (q, k) ∈ g.phiSuccessors s' p ↔
      q < s.phis.size ∧ (s.phis.get q).children[k]? = some (.phi p) := by
  have hblock := (hcomplete.placed.block p hp).1
  rw [← hcomplete.mem_phiSuccessors hwf hcanon hp, mem_phiSuccessors_iff, mem_phiSuccessors_iff,
    (h.phi p).basicBlock, (h.phi p).localOrd, h.stored hblock]
  refine and_congr_right fun _ => exists_congr fun j => exists_congr fun succ =>
    and_congr_right fun hj => ?_
  rw [h.phiAtHead (hwf.consistent.closed _ hblock succ (List.mem_of_getElem? hj)) hq]

/-- One more `Phi` makes a difference only where it stands, and if no store flows to it. -/
theorem clean_append {done : List ℕ} {p : ℕ} {e : PhiOrNode}
    (he : (s.phis.get p).canSeeSetLocal = true ∨ e ≠ .phi p) :
    clean s (done ++ [p]) e = clean s done e := by
  cases e with
  | phi x =>
    simp only [clean, List.mem_append, List.mem_singleton]
    by_cases hx : x = p
    · subst hx
      have hsee := he.resolve_right (not_not_intro rfl)
      simp [hsee]
    · simp [hx]
  | _ => rfl

/-- There it gives way. -/
theorem clean_append_self {done : List ℕ} {p : ℕ} (hdead : (s.phis.get p).canSeeSetLocal = false) :
    clean s (done ++ [p]) (.phi p) = .undefValue := by
  rw [clean, if_pos ⟨List.mem_append_right _ (.head _), hdead⟩]

/-- The events of a block when the `Phi` of a place gives way. -/
theorem clean_append_place {done : List ℕ} {p b i b' j : ℕ} {e e' : PhiOrNode}
    (hdead : (s.phis.get p).canSeeSetLocal = false)
    (hplace : s.localInfoAtHead b' j = .phi p → b' = b ∧ j = i) (he : e' = clean s done e)
    (hp : e = .phi p ↔ s.localInfoAtHead b' j = .phi p) :
    (if b' = b ∧ j = i then
      if s.localInfoAtHead b i = .phi p then .undefValue else e' else e') =
        clean s (done ++ [p]) e := by
  split_ifs with hbj hh
  · obtain ⟨rfl, rfl⟩ := hbj
    rw [hp.mpr hh, clean_append_self hdead]
  · obtain ⟨rfl, rfl⟩ := hbj
    rw [clean_append (.inr (hp.not.mpr hh)), he]
  · rw [clean_append (.inr fun heq => hbj (hplace (hp.mp heq))), he]

/-- A `Phi` that a store flows to stays. -/
theorem Replaced.kept {done : List ℕ} (h : Replaced g s done s') {p : ℕ}
    (hsee : (s.phis.get p).canSeeSetLocal = true) : Replaced g s (done ++ [p]) s' where
  node := h.node
  replacement := h.replacement
  info := h.info
  size := h.size
  phi := h.phi
  head b hb i := (h.head b hb i).trans (clean_append (.inl hsee)).symm
  tail b hb i := (h.tail b hb i).trans (clean_append (.inl hsee)).symm
  children q hq hqsee k := (h.children q hq hqsee k).trans
    (Option.map_congr fun _ _ => (clean_append (.inl hsee)).symm)

/-- The inputs when the `Phi` gives way in all that have it. -/
theorem Replaced.children_append {done : List ℕ} (h : Replaced g s done s')
    (hcomplete : Complete g s₁ s) (hwf : g.WellFormed) (hcanon : CanonicalGraph g s₁) {p q : ℕ}
    (hp : p < s.phis.size) (hdead : (s.phis.get p).canSeeSetLocal = false)
    (hq : q < s.phis.size) (hqsee : (s.phis.get q).canSeeSetLocal = true) (k : ℕ) :
    (if (q, k) ∈ g.phiSuccessors s' p then
      ((s'.phis.get q).children[k]?).map fun _ => .undefValue
    else (s'.phis.get q).children[k]?) =
      ((s.phis.get q).children[k]?).map (clean s (done ++ [p])) := by
  have hsucc := h.mem_phiSuccessors hcomplete hwf hcanon (k := k) hp hqsee
  rw [and_iff_right hq] at hsucc
  rw [h.children q hq hqsee]
  split_ifs with hk
  · rw [hsucc.mp hk, Option.map_some, Option.map_some, Option.map_some, clean_append_self hdead]
  · exact Option.map_congr fun e he =>
      (clean_append (.inr fun heq => hk (hsucc.mpr (heq ▸ he)))).symm

/-- **One `Phi`** is replaced, or stays. -/
theorem Replaced.step {done : List ℕ} (h : Replaced g s done s') (hcomplete : Complete g s₁ s)
    (hwf : g.WellFormed) (hcanon : CanonicalGraph g s₁) {p : ℕ} (hp : p < s.phis.size)
    (hnew : p ∉ done) : Replaced g s (done ++ [p]) (g.replaceTriviallyUndefPhi s' p) := by
  by_cases hsee : (s.phis.get p).canSeeSetLocal = true
  · have heq : g.replaceTriviallyUndefPhi s' p = s' := by
      rw [Graph.replaceTriviallyUndefPhi]
      dsimp only
      rw [if_pos ((h.phi p).canSeeSetLocal.trans hsee)]
    rw [heq]
    exact h.kept hsee
  · have hdead : (s.phis.get p).canSeeSetLocal = false := Bool.not_eq_true _ ▸ hsee
    obtain ⟨hblock, -, hat⟩ := hcomplete.placed.block p hp
    obtain ⟨A, hfold, hsize, hsame, hchildren⟩ :=
      foldl_setIncomingValue (g.phiSuccessors s' p) s'
    generalize hb : (s.phis.get p).basicBlock = b at hblock hat
    generalize hi : (s.phis.get p).localOrd = i at hat
    have heq : g.replaceTriviallyUndefPhi s' p =
        if s'.localInfoAtHead b i = .phi p then
          (({ s' with phis := A } : State).setHead b i .undefValue).setTail b i .undefValue
        else { s' with phis := A } := by
      rw [Graph.replaceTriviallyUndefPhi]
      dsimp only
      rw [if_neg (by rw [(h.phi p).canSeeSetLocal]; exact hsee), hfold, (h.phi p).basicBlock,
        (h.phi p).localOrd, hb, hi]
    -- only the place of `p` has an event that is replaced now
    have hplace {b' : ℕ} (hb' : b' ∈ g.cfg.blocks) (j : ℕ)
        (hh : s.localInfoAtHead b' j = .phi p) : b' = b ∧ j = i := by
      have hloc := (hcomplete.placed.located b' hb' j p (State.phiAtHead_phi hh)).2
      exact ⟨hloc.1.symm.trans hb, hloc.2.symm.trans hi⟩
    have hiff : s'.localInfoAtHead b i = .phi p ↔ s.localInfoAtHead b i = .phi p := by
      rw [h.head b hblock i]
      refine ⟨clean_eq_phi, fun hh => ?_⟩
      rw [hh, clean, if_neg fun h => hnew h.1]
    have hhead (b' : ℕ) (hb' : b' ∈ g.cfg.blocks) (j : ℕ) :=
      clean_append_place hdead (hplace hb' j) (h.head b' hb' j) Iff.rfl
    have htail (b' : ℕ) (hb' : b' ∈ g.cfg.blocks) (j : ℕ) :=
      clean_append_place hdead (hplace hb' j) (h.tail b' hb' j)
        (hcomplete.placed.tail_phi_iff hcanon hb')
    have hchild (q : ℕ) (hq : q < s.phis.size) (hqsee : (s.phis.get q).canSeeSetLocal = true)
        (k : ℕ) := (hchildren q k).trans
      (h.children_append hcomplete hwf hcanon hp hdead hq hqsee k)
    rw [heq, if_congr hiff rfl rfl]
    split_ifs with hh
    · refine ⟨h.node, h.replacement, h.info, hsize.trans h.size, fun x => (h.phi x).trans (hsame x),
        fun b' hb' j => ?_, fun b' hb' j => ?_, hchild⟩
      · have := hhead b' hb' j
        rw [if_pos hh] at this
        exact (setHead_head ..).trans this
      · have := htail b' hb' j
        rw [if_pos hh] at this
        exact (setTail_tail ..).trans this
    · refine ⟨h.node, h.replacement, h.info, hsize.trans h.size, fun x => (h.phi x).trans (hsame x),
        fun b' hb' j => ?_, fun b' hb' j => ?_, hchild⟩
      · have := hhead b' hb' j
        rwa [if_neg hh, ite_self] at this
      · have := htail b' hb' j
        rwa [if_neg hh, ite_self] at this

end Replace

/-! ## Dead nodes -/

section Dead

variable (g : Graph) (s : State) (b n : ℕ)

/-- A load that can only see `UndefValue`. -/
def deadLoad : Bool :=
  match (s.node n).kind with
  | .getLocal _ => s.isTriviallyUndefGetLocal n
  | _ => false

/-- A store that neither a `Phi` at a successor nor the bytecode needs. -/
def deadStore : Bool :=
  match (s.node n).kind with
  | .setLocal ident =>
    !((g.cfg.successors b).any fun succ =>
        (s.localInfoAtHead succ (g.virtualRegister ident)).isUser) &&
      !g.isSetLocalBytecodeLiveAtTail b ident
  | _ => false

/-- What the loads that were removed give way to. -/
def undefLoads : Option Ir.Value := if deadLoad s n then some (.constant g.undefValue) else none

/-- The node after the loop. -/
def prunedNode : Node :=
  let node := (s.node n).doReplacementForInputs (undefLoads g s)
  if deadLoad s n || deadStore g s b n then node.convertToNop else node

/-- The first and the last event of a local, when the dead loads of `done` are removed. -/
def afterLoad (s : State) (done : List ℕ) : PhiOrNode × PhiOrNode → PhiOrNode × PhiOrNode
  | (.getLocal n, tail) =>
    if n ∈ done ∧ deadLoad s n then
      if tail = .getLocal n then (.undefValue, .undefValue) else (tail, tail)
    else (.getLocal n, tail)
  | e => e

/-- The same for dead stores. -/
def afterStore (g : Graph) (s : State) (b : ℕ) (done : List ℕ) :
    PhiOrNode × PhiOrNode → PhiOrNode × PhiOrNode
  | (head, .setLocal m) =>
    if m ∈ done ∧ deadStore g s b m then
      if head = .setLocal m then (.null, .null) else (head, head)
    else (head, .setLocal m)
  | e => e

/-- In a block a local is loaded before it is stored. -/
def eventsAfter (g : Graph) (s : State) (b : ℕ) (done : List ℕ) (e : PhiOrNode × PhiOrNode) :
    PhiOrNode × PhiOrNode := afterStore g s b done (afterLoad s done e)

end Dead

section Events

variable {g : Graph} {s : State} {b n : ℕ} {done : List ℕ} {e : PhiOrNode × PhiOrNode}

/-- A load that is not dead stays. -/
theorem afterLoad_eq (h : ∀ n, e.1 = .getLocal n → n ∈ done → deadLoad s n = false) :
    afterLoad s done e = e := by
  obtain ⟨head, tail⟩ := e
  cases head with
  | getLocal n =>
    rw [afterLoad, if_neg]
    rintro ⟨hin, hdead⟩
    rw [h n rfl hin] at hdead
    cases hdead
  | _ => rfl

/-- A store that is not dead stays. -/
theorem afterStore_eq (h : ∀ m, e.2 = .setLocal m → m ∈ done → deadStore g s b m = false) :
    afterStore g s b done e = e := by
  obtain ⟨head, tail⟩ := e
  cases tail with
  | setLocal m =>
    rw [afterStore, if_neg]
    rintro ⟨hin, hdead⟩
    rw [h m rfl hin] at hdead
    cases hdead
  | _ => rfl

theorem afterLoad_append (h : e.1 = .getLocal n → deadLoad s n = false) :
    afterLoad s (done ++ [n]) e = afterLoad s done e := by
  obtain ⟨head, tail⟩ := e
  cases head with
  | getLocal x =>
    have hiff : (x ∈ done ++ [n] ∧ deadLoad s x = true) ↔ (x ∈ done ∧ deadLoad s x = true) := by
      rw [List.mem_append, List.mem_singleton]
      refine and_congr_left fun hdead => or_iff_left ?_
      rintro rfl
      rw [h rfl] at hdead
      cases hdead
    simp only [afterLoad, hiff]
  | _ => rfl

theorem afterStore_append (h : e.2 = .setLocal n → deadStore g s b n = false) :
    afterStore g s b (done ++ [n]) e = afterStore g s b done e := by
  obtain ⟨head, tail⟩ := e
  cases tail with
  | setLocal x =>
    have hiff : (x ∈ done ++ [n] ∧ deadStore g s b x = true) ↔
        (x ∈ done ∧ deadStore g s b x = true) := by
      rw [List.mem_append, List.mem_singleton]
      refine and_congr_left fun hdead => or_iff_left ?_
      rintro rfl
      rw [h rfl] at hdead
      cases hdead
    simp only [afterStore, hiff]
  | _ => rfl

theorem afterLoad_tail {m : ℕ} : (afterLoad s done e).2 = .setLocal m ↔ e.2 = .setLocal m := by
  obtain ⟨head, tail⟩ := e
  cases head with
  | getLocal x =>
    rw [afterLoad]
    split_ifs with _ htail
    · simp [htail]
    · rfl
    · rfl
  | _ => rfl

/-- A node that is not dead, or not an event of the local, changes nothing. -/
theorem eventsAfter_append (hload : e.1 = .getLocal n → deadLoad s n = false)
    (hstore : e.2 = .setLocal n → deadStore g s b n = false) :
    eventsAfter g s b (done ++ [n]) e = eventsAfter g s b done e := by
  rw [eventsAfter, eventsAfter, afterLoad_append hload,
    afterStore_append fun h => hstore (afterLoad_tail.mp h)]

/-- Whether a head is one of a user does not change, unless it is a load that is removed. -/
theorem eventsAfter_isUser (h : ∀ n, e.1 = .getLocal n → deadLoad s n = false) :
    (eventsAfter g s b done e).1.isUser = e.1.isUser := by
  rw [eventsAfter, afterLoad_eq fun n hn _ => h n hn]
  obtain ⟨head, tail⟩ := e
  cases tail with
  | setLocal m =>
    rw [afterStore]
    split_ifs with _ hhead
    · dsimp only
      rw [hhead]
      rfl
    · rfl
    · rfl
  | _ => rfl

end Events

/-! ## The loop

Over the nodes in order; what was removed has no users that are left. -/

section Prune

variable {g : Graph} {s₁ s s' : State}

/-- The graph before nodes are removed. -/
structure Ready (g : Graph) (s₁ s : State) : Prop where
  node : s.node = s₁.node
  replacement : s.replacement = s₁.replacement
  events : ∀ b ∈ g.cfg.blocks, ∀ i,
    LocalEvents g s.node (g.cfg.nodes b) i (s.localInfoAtHead b i) (s.localInfoAtTail b i) ∨
      ∃ p, s.localInfoAtHead b i = .phi p ∧ s.localInfoAtTail b i = .phi p
  load : ∀ b ∈ g.cfg.blocks, ∀ i n, IsLoad g s.node (g.cfg.nodes b) i n →
    s.localInfoAtHead b i = .getLocal n
  store : ∀ b ∈ g.cfg.blocks, ∀ i n, IsStore g s.node (g.cfg.nodes b) i n →
    s.localInfoAtTail b i = .setLocal n
  users : ∀ b ∈ g.cfg.blocks, ∀ i, Stores g s.node i b → ∀ succ ∈ g.cfg.successors b, ∀ n,
    s.localInfoAtHead succ i = .getLocal n → deadLoad s n = false

/-- **The invariant** of the loop over the nodes of all blocks, when `done` are passed. -/
structure Pruning (g : Graph) (s : State) (done : List ℕ) (s' : State) : Prop where
  node : ∀ b ∈ g.cfg.blocks, ∀ n ∈ g.cfg.nodes b,
    s'.node n = if n ∈ done then prunedNode g s b n else s.node n
  replacement : ∀ n, s'.replacement n =
    if n ∈ done ∧ deadLoad s n then some (.constant g.undefValue) else s.replacement n
  phis : s'.phis = s.phis
  info : s'.dataFlowInfo = s.dataFlowInfo
  events : ∀ b ∈ g.cfg.blocks, ∀ i, (s'.localInfoAtHead b i, s'.localInfoAtTail b i) =
    eventsAfter g s b done (s.localInfoAtHead b i, s.localInfoAtTail b i)

section Ready

variable {b i n : ℕ}

/-- A load at a head is a load of the block. -/
theorem Ready.head_getLocal (h : Ready g s₁ s) (hb : b ∈ g.cfg.blocks)
    (hn : s.localInfoAtHead b i = .getLocal n) : IsLoad g s.node (g.cfg.nodes b) i n := by
  rcases h.events b hb i with hevents | ⟨p, hp, -⟩
  · exact (hn ▸ hevents).head_getLocal.1
  · rw [hn] at hp
    cases hp

/-- A store at a tail is a store of the block. -/
theorem Ready.tail_setLocal (h : Ready g s₁ s) (hb : b ∈ g.cfg.blocks)
    (hn : s.localInfoAtTail b i = .setLocal n) : IsStore g s.node (g.cfg.nodes b) i n := by
  rcases h.events b hb i with hevents | ⟨p, -, hp⟩
  · exact (hn ▸ hevents).tail_setLocal.1
  · rw [hn] at hp
    cases hp

end Ready

/-- Only loads are dead loads. -/
theorem deadLoad_isLoad {n : ℕ} (h : deadLoad s n = true) :
    ∃ ident, (s.node n).kind = .getLocal ident := by
  rw [deadLoad] at h
  split at h
  · exact ⟨_, ‹_›⟩
  · cases h

/-- Only stores are dead stores. -/
theorem deadStore_isStore {b n : ℕ} (h : deadStore g s b n = true) :
    ∃ ident, (s.node n).kind = .setLocal ident := by
  rw [deadStore] at h
  split at h
  · exact ⟨_, ‹_›⟩
  · cases h

section Step

variable {done l₁ l₂ : List ℕ} {b n : ℕ} {flag : Bool}

theorem Pruning.append (h : Pruning g s done s') (hwf : g.WellFormed) (hb : b ∈ g.cfg.blocks)
    (hn : n ∈ g.cfg.nodes b) {s'' : State}
    (hnode : s''.node = Function.update s'.node n (prunedNode g s b n))
    (hreplacement : s''.replacement = if deadLoad s n then
      Function.update s'.replacement n (some (.constant g.undefValue)) else s'.replacement)
    (hphis : s''.phis = s'.phis) (hinfo : s''.dataFlowInfo = s'.dataFlowInfo)
    (hevents : ∀ b' ∈ g.cfg.blocks, ∀ i, (s''.localInfoAtHead b' i, s''.localInfoAtTail b' i) =
      eventsAfter g s b' (done ++ [n]) (s.localInfoAtHead b' i, s.localInfoAtTail b' i)) :
    Pruning g s (done ++ [n]) s'' where
  node b' hb' x hx := by
    rw [hnode]
    by_cases heq : x = n
    · subst heq
      obtain rfl := hwf.disjoint hb' hb hx hn
      rw [Function.update_self, if_pos (List.mem_append_right _ (.head _))]
    · rw [Function.update_of_ne heq, h.node b' hb' x hx]
      refine if_congr ?_ rfl rfl
      rw [List.mem_append, List.mem_singleton, or_iff_left heq]
  replacement x := by
    rw [hreplacement]
    by_cases heq : x = n
    · subst heq
      cases hdead : deadLoad s x with
      | true => simp
      | false =>
        rw [if_neg (by simp), h.replacement, hdead]
        simp
    · have hiff : (x ∈ done ++ [n] ∧ deadLoad s x = true) ↔ (x ∈ done ∧ deadLoad s x = true) := by
        rw [List.mem_append, List.mem_singleton, or_iff_left heq]
      simp only [hiff]
      split_ifs with _ hx hx
      · rw [Function.update_of_ne heq, h.replacement, if_pos hx]
      · rw [Function.update_of_ne heq, h.replacement, if_neg hx]
      · rw [h.replacement, if_pos hx]
      · rw [h.replacement, if_neg hx]
  phis := hphis.trans h.phis
  info := hinfo.trans h.info
  events := hevents

/-- The state in which the inputs of a node have been replaced, before the node is looked at. -/
def inputsReplaced (g : Graph) (s s' : State) (n : ℕ) : State :=
  { s' with
    node := Function.update s'.node n ((s.node n).doReplacementForInputs (undefLoads g s)) }

/-- Only this node has changed. -/
theorem inputsReplaced_node (g : Graph) (s s' : State) (n : ℕ) :
    (inputsReplaced g s s' n).node =
      Function.update s'.node n ((s.node n).doReplacementForInputs (undefLoads g s)) := rfl

/-- It is of the kind it was of. -/
theorem inputsReplaced_kind (g : Graph) (s s' : State) (n : ℕ) :
    ((inputsReplaced g s s' n).node n).kind = (s.node n).kind := by
  rw [inputsReplaced_node, Function.update_self]
  rfl

/-- The inputs are replaced as if this was done for every node. -/
theorem Pruning.replaceInputs (h : Pruning g s done s') (hready : Ready g s₁ s)
    (hcanon : CanonicalGraph g s₁) (hb : b ∈ g.cfg.blocks) (hl : g.cfg.nodes b = l₁ ++ n :: l₂)
    (hbefore : ∀ m ∈ l₁, m ∈ done) (hn : n ∉ done)
    (hflag : flag = false → ∀ m ∈ l₁, deadLoad s m = false) :
    (if flag then
      { s' with
        node := Function.update s'.node n ((s'.node n).doReplacementForInputs s'.replacement) }
      else s') = inputsReplaced g s s' n := by
  have hin : n ∈ g.cfg.nodes b := hl ▸ List.mem_append_right _ (.head _)
  have hnode : s'.node n = s.node n := by rw [h.node b hb n hin, if_neg hn]
  have huses {e : Edge} (he : e ∈ (s.node n).inputs) :
      Available s.node s.replacement l₁ e.value := by
    rw [hready.node, hready.replacement]
    rw [hready.node] at he
    exact (hcanon.blocks b hb).canonical.uses l₁ n l₂ hl e he
  have hsame {ρ : ℕ → Option Ir.Value} (hρ : ∀ m ∈ l₁, s.replacement m = none →
      ρ m = undefLoads g s m) : (s.node n).doReplacementForInputs ρ =
        (s.node n).doReplacementForInputs (undefLoads g s) := by
    rw [Node.doReplacementForInputs, Node.doReplacementForInputs]
    congr 1
    refine List.map_congr_left fun e he => ?_
    rw [replaceOperand, replaceOperand]
    congr 1
    have havail := huses he
    generalize e.value = v at havail
    cases v with
    | constant _ => rfl
    | ssa m outputOrd =>
      rw [replaceValue, replaceValue, hρ m havail.1 havail.2.2]
  rw [inputsReplaced]
  cases flag with
  | true =>
    rw [if_pos rfl, hnode, hsame fun m hm hnone => ?_]
    rw [h.replacement, undefLoads, hnone]
    simp [hbefore m hm]
  | false =>
    have hid : (s.node n).doReplacementForInputs (undefLoads g s) = s.node n := by
      rw [← hsame (ρ := fun _ => none) fun m hm _ => by
        rw [undefLoads, hflag rfl m hm, if_neg (by simp)]]
      have hop : replaceOperand (fun _ => none) = id := by
        funext e
        rw [replaceOperand, id_eq]
        cases hvalue : e.value with
        | constant _ => rw [replaceValue, ← hvalue]
        | ssa _ _ => rw [replaceValue, Option.getD_none, ← hvalue]
      rw [Node.doReplacementForInputs, hop, List.map_id]
    rw [if_neg (by simp), hid, ← hnode, Function.update_eq_self]

/-- Whether a store has users can be seen from the heads at any time. -/
theorem Pruning.hasUsers (h : Pruning g s done s') (hready : Ready g s₁ s) (hwf : g.WellFormed)
    (hb : b ∈ g.cfg.blocks) {i : ℕ} (hstore : Stores g s.node i b) :
    ((g.cfg.successors b).any fun succ => (s'.localInfoAtHead succ i).isUser) =
      (g.cfg.successors b).any fun succ => (s.localInfoAtHead succ i).isUser := by
  rw [Bool.eq_iff_iff, List.any_eq_true, List.any_eq_true]
  refine exists_congr fun succ => and_congr_right fun hsucc => ?_
  have hlive := hwf.consistent.closed b hb succ hsucc
  have hhead : s'.localInfoAtHead succ i =
      (eventsAfter g s succ done (s.localInfoAtHead succ i, s.localInfoAtTail succ i)).1 :=
    congrArg Prod.fst (h.events succ hlive i)
  rw [hhead, eventsAfter_isUser (hready.users b hb i hstore succ hsucc)]

/-- The events when a dead load is removed. -/
theorem Pruning.events_deadLoad (h : Pruning g s done s') (hready : Ready g s₁ s)
    (hwf : g.WellFormed) (hcanon : CanonicalGraph g s₁) (hb : b ∈ g.cfg.blocks)
    (hl : g.cfg.nodes b = l₁ ++ n :: l₂) (hafter : ∀ m ∈ n :: l₂, m ∉ done) {i₀ : ℕ}
    (hload : IsLoad g s.node (g.cfg.nodes b) i₀ n) (hdead : deadLoad s n = true) {b' : ℕ}
    (hb' : b' ∈ g.cfg.blocks) (i : ℕ) :
    (if b' = b ∧ i = i₀ then
        if s'.localInfoAtTail b i₀ = .getLocal n then (.undefValue, .undefValue)
        else (s'.localInfoAtTail b i₀, s'.localInfoAtTail b i₀)
      else (s'.localInfoAtHead b' i, s'.localInfoAtTail b' i)) =
      eventsAfter g s b' (done ++ [n]) (s.localInfoAtHead b' i, s.localInfoAtTail b' i) := by
  by_cases hbi : b' = b ∧ i = i₀
  · rw [if_pos hbi]
    obtain ⟨rfl, rfl⟩ := hbi
    have hhead := hready.load b' hb' i n hload
    -- a store of the local comes later
    have hlater (m : ℕ) (hm : s.localInfoAtTail b' i = .setLocal m) : m ∉ done ++ [n] := by
      obtain ⟨hin, ident, hkind, hreg⟩ := hready.tail_setLocal hb' hm
      obtain ⟨-, ident', hkind', hreg'⟩ := hload
      have hne : m ≠ n := by
        rintro rfl
        rw [hkind] at hkind'
        cases hkind'
      have hl₂ : m ∈ l₂ := by
        rw [hl] at hin
        rcases List.mem_append.mp hin with hin | hin
        · obtain ⟨l, l', rfl⟩ := List.append_of_mem hin
          rw [hready.node] at hkind hkind'
          rw [List.append_assoc, List.cons_append] at hl
          have hafter := (hcanon.blocks b' hb').canonical.after l m _ hl ident hkind n
            (List.mem_append_right _ (.head _)) ident' hkind'
          exact absurd (hreg'.trans hreg.symm) hafter
        · exact (List.mem_cons.mp hin).resolve_left hne
      intro hmem
      rcases List.mem_append.mp hmem with hmem | hmem
      · exact hafter m (.tail _ hl₂) hmem
      · exact hne (List.mem_singleton.mp hmem)
    have hbefore : eventsAfter g s b' done (s.localInfoAtHead b' i, s.localInfoAtTail b' i) =
        (s.localInfoAtHead b' i, s.localInfoAtTail b' i) := by
      have hload' : afterLoad s done (s.localInfoAtHead b' i, s.localInfoAtTail b' i) =
          (s.localInfoAtHead b' i, s.localInfoAtTail b' i) := by
        refine afterLoad_eq fun x hx hin => absurd hin ?_
        cases hhead.symm.trans hx
        exact hafter n (.head _)
      rw [eventsAfter, hload']
      exact afterStore_eq fun m hm hin => absurd (List.mem_append_left _ hin) (hlater m hm)
    have htail : s'.localInfoAtTail b' i = s.localInfoAtTail b' i :=
      congrArg Prod.snd ((h.events b' hb' i).trans hbefore)
    have hnow : n ∈ done ++ [n] ∧ deadLoad s n = true :=
      ⟨List.mem_append_right _ (.head _), hdead⟩
    rw [htail, eventsAfter, hhead, afterLoad, if_pos hnow]
    refine (afterStore_eq fun m hm hin => ?_).symm
    split_ifs at hm with heq
    exact absurd hin (hlater m hm)
  · rw [if_neg hbi, eventsAfter_append (fun hhead => ?_) fun htail => ?_, h.events b' hb' i]
    · have hload' := hready.head_getLocal hb' hhead
      obtain rfl := hwf.disjoint hb' hb hload'.1 hload.1
      exact absurd ⟨rfl, hload'.unique hload⟩ hbi
    · have hstore := hready.tail_setLocal hb' htail
      obtain rfl := hwf.disjoint hb' hb hstore.1 hload.1
      exact absurd rfl (hload.ne_store hstore)

/-- The events when a dead store is removed. -/
theorem Pruning.events_deadStore (h : Pruning g s done s') (hready : Ready g s₁ s)
    (hwf : g.WellFormed) (hb : b ∈ g.cfg.blocks) (hn : n ∉ done) {i₀ : ℕ}
    (hstore : IsStore g s.node (g.cfg.nodes b) i₀ n) (hdead : deadStore g s b n = true) {b' : ℕ}
    (hb' : b' ∈ g.cfg.blocks) (i : ℕ) :
    (if b' = b ∧ i = i₀ then
        if s'.localInfoAtHead b i₀ = .setLocal n then (.null, .null)
        else (s'.localInfoAtHead b i₀, s'.localInfoAtHead b i₀)
      else (s'.localInfoAtHead b' i, s'.localInfoAtTail b' i)) =
      eventsAfter g s b' (done ++ [n]) (s.localInfoAtHead b' i, s.localInfoAtTail b' i) := by
  have hnotLoad : deadLoad s n = false := by
    obtain ⟨-, ident, hkind, -⟩ := hstore
    rw [deadLoad, hkind]
  by_cases hbi : b' = b ∧ i = i₀
  · rw [if_pos hbi]
    obtain ⟨rfl, rfl⟩ := hbi
    have htail := hready.store b' hb' i n hstore
    have hevents := h.events b' hb' i
    rw [eventsAfter, afterLoad_append fun _ => hnotLoad]
    generalize he : afterLoad s done (s.localInfoAtHead b' i, s.localInfoAtTail b' i) = e
    rw [eventsAfter, he] at hevents
    obtain ⟨head, tail⟩ := e
    obtain rfl : tail = .setLocal n :=
      (congrArg Prod.snd he).symm.trans (afterLoad_tail.mpr htail)
    rw [afterStore_eq fun m hm hin => ?_] at hevents
    · have hnow : n ∈ done ++ [n] ∧ deadStore g s b' n = true :=
        ⟨List.mem_append_right _ (.head _), hdead⟩
      have hhead : s'.localInfoAtHead b' i = head := congrArg Prod.fst hevents
      rw [hhead, afterStore, if_pos hnow]
    · cases hm
      exact absurd hin hn
  · rw [if_neg hbi, eventsAfter_append (fun _ => hnotLoad) fun htail => ?_, h.events b' hb' i]
    have hstore' := hready.tail_setLocal hb' htail
    obtain rfl := hwf.disjoint hb' hb hstore'.1 hstore.1
    exact absurd ⟨rfl, hstore'.unique hstore⟩ hbi

/-- A node that stays is passed. -/
theorem Pruning.kept (h : Pruning g s done s') (hready : Ready g s₁ s) (hwf : g.WellFormed)
    (hb : b ∈ g.cfg.blocks) (hin : n ∈ g.cfg.nodes b) (hload : deadLoad s n = false)
    (hstore : deadStore g s b n = false) :
    Pruning g s (done ++ [n]) (inputsReplaced g s s' n) := by
  refine h.append hwf hb hin ?_ ?_ rfl rfl fun b' hb' i => ?_
  · rw [prunedNode, hload, hstore]
    rfl
  · rw [hload]
    rfl
  · refine (h.events b' hb' i).trans (eventsAfter_append (fun _ => hload) fun htail => ?_).symm
    obtain rfl := hwf.disjoint hb' hb (hready.tail_setLocal hb' htail).1 hin
    exact hstore

/-- A dead load is removed. -/
theorem Pruning.loadRemoved (h : Pruning g s done s') (hready : Ready g s₁ s)
    (hwf : g.WellFormed) (hcanon : CanonicalGraph g s₁) (hb : b ∈ g.cfg.blocks)
    (hl : g.cfg.nodes b = l₁ ++ n :: l₂) (hafter : ∀ m ∈ n :: l₂, m ∉ done) {i : ℕ}
    (hload : IsLoad g s.node (g.cfg.nodes b) i n) (hdead : deadLoad s n = true) :
    Pruning g s (done ++ [n]) (g.removeUndefGetLocal b (inputsReplaced g s s' n) n i) := by
  obtain ⟨hnode, hreplacement, hphis, hinfo, hevents⟩ :=
    removeUndefGetLocal_spec (s := inputsReplaced g s s' n) (b := b) (i := i) g n
  refine h.append hwf hb hload.1 ?_ ?_ hphis hinfo fun b' hb' j => ?_
  · rw [hnode, inputsReplaced_node, Function.update_self, Function.update_idem, prunedNode, hdead]
    rfl
  · rw [hreplacement, if_pos hdead]
    rfl
  · exact (hevents b' j).trans
      (h.events_deadLoad hready hwf hcanon hb hl hafter hload hdead hb' j)

/-- A dead store is removed. -/
theorem Pruning.storeRemoved (h : Pruning g s done s') (hready : Ready g s₁ s)
    (hwf : g.WellFormed) (hb : b ∈ g.cfg.blocks) (hn : n ∉ done) {i : ℕ}
    (hstore : IsStore g s.node (g.cfg.nodes b) i n) (hdead : deadStore g s b n = true) :
    Pruning g s (done ++ [n]) ((inputsReplaced g s s' n).removeDeadSetLocal b n i) := by
  have hload : deadLoad s n = false := by
    obtain ⟨-, ident, hkind, -⟩ := hstore
    rw [deadLoad, hkind]
  obtain ⟨hnode, hreplacement, hphis, hinfo, hevents⟩ :=
    removeDeadSetLocal_spec (s := inputsReplaced g s s' n) (b := b) (i := i) n
  refine h.append hwf hb hstore.1 ?_ ?_ hphis hinfo fun b' hb' j => ?_
  · rw [hnode, inputsReplaced_node, Function.update_self, Function.update_idem, prunedNode, hload,
      hdead]
    rfl
  · rw [hreplacement, hload]
    rfl
  · exact (hevents b' j).trans (h.events_deadStore hready hwf hb hn hstore hdead hb' j)

/-- **One node** is passed. -/
theorem Pruning.step (h : Pruning g s done s') (hready : Ready g s₁ s) (hwf : g.WellFormed)
    (hcanon : CanonicalGraph g s₁) (hb : b ∈ g.cfg.blocks) (hl : g.cfg.nodes b = l₁ ++ n :: l₂)
    (hbefore : ∀ m ∈ l₁, m ∈ done) (hafter : ∀ m ∈ n :: l₂, m ∉ done)
    (hflag : flag = false → ∀ m ∈ l₁, deadLoad s m = false) :
    Pruning g s (done ++ [n]) (g.pruneNode b (s', flag) n).1 ∧
      ((g.pruneNode b (s', flag) n).2 = false → ∀ m ∈ l₁ ++ [n], deadLoad s m = false) := by
  have hin : n ∈ g.cfg.nodes b := hl ▸ List.mem_append_right _ (.head _)
  have hn := hafter n (.head _)
  have hflag' {c : Bool} (hc : c = false → flag = false ∧ deadLoad s n = false) :
      c = false → ∀ m ∈ l₁ ++ [n], deadLoad s m = false := by
    intro hfalse m hm
    rcases List.mem_append.mp hm with hm | hm
    · exact hflag (hc hfalse).1 m hm
    · exact List.mem_singleton.mp hm ▸ (hc hfalse).2
  rw [Graph.pruneNode]
  dsimp only
  rw [h.replaceInputs hready hcanon hb hl hbefore hn hflag, inputsReplaced_kind]
  rcases (s.node n).kind.cases with ⟨ident, heq⟩ | ⟨ident, heq⟩ | heq | heq
  · have hstore : deadStore g s b n = false := by rw [deadStore, heq]
    have hdead : (inputsReplaced g s s' n).isTriviallyUndefGetLocal n = deadLoad s n := by
      have hphis : (inputsReplaced g s s' n).phis = s.phis := h.phis
      have hinfo : (inputsReplaced g s s' n).dataFlowInfo = s.dataFlowInfo := h.info
      rw [deadLoad, heq, State.isTriviallyUndefGetLocal, State.isTriviallyUndefGetLocal, hphis,
        hinfo]
    rw [heq]
    dsimp only
    rw [hdead]
    cases hload : deadLoad s n with
    | false => exact ⟨h.kept hready hwf hb hin hload hstore, hflag' fun hc => ⟨hc, hload⟩⟩
    | true =>
      exact ⟨h.loadRemoved hready hwf hcanon hb hl hafter ⟨hin, ident, heq, rfl⟩ hload,
        fun hc => absurd hc (by simp)⟩
  · have hload : deadLoad s n = false := by rw [deadLoad, heq]
    have hmem : IsStore g s.node (g.cfg.nodes b) (g.virtualRegister ident) n :=
      ⟨hin, ident, heq, rfl⟩
    have hdead : (!((g.cfg.successors b).any fun succ =>
          ((inputsReplaced g s s' n).localInfoAtHead succ (g.virtualRegister ident)).isUser) &&
        !g.isSetLocalBytecodeLiveAtTail b ident) = deadStore g s b n := by
      rw [deadStore, heq]
      exact congrArg (!· && !g.isSetLocalBytecodeLiveAtTail b ident)
        (h.hasUsers hready hwf hb ⟨n, hmem⟩)
    rw [heq]
    dsimp only
    rw [hdead]
    cases hstore : deadStore g s b n with
    | false => exact ⟨h.kept hready hwf hb hin hload hstore, hflag' fun hc => ⟨hc, hload⟩⟩
    | true =>
      exact ⟨h.storeRemoved hready hwf hb hn hmem hstore, hflag' fun hc => ⟨hc, hload⟩⟩
  · rw [heq]
    have hload : deadLoad s n = false := by rw [deadLoad, heq]
    exact ⟨h.kept hready hwf hb hin hload (by rw [deadStore, heq]),
      hflag' fun hc => ⟨hc, hload⟩⟩
  · obtain ⟨hget, hset, -⟩ := heq
    have hload : deadLoad s n = false := by
      rw [← Bool.not_eq_true]
      intro hdead
      obtain ⟨ident, hident⟩ := deadLoad_isLoad hdead
      exact hget ident hident
    have hstore : deadStore g s b n = false := by
      rw [← Bool.not_eq_true]
      intro hdead
      obtain ⟨ident, hident⟩ := deadStore_isStore hdead
      exact hset ident hident
    split
    · exact absurd ‹_› (hget _)
    · exact absurd ‹_› (hset _)
    · exact ⟨h.kept hready hwf hb hin hload hstore, hflag' fun hc => ⟨hc, hload⟩⟩

/-- **One block** is passed. -/
theorem Pruning.block (h : Pruning g s done s') (hready : Ready g s₁ s) (hwf : g.WellFormed)
    (hcanon : CanonicalGraph g s₁) (hb : b ∈ g.cfg.blocks) (hnew : ∀ m ∈ g.cfg.nodes b, m ∉ done) :
    Pruning g s (done ++ g.cfg.nodes b) (g.pruneBlock s' b) := by
  suffices hall : Pruning g s (done ++ g.cfg.nodes b)
      ((g.cfg.nodes b).foldl (g.pruneNode b) (s', false)).1 ∧
        (((g.cfg.nodes b).foldl (g.pruneNode b) (s', false)).2 = false →
          ∀ m ∈ g.cfg.nodes b, deadLoad s m = false) from hall.1
  refine Folds.foldl_prefix (P := fun l (t : State × Bool) => Pruning g s (done ++ l) t.1 ∧
    (t.2 = false → ∀ m ∈ l, deadLoad s m = false)) ⟨?_, fun _ m hm => absurd hm List.not_mem_nil⟩ ?_
  · rw [List.append_nil]
    exact h
  · rintro l₁ n l₂ ⟨t, flag⟩ hl ⟨ht, hflag⟩
    have hnodup := hl ▸ hwf.nodup_block hb
    have hdisj := (List.nodup_append'.mp hnodup).2.2
    rw [← List.append_assoc]
    refine ht.step hready hwf hcanon hb hl (fun m hm => List.mem_append_right _ hm)
      (fun m hm hin => ?_) hflag
    rcases List.mem_append.mp hin with hin | hin
    · exact hnew m (hl ▸ List.mem_append_right _ hm) hin
    · exact hdisj hin hm

/-- **The last loop** of the pass. -/
theorem pruneAll_spec (hready : Ready g s₁ s) (hwf : g.WellFormed) (hcanon : CanonicalGraph g s₁) :
    Pruning g s (g.cfg.blocks.flatMap g.cfg.nodes) (g.cfg.blocks.foldl g.pruneBlock s) := by
  refine Folds.foldl_prefix (P := fun done t => Pruning g s (done.flatMap g.cfg.nodes) t) ?_ ?_
  · refine ⟨fun b hb n hn => ?_, fun n => ?_, rfl, rfl, fun b hb i => ?_⟩
    · rw [if_neg (by simp)]
    · rw [if_neg (by simp)]
    · rw [eventsAfter, afterLoad_eq fun n _ hin => absurd hin (by simp),
        afterStore_eq fun n _ hin => absurd hin (by simp)]
  · intro done b rest t hl ht
    have hb : b ∈ g.cfg.blocks := hl ▸ List.mem_append_right _ (.head _)
    rw [List.flatMap_append, List.flatMap_singleton]
    refine ht.block hready hwf hcanon hb fun m hm hin => ?_
    have hnodup := hwf.nodup_nodes
    rw [hl, List.flatMap_append, List.flatMap_cons] at hnodup
    exact (List.nodup_append'.mp hnodup).2.2 hin (List.mem_append_left _ hm)

end Step

/-! ## The graph before the loop -/

theorem Replaced.ready (h : Replaced g s (List.range s.phis.size) s') (hflagged : Flagged g s₁ s)
    (hwf : g.WellFormed) (hcanon : CanonicalGraph g s₁) : Ready g s₁ s' := by
  have hplaced := hflagged.complete.placed
  have hnode : s'.node = s₁.node := h.node.trans hplaced.node
  have hold {b i : ℕ} (hnull : s₁.localInfoAtHead b i ≠ .null ∨ s₁.localInfoAtTail b i ≠ .null) :
      s.localInfoAtHead b i = s₁.localInfoAtHead b i ∧
        s.localInfoAtTail b i = s₁.localInfoAtTail b i := by
    rcases hplaced.events b i with hsame | ⟨hh, ht, -⟩
    · exact hsame
    · exact absurd hnull (by simp [hh, ht])
  constructor
  case node => exact hnode
  case replacement => exact h.replacement.trans hplaced.replacement
  case events =>
    intro b hb i
    rw [h.head b hb i, h.tail b hb i, hnode, ← hplaced.node]
    rcases hplaced.tail_cases hcanon hb i with hevents | ⟨p, hh, ht⟩
    · left
      generalize s.localInfoAtHead b i = e, s.localInfoAtTail b i = e' at hevents
      cases hevents with
      | none => exact .none
      | undef => exact .undef
      | load h => exact .load h
      | loadStore h h' => exact .loadStore h h'
      | store h => exact .store h
    · rw [hh, ht, clean]
      split_ifs
      · exact .inl .undef
      · exact .inr ⟨p, rfl, rfl⟩
  case load =>
    intro b hb i n hn
    have hhead := (hcanon.blocks b hb).canonical.load i n (hnode ▸ hn)
    rw [h.head b hb i, (hold (.inl (by simp [hhead]))).1, hhead]
    rfl
  case store =>
    intro b hb i n hn
    have htail := (hcanon.blocks b hb).canonical.store i n (hnode ▸ hn)
    rw [h.tail b hb i, (hold (.inr (by simp [htail]))).2, htail]
    rfl
  case users =>
    intro b hb i hstores succ hsucc n hn
    have hlive := hwf.consistent.closed b hb succ hsucc
    have hhead : s.localInfoAtHead succ i = .getLocal n := by
      rw [h.head succ hlive i] at hn
      cases he : s.localInfoAtHead succ i with
      | phi p =>
        rw [he, clean] at hn
        split_ifs at hn
      | _ => rwa [he] at hn
    obtain ⟨p, hp⟩ := Option.isSome_iff_exists.mp (hplaced.load succ hlive i n hhead)
    obtain ⟨hlt, hpb, hpi⟩ := hplaced.located succ hlive i p
      ((State.phiAtHead_getLocal hhead).trans hp)
    have hsee : (s.phis.get p).canSeeSetLocal = true := by
      rw [hflagged.canSee p hlt, hpb, hpi]
      exact .start hb (hnode ▸ hstores) hsucc
    have htrivial : s'.isTriviallyUndefGetLocal n = false := by
      rw [State.isTriviallyUndefGetLocal, h.info, hp]
      dsimp only
      rw [(h.phi p).canSeeSetLocal, hsee]
      rfl
    rw [deadLoad]
    split
    · exact htrivial
    · rfl

/-- The `Phi`s that are trivially undefined are replaced, if there are any. -/
theorem replaceAll_spec {w : Work} (h : Flagged g s₁ s) (hwf : g.WellFormed)
    (hcanon : CanonicalGraph g s₁) (hall : w.hasPhiReferenceUndefValue = false →
      ∀ p < s.phis.size, (s.phis.get p).canSeeSetLocal = true) :
    Replaced g s (List.range s.phis.size)
      (if w.hasPhiReferenceUndefValue then
        (List.range s.phis.size).foldl g.replaceTriviallyUndefPhi s else s) := by
  split_ifs with hundef
  · refine Folds.foldl_prefix (P := Replaced g s) ?_ ?_
    · have hclean : clean s [] = id := by
        funext e
        cases e with
        | phi p => rw [clean, if_neg fun h => List.not_mem_nil h.1, id]
        | _ => rfl
      refine ⟨rfl, rfl, rfl, rfl, fun p => .refl _, fun b _ i => ?_, fun b _ i => ?_,
        fun q _ _ k => ?_⟩ <;> rw [hclean]
      · rfl
      · rfl
      · rw [Option.map_id, id]
    · intro done p rest s' hl h'
      have hp : p < s.phis.size :=
        List.mem_range.mp (hl ▸ List.mem_append_right _ (.head _))
      refine h'.step h.complete hwf hcanon hp fun hin => ?_
      have hnodup := List.nodup_range (n := s.phis.size)
      rw [hl] at hnodup
      exact (List.nodup_append'.mp hnodup).2.2 hin (.head _)
  · have hclean : clean s (List.range s.phis.size) = id := by
      funext e
      cases e with
      | phi p =>
        rw [clean, if_neg, id]
        rintro ⟨hin, hsee⟩
        rw [hall (Bool.not_eq_true _ ▸ hundef) p (List.mem_range.mp hin)] at hsee
        cases hsee
      | _ => rfl
    refine ⟨rfl, rfl, rfl, rfl, fun p => .refl _, fun b _ i => ?_, fun b _ i => ?_,
      fun q _ _ k => ?_⟩ <;> rw [hclean]
    · rfl
    · rfl
    · rw [Option.map_id, id]

/-- **`BuildPhiDataFlowGraph`** ends, and its result is known for every node and event. -/
theorem buildPhiDataFlowGraph_spec (hwf : g.WellFormed) (hcanon : CanonicalGraph g s₁) :
    ∃ fuel₀, ∀ fuel, fuel₀ ≤ fuel → ∃ s s' s'', g.buildPhiDataFlowGraph fuel s₁ = some s'' ∧
      Flagged g s₁ s ∧ Replaced g s (List.range s.phis.size) s' ∧
      Pruning g s' (g.cfg.blocks.flatMap g.cfg.nodes) s'' := by
  obtain ⟨w, hbuilt, hloop⟩ := phiGraph_spec hwf hcanon
  refine ⟨g.phiFuel + (w.state.phis.size + max w.q2.length w.q3.length), fun fuel hfuel => ?_⟩
  have hflagFuel : w.state.phis.size + max w.q2.length w.q3.length ≤ fuel := by omega
  obtain ⟨s, hflags, hflagged, hsize, hall⟩ := computeFlags_spec hbuilt hcanon hwf hflagFuel
  have hreplaced := replaceAll_spec hflagged hwf hcanon hall
  refine ⟨s, _, _, ?_, hflagged, hreplaced,
    pruneAll_spec (hreplaced.ready hflagged hwf hcanon) hwf hcanon⟩
  rw [Graph.buildPhiDataFlowGraph, hloop fuel (by omega), Option.bind_some, hflags]
  rfl

end Prune

end LocalSsa

end Dsom
