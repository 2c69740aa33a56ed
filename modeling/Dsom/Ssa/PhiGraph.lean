import Dsom.Ssa.Canonicalize
import Mathlib.Data.List.ProdSigma

/-!
# Ssa/PhiGraph — the worklist of `BuildPhiDataFlowGraph`

Each `Phi` stands at the head of a block for one local, and a local has at most one at a head
(`phiAtHead`).  A `Phi` that was taken off the worklist knows, for each predecessor it has looked
at, the value of its local at the tail of that block (`Filled`); a block in which the local was not
touched gets a `Phi` of its own.

`PhiInv` is the invariant of the loop.  It ends, since every `Phi` it makes fills a place that was
empty before (`phiLoop_spec`).
-/

namespace Dsom

namespace LocalSsa

/-! ## Where the `Phi`s are

At the head of a block, or at its first load. -/

namespace State

/-- The `Phi` of a local at the head of a block. -/
def phiAtHead (s : State) (bb i : ℕ) : Option ℕ :=
  match s.localInfoAtHead bb i with
  | .getLocal n => s.dataFlowInfo n
  | .phi p => some p
  | _ => none

/-- The value of a local at the tail of a block, as a `Phi` keeps it. -/
def valueAtTail (s : State) (bb i : ℕ) : PhiOrNode :=
  match s.localInfoAtTail bb i with
  | .getLocal n => ((s.dataFlowInfo n).map .phi).getD .null
  | e => e

section Lemmas

variable {s : State} {bb i n p : ℕ}

theorem phiAtHead_getLocal (h : s.localInfoAtHead bb i = .getLocal n) :
    s.phiAtHead bb i = s.dataFlowInfo n := by
  rw [phiAtHead, h]

theorem phiAtHead_phi (h : s.localInfoAtHead bb i = .phi p) : s.phiAtHead bb i = some p := by
  rw [phiAtHead, h]

theorem valueAtTail_getLocal (h : s.localInfoAtTail bb i = .getLocal n) :
    s.valueAtTail bb i = ((s.dataFlowInfo n).map PhiOrNode.phi).getD .null := by
  rw [valueAtTail, h]

theorem valueAtTail_of_ne {e : PhiOrNode} (h : s.localInfoAtTail bb i = e)
    (hnot : ∀ n, e ≠ .getLocal n) : s.valueAtTail bb i = e := by
  rw [valueAtTail, h]
  cases e with
  | getLocal n => exact absurd rfl (hnot n)
  | _ => rfl

end Lemmas

/-- A local was stored at the tail of a block. -/
def Stored (s : State) (bb i : ℕ) : Prop := ∃ m, s.localInfoAtTail bb i = .setLocal m

/-- One `Phi` comes in at another. -/
def ComesIn (s : State) (q p : ℕ) : Prop := PhiOrNode.phi q ∈ (s.phis.get p).children

end State

section Filled

variable (g : Graph)

/-- A `Phi` that has looked at some of the predecessors of its block. -/
structure Filled (s : State) (p : ℕ) (seen : List ℕ) : Prop where
  children : (s.phis.get p).children =
    seen.map (fun pred => s.valueAtTail pred (s.phis.get p).localOrd) ++
      List.replicate ((g.cfg.predecessors (s.phis.get p).basicBlock).length - seen.length) .null
  notNull : ∀ pred ∈ seen, s.valueAtTail pred (s.phis.get p).localOrd ≠ .null
  stored : (s.phis.get p).canSeeSetLocal = true ↔
    ∃ pred ∈ seen, s.Stored pred (s.phis.get p).localOrd
  undef : (s.phis.get p).maybeUndefVal = true ↔
    ∃ pred ∈ seen, s.localInfoAtTail pred (s.phis.get p).localOrd = .undefValue

/-- What the `Phi`s have to do with the blocks; `s₁` is the state before there were any. -/
structure Placed (s₁ s : State) : Prop where
  node : s.node = s₁.node
  replacement : s.replacement = s₁.replacement
  events : ∀ b i, s.localInfoAtHead b i = s₁.localInfoAtHead b i ∧
      s.localInfoAtTail b i = s₁.localInfoAtTail b i ∨
    s₁.localInfoAtHead b i = .null ∧ s₁.localInfoAtTail b i = .null ∧
      ∃ p, s.localInfoAtHead b i = .phi p ∧ s.localInfoAtTail b i = .phi p
  located : ∀ b ∈ g.cfg.blocks, ∀ i p, s.phiAtHead b i = some p →
    p < s.phis.size ∧ (s.phis.get p).basicBlock = b ∧ (s.phis.get p).localOrd = i
  load : ∀ b ∈ g.cfg.blocks, ∀ i n, s.localInfoAtHead b i = .getLocal n →
    (s.dataFlowInfo n).isSome
  origin : ∀ n p, s.dataFlowInfo n = some p →
    p < s.phis.size ∧ (s.phis.get p).originNode = n
  block : ∀ p < s.phis.size, (s.phis.get p).basicBlock ∈ g.cfg.blocks ∧
    (s.phis.get p).localOrd < g.numLocals ∧
      s.phiAtHead (s.phis.get p).basicBlock (s.phis.get p).localOrd = some p

/-- Every `Phi` comes in, directly or not, at the `Phi` of the load that is its origin. -/
def Originated (s : State) : Prop :=
  ∀ p < s.phis.size, ∃ b ∈ g.cfg.blocks, ∃ i p₀,
    s.localInfoAtHead b i = .getLocal (s.phis.get p).originNode ∧
      s.dataFlowInfo (s.phis.get p).originNode = some p₀ ∧
      Relation.ReflTransGen (fun p q => s.ComesIn q p) p₀ p

/-- **The invariant** of the worklist.  `seen p` are the predecessors that `p` has looked at; all
`Phi`s but `cur` have looked at all of them or at none. -/
structure PhiInv (s₁ : State) (cur : Option ℕ) (seen : ℕ → List ℕ) (w : Work) : Prop where
  placed : Placed g s₁ w.state
  filled : ∀ p < w.state.phis.size, Filled g w.state p (seen p)
  waiting : ∀ p ∈ w.q, p < w.state.phis.size ∧ seen p = []
  looked : ∀ p < w.state.phis.size, p ∉ w.q → some p ≠ cur →
    seen p = g.cfg.predecessors (w.state.phis.get p).basicBlock
  fresh : ∀ p, w.state.phis.size ≤ p → seen p = []
  curNot : ∀ p, cur = some p → p < w.state.phis.size ∧ p ∉ w.q
  nodup : w.q.Nodup
  q2 : ∀ p, p ∈ w.q2 ↔ p < w.state.phis.size ∧ p ∉ w.q ∧ some p ≠ cur ∧
    (w.state.phis.get p).canSeeSetLocal = true
  q3 : ∀ p, p ∈ w.q3 ↔ p < w.state.phis.size ∧ (w.state.phis.get p).maybeUndefVal = true
  undef : w.hasPhiReferenceUndefValue = true ↔
    ∃ p < w.state.phis.size, (w.state.phis.get p).maybeUndefVal = true

end Filled

/-! ## One predecessor

What comes in from a predecessor is entered in its place. -/

section Look

variable {g : Graph} {s₁ s s' : State} {p : ℕ} {seen : ℕ → List ℕ} {w w' : Work}

/-- A change of one `Phi` that leaves it where it is. -/
structure KeepsPlace (f : Phi → Phi) : Prop where
  basicBlock : ∀ φ, (f φ).basicBlock = φ.basicBlock
  localOrd : ∀ φ, (f φ).localOrd = φ.localOrd
  originNode : ∀ φ, (f φ).originNode = φ.originNode

/-- What such a change leaves. -/
theorem KeepsPlace.get {f : Phi → Phi} (hf : KeepsPlace f) (A : Arena Phi) (p q : ℕ) :
    ((A.modify p f).get q).basicBlock = (A.get q).basicBlock ∧
      ((A.modify p f).get q).localOrd = (A.get q).localOrd ∧
      ((A.modify p f).get q).originNode = (A.get q).originNode :=
  ⟨A.get_modify_congr _ hf.basicBlock p q, A.get_modify_congr _ hf.localOrd p q,
    A.get_modify_congr _ hf.originNode p q⟩

theorem Placed.setPhis (h : Placed g s₁ s) {A : Arena Phi} (hsize : A.size = s.phis.size)
    (hplace : ∀ p, (A.get p).basicBlock = (s.phis.get p).basicBlock ∧
      (A.get p).localOrd = (s.phis.get p).localOrd ∧
        (A.get p).originNode = (s.phis.get p).originNode) :
    Placed g s₁ { s with phis := A } where
  node := h.node
  replacement := h.replacement
  events := h.events
  located b hb i q hq := by
    obtain ⟨hlt, hblock, hlocal⟩ := h.located b hb i q hq
    obtain ⟨hblock', hlocal', -⟩ := hplace q
    exact ⟨hsize ▸ hlt, hblock'.trans hblock, hlocal'.trans hlocal⟩
  load := h.load
  origin n q hq := by
    obtain ⟨hlt, hn⟩ := h.origin n q hq
    exact ⟨hsize ▸ hlt, (hplace q).2.2.trans hn⟩
  block q hq := by
    obtain ⟨hblock', hlocal', -⟩ := hplace q
    dsimp only
    rw [hblock', hlocal']
    exact h.block q (hsize ▸ hq)

/-- The `Phi`s stay in their places. -/
theorem Placed.modify (h : Placed g s₁ s) {f : Phi → Phi} (hf : KeepsPlace f) (p : ℕ) :
    Placed g s₁ { s with phis := s.phis.modify p f } :=
  h.setPhis rfl (hf.get s.phis p)

theorem set_replicate {α : Type*} (l : List α) (a b : α) (m : ℕ) (hm : 0 < m) :
    (l ++ List.replicate m a).set l.length b = (l ++ [b]) ++ List.replicate (m - 1) a := by
  obtain ⟨m, rfl⟩ := Nat.exists_eq_add_of_lt hm
  rw [List.set_append_right _ _ (Nat.le_refl _), Nat.sub_self, Nat.zero_add,
    List.replicate_succ, List.set_cons_zero, List.append_assoc, List.singleton_append,
    Nat.add_sub_cancel]

/-- A `Phi` that has looked at nothing yet. -/
theorem Filled.nil {b i o : ℕ} (hphi : s.phis.get p =
    ⟨b, i, o, List.replicate (g.cfg.predecessors b).length .null, false, false⟩) :
    Filled g s p [] where
  children := by
    rw [hphi]
    rfl
  notNull _ hb := absurd hb List.not_mem_nil
  stored := by simp [hphi]
  undef := by simp [hphi]

/-- A `Phi` that stays as it is, with what it has seen at the tails. -/
theorem Filled.congr {done : List ℕ} (h : Filled g s p done)
    (hphi : s'.phis.get p = s.phis.get p)
    (hvalue : ∀ b i, s.valueAtTail b i ≠ .null → s'.valueAtTail b i = s.valueAtTail b i)
    (hstored : ∀ b i, s'.Stored b i ↔ s.Stored b i)
    (hundef : ∀ b i, s'.localInfoAtTail b i = .undefValue ↔ s.localInfoAtTail b i = .undefValue) :
    Filled g s' p done where
  children := by
    rw [hphi, h.children]
    congr 1
    exact List.map_congr_left fun b hb => (hvalue _ _ (h.notNull b hb)).symm
  notNull b hb := by
    rw [hphi, hvalue _ _ (h.notNull b hb)]
    exact h.notNull b hb
  stored := by
    simp only [hphi, hstored]
    exact h.stored
  undef := by
    simp only [hphi, hundef]
    exact h.undef

/-- `f` puts what comes in from `pred` at place `k` of a `Phi`, and sets its flags. -/
structure TakesIn (s : State) (pred i k : ℕ) (f : Phi → Phi) : Prop extends KeepsPlace f where
  children : ∀ φ, (f φ).children = φ.children.set k (s.valueAtTail pred i)
  stored : ∀ φ, (f φ).canSeeSetLocal = true ↔ φ.canSeeSetLocal = true ∨ s.Stored pred i
  undef : ∀ φ, (f φ).maybeUndefVal = true ↔
    φ.maybeUndefVal = true ∨ s.localInfoAtTail pred i = .undefValue

/-- A `Phi` that has looked at one more predecessor. -/
theorem Filled.concat {done rest : List ℕ} {pred : ℕ} (h : Filled g s p done)
    (hpreds : g.cfg.predecessors (s.phis.get p).basicBlock = done ++ pred :: rest)
    (hv : s.valueAtTail pred (s.phis.get p).localOrd ≠ .null) {f : Phi → Phi}
    (hf : TakesIn s pred (s.phis.get p).localOrd done.length f) :
    Filled g { s with phis := s.phis.modify p f } p (done ++ [pred]) := by
  have hself : ({ s with phis := s.phis.modify p f } : State).phis.get p = f (s.phis.get p) :=
    Arena.get_modify_self ..
  have hvalue (b i : ℕ) : ({ s with phis := s.phis.modify p f } : State).valueAtTail b i =
      s.valueAtTail b i := rfl
  have hStored (b i : ℕ) : ({ s with phis := s.phis.modify p f } : State).Stored b i ↔
      s.Stored b i := Iff.rfl
  constructor
  · -- the first of the empty places is filled
    let values := done.map fun b => s.valueAtTail b (s.phis.get p).localOrd
    have hlen : values.length = done.length := List.length_map _
    have hset := set_replicate values .null (s.valueAtTail pred (s.phis.get p).localOrd)
      (done.length + (rest.length + 1) - done.length) (by omega)
    rw [hlen] at hset
    rw [hself, hf.basicBlock, hf.localOrd, hf.children, h.children, hpreds, List.map_append,
      List.length_append, List.length_append, List.length_cons, hset]
    simp only [hvalue, List.map_cons, List.map_nil, List.length_cons, List.length_nil]
    congr 2
  · intro b hb
    rw [hself, hf.localOrd, hvalue]
    rcases List.mem_append.mp hb with hb | hb
    · exact h.notNull b hb
    · exact List.mem_singleton.mp hb ▸ hv
  · rw [hself, hf.localOrd, hf.stored, h.stored]
    simp only [hStored, List.mem_append, List.mem_singleton, or_and_right, exists_or,
      exists_eq_left]
  · rw [hself, hf.localOrd, hf.undef, h.undef]
    simp only [List.mem_append, List.mem_singleton, or_and_right, exists_or, exists_eq_left]

/-- How `f` on `Phi` number `p` shows in the work: an undefined input is noted. -/
structure Notes (p pred i : ℕ) (f : Phi → Phi) (w w' : Work) : Prop where
  state : w'.state = { w.state with phis := w.state.phis.modify p f }
  q : w'.q = w.q
  q2 : w'.q2 = w.q2
  q3 : ∀ x, x ∈ w'.q3 ↔ x ∈ w.q3 ∨ x = p ∧ w.state.localInfoAtTail pred i = .undefValue
  flag : w'.hasPhiReferenceUndefValue = true ↔ w.hasPhiReferenceUndefValue = true ∨
    w.state.localInfoAtTail pred i = .undefValue

/-- **One predecessor** is looked at. -/
theorem PhiInv.look (h : PhiInv g s₁ (some p) seen w) {done rest : List ℕ} {pred i : ℕ}
    (hpreds : g.cfg.predecessors (w.state.phis.get p).basicBlock = done ++ pred :: rest)
    (hi : (w.state.phis.get p).localOrd = i) (hseen : seen p = done)
    (hv : w.state.valueAtTail pred i ≠ .null) {f : Phi → Phi}
    (hf : TakesIn w.state pred i done.length f) (hnotes : Notes p pred i f w w') :
    PhiInv g s₁ (some p) (Function.update seen p (done ++ [pred])) w' := by
  subst hi
  obtain ⟨state, q, q2, q3, hasPhiReferenceUndefValue⟩ := w'
  obtain rfl : state = { w.state with phis := w.state.phis.modify p f } := hnotes.state
  obtain rfl : q = w.q := hnotes.q
  obtain rfl : q2 = w.q2 := hnotes.q2
  have hself : (w.state.phis.modify p f).get p = f (w.state.phis.get p) := Arena.get_modify_self ..
  have hne (x : ℕ) (hx : x ≠ p) : (w.state.phis.modify p f).get x = w.state.phis.get x :=
    Arena.get_modify_of_ne _ hx _
  obtain ⟨hp, hpq⟩ := h.curNot p rfl
  -- which `Phi`s may be undefined now
  have hmaybe (x : ℕ) : x < w.state.phis.size ∧
      ((w.state.phis.modify p f).get x).maybeUndefVal = true ↔
        (x < w.state.phis.size ∧ (w.state.phis.get x).maybeUndefVal = true) ∨
          x = p ∧ w.state.localInfoAtTail pred (w.state.phis.get p).localOrd = .undefValue := by
    by_cases hx : x = p
    · subst hx
      rw [hself, hf.undef]
      simp [hp]
    · rw [hne x hx]
      simp [hx]
  constructor
  case placed => exact h.placed.modify hf.toKeepsPlace p
  case filled =>
    intro x hx
    by_cases heq : x = p
    · subst heq
      rw [Function.update_self]
      exact (hseen ▸ h.filled x hx).concat hpreds hv hf
    · rw [Function.update_of_ne heq]
      exact (h.filled x hx).congr (hne x heq) (fun _ _ _ => rfl) (fun _ _ => Iff.rfl)
        fun _ _ => Iff.rfl
  case waiting =>
    intro x hx
    have hxp : x ≠ p := by
      rintro rfl
      exact hpq hx
    rw [Function.update_of_ne hxp]
    exact h.waiting x hx
  case looked =>
    intro x hx hxq hcur
    dsimp only
    rw [Function.update_of_ne fun heq => hcur (congrArg some heq),
      (hf.toKeepsPlace.get w.state.phis p x).1]
    exact h.looked x hx hxq hcur
  case fresh =>
    intro x hx
    have hle : w.state.phis.size ≤ x := hx
    rw [Function.update_of_ne (by omega)]
    exact h.fresh x hle
  case curNot => exact h.curNot
  case nodup => exact h.nodup
  case q2 =>
    intro x
    refine (h.q2 x).trans ?_
    refine and_congr_right fun _ => and_congr_right fun _ => and_congr_right fun hcur => ?_
    dsimp only
    rw [hne x fun heq => hcur (congrArg some heq)]
  case q3 => exact fun x => (hnotes.q3 x).trans ((or_congr_left (h.q3 x)).trans (hmaybe x).symm)
  case undef =>
    rw [hnotes.flag, h.undef]
    refine Iff.trans ?_ (exists_congr fun x => (hmaybe x).symm)
    simp only [exists_or, exists_eq_left]

end Look

/-! ## A new `Phi`

For a predecessor in which nothing happens to the local. -/

section Allocate

variable {g : Graph} {s₁ s : State} {seen : ℕ → List ℕ} {w : Work} {pred i : ℕ}

/-- The state in which an empty place got a new `Phi`. -/
def addPhi (g : Graph) (s : State) (pred i originNode : ℕ) : State :=
  (((s.allocatePhi (g.cfg.predecessors pred).length pred i originNode).setHead pred i
    (.phi s.phis.size)).setTail pred i (.phi s.phis.size))

variable (g s) in
/-- The new `Phi` is at the head. -/
theorem addPhi_head_self (o : ℕ) :
    (addPhi g s pred i o).localInfoAtHead pred i = .phi s.phis.size := by
  simp [addPhi, State.setHead, State.setTail, State.allocatePhi]

variable (g s) in
theorem addPhi_tail_self (o : ℕ) :
    (addPhi g s pred i o).localInfoAtTail pred i = .phi s.phis.size := by
  simp [addPhi, State.setHead, State.setTail, State.allocatePhi]

variable (g s) in
/-- The other places are as they were. -/
theorem addPhi_of_ne (o : ℕ) {b j : ℕ} (h : b ≠ pred ∨ j ≠ i) :
    (addPhi g s pred i o).localInfoAtHead b j = s.localInfoAtHead b j ∧
      (addPhi g s pred i o).localInfoAtTail b j = s.localInfoAtTail b j := by
  by_cases hb : b = pred
  · subst hb
    have hj := h.resolve_left (not_not_intro rfl)
    simp [addPhi, State.setHead, State.setTail, State.allocatePhi, hj]
  · simp [addPhi, State.setHead, State.setTail, State.allocatePhi, hb]

theorem phiAtHead_congr {s s' : State} {b j : ℕ}
    (hhead : s'.localInfoAtHead b j = s.localInfoAtHead b j)
    (hinfo : s'.dataFlowInfo = s.dataFlowInfo) : s'.phiAtHead b j = s.phiAtHead b j := by
  rw [State.phiAtHead, State.phiAtHead, hhead, hinfo]

theorem valueAtTail_congr {s s' : State} {b j : ℕ}
    (htail : s'.localInfoAtTail b j = s.localInfoAtTail b j)
    (hinfo : s'.dataFlowInfo = s.dataFlowInfo) : s'.valueAtTail b j = s.valueAtTail b j := by
  rw [State.valueAtTail, State.valueAtTail, htail, hinfo]

/-- The older `Phi`s stay as they are. -/
theorem addPhi_get_of_lt {q : ℕ} (hq : q < s.phis.size) (o : ℕ) :
    (addPhi g s pred i o).phis.get q = s.phis.get q :=
  Arena.get_push_of_lt _ hq _

/-- The new one has no inputs yet. -/
theorem addPhi_get_self (o : ℕ) : (addPhi g s pred i o).phis.get s.phis.size =
    ⟨pred, i, o, List.replicate (g.cfg.predecessors pred).length .null, false, false⟩ :=
  Arena.get_push_self ..

/-- Where there was a value at a tail it is still the same. -/
theorem addPhi_valueAtTail (htail : s.localInfoAtTail pred i = .null) (o : ℕ) {b j : ℕ}
    (hb : s.valueAtTail b j ≠ .null) :
    (addPhi g s pred i o).valueAtTail b j = s.valueAtTail b j := by
  have hnull : s.valueAtTail pred i = .null := by rw [State.valueAtTail, htail]
  refine valueAtTail_congr (addPhi_of_ne g s o ?_).2 rfl
  by_contra hbj
  obtain ⟨hb', hj⟩ := not_or.mp hbj
  rw [not_not.mp hb', not_not.mp hj] at hb
  exact hb hnull

/-- An event that is no `Phi` is at the same tails as before. -/
theorem addPhi_tail_iff (htail : s.localInfoAtTail pred i = .null) (o : ℕ) {e : PhiOrNode}
    (hnot : ∀ q, e ≠ .phi q) (hnot' : e ≠ .null) (b j : ℕ) :
    (addPhi g s pred i o).localInfoAtTail b j = e ↔ s.localInfoAtTail b j = e := by
  by_cases hbj : b = pred ∧ j = i
  · obtain ⟨rfl, rfl⟩ := hbj
    rw [addPhi_tail_self, htail]
    exact ⟨fun heq => absurd heq.symm (hnot _), fun heq => absurd heq.symm hnot'⟩
  · rw [(addPhi_of_ne g s o (not_and_or.mp hbj)).2]

/-- Nothing is known of the new `Phi`. -/
theorem addPhi_maybeUndefVal (o q : ℕ) : q < s.phis.size + 1 ∧
    ((addPhi g s pred i o).phis.get q).maybeUndefVal = true ↔
      q < s.phis.size ∧ (s.phis.get q).maybeUndefVal = true := by
  constructor
  · rintro ⟨hq, hm⟩
    rcases Nat.lt_succ_iff_lt_or_eq.mp hq with hlt | rfl
    · exact ⟨hlt, addPhi_get_of_lt hlt o ▸ hm⟩
    · rw [addPhi_get_self] at hm
      cases hm
  · exact fun ⟨hlt, hm⟩ => ⟨Nat.lt_succ_of_lt hlt, (addPhi_get_of_lt hlt o).symm ▸ hm⟩

/-- The new `Phi` has a place of its own. -/
theorem Placed.addPhi (h : Placed g s₁ s) (hpred : pred ∈ g.cfg.blocks) (hi : i < g.numLocals)
    (hhead : s.localInfoAtHead pred i = .null) (htail : s.localInfoAtTail pred i = .null)
    (o : ℕ) : Placed g s₁ (addPhi g s pred i o) := by
  have hphi : (LocalSsa.addPhi g s pred i o).phiAtHead pred i = some s.phis.size := by
    rw [State.phiAtHead, addPhi_head_self]
  have hphi' {b j : ℕ} (hne : b ≠ pred ∨ j ≠ i) :
      (LocalSsa.addPhi g s pred i o).phiAtHead b j = s.phiAtHead b j :=
    phiAtHead_congr (addPhi_of_ne g s o hne).1 rfl
  have hsize : (LocalSsa.addPhi g s pred i o).phis.size = s.phis.size + 1 := rfl
  constructor
  case node => exact h.node
  case replacement => exact h.replacement
  case events =>
    intro b j
    by_cases hbj : b = pred ∧ j = i
    · obtain ⟨rfl, rfl⟩ := hbj
      rcases h.events b j with ⟨hh, ht⟩ | ⟨-, -, q, hq, -⟩
      · exact .inr ⟨hh.symm.trans hhead, ht.symm.trans htail, _, addPhi_head_self g s o,
          addPhi_tail_self g s o⟩
      · exact absurd (hq.symm.trans hhead) (by simp)
    · obtain ⟨hh, ht⟩ := addPhi_of_ne g s o (not_and_or.mp hbj)
      rw [hh, ht]
      exact h.events b j
  case located =>
    intro b hb j q hq
    by_cases hbj : b = pred ∧ j = i
    · obtain ⟨rfl, rfl⟩ := hbj
      obtain rfl := Option.some_inj.mp (hphi.symm.trans hq)
      rw [addPhi_get_self, hsize]
      exact ⟨Nat.lt_succ_self _, rfl, rfl⟩
    · rw [hphi' (not_and_or.mp hbj)] at hq
      obtain ⟨hlt, hplace⟩ := h.located b hb j q hq
      rw [addPhi_get_of_lt hlt, hsize]
      exact ⟨Nat.lt_succ_of_lt hlt, hplace⟩
  case load =>
    intro b hb j n hn
    by_cases hbj : b = pred ∧ j = i
    · obtain ⟨rfl, rfl⟩ := hbj
      rw [addPhi_head_self] at hn
      cases hn
    · rw [(addPhi_of_ne g s o (not_and_or.mp hbj)).1] at hn
      exact h.load b hb j n hn
  case origin =>
    intro n q hq
    obtain ⟨hlt, hn⟩ := h.origin n q hq
    rw [hsize, addPhi_get_of_lt hlt]
    exact ⟨Nat.lt_succ_of_lt hlt, hn⟩
  case block =>
    intro q hq
    rw [hsize] at hq
    rcases Nat.lt_succ_iff_lt_or_eq.mp hq with hlt | rfl
    · rw [addPhi_get_of_lt hlt]
      obtain ⟨hblock, hlocal, hat⟩ := h.block q hlt
      refine ⟨hblock, hlocal, (hphi' ?_).trans hat⟩
      by_contra hbj
      obtain ⟨hb, hj⟩ := not_or.mp hbj
      rw [not_not.mp hb, not_not.mp hj, State.phiAtHead, hhead] at hat
      cases hat
    · rw [addPhi_get_self]
      exact ⟨hpred, hi, hphi⟩

/-- **A block in which the local was not touched** gets a `Phi`. -/
theorem PhiInv.addPhi {p : ℕ} (h : PhiInv g s₁ (some p) seen w) (hpred : pred ∈ g.cfg.blocks)
    (hi : i < g.numLocals) (hhead : w.state.localInfoAtHead pred i = .null)
    (htail : w.state.localInfoAtTail pred i = .null) (o : ℕ) :
    PhiInv g s₁ (some p) seen
      { w with state := addPhi g w.state pred i o, q := w.state.phis.size :: w.q } := by
  have hcases {q : ℕ} (hq : q < w.state.phis.size + 1) : q < w.state.phis.size ∨
      q = w.state.phis.size := Nat.lt_succ_iff_lt_or_eq.mp hq
  obtain ⟨hp, hpq⟩ := h.curNot p rfl
  constructor <;> dsimp only
  case placed => exact h.placed.addPhi hpred hi hhead htail o
  case filled =>
    intro q hq
    rcases hcases hq with hlt | rfl
    · exact (h.filled q hlt).congr (addPhi_get_of_lt hlt o)
        (fun _ _ => addPhi_valueAtTail htail o)
        (fun b j => exists_congr fun m => addPhi_tail_iff htail o (by simp) (by simp) b j)
        (addPhi_tail_iff htail o (by simp) (by simp))
    · rw [h.fresh _ (Nat.le_refl _)]
      exact Filled.nil (addPhi_get_self o)
  case waiting =>
    intro q hq
    rcases List.mem_cons.mp hq with rfl | hq
    · exact ⟨Nat.lt_succ_self _, h.fresh _ (Nat.le_refl _)⟩
    · exact ⟨Nat.lt_succ_of_lt (h.waiting q hq).1, (h.waiting q hq).2⟩
  case looked =>
    intro q hq hnot hcur
    rcases hcases hq with hlt | rfl
    · rw [addPhi_get_of_lt hlt]
      exact h.looked q hlt (fun hin => hnot (.tail _ hin)) hcur
    · exact absurd (.head _) hnot
  case fresh => exact fun q hq => h.fresh q ((Nat.le_succ _).trans hq)
  case curNot =>
    intro q hq
    obtain rfl := Option.some_inj.mp hq
    refine ⟨Nat.lt_succ_of_lt hp, fun hin => ?_⟩
    rcases List.mem_cons.mp hin with rfl | hin
    · exact Nat.lt_irrefl _ hp
    · exact hpq hin
  case nodup =>
    exact List.nodup_cons.mpr ⟨fun hin => Nat.lt_irrefl _ (h.waiting _ hin).1, h.nodup⟩
  case q2 =>
    intro q
    rw [h.q2]
    constructor
    · rintro ⟨hlt, hnot, hcur, hsee⟩
      refine ⟨Nat.lt_succ_of_lt hlt, fun hin => ?_, hcur, addPhi_get_of_lt hlt o ▸ hsee⟩
      rcases List.mem_cons.mp hin with rfl | hin
      · exact Nat.lt_irrefl _ hlt
      · exact hnot hin
    · rintro ⟨hq, hnot, hcur, hsee⟩
      have hlt := (hcases hq).resolve_right fun heq => hnot (heq ▸ .head _)
      exact ⟨hlt, fun hin => hnot (.tail _ hin), hcur, addPhi_get_of_lt hlt o ▸ hsee⟩
  case q3 => exact fun q => (h.q3 q).trans (addPhi_maybeUndefVal o q).symm
  case undef =>
    rw [h.undef]
    exact exists_congr fun q => (addPhi_maybeUndefVal o q).symm

end Allocate

/-! ## The loop over the predecessors

It ends, as a new `Phi` takes an empty place. -/

section Visit

variable {g : Graph} {s₁ s : State} {seen : ℕ → List ℕ} {w : Work} {p pred i : ℕ}

/-- How many places have no event yet. -/
def emptyPlaces (g : Graph) (s : State) : ℕ :=
  ((g.cfg.blocks ×ˢ List.range g.numLocals).filter fun place =>
    s.localInfoAtHead place.1 place.2 = .null).length

/-- There are fewer empty places. -/
theorem emptyPlaces_addPhi (hpred : pred ∈ g.cfg.blocks) (hi : i < g.numLocals)
    (hhead : s.localInfoAtHead pred i = .null) (o : ℕ) :
    emptyPlaces g (addPhi g s pred i o) < emptyPlaces g s := by
  have hfilter : (g.cfg.blocks ×ˢ List.range g.numLocals).filter (fun place =>
        (addPhi g s pred i o).localInfoAtHead place.1 place.2 = .null) =
      ((g.cfg.blocks ×ˢ List.range g.numLocals).filter fun place =>
        s.localInfoAtHead place.1 place.2 = .null).filter fun place =>
          decide (place ≠ (pred, i)) := by
    rw [List.filter_filter]
    refine List.filter_congr fun place _ => ?_
    by_cases hplace : place = (pred, i)
    · subst hplace
      simp [addPhi_head_self]
    · have hne : place.1 ≠ pred ∨ place.2 ≠ i := by
        by_contra hboth
        obtain ⟨h₁, h₂⟩ := not_or.mp hboth
        exact hplace (Prod.ext (not_not.mp h₁) (not_not.mp h₂))
      rw [(addPhi_of_ne g s o hne).1]
      simp [hplace]
  rw [emptyPlaces, emptyPlaces, hfilter]
  exact List.length_filter_lt_length_iff_exists.mpr ⟨(pred, i), List.mem_filter.mpr
    ⟨List.mem_product.mpr ⟨hpred, List.mem_range.mpr hi⟩, by simpa using hhead⟩, by simp⟩

/-- What comes in at a `Phi` stays there when an empty input is set. -/
theorem mem_set_of_ne {α : Type*} {l : List α} {k : ℕ} {x a b : α} (hx : x ∈ l)
    (hk : l[k]? = some a) (hne : x ≠ a) : x ∈ l.set k b := by
  obtain ⟨j, hj⟩ := List.mem_iff_getElem?.mp hx
  have hjk : k ≠ j := by
    rintro rfl
    exact hne (Option.some_inj.mp (hj.symm.trans hk))
  exact List.mem_iff_getElem?.mpr ⟨j, by rw [List.getElem?_set_ne hjk, hj]⟩

/-- The loops only add `Phi`s and what comes in at them. -/
structure Grows (s s' : State) : Prop where
  size : s.phis.size ≤ s'.phis.size
  info : s'.dataFlowInfo = s.dataFlowInfo
  load : ∀ b i n, s.localInfoAtHead b i = .getLocal n → s'.localInfoAtHead b i = .getLocal n
  place : ∀ q < s.phis.size, (s'.phis.get q).basicBlock = (s.phis.get q).basicBlock ∧
    (s'.phis.get q).localOrd = (s.phis.get q).localOrd ∧
      (s'.phis.get q).originNode = (s.phis.get q).originNode
  comesIn : ∀ q < s.phis.size, ∀ x, s.ComesIn x q → s'.ComesIn x q

/-- A chain of `Phi`s stays one; all of them were there before. -/
theorem Grows.chain {s' : State} (h : Grows s s') {p₀ : ℕ}
    (hin : ∀ q < s.phis.size, ∀ x, s.ComesIn x q → x < s.phis.size)
    (hchain : Relation.ReflTransGen (fun p q => s.ComesIn q p) p₀ p) (hp₀ : p₀ < s.phis.size) :
    Relation.ReflTransGen (fun p q => s'.ComesIn q p) p₀ p ∧ p < s.phis.size := by
  induction hchain with
  | refl => exact ⟨.refl, hp₀⟩
  | tail _ hstep ih => exact ⟨ih.1.tail (h.comesIn _ ih.2 _ hstep), hin _ ih.2 _ hstep⟩

/-- The events of a place are those of a block in canonical form, or its `Phi`. -/
theorem Placed.tail_cases (hcanon : CanonicalGraph g s₁) (h : Placed g s₁ s) {b : ℕ}
    (hb : b ∈ g.cfg.blocks) (i : ℕ) :
    LocalEvents g s.node (g.cfg.nodes b) i (s.localInfoAtHead b i) (s.localInfoAtTail b i) ∨
      ∃ p, s.localInfoAtHead b i = .phi p ∧ s.localInfoAtTail b i = .phi p := by
  rcases h.events b i with ⟨hh, ht⟩ | ⟨-, -, hp⟩
  · rw [hh, ht, h.node]
    exact .inl ((hcanon.blocks b hb).canonical.events i)
  · exact .inr hp

/-- A `Phi` at the tail is the one at the head. -/
theorem Placed.tail_phi_iff (hcanon : CanonicalGraph g s₁) (h : Placed g s₁ s) {b : ℕ}
    (hb : b ∈ g.cfg.blocks) {i x : ℕ} :
    s.localInfoAtTail b i = .phi x ↔ s.localInfoAtHead b i = .phi x := by
  rcases h.tail_cases hcanon hb i with hevents | ⟨p, hh, ht⟩
  · constructor
    · intro ht
      exact (ht ▸ hevents).tail_phi.elim
    · intro hh
      rw [hh] at hevents
      cases hevents
  · rw [hh, ht]

/-- A `Phi` at the tail of a block is the one at its head. -/
theorem Placed.valueAtTail_phi (hcanon : CanonicalGraph g s₁) (h : Placed g s₁ s) {b : ℕ}
    (hb : b ∈ g.cfg.blocks) {i x : ℕ} (hx : s.valueAtTail b i = .phi x) :
    s.phiAtHead b i = some x := by
  rcases h.tail_cases hcanon hb i with hevents | ⟨p, hh, ht⟩
  · generalize htail : s.localInfoAtTail b i = e at hevents
    cases e with
    | getLocal n =>
      rw [State.phiAtHead_getLocal hevents.tail_getLocal.1]
      rw [State.valueAtTail_getLocal htail] at hx
      cases hinfo : s.dataFlowInfo n with
      | none =>
        rw [hinfo] at hx
        cases hx
      | some y =>
        rw [hinfo] at hx
        cases hx
        rfl
    | phi y => exact hevents.tail_phi.elim
    | _ =>
      rw [State.valueAtTail_of_ne htail (by simp)] at hx
      cases hx
  · rw [State.valueAtTail_of_ne ht (by simp)] at hx
    cases hx
    exact State.phiAtHead_phi hh

/-- An event at the tail that is not empty has a value. -/
theorem Placed.valueAtTail_ne (hcanon : CanonicalGraph g s₁) (h : Placed g s₁ s) {b : ℕ}
    (hb : b ∈ g.cfg.blocks) {i : ℕ} (hne : s.localInfoAtTail b i ≠ .null) :
    s.valueAtTail b i ≠ .null := by
  cases htail : s.localInfoAtTail b i with
  | getLocal n =>
    have hhead : s.localInfoAtHead b i = .getLocal n := by
      rcases h.tail_cases hcanon hb i with hevents | ⟨p, -, ht⟩
      · rw [htail] at hevents
        exact hevents.tail_getLocal.1
      · rw [htail] at ht
        cases ht
    obtain ⟨y, hy⟩ := Option.isSome_iff_exists.mp (h.load b hb i n hhead)
    rw [State.valueAtTail_getLocal htail, hy]
    simp
  | null => exact absurd htail hne
  | _ =>
    rw [State.valueAtTail_of_ne htail (by simp)]
    simp

/-- Only `Phi`s that exist come in. -/
theorem PhiInv.comesIn_lt (hwf : g.WellFormed) (hcanon : CanonicalGraph g s₁) {cur : Option ℕ}
    (h : PhiInv g s₁ cur seen w) (hsub : ∀ p < w.state.phis.size,
      seen p ⊆ g.cfg.predecessors (w.state.phis.get p).basicBlock) :
    ∀ q < w.state.phis.size, ∀ x, w.state.ComesIn x q → x < w.state.phis.size := by
  intro q hq x hx
  rw [State.ComesIn, (h.filled q hq).children] at hx
  rcases List.mem_append.mp hx with hx | hx
  · obtain ⟨b, hb, hvalue⟩ := List.mem_map.mp hx
    have hblock := (h.placed.block q hq).1
    have hb' := ((hwf.consistent.mem _ hblock b).mp (hsub q hq hb)).1
    exact (h.placed.located b hb' _ x (h.placed.valueAtTail_phi hcanon hb' hvalue)).1
  · cases (List.mem_replicate.mp hx).2

/-- Chains end at the `Phi` of a load. -/
theorem Grows.originated {s' : State} (h : Grows s s') (hplaced : Placed g s₁ s)
    (hin : ∀ q < s.phis.size, ∀ x, s.ComesIn x q → x < s.phis.size) (ho : Originated g s)
    {q : ℕ} (hq : q < s.phis.size) : ∃ b ∈ g.cfg.blocks, ∃ i p₀,
      s'.localInfoAtHead b i = .getLocal (s'.phis.get q).originNode ∧
        s'.dataFlowInfo (s'.phis.get q).originNode = some p₀ ∧
        Relation.ReflTransGen (fun p q => s'.ComesIn q p) p₀ q := by
  obtain ⟨b, hb, i, p₀, hload, hinfo, hchain⟩ := ho q hq
  rw [(h.place q hq).2.2, h.info]
  have hp₀ : s.phiAtHead b i = some p₀ := (State.phiAtHead_getLocal hload).trans hinfo
  exact ⟨b, hb, i, p₀, h.load b i _ hload, hinfo,
    (h.chain hin hchain (hplaced.located b hb i p₀ hp₀).1).1⟩

theorem Grows.refl (s : State) : Grows s s where
  size := Nat.le_refl _
  info := rfl
  load _ _ _ hn := hn
  place _ _ := ⟨rfl, rfl, rfl⟩
  comesIn _ _ _ hx := hx

/-- The graph grows and grows. -/
theorem Grows.trans {s s' s'' : State} (h : Grows s s') (h' : Grows s' s'') : Grows s s'' where
  size := Nat.le_trans h.size h'.size
  info := h'.info.trans h.info
  load b i n hn := h'.load b i n (h.load b i n hn)
  place q hq := by
    obtain ⟨hblock, hlocal, horigin⟩ := h.place q hq
    obtain ⟨hblock', hlocal', horigin'⟩ := h'.place q (Nat.lt_of_lt_of_le hq h.size)
    exact ⟨hblock'.trans hblock, hlocal'.trans hlocal, horigin'.trans horigin⟩
  comesIn q hq x hx := h'.comesIn q (Nat.lt_of_lt_of_le hq h.size) x (h.comesIn q hq x hx)

theorem Grows.modify (s : State) {f : Phi → Phi} (hf : KeepsPlace f) (p : ℕ)
    (hin : ∀ x, s.ComesIn x p → PhiOrNode.phi x ∈ (f (s.phis.get p)).children) :
    Grows s { s with phis := s.phis.modify p f } where
  size := Nat.le_refl _
  info := rfl
  load _ _ _ hn := hn
  place q _ := hf.get s.phis p q
  comesIn q _ x hx := by
    rw [State.ComesIn]
    by_cases hq : q = p
    · subst hq
      rw [Arena.get_modify_self]
      exact hin x hx
    · rwa [Arena.get_modify_of_ne _ hq]

theorem Grows.addPhi (hhead : s.localInfoAtHead pred i = .null) (o : ℕ) :
    Grows s (addPhi g s pred i o) where
  size := Nat.le_succ _
  info := rfl
  load b j n hn := by
    refine (addPhi_of_ne g s o ?_).1.trans hn
    by_contra hbj
    obtain ⟨hb, hj⟩ := not_or.mp hbj
    rw [not_not.mp hb, not_not.mp hj, hhead] at hn
    cases hn
  place q hq := by
    have hget : (LocalSsa.addPhi g s pred i o).phis.get q = s.phis.get q :=
      Arena.get_push_of_lt _ hq _
    rw [hget]
    exact ⟨rfl, rfl, rfl⟩
  comesIn q hq x hx := by
    have hget : (LocalSsa.addPhi g s pred i o).phis.get q = s.phis.get q :=
      Arena.get_push_of_lt _ hq _
    rwa [State.ComesIn, hget]

/-- The next input of a `Phi` is empty. -/
theorem Filled.children_next {done rest : List ℕ} (h : Filled g s p done)
    (hpreds : g.cfg.predecessors (s.phis.get p).basicBlock = done ++ pred :: rest) :
    (s.phis.get p).children[done.length]? = some .null := by
  rw [h.children, hpreds, List.getElem?_append_right (by rw [List.length_map]), List.length_map,
    List.getElem?_replicate, if_pos (by rw [List.length_append, List.length_cons]; omega)]

/-- Only predecessors have been seen. -/
theorem PhiInv.seen_subset (h : PhiInv g s₁ (some p) seen w)
    (hp : seen p ⊆ g.cfg.predecessors (w.state.phis.get p).basicBlock) :
    ∀ q < w.state.phis.size, seen q ⊆ g.cfg.predecessors (w.state.phis.get q).basicBlock := by
  intro q hq
  by_cases hqp : q = p
  · exact hqp ▸ hp
  by_cases hwait : q ∈ w.q
  · rw [(h.waiting q hwait).2]
    exact List.nil_subset _
  · rw [h.looked q hq hwait fun heq => hqp (Option.some_inj.mp heq)]
    exact List.Subset.refl _

/-- What looking at one predecessor leads to. -/
structure LookedAt (g : Graph) (s₁ : State) (p : ℕ) (seen : ℕ → List ℕ) (w w' : Work) : Prop where
  inv : PhiInv g s₁ (some p) seen w'
  grows : Grows w.state w'.state
  measure : emptyPlaces g w'.state + w'.q.length ≤ emptyPlaces g w.state + w.q.length

variable {done rest : List ℕ}

/-- A value comes in that is known. -/
theorem PhiInv.lookedAt (hwf : g.WellFormed) (hcanon : CanonicalGraph g s₁)
    (h : PhiInv g s₁ (some p) seen w)
    (hpreds : g.cfg.predecessors (w.state.phis.get p).basicBlock = done ++ pred :: rest)
    (hi : (w.state.phis.get p).localOrd = i) (hseen : seen p = done)
    (hne : w.state.localInfoAtTail pred i ≠ .null) {w' : Work} {f : Phi → Phi}
    (hf : TakesIn w.state pred i done.length f) (hnotes : Notes p pred i f w w') :
    LookedAt g s₁ p (Function.update seen p (done ++ [pred])) w w' := by
  obtain ⟨hp, -⟩ := h.curNot p rfl
  have hblock := (h.placed.block p hp).1
  have hpred : pred ∈ g.cfg.blocks :=
    ((hwf.consistent.mem _ hblock pred).mp (hpreds ▸ List.mem_append_right _ (.head _))).1
  refine ⟨h.look hpreds hi hseen (h.placed.valueAtTail_ne hcanon hpred hne) hf hnotes, ?_, ?_⟩
  · rw [hnotes.state]
    refine Grows.modify w.state hf.toKeepsPlace p fun x hx => ?_
    rw [hf.children]
    exact mem_set_of_ne hx ((hseen ▸ h.filled p hp).children_next hpreds) (by simp)
  · rw [hnotes.q, hnotes.state]
    exact Nat.le_refl _

/-- A value comes in that is neither a store nor undefined. -/
theorem PhiInv.lookedAt_plain (hwf : g.WellFormed) (hcanon : CanonicalGraph g s₁)
    (h : PhiInv g s₁ (some p) seen w)
    (hpreds : g.cfg.predecessors (w.state.phis.get p).basicBlock = done ++ pred :: rest)
    (hi : (w.state.phis.get p).localOrd = i) (hseen : seen p = done)
    (hne : w.state.localInfoAtTail pred i ≠ .null) (hstored : ¬ w.state.Stored pred i)
    (hundef : w.state.localInfoAtTail pred i ≠ .undefValue) {x : PhiOrNode}
    (hx : w.state.valueAtTail pred i = x) :
    LookedAt g s₁ p (Function.update seen p (done ++ [pred])) w
      { w with state := w.state.setIncomingValue p done.length x } := by
  refine h.lookedAt hwf hcanon hpreds hi hseen hne
    (f := fun φ => { φ with children := φ.children.set done.length x })
    ⟨⟨fun _ => rfl, fun _ => rfl, fun _ => rfl⟩, fun φ => by rw [hx],
      fun φ => (or_iff_left hstored).symm, fun φ => (or_iff_left hundef).symm⟩
    ⟨rfl, rfl, rfl, fun y => ?_, (or_iff_left hundef).symm⟩
  exact ⟨.inl, fun h => h.resolve_right fun hy => hundef hy.2⟩

/-- Chains end at a load also after a step. -/
theorem LookedAt.originated {seen' : ℕ → List ℕ} {w' : Work} (hwf : g.WellFormed)
    (hcanon : CanonicalGraph g s₁) (h : PhiInv g s₁ (some p) seen w)
    (hsub : seen p ⊆ g.cfg.predecessors (w.state.phis.get p).basicBlock)
    (ho : Originated g w.state) (hlook : LookedAt g s₁ p seen' w w')
    (hnew : ∀ q < w'.state.phis.size, q < w.state.phis.size ∨
      (w'.state.phis.get q).originNode = (w'.state.phis.get p).originNode ∧
        w'.state.ComesIn q p) : Originated g w'.state := by
  intro q hq
  have hold {x : ℕ} (hx : x < w.state.phis.size) :=
    hlook.grows.originated h.placed (h.comesIn_lt hwf hcanon (h.seen_subset hsub)) ho hx
  rcases hnew q hq with hlt | ⟨horigin, hin⟩
  · exact hold hlt
  · obtain ⟨b, hb, i, p₀, hload, hinfo, hchain⟩ := hold (h.curNot p rfl).1
    exact ⟨b, hb, i, p₀, horigin ▸ hload, horigin ▸ hinfo, hchain.tail hin⟩

/-- **One predecessor was looked at**, and every `Phi` still has its load. -/
structure CameIn (g : Graph) (s₁ : State) (p : ℕ) (seen : ℕ → List ℕ) (w w' : Work) : Prop where
  lookedAt : LookedAt g s₁ p seen w w'
  originated : Originated g w'.state

/-- Nothing is stored where no store is the last event. -/
theorem PhiInv.not_stored {e : PhiOrNode} (htail : w.state.localInfoAtTail pred i = e)
    (he : ∀ n, e ≠ .setLocal n) : ¬ w.state.Stored pred i := by
  rintro ⟨n, hn⟩
  exact he n (htail.symm.trans hn)

section Cases

variable (hwf : g.WellFormed) (hcanon : CanonicalGraph g s₁) (h : PhiInv g s₁ (some p) seen w)
  (ho : Originated g w.state)
  (hpreds : g.cfg.predecessors (w.state.phis.get p).basicBlock = done ++ pred :: rest)
  (hi : (w.state.phis.get p).localOrd = i) (hseen : seen p = done)

include hwf hcanon h ho hpreds hseen

/-- No new `Phi`. -/
theorem LookedAt.cameIn {w' : Work}
    (hlook : LookedAt g s₁ p (Function.update seen p (done ++ [pred])) w w')
    (hsize : w'.state.phis.size = w.state.phis.size) :
    CameIn g s₁ p (Function.update seen p (done ++ [pred])) w w' := by
  have hsub : seen p ⊆ g.cfg.predecessors (w.state.phis.get p).basicBlock := by
    rw [hseen, hpreds]
    exact List.subset_append_left _ _
  exact ⟨hlook, hlook.originated hwf hcanon h hsub ho fun q hq => .inl (hsize ▸ hq)⟩

include hi

/-- **The local was not touched there**: a new `Phi` is put there and comes in. -/
theorem visitIncomingValue_null (htail : w.state.localInfoAtTail pred i = .null) :
    CameIn g s₁ p (Function.update seen p (done ++ [pred])) w
      (g.visitIncomingValue p i w pred done.length) := by
  obtain ⟨hp, -⟩ := h.curNot p rfl
  obtain ⟨hblock, hlocal, -⟩ := h.placed.block p hp
  have hpred : pred ∈ g.cfg.blocks :=
    ((hwf.consistent.mem _ hblock pred).mp (hpreds ▸ List.mem_append_right _ (.head _))).1
  have hhead : w.state.localInfoAtHead pred i = .null := by
    rcases h.placed.tail_cases hcanon hpred i with hevents | ⟨x, -, ht⟩
    · exact (htail ▸ hevents).tail_null
    · rw [htail] at ht
      cases ht
  have hi' : i < g.numLocals := hi ▸ hlocal
  generalize horigin : (w.state.phis.get p).originNode = o
  have hget : (addPhi g w.state pred i o).phis.get p = w.state.phis.get p :=
    Arena.get_push_of_lt _ hp _
  have htail' : (addPhi g w.state pred i o).localInfoAtTail pred i = .phi w.state.phis.size :=
    addPhi_tail_self g w.state o
  have hlook := (h.addPhi hpred hi' hhead htail o).lookedAt_plain hwf hcanon
    (by dsimp only; rw [hget, hpreds]) (by dsimp only; rw [hget, hi]) hseen
    (by rw [htail']; simp) (PhiInv.not_stored htail' (by simp)) (by rw [htail']; simp)
    (State.valueAtTail_of_ne htail' (by simp))
  have heq : g.visitIncomingValue p i w pred done.length =
      { w with
        state := (addPhi g w.state pred i o).setIncomingValue p done.length
          (.phi w.state.phis.size)
        q := w.state.phis.size :: w.q } := by
    rw [Graph.visitIncomingValue, htail, horigin]
    rfl
  -- an empty place less, and one `Phi` more that waits
  have hmeasure := emptyPlaces_addPhi hpred hi' hhead o
  have hlook' : LookedAt g s₁ p (Function.update seen p (done ++ [pred])) w
      (g.visitIncomingValue p i w pred done.length) := by
    rw [heq]
    refine ⟨hlook.inv, (Grows.addPhi (g := g) hhead o).trans hlook.grows, ?_⟩
    have hle := hlook.measure
    simp only [List.length_cons] at hle ⊢
    omega
  have hsub : seen p ⊆ g.cfg.predecessors (w.state.phis.get p).basicBlock := by
    rw [hseen, hpreds]
    exact List.subset_append_left _ _
  refine ⟨hlook', hlook'.originated hwf hcanon h hsub ho fun q hq => ?_⟩
  rw [heq] at hq ⊢
  refine (Nat.lt_succ_iff_lt_or_eq.mp hq).imp_right fun hq => ?_
  subst hq
  have hchildren := (hseen ▸ h.filled p hp).children_next hpreds
  refine ⟨?_, ?_⟩ <;> dsimp only [State.setIncomingValue, State.ComesIn]
  · rw [Arena.get_modify_of_ne _ (by omega), Arena.get_modify_self, hget, horigin]
    exact congrArg Phi.originNode (Arena.get_push_self ..)
  · rw [Arena.get_modify_self, hget]
    exact List.mem_of_getElem? (List.getElem?_set_self (List.getElem?_eq_some_iff.mp hchildren).1)

/-- **The local was loaded there**: the `Phi` of the load comes in. -/
theorem visitIncomingValue_getLocal {n : ℕ}
    (htail : w.state.localInfoAtTail pred i = .getLocal n) :
    CameIn g s₁ p (Function.update seen p (done ++ [pred])) w
      (g.visitIncomingValue p i w pred done.length) := by
  have hblock := (h.placed.block p (h.curNot p rfl).1).1
  have hpred : pred ∈ g.cfg.blocks :=
    ((hwf.consistent.mem _ hblock pred).mp (hpreds ▸ List.mem_append_right _ (.head _))).1
  have hhead : w.state.localInfoAtHead pred i = .getLocal n := by
    rcases h.placed.tail_cases hcanon hpred i with hevents | ⟨x, -, ht⟩
    · exact (htail ▸ hevents).tail_getLocal.1
    · rw [htail] at ht
      cases ht
  obtain ⟨y, hy⟩ := Option.isSome_iff_exists.mp (h.placed.load pred hpred i n hhead)
  have hvalue : w.state.valueAtTail pred i = .phi y := by
    rw [State.valueAtTail_getLocal htail, hy]
    rfl
  rw [Graph.visitIncomingValue, htail]
  dsimp only
  rw [hy]
  exact (h.lookedAt_plain hwf hcanon hpreds hi hseen (by rw [htail]; simp)
    (PhiInv.not_stored htail (by simp)) (by rw [htail]; simp) hvalue).cameIn hwf hcanon h ho
      hpreds hseen rfl

/-- **The local was stored there.** -/
theorem visitIncomingValue_setLocal {n : ℕ}
    (htail : w.state.localInfoAtTail pred i = .setLocal n) :
    CameIn g s₁ p (Function.update seen p (done ++ [pred])) w
      (g.visitIncomingValue p i w pred done.length) := by
  have heq : g.visitIncomingValue p i w pred done.length =
      { w with
        state := { w.state with
          phis := w.state.phis.modify p fun φ => { φ with
            canSeeSetLocal := true
            children := φ.children.set done.length (.setLocal n) } } } := by
    rw [Graph.visitIncomingValue, htail]
    dsimp only
    rw [State.setIncomingValue, Arena.modify_modify]
  rw [heq]
  refine LookedAt.cameIn hwf hcanon h ho hpreds hseen (h.lookedAt hwf hcanon hpreds hi hseen
    (by rw [htail]; simp) (f := fun φ => { φ with
      canSeeSetLocal := true
      children := φ.children.set done.length (.setLocal n) })
    ⟨⟨fun _ => rfl, fun _ => rfl, fun _ => rfl⟩, fun φ => ?_, fun φ => ?_, fun φ => ?_⟩
    ⟨rfl, rfl, rfl, fun y => ?_, ?_⟩) rfl
  · rw [State.valueAtTail_of_ne htail (by simp)]
  · exact ⟨fun _ => .inr ⟨n, htail⟩, fun _ => rfl⟩
  · simp [htail]
  · simp [htail]
  · simp [htail]

/-- **The local is undefined there.** -/
theorem visitIncomingValue_undefValue (htail : w.state.localInfoAtTail pred i = .undefValue) :
    CameIn g s₁ p (Function.update seen p (done ++ [pred])) w
      (g.visitIncomingValue p i w pred done.length) := by
  have heq : g.visitIncomingValue p i w pred done.length =
      { w with
        state := { w.state with
          phis := w.state.phis.modify p fun φ => { φ with
            maybeUndefVal := true
            children := φ.children.set done.length .undefValue } }
        q3 := p :: w.q3
        hasPhiReferenceUndefValue := true } := by
    rw [Graph.visitIncomingValue, htail]
    dsimp only
    rw [State.setIncomingValue, Arena.modify_modify]
  rw [heq]
  refine LookedAt.cameIn hwf hcanon h ho hpreds hseen (h.lookedAt hwf hcanon hpreds hi hseen
    (by rw [htail]; simp) (f := fun φ => { φ with
      maybeUndefVal := true
      children := φ.children.set done.length .undefValue })
    ⟨⟨fun _ => rfl, fun _ => rfl, fun _ => rfl⟩, fun φ => ?_, fun φ => ?_, fun φ => ?_⟩
    ⟨rfl, rfl, rfl, fun y => ?_, ?_⟩) rfl
  · rw [State.valueAtTail_of_ne htail (by simp)]
  · exact (or_iff_left (PhiInv.not_stored htail (by simp))).symm
  · simp [htail]
  · simp [htail, or_comm]
  · simp [htail]

/-- **`visitIncomingValue`**, by what is known of the local at the tail of the predecessor. -/
theorem visitIncomingValue_spec : CameIn g s₁ p (Function.update seen p (done ++ [pred])) w
    (g.visitIncomingValue p i w pred done.length) := by
  cases htail : w.state.localInfoAtTail pred i with
  | null => exact visitIncomingValue_null hwf hcanon h ho hpreds hi hseen htail
  | getLocal n => exact visitIncomingValue_getLocal hwf hcanon h ho hpreds hi hseen htail
  | setLocal n => exact visitIncomingValue_setLocal hwf hcanon h ho hpreds hi hseen htail
  | undefValue => exact visitIncomingValue_undefValue hwf hcanon h ho hpreds hi hseen htail
  | phi x =>
    -- a `Phi` that is there already
    rw [Graph.visitIncomingValue, htail]
    exact (h.lookedAt_plain hwf hcanon hpreds hi hseen (by rw [htail]; simp)
      (PhiInv.not_stored htail (by simp)) (by rw [htail]; simp)
      (State.valueAtTail_of_ne htail (by simp))).cameIn hwf hcanon h ho hpreds hseen rfl

end Cases

/-- A `Phi` is taken off the worklist. -/
theorem PhiInv.take {q : List ℕ} (h : PhiInv g s₁ none seen w) (hq : w.q = p :: q) :
    PhiInv g s₁ (some p) seen { w with q := q } := by
  have hnodup := hq ▸ h.nodup
  obtain ⟨hpq, hnodup'⟩ := List.nodup_cons.mp hnodup
  have hmem (x : ℕ) : x ∈ w.q ↔ x = p ∨ x ∈ q := by rw [hq, List.mem_cons]
  constructor <;> dsimp only
  case placed => exact h.placed
  case filled => exact h.filled
  case waiting => exact fun x hx => h.waiting x ((hmem x).mpr (.inr hx))
  case looked =>
    intro x hx hxq hcur
    refine h.looked x hx (fun hin => ?_) (by simp)
    rcases (hmem x).mp hin with rfl | hin
    · exact hcur rfl
    · exact hxq hin
  case fresh => exact h.fresh
  case curNot =>
    intro x hx
    cases hx
    exact ⟨(h.waiting p ((hmem p).mpr (.inl rfl))).1, hpq⟩
  case nodup => exact hnodup'
  case q2 =>
    intro x
    rw [h.q2, hmem]
    refine and_congr_right fun _ => ?_
    constructor
    · rintro ⟨hnot, -, hsee⟩
      exact ⟨fun hin => hnot (.inr hin), fun heq => hnot (.inl (Option.some_inj.mp heq)), hsee⟩
    · rintro ⟨hnot, hcur, hsee⟩
      exact ⟨fun hin => hin.elim (fun heq => hcur (congrArg some heq)) hnot, by simp, hsee⟩
  case q3 => exact h.q3
  case undef => exact h.undef

/-- A `Phi` that has looked at all predecessors goes on the next worklist. -/
theorem PhiInv.finish (h : PhiInv g s₁ (some p) seen w)
    (hseen : seen p = g.cfg.predecessors (w.state.phis.get p).basicBlock) :
    PhiInv g s₁ none seen
      (if (w.state.phis.get p).canSeeSetLocal then { w with q2 := p :: w.q2 } else w) := by
  obtain ⟨hp, hpq⟩ := h.curNot p rfl
  have hif : (if (w.state.phis.get p).canSeeSetLocal then { w with q2 := p :: w.q2 } else w) =
      { w with q2 := if (w.state.phis.get p).canSeeSetLocal then p :: w.q2 else w.q2 } := by
    split <;> rfl
  rw [hif]
  constructor <;> dsimp only
  case placed => exact h.placed
  case filled => exact h.filled
  case waiting => exact h.waiting
  case looked =>
    intro x hx hxq _
    by_cases heq : x = p
    · exact heq ▸ hseen
    · exact h.looked x hx hxq fun hcur => heq (Option.some_inj.mp hcur)
  case fresh => exact h.fresh
  case curNot =>
    intro x hx
    cases hx
  case nodup => exact h.nodup
  case q2 =>
    intro x
    by_cases heq : x = p
    · subst heq
      have hnot : x ∉ w.q2 := fun hin => ((h.q2 x).mp hin).2.2.1 rfl
      split_ifs with hsee <;> simp [hp, hpq, hsee, hnot]
    · have hcur : some x ≠ some p := fun hcur => heq (Option.some_inj.mp hcur)
      have hmem : (x ∈ if (w.state.phis.get p).canSeeSetLocal then p :: w.q2 else w.q2) ↔
          x ∈ w.q2 := by
        split_ifs
        · rw [List.mem_cons, or_iff_right heq]
        · rfl
      rw [hmem, h.q2]
      simp [hcur]
  case q3 => exact h.q3
  case undef => exact h.undef

/-- **`visitPhi`**: all predecessors are looked at. -/
theorem visitPhi_spec {q : List ℕ} (hwf : g.WellFormed) (hcanon : CanonicalGraph g s₁)
    (h : PhiInv g s₁ none seen w) (ho : Originated g w.state) (hq : w.q = p :: q) :
    ∃ seen', PhiInv g s₁ none seen' (g.visitPhi { w with q := q } p) ∧
      Originated g (g.visitPhi { w with q := q } p).state ∧
      Grows w.state (g.visitPhi { w with q := q } p).state ∧
      emptyPlaces g (g.visitPhi { w with q := q } p).state +
        (g.visitPhi { w with q := q } p).q.length < emptyPlaces g w.state + w.q.length := by
  obtain ⟨hp, hseen⟩ := h.waiting p (hq ▸ .head _)
  let φ := w.state.phis.get p
  let w₁ : Work := { w with q := q }
  let w₂ := (g.cfg.predecessors φ.basicBlock).zipIdx.foldl
    (fun w x => g.visitIncomingValue p φ.localOrd w x.1 x.2) w₁
  obtain ⟨hlook, ho'⟩ : LookedAt g s₁ p
        (Function.update seen p (g.cfg.predecessors φ.basicBlock)) w₁ w₂ ∧
      Originated g w₂.state := by
    refine Folds.foldl_zipIdx (P := fun done w' => LookedAt g s₁ p (Function.update seen p done)
        w₁ w' ∧ Originated g w'.state) ?_ ?_
    · rw [← hseen, Function.update_eq_self]
      exact ⟨⟨h.take hq, .refl _, Nat.le_refl _⟩, ho⟩
    · rintro done pred rest w' hl ⟨hlook, ho'⟩
      obtain ⟨hblock, hlocal, -⟩ := hlook.grows.place p hp
      obtain ⟨hnext, ho''⟩ := visitIncomingValue_spec hwf hcanon hlook.inv ho' (hblock ▸ hl) hlocal
        (Function.update_self ..)
      rw [Function.update_idem] at hnext
      exact ⟨⟨hnext.inv, hlook.grows.trans hnext.grows,
        Nat.le_trans hnext.measure hlook.measure⟩, ho''⟩
  obtain ⟨hblock, -, -⟩ := hlook.grows.place p hp
  have hvisit : g.visitPhi w₁ p =
      if (w₂.state.phis.get p).canSeeSetLocal then { w₂ with q2 := p :: w₂.q2 } else w₂ := rfl
  have hstate : (g.visitPhi w₁ p).state = w₂.state ∧ (g.visitPhi w₁ p).q = w₂.q := by
    rw [hvisit]
    split <;> exact ⟨rfl, rfl⟩
  refine ⟨_, hvisit ▸ hlook.inv.finish (by rw [Function.update_self, hblock]), hstate.1 ▸ ho',
    hstate.1 ▸ hlook.grows, ?_⟩
  rw [hstate.1, hstate.2, hq, List.length_cons]
  exact Nat.lt_succ_of_le hlook.measure

/-- **The worklist** ends, and then every `Phi` has looked at all its predecessors. -/
theorem phiLoop_spec {fuel : ℕ} (hwf : g.WellFormed) (hcanon : CanonicalGraph g s₁)
    (h : PhiInv g s₁ none seen w) (ho : Originated g w.state)
    (hfuel : emptyPlaces g w.state + w.q.length ≤ fuel) :
    ∃ w' seen', g.phiLoop fuel w = some w' ∧ PhiInv g s₁ none seen' w' ∧ w'.q = [] ∧
      Originated g w'.state ∧ Grows w.state w'.state := by
  induction fuel generalizing w seen with
  | zero =>
    have hnil : w.q = [] := List.eq_nil_of_length_eq_zero (by omega)
    exact ⟨w, seen, by rw [Graph.phiLoop, hnil]; rfl, h, hnil, ho, .refl _⟩
  | succ fuel ih =>
    cases hq : w.q with
    | nil => exact ⟨w, seen, by rw [Graph.phiLoop, hq], h, hq, ho, .refl _⟩
    | cons p q =>
      obtain ⟨seen₁, h₁, ho₁, hgrows, hmeasure⟩ := visitPhi_spec hwf hcanon h ho hq
      obtain ⟨w', seen', hloop, h', hnil, ho', hgrows'⟩ := ih h₁ ho₁ (by omega)
      refine ⟨w', seen', ?_, h', hnil, ho', hgrows.trans hgrows'⟩
      rw [Graph.phiLoop, hq]
      exact hloop

end Visit

/-! ## The `Phi`s of the loads -/

section Create

variable {g : Graph} {s₁ : State} {w : Work}

/-- The nodes of all blocks, each with its block. -/
def Graph.allNodes (g : Graph) : List (ℕ × ℕ) :=
  g.cfg.blocks.flatMap fun bb => (g.cfg.nodes bb).map fun n => (bb, n)

/-- The nodes of the graph, with their blocks. -/
theorem mem_allNodes {b n : ℕ} : (b, n) ∈ g.allNodes ↔ b ∈ g.cfg.blocks ∧ n ∈ g.cfg.nodes b := by
  simp only [Graph.allNodes, List.mem_flatMap, List.mem_map, Prod.mk.injEq]
  constructor
  · rintro ⟨b', hb', n', hn', rfl, rfl⟩
    exact ⟨hb', hn'⟩
  · rintro ⟨hb, hn⟩
    exact ⟨b, hb, n, hn, rfl, rfl⟩

theorem allNodes_snd (g : Graph) :
    g.allNodes.map Prod.snd = g.cfg.blocks.flatMap g.cfg.nodes := by
  rw [Graph.allNodes, List.map_flatMap]
  simp only [List.map_map, Function.comp_def, List.map_id']

/-- The two loops are one over all the nodes. -/
theorem createPhis_eq (s : State) : g.createPhis s =
    g.allNodes.foldl (fun w x => g.createPhi x.1 w x.2) ⟨s, [], [], [], false⟩ := by
  rw [Graph.createPhis, Graph.allNodes, List.foldl_flatMap]
  simp only [List.foldl_map]

/-- The `Phi` of a load. -/
def phiOfLoad (g : Graph) (bb n : ℕ) (ident : LocalIdentifier) : Phi :=
  ⟨bb, g.virtualRegister ident, n, List.replicate (g.cfg.predecessors bb).length .null, false,
    false⟩

/-- The loads that were passed have a `Phi`, and there are no others. -/
structure Created (g : Graph) (s₁ : State) (done : List (ℕ × ℕ)) (w : Work) : Prop where
  rest : ∃ phis info, w.state = { s₁ with phis := phis, dataFlowInfo := info }
  info : ∀ n p, w.state.dataFlowInfo n = some p → p < w.state.phis.size ∧
    ∃ b ident, (b, n) ∈ done ∧ (s₁.node n).kind = .getLocal ident ∧
      w.state.phis.get p = phiOfLoad g b n ident
  all : ∀ b n, (b, n) ∈ done → ∀ ident, (s₁.node n).kind = .getLocal ident →
    (w.state.dataFlowInfo n).isSome
  phi : ∀ p < w.state.phis.size, ∃ n, w.state.dataFlowInfo n = some p
  q : ∀ p, p ∈ w.q ↔ p < w.state.phis.size
  nodup : w.q.Nodup
  length : w.q.length ≤ done.length
  others : w.q2 = [] ∧ w.q3 = [] ∧ w.hasPhiReferenceUndefValue = false

theorem Created.step {done : List (ℕ × ℕ)} {b n : ℕ} (h : Created g s₁ done w)
    (hnew : ∀ b', (b', n) ∉ done) : Created g s₁ (done ++ [(b, n)]) (g.createPhi b w n) := by
  obtain ⟨phis, info, hstate⟩ := h.rest
  have hnode : w.state.node = s₁.node := by rw [hstate]
  have hmem (b' n' : ℕ) : (b', n') ∈ done ++ [(b, n)] ↔ (b', n') ∈ done ∨ b' = b ∧ n' = n := by
    rw [List.mem_append, List.mem_singleton, Prod.mk.injEq]
  by_cases hkind : ∃ ident, (s₁.node n).kind = .getLocal ident
  · obtain ⟨ident, hkind⟩ := hkind
    have heq : g.createPhi b w n =
        { w with
          state := { w.state with
            phis := w.state.phis.push (phiOfLoad g b n ident)
            dataFlowInfo := Function.update w.state.dataFlowInfo n (some w.state.phis.size) }
          q := w.state.phis.size :: w.q } := by
      rw [Graph.createPhi, hnode, hkind]
      rfl
    rw [heq]
    constructor <;> dsimp only
    case rest =>
      rw [hstate]
      exact ⟨_, _, rfl⟩
    case info =>
      intro n' p hp
      by_cases hn : n' = n
      · subst hn
        rw [Function.update_self] at hp
        cases hp
        exact ⟨Nat.lt_succ_self _, b, ident, (hmem _ _).mpr (.inr ⟨rfl, rfl⟩), hkind,
          Arena.get_push_self ..⟩
      · rw [Function.update_of_ne hn] at hp
        obtain ⟨hlt, b', ident', hin, hkind', hget⟩ := h.info n' p hp
        exact ⟨Nat.lt_succ_of_lt hlt, b', ident', (hmem _ _).mpr (.inl hin), hkind',
          (Arena.get_push_of_lt _ hlt _).trans hget⟩
    case all =>
      intro b' n' hin ident' hkind'
      by_cases hn : n' = n
      · rw [hn, Function.update_self]
        rfl
      · rw [Function.update_of_ne hn]
        exact h.all b' n' (((hmem _ _).mp hin).resolve_right fun h => hn h.2) ident' hkind'
    case phi =>
      intro p hp
      rcases Nat.lt_succ_iff_lt_or_eq.mp hp with hlt | rfl
      · obtain ⟨n', hn'⟩ := h.phi p hlt
        obtain ⟨-, b', -, hin, -⟩ := h.info n' p hn'
        have hne : n' ≠ n := by
          rintro rfl
          exact hnew b' hin
        exact ⟨n', (Function.update_of_ne hne _ _).trans hn'⟩
      · exact ⟨n, Function.update_self ..⟩
    case q =>
      intro p
      rw [List.mem_cons, h.q, Arena.size_push]
      omega
    case nodup =>
      exact List.nodup_cons.mpr ⟨fun hin => Nat.lt_irrefl _ ((h.q _).mp hin), h.nodup⟩
    case length =>
      rw [List.length_cons, List.length_append]
      exact Nat.succ_le_succ h.length
    case others => exact h.others
  · have heq : g.createPhi b w n = w := by
      rw [Graph.createPhi, hnode]
      split
      · rename_i ident heq
        exact absurd ⟨ident, heq⟩ hkind
      · rfl
    rw [heq]
    refine ⟨h.rest, fun n' p hp => ?_, fun b' n' hin ident' hkind' => ?_, h.phi, h.q, h.nodup, ?_,
      h.others⟩
    · obtain ⟨hlt, b', ident', hin, hrest⟩ := h.info n' p hp
      exact ⟨hlt, b', ident', (hmem _ _).mpr (.inl hin), hrest⟩
    · refine h.all b' n' (((hmem _ _).mp hin).resolve_right fun h => ?_) ident' hkind'
      exact hkind ⟨ident', h.2 ▸ hkind'⟩
    · rw [List.length_append]
      exact Nat.le_trans h.length (Nat.le_add_right _ _)

/-- After the loops every load has its `Phi`. -/
theorem created (hwf : g.WellFormed) (hcanon : CanonicalGraph g s₁) :
    Created g s₁ g.allNodes (g.createPhis s₁) := by
  rw [createPhis_eq]
  have hsize := hcanon.phis
  have hinfo := hcanon.dataFlowInfo
  refine Folds.foldl_prefix (P := Created g s₁) ?_ fun done x rest w hl h => h.step fun b' hin => ?_
  · refine ⟨⟨_, _, rfl⟩, fun n p hp => ?_, fun b n hin => absurd hin List.not_mem_nil,
      fun p hp => ?_, fun p => ?_, List.nodup_nil, Nat.le_refl _, rfl, rfl, rfl⟩
    · rw [hinfo] at hp
      cases hp
    · rw [hsize] at hp
      exact absurd hp (Nat.not_lt_zero p)
    · rw [hsize]
      simp
  · have hnodup := hwf.nodup_nodes
    rw [← allNodes_snd, hl, List.map_append, List.map_cons] at hnodup
    exact (List.nodup_append'.mp hnodup).2.2 (List.mem_map_of_mem hin) (.head _)

/-- How often the worklist is at most visited. -/
def Graph.phiFuel (g : Graph) : ℕ :=
  g.cfg.blocks.length * g.numLocals + (g.cfg.blocks.flatMap g.cfg.nodes).length

section Loads

variable (h : Created g s₁ g.allNodes w) (hcanon : CanonicalGraph g s₁)

include h

/-- The events of the locals are as they were. -/
theorem Created.events_eq : w.state.localInfoAtHead = s₁.localInfoAtHead ∧
    w.state.localInfoAtTail = s₁.localInfoAtTail := by
  obtain ⟨phis, info, hstate⟩ := h.rest
  exact ⟨by rw [hstate], by rw [hstate]⟩

include hcanon

/-- A load at a head is a load of the block. -/
theorem Created.isLoad {b i n : ℕ} (hb : b ∈ g.cfg.blocks)
    (hn : w.state.localInfoAtHead b i = .getLocal n) :
    IsLoad g s₁.node (g.cfg.nodes b) i n := by
  have hevents := (hcanon.blocks b hb).canonical.events i
  rw [h.events_eq.1] at hn
  rw [hn] at hevents
  exact hevents.head_getLocal.1

/-- Every `Phi` is the one of a load that comes first in its block. -/
theorem Created.exists_load {p : ℕ} (hp : p < w.state.phis.size) :
    ∃ b n ident, b ∈ g.cfg.blocks ∧ w.state.dataFlowInfo n = some p ∧
      w.state.phis.get p = phiOfLoad g b n ident ∧
        w.state.localInfoAtHead b (g.virtualRegister ident) = .getLocal n := by
  obtain ⟨n, hn⟩ := h.phi p hp
  obtain ⟨-, b, ident, hin, hkind, hget⟩ := h.info n p hn
  obtain ⟨hb, hmem⟩ := mem_allNodes.mp hin
  refine ⟨b, n, ident, hb, hn, hget, ?_⟩
  rw [h.events_eq.1]
  exact (hcanon.blocks b hb).canonical.load _ n ⟨hmem, ident, hkind, rfl⟩

/-- The `Phi`s of the loads are in their places. -/
theorem Created.placed (hwf : g.WellFormed) : Placed g s₁ w.state := by
  obtain ⟨hhead, htail⟩ := h.events_eq
  obtain ⟨phis, info, hstate⟩ := h.rest
  constructor
  case node => rw [hstate]
  case replacement => rw [hstate]
  case events => exact fun b i => .inl ⟨by rw [hhead], by rw [htail]⟩
  case located =>
    intro b hb i p hp
    cases hh : w.state.localInfoAtHead b i with
    | getLocal n =>
      rw [State.phiAtHead_getLocal hh] at hp
      obtain ⟨hlt, b', ident, hin, hkind, hget⟩ := h.info n p hp
      obtain ⟨hmem, ident', hkind', rfl⟩ := h.isLoad hcanon hb hh
      rw [hkind] at hkind'
      cases hkind'
      obtain ⟨hb', hmem'⟩ := mem_allNodes.mp hin
      rw [hget]
      exact ⟨hlt, hwf.disjoint hb' hb hmem' hmem, rfl⟩
    | phi x =>
      have hevents := (hcanon.blocks b hb).canonical.events i
      rw [← hhead, hh] at hevents
      cases hevents
    | _ =>
      rw [State.phiAtHead, hh] at hp
      cases hp
  case load =>
    intro b hb i n hn
    obtain ⟨hmem, ident, hkind, -⟩ := h.isLoad hcanon hb hn
    exact h.all b n (mem_allNodes.mpr ⟨hb, hmem⟩) ident hkind
  case origin =>
    intro n p hp
    obtain ⟨hlt, b, ident, -, -, hget⟩ := h.info n p hp
    rw [hget]
    exact ⟨hlt, rfl⟩
  case block =>
    intro p hp
    obtain ⟨b, n, ident, hb, hinfo, hget, hh⟩ := h.exists_load hcanon hp
    rw [hget]
    exact ⟨hb, hwf.register_lt ident, (State.phiAtHead_getLocal hh).trans hinfo⟩

/-- Nothing was looked at: all `Phi`s wait, and none of them knows anything. -/
theorem Created.phiInv (hwf : g.WellFormed) : PhiInv g s₁ none (fun _ => []) w := by
  have hnone {p : ℕ} (hp : p < w.state.phis.size) :
      ¬ (w.state.phis.get p).maybeUndefVal = true := by
    obtain ⟨b, n, ident, -, -, hget, -⟩ := h.exists_load hcanon hp
    simp [hget, phiOfLoad]
  constructor
  case placed => exact h.placed hcanon hwf
  case filled =>
    intro p hp
    obtain ⟨b, n, ident, -, -, hget, -⟩ := h.exists_load hcanon hp
    exact Filled.nil hget
  case waiting => exact fun p hp => ⟨(h.q p).mp hp, rfl⟩
  case looked => exact fun p hp hnot _ => absurd ((h.q p).mpr hp) hnot
  case fresh => exact fun _ _ => rfl
  case curNot =>
    intro p hp
    cases hp
  case nodup => exact h.nodup
  case q2 =>
    intro p
    rw [h.others.1]
    exact ⟨fun hin => absurd hin List.not_mem_nil,
      fun ⟨hp, hnot, _⟩ => absurd ((h.q p).mpr hp) hnot⟩
  case q3 =>
    intro p
    rw [h.others.2.1]
    exact ⟨fun hin => absurd hin List.not_mem_nil, fun ⟨hp, hm⟩ => absurd hm (hnone hp)⟩
  case undef =>
    rw [h.others.2.2]
    exact ⟨fun heq => absurd heq (by simp), fun ⟨p, hp, hm⟩ => absurd hm (hnone hp)⟩

/-- Each comes from its load. -/
theorem Created.originated : Originated g w.state := by
  intro p hp
  obtain ⟨b, n, ident, hb, hinfo, hget, hh⟩ := h.exists_load hcanon hp
  rw [hget]
  exact ⟨b, hb, _, p, hh, hinfo, .refl⟩

omit hcanon in
/-- At most one `Phi` for each place, and one for each load. -/
theorem Created.measure_le : emptyPlaces g w.state + w.q.length ≤ g.phiFuel := by
  have hlength := h.length
  have hall : g.allNodes.length = (g.cfg.blocks.flatMap g.cfg.nodes).length := by
    rw [← allNodes_snd, List.length_map]
  rw [hall] at hlength
  refine Nat.add_le_add ?_ hlength
  refine Nat.le_trans (List.length_filter_le _ _) ?_
  rw [List.length_product, List.length_range]

end Loads

/-- **`createPhis`** starts the worklist. -/
theorem createPhis_spec (hwf : g.WellFormed) (hcanon : CanonicalGraph g s₁) :
    PhiInv g s₁ none (fun _ => []) (g.createPhis s₁) ∧ Originated g (g.createPhis s₁).state ∧
      emptyPlaces g (g.createPhis s₁).state + (g.createPhis s₁).q.length ≤ g.phiFuel := by
  have h := created hwf hcanon
  exact ⟨h.phiInv hcanon hwf, h.originated hcanon, h.measure_le⟩

/-! ## The finished graph -/

/-- Every `Phi` knows what comes in, and comes in itself at a load. -/
structure Complete (g : Graph) (s₁ s : State) : Prop where
  placed : Placed g s₁ s
  children : ∀ p < s.phis.size, (s.phis.get p).children =
    (g.cfg.predecessors (s.phis.get p).basicBlock).map fun pred =>
      s.valueAtTail pred (s.phis.get p).localOrd
  notNull : ∀ p < s.phis.size, ∀ pred ∈ g.cfg.predecessors (s.phis.get p).basicBlock,
    s.valueAtTail pred (s.phis.get p).localOrd ≠ .null
  originated : Originated g s

/-- The worklist is done; a flag says what comes in directly. -/
structure Built (g : Graph) (s₁ : State) (w : Work) : Prop where
  complete : Complete g s₁ w.state
  stored : ∀ p < w.state.phis.size, (w.state.phis.get p).canSeeSetLocal = true ↔
    ∃ pred ∈ g.cfg.predecessors (w.state.phis.get p).basicBlock,
      w.state.Stored pred (w.state.phis.get p).localOrd
  undef : ∀ p < w.state.phis.size, (w.state.phis.get p).maybeUndefVal = true ↔
    ∃ pred ∈ g.cfg.predecessors (w.state.phis.get p).basicBlock,
      w.state.localInfoAtTail pred (w.state.phis.get p).localOrd = .undefValue
  q2 : ∀ p, p ∈ w.q2 ↔ p < w.state.phis.size ∧ (w.state.phis.get p).canSeeSetLocal = true
  q3 : ∀ p, p ∈ w.q3 ↔ p < w.state.phis.size ∧ (w.state.phis.get p).maybeUndefVal = true
  hasUndef : w.hasPhiReferenceUndefValue = true ↔
    ∃ p < w.state.phis.size, (w.state.phis.get p).maybeUndefVal = true

/-- With an empty queue the graph is built. -/
theorem PhiInv.built {seen : ℕ → List ℕ} (h : PhiInv g s₁ none seen w)
    (ho : Originated g w.state) (hq : w.q = []) : Built g s₁ w := by
  have hfilled {p : ℕ} (hp : p < w.state.phis.size) :
      Filled g w.state p (g.cfg.predecessors (w.state.phis.get p).basicBlock) :=
    h.looked p hp (by simp [hq]) (by simp) ▸ h.filled p hp
  refine ⟨⟨h.placed, fun p hp => ?_, fun p hp => (hfilled hp).notNull, ho⟩,
    fun p hp => (hfilled hp).stored, fun p hp => (hfilled hp).undef, fun p => ?_, h.q3, h.undef⟩
  · rw [(hfilled hp).children, Nat.sub_self, List.replicate_zero, List.append_nil]
  · rw [h.q2, hq]
    simp

/-- A run that has ended does not depend on the fuel. -/
theorem phiLoop_mono {fuel fuel' : ℕ} {w' : Work} (hle : fuel ≤ fuel')
    (h : g.phiLoop fuel w = some w') : g.phiLoop fuel' w = some w' := by
  induction fuel generalizing fuel' w with
  | zero =>
    rw [Graph.phiLoop] at h
    split_ifs at h with hq
    rw [List.isEmpty_iff] at hq
    cases fuel' with
    | zero => rw [Graph.phiLoop, hq]; exact h
    | succ fuel' => rw [Graph.phiLoop, hq]; exact h
  | succ fuel ih =>
    obtain ⟨fuel', rfl⟩ := Nat.exists_eq_add_of_le' (Nat.le_trans (Nat.succ_pos fuel) hle)
    rw [Graph.phiLoop] at h ⊢
    cases hq : w.q with
    | nil =>
      rw [hq] at h
      exact h
    | cons p q =>
      rw [hq] at h
      exact ih (Nat.le_of_succ_le_succ hle) h

/-- **The graph of `Phi`s** is built. -/
theorem phiGraph_spec (hwf : g.WellFormed) (hcanon : CanonicalGraph g s₁) :
    ∃ w, Built g s₁ w ∧ ∀ fuel, g.phiFuel ≤ fuel →
      g.phiLoop fuel (g.createPhis s₁) = some w := by
  obtain ⟨h, ho, hmeasure⟩ := createPhis_spec hwf hcanon
  obtain ⟨w, seen, hloop, h', hq, ho', -⟩ := phiLoop_spec hwf hcanon h ho hmeasure
  exact ⟨w, h'.built ho' hq, fun fuel hfuel => phiLoop_mono hfuel hloop⟩

end Create

end LocalSsa

end Dsom
