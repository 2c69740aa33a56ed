import Dsom.Foundations.Numbering
import Dsom.Ssa.LogicalVariables

/-!
# Ssa/CapturedVariables — which accesses are to one captured variable

`SetupLogicalVariableForCaptures`.  A captured variable that is stored in a local is known by the
logical variable of the store, one that is not by the node that creates it (`Key`).  Two nodes get
the same entry of `m_allCapturedVarLogicalVariables` just when they are linked by operands and
flows (`sameVariable_iff`).
-/

namespace Dsom

namespace LocalSsa

/-! ## The pass

Backward for the creations, so that a store to a logical variable is seen first. -/

/-- `m_logicalCV` of the nodes, the table `info`, and the variables there are, each with its
`m_localOrdForOsrExit`. -/
structure CapturedVariables where
  logicalCV : ℕ → Option ℕ
  ofLogicalVariable : ℕ → Option ℕ
  all : List ℕ

namespace CapturedVariables

/-- `allocateNewCVI`, for a node. -/
def setNew (c : CapturedVariables) (n localOrd : ℕ) : CapturedVariables :=
  { c with
    logicalCV := Function.update c.logicalCV n (some c.all.length)
    all := c.all ++ [localOrd] }

/-- `getOrAllocateNewCVIForLV`, for a node. -/
def setForLogicalVariable (c : CapturedVariables) (n ord localOrd : ℕ) : CapturedVariables :=
  match c.ofLogicalVariable ord with
  | some cv => { c with logicalCV := Function.update c.logicalCV n (some cv) }
  | none =>
    { logicalCV := Function.update c.logicalCV n (some c.all.length)
      ofLogicalVariable := Function.update c.ofLogicalVariable ord (some c.all.length)
      all := c.all ++ [localOrd] }

end CapturedVariables

/-- The node that the first input comes from. -/
def Node.operand (node : Node) : Option ℕ :=
  node.inputs.head?.bind fun e =>
    match e.value with
    | .constant _ => none
    | .ssa n _ => some n

/-- `GetCapturedVar` and `SetCapturedVar`. -/
def NodeKind.capturedAccess : NodeKind → Option ℕ
  | .getCapturedVar localOrd => some localOrd
  | .setCapturedVar localOrd => some localOrd
  | _ => none

namespace State

variable (s : State) (v : Variables)

/-- The loop that goes through a block backwards. -/
def setupCreateCapturedVar (c : CapturedVariables) (n : ℕ) : CapturedVariables :=
  match (s.node n).kind with
  | .setLocal _ =>
    match (s.node n).operand with
    | none => c
    | some m =>
      match (s.node m).kind, v.logicalVariable n with
      | .createCapturedVar localOrd, some ord => c.setForLogicalVariable m ord localOrd
      | _, _ => c
  | .createCapturedVar localOrd => if (c.logicalCV n).isSome then c else c.setNew n localOrd
  | _ => c

/-- The loop that goes through it forwards. -/
def setupCapturedAccess (c : CapturedVariables) (n : ℕ) : CapturedVariables :=
  match (s.node n).kind.capturedAccess, (s.node n).operand with
  | some localOrd, some m =>
    match (s.node m).kind, v.logicalVariable m with
    | .getLocal _, some ord => c.setForLogicalVariable n ord localOrd
    | _, _ => { c with logicalCV := Function.update c.logicalCV n (c.logicalCV m) }
  | _, _ => c

end State

namespace Graph

variable (g : Graph)

/-- The two loops over one block: the creations backward, then the accesses forward. -/
def setupCapturesInBlock (s : State) (v : Variables) (c : CapturedVariables) (bb : ℕ) :
    CapturedVariables :=
  let c := (g.cfg.nodes bb).reverse.foldl (s.setupCreateCapturedVar v) c
  (g.cfg.nodes bb).foldl (s.setupCapturedAccess v) c

/-- `SetupLogicalVariableForCaptures`: every block, from no captured variable. -/
def setupLogicalVariableForCaptures (s : State) (v : Variables) : CapturedVariables :=
  g.cfg.blocks.foldl (g.setupCapturesInBlock s v) ⟨fun _ => none, fun _ => none, []⟩

end Graph

/-! ## What a node is known by

Either by a logical variable it shares, or by itself. -/

section Keys

variable (g : Graph) (s : State)

/-- The node creates a captured variable. -/
def IsCreate (n : ℕ) : Prop := ∃ localOrd, (s.node n).kind = .createCapturedVar localOrd

/-- A local gets a captured variable that is created in the block. -/
def StoresCreated (m n : ℕ) : Prop :=
  m ∈ g.cfg.blocks.flatMap g.cfg.nodes ∧ (∃ ident, (s.node m).kind = .setLocal ident) ∧
    (s.node m).operand = some n ∧ IsCreate s n

/-- What the pass relies on: a captured variable is stored at most once in the block in which it is
created, and accessed where it was created or loaded. -/
structure CapturesOk : Prop where
  stored : ∀ b ∈ g.cfg.blocks, ∀ done m rest, g.cfg.nodes b = done ++ m :: rest →
    ∀ n, StoresCreated g s m n → n ∈ done
  unique : ∀ m m' n, StoresCreated g s m n → StoresCreated g s m' n → m = m'
  access : ∀ b ∈ g.cfg.blocks, ∀ done n rest, g.cfg.nodes b = done ++ n :: rest →
    (s.node n).kind.capturedAccess.isSome → ∃ m ∈ done, (s.node n).operand = some m ∧
      ((∃ ident, (s.node m).kind = .getLocal ident) ∨ IsCreate s m)

/-- What tells captured variables apart: a logical variable they are stored to, or their own node.
-/
inductive Key where
  | shared (ord : ℕ)
  | own (n : ℕ)
  deriving DecidableEq

variable (v : Variables)

/-- The key of the captured variable a node creates or accesses. -/
inductive HasKey : ℕ → Key → Prop
  | stored {m n ord : ℕ} (h : StoresCreated g s m n) (hord : v.logicalVariable m = some ord) :
    HasKey n (.shared ord)
  | own {n : ℕ} (h : IsCreate s n) (hnot : ∀ m, ¬ StoresCreated g s m n) : HasKey n (.own n)
  | ofLocal {n m ord : ℕ} (h : (s.node n).kind.capturedAccess.isSome)
    (hm : (s.node n).operand = some m) {ident : LocalIdentifier}
    (hkind : (s.node m).kind = .getLocal ident) (hord : v.logicalVariable m = some ord) :
    HasKey n (.shared ord)
  | ofCreate {n m : ℕ} {k : Key} (h : (s.node n).kind.capturedAccess.isSome)
    (hm : (s.node n).operand = some m) (hcreate : IsCreate s m) (hk : HasKey m k) : HasKey n k

end Keys

section Keys

variable {g : Graph} {s : State} {v : Variables} {m n : ℕ} {k k' : Key}

theorem IsCreate.not_access (h : IsCreate s n) : (s.node n).kind.capturedAccess = none := by
  obtain ⟨localOrd, hkind⟩ := h
  rw [hkind]
  rfl

theorem IsCreate.not_getLocal (h : IsCreate s n) (ident : LocalIdentifier) :
    (s.node n).kind ≠ .getLocal ident := by
  obtain ⟨localOrd, hkind⟩ := h
  rw [hkind]
  simp

/-- The key of a creation. -/
theorem HasKey.of_create (h : HasKey g s v n k) (hn : IsCreate s n) :
    (∃ m ord, StoresCreated g s m n ∧ v.logicalVariable m = some ord ∧ k = .shared ord) ∨
      (∀ m, ¬ StoresCreated g s m n) ∧ k = .own n := by
  cases h with
  | stored h hord => exact .inl ⟨_, _, h, hord, rfl⟩
  | own _ hnot => exact .inr ⟨hnot, rfl⟩
  | ofLocal h =>
    rw [hn.not_access] at h
    cases h
  | ofCreate h =>
    rw [hn.not_access] at h
    cases h

/-- The key of an access. -/
theorem HasKey.of_access (h : HasKey g s v n k) (hn : (s.node n).kind.capturedAccess.isSome)
    (hm : (s.node n).operand = some m) :
    (∃ ident ord, (s.node m).kind = .getLocal ident ∧ v.logicalVariable m = some ord ∧
      k = .shared ord) ∨ IsCreate s m ∧ HasKey g s v m k := by
  have hnot (hcreate : IsCreate s n) : False := by
    rw [hcreate.not_access] at hn
    cases hn
  cases h with
  | stored h => exact (hnot h.2.2.2).elim
  | own h => exact (hnot h).elim
  | ofLocal _ hm' hkind hord =>
    cases hm.symm.trans hm'
    exact .inl ⟨_, _, hkind, hord, rfl⟩
  | ofCreate _ hm' hcreate hk =>
    cases hm.symm.trans hm'
    exact .inr ⟨hcreate, hk⟩

/-- A node has one key. -/
theorem HasKey.unique (hok : CapturesOk g s) (h : HasKey g s v n k) (h' : HasKey g s v n k') :
    k = k' := by
  have hcreate {n : ℕ} {k k' : Key} (hn : IsCreate s n) (h : HasKey g s v n k)
      (h' : HasKey g s v n k') : k = k' := by
    rcases h.of_create hn with ⟨m, ord, hm, hord, rfl⟩ | ⟨hnot, rfl⟩ <;>
      rcases h'.of_create hn with ⟨m', ord', hm', hord', rfl⟩ | ⟨hnot', rfl⟩
    · obtain rfl := hok.unique m m' n hm hm'
      rw [hord] at hord'
      cases hord'
      rfl
    · exact absurd hm (hnot' m)
    · exact absurd hm' (hnot m')
    · rfl
  cases h with
  | stored h hord => exact hcreate h.2.2.2 (.stored h hord) h'
  | own h hnot => exact hcreate h (.own h hnot) h'
  | ofLocal h hm hkind hord =>
    rcases h'.of_access h hm with ⟨ident', ord', -, hord', rfl⟩ | ⟨hc, -⟩
    · rw [hord] at hord'
      cases hord'
      rfl
    · exact absurd hkind (hc.not_getLocal _)
  | ofCreate h hm hc hk =>
    rcases h'.of_access h hm with ⟨ident', -, hkind, -⟩ | ⟨-, hk'⟩
    · exact absurd hkind (hc.not_getLocal _)
    · exact hcreate hc hk hk'

end Keys

/-! ## Numbering the keys -/

section Numbers

variable {g : Graph} {s : State} {v : Variables} {c c' : CapturedVariables} {num : Key → Option ℕ}
  {m n ord localOrd : ℕ}

/-- **The invariant**: some keys have a number, and the nodes that were passed have the number of
their key. -/
structure Numbers (g : Graph) (s : State) (v : Variables) (num : Key → Option ℕ)
    (c : CapturedVariables) : Prop where
  numbering : Numbering num c.all.length
  shared : ∀ ord, num (.shared ord) = c.ofLogicalVariable ord
  own : ∀ n i, num (.own n) = some i →
    c.logicalCV n = some i ∧ IsCreate s n ∧ ∀ m, ¬ StoresCreated g s m n
  node : ∀ n i, c.logicalCV n = some i → ∀ k, HasKey g s v n k → num k = some i

/-- A step that sets one node. -/
def Sets (c c' : CapturedVariables) (n : ℕ) : Prop :=
  (c'.logicalCV n).isSome ∧ ∀ m, m ≠ n → c'.logicalCV m = c.logicalCV m

/-- A new key has a new number. -/
theorem Numbers.setNew (h : Numbers g s v num c) (hcreate : IsCreate s n)
    (hnot : ∀ m, ¬ StoresCreated g s m n) (hnone : c.logicalCV n = none) (localOrd : ℕ) :
    (∃ num', Numbers g s v num' (c.setNew n localOrd)) ∧ Sets c (c.setNew n localOrd) n := by
  have hfree : num (.own n) = none := by
    cases hnum : num (.own n) with
    | none => rfl
    | some i =>
      have := (h.own n i hnum).1
      rw [hnone] at this
      cases this
  have hself : (c.setNew n localOrd).logicalCV n = some c.all.length := Function.update_self ..
  have hother (m : ℕ) (hm : m ≠ n) : (c.setNew n localOrd).logicalCV m = c.logicalCV m :=
    Function.update_of_ne hm _ _
  refine ⟨⟨Function.update num (.own n) (some c.all.length), ?_, fun ord => ?_, fun m i hi => ?_,
    fun m i hi k hk => ?_⟩, by rw [hself]; rfl, hother⟩
  · rw [CapturedVariables.setNew, List.length_append]
    exact h.numbering.fresh _
  · rw [Function.update_of_ne (by simp)]
    exact h.shared ord
  · rcases Numbering.of_update hi with ⟨heq, rfl⟩ | hold
    · cases heq
      exact ⟨hself, hcreate, hnot⟩
    · obtain ⟨hcv, hrest⟩ := h.own m i hold
      refine ⟨(hother m ?_).trans hcv, hrest⟩
      rintro rfl
      rw [hnone] at hcv
      cases hcv
  · by_cases hm : m = n
    · subst hm
      rw [hself] at hi
      obtain rfl : k = .own m := by
        rcases hk.of_create hcreate with ⟨m', -, hm', -⟩ | ⟨-, hk⟩
        · exact absurd hm' (hnot m')
        · exact hk
      exact (Function.update_self ..).trans hi
    · exact Numbering.update_of_some hfree (h.node m i ((hother m hm) ▸ hi) k hk)

/-- The key of a logical variable has its number, old or new. -/
theorem Numbers.setForLogicalVariable (h : Numbers g s v num c) (hok : CapturesOk g s)
    (hkey : HasKey g s v n (.shared ord)) (localOrd : ℕ) :
    (∃ num', Numbers g s v num' (c.setForLogicalVariable n ord localOrd)) ∧
      Sets c (c.setForLogicalVariable n ord localOrd) n := by
  have hnotOwn {m i : ℕ} (hi : num (.own m) = some i) : m ≠ n := by
    rintro rfl
    obtain ⟨-, hcreate, hnot⟩ := h.own m i hi
    cases hkey.unique hok (.own hcreate hnot)
  rw [CapturedVariables.setForLogicalVariable]
  cases hold : c.ofLogicalVariable ord with
  | some cv =>
    refine ⟨⟨num, h.numbering, h.shared, fun m i hi => ?_, fun m i hi k hk => ?_⟩, ?_,
      fun m hm => Function.update_of_ne hm _ _⟩
    · obtain ⟨hcv, hrest⟩ := h.own m i hi
      exact ⟨(Function.update_of_ne (hnotOwn hi) _ _).trans hcv, hrest⟩
    · by_cases hm : m = n
      · subst hm
        obtain rfl := hk.unique hok hkey
        dsimp only at hi
        rw [Function.update_self] at hi
        rw [h.shared, hold, hi]
      · exact h.node m i ((Function.update_of_ne hm _ _).symm.trans hi) k hk
    · dsimp only
      rw [Function.update_self]
      rfl
  | none =>
    have hfree : num (.shared ord) = none := (h.shared ord).trans hold
    refine ⟨⟨Function.update num (.shared ord) (some c.all.length), ?_, fun ord' => ?_,
      fun m i hi => ?_, fun m i hi k hk => ?_⟩, ?_, fun m hm => Function.update_of_ne hm _ _⟩
    · dsimp only
      rw [List.length_append]
      exact h.numbering.fresh _
    · dsimp only
      by_cases hord : ord' = ord
      · rw [hord, Function.update_self, Function.update_self]
      · rw [Function.update_of_ne hord, Function.update_of_ne (by simpa using hord)]
        exact h.shared ord'
    · rw [Function.update_of_ne (by simp)] at hi
      obtain ⟨hcv, hrest⟩ := h.own m i hi
      exact ⟨(Function.update_of_ne (hnotOwn hi) _ _).trans hcv, hrest⟩
    · by_cases hm : m = n
      · subst hm
        obtain rfl := hk.unique hok hkey
        dsimp only at hi
        rw [Function.update_self] at hi
        rw [Function.update_self, hi]
      · exact Numbering.update_of_some hfree
          (h.node m i ((Function.update_of_ne hm _ _).symm.trans hi) k hk)
    · dsimp only
      rw [Function.update_self]
      rfl

/-- An access gets the number of the node that creates the variable. -/
theorem Numbers.setLike (h : Numbers g s v num c)
    (hn : (s.node n).kind.capturedAccess.isSome) (hm : (s.node n).operand = some m)
    (hcreate : IsCreate s m) (hsome : (c.logicalCV m).isSome) :
    Numbers g s v num
        { c with logicalCV := Function.update c.logicalCV n (c.logicalCV m) } ∧
      Sets c { c with logicalCV := Function.update c.logicalCV n (c.logicalCV m) } n := by
  refine ⟨⟨h.numbering, h.shared, fun x i hi => ?_, fun x i hi k hk => ?_⟩, ?_,
    fun x hx => Function.update_of_ne hx _ _⟩
  · obtain ⟨hcv, hx, hrest⟩ := h.own x i hi
    have hne : x ≠ n := by
      rintro rfl
      rw [hx.not_access] at hn
      cases hn
    exact ⟨(Function.update_of_ne hne _ _).trans hcv, hx, hrest⟩
  · by_cases hx : x = n
    · subst hx
      rcases hk.of_access hn hm with ⟨ident, -, hkind, -⟩ | ⟨-, hk⟩
      · exact absurd hkind (hcreate.not_getLocal ident)
      · dsimp only at hi
        rw [Function.update_self] at hi
        exact h.node m i hi k hk
    · exact h.node x i ((Function.update_of_ne hx _ _).symm.trans hi) k hk
  · dsimp only
    rwa [Function.update_self]

end Numbers

/-! ## The loops -/

section Loops

variable {g : Graph} {s : State} {v : Variables} {c c' c'' : CapturedVariables} {b m n x : ℕ}

/-- The invariant, for some numbers. -/
def HasNumbers (g : Graph) (s : State) (v : Variables) (c : CapturedVariables) : Prop :=
  ∃ num, Numbers g s v num c

/-- What was passed keeps a number. -/
def Keeps (c c' : CapturedVariables) : Prop :=
  ∀ n, (c.logicalCV n).isSome → (c'.logicalCV n).isSome

theorem Keeps.trans (h : Keeps c c') (h' : Keeps c' c'') : Keeps c c'' :=
  fun n hn => h' n (h n hn)

theorem Sets.keeps (h : Sets c c' n) : Keeps c c' := by
  intro m hm
  by_cases hmn : m = n
  · exact hmn ▸ h.1
  · rwa [h.2 m hmn]

/-- One node of the first loop. -/
theorem setupCreateCapturedVar_spec (h : HasNumbers g s v c) (hok : CapturesOk g s)
    (hlv : ∀ m, IsAccess g s m → (v.logicalVariable m).isSome)
    (hn : n ∈ g.cfg.blocks.flatMap g.cfg.nodes)
    (hstored : ∀ m, StoresCreated g s m n → (c.logicalCV n).isSome) :
    HasNumbers g s v (s.setupCreateCapturedVar v c n) ∧
      Keeps c (s.setupCreateCapturedVar v c n) ∧
      (∀ x, StoresCreated g s n x → ((s.setupCreateCapturedVar v c n).logicalCV x).isSome) ∧
      (IsCreate s n → ((s.setupCreateCapturedVar v c n).logicalCV n).isSome) := by
  obtain ⟨num, h⟩ := h
  rw [State.setupCreateCapturedVar]
  cases hkind : (s.node n).kind with
  | setLocal ident =>
    have hnot : ¬ IsCreate s n := by
      rintro ⟨o, ho⟩
      rw [hkind] at ho
      cases ho
    cases hop : (s.node n).operand with
    | none =>
      refine ⟨⟨num, h⟩, fun _ => id, fun x hx => ?_, fun hc => absurd hc hnot⟩
      rw [hx.2.2.1] at hop
      cases hop
    | some m =>
      dsimp only
      obtain ⟨ord, hord⟩ := Option.isSome_iff_exists.mp (hlv n ⟨hn, by
        rw [Node.localIdentifier, hkind]
        rfl⟩)
      cases hm : (s.node m).kind with
      | createCapturedVar o =>
        rw [hord]
        have hstores : StoresCreated g s n m := ⟨hn, ⟨ident, hkind⟩, hop, o, hm⟩
        obtain ⟨hnum, hsets⟩ := h.setForLogicalVariable hok (.stored hstores hord) o
        refine ⟨hnum, hsets.keeps, fun x hx => ?_, fun hc => absurd hc hnot⟩
        cases hop.symm.trans hx.2.2.1
        exact hsets.1
      | _ =>
        refine ⟨⟨num, h⟩, fun _ => id, fun x hx => ?_, fun hc => absurd hc hnot⟩
        cases hop.symm.trans hx.2.2.1
        obtain ⟨o, ho⟩ := hx.2.2.2
        rw [hm] at ho
        cases ho
  | createCapturedVar o =>
    have hnot (x : ℕ) : ¬ StoresCreated g s n x := by
      rintro ⟨-, ⟨ident, hident⟩, -⟩
      rw [hkind] at hident
      cases hident
    dsimp only
    split_ifs with hsome
    · exact ⟨⟨num, h⟩, fun _ => id, fun x hx => absurd hx (hnot x), fun _ => hsome⟩
    · rw [Bool.not_eq_true, Option.isSome_eq_false_iff, Option.isNone_iff_eq_none] at hsome
      have hfree (m : ℕ) : ¬ StoresCreated g s m n := by
        intro hm
        have := hstored m hm
        rw [hsome] at this
        cases this
      obtain ⟨hnum, hsets⟩ := h.setNew ⟨o, hkind⟩ hfree hsome o
      exact ⟨hnum, hsets.keeps, fun x hx => absurd hx (hnot x), fun _ => hsets.1⟩
  | _ =>
    refine ⟨⟨num, h⟩, fun _ => id, ?_, ?_⟩
    · rintro x ⟨-, ⟨ident, hident⟩, -⟩
      rw [hkind] at hident
      cases hident
    · rintro ⟨o, ho⟩
      rw [hkind] at ho
      cases ho

/-- One node of the second loop. -/
theorem setupCapturedAccess_spec (h : HasNumbers g s v c) (hok : CapturesOk g s)
    (hlv : ∀ m, IsAccess g s m → (v.logicalVariable m).isSome)
    (haccess : (s.node n).kind.capturedAccess.isSome → ∃ m ∈ g.cfg.blocks.flatMap g.cfg.nodes,
      (s.node n).operand = some m ∧ ((∃ ident, (s.node m).kind = .getLocal ident) ∨
        IsCreate s m ∧ (c.logicalCV m).isSome)) :
    HasNumbers g s v (s.setupCapturedAccess v c n) ∧ Keeps c (s.setupCapturedAccess v c n) ∧
      ((s.node n).kind.capturedAccess.isSome →
        ((s.setupCapturedAccess v c n).logicalCV n).isSome) := by
  obtain ⟨num, h⟩ := h
  rw [State.setupCapturedAccess]
  cases hkind : (s.node n).kind.capturedAccess with
  | none => exact ⟨⟨num, h⟩, fun _ => id, fun hn => by cases hn⟩
  | some o =>
    have hn : (s.node n).kind.capturedAccess.isSome := by rw [hkind]; rfl
    obtain ⟨m, hin, hop, ⟨ident, hm⟩ | ⟨hcreate, hsome⟩⟩ := haccess hn
    · obtain ⟨ord, hord⟩ := Option.isSome_iff_exists.mp (hlv m ⟨hin, by
        rw [Node.localIdentifier, hm]
        rfl⟩)
      rw [hop]
      dsimp only
      rw [hm, hord]
      obtain ⟨hnum, hsets⟩ := h.setForLogicalVariable hok (.ofLocal hn hop hm hord) o
      exact ⟨hnum, hsets.keeps, fun _ => hsets.1⟩
    · obtain ⟨hnum, hsets⟩ := h.setLike hn hop hcreate hsome
      obtain ⟨o', ho'⟩ := hcreate
      rw [hop]
      dsimp only
      rw [ho']
      exact ⟨⟨num, hnum⟩, hsets.keeps, fun _ => hsets.1⟩

/-- A node that creates or accesses a captured variable. -/
def IsCapture (s : State) (n : ℕ) : Prop := IsCreate s n ∨ (s.node n).kind.capturedAccess.isSome

/-- A captured variable is stored after it was created. -/
theorem CapturesOk.storer_after (hok : CapturesOk g s) (hwf : g.WellFormed)
    (hb : b ∈ g.cfg.blocks) {before after : List ℕ} (hl : g.cfg.nodes b = before ++ n :: after)
    (hm : StoresCreated g s m n) : m ∈ after := by
  obtain ⟨b', hb', hmb⟩ := List.mem_flatMap.mp hm.1
  obtain ⟨l, l', hl'⟩ := List.append_of_mem hmb
  have hnl := hok.stored b' hb' l m l' hl' n hm
  have hnb : n ∈ g.cfg.nodes b := hl ▸ List.mem_append_right _ (.head _)
  obtain rfl := hwf.disjoint hb hb' hnb (hl' ▸ List.mem_append_left _ hnl)
  rw [hl] at hmb
  rcases List.mem_append.mp hmb with hmb | hmb
  · -- then `n` would be in the block twice
    obtain ⟨p, q, rfl⟩ := List.append_of_mem hmb
    rw [List.append_assoc, List.cons_append] at hl
    have hnp := hok.stored b hb p m _ hl n hm
    have hnodup := hl ▸ hwf.nodup_block hb
    exact absurd (List.mem_cons_of_mem _ (List.mem_append_right _ (.head _)))
      ((List.nodup_append'.mp hnodup).2.2 hnp)
  · refine (List.mem_cons.mp hmb).resolve_left ?_
    rintro rfl
    obtain ⟨-, ⟨ident, hident⟩, -, o, ho⟩ := hm
    rw [hident] at ho
    cases ho

/-- The first loop over a block. -/
theorem setupCreateCapturedVars_spec (h : HasNumbers g s v c) (hok : CapturesOk g s)
    (hwf : g.WellFormed) (hlv : ∀ m, IsAccess g s m → (v.logicalVariable m).isSome)
    (hb : b ∈ g.cfg.blocks) :
    let l := (g.cfg.nodes b).reverse
    let c' := l.foldl (s.setupCreateCapturedVar v) c
    HasNumbers g s v c' ∧ Keeps c c' ∧
      (∀ m ∈ l, ∀ x, StoresCreated g s m x → (c'.logicalCV x).isSome) ∧
      ∀ n ∈ l, IsCreate s n → (c'.logicalCV n).isSome := by
  refine Folds.foldl_prefix (P := fun done c' => HasNumbers g s v c' ∧ Keeps c c' ∧
    (∀ m ∈ done, ∀ x, StoresCreated g s m x → (c'.logicalCV x).isSome) ∧
    ∀ n ∈ done, IsCreate s n → (c'.logicalCV n).isSome) ?_ ?_
  · refine ⟨h, fun _ => id, ?_, ?_⟩
    · intro m hm
      cases hm
    · intro n hn
      cases hn
  · rintro done n rest c₁ hl ⟨hnum, hkeeps, hstores, hcreates⟩
    have hnodes : g.cfg.nodes b = rest.reverse ++ n :: done.reverse := by
      rw [← List.reverse_reverse (g.cfg.nodes b), hl]
      simp
    have hin : n ∈ g.cfg.blocks.flatMap g.cfg.nodes :=
      List.mem_flatMap.mpr ⟨b, hb, hnodes ▸ List.mem_append_right _ (.head _)⟩
    obtain ⟨hnum', hkeeps', hstores', hcreate'⟩ := setupCreateCapturedVar_spec hnum hok hlv hin
      fun m hm => hstores m
        (List.mem_reverse.mp (hok.storer_after hwf hb hnodes hm)) n hm
    refine ⟨hnum', hkeeps.trans hkeeps', fun m hm x hx => ?_, fun x hx hcreate => ?_⟩
    · rcases List.mem_append.mp hm with hm | hm
      · exact hkeeps' x (hstores m hm x hx)
      · obtain rfl := List.mem_singleton.mp hm
        exact hstores' x hx
    · rcases List.mem_append.mp hx with hx | hx
      · exact hkeeps' x (hcreates x hx hcreate)
      · obtain rfl := List.mem_singleton.mp hx
        exact hcreate' hcreate

/-- **One block**: its captured variables and accesses get a number. -/
theorem setupCapturesInBlock_spec (h : HasNumbers g s v c) (hok : CapturesOk g s)
    (hwf : g.WellFormed) (hlv : ∀ m, IsAccess g s m → (v.logicalVariable m).isSome)
    (hb : b ∈ g.cfg.blocks) :
    HasNumbers g s v (g.setupCapturesInBlock s v c b) ∧
      Keeps c (g.setupCapturesInBlock s v c b) ∧
      ∀ n ∈ g.cfg.nodes b, IsCapture s n →
        ((g.setupCapturesInBlock s v c b).logicalCV n).isSome := by
  have hin {n : ℕ} (hn : n ∈ g.cfg.nodes b) : n ∈ g.cfg.blocks.flatMap g.cfg.nodes :=
    List.mem_flatMap.mpr ⟨b, hb, hn⟩
  obtain ⟨hnum, hkeeps, -, hcreates⟩ := setupCreateCapturedVars_spec h hok hwf hlv hb
  rw [Graph.setupCapturesInBlock]
  generalize (g.cfg.nodes b).reverse.foldl (s.setupCreateCapturedVar v) c = c₁ at *
  have hloop : HasNumbers g s v ((g.cfg.nodes b).foldl (s.setupCapturedAccess v) c₁) ∧
      Keeps c₁ ((g.cfg.nodes b).foldl (s.setupCapturedAccess v) c₁) ∧ ∀ n ∈ g.cfg.nodes b,
        (s.node n).kind.capturedAccess.isSome →
          (((g.cfg.nodes b).foldl (s.setupCapturedAccess v) c₁).logicalCV n).isSome := by
    refine Folds.foldl_prefix (P := fun done c₂ => HasNumbers g s v c₂ ∧ Keeps c₁ c₂ ∧
      ∀ n ∈ done, (s.node n).kind.capturedAccess.isSome → (c₂.logicalCV n).isSome) ?_ ?_
    · refine ⟨hnum, fun _ => id, ?_⟩
      intro n hn
      cases hn
    · rintro done n rest c₂ hl ⟨hnum₂, hkeeps₂, hdone⟩
      obtain ⟨hnum₃, hkeeps₃, hself⟩ := setupCapturedAccess_spec (n := n) hnum₂ hok hlv fun hn => by
        obtain ⟨m, hm, hop, hkind⟩ := hok.access b hb done n rest hl hn
        have hm' : m ∈ g.cfg.nodes b := hl ▸ List.mem_append_left _ hm
        exact ⟨m, hin hm', hop, hkind.imp_right fun hc =>
          ⟨hc, hkeeps₂ m (hcreates m (List.mem_reverse.mpr hm') hc)⟩⟩
      refine ⟨hnum₃, hkeeps₂.trans hkeeps₃, fun x hx hkind => ?_⟩
      rcases List.mem_append.mp hx with hx | hx
      · exact hkeeps₃ x (hdone x hx hkind)
      · obtain rfl := List.mem_singleton.mp hx
        exact hself hkind
  obtain ⟨hnum', hkeeps', haccesses⟩ := hloop
  refine ⟨hnum', hkeeps.trans hkeeps', fun n hn hcapture => ?_⟩
  rcases hcapture with hcreate | haccess
  · exact hkeeps' n (hcreates n (List.mem_reverse.mpr hn) hcreate)
  · exact haccesses n hn haccess

/-- **All blocks.** -/
theorem setupLogicalVariableForCaptures_spec (hok : CapturesOk g s) (hwf : g.WellFormed)
    (hlv : ∀ m, IsAccess g s m → (v.logicalVariable m).isSome) :
    HasNumbers g s v (g.setupLogicalVariableForCaptures s v) ∧
      ∀ n ∈ g.cfg.blocks.flatMap g.cfg.nodes, IsCapture s n →
        ((g.setupLogicalVariableForCaptures s v).logicalCV n).isSome := by
  suffices hloop : HasNumbers g s v (g.setupLogicalVariableForCaptures s v) ∧
      ∀ b ∈ g.cfg.blocks, ∀ n ∈ g.cfg.nodes b, IsCapture s n →
        ((g.setupLogicalVariableForCaptures s v).logicalCV n).isSome by
    refine ⟨hloop.1, fun n hn => ?_⟩
    obtain ⟨b, hb, hn⟩ := List.mem_flatMap.mp hn
    exact hloop.2 b hb n hn
  refine Folds.foldl_prefix (P := fun done c => HasNumbers g s v c ∧
    ∀ b ∈ done, ∀ n ∈ g.cfg.nodes b, IsCapture s n → (c.logicalCV n).isSome) ?_ ?_
  · refine ⟨⟨fun _ => none, .empty, fun _ => rfl, ?_, ?_⟩, ?_⟩
    · intro n i hi
      cases hi
    · intro n i hi
      cases hi
    · intro b hb
      cases hb
  · rintro done b rest c hl ⟨hnum, hdone⟩
    obtain ⟨hnum', hkeeps, hself⟩ :=
      setupCapturesInBlock_spec hnum hok hwf hlv (hl ▸ List.mem_append_right _ (.head _))
    refine ⟨hnum', fun b' hb' n hn hcapture => ?_⟩
    rcases List.mem_append.mp hb' with hb' | hb'
    · exact hkeeps n (hdone b' hb' n hn hcapture)
    · obtain rfl := List.mem_singleton.mp hb'
      exact hself n hn hcapture

end Loops

/-! ## Links

Two accesses are linked if one gets its captured variable from the other. -/

section Links

open Relation

variable {g : Graph} {s : State} {v : Variables} {b n x y : ℕ} {k : Key}

/-- The captured variable of one node is the one that another has, or stores. -/
def Link (g : Graph) (s : State) (x y : ℕ) : Prop :=
  FlowsTo g s.node x y ∨ StoresCreated g s x y ∨
    x ∈ g.cfg.blocks.flatMap g.cfg.nodes ∧ (s.node x).kind.capturedAccess.isSome ∧
      (s.node x).operand = some y

/-- What a node is known by, also if it is a load or a store. -/
def Known (g : Graph) (s : State) (v : Variables) (n : ℕ) (k : Key) : Prop :=
  HasKey g s v n k ∨ ∃ ord, IsAccess g s n ∧ v.logicalVariable n = some ord ∧ k = .shared ord

theorem IsCapture.not_isAccess (h : IsCapture s n) : ¬ IsAccess g s n := by
  rintro ⟨-, hlocal⟩
  rw [Node.localIdentifier] at hlocal
  rcases h with ⟨o, ho⟩ | h
  · rw [ho] at hlocal
    cases hlocal
  · cases hkind : (s.node n).kind with
    | getLocal _ => rw [hkind] at h; cases h
    | setLocal _ => rw [hkind] at h; cases h
    | _ => rw [hkind] at hlocal; cases hlocal

theorem HasKey.isCapture (h : HasKey g s v n k) : IsCapture s n := by
  cases h with
  | stored h => exact .inl h.2.2.2
  | own h => exact .inl h
  | ofLocal h => exact .inr h
  | ofCreate h => exact .inr h

/-- Capturing nodes are known by their key. -/
theorem known_capture (h : IsCapture s n) : Known g s v n k ↔ HasKey g s v n k :=
  or_iff_left (by rintro ⟨_, haccess, _⟩; exact h.not_isAccess haccess)

/-- Accesses to locals are known by their logical variable. -/
theorem known_access (h : IsAccess g s n) :
    Known g s v n k ↔ ∃ ord, v.logicalVariable n = some ord ∧ k = .shared ord := by
  rw [Known, or_iff_right fun hkey => hkey.isCapture.not_isAccess h]
  simp only [h, true_and]

theorem StoresCreated.isAccess (h : StoresCreated g s x y) : IsAccess g s x := by
  obtain ⟨hin, ⟨ident, hkind⟩, -⟩ := h
  refine ⟨hin, ?_⟩
  rw [Node.localIdentifier, hkind]
  rfl

/-- The operand of an access. -/
theorem CapturesOk.operand (hok : CapturesOk g s) (hx : x ∈ g.cfg.blocks.flatMap g.cfg.nodes)
    (haccess : (s.node x).kind.capturedAccess.isSome) (hop : (s.node x).operand = some y) :
    (∃ ident, (s.node y).kind = .getLocal ident) ∧ IsAccess g s y ∨ IsCreate s y := by
  obtain ⟨b, hb, hxb⟩ := List.mem_flatMap.mp hx
  obtain ⟨l, l', hl⟩ := List.append_of_mem hxb
  obtain ⟨m, hm, hop', hkind⟩ := hok.access b hb l x l' hl haccess
  cases hop.symm.trans hop'
  refine hkind.imp_left fun hkind => ⟨hkind, ?_, ?_⟩
  · exact List.mem_flatMap.mpr ⟨b, hb, hl ▸ List.mem_append_left _ hm⟩
  · obtain ⟨ident, hident⟩ := hkind
    rw [Node.localIdentifier, hident]
    rfl

/-- **Linked nodes** are known by the same. -/
theorem Link.known_iff (h : Link g s x y) (hok : CapturesOk g s) (hclasses : ClassesOfFlows g s v)
    (hlv : ∀ m, IsAccess g s m → (v.logicalVariable m).isSome) :
    Known g s v x k ↔ Known g s v y k := by
  rcases h with hflows | hstores | ⟨hx, haccess, hop⟩
  · obtain ⟨hx, hy⟩ := hflows.isAccess
    rw [known_access hx, known_access hy, (hclasses.same x y hx hy).mpr (.rel _ _ hflows)]
  · obtain ⟨ord, hord⟩ := Option.isSome_iff_exists.mp (hlv x hstores.isAccess)
    rw [known_access hstores.isAccess, known_capture (.inl hstores.2.2.2), hord]
    constructor
    · rintro ⟨ord', hord', rfl⟩
      cases hord'
      exact .stored hstores hord
    · exact fun hk => ⟨ord, rfl, hk.unique hok (.stored hstores hord)⟩
  · rw [known_capture (.inr haccess)]
    rcases hok.operand hx haccess hop with ⟨⟨ident, hident⟩, hy⟩ | hcreate
    · obtain ⟨ord, hord⟩ := Option.isSome_iff_exists.mp (hlv y hy)
      have hkey : HasKey g s v x (.shared ord) := .ofLocal haccess hop hident hord
      rw [known_access hy, hord]
      constructor
      · exact fun hk => ⟨ord, rfl, hk.unique hok hkey⟩
      · rintro ⟨ord', hord', rfl⟩
        cases hord'
        exact hkey
    · rw [known_capture (.inl hcreate)]
      constructor
      · intro hk
        rcases hk.of_access haccess hop with ⟨ident, -, hident, -⟩ | ⟨-, hk⟩
        · exact absurd hident (hcreate.not_getLocal ident)
        · exact hk
      · exact fun hk => .ofCreate haccess hop hcreate hk

/-- A node is linked to what it is known by. -/
theorem HasKey.linked (h : HasKey g s v x k) (hok : CapturesOk g s)
    (hx : x ∈ g.cfg.blocks.flatMap g.cfg.nodes) :
    (∀ ord, k = .shared ord → ∃ m, IsAccess g s m ∧ v.logicalVariable m = some ord ∧
      EqvGen (Link g s) x m) ∧ ∀ n, k = .own n → EqvGen (Link g s) x n := by
  have hcreate {y : ℕ} {k : Key} (h : HasKey g s v y k) (hy : IsCreate s y) :
      (∀ ord, k = .shared ord → ∃ m, IsAccess g s m ∧ v.logicalVariable m = some ord ∧
        EqvGen (Link g s) y m) ∧ ∀ n, k = .own n → EqvGen (Link g s) y n := by
    rcases h.of_create hy with ⟨m, ord, hm, hord, rfl⟩ | ⟨-, rfl⟩
    · refine ⟨fun ord' heq => ?_, fun n heq => by cases heq⟩
      cases heq
      exact ⟨m, hm.isAccess, hord, .symm _ _ (.rel _ _ (.inr (.inl hm)))⟩
    · refine ⟨fun ord heq => (by cases heq), fun n heq => ?_⟩
      cases heq
      exact .refl y
  rcases h.isCapture with hc | haccess
  · exact hcreate h hc
  · obtain ⟨y, hop⟩ : ∃ y, (s.node x).operand = some y := by
      obtain ⟨b, hb, hxb⟩ := List.mem_flatMap.mp hx
      obtain ⟨l, l', hl⟩ := List.append_of_mem hxb
      obtain ⟨y, -, hop, -⟩ := hok.access b hb l x l' hl haccess
      exact ⟨y, hop⟩
    have hlink : EqvGen (Link g s) x y := .rel _ _ (.inr (.inr ⟨hx, haccess, hop⟩))
    rcases h.of_access haccess hop with ⟨ident, ord, hident, hord, rfl⟩ | ⟨hc, hk⟩
    · refine ⟨fun ord' heq => ?_, fun n heq => by cases heq⟩
      cases heq
      rcases hok.operand hx haccess hop with ⟨-, hy⟩ | hc
      · exact ⟨y, hy, hord, hlink⟩
      · exact absurd hident (hc.not_getLocal ident)
    · obtain ⟨hshared, hown⟩ := hcreate hk hc
      refine ⟨fun ord heq => ?_, fun n heq => hlink.trans _ _ _ (hown n heq)⟩
      obtain ⟨m, hm, hord, hrest⟩ := hshared ord heq
      exact ⟨m, hm, hord, hlink.trans _ _ _ hrest⟩

/-- Every captured variable and every access has a key. -/
theorem IsCapture.exists_key (h : IsCapture s n) (hok : CapturesOk g s)
    (hlv : ∀ m, IsAccess g s m → (v.logicalVariable m).isSome)
    (hn : n ∈ g.cfg.blocks.flatMap g.cfg.nodes) : ∃ k, HasKey g s v n k := by
  have hcreate {n : ℕ} (hn : IsCreate s n) : ∃ k, HasKey g s v n k := by
    by_cases hstored : ∃ m, StoresCreated g s m n
    · obtain ⟨m, hm⟩ := hstored
      obtain ⟨ord, hord⟩ := Option.isSome_iff_exists.mp (hlv m hm.isAccess)
      exact ⟨_, .stored hm hord⟩
    · exact ⟨_, .own hn (not_exists.mp hstored)⟩
  rcases h with hc | haccess
  · exact hcreate hc
  · obtain ⟨b, hb, hnb⟩ := List.mem_flatMap.mp hn
    obtain ⟨l, l', hl⟩ := List.append_of_mem hnb
    obtain ⟨y, -, hop, -⟩ := hok.access b hb l n l' hl haccess
    rcases hok.operand hn haccess hop with ⟨⟨ident, hident⟩, hy⟩ | hc
    · obtain ⟨ord, hord⟩ := Option.isSome_iff_exists.mp (hlv y hy)
      exact ⟨_, .ofLocal haccess hop hident hord⟩
    · obtain ⟨k, hk⟩ := hcreate hc
      exact ⟨k, .ofCreate haccess hop hc hk⟩

/-- **Captured variables** are the classes of linked nodes. -/
theorem sameVariable_iff (hok : CapturesOk g s) (hwf : g.WellFormed)
    (hclasses : ClassesOfFlows g s v) (hx : x ∈ g.cfg.blocks.flatMap g.cfg.nodes)
    (hy : y ∈ g.cfg.blocks.flatMap g.cfg.nodes) (hxc : IsCapture s x) (hyc : IsCapture s y) :
    (g.setupLogicalVariableForCaptures s v).logicalCV x =
        (g.setupLogicalVariableForCaptures s v).logicalCV y ↔ EqvGen (Link g s) x y := by
  have hlv (m : ℕ) (hm : IsAccess g s m) : (v.logicalVariable m).isSome := by
    obtain ⟨ident, hident⟩ := Option.isSome_iff_exists.mp hm.2
    obtain ⟨k, -, -, hk, -⟩ := hclasses.info m hm ident hident
    rw [hk]
    rfl
  obtain ⟨⟨num, hnum⟩, hall⟩ := setupLogicalVariableForCaptures_spec hok hwf hlv
  obtain ⟨i, hi⟩ := Option.isSome_iff_exists.mp (hall x hx hxc)
  obtain ⟨j, hj⟩ := Option.isSome_iff_exists.mp (hall y hy hyc)
  obtain ⟨k, hk⟩ := hxc.exists_key hok hlv hx
  obtain ⟨k', hk'⟩ := hyc.exists_key hok hlv hy
  have hki := hnum.node x i hi k hk
  have hkj := hnum.node y j hj k' hk'
  rw [hi, hj]
  constructor
  · intro heq
    obtain rfl := hnum.numbering.unique k k' j (heq ▸ hki) hkj
    obtain ⟨hshared, hown⟩ := hk.linked hok hx
    obtain ⟨hshared', hown'⟩ := hk'.linked hok hy
    cases k with
    | shared ord =>
      obtain ⟨m, hm, hord, hxm⟩ := hshared ord rfl
      obtain ⟨m', hm', hord', hym'⟩ := hshared' ord rfl
      have hmm' : EqvGen (Link g s) m m' :=
        EqvGen.mono (fun _ _ => .inl) m m' ((hclasses.same m m' hm hm').mp (hord.trans hord'.symm))
      exact hxm.trans _ _ _ (hmm'.trans _ _ _ (hym'.symm))
    | own n => exact (hown n rfl).trans _ _ _ ((hown' n rfl).symm)
  · intro hlinked
    have hknown : Known g s v x k ↔ Known g s v y k := by
      clear hx hy hxc hyc hi hj hk hk' hki hkj
      induction hlinked with
      | rel _ _ hlink => exact hlink.known_iff hok hclasses hlv
      | refl => rfl
      | symm _ _ _ ih => exact ih.symm
      | trans _ _ _ _ _ ih ih' => exact ih.trans ih'
    rw [known_capture hxc, known_capture hyc] at hknown
    obtain rfl := hk'.unique hok (hknown.mp hk)
    exact hki.symm.trans hkj

end Links

/-! ## The graph after the pass

Pruning drops loads and stores of locals only, so every access keeps its key. -/

section Outcome

variable {g : Graph} {s₁ s s' s'' : State} {b m n : ℕ}

/-- The operand after the dead loads are replaced. -/
theorem operand_doReplacementForInputs (node : Node) :
    (node.doReplacementForInputs (undefLoads g s)).operand = some m ↔
      node.operand = some m ∧ deadLoad s m = false := by
  rw [Node.operand, Node.operand, Node.doReplacementForInputs]
  dsimp only
  rw [List.head?_map]
  cases node.inputs.head? with
  | none => simp
  | some e =>
    rw [Option.map_some, Option.bind_some, Option.bind_some, replaceOperand]
    dsimp only
    cases e.value with
    | constant _ => simp [replaceValue]
    | ssa x outputOrd =>
      rw [replaceValue, undefLoads]
      cases hdead : deadLoad s x with
      | true =>
        simp only [reduceIte, Option.getD_some, reduceCtorEq, false_iff, Option.some_inj]
        rintro ⟨rfl, hlive⟩
        rw [hdead] at hlive
        cases hlive
      | false =>
        simp only [Bool.false_eq_true, reduceIte, Option.getD_none, Option.some_inj]
        constructor
        · rintro rfl
          exact ⟨rfl, hdead⟩
        · exact And.left

/-- The operand in the graph after the pass. -/
theorem Outcome.operand_iff (h : Outcome g s₁ s s' s'') (hb : b ∈ g.cfg.blocks)
    (hn : n ∈ g.cfg.nodes b) (hnop : (s''.node n).kind ≠ .nop) :
    (s''.node n).operand = some m ↔ (s₁.node n).operand = some m ∧ deadLoad s' m = false := by
  rw [h.pruned hb hn, prunedNode, h.node] at hnop ⊢
  split_ifs at hnop ⊢
  · exact absurd rfl hnop
  · exact operand_doReplacementForInputs _

/-- Only loads and stores are removed. -/
theorem Outcome.kind_of_other (h : Outcome g s₁ s s' s'') (hb : b ∈ g.cfg.blocks)
    (hn : n ∈ g.cfg.nodes b) (hget : ∀ ident, (s₁.node n).kind ≠ .getLocal ident)
    (hset : ∀ ident, (s₁.node n).kind ≠ .setLocal ident) :
    (s''.node n).kind = (s₁.node n).kind := by
  rw [h.pruned hb hn, prunedNode]
  split_ifs with hdead
  · rw [Bool.or_eq_true] at hdead
    rcases hdead with hdead | hdead
    · obtain ⟨ident, hident⟩ := deadLoad_isLoad hdead
      exact absurd (h.node ▸ hident) (hget ident)
    · obtain ⟨ident, hident⟩ := deadStore_isStore hdead
      exact absurd (h.node ▸ hident) (hset ident)
  · rw [h.node]
    rfl

/-- An access to a captured variable is none to a local. -/
theorem kind_of_access (h : (s.node n).kind.capturedAccess.isSome) :
    (∀ ident, (s.node n).kind ≠ .getLocal ident) ∧ (∀ ident, (s.node n).kind ≠ .setLocal ident) ∧
      (s.node n).kind ≠ .nop := by
  cases hkind : (s.node n).kind with
  | getCapturedVar _ => simp
  | setCapturedVar _ => simp
  | _ =>
    rw [hkind] at h
    cases h

theorem kind_of_create (h : IsCreate s n) :
    (∀ ident, (s.node n).kind ≠ .getLocal ident) ∧ ∀ ident, (s.node n).kind ≠ .setLocal ident := by
  obtain ⟨o, ho⟩ := h
  rw [ho]
  simp

/-- **What the last step relies on** holds after the pass if it held before the loads were removed,
and a store flows to the loads of captured variables. -/
theorem Outcome.capturesOk (h : Outcome g s₁ s s' s'') (hwf : g.WellFormed)
    (hok : CapturesOk g s₁)
    (hflows : ∀ n ∈ g.cfg.blocks.flatMap g.cfg.nodes, (s₁.node n).kind.capturedAccess.isSome →
      ∀ m ident, (s₁.node n).operand = some m → (s₁.node m).kind = .getLocal ident →
        ∃ x, FlowsTo g s₁.node x m) : CapturesOk g s'' := by
  -- what a node is after the pass, it was before
  have hstores {m n : ℕ} (hm : StoresCreated g s'' m n) : StoresCreated g s₁ m n := by
    obtain ⟨hin, ⟨ident, hident⟩, hop, o, ho⟩ := hm
    obtain ⟨b, hb, hmb⟩ := List.mem_flatMap.mp hin
    have hnop : (s''.node m).kind ≠ .nop := by simp [hident]
    obtain ⟨hop₁, -⟩ := (h.operand_iff hb hmb hnop).mp hop
    have hkind := (h.kind hb hmb hnop).symm.trans hident
    -- the operand is in the same block
    obtain ⟨done, rest, hl⟩ := List.append_of_mem hmb
    have hcanon := (h.canonical.blocks b hb).canonical
    obtain ⟨e, hinputs⟩ := hcanon.setLocal m hmb ident hkind
    have huse := hcanon.uses done m rest hl e (hinputs ▸ .head _)
    rw [Node.operand, hinputs] at hop₁
    have hnb : n ∈ g.cfg.nodes b := by
      cases hvalue : e.value with
      | constant _ => simp [hvalue] at hop₁
      | ssa x outputOrd =>
        rw [hvalue] at huse
        obtain rfl : x = n := by simpa [hvalue] using hop₁
        exact hl ▸ List.mem_append_left _ huse.1
    refine ⟨hin, ⟨ident, hkind⟩, ?_, o, ?_⟩
    · rw [Node.operand, hinputs]
      exact hop₁
    · rw [← h.kind hb hnb (by simp [ho]), ho]
  refine ⟨fun b hb done m rest hl n hm => hok.stored b hb done m rest hl n (hstores hm),
    fun m m' n hm hm' => hok.unique m m' n (hstores hm) (hstores hm'),
    fun b hb done n rest hl haccess => ?_⟩
  have hnb : n ∈ g.cfg.nodes b := hl ▸ List.mem_append_right _ (.head _)
  have hnop := (kind_of_access haccess).2.2
  rw [h.kind hb hnb hnop] at haccess
  obtain ⟨m, hm, hop, hkind⟩ := hok.access b hb done n rest hl haccess
  have hmb : m ∈ g.cfg.nodes b := hl ▸ List.mem_append_left _ hm
  refine ⟨m, hm, (h.operand_iff hb hnb hnop).mpr ⟨hop, ?_⟩, ?_⟩
  · rw [← Bool.not_eq_true]
    intro hdead
    obtain ⟨ident, hident⟩ := deadLoad_isLoad hdead
    rw [h.node] at hident
    obtain ⟨x, hx⟩ := hflows n (List.mem_flatMap.mpr ⟨b, hb, hnb⟩) haccess m ident hop hident
    have hstays := (h.load_stays_iff hwf hb ⟨hmb, ident, hident, rfl⟩).mpr ⟨x, hx⟩
    rw [((h.isLoad_iff hb).mp hstays).2] at hdead
    cases hdead
  · rcases hkind with ⟨ident, hident⟩ | hcreate
    · left
      obtain ⟨x, hx⟩ := hflows n (List.mem_flatMap.mpr ⟨b, hb, hnb⟩) haccess m ident hop hident
      obtain ⟨-, ident', hident', -⟩ :=
        (h.load_stays_iff hwf hb ⟨hmb, ident, hident, rfl⟩).mpr ⟨x, hx⟩
      exact ⟨ident', hident'⟩
    · right
      obtain ⟨hget, hset⟩ := kind_of_create hcreate
      rw [IsCreate, h.kind_of_other hb hmb hget hset]
      exact hcreate

end Outcome

/-- **Captured variables**: after the pass, two nodes that create or access captured variables have
the same one just when they are linked. -/
theorem capturedVariables_established {g : Graph} (hwf : g.WellFormed)
    (hok : CapturesOk g g.canonicalizeAllLocalOperations)
    (hflows : ∀ n ∈ g.cfg.blocks.flatMap g.cfg.nodes,
      (g.canonicalizeAllLocalOperations.node n).kind.capturedAccess.isSome → ∀ m ident,
        (g.canonicalizeAllLocalOperations.node n).operand = some m →
        (g.canonicalizeAllLocalOperations.node m).kind = .getLocal ident →
          ∃ x, FlowsTo g g.canonicalizeAllLocalOperations.node x m) :
    ∃ fuel₀, ∀ fuel, fuel₀ ≤ fuel → ∃ s v,
      g.buildPhiDataFlowGraph fuel g.canonicalizeAllLocalOperations = some s ∧
        g.setupLogicalVariables fuel s = some v ∧
        ∀ x ∈ g.cfg.blocks.flatMap g.cfg.nodes, ∀ y ∈ g.cfg.blocks.flatMap g.cfg.nodes,
          IsCapture s x → IsCapture s y →
            ((g.setupLogicalVariableForCaptures s v).logicalCV x =
                (g.setupLogicalVariableForCaptures s v).logicalCV y ↔
              Relation.EqvGen (Link g s) x y) := by
  obtain ⟨fuel₀, houtcome⟩ := exists_outcome hwf
  refine ⟨max fuel₀ (g.cfg.blocks.flatMap g.cfg.nodes).length, fun fuel hfuel => ?_⟩
  obtain ⟨s, s', s'', heq, h⟩ := houtcome fuel ((Nat.le_max_left ..).trans hfuel)
  obtain ⟨v, hv, hclasses⟩ :=
    (h.blockLocalSsa hwf).setupLogicalVariables_spec hwf ((Nat.le_max_right ..).trans hfuel)
  exact ⟨s'', v, heq, hv, fun x hx y hy =>
    sameVariable_iff (h.capturesOk hwf hok hflows) hwf hclasses hx hy⟩

/-- A captured variable is stored in one block and read in the next, where another is created. -/
def capturingGraph : Graph where
  cfg :=
    { blocks := [0, 1]
      node := fun _ => ⟨false, 0, false, false, false, none⟩
      nodes := fun bb => if bb = 0 then [0, 1] else [2, 3, 4, 5]
      terminator := fun _ => none
      successors := fun bb => if bb = 0 then [1] else []
      predOrdForSuccessors := fun _ _ => 0
      predecessors := fun bb => if bb = 1 then [0] else []
      isReachable := fun _ => true
      replacement := fun _ => none }
  node n :=
    if n = 0 then ⟨.createCapturedVar 0, [⟨.constant 7, 0, false⟩]⟩
    else if n = 1 then ⟨.setLocal ⟨0, 0⟩, [⟨.ssa 0 0, 0, false⟩]⟩
    else if n = 2 then ⟨.getLocal ⟨0, 0⟩, []⟩
    else if n = 3 then ⟨.getCapturedVar 0, [⟨.ssa 2 0, 0, false⟩]⟩
    else if n = 4 then ⟨.createCapturedVar 1, [⟨.ssa 3 0, 0, false⟩]⟩
    else if n = 5 then ⟨.setCapturedVar 1, [⟨.ssa 4 0, 0, false⟩, ⟨.constant 8, 0, false⟩]⟩
    else ⟨.other, []⟩
  undefValue := 0
  numLocals := 1
  virtualRegister _ := 0
  interpreterSlot ident := ident.location
  isLiveAtHead bb ident := bb == 1 && ident.location == 0

theorem capturingGraph_blocks {b : ℕ} : b ∈ capturingGraph.cfg.blocks ↔ b = 0 ∨ b = 1 := by
  simp [capturingGraph]

/-- The example is well formed. -/
theorem capturingGraph_wellFormed : capturingGraph.WellFormed where
  nodup := by decide
  consistent :=
    { closed := fun b hb s hs => by
        rw [capturingGraph_blocks]
        rcases capturingGraph_blocks.mp hb with rfl | rfl
        · exact .inr (by simpa [capturingGraph] using hs)
        · simp [capturingGraph] at hs
      mem := fun b hb p => by
        rw [capturingGraph_blocks]
        rcases capturingGraph_blocks.mp hb with rfl | rfl <;> simp only [capturingGraph] <;> grind
      nodup := fun b hb => by
        rcases capturingGraph_blocks.mp hb with rfl | rfl <;> decide
      ord := fun p hp i s hi => by
        rcases capturingGraph_blocks.mp hp with rfl | rfl
        · rcases i with _ | i
          · obtain rfl : 1 = s := by simpa [capturingGraph] using hi
            rfl
          · simp [capturingGraph] at hi
        · simp [capturingGraph] at hi
      entry := ⟨by decide, rfl⟩
      reach := fun b hb => by
        rcases capturingGraph_blocks.mp hb with rfl | rfl
        · exact .refl
        · exact .single (.head _) }
  nodup_nodes := by decide
  register_lt ident := Nat.zero_lt_one
  getLocal n ident h := by
    simp only [capturingGraph] at h ⊢
    split_ifs at h ⊢
    simp_all
  setLocal n ident h := by
    simp only [capturingGraph] at h ⊢
    split_ifs at h ⊢
    simp_all
  uses bb hbb done n rest hl e he := by
    obtain ⟨hdone, hn⟩ := split_eq_take hl
    generalize done.length = k at hdone hn
    subst hdone
    rcases capturingGraph_blocks.mp hbb with rfl | rfl <;>
      rcases k with _ | _ | _ | _ | k <;> simp [capturingGraph] at hn <;> subst hn <;>
        simp [capturingGraph] at he <;> rcases he with rfl | rfl <;>
          simp [capturingGraph, Available, NodeKind.HasOutput]

/-- It is canonical already. -/
theorem capturingGraph_canonical : ∀ n < 6,
    capturingGraph.canonicalizeAllLocalOperations.node n = capturingGraph.node n := by decide

theorem capturingGraph_nodes {n : ℕ} :
    n ∈ capturingGraph.cfg.blocks.flatMap capturingGraph.cfg.nodes ↔ n < 6 := by
  simp only [capturingGraph, List.flatMap_cons, List.flatMap_nil]
  simp
  omega

/-- It passes the tests of the pass. -/
theorem capturingGraph_capturesOk :
    CapturesOk capturingGraph capturingGraph.canonicalizeAllLocalOperations := by
  generalize hs : capturingGraph.canonicalizeAllLocalOperations = s
  have hnode : ∀ n < 6, s.node n = capturingGraph.node n := hs ▸ capturingGraph_canonical
  have hstores {m n : ℕ} (h : StoresCreated capturingGraph s m n) : m = 1 ∧ n = 0 := by
    obtain ⟨hin, ⟨ident, hident⟩, hop, -⟩ := h
    rw [capturingGraph_nodes] at hin
    rw [hnode m hin] at hident hop
    obtain rfl : m = 1 := by
      rcases m with _ | _ | _ | _ | _ | _ | m <;> simp [capturingGraph] at hident ⊢
    exact ⟨rfl, by simpa [capturingGraph, Node.operand] using hop.symm⟩
  refine ⟨fun b hb done m rest hl n hm => ?_, fun m m' n hm hm' => ?_,
    fun b hb done n rest hl haccess => ?_⟩
  · obtain ⟨rfl, rfl⟩ := hstores hm
    obtain ⟨hdone, hat⟩ := split_eq_take hl
    generalize done.length = k at hdone hat
    subst hdone
    rcases capturingGraph_blocks.mp hb with rfl | rfl <;>
      rcases k with _ | _ | _ | _ | k <;> simp [capturingGraph] at hat ⊢
  · rw [(hstores hm).1, (hstores hm').1]
  · have hin : n < 6 := capturingGraph_nodes.mp
      (List.mem_flatMap.mpr ⟨b, hb, hl ▸ List.mem_append_right _ (.head _)⟩)
    rw [hnode n hin] at haccess ⊢
    have hn : n = 3 ∨ n = 5 := by
      rcases n with _ | _ | _ | _ | _ | _ | n <;>
        simp [capturingGraph, NodeKind.capturedAccess] at haccess ⊢
    obtain ⟨hdone, hat⟩ := split_eq_take hl
    generalize done.length = k at hdone hat
    subst hdone
    rcases capturingGraph_blocks.mp hb with rfl | rfl <;>
      rcases k with _ | _ | _ | _ | k <;> simp [capturingGraph] at hat <;> subst hat <;>
        simp at hn
    · exact ⟨2, by simp [capturingGraph], rfl, .inl ⟨⟨0, 0⟩, by rw [hnode 2 (by decide)]; rfl⟩⟩
    · exact ⟨4, by simp [capturingGraph], rfl, .inr ⟨1, by rw [hnode 4 (by decide)]; rfl⟩⟩

theorem capturedVariables_established_capturingGraph : ∃ fuel₀, ∀ fuel, fuel₀ ≤ fuel → ∃ s v,
    capturingGraph.buildPhiDataFlowGraph fuel capturingGraph.canonicalizeAllLocalOperations =
        some s ∧
      capturingGraph.setupLogicalVariables fuel s = some v ∧
      ∀ x ∈ capturingGraph.cfg.blocks.flatMap capturingGraph.cfg.nodes,
        ∀ y ∈ capturingGraph.cfg.blocks.flatMap capturingGraph.cfg.nodes,
          IsCapture s x → IsCapture s y →
            ((capturingGraph.setupLogicalVariableForCaptures s v).logicalCV x =
                (capturingGraph.setupLogicalVariableForCaptures s v).logicalCV y ↔
              Relation.EqvGen (Link capturingGraph s) x y) := by
  refine capturedVariables_established capturingGraph_wellFormed capturingGraph_capturesOk ?_
  intro n hn haccess m ident hop hident
  rw [capturingGraph_nodes] at hn
  rw [capturingGraph_canonical n hn] at haccess hop
  have hm : m = 2 ∨ m = 4 := by
    rcases n with _ | _ | _ | _ | _ | _ | n <;>
      simp [capturingGraph, NodeKind.capturedAccess, Node.operand] at haccess hop ⊢ <;> omega
  rcases hm with rfl | rfl
  · refine ⟨1, 0, 0, 1, ⟨by decide, ⟨0, 0⟩, ?_, rfl⟩, ⟨by decide, 1, by decide, .refl⟩, by decide,
      by decide, ⟨0, 0⟩, ?_, rfl⟩
    · rw [capturingGraph_canonical 1 (by decide)]
      rfl
    · rw [capturingGraph_canonical 2 (by decide)]
      rfl
  · rw [capturingGraph_canonical 4 (by decide)] at hident
    cases hident

end LocalSsa

end Dsom
