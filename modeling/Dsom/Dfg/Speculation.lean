import Dsom.Foundations.BitMask
import Mathlib.Logic.Function.Basic
import Mathlib.Tactic.Common

/-!
# Dfg/Speculation — the checks on stores to locals

A logical variable is given the union of what its stores may let through, and then each store gets
the cheapest check that stays within the mask of its variable.  The two automata that pick checks
are generated by the build and are parameters here, with what the pass relies on (`Automata.Spec`).

A store lets through what is predicted for it and nothing that its variable is not known to hold
(`speculation_admits`, `speculation_within`).  Along every path a local holds what the last store
let through, so a load finds a value in the mask of its variable (`speculation_sound`).
-/

namespace Dsom

namespace Speculation

open BitMask

/-- `TypeMaskTy`. -/
abbrev TypeMaskTy := BitVec 32

/-- What the list of types fixes: `x_numUsefulBitsInBytecodeTypeMask`, and the bit of `tNil`. -/
structure TypeList where
  numUsefulBits : ℕ
  nilOrd : ℕ
  nil_lt : nilOrd < numUsefulBits
  le : numUsefulBits + 2 ≤ 32

namespace TypeList

variable (types : TypeList)

/-- All the useful bits. -/
def tBoxedValueTop : TypeMaskTy := BitVec.ofNat 32 (2 ^ types.numUsefulBits - 1)

/-- The first bit above the useful ones. -/
def tGarbage : TypeMaskTy := BitVec.twoPow 32 types.numUsefulBits

/-- The second bit above the useful ones. -/
def tOpaque : TypeMaskTy := BitVec.twoPow 32 (types.numUsefulBits + 1)

/-- Every boxed value, garbage and the opaque values. -/
def tFullTop : TypeMaskTy := types.tBoxedValueTop ||| types.tGarbage ||| types.tOpaque

/-- The bit of `nil`. -/
def tNil : TypeMaskTy := BitVec.twoPow 32 types.nilOrd

/-- A mask of the types that values have at run time: `tGarbage` is compiled to `tNil`. -/
def compiled (mask : TypeMaskTy) : TypeMaskTy :=
  if mask &&& types.tGarbage ≠ 0 then (mask &&& ~~~types.tGarbage) ||| types.tNil else mask

end TypeList

/-- `UseKind`; the others are not chosen for a store. -/
inductive UseKind where
  | untyped
  | fullTop
  | knownCapturedVar
  | knownUnboxedInt64
  | unreachable
  | alwaysOsrExit
  /-- The check for a mask of `x_list_of_type_speculation_masks`. -/
  | check (specOrd : ℕ)
  deriving DecidableEq

/-- A node and an output of it. -/
abbrev Value := ℕ × ℕ

/-- `Edge`. -/
structure Edge where
  value : Value
  useKind : UseKind
  isStaticallyProven : Bool
  maybeInvalidBoxedValue : Bool

namespace Edge

/-- `InitEdge`. -/
def initEdge (value : Value) (maybeInvalidBoxedValue : Bool) : Edge where
  value := value
  useKind := if maybeInvalidBoxedValue then .fullTop else .untyped
  isStaticallyProven := false
  maybeInvalidBoxedValue := maybeInvalidBoxedValue

/-- `SetStaticallyKnownUseKind`. -/
def setStaticallyKnownUseKind (e : Edge) (useKind : UseKind) : Edge :=
  { e with useKind := useKind, isStaticallyProven := true }

end Edge

/-- What the pass looks at in a node; a variable is given by its ordinal. -/
inductive Node where
  | setLocal (input : Edge) (lvOrd : ℕ)
  | getLocal (lvOrd : ℕ)
  | other

/-- The blocks list their nodes; `localOrd` is where a variable is kept. -/
structure Graph where
  blocks : List (List ℕ)
  node : ℕ → Node
  successors : ℕ → List ℕ
  localOrd : ℕ → ℕ

/-- `x_list_of_type_speculation_masks` and the generated automata. -/
structure Automata where
  getTypeMaskFromOrd : ℕ → TypeMaskTy
  getMinimalSpeculationCoveringPredictionMask : TypeMaskTy → ℕ
  getCheapestSpecWithinMaskCoveringExistingSpec : ℕ → TypeMaskTy → UseKind

/-! ## The pass -/

section Pass

variable (types : TypeList) (automata : Automata) (prediction : Value → TypeMaskTy)

/-- The types that an edge with a use kind lets through. -/
def accepts : UseKind → TypeMaskTy
  | .untyped => types.tBoxedValueTop
  | .fullTop => types.tFullTop
  | .knownCapturedVar => types.tOpaque
  | .knownUnboxedInt64 => types.tOpaque
  | .unreachable => 0
  | .alwaysOsrExit => 0
  | .check specOrd => automata.getTypeMaskFromOrd specOrd

/-- `m_speculationMask` of every variable, and `m_setLocals`. -/
structure State where
  speculationMask : ℕ → TypeMaskTy
  setLocals : List (ℕ × ℕ)

/-- What a store adds to the mask of its variable, and the ordinal of its check if it needs one. -/
def speculate (e : Edge) : TypeMaskTy × Option ℕ :=
  if e.isStaticallyProven then (types.tOpaque, none)
  else
    let prediction :=
      if !e.maybeInvalidBoxedValue then prediction e.value &&& types.tBoxedValueTop
      else prediction e.value
    if prediction &&& types.tOpaque ≠ 0 then (prediction ||| types.tBoxedValueTop, none)
    else
      let mask := prediction &&& types.tBoxedValueTop
      let mask := if prediction &&& types.tGarbage ≠ 0 then mask ||| types.tNil else mask
      let specOrd := automata.getMinimalSpeculationCoveringPredictionMask mask
      (automata.getTypeMaskFromOrd specOrd, some specOrd)

variable (g : Graph)

/-- `ProcessBuiltinNode`; other nodes are left alone. -/
def processNode (s : State) (node : ℕ) : State :=
  match g.node node with
  | .setLocal e lvOrd =>
      let r := speculate types automata prediction e
      { speculationMask := Function.update s.speculationMask lvOrd (s.speculationMask lvOrd ||| r.1)
        setLocals := s.setLocals ++ (r.2.map (node, ·)).toList }
  | _ => s

/-- The loop over all nodes. -/
def processNodes : State :=
  g.blocks.foldl (fun s nodes => nodes.foldl (processNode types automata prediction g) s)
    { speculationMask := fun _ => 0, setLocals := [] }

/-- The use kind before the pass. -/
def initialUseKind (node : ℕ) : UseKind :=
  match g.node node with
  | .setLocal e _ => e.useKind
  | _ => .untyped

/-- The cheapest check of a store within the mask of its variable. -/
def cheapest (speculationMask : ℕ → TypeMaskTy) (node specOrd : ℕ) : UseKind :=
  match g.node node with
  | .setLocal _ lvOrd =>
      automata.getCheapestSpecWithinMaskCoveringExistingSpec specOrd (speculationMask lvOrd)
  | _ => .untyped

/-- `m_speculationMask` of every variable after the pass. -/
def speculationMask : ℕ → TypeMaskTy := (processNodes types automata prediction g).speculationMask

/-- The use kinds after the pass. -/
def useKind : ℕ → UseKind :=
  (processNodes types automata prediction g).setLocals.foldl
    (fun useKind (node, specOrd) => Function.update useKind node
      (cheapest automata g (speculationMask types automata prediction g) node specOrd))
    (initialUseKind g)

end Pass

/-! ## What the pass relies on -/

/-- What the automata are generated for: a mask that covers the query, and a check that lets through
what the mask has and stays within the mask given. -/
structure Automata.Spec (types : TypeList) (automata : Automata) : Prop where
  minimal_covers : ∀ mask, Covers types.tBoxedValueTop mask → Covers
    (automata.getTypeMaskFromOrd (automata.getMinimalSpeculationCoveringPredictionMask mask)) mask
  cheapest_covers : ∀ specOrd mask, Covers mask (automata.getTypeMaskFromOrd specOrd) →
    Covers (accepts types automata
      (automata.getCheapestSpecWithinMaskCoveringExistingSpec specOrd mask))
      (automata.getTypeMaskFromOrd specOrd)
  cheapest_within : ∀ specOrd mask, Covers mask (automata.getTypeMaskFromOrd specOrd) →
    Covers mask (accepts types automata
      (automata.getCheapestSpecWithinMaskCoveringExistingSpec specOrd mask))

/-- A place in a block. -/
abbrev Point := ℕ × ℕ

namespace Graph

variable (g : Graph)

/-- The node at a place. -/
def at? (p : Point) : Option Node := (g.blocks[p.1]?.bind (·[p.2]?)).map g.node

/-- The places to which a store to a variable flows. -/
inductive Flows (lvOrd : ℕ) : Point → Prop
  | store {b i : ℕ} {e : Edge} (h : g.at? (b, i) = some (.setLocal e lvOrd)) :
      Flows lvOrd (b, i + 1)
  | pass {b i : ℕ} {node : Node} (h : Flows lvOrd (b, i)) (hnode : g.at? (b, i) = some node)
      (hother : ∀ e lvOrd', node = .setLocal e lvOrd' → g.localOrd lvOrd' ≠ g.localOrd lvOrd) :
      Flows lvOrd (b, i + 1)
  | jump {b i b' : ℕ} (h : Flows lvOrd (b, i)) (hend : g.at? (b, i) = none)
      (hb' : b' ∈ g.successors b) : Flows lvOrd (b', 0)

/-- What flows from a variable was stored to it. -/
theorem Flows.exists_store {g : Graph} {lvOrd : ℕ} {p : Point} (h : g.Flows lvOrd p) :
    ∃ q e, g.at? q = some (.setLocal e lvOrd) := by
  induction h with
  | store h => exact ⟨_, _, h⟩
  | pass _ _ _ ih => exact ih
  | jump _ _ _ ih => exact ih

/-- What the passes before have set up: how stores are made, that values known to be unboxed are
predicted so, and that a store that flows to a load has the same variable. -/
structure Established (types : TypeList) (prediction : Value → TypeMaskTy) : Prop where
  predictions : ∀ value, Covers types.tFullTop (prediction value)
  stores : ∀ nodes ∈ g.blocks, ∀ node ∈ nodes, ∀ e lvOrd, g.node node = .setLocal e lvOrd →
    e = .initEdge e.value true ∨
      ∃ useKind, (useKind = .knownCapturedVar ∨ useKind = .knownUnboxedInt64) ∧
        e = (Edge.initEdge e.value true).setStaticallyKnownUseKind useKind ∧
        Covers types.tOpaque (prediction e.value)
  unified : ∀ lvOrd lvOrd' p, g.Flows lvOrd p → g.at? p = some (.getLocal lvOrd') →
    g.localOrd lvOrd' = g.localOrd lvOrd → lvOrd' = lvOrd

end Graph

/-! ## Masks

The bits above the useful ones are garbage and the opaque values. -/

namespace TypeList

variable {types : TypeList} {i : ℕ}

/-- The useful bits. -/
@[simp] theorem getLsbD_tBoxedValueTop :
    types.tBoxedValueTop.getLsbD i = decide (i < types.numUsefulBits) := by
  have := types.le
  rw [tBoxedValueTop, BitVec.getLsbD_ofNat, Nat.testBit_two_pow_sub_one]
  by_cases h : i < types.numUsefulBits
  · simp [h]
    omega
  · simp [h]

@[simp] theorem getLsbD_tGarbage :
    types.tGarbage.getLsbD i = decide (i = types.numUsefulBits) := by
  have := types.le
  rw [tGarbage, BitVec.getLsbD_twoPow, Bool.and_eq_decide]
  simp only [decide_eq_decide]
  simp
  omega

@[simp] theorem getLsbD_tOpaque :
    types.tOpaque.getLsbD i = decide (i = types.numUsefulBits + 1) := by
  have := types.le
  rw [tOpaque, BitVec.getLsbD_twoPow, Bool.and_eq_decide]
  simp only [decide_eq_decide]
  simp
  omega

/-- The one bit of `nil`. -/
@[simp] theorem getLsbD_tNil : types.tNil.getLsbD i = decide (i = types.nilOrd) := by
  have := types.le
  have := types.nil_lt
  rw [tNil, BitVec.getLsbD_twoPow, Bool.and_eq_decide]
  simp only [decide_eq_decide]
  simp
  omega

/-- A mask meets the opaque values in their bit. -/
theorem overlaps_tOpaque {mask : TypeMaskTy} :
    mask &&& types.tOpaque ≠ 0 ↔ mask.getLsbD (types.numUsefulBits + 1) = true := by
  have := types.le
  rw [and_ne_zero_iff]
  constructor
  · rintro ⟨i, -, hmask, hi⟩
    obtain rfl : i = types.numUsefulBits + 1 := by simpa using hi
    exact hmask
  · exact fun h => ⟨_, by omega, h, by simp⟩

/-- A mask meets garbage in its bit. -/
theorem overlaps_tGarbage {mask : TypeMaskTy} :
    mask &&& types.tGarbage ≠ 0 ↔ mask.getLsbD types.numUsefulBits = true := by
  have := types.le
  rw [and_ne_zero_iff]
  constructor
  · rintro ⟨i, -, hmask, hi⟩
    obtain rfl : i = types.numUsefulBits := by simpa using hi
    exact hmask
  · exact fun h => ⟨_, by omega, h, by simp⟩

/-- A bit of the compiled mask is a bit of the mask, or `nil` in place of garbage. -/
theorem of_getLsbD_compiled {mask : TypeMaskTy} (h : (types.compiled mask).getLsbD i = true) :
    mask.getLsbD i = true ∧ i ≠ types.numUsefulBits ∨
      i = types.nilOrd ∧ mask.getLsbD types.numUsefulBits = true := by
  rw [compiled] at h
  split_ifs at h with hover
  · have hgarbage := overlaps_tGarbage.mp hover
    simp only [BitVec.getLsbD_or, BitVec.getLsbD_and, BitVec.getLsbD_not, getLsbD_tGarbage,
      getLsbD_tNil, Bool.or_eq_true, Bool.and_eq_true, Bool.not_eq_true', decide_eq_true_eq,
      decide_eq_false_iff_not] at h
    rcases h with ⟨hmask, -, hne⟩ | hnil
    · exact .inl ⟨hmask, hne⟩
    · exact .inr ⟨hnil, hgarbage⟩
  · refine .inl ⟨h, ?_⟩
    rintro rfl
    exact hover (overlaps_tGarbage.mpr h)

theorem getLsbD_of_tFullTop {mask : TypeMaskTy} (h : Covers types.tFullTop mask)
    (hi : mask.getLsbD i = true) : i ≤ types.numUsefulBits + 1 := by
  have h32 : i < 32 := BitVec.lt_of_getLsbD hi
  have := covers_iff.mp h i h32 hi
  simp only [tFullTop, BitVec.getLsbD_or, getLsbD_tBoxedValueTop, getLsbD_tGarbage,
    getLsbD_tOpaque, Bool.or_eq_true, decide_eq_true_eq] at this
  omega

end TypeList

/-! ## One store

The use kind that the pass finds for a store accepts what the prediction says. -/

section Store

variable {types : TypeList} {automata : Automata} {prediction : Value → TypeMaskTy} {e : Edge}
  {mask : TypeMaskTy}

/-- The use kind of a store whose variable has a mask. -/
def chosen (types : TypeList) (automata : Automata) (prediction : Value → TypeMaskTy) (e : Edge)
    (mask : TypeMaskTy) : UseKind :=
  match (speculate types automata prediction e).2 with
  | some specOrd => automata.getCheapestSpecWithinMaskCoveringExistingSpec specOrd mask
  | none => e.useKind

/-- The check lets through what is predicted, and what it lets through is in the mask. -/
structure Fits (types : TypeList) (automata : Automata) (predicted mask : TypeMaskTy)
    (useKind : UseKind) : Prop where
  admits : Covers (accepts types automata useKind) (types.compiled predicted)
  within : Covers mask (accepts types automata useKind &&& ~~~types.tGarbage)

/-- A value that is known to be unboxed. -/
theorem fits_known {predicted : TypeMaskTy} (hpred : Covers types.tOpaque predicted)
    (hmask : Covers mask types.tOpaque) {useKind : UseKind}
    (hkind : useKind = .knownCapturedVar ∨ useKind = .knownUnboxedInt64) :
    Fits types automata predicted mask useKind := by
  have haccepts : accepts types automata useKind = types.tOpaque := by
    rcases hkind with rfl | rfl <;> rfl
  have hnone : ¬ predicted.getLsbD types.numUsefulBits = true := by
    intro h
    have := covers_iff.mp hpred _ (BitVec.lt_of_getLsbD h) h
    simp at this
  constructor
  case admits =>
    refine haccepts ▸ covers_iff.mpr fun i hi h => ?_
    rcases TypeList.of_getLsbD_compiled h with ⟨h, -⟩ | ⟨-, h⟩
    · exact covers_iff.mp hpred i hi h
    · exact absurd h hnone
  case within =>
    refine haccepts ▸ covers_iff.mpr fun i hi h => covers_iff.mp hmask i hi ?_
    rw [BitVec.getLsbD_and, Bool.and_eq_true] at h
    exact h.1

/-- A value that may be no boxed value: nothing is checked, and the variable may hold anything. -/
theorem fits_fullTop {predicted : TypeMaskTy} (hpred : Covers types.tFullTop predicted)
    (hmask : Covers mask (predicted ||| types.tBoxedValueTop))
    (hlive : predicted &&& types.tOpaque ≠ 0) :
    Fits types automata predicted mask .fullTop := by
  have hbits := covers_or.mp hmask
  constructor
  case admits =>
    refine covers_iff.mpr fun i hi h => ?_
    rcases TypeList.of_getLsbD_compiled h with ⟨h, -⟩ | ⟨rfl, -⟩
    · exact covers_iff.mp hpred i hi h
    · simp [accepts, TypeList.tFullTop, types.nil_lt]
  case within =>
    refine covers_iff.mpr fun i hi h => ?_
    simp only [accepts, TypeList.tFullTop, BitVec.getLsbD_and, BitVec.getLsbD_or,
      BitVec.getLsbD_not, TypeList.getLsbD_tBoxedValueTop, TypeList.getLsbD_tGarbage,
      TypeList.getLsbD_tOpaque, Bool.and_eq_true, Bool.or_eq_true, decide_eq_true_eq] at h
    rcases h.1 with (hboxed | rfl) | rfl
    · exact covers_iff.mp hbits.2 i hi (by simpa using hboxed)
    · simp at h
    · exact covers_iff.mp hbits.1 _ hi (TypeList.overlaps_tOpaque.mp hlive)

/-- A boxed value: the check is picked by the automaton. -/
theorem fits_cheapest (hspec : automata.Spec types) {predicted query : TypeMaskTy} {specOrd : ℕ}
    (hquery : Covers query (types.compiled predicted))
    (hcovers : Covers (automata.getTypeMaskFromOrd specOrd) query)
    (hmask : Covers mask (automata.getTypeMaskFromOrd specOrd)) :
    Fits types automata predicted mask
      (automata.getCheapestSpecWithinMaskCoveringExistingSpec specOrd mask) where
  admits := (hspec.cheapest_covers specOrd mask hmask).trans (hcovers.trans hquery)
  within := (hspec.cheapest_within specOrd mask hmask).trans <| covers_iff.mpr fun i _ h => by
    rw [BitVec.getLsbD_and, Bool.and_eq_true] at h
    exact h.1

/-- The query for the check of a boxed value has all that is predicted. -/
theorem covers_query {predicted : TypeMaskTy} (hpred : Covers types.tFullTop predicted)
    (hlive : ¬ predicted &&& types.tOpaque ≠ 0) :
    Covers (if predicted &&& types.tGarbage ≠ 0
        then predicted &&& types.tBoxedValueTop ||| types.tNil
        else predicted &&& types.tBoxedValueTop) (types.compiled predicted) := by
  refine covers_iff.mpr fun i hi h => ?_
  rcases TypeList.of_getLsbD_compiled h with ⟨h, hne⟩ | ⟨rfl, hgarbage⟩
  · have hle := TypeList.getLsbD_of_tFullTop hpred h
    have hno : i ≠ types.numUsefulBits + 1 := by
      rintro rfl
      exact hlive (TypeList.overlaps_tOpaque.mpr h)
    have hlt : i < types.numUsefulBits := by omega
    split_ifs <;> simp [h, hlt]
  · rw [if_pos (TypeList.overlaps_tGarbage.mpr hgarbage)]
    simp

/-- The query for the check of a boxed value asks for boxed values. -/
theorem query_boxed (predicted : TypeMaskTy) :
    Covers types.tBoxedValueTop (if predicted &&& types.tGarbage ≠ 0
        then predicted &&& types.tBoxedValueTop ||| types.tNil
        else predicted &&& types.tBoxedValueTop) := by
  have hnil := types.nil_lt
  refine covers_iff.mpr fun i hi h => ?_
  split_ifs at h
  all_goals
    simp at h ⊢
    omega

/-- **The check of a store fits**, whatever else its variable may hold. -/
theorem fits_chosen (hspec : automata.Spec types)
    (hpred : Covers types.tFullTop (prediction e.value))
    (he : e = .initEdge e.value true ∨
      ∃ useKind, (useKind = .knownCapturedVar ∨ useKind = .knownUnboxedInt64) ∧
        e = (Edge.initEdge e.value true).setStaticallyKnownUseKind useKind ∧
        Covers types.tOpaque (prediction e.value))
    (hmask : Covers mask (speculate types automata prediction e).1) :
    Fits types automata (prediction e.value) mask
      (chosen types automata prediction e mask) := by
  rcases he with he | ⟨useKind, hkind, he, hlive⟩
  · have hproven : e.isStaticallyProven = false := by rw [he]; rfl
    have hmaybe : e.maybeInvalidBoxedValue = true := by rw [he]; rfl
    have hkind : e.useKind = .fullTop := by rw [he]; rfl
    rw [chosen]
    simp only [speculate, hproven, hmaybe, Bool.false_eq_true, if_false, Bool.not_true] at hmask ⊢
    by_cases hlive : prediction e.value &&& types.tOpaque ≠ 0
    · simp only [hlive, ne_eq, not_false_eq_true, if_true] at hmask ⊢
      rw [hkind]
      exact fits_fullTop hpred hmask hlive
    · simp only [hlive, if_false] at hmask ⊢
      exact fits_cheapest hspec (covers_query hpred hlive)
        (hspec.minimal_covers _ (query_boxed _)) hmask
  · have hproven : e.isStaticallyProven = true := by rw [he]; rfl
    have hkind' : e.useKind = useKind := by rw [he]; rfl
    rw [chosen]
    simp only [speculate, hproven, if_true] at hmask ⊢
    exact hkind' ▸ fits_known hlive hmask hkind

end Store

/-! ## All stores -/

section Graph

variable {types : TypeList} {automata : Automata} {prediction : Value → TypeMaskTy} {g : Graph}

/-- The store of a node that is to get a check, if it is one. -/
def pending (types : TypeList) (automata : Automata) (prediction : Value → TypeMaskTy) (g : Graph)
    (node : ℕ) : List (ℕ × ℕ) :=
  match g.node node with
  | .setLocal e _ => ((speculate types automata prediction e).2.map (node, ·)).toList
  | _ => []

/-- A node adds at most one store to check. -/
theorem processNode_setLocals (s : State) (node : ℕ) :
    (processNode types automata prediction g s node).setLocals
      = s.setLocals ++ pending types automata prediction g node := by
  rw [processNode, pending]
  cases g.node node with
  | setLocal e lvOrd => rfl
  | getLocal lvOrd => rw [List.append_nil]
  | other => rw [List.append_nil]

/-- Masks only grow. -/
theorem processNode_covers (s : State) (node lvOrd : ℕ) :
    Covers ((processNode types automata prediction g s node).speculationMask lvOrd)
      (s.speculationMask lvOrd) := by
  rw [processNode]
  cases g.node node with
  | setLocal e lvOrd' =>
      by_cases h : lvOrd = lvOrd'
      · subst h
        simp only [Function.update_self]
        exact (covers_or.mp (Covers.refl _)).1
      · simp only [Function.update_of_ne h]
        exact Covers.refl _
  | getLocal lvOrd' => exact Covers.refl _
  | other => exact Covers.refl _

/-- What the loop over the nodes has collected. -/
theorem foldl_processNode (nodes : List ℕ) (s : State) :
    (nodes.foldl (processNode types automata prediction g) s).setLocals
        = s.setLocals ++ nodes.flatMap (pending types automata prediction g) ∧
      (∀ lvOrd, Covers
        ((nodes.foldl (processNode types automata prediction g) s).speculationMask lvOrd)
        (s.speculationMask lvOrd)) ∧
      ∀ node ∈ nodes, ∀ e lvOrd, g.node node = .setLocal e lvOrd → Covers
        ((nodes.foldl (processNode types automata prediction g) s).speculationMask lvOrd)
        (speculate types automata prediction e).1 := by
  induction nodes generalizing s with
  | nil => exact ⟨by simp, fun _ => Covers.refl _, by simp⟩
  | cons first nodes ih =>
      obtain ⟨hset, hmono, hadded⟩ := ih (processNode types automata prediction g s first)
      refine ⟨?_, fun lvOrd => (hmono lvOrd).trans (processNode_covers s first lvOrd), ?_⟩
      · rw [List.foldl_cons, hset, processNode_setLocals, List.flatMap_cons, List.append_assoc]
      · intro node hnode e lvOrd hstore
        rcases List.mem_cons.mp hnode with rfl | hnode
        · refine (hmono lvOrd).trans ?_
          simp only [processNode, hstore, Function.update_self]
          exact (covers_or.mp (Covers.refl _)).2
        · exact hadded node hnode e lvOrd hstore

/-- The two loops are one over all the nodes. -/
theorem processNodes_eq : processNodes types automata prediction g
    = g.blocks.flatten.foldl (processNode types automata prediction g) ⟨fun _ => 0, []⟩ :=
  List.foldl_flatten.symm

/-- Updates of which all those at one place write the same. -/
theorem foldl_update_eq {α : Type*} {write : ℕ → ℕ → α} {k : ℕ} {v : α} {u : ℕ → α} :
    ∀ {l : List (ℕ × ℕ)}, (∀ x ∈ l, x.1 = k → write x.1 x.2 = v) → (u k = v ∨ ∃ x ∈ l, x.1 = k) →
      l.foldl (fun u x => Function.update u x.1 (write x.1 x.2)) u k = v
  | [], _, h => h.resolve_right (by simp)
  | x :: l, hall, h => by
      have hrest : ∀ y ∈ l, y.1 = k → write y.1 y.2 = v := fun y hy => hall y (.tail _ hy)
      rw [List.foldl_cons]
      refine foldl_update_eq hrest ?_
      by_cases hx : x.1 = k
      · exact .inl (by rw [hx, Function.update_self]; exact hx ▸ hall x (.head _) hx)
      · rcases h with h | ⟨y, hy, hyk⟩
        · exact .inl ((Function.update_of_ne (Ne.symm hx) ..).trans h)
        · rcases List.mem_cons.mp hy with rfl | hy
          · exact absurd hyk hx
          · exact .inr ⟨y, hy, hyk⟩

/-- A store is pending if the speculation gives it a use kind. -/
theorem mem_pending {node : ℕ} {x : ℕ × ℕ} :
    x ∈ pending types automata prediction g node ↔ x.1 = node ∧ ∃ e lvOrd,
      g.node node = .setLocal e lvOrd ∧ (speculate types automata prediction e).2 = some x.2 := by
  obtain ⟨k, specOrd⟩ := x
  rw [pending]
  cases g.node node with
  | setLocal e lvOrd => simp [Option.mem_toList, eq_comm, and_comm]
  | getLocal lvOrd => simp
  | other => simp

/-- **The use kind of a store** after the pass. -/
theorem useKind_eq {node lvOrd : ℕ} {e : Edge} (hmem : node ∈ g.blocks.flatten)
    (hnode : g.node node = .setLocal e lvOrd) :
    useKind types automata prediction g node = chosen types automata prediction e
      (speculationMask types automata prediction g lvOrd) := by
  have hset : (processNodes types automata prediction g).setLocals
      = g.blocks.flatten.flatMap (pending types automata prediction g) := by
    rw [processNodes_eq, (foldl_processNode _ _).1, List.nil_append]
  rw [useKind, hset]
  refine foldl_update_eq (fun x hx hxnode => ?_) ?_
  · obtain ⟨node', -, hx⟩ := List.mem_flatMap.mp hx
    obtain ⟨hfst, e', lvOrd', hnode', hord⟩ := mem_pending.mp hx
    obtain rfl : node' = node := hfst.symm.trans hxnode
    obtain ⟨rfl, rfl⟩ : e' = e ∧ lvOrd' = lvOrd := by simpa using hnode'.symm.trans hnode
    rw [chosen, hord, cheapest, hxnode, hnode]
  · cases hord : (speculate types automata prediction e).2 with
    | none =>
        left
        rw [chosen, hord, initialUseKind, hnode]
    | some specOrd =>
        exact .inr ⟨(node, specOrd), List.mem_flatMap.mpr
          ⟨node, hmem, mem_pending.mpr ⟨rfl, e, lvOrd, hnode, hord⟩⟩, rfl⟩

/-- **Every store fits**: its check lets through what is predicted for it, and only what is in the
mask of its variable. -/
theorem store_fits (hspec : automata.Spec types) (hg : g.Established types prediction)
    {node lvOrd : ℕ} {e : Edge} (hmem : node ∈ g.blocks.flatten)
    (hnode : g.node node = .setLocal e lvOrd) :
    Fits types automata (prediction e.value) (speculationMask types automata prediction g lvOrd)
      (useKind types automata prediction g node) := by
  obtain ⟨nodes, hnodes, hin⟩ := List.mem_flatten.mp hmem
  rw [useKind_eq hmem hnode]
  refine fits_chosen hspec (hg.predictions _) (hg.stores nodes hnodes node hin e lvOrd hnode) ?_
  rw [speculationMask, processNodes_eq]
  exact (foldl_processNode _ _).2.2 node hmem e lvOrd hnode

end Graph

/-! ## Runs

Values flow from the stores of a variable to its loads. -/

/-- Where execution is, and the type that the last store to each local let through. -/
structure Config where
  point : Point
  locals : ℕ → Option ℕ

section Run

variable (types : TypeList) (automata : Automata) (g : Graph) (useKind : ℕ → UseKind)

/-- Execution in which the checks of stores pass.  Types are the bits of masks. -/
inductive Reachable : Config → Prop
  | entry : Reachable ⟨(0, 0), fun _ => none⟩
  | store {b i node lvOrd type : ℕ} {e : Edge} {nodes : List ℕ} {locals : ℕ → Option ℕ}
      (h : Reachable ⟨(b, i), locals⟩) (hb : g.blocks[b]? = some nodes) (hi : nodes[i]? = some node)
      (hnode : g.node node = .setLocal e lvOrd) (htype : type ≠ types.numUsefulBits)
      (hcheck : (accepts types automata (useKind node)).getLsbD type = true) :
      Reachable ⟨(b, i + 1), Function.update locals (g.localOrd lvOrd) (some type)⟩
  | other {b i : ℕ} {node : Node} {locals : ℕ → Option ℕ} (h : Reachable ⟨(b, i), locals⟩)
      (hnode : g.at? (b, i) = some node) (hother : ∀ e lvOrd, node ≠ .setLocal e lvOrd) :
      Reachable ⟨(b, i + 1), locals⟩
  | jump {b i b' : ℕ} {locals : ℕ → Option ℕ} (h : Reachable ⟨(b, i), locals⟩)
      (hend : g.at? (b, i) = none) (hb' : b' ∈ g.successors b) : Reachable ⟨(b', 0), locals⟩

end Run

section Sound

variable {types : TypeList} {automata : Automata} {prediction : Value → TypeMaskTy} {g : Graph}

/-- What a local holds comes from a store that flows here, and is in the mask of its variable. -/
theorem Reachable.flows (hspec : automata.Spec types) (hg : g.Established types prediction)
    {c : Config} (h : Reachable types automata g (useKind types automata prediction g) c) :
    ∀ r type, c.locals r = some type → ∃ lvOrd, g.localOrd lvOrd = r ∧ g.Flows lvOrd c.point ∧
      (speculationMask types automata prediction g lvOrd).getLsbD type = true := by
  induction h with
  | entry => exact fun r type hr => nomatch hr
  | @store b i node lvOrd type e nodes locals _ hb hi hnode htype hcheck ih =>
      intro r type' hr
      have hat : g.at? (b, i) = some (.setLocal e lvOrd) := by simp [Graph.at?, hb, hi, hnode]
      have hmem : node ∈ g.blocks.flatten :=
        List.mem_flatten.mpr ⟨nodes, List.mem_of_getElem? hb, List.mem_of_getElem? hi⟩
      by_cases hreg : r = g.localOrd lvOrd
      · subst hreg
        obtain rfl : type = type' := by simpa using hr
        refine ⟨lvOrd, rfl, .store hat, ?_⟩
        have hwithin := (store_fits hspec hg hmem hnode).within
        refine covers_iff.mp hwithin _ (BitVec.lt_of_getLsbD hcheck) ?_
        rw [BitVec.getLsbD_and, BitVec.getLsbD_not, hcheck, TypeList.getLsbD_tGarbage]
        simp [htype, BitVec.lt_of_getLsbD hcheck]
      · have hold := (Function.update_of_ne hreg ..).symm.trans hr
        obtain ⟨lvOrd', rfl, hflows, hin⟩ := ih r type' hold
        refine ⟨lvOrd', rfl, .pass hflows hat fun e' lvOrd'' heq => ?_, hin⟩
        obtain ⟨-, rfl⟩ : e = e' ∧ lvOrd = lvOrd'' := by simpa using heq
        exact Ne.symm hreg
  | other _ hnode hother ih =>
      intro r type hr
      obtain ⟨lvOrd, hreg, hflows, hin⟩ := ih r type hr
      exact ⟨lvOrd, hreg, .pass hflows hnode fun e lvOrd' heq => absurd heq (hother e lvOrd'), hin⟩
  | jump _ hend hb' ih =>
      intro r type hr
      obtain ⟨lvOrd, hreg, hflows, hin⟩ := ih r type hr
      exact ⟨lvOrd, hreg, .jump hflows hend hb', hin⟩

/-- **Speculation on locals is sound**: the check of every store lets through all that is predicted
and only types of its variable, and on every execution whose checks passed a load finds a value of a
type that its variable is known to have. -/
theorem speculation_sound (hspec : automata.Spec types) (hg : g.Established types prediction) :
    (∀ nodes ∈ g.blocks, ∀ node ∈ nodes, ∀ e lvOrd, g.node node = .setLocal e lvOrd →
      Fits types automata (prediction e.value) (speculationMask types automata prediction g lvOrd)
        (useKind types automata prediction g node)) ∧
    ∀ c, Reachable types automata g (useKind types automata prediction g) c →
      ∀ lvOrd type, g.at? c.point = some (.getLocal lvOrd) →
        c.locals (g.localOrd lvOrd) = some type →
        (speculationMask types automata prediction g lvOrd).getLsbD type = true := by
  refine ⟨fun nodes hnodes node hin e lvOrd hnode =>
    store_fits hspec hg (List.mem_flatten.mpr ⟨nodes, hnodes, hin⟩) hnode, ?_⟩
  intro c hc lvOrd type hat htype
  obtain ⟨lvOrd', hreg, hflows, hin⟩ := hc.flows hspec hg _ type htype
  rwa [hg.unified lvOrd' lvOrd c.point hflows hat hreg.symm]

end Sound

/-! ## A store and a load -/

/-- Three types of boxed values. -/
def threeTypes : TypeList := ⟨3, 0, by decide, by decide⟩

/-- Every mask has a check. -/
def exactAutomata : Automata where
  getTypeMaskFromOrd := BitVec.ofNat 32
  getMinimalSpeculationCoveringPredictionMask := BitVec.toNat
  getCheapestSpecWithinMaskCoveringExistingSpec specOrd _ := .check specOrd

/-- The automata of the example answer as they should. -/
theorem exactAutomata_spec : exactAutomata.Spec threeTypes where
  minimal_covers mask _ := by simp [exactAutomata]
  cheapest_covers _ _ _ := Covers.refl _
  cheapest_within _ _ h := h

/-- The predictions that one store writes and one load reads. -/
def storeAndLoad : Graph where
  blocks := [[0, 1]]
  node
    | 0 => .setLocal (.initEdge (7, 0) true) 5
    | 1 => .getLocal 5
    | _ => .other
  successors _ := []
  localOrd _ := 2

theorem storeAndLoad_node (node : ℕ) :
    (∀ e lvOrd, storeAndLoad.node node = .setLocal e lvOrd →
      e = .initEdge (7, 0) true ∧ lvOrd = 5) ∧
    ∀ lvOrd, storeAndLoad.node node = .getLocal lvOrd → lvOrd = 5 := by
  match node with
  | 0 => simp [storeAndLoad, eq_comm]
  | 1 => simp [storeAndLoad, eq_comm]
  | _ + 2 => simp [storeAndLoad]

theorem storeAndLoad_established : storeAndLoad.Established threeTypes fun _ => 0b110 where
  predictions _ := by decide
  stores nodes _ node _ e lvOrd hnode := by
    obtain ⟨rfl, -⟩ := (storeAndLoad_node node).1 e lvOrd hnode
    exact .inl rfl
  unified lvOrd lvOrd' p hflows hat _ := by
    obtain ⟨q, e, hq⟩ := hflows.exists_store
    obtain ⟨node, -, hnode⟩ := Option.map_eq_some_iff.mp hq
    obtain ⟨node', -, hnode'⟩ := Option.map_eq_some_iff.mp hat
    rw [((storeAndLoad_node node).1 e lvOrd hnode).2, (storeAndLoad_node node').2 lvOrd' hnode']

theorem speculation_sound_storeAndLoad :
    (speculationMask threeTypes exactAutomata (fun _ => 0b110) storeAndLoad 5).getLsbD 2 = true :=
  (speculation_sound exactAutomata_spec storeAndLoad_established).2
    ⟨(0, 1), Function.update (fun _ => none) 2 (some 2)⟩
    (.store .entry rfl rfl rfl (by decide) (by decide)) 5 2 rfl rfl

end Speculation

end Dsom
