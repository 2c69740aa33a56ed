import Dsom.Foundations.Orbit
import Dsom.Foundations.TwoStacks
import Dsom.Graph.Search

/-!
# Graph/SharedBuffer — the finder on its buffer

`StronglyConnectedComponentsFinder` as it runs: its two stacks lie in one allocation of `numNodes +
1` iterators, the iterators of the search path from the beginning up, the finished nodes from the
last iterator down, four bytes each, and that last one holds a sentry.  Addresses count from
`m_vfBase`. `RunImpl` is a machine whose states are those at the labels and in the loop over the
entry nodes.

`stretch_represents` is the refinement of the finder with two lists.  The stacks never meet, since
no node is on both (`runImpl_correct`).
-/

namespace Dsom

namespace Scc

/-- `StronglyConnectedComponentsFinder`. -/
structure BufferedFinder where
  rindexComposite : ℕ → ℕ
  index : ℕ
  componentIndex : ℕ
  buffer : Buffer ((ℕ × List ℕ) ⊕ ℕ)
  /-- the address of `m_vfTop + 1` -/
  vfEnd : ℕ
  /-- the address `m_vbTop` -/
  vbTop : ℕ

namespace BufferedFinder

variable (iterSize numNodes : ℕ) (edges : ℕ → List ℕ)

/-- `PushVfTop`. -/
def pushVfTop (s : BufferedFinder) (nodeOrd : ℕ) : Option BufferedFinder := do
  let buffer ← s.buffer.write s.vfEnd iterSize (.inl (nodeOrd, edges nodeOrd))
  return { s with buffer := buffer, vfEnd := s.vfEnd + iterSize }

/-- `VfTop`, of a stack that is not empty. -/
def vfTop (s : BufferedFinder) : Option (ℕ × List ℕ) :=
  if s.vfEnd = 0 then none
  else (s.buffer.read (s.vfEnd - iterSize) iterSize).bind Sum.getLeft?

/-- `Advance` of the iterator on top. -/
def advance (s : BufferedFinder) (nodeOrd : ℕ) (rest : List ℕ) : Option BufferedFinder := do
  let buffer ← s.buffer.write (s.vfEnd - iterSize) iterSize (.inl (nodeOrd, rest))
  return { s with buffer := buffer }

/-- `PopVfTop`. -/
def popVfTop (s : BufferedFinder) : BufferedFinder := { s with vfEnd := s.vfEnd - iterSize }

/-- `PushVb`. -/
def pushVb (s : BufferedFinder) (value : ℕ) : Option BufferedFinder := do
  guard (4 ≤ s.vbTop)
  let buffer ← s.buffer.write (s.vbTop - 4) 4 (.inr value)
  return { s with buffer := buffer, vbTop := s.vbTop - 4 }

/-- `VbTop`, which may be the sentry. -/
def readVbTop (s : BufferedFinder) : Option ℕ := (s.buffer.read s.vbTop 4).bind Sum.getRight?

/-- `*m_vbBase = nodeOrd`. -/
def setSentry (s : BufferedFinder) (nodeOrd : ℕ) : Option BufferedFinder := do
  let buffer ← s.buffer.write (iterSize * numNodes) 4 (.inr nodeOrd)
  return { s with buffer := buffer }

/-- `IsRoot`. -/
def isRoot (s : BufferedFinder) (nodeOrd : ℕ) : Bool := s.rindexComposite nodeOrd % 2 = 0

/-- Where the search goes with the remaining edges of the node on top. -/
def nextLabel (s : BufferedFinder) : List ℕ → Label
  | [] => .finishedVisitingEdges
  | neighborOrd :: _ =>
      if s.rindexComposite neighborOrd = 0 then .visitNewNode neighborOrd
      else .continueIterateEdges

/-- `visit_new_node`. -/
def visitNewNode (s : BufferedFinder) (nodeOrd : ℕ) : Option (Option Label × BufferedFinder) := do
  let s ← s.pushVfTop iterSize edges nodeOrd
  let s := { s with
    rindexComposite := Function.update s.rindexComposite nodeOrd s.index
    index := s.index + 2 }
  let (_, rest) ← s.vfTop iterSize
  return (some (s.nextLabel rest), s)

/-- The mark of a node is at most that of a neighbor, as one that is no root. -/
def lower (s : BufferedFinder) (nodeOrd neighborOrd : ℕ) : BufferedFinder :=
  if s.rindexComposite neighborOrd ||| 1 < s.rindexComposite nodeOrd then
    { s with rindexComposite :=
        Function.update s.rindexComposite nodeOrd (s.rindexComposite neighborOrd ||| 1) }
  else s

/-- `continue_iterate_edges`, one iteration. -/
def continueIterateEdges (s : BufferedFinder) : Option (Option Label × BufferedFinder) := do
  match ← s.vfTop iterSize with
  | (_, []) => none
  | (nodeOrd, neighborOrd :: rest) =>
    let s ← (s.lower nodeOrd neighborOrd).advance iterSize nodeOrd rest
    return (some (s.nextLabel rest), s)

/-- The loop that pops a component; the sentry stops it. -/
def popComponent (rootIndex : ℕ) : ℕ → BufferedFinder → Option BufferedFinder
  | 0, _ => none
  | fuel + 1, s => do
    let w ← s.readVbTop
    if s.rindexComposite w ≤ rootIndex then return s
    else popComponent rootIndex fuel { s with
      rindexComposite := Function.update s.rindexComposite w s.componentIndex
      vbTop := s.vbTop + 4 }

/-- A root with the component above it. -/
def closeComponent (s : BufferedFinder) (nodeOrd : ℕ) : Option BufferedFinder := do
  let s ← s.setSentry iterSize numNodes nodeOrd
  let s ← popComponent (s.rindexComposite nodeOrd) (numNodes + 1) s
  return { s with
    rindexComposite := Function.update s.rindexComposite nodeOrd s.componentIndex
    componentIndex := s.componentIndex - 2 }

/-- The node that was on top makes a component, or goes to the other stack. -/
def leave (s : BufferedFinder) (nodeOrd : ℕ) : Option BufferedFinder :=
  if s.isRoot nodeOrd then s.closeComponent iterSize numNodes nodeOrd else s.pushVb nodeOrd

/-- `finished_visiting_edges`. -/
def finishedVisitingEdges (s : BufferedFinder) : Option (Option Label × BufferedFinder) := do
  let (nodeOrd, _) ← s.vfTop iterSize
  let s ← (s.popVfTop iterSize).leave iterSize numNodes nodeOrd
  return (if s.vfEnd = 0 then none else some .continueIterateEdges, s)

/-- One stretch of `FindSccFromNode` from a label to the next; no label is the return. -/
def stretch (s : BufferedFinder) : Label → Option (Option Label × BufferedFinder)
  | .visitNewNode nodeOrd => s.visitNewNode iterSize edges nodeOrd
  | .continueIterateEdges => s.continueIterateEdges iterSize
  | .finishedVisitingEdges => s.finishedVisitingEdges iterSize numNodes

end BufferedFinder

/-! ## `RunImpl` -/

section RunImpl

variable (iterSize numNodes : ℕ) (edges : ℕ → List ℕ) (entryNodeOnly : Bool)

/-- Where `RunImpl` is. -/
inductive Control where
  | search (entryNode : ℕ) (label : Label)
  | nextEntry (entryNode : ℕ)
  | finished
  deriving DecidableEq

/-- One step of `RunImpl`. -/
def runStep : Control × BufferedFinder → Option (Control × BufferedFinder)
  | (.search entryNode label, s) => do
    match ← s.stretch iterSize numNodes edges label with
    | (some label, s) => return (.search entryNode label, s)
    | (none, s) => return (if entryNodeOnly then .finished else .nextEntry entryNode, s)
  | (.nextEntry entryNode, s) =>
    if entryNode + 1 = numNodes then some (.finished, s)
    else if s.rindexComposite (entryNode + 1) = 0 then
      some (.search (entryNode + 1) (.visitNewNode (entryNode + 1)), s)
    else some (.nextEntry (entryNode + 1), s)
  | (.finished, _) => none

/-- The finder before the search; nothing has been written to the buffer. -/
def initialBuffered : BufferedFinder where
  rindexComposite := fun _ => 0
  index := 2
  componentIndex := 4 * numNodes - 1
  buffer := ⟨iterSize * (numNodes + 1), fun _ => none⟩
  vfEnd := 0
  vbTop := iterSize * numNodes

/-- The states of `RunImpl` from `entryNode` on, as far as `k` of them. -/
def runImpl (entryNode k : ℕ) : List (Control × BufferedFinder) :=
  orbit (runStep iterSize numNodes edges entryNodeOnly) k
    (.search entryNode (.visitNewNode entryNode), initialBuffered iterSize numNodes)

/-- `FinishComputation`. -/
def BufferedFinder.finishComputation (s : BufferedFinder) : ℕ × (ℕ → ℕ) :=
  ((4 * numNodes - s.componentIndex) / 2,
    fun nodeOrd => (4 * numNodes - s.rindexComposite nodeOrd) / 2)

end RunImpl

/-! ## Refinement of the finder with two lists

One buffer holds both stacks, which grow toward each other and never meet. -/

/-- The buffer holds the stacks of the finder, and everything else is the same. -/
structure Represents (iterSize n : ℕ) (b : BufferedFinder) (s : Finder) : Prop where
  marks : b.rindexComposite = s.rindexComposite
  index : b.index = s.index
  comp : b.componentIndex = s.componentIndex
  size : b.buffer.size = iterSize * (n + 1)
  vfEnd : b.vfEnd = iterSize * s.vf.length
  vbTop : b.vbTop = iterSize * n - 4 * s.vb.length
  holds : TwoStacks b.buffer iterSize 4 (iterSize * n) s.vf s.vb

/-- The stacks of the finder have room in the buffer. -/
def Fits (iterSize n : ℕ) (s : Finder) : Prop :=
  iterSize * s.vf.length + 4 * s.vb.length ≤ iterSize * n

section Refinement

variable {iterSize n : ℕ} {edges : ℕ → List ℕ} {b : BufferedFinder} {s : Finder} {u v w : ℕ}
  {rest : List ℕ} {vf : List (ℕ × List ℕ)} {f : ℕ × List ℕ}

/-- The next label is the same. -/
theorem Represents.nextLabel (h : Represents iterSize n b s) (rest : List ℕ) :
    b.nextLabel rest = s.nextLabel rest := by
  cases rest with
  | nil => rfl
  | cons w rest => rw [BufferedFinder.nextLabel, Finder.nextLabel, h.marks]

/-- The top of the path is read back. -/
theorem Represents.vfTop (h : Represents iterSize n b s) (hiter : 4 ≤ iterSize)
    (hvf : s.vf = f :: vf) : b.vfTop iterSize = some f := by
  have hend := h.vfEnd
  rw [hvf, List.length_cons, Nat.mul_add_one] at hend
  have hread := TwoStacks.read_up (hvf ▸ h.holds) (by omega)
  rw [BufferedFinder.vfTop, if_neg (by omega), hend, Nat.add_sub_cancel, hread]
  rfl

theorem Represents.visit (h : Represents iterSize n b s) (hiter : 4 ≤ iterSize)
    (hfits : Fits iterSize n (s.enter edges v)) :
    ∃ b', b.visitNewNode iterSize edges v =
        some (some ((s.enter edges v).nextLabel (edges v)), b') ∧
      Represents iterSize n b' (s.enter edges v) := by
  have hroom := hfits
  rw [Fits, Finder.enter, List.length_cons, Nat.mul_add_one, ← h.vfEnd] at hroom
  have hsize := h.size
  rw [Nat.mul_add_one] at hsize
  obtain ⟨buffer, hw⟩ := b.buffer.write_eq_some (.inl (v, edges v))
    (show b.vfEnd + iterSize ≤ b.buffer.size by omega)
  set b' : BufferedFinder := { b with
    rindexComposite := Function.update b.rindexComposite v b.index
    index := b.index + 2
    buffer := buffer
    vfEnd := b.vfEnd + iterSize } with hb'
  have hrep : Represents iterSize n b' (s.enter edges v) := {
    marks := by rw [Finder.enter, ← h.marks, ← h.index]
    index := by rw [Finder.enter, ← h.index]
    comp := h.comp
    size := (Buffer.size_write hw).trans h.size
    vfEnd := by rw [Finder.enter, List.length_cons, Nat.mul_add_one, ← h.vfEnd]
    vbTop := h.vbTop
    holds := h.holds.pushUp hfits (h.vfEnd ▸ hw) }
  refine ⟨b', ?_, hrep⟩
  rw [← hrep.nextLabel]
  have htop : b'.vfTop iterSize = some (v, edges v) := hrep.vfTop hiter rfl
  rw [BufferedFinder.visitNewNode, BufferedFinder.pushVfTop, hw]
  change (b'.vfTop iterSize >>= _) = _
  rw [htop]
  rfl

theorem Represents.lower (h : Represents iterSize n b s) (rest : List ℕ) (vf : List (ℕ × List ℕ)) :
    b.lower u w = { b with rindexComposite := (s.examine u w rest vf).rindexComposite } := by
  rw [BufferedFinder.lower, Finder.examine, ← h.marks]
  split_ifs <;> rfl

theorem Represents.continue (h : Represents iterSize n b s) (hiter : 4 ≤ iterSize)
    (hvf : s.vf = (u, w :: rest) :: vf) :
    ∃ b', b.continueIterateEdges iterSize =
        some (some ((s.examine u w rest vf).nextLabel rest), b') ∧
      Represents iterSize n b' (s.examine u w rest vf) := by
  have hend := h.vfEnd
  rw [hvf, List.length_cons, Nat.mul_add_one] at hend
  have haddr : b.vfEnd - iterSize = iterSize * vf.length := by omega
  have hholds := h.holds
  rw [hvf] at hholds
  have hroom := hholds.fits
  rw [List.length_cons, Nat.mul_add_one, ← hend] at hroom
  have hsize := h.size
  rw [Nat.mul_add_one] at hsize
  obtain ⟨buffer, hw⟩ := b.buffer.write_eq_some (.inl (u, rest))
    (show b.vfEnd - iterSize + iterSize ≤ b.buffer.size by omega)
  set b' : BufferedFinder := { b with
    rindexComposite := (s.examine u w rest vf).rindexComposite
    buffer := buffer } with hb'
  have hrep : Represents iterSize n b' (s.examine u w rest vf) := {
    marks := rfl
    index := h.index
    comp := h.comp
    size := (Buffer.size_write hw).trans h.size
    vfEnd := by
      show b.vfEnd = iterSize * (vf.length + 1)
      rw [hend, Nat.mul_add_one]
    vbTop := h.vbTop
    holds := hholds.setUp (haddr ▸ hw) }
  refine ⟨b', ?_, hrep⟩
  rw [← hrep.nextLabel, BufferedFinder.continueIterateEdges, h.vfTop hiter hvf]
  change ((b.lower u w).advance iterSize u rest >>= _) = _
  rw [h.lower rest vf, BufferedFinder.advance]
  change ((b.buffer.write (b.vfEnd - iterSize) iterSize (.inl (u, rest)) >>= _) >>= _) = _
  rw [hw]
  rfl

/-- **The loop that pops a component** stops at the sentry at the latest. -/
theorem popComponent_eq {base i fuel : ℕ} {vb : List ℕ} (hdown : b.buffer.Down base 4 .inr vb)
    (hsentry : b.buffer.Holds base 4 (.inr u)) (hroot : b.rindexComposite u ≤ i) (hu : u ∉ vb)
    (hfits : 4 * vb.length ≤ base) (htop : b.vbTop = base - 4 * vb.length)
    (hfuel : vb.length < fuel) :
    b.popComponent i fuel = some { b with
      rindexComposite := (popComponent i b.componentIndex vb b.rindexComposite).2
      vbTop := base - 4 * (popComponent i b.componentIndex vb b.rindexComposite).1.length } := by
  induction vb generalizing b fuel with
  | nil =>
      obtain ⟨fuel, rfl⟩ : ∃ k, fuel = k + 1 := ⟨fuel - 1, by omega⟩
      have hread : b.readVbTop = some u := by
        rw [BufferedFinder.readVbTop, htop, List.length_nil, Nat.mul_zero, Nat.sub_zero,
          hsentry.read (by decide)]
        rfl
      rw [BufferedFinder.popComponent, hread]
      change (if b.rindexComposite u ≤ i then some b else _) = _
      rw [if_pos hroot, popComponent, ← htop]
  | cons w vb ih =>
      obtain ⟨fuel, rfl⟩ : ∃ k, fuel = k + 1 := ⟨fuel - 1, by omega⟩
      have hread : b.readVbTop = some w := by
        rw [BufferedFinder.readVbTop, htop, List.length_cons, hdown.1.read (by decide)]
        rfl
      rw [List.mem_cons, not_or] at hu
      rw [List.length_cons] at hfits htop hfuel
      rw [BufferedFinder.popComponent, hread]
      change (if b.rindexComposite w ≤ i then some b else _) = _
      by_cases hle : b.rindexComposite w ≤ i
      · rw [if_pos hle, popComponent, if_pos hle, List.length_cons, ← htop]
      · rw [if_neg hle, popComponent, if_neg hle]
        refine ih hdown.2 hsentry ?_ hu.2 (by omega) (by show b.vbTop + 4 = _; omega) (by omega)
        show Function.update b.rindexComposite w _ u ≤ i
        rwa [Function.update_of_ne hu.1]

/-- Taking the top off the path. -/
theorem Represents.popVfTop (h : Represents iterSize n b s) (hvf : s.vf = f :: vf) :
    Represents iterSize n (b.popVfTop iterSize) { s with vf := vf } where
  marks := h.marks
  index := h.index
  comp := h.comp
  size := h.size
  vfEnd := by
    show b.vfEnd - iterSize = iterSize * vf.length
    rw [h.vfEnd, hvf, List.length_cons, Nat.mul_add_one, Nat.add_sub_cancel]
  vbTop := h.vbTop
  holds := TwoStacks.popUp (hvf ▸ h.holds)

/-- Pushing onto the second stack. -/
theorem Represents.pushVb (h : Represents iterSize n b s)
    (hfits : Fits iterSize n { s with vb := u :: s.vb }) :
    ∃ b', b.pushVb u = some b' ∧ Represents iterSize n b' { s with vb := u :: s.vb } := by
  have hroom : iterSize * s.vf.length + 4 * (s.vb.length + 1) ≤ iterSize * n := hfits
  have htop := h.vbTop
  have hsize := h.size
  rw [Nat.mul_add_one] at hsize
  have haddr : b.vbTop - 4 = iterSize * n - 4 * (s.vb.length + 1) := by omega
  obtain ⟨buffer, hw⟩ := b.buffer.write_eq_some (.inr u)
    (show b.vbTop - 4 + 4 ≤ b.buffer.size by omega)
  refine ⟨{ b with buffer := buffer, vbTop := b.vbTop - 4 }, ?_, ?_⟩
  · rw [BufferedFinder.pushVb, guard, if_pos (by omega)]
    change (b.buffer.write (b.vbTop - 4) 4 (.inr u) >>= _) = _
    rw [hw]
    rfl
  · exact {
      marks := h.marks
      index := h.index
      comp := h.comp
      size := (Buffer.size_write hw).trans h.size
      vfEnd := h.vfEnd
      vbTop := haddr
      holds := h.holds.pushDown hfits (haddr ▸ hw) }

/-- The finder after a root is closed. -/
def closed (s : Finder) (u : ℕ) : Finder :=
  let r := popComponent (s.rindexComposite u) s.componentIndex s.vb s.rindexComposite
  { s with
    rindexComposite := Function.update r.2 u s.componentIndex
    componentIndex := s.componentIndex - 2
    vb := r.1 }

theorem Represents.closeComponent (h : Represents iterSize n b s) (hiter : 4 ≤ iterSize)
    (hnodup : (u :: s.vb).Nodup) (hlen : s.vb.length ≤ n) :
    ∃ b', b.closeComponent iterSize n u = some b' ∧ Represents iterSize n b' (closed s u) := by
  have hsize := h.size
  rw [Nat.mul_add_one] at hsize
  obtain ⟨buffer, hw⟩ := b.buffer.write_eq_some (.inr u)
    (show iterSize * n + 4 ≤ b.buffer.size by omega)
  have hholds := h.holds.frame hw (.inl (Nat.le_refl _))
  obtain ⟨hu, hvb⟩ := List.nodup_cons.mp hnodup
  have hfits := hholds.fits
  have hpop : BufferedFinder.popComponent (b.rindexComposite u) (n + 1) { b with buffer := buffer }
      = some _ :=
    popComponent_eq hholds.holdsDown (Buffer.holds_write hw) (Nat.le_refl _) hu (by omega) h.vbTop
      (by omega)
  refine ⟨{ b with
    rindexComposite := (closed s u).rindexComposite
    componentIndex := s.componentIndex - 2
    buffer := buffer
    vbTop := iterSize * n - 4 * (closed s u).vb.length }, ?_, ?_⟩
  · rw [BufferedFinder.closeComponent, BufferedFinder.setSentry, hw]
    change (BufferedFinder.popComponent (b.rindexComposite u) (n + 1)
      { b with buffer := buffer } >>= _) = _
    rw [hpop, closed, ← h.marks, ← h.comp]
    rfl
  · obtain ⟨taken, htaken, -⟩ := popComponent_spec (s.rindexComposite u) s.componentIndex hvb
      s.rindexComposite
    exact {
      marks := rfl
      index := h.index
      comp := rfl
      size := (Buffer.size_write hw).trans h.size
      vfEnd := h.vfEnd
      vbTop := rfl
      holds := TwoStacks.dropDown taken (htaken ▸ hholds) }

/-- Leaving a root closes its component. -/
theorem leave_of_isRoot (hr : s.isRoot u = true) :
    s.leave u vf = closed { s with vf := vf } u := if_pos hr

theorem leave_vf : (s.leave u vf).vf = vf := by
  by_cases hr : s.isRoot u = true
  · rw [leave_of_isRoot hr, closed]
  · rw [leave_of_not_root hr]

theorem Represents.leave (h : Represents iterSize n b s) (hiter : 4 ≤ iterSize)
    (hvf : s.vf = (u, []) :: vf) (hnodup : (s.path ++ s.vb).Nodup) (hlen : s.vb.length ≤ n)
    (hfits : Fits iterSize n (s.leave u vf)) :
    ∃ b', b.finishedVisitingEdges iterSize n =
        some (if vf = [] then none else some .continueIterateEdges, b') ∧
      Represents iterSize n b' (s.leave u vf) := by
  have hpop := h.popVfTop hvf
  have hroot : (b.popVfTop iterSize).isRoot u = s.isRoot u := by
    rw [BufferedFinder.isRoot, hpop.marks, Finder.isRoot]
  -- both ways give a finder whose search path is `vf`
  obtain ⟨b', hleave, hrep⟩ : ∃ b', (b.popVfTop iterSize).leave iterSize n u = some b' ∧
      Represents iterSize n b' (s.leave u vf) := by
    rw [BufferedFinder.leave, hroot]
    by_cases hr : s.isRoot u = true
    · rw [if_pos hr, leave_of_isRoot hr]
      rw [path_eq_cons hvf, List.cons_append] at hnodup
      exact hpop.closeComponent hiter
        (hnodup.sublist ((List.sublist_append_right _ _).cons_cons u)) hlen
    · rw [leave_of_not_root hr] at hfits ⊢
      rw [if_neg hr]
      exact hpop.pushVb hfits
  refine ⟨b', ?_, hrep⟩
  have hend : b'.vfEnd = iterSize * vf.length := hrep.vfEnd.trans (by rw [leave_vf])
  have hempty : b'.vfEnd = 0 ↔ vf = [] := by
    rw [hend, Nat.mul_eq_zero, List.length_eq_zero_iff]
    exact or_iff_right (by omega)
  rw [BufferedFinder.finishedVisitingEdges, h.vfTop hiter hvf]
  change ((b.popVfTop iterSize).leave iterSize n u >>= _) = _
  rw [hleave]
  change some (if b'.vfEnd = 0 then none else some Label.continueIterateEdges, b') = _
  simp only [hempty]

/-- Every node is on one stack, once. -/
theorem Inv.length_le {base : ℕ} {num : ℕ → ℕ} (h : Inv n edges base num s) :
    s.vf.length + s.vb.length ≤ n := by
  have hlt : s.path ++ s.vb ⊆ List.range n := by
    intro v hv
    exact List.mem_range.mpr (h.marks.node_lt v (h.marks.mark_ne_zero (List.mem_append.mp hv)))
  have hle := (h.order.nodup.subperm hlt).length_le
  rwa [List.length_append, Finder.path, List.length_map, List.length_range] at hle

/-- **The stacks have room**: an iterator is at least as large as a node. -/
theorem fits_of_length_le (hiter : 4 ≤ iterSize) (h : s.vf.length + s.vb.length ≤ n) :
    Fits iterSize n s := by
  calc iterSize * s.vf.length + 4 * s.vb.length
      ≤ iterSize * s.vf.length + iterSize * s.vb.length :=
        Nat.add_le_add_left (Nat.mul_le_mul_right _ hiter) _
    _ = iterSize * (s.vf.length + s.vb.length) := (Nat.mul_add ..).symm
    _ ≤ iterSize * n := Nat.mul_le_mul_left _ h

/-- After a step both stacks still fit. -/
theorem Outcome.fits {base : ℕ} {r : Option Label × Finder} (h : Outcome n edges base s r)
    (hiter : 4 ≤ iterSize) : Fits iterSize n r.2 := by
  obtain ⟨_ | label, t⟩ := r
  · refine fits_of_length_le hiter ?_
    rw [h.1.vf_nil, h.1.vb_nil]
    exact Nat.zero_le _
  · obtain ⟨⟨num, hinv, -⟩, -⟩ := h
    exact fits_of_length_le hiter hinv.length_le

/-- **The finder on its buffer does what the finder with two lists does.** -/
theorem stretch_represents (hE : ∀ u < n, ∀ w ∈ edges u, w < n) (hiter : 4 ≤ iterSize) {base : ℕ}
    {num : ℕ → ℕ} {label : Label} (h : Represents iterSize n b s) (hinv : Inv n edges base num s)
    (hl : AtLabel n base num s label) :
    ∃ b', b.stretch iterSize n edges label = some ((s.step edges label).1, b') ∧
      Represents iterSize n b' (s.step edges label).2 := by
  have hfits := (step_outcome hE hinv hl).fits hiter
  cases label with
  | visitNewNode v => exact h.visit hiter hfits
  | continueIterateEdges =>
      obtain ⟨u, w, rest, vf, hvf, -⟩ := hl
      rw [step_continue hvf]
      exact h.continue hiter hvf
  | finishedVisitingEdges =>
      obtain ⟨u, vf, hvf, -⟩ := hl
      rw [step_finished hvf] at hfits ⊢
      have hlen := hinv.length_le
      exact h.leave hiter hvf hinv.order.nodup (by omega) hfits

end Refinement

/-! ## The run -/

/-- The stacks do not meet, and every number is below `4 * numNodes`; the source asserts that this
is a `uint32_t`. -/
structure InBounds (n : ℕ) (b : BufferedFinder) : Prop where
  apart : b.vfEnd ≤ b.vbTop
  mark_lt : ∀ v, b.rindexComposite v < 4 * n
  index_lt : b.index ≤ 2 * n + 2
  comp_lt : b.componentIndex < 4 * n

section Run

variable (iterSize n : ℕ) (edges : ℕ → List ℕ) (entryNodeOnly : Bool) (entryNode : ℕ)

/-- What holds at each state of `RunImpl`, with at most `m` steps to go. -/
def Good (m : ℕ) : Control × BufferedFinder → Prop
  | (.search e label, b) => ∃ s base num, Represents iterSize n b s ∧ Inv n edges base num s ∧
      AtLabel n base num s label ∧ e < n ∧
      (if entryNodeOnly then e = entryNode else ∀ v < e, s.rindexComposite v ≠ 0) ∧
      (label = .visitNewNode e ∨ s.rindexComposite e ≠ 0) ∧
      remaining n edges s + 2 * (n - e) + 1 ≤ m
  | (.nextEntry e, b) => entryNodeOnly = false ∧ ∃ s,
      Represents iterSize n b s ∧ Finished n edges s ∧ e < n ∧
      (∀ v ≤ e, s.rindexComposite v ≠ 0) ∧ remaining n edges s + 2 * (n - e) ≤ m
  | (.finished, b) => ∃ s, Represents iterSize n b s ∧ Finished n edges s ∧
      ∀ v < n, s.rindexComposite v ≠ 0

variable {iterSize n edges entryNodeOnly entryNode}
variable {b : BufferedFinder} {s : Finder} {m e : ℕ} {label : Label}

/-- Nothing is read or written outside the buffer. -/
theorem Represents.inBounds (h : Represents iterSize n b s) (hm : Marks n s) (hn : 0 < n) :
    InBounds n b where
  apart := by
    have := h.holds.fits
    have := h.vfEnd
    have := h.vbTop
    omega
  mark_lt v := by
    rw [h.marks]
    by_cases hv : 2 * n < s.rindexComposite v
    · exact (hm.assigned v hv).2.2
    · omega
  index_lt := by
    have hcard : (s.visited n).card ≤ (Finset.range n).card := Finset.card_filter_le _ _
    rw [Finset.card_range] at hcard
    rw [h.index, hm.index_eq]
    omega
  comp_lt := h.comp ▸ hm.comp_lt hn.ne'

/-- So it is in every good state. -/
theorem Good.inBounds {c : Control × BufferedFinder} (hn : 0 < n)
    (h : Good iterSize n edges entryNodeOnly entryNode m c) : InBounds n c.2 := by
  obtain ⟨_ | _ | _, b⟩ := c
  · obtain ⟨s, base, num, hrep, hinv, -⟩ := h
    exact hrep.inBounds hinv.marks hn
  · obtain ⟨-, s, hrep, hfin, -⟩ := h
    exact hrep.inBounds hfin.marks hn
  · obtain ⟨s, hrep, hfin, -⟩ := h
    exact hrep.inBounds hfin.marks hn

/-- A search starts at a node that is not seen, with both stacks empty. -/
theorem good_search (hrep : Represents iterSize n b s) (hfin : Finished n edges s) (he : e < n)
    (h0 : s.rindexComposite e = 0)
    (hbefore : if entryNodeOnly then e = entryNode else ∀ v < e, s.rindexComposite v ≠ 0)
    (hm : remaining n edges s + 2 * (n - e) + 1 ≤ m) :
    Good iterSize n edges entryNodeOnly entryNode m (.search e (.visitNewNode e), b) :=
  ⟨s, s.index, fun _ => 0, hrep, hfin.inv,
    ⟨he, h0, by simp [hfin.vf_nil], fun _ => rfl,
      fun a ha => by simp [Finder.path, hfin.vf_nil] at ha⟩,
    he, hbefore, .inl rfl, hm⟩

theorem Outcome.keeps {base : ℕ} {r : Option Label × Finder} (h : Outcome n edges base s r) :
    Keeps s r.2 := by
  obtain ⟨_ | label, t⟩ := r
  · exact h.2.2
  · exact h.2.2

/-- A stretch leaves the node that the search started from seen. -/
theorem Outcome.seen {base : ℕ} {num : ℕ → ℕ} (hinv : Inv n edges base num s)
    (h : Outcome n edges base s (s.step edges label))
    (he : label = .visitNewNode e ∨ s.rindexComposite e ≠ 0) :
    (s.step edges label).2.rindexComposite e ≠ 0 := by
  rcases he with rfl | he
  · show (s.enter edges e).rindexComposite e ≠ 0
    rw [enter_mark_self, hinv.marks.index_eq]
    omega
  · exact h.keeps e he

/-- One step of the search. -/
theorem good_step_search (hE : ∀ u < n, ∀ w ∈ edges u, w < n) (hiter : 4 ≤ iterSize)
    (hentry : entryNodeOnly = true → ∀ v < n, Reach edges entryNode v)
    (h : Good iterSize n edges entryNodeOnly entryNode m (.search e label, b)) :
    ∃ c, runStep iterSize n edges entryNodeOnly (.search e label, b) = some c ∧
      ∃ m' < m, Good iterSize n edges entryNodeOnly entryNode m' c := by
  obtain ⟨s, base, num, hrep, hinv, hl, he, hbefore, hseen, hm⟩ := h
  obtain ⟨b', hstretch, hrep'⟩ := stretch_represents hE hiter hrep hinv hl
  have hout := step_outcome hE hinv hl
  have hkeeps := hout.keeps
  have hseen' := hout.seen hinv hseen
  rw [runStep, hstretch]
  generalize s.step edges label = r at hrep' hout hkeeps hseen'
  obtain ⟨_ | label', t⟩ := r
  · obtain ⟨hfin, hlt, -⟩ := hout
    cases entryNodeOnly with
    | true =>
        -- every node is seen, for it is reached from the entry node
        have hentry' : e = entryNode := hbefore
        refine ⟨_, rfl, 0, by omega, t, hrep', hfin, fun v hv => ?_⟩
        have hle := hfin.mark_le_of_reach hseen' (hentry' ▸ hentry rfl v hv)
        exact (Nat.lt_of_lt_of_le (Nat.pos_of_ne_zero hseen') hle).ne'
    | false =>
        have hbefore' : ∀ v < e, s.rindexComposite v ≠ 0 := hbefore
        refine ⟨_, rfl, remaining n edges t + 2 * (n - e), by omega, rfl, t, hrep', hfin, he,
          ?_, le_rfl⟩
        intro v hv
        rcases hv.lt_or_eq with hv | rfl
        · exact hkeeps v (hbefore' v hv)
        · exact hseen'
  · obtain ⟨⟨num', hinv', hl'⟩, hlt, -⟩ := hout
    refine ⟨_, rfl, remaining n edges t + 2 * (n - e) + 1, by omega, t, base, num', hrep', hinv',
      hl', he, ?_, .inr hseen', le_rfl⟩
    cases entryNodeOnly with
    | true => exact hbefore
    | false => exact fun v hv => hkeeps v (hbefore v hv)

/-- One step to the next entry node. -/
theorem good_step_nextEntry
    (h : Good iterSize n edges false entryNode m (.nextEntry e, b)) :
    ∃ c, runStep iterSize n edges false (.nextEntry e, b) = some c ∧
      ∃ m' < m, Good iterSize n edges false entryNode m' c := by
  obtain ⟨-, s, hrep, hfin, he, hseen, hm⟩ := h
  rw [runStep, hrep.marks]
  by_cases hlast : e + 1 = n
  · rw [if_pos hlast]
    exact ⟨_, rfl, 0, by omega, s, hrep, hfin, fun v hv => hseen v (by omega)⟩
  · rw [if_neg hlast]
    by_cases h0 : s.rindexComposite (e + 1) = 0
    · rw [if_pos h0]
      exact ⟨_, rfl, remaining n edges s + 2 * (n - (e + 1)) + 1, by omega,
        good_search hrep hfin (by omega) h0 (fun v hv => hseen v (by omega)) le_rfl⟩
    · rw [if_neg h0]
      refine ⟨_, rfl, remaining n edges s + 2 * (n - (e + 1)), by omega, rfl, s, hrep, hfin,
        by omega, fun v hv => ?_, le_rfl⟩
      rcases Nat.le_succ_iff.mp hv with hv | rfl
      · exact hseen v hv
      · exact h0

/-- One step of the run. -/
theorem good_step (hE : ∀ u < n, ∀ w ∈ edges u, w < n) (hiter : 4 ≤ iterSize)
    (hentry : entryNodeOnly = true → ∀ v < n, Reach edges entryNode v) (m : ℕ)
    (c : Control × BufferedFinder) (h : Good iterSize n edges entryNodeOnly entryNode m c) :
    runStep iterSize n edges entryNodeOnly c = none ∨
      ∃ c', runStep iterSize n edges entryNodeOnly c = some c' ∧
        ∃ m' < m, Good iterSize n edges entryNodeOnly entryNode m' c' := by
  obtain ⟨⟨e, label⟩ | e | _, b⟩ := c
  · exact .inr (good_step_search hE hiter hentry h)
  · obtain rfl : entryNodeOnly = false := h.1
    exact .inr (good_step_nextEntry h)
  · exact .inl rfl

/-- The finder before the search. -/
theorem represents_initial (iterSize n : ℕ) :
    Represents iterSize n (initialBuffered iterSize n) (initialFinder n) where
  marks := rfl
  index := rfl
  comp := rfl
  size := rfl
  vfEnd := rfl
  vbTop := rfl
  holds := ⟨Nat.zero_le _, trivial, trivial⟩

/-- The result is that of the finder with two lists. -/
theorem Represents.finishComputation (hrep : Represents iterSize n b s) :
    b.finishComputation n = Scc.finishComputation n s := by
  rw [BufferedFinder.finishComputation, Scc.finishComputation, hrep.marks, hrep.comp]

/-- **The finder is correct**: on every graph, from every state the two stacks are apart; and it
ends, with equal numbers for the nodes that reach one another, and with all the numbers below the
number of components.  A search from one entry node only needs that all nodes are reached from it.
-/
theorem runImpl_correct (hiter : 4 ≤ iterSize) (hE : ∀ u < n, ∀ w ∈ edges u, w < n)
    (hlt : entryNode < n)
    (hentry : if entryNodeOnly then ∀ v < n, Reach edges entryNode v else entryNode = 0) :
    (∀ k, ∀ c ∈ runImpl iterSize n edges entryNodeOnly entryNode k, InBounds n c.2) ∧
      ∃ k b, (runImpl iterSize n edges entryNodeOnly entryNode k).getLast? = some (.finished, b) ∧
        (∀ u < n, ∀ v < n, (b.finishComputation n).2 u = (b.finishComputation n).2 v ↔
          Reach edges u v ∧ Reach edges v u) ∧
        ∀ c, (∃ v < n, (b.finishComputation n).2 v = c) ↔ c < (b.finishComputation n).1 := by
  have hn : 0 < n := by omega
  have hreach : entryNodeOnly = true → ∀ v < n, Reach edges entryNode v := by
    rintro rfl
    exact hentry
  have hbefore : if entryNodeOnly then entryNode = entryNode
      else ∀ v < entryNode, (initialFinder n).rindexComposite v ≠ 0 := by
    cases entryNodeOnly with
    | true => rfl
    | false =>
        obtain rfl : entryNode = 0 := hentry
        exact fun v hv => nomatch hv
  have hgood : Good iterSize n edges entryNodeOnly entryNode _
      (.search entryNode (.visitNewNode entryNode), initialBuffered iterSize n) :=
    good_search (represents_initial iterSize n) initialFinder_finished hlt rfl hbefore le_rfl
  refine ⟨fun k c hc => ?_, ?_⟩
  · obtain ⟨m, hm⟩ := forall_mem_orbit (good_step hE hiter hreach) hgood c hc
    exact hm.inBounds hn
  · obtain ⟨k, ⟨control, b⟩, hlast, hnone, m, hm⟩ :=
      exists_getLast?_orbit (good_step hE hiter hreach) hgood
    obtain ⟨e, label⟩ | e | _ := control
    · obtain ⟨c, hc, -⟩ := good_step_search hE hiter hreach hm
      exact nomatch hnone.symm.trans hc
    · obtain rfl : entryNodeOnly = false := hm.1
      obtain ⟨c, hc, -⟩ := good_step_nextEntry hm
      exact nomatch hnone.symm.trans hc
    · obtain ⟨s, hrep, hfin, hseen⟩ := hm
      exact ⟨k, b, hlast, hrep.finishComputation ▸ hfin.finishComputation hseen⟩

/-- Two nodes on a cycle, and one that is reached from there. -/
def cycleWithExit : ℕ → List ℕ
  | 0 => [1]
  | 1 => [0, 2]
  | _ => []

example : (runImpl 8 3 cycleWithExit false 0 13).getLast?.map (fun c =>
    (c.1, (c.2.finishComputation 3).1, (List.range 3).map (c.2.finishComputation 3).2)) =
      some (.finished, 2, [1, 1, 0]) := by decide

theorem runImpl_correct_cycle :
    ∃ k b, (runImpl 8 3 cycleWithExit false 0 k).getLast? = some (.finished, b) ∧
      (b.finishComputation 3).2 0 = (b.finishComputation 3).2 1 := by
  have h : (∀ k, ∀ c ∈ runImpl 8 3 cycleWithExit false 0 k, InBounds 3 c.2) ∧ _ :=
    runImpl_correct (by decide) (by decide) (by decide) rfl
  obtain ⟨-, k, b, hlast, heq, -⟩ := h
  refine ⟨k, b, hlast, (heq 0 (by decide) 1 (by decide)).mpr ⟨?_, ?_⟩⟩
  · exact .single (by decide)
  · exact .single (by decide)

end Run

end Scc

end Dsom
