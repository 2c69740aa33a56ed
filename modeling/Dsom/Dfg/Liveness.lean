import Dsom.Foundations.Dataflow
import Dsom.Dfg.Bytecode
import Mathlib.Data.List.Sort

/-!
# Dfg/Liveness — `ComputeBytecodeLiveness`

A block keeps for each of its bytecodes which locals it uses and defines (`usesAndDefs`).  The
fixpoint works on whole blocks through two masks and skips a block when the epochs say that no
successor's head has changed since it was last looked at; the per-bytecode sets are read off the
tails afterwards.

Blocks are named by their ordinal in `m_basicBlocks`; `bbInReverseOrder` lists them in the order in
which they are processed.
-/

namespace Dsom

open Dataflow

variable {numLocals : ℕ}

/-! ## The uses and defs of a bytecode -/

namespace BytecodeKind

/-- The locals a bytecode uses.  A self-reference of a closure is used only if it is mutable and the
local already is a captured variable. -/
def uses (isCaptured : Finset (Fin numLocals)) : BytecodeKind numLocals → List (Fin numLocals)
  | .createClosure upvalueInfo dest =>
      upvalueInfo.filterMap fun uv => uv.local?.filter fun slot =>
        if slot = dest then !uv.isImmutable && decide (slot ∈ isCaptured) else true
  | .upvalueClose start =>
      (List.finRange numLocals).filter fun l => start ≤ l ∧ l ∈ isCaptured
  | .conventional inputs _ => inputs.flatMap BytecodeRWCDesc.locals

/-- The locals that become captured variables, in the order of the upvalues. -/
def newlyCaptured (isCaptured : Finset (Fin numLocals)) :
    List (Fin numLocals) → List (Fin numLocals)
  | [] => []
  | slot :: slots =>
      if slot ∈ isCaptured then newlyCaptured isCaptured slots
      else slot :: newlyCaptured (insert slot isCaptured) slots

/-- The locals a bytecode defines.  A write to a captured local goes into the captured variable and
does not count. -/
def defs (isCaptured : Finset (Fin numLocals)) (k : BytecodeKind numLocals) :
    List (Fin numLocals) :=
  match k with
  | .createClosure _ dest =>
      newlyCaptured isCaptured k.captures
        ++ if dest ∈ k.scanCaptured isCaptured then [] else [dest]
  | .upvalueClose start =>
      (List.finRange numLocals).filter fun l => start ≤ l ∧ l ∈ isCaptured
  | .conventional _ outputs =>
      (outputs.flatMap BytecodeRWCDesc.locals).filter fun l => l ∉ isCaptured

/-- The constructor's walk over the bytecodes of a block, from the captures at its head. -/
def usesAndDefs (isCaptured : Finset (Fin numLocals)) :
    List (BytecodeKind numLocals) → List (List (Fin numLocals) × List (Fin numLocals))
  | [] => []
  | k :: ks => (k.uses isCaptured, k.defs isCaptured) :: usesAndDefs (k.scanCaptured isCaptured) ks

@[simp] theorem length_usesAndDefs {isCaptured : Finset (Fin numLocals)}
    {ks : List (BytecodeKind numLocals)} :
    (usesAndDefs isCaptured ks).length = ks.length := by
  induction ks generalizing isCaptured with
  | nil => rfl
  | cons k ks ih => simp [usesAndDefs, ih]

/-- A bytecode is looked at with the captures that the scan has arrived at. -/
theorem getElem?_usesAndDefs {isCaptured : Finset (Fin numLocals)}
    {ks : List (BytecodeKind numLocals)} {n : ℕ} :
    (usesAndDefs isCaptured ks)[n]? = ks[n]?.map fun k =>
      let isCaptured := (ks.take n).foldl (fun isCaptured k => k.scanCaptured isCaptured) isCaptured
      (k.uses isCaptured, k.defs isCaptured) := by
  induction ks generalizing isCaptured n with
  | nil => rfl
  | cons k ks ih =>
    cases n with
    | zero => rfl
    | succ n => exact ih

end BytecodeKind

/-! ## The control-flow graph -/

/-- The `BytecodeLivenessBBInfo`s as they are constructed: the bytecode range of each block, what
its bytecodes use and define, and its successors.  Blocks are not empty and do not overlap. -/
structure LivenessCfg (numLocals : ℕ) where
  numBBs : ℕ
  firstBytecodeIndex : Fin numBBs → ℕ
  info : Fin numBBs → List (List (Fin numLocals) × List (Fin numLocals))
  successors : Fin numBBs → List (Fin numBBs)
  info_ne_nil : ∀ bb, info bb ≠ []
  range_disjoint : ∀ bb bb', bb ≠ bb' → ∀ i < (info bb).length, ∀ j < (info bb').length,
    firstBytecodeIndex bb + i ≠ firstBytecodeIndex bb' + j

namespace LivenessCfg

variable (g : LivenessCfg numLocals)

/-- `m_hasPrecedessor`. -/
def hasPredecessor (bb : Fin g.numBBs) : Bool :=
  (List.finRange g.numBBs).any fun p => bb ∈ g.successors p

/-- `bbInReverseOrder`: the blocks by decreasing first bytecode. -/
def bbInReverseOrder : List (Fin g.numBBs) :=
  (List.finRange g.numBBs).insertionSort fun a b =>
    g.firstBytecodeIndex b ≤ g.firstBytecodeIndex a

/-- `ComputeHeadBasedOnTail`. -/
def computeHeadBasedOnTail (bb : Fin g.numBBs) (atTail : Finset (Fin numLocals)) :
    Finset (Fin numLocals) :=
  transfer (g.info bb) atTail

/-- `m_andMask`: the head that an all-one tail gives. -/
def andMask (bb : Fin g.numBBs) : Finset (Fin numLocals) :=
  g.computeHeadBasedOnTail bb Finset.univ

/-- `m_orMask`: the head that an all-zero tail gives. -/
def orMask (bb : Fin g.numBBs) : Finset (Fin numLocals) := g.computeHeadBasedOnTail bb ∅

/-- `ComputeHeadBasedOnTailFast`. -/
def computeHeadBasedOnTailFast (bb : Fin g.numBBs) (atTail : Finset (Fin numLocals)) :
    Finset (Fin numLocals) :=
  (atTail ∩ g.andMask bb) ∪ g.orMask bb

/-! ## The fixpoint -/

/-- What the propagation changes of a block. -/
structure BBState (numLocals : ℕ) where
  atHead : Finset (Fin numLocals)
  atTail : Finset (Fin numLocals)
  lastChangedEpoch : ℕ
  lastCheckedEpoch : ℕ
  deriving DecidableEq

/-- The state of the propagation loop. -/
structure Propagation (g : LivenessCfg numLocals) where
  bbs : Fin g.numBBs → BBState numLocals
  currentEpoch : ℕ
  needMoreIterations : Bool

/-- Where the propagation begins. -/
def start : Propagation g where
  bbs _ := { atHead := ∅, atTail := ∅, lastChangedEpoch := 0, lastCheckedEpoch := 0 }
  currentEpoch := 1
  needMoreIterations := false

variable {g}

namespace Propagation

/-- `shouldCheck`: some successor's head has changed after the last time it was looked at. -/
def shouldCheck (s : Propagation g) (bb : Fin g.numBBs) : Bool :=
  (g.successors bb).any fun succ =>
    (s.bbs bb).lastCheckedEpoch < (s.bbs succ).lastChangedEpoch

/-- The union of the successors' heads. -/
def succHeads (s : Propagation g) (bb : Fin g.numBBs) : Finset (Fin numLocals) :=
  (g.successors bb).foldr (fun succ tmpBv => (s.bbs succ).atHead ∪ tmpBv) ∅

/-- A block is looked at: the body of the `for` loop. -/
def visit (isFirstIteration : Bool) (s : Propagation g) (bb : Fin g.numBBs) : Propagation g :=
  if s.shouldCheck bb || isFirstIteration then
    let epoch := s.currentEpoch + 1
    let tmpBv := s.succHeads bb
    let tailChanged := (s.bbs bb).atTail ≠ tmpBv
    let b := { s.bbs bb with atTail := tmpBv, lastCheckedEpoch := epoch }
    if tailChanged || isFirstIteration then
      let tmpBv := g.computeHeadBasedOnTailFast bb b.atTail
      if b.atHead ≠ tmpBv then
        { bbs := Function.update s.bbs bb
            { b with atHead := tmpBv, lastChangedEpoch := epoch + 1 }
          currentEpoch := epoch + 1
          needMoreIterations := s.needMoreIterations || g.hasPredecessor bb }
      else
        { s with bbs := Function.update s.bbs bb b, currentEpoch := epoch }
    else
      { s with bbs := Function.update s.bbs bb b, currentEpoch := epoch }
  else s

/-- One iteration of the `while` loop. -/
def iteration (isFirstIteration : Bool) (s : Propagation g) : Propagation g :=
  g.bbInReverseOrder.foldl (visit isFirstIteration) { s with needMoreIterations := false }

/-- The `while` loop, for at most `fuel` iterations. -/
def propagate : ℕ → Bool → Propagation g → Option (Propagation g)
  | 0, _, _ => none
  | fuel + 1, isFirstIteration, s =>
      let s := s.iteration isFirstIteration
      if s.needMoreIterations then propagate fuel false s else some s

end Propagation

/-! ## The sets of each bytecode -/

/-- `BytecodeLiveness`, with the bytecode indices outside of the blocks already filled in. -/
structure Result (numLocals : ℕ) where
  beforeUse : ℕ → Finset (Fin numLocals)
  afterUse : ℕ → Finset (Fin numLocals)

/-- The loop of `ComputePerBytecodeLiveness` over the bytecodes from `index` on, last one first. -/
def perBytecode (atTail : Finset (Fin numLocals)) :
    ℕ → List (List (Fin numLocals) × List (Fin numLocals)) → Result numLocals → Result numLocals
  | _, [], r => r
  | index, (uses, defs) :: rest, r =>
      let r := perBytecode atTail (index + 1) rest r
      let afterUse := (if rest = [] then atTail else r.beforeUse (index + 1)) \ defs.toFinset
      { beforeUse := Function.update r.beforeUse index (afterUse ∪ uses.toFinset)
        afterUse := Function.update r.afterUse index afterUse }

/-- `ComputePerBytecodeLiveness`. -/
def computePerBytecodeLiveness (s : Propagation g) (r : Result numLocals) (bb : Fin g.numBBs) :
    Result numLocals :=
  perBytecode (s.bbs bb).atTail (g.firstBytecodeIndex bb) (g.info bb) r

variable (g)

/-- `ComputeBytecodeLiveness`; `none` if the propagation needs more than `fuel` iterations. -/
def computeBytecodeLiveness (fuel : ℕ) : Option (Result numLocals) :=
  (Propagation.propagate fuel true g.start).map fun s =>
    g.bbInReverseOrder.foldl (computePerBytecodeLiveness s)
      { beforeUse := fun _ => ∅, afterUse := fun _ => ∅ }

end LivenessCfg

end Dsom
