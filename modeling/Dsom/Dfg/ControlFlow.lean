import Dsom.Dfg.Bytecode
import Mathlib.Data.List.Sort
import Mathlib.Data.List.Dedup

/-!
# Dfg/ControlFlow — basic blocks and local captures

`RunControlFlowAndUpvalueAnalysis`: cut the bytecode at barriers, branches and branch targets,
number the blocks reachable from the entry in depth-first order, and propagate over them which
locals are held in a captured variable.  Loops and recursions of the source run on fuel;
`Dfg/Blocks` and `Dfg/Captures` show how much is enough.
-/

namespace Dsom

/-- The bytecode of a function.  Branches stay inside it, and control cannot fall off its end. -/
structure BytecodeFunction (numLocals : ℕ) where
  numBytecodes : ℕ
  bytecode : ℕ → Bytecode numLocals
  numBytecodes_pos : 0 < numBytecodes
  target_lt : ∀ i < numBytecodes, ∀ t ∈ (bytecode i).branchTarget, t < numBytecodes
  last_isBarrier : (bytecode (numBytecodes - 1)).isBarrier = true

/-- `BasicBlockUpvalueInfo`.  The position of a bytecode and its index are the same here. -/
structure BasicBlockUpvalueInfo (numLocals : ℕ) where
  bytecodeIndex : ℕ
  terminalNode : ℕ
  isTerminalInstImplicitTrivialBranch : Bool
  successors : List ℕ
  isLocalCapturedAtHead : Finset (Fin numLocals)
  isLocalCapturedAtTail : Finset (Fin numLocals)
  isLocalCapturedInBB : Finset (Fin numLocals)
  deriving DecidableEq, Inhabited

namespace BytecodeFunction

variable {numLocals : ℕ} (f : BytecodeFunction numLocals)

/-- `BytecodeHasBranchOperand`. -/
def mayBranch (i : ℕ) : Bool := (f.bytecode i).branchTarget.isSome

/-- The block starts that one bytecode gives rise to. -/
def startsFrom (i : ℕ) : List ℕ :=
  (if (f.bytecode i).isBarrier || f.mayBranch i then [i + 1] else [])
    ++ (f.bytecode i).branchTarget.toList

/-- `m_bbStartOffsets`, sorted and without repetition. -/
def bbStartOffsets : List ℕ :=
  ((0 :: (List.range f.numBytecodes).flatMap f.startsFrom).insertionSort (· ≤ ·)).dedup

/-- `std::lower_bound` in `m_bbStartOffsets`. -/
def bbIdx (bcPos : ℕ) : ℕ := f.bbStartOffsets.findIdx fun start => bcPos ≤ start

/-- `bcPosEnd`: where the block that starts at `bcPos` ends. -/
def bcPosEnd (bcPos : ℕ) : ℕ := f.bbStartOffsets.getD (f.bbIdx bcPos + 1) 0

/-- The blocks found so far: `m_bbForStartOffsets`, which holds ordinals, and `m_bbInNaturalOrder`.
-/
structure Traversal (numLocals : ℕ) where
  bbForStartOffsets : ℕ → Option ℕ
  bbInNaturalOrder : List (BasicBlockUpvalueInfo numLocals)

/-- The block that starts at `bcPos` as it is first put into the list. -/
def newBB (bcPos : ℕ) : BasicBlockUpvalueInfo numLocals where
  bytecodeIndex := bcPos
  terminalNode := f.bcPosEnd bcPos - 1
  isTerminalInstImplicitTrivialBranch :=
    !f.mayBranch (f.bcPosEnd bcPos - 1) && !(f.bytecode (f.bcPosEnd bcPos - 1)).isBarrier
  successors := []
  isLocalCapturedAtHead := ∅
  isLocalCapturedAtTail := ∅
  isLocalCapturedInBB := ∅

/-- The successors of a block by position, the fallthrough first. -/
def succPositions (bcPos : ℕ) : List ℕ :=
  (if (f.bytecode (f.bcPosEnd bcPos - 1)).isBarrier then [] else [f.bcPosEnd bcPos])
    ++ (f.bytecode (f.bcPosEnd bcPos - 1)).branchTarget.toList

/-- Collect the results of a traversal from each of a list of positions. -/
def traverseAll (traverse : ℕ → Traversal numLocals → Option (ℕ × Traversal numLocals)) :
    List ℕ → Traversal numLocals → Option (List ℕ × Traversal numLocals)
  | [], t => some ([], t)
  | pos :: rest, t =>
      (traverse pos t).bind fun (ord, t) =>
        (traverseAll traverse rest t).map fun (ords, t) => (ord :: ords, t)

/-- `TraverseAndGenerateBytecodeOffsetToBBMap`; the result is the ordinal of the block. -/
def traverse : ℕ → ℕ → Traversal numLocals → Option (ℕ × Traversal numLocals)
  | 0, _, _ => none
  | fuel + 1, bcPos, t =>
      match t.bbForStartOffsets (f.bbIdx bcPos) with
      | some ord => some (ord, t)
      | none =>
          let ord := t.bbInNaturalOrder.length
          (traverseAll (traverse fuel) (f.succPositions bcPos)
            { bbForStartOffsets := Function.update t.bbForStartOffsets (f.bbIdx bcPos) (some ord)
              bbInNaturalOrder := t.bbInNaturalOrder ++ [f.newBB bcPos] }).map fun (succs, t) =>
            (ord, { t with
              bbInNaturalOrder := t.bbInNaturalOrder.modify ord fun bb =>
                { bb with successors := succs } })

/-- `GenerateBytecodeOffsetToBBMap`. -/
def generateBytecodeOffsetToBBMap (fuel : ℕ) : Option (List (BasicBlockUpvalueInfo numLocals)) :=
  (f.traverse fuel 0 ⟨fun _ => none, []⟩).map fun (_, t) => t.bbInNaturalOrder

/-! ## Local captures

A forward propagation over the blocks, by the captures inside a block and the limit of the
`UpvalueClose` at its end. -/

/-- The locals captured by the bytecodes of a block that the scan `while (cur < end)` looks at. -/
def capturesInBB (bb : BasicBlockUpvalueInfo numLocals) : List (Fin numLocals) :=
  (List.range' bb.bytecodeIndex (bb.terminalNode - bb.bytecodeIndex)).flatMap fun cur =>
    (f.bytecode cur).kind.captures

/-- Whether a local survives the end of a block: it is below `ucloseLimit`. -/
def belowUcloseLimit (bb : BasicBlockUpvalueInfo numLocals) (l : Fin numLocals) : Bool :=
  match (f.bytecode bb.terminalNode).kind with
  | .upvalueClose start => l < start
  | _ => true

/-- The state of the capture propagation. -/
structure Worklist (numLocals : ℕ) where
  atHead : ℕ → Finset (Fin numLocals)
  atTail : ℕ → Finset (Fin numLocals)
  queue : List ℕ
  isInQueue : ℕ → Bool

/-- `pushQueue`. -/
def Worklist.pushQueue (s : Worklist numLocals) (value : ℕ) : Worklist numLocals :=
  if s.isInQueue value then s
  else { s with
    queue := s.queue ++ [value]
    isInQueue := Function.update s.isInQueue value true }

/-- A changed tail is merged into the head of one successor. -/
def Worklist.mergeInto (tail : Finset (Fin numLocals)) (s : Worklist numLocals) (succ : ℕ) :
    Worklist numLocals :=
  if s.atHead succ ∪ tail = s.atHead succ then s
  else Worklist.pushQueue { s with
    atHead := Function.update s.atHead succ (s.atHead succ ∪ tail) } succ

variable (bbs : List (BasicBlockUpvalueInfo numLocals))

/-- Where the propagation begins: the blocks with a capture are in the queue. -/
def worklistStart : Worklist numLocals :=
  (List.range bbs.length).foldl
    (fun s ord => if f.capturesInBB (bbs.getD ord default) = [] then s else s.pushQueue ord)
    { atHead := fun _ => ∅, atTail := fun _ => ∅, queue := [], isInQueue := fun _ => false }

/-- The tail that a head gives. -/
def tailOfHead (ord : ℕ) (head : Finset (Fin numLocals)) : Finset (Fin numLocals) :=
  (head ∪ (f.capturesInBB (bbs.getD ord default)).toFinset).filter
    fun l => f.belowUcloseLimit (bbs.getD ord default) l

/-- The body of `while (!q.empty())`, with `ord` taken from the queue. -/
def worklistStep (s : Worklist numLocals) (ord : ℕ) : Worklist numLocals :=
  let newTail := f.tailOfHead bbs ord (s.atHead ord)
  if newTail = s.atTail ord then s
  else (bbs.getD ord default).successors.foldl (Worklist.mergeInto newTail)
    { s with atTail := Function.update s.atTail ord newTail }

/-- The propagation. -/
def runWorklist : ℕ → Worklist numLocals → Option (Worklist numLocals)
  | 0, s => if s.queue = [] then some s else none
  | fuel + 1, s =>
      match s.queue with
      | [] => some s
      | ord :: q => runWorklist fuel (f.worklistStep bbs
          { s with queue := q, isInQueue := Function.update s.isInQueue ord false } ord)

/-- `AnalyzeLocalCaptures`. -/
def analyzeLocalCaptures (fuel : ℕ) : Option (List (BasicBlockUpvalueInfo numLocals)) :=
  (f.runWorklist bbs fuel (f.worklistStart bbs)).map fun s =>
    bbs.mapIdx fun ord bb => { bb with
      isLocalCapturedAtHead := s.atHead ord
      isLocalCapturedAtTail := s.atTail ord
      isLocalCapturedInBB := (f.capturesInBB bb).toFinset }

/-- `RunControlFlowAndUpvalueAnalysis`. -/
def runControlFlowAndUpvalueAnalysis (fuel : ℕ) : Option (List (BasicBlockUpvalueInfo numLocals)) :=
  (f.generateBytecodeOffsetToBBMap fuel).bind fun bbs => f.analyzeLocalCaptures bbs fuel

end BytecodeFunction

end Dsom
