import Dsom.Typemask.Closure
import Dsom.Foundations.Bytes

/-!
# Typemask/Generator — `GenerateImpl` and the automaton it emits

The closed items become a state machine that moves from an item to the least item that also covers
some bit of the query.  A node tests up to four edges at once; further edges are tested by the next
node, and edges that can only be taken by bits already known to be zero are left out.  The machine
is emitted as bytes: nodes follow each other, and a destination is a 16-bit offset from the node
itself.

`runNode` is the interpreter at run time.  It reads the bytes, and is `none` if it leaves them.
-/

namespace Dsom

namespace Typemask

open BitMask Bytes

variable {N : ℕ}

/-! ## The transfer function

From an item, a new bit of the query leads to the least item that covers both. -/

section Transfer

variable (items : List (Item N))

/-- The mask of an item. -/
def maskAt (itemOrd : ℕ) : BitVec N := (items.getD itemOrd default).mask

/-- `findMinOverapprox`. -/
def findMinOverapprox (mask : BitVec N) : ℕ := items.findIdx fun item => Covers item.mask mask

/-- The transfer function `T`; there is no edge for a bit the item has. -/
def transfer (i j : ℕ) : Option ℕ :=
  if (maskAt items i).getLsbD j then none
  else some (findMinOverapprox items (maskAt items i ||| BitVec.twoPow N j))

/-- An edge of the transfer function, for all its bits. -/
structure EdgeInfo (N : ℕ) where
  edgeMask : BitVec N
  dest : ℕ
  deriving DecidableEq

/-- `edgeMap`: the edges of an item, by destination. -/
def edgeMap (itemOrd : ℕ) : List (EdgeInfo N) :=
  (List.range items.length).filterMap fun dest =>
    let edgeMask := ofBits N fun j => transfer items itemOrd j = some dest
    if edgeMask = 0 then none else some { edgeMask, dest }

/-- `traverseWithMasks`.  An edge leads to a later item, so the number of items is fuel enough. -/
def traverseWithMasks (masks : List (BitVec N)) : ℕ → ℕ → ℕ
  | 0, itemOrd => itemOrd
  | fuel + 1, itemOrd =>
      match (edgeMap items itemOrd).find? fun edge => masks.any fun m => Covers edge.edgeMask m with
      | none => itemOrd
      | some edge => traverseWithMasks masks fuel edge.dest

end Transfer

/-! ## The nodes

An item has as many nodes as its edges need, four tests to a node. -/

/-- Where a node leads: nowhere, to a node, or by a pending edge to the first node of an item. -/
inductive Dest where
  | null
  | node (ord : ℕ)
  | item (ord : ℕ)
  deriving DecidableEq

/-- `NodeInfo`. -/
structure NodeInfo (N : ℕ) where
  item : Item N
  testMasks : List (BitVec N)
  dests : List Dest
  deriving DecidableEq

/-- `x_maxTestMasks`. -/
def maxTests : ℕ := 4

/-- The masks of the tests that `idx` says are taken. -/
def selectedMasks (tests : List (BitVec N)) (idx : ℕ) : List (BitVec N) :=
  ((List.range tests.length).filter fun i => idx.testBit i).map fun i => tests.getD i 0

/-- The bits known to be zero if the tests go as `idx` says. -/
def newKnownZeroMask (knownZeroMask : BitVec N) (tests : List (BitVec N)) (idx : ℕ) : BitVec N :=
  (List.range tests.length).foldl
    (fun m i => if idx.testBit i then m else m ||| tests.getD i 0) knownZeroMask

/-- The state of the generation. -/
structure Gen (N : ℕ) where
  dfaNodes : List (NodeInfo N)
  itemReachable : ℕ → Bool
  knownZeroBitsForItem : ℕ → BitVec N

section Build

variable (items : List (Item N))

/-- The item a node of `itemOrd` leads to when the tests go as `idx` says. -/
def nextItem (itemOrd : ℕ) (tests : List (BitVec N)) (idx : ℕ) : ℕ :=
  traverseWithMasks items (selectedMasks tests idx) items.length itemOrd

/-- The item of an edge is reachable, and what the tests say about its query is recorded. -/
def recordEdge (itemOrd : ℕ) (tests : List (BitVec N)) (knownZeroMask : BitVec N) (g : Gen N)
    (idx : ℕ) : Gen N :=
  let next := nextItem items itemOrd tests idx
  { g with
    itemReachable := Function.update g.itemReachable next true
    knownZeroBitsForItem := Function.update g.knownZeroBitsForItem next
      (g.knownZeroBitsForItem next &&& newKnownZeroMask knownZeroMask tests idx) }

/-- The node that tests the first of `edges`. -/
def newNode (itemOrd nodeOrd : ℕ) (edges : List (EdgeInfo N)) : NodeInfo N :=
  let tests := (edges.take maxTests).map (·.edgeMask)
  { item := { items.getD itemOrd default with
      mask := if tests = [] then BitVec.allOnes N else maskAt items itemOrd }
    testMasks := tests
    dests := (List.range (2 ^ tests.length)).map fun idx =>
      if idx ≠ 0 then .item (nextItem items itemOrd tests idx)
      else if maxTests < edges.length then .node (nodeOrd + 1) else .null }

/-- `handleEdges`.  The next node of an item is always the next one in the list. -/
def handleEdges (itemOrd : ℕ) : ℕ → List (EdgeInfo N) → BitVec N → Gen N → Gen N
  | 0, _, _, g => g
  | fuel + 1, edges, knownZeroMask, g =>
      let tests := (edges.take maxTests).map (·.edgeMask)
      let g := (List.range' 1 (2 ^ tests.length - 1)).foldl
        (recordEdge items itemOrd tests knownZeroMask)
        { g with dfaNodes := g.dfaNodes ++ [newNode items itemOrd g.dfaNodes.length edges] }
      if maxTests < edges.length then
        handleEdges itemOrd fuel (edges.drop maxTests) (newKnownZeroMask knownZeroMask tests 0) g
      else g

/-- The edges of an item that the query can take. -/
def openEdges (itemOrd : ℕ) (knownZeroMask : BitVec N) : List (EdgeInfo N) :=
  (edgeMap items itemOrd).filter fun edge => ¬ Covers knownZeroMask edge.edgeMask

/-- One item: its nodes, and `itemToNodeOrdMap`. -/
def processItem (s : Gen N × List (Option ℕ)) (itemOrd : ℕ) : Gen N × List (Option ℕ) :=
  if s.1.itemReachable itemOrd then
    let knownZeroMask := s.1.knownZeroBitsForItem itemOrd
    let edges := openEdges items itemOrd knownZeroMask
    (handleEdges items itemOrd (edges.length + 1) edges knownZeroMask s.1,
      s.2 ++ [some s.1.dfaNodes.length])
  else (s.1, s.2 ++ [none])

/-- All nodes, for a run that may start at the items `roots`. -/
def buildNodes (roots : List ℕ) : Gen N × List (Option ℕ) :=
  (List.range items.length).foldl (processItem items)
    ({ dfaNodes := []
       itemReachable := fun itemOrd => itemOrd ∈ roots
       knownZeroBitsForItem := fun itemOrd => if itemOrd ∈ roots then 0 else BitVec.allOnes N }, [])

end Build

/-! ## The bytes

A destination is the 16-bit offset from its node, or 65535 where there is none. -/

/-- `IsTerminalNode`. -/
def NodeInfo.isTerminalNode (node : NodeInfo N) : Bool :=
  node.testMasks = [] ∧ node.dests.head? = some .null

/-- `GetByteSize`. -/
def NodeInfo.getByteSize (node : NodeInfo N) : ℕ :=
  if node.isTerminalNode then 6 else 6 + 4 * maxTests + 2 * node.dests.length

/-- `GetClearMask`. -/
def NodeInfo.getClearMask (node : NodeInfo N) : BitVec N := BitVec.allOnes N ^^^ node.item.mask

section Encode

variable (curOffset : ℕ) (dfaNodes : List (NodeInfo N)) (itemToNodeOrdMap : List (Option ℕ))

/-- `offsetForDfaNode`, the first node being at `curOffset`. -/
def offsetForDfaNode (nodeOrd : ℕ) : ℕ :=
  curOffset + ((dfaNodes.take nodeOrd).map NodeInfo.getByteSize).sum

/-- The node a destination stands for, with pending edges patched. -/
def resolve : Dest → Option ℕ
  | .null => none
  | .node ord => some ord
  | .item ord => itemToNodeOrdMap.getD ord none

/-- A destination as the 16-bit offset from its node. -/
def encodeDest (nodeOrd : ℕ) (dest : Dest) : Except GenerateError (List (BitVec 8)) :=
  match resolve itemToNodeOrdMap dest with
  | none => .ok (leBytes 2 65535)
  | some destOrd =>
      let offset := offsetForDfaNode curOffset dfaNodes destOrd
        - offsetForDfaNode curOffset dfaNodes nodeOrd
      if offset ≤ 65534 then .ok (leBytes 2 offset) else .error .dfaTooLarge

/-- `Populate`: the fields of a node, in their order. -/
def populate (nodeOrd : ℕ) (node : NodeInfo N) : Except GenerateError (List (BitVec 8)) :=
  if node.isTerminalNode then
    .ok (leBytes 4 node.getClearMask.toNat ++ leBytes 2 node.item.value.toNat)
  else do
    let dests ← node.dests.mapM (encodeDest curOffset dfaNodes itemToNodeOrdMap nodeOrd)
    .ok (leBytes 4 node.getClearMask.toNat ++ leBytes 2 node.item.value.toNat
      ++ (List.range maxTests).flatMap (fun i => leBytes 4 (node.testMasks.getD i 0).toNat)
      ++ dests.flatten)

/-- All nodes. -/
def populateAll : Except GenerateError (List (BitVec 8)) := do
  let nodes ← dfaNodes.zipIdx.mapM fun (node, nodeOrd) =>
    populate curOffset dfaNodes itemToNodeOrdMap nodeOrd node
  .ok nodes.flatten

end Encode

/-- The items of the automaton: a catch-all item is added if there is none. -/
def withTop (items : List (Item N)) : List (Item N) :=
  if (items.getLast?.map Item.mask) = some (BitVec.allOnes N) then items
  else items ++ [{ mask := BitVec.allOnes N, value := 65535 }]

/-- `GenerateAutomata`. -/
def generateAutomata (items : List (Item N)) : Except GenerateError (List (BitVec 8)) := do
  let closure ← makeClosure items
  let (g, itemToNodeOrdMap) := buildNodes (withTop closure) [0]
  populateAll 0 g.dfaNodes itemToNodeOrdMap

/-- The items a leaf-optimised run starts at, by the first bit that the bottom item does not have.
-/
def leafItem (items : List (Item N)) (bottom : Item N) (i : ℕ) : Option ℕ :=
  if bottom.mask.getLsbD i then none
  else some (findMinOverapprox items (bottom.mask ||| BitVec.twoPow N i))

/-- An entry of the table in front of a leaf-optimised automaton. -/
def leafEntry (items : List (Item N)) (bottom : Item N) (dfaNodes : List (NodeInfo N))
    (itemToNodeOrdMap : List (Option ℕ)) (i : ℕ) : Except GenerateError (List (BitVec 8)) :=
  match leafItem items bottom i with
  | none => .ok (leBytes 2 65535)
  | some destItemOrd =>
      let value := offsetForDfaNode (6 + 2 * N) dfaNodes
        ((itemToNodeOrdMap.getD destItemOrd none).getD 0)
      if value ≤ 65534 then .ok (leBytes 2 value) else .error .dfaTooLarge

/-- `GenerateAutomataLeafOpted`: the bottom item is taken out of the items and put into a header. -/
def generateAutomataLeafOpted (items : List (Item N)) : Except GenerateError (List (BitVec 8)) := do
  let closure ← makeClosure items
  let bottom := (withTop closure).headD default
  let rest := (withTop closure).tail
  let header := leBytes 4 (BitVec.allOnes N ^^^ bottom.mask).toNat ++ leBytes 2 bottom.value.toNat
  if rest = [] then .ok header
  else
    let (g, itemToNodeOrdMap) := buildNodes rest ((List.range N).filterMap (leafItem rest bottom))
    let table ← (List.range N).mapM (leafEntry rest bottom g.dfaNodes itemToNodeOrdMap)
    let nodes ← populateAll (6 + 2 * N) g.dfaNodes itemToNodeOrdMap
    .ok (header ++ table.flatten ++ nodes)

/-! ## Running it -/

/-- The index of `TestAndGetNext`. -/
def testIndex (bytes : List (BitVec 8)) (mask addr : ℕ) : ℕ → Option ℕ
  | 0 => some 0
  | i + 1 => do
      let idx ← testIndex bytes mask addr i
      let test ← load 4 bytes (addr + 6 + 4 * i)
      some (if mask &&& test ≠ 0 then idx + 2 ^ i else idx)

/-- `TypeMaskOverapproxAutomataNode::Run`. -/
def runNode (bytes : List (BitVec 8)) (mask : ℕ) : ℕ → ℕ → Option ℕ
  | 0, _ => none
  | fuel + 1, addr => do
      let clearMask ← load 4 bytes addr
      if mask &&& clearMask = 0 then load 2 bytes (addr + 4)
      else
        let idx ← testIndex bytes mask addr maxTests
        let dest ← load 2 bytes (addr + 6 + 4 * maxTests + 2 * idx)
        runNode bytes mask fuel (addr + dest)

/-- `TypeMaskOverapproxAutomata::RunAutomataMayFail`. -/
def runAutomataMayFail (bytes : List (BitVec 8)) (fuel mask : ℕ) : Option ℕ :=
  runNode bytes mask fuel 0

/-- `TypeMaskOverapproxAutomataLeafOpted::RunAutomataMayFail`. -/
def runAutomataLeafOptedMayFail (bytes : List (BitVec 8)) (fuel mask : ℕ) : Option ℕ := do
  let clearMask ← load 4 bytes 0
  let mask := mask &&& clearMask
  if mask = 0 then load 2 bytes 4
  else
    let ord := (List.range 32).findIdx fun i => mask.testBit i
    let offset ← load 2 bytes (6 + ord * 2)
    runNode bytes mask fuel offset

end Typemask

end Dsom
