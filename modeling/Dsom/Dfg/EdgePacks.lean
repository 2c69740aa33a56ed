import Mathlib.Algebra.Group.Nat.Defs
import Mathlib.Data.List.Nodup
import Mathlib.Logic.Function.Basic
import Mathlib.Tactic.Common

/-!
# Dfg/EdgePacks — the edges of the propagation graph, six to a pack

`PropagationOrderFinder` of `drt/dfg_prediction_propagation.cpp` keeps the edges of a node in packs
of 32 bytes: six edges and the address of the next pack, which is only written when a seventh edge
comes.  There is no count.  The packs are aligned, so the low bits of an address say whether an edge
or a link is there, and `-1` behind the last edge is neither: an edge is a node, and the low half of
the address of a pack is a multiple of 32.

`Chain`: what the packs of one node hold.  `Remaining`: what an iterator still finds.
-/

namespace Dsom

namespace EdgePacks

/-- The words of the memory, by the addresses of their first bytes. -/
abbrev Mem := ℕ → BitVec 32

/-- `UnalignedStore<EdgePack*>`, the low half first. -/
def storePtr (m : Mem) (a p : ℕ) : Mem :=
  Function.update (Function.update m a (BitVec.ofNat 32 p)) (a + 4) (BitVec.ofNat 32 (p / 2 ^ 32))

/-- `UnalignedLoad<uint32_t*>`. -/
def loadPtr (m : Mem) (a : ℕ) : ℕ := (m a).toNat + 2 ^ 32 * (m (a + 4)).toNat

/-- `static_cast<uint32_t>(-1)`. -/
def noNode : BitVec 32 := BitVec.allOnes 32

/-- `IsAtLastEdgeInPack`: what would be the last edge is the link. -/
def isAtLastEdgeInPack (tail : ℕ) : Bool := tail &&& 31 == 24

/-- The last edge is told by the address. -/
theorem isAtLastEdgeInPack_iff (tail : ℕ) : isAtLastEdgeInPack tail ↔ tail % 32 = 24 := by
  rw [isAtLastEdgeInPack, beq_iff_eq, show (31 : ℕ) = 2 ^ 5 - 1 from rfl,
    Nat.and_two_pow_sub_one_eq_mod]

theorem loadPtr_congr {m m' : Mem} {a : ℕ} (hlow : m' a = m a) (hhigh : m' (a + 4) = m (a + 4)) :
    loadPtr m' a = loadPtr m a := by
  rw [loadPtr, loadPtr, hlow, hhigh]

/-- What was stored is loaded again. -/
theorem loadPtr_storePtr (m : Mem) (a : ℕ) {p : ℕ} (hp : p < 2 ^ 64) :
    loadPtr (storePtr m a p) a = p := by
  rw [loadPtr, storePtr, Function.update_self, Function.update_of_ne (by omega),
    Function.update_self, BitVec.toNat_ofNat, BitVec.toNat_ofNat]
  omega

/-- A store leaves the other words alone. -/
theorem storePtr_of_outside (m : Mem) {a b : ℕ} (p : ℕ) (h : ¬(a ≤ b ∧ b < a + 8)) :
    storePtr m a p b = m b := by
  rw [storePtr, Function.update_of_ne (by omega), Function.update_of_ne (by omega)]

/-- The low half of the address of a pack is no end mark. -/
theorem low_loadPtr_ne_noNode {m : Mem} {a : ℕ} (h : loadPtr m a % 32 = 0) : m a ≠ noNode := by
  intro heq
  rw [loadPtr, heq, noNode, BitVec.toNat_allOnes] at h
  omega

/-! ## The graph

A node starts with a pack of its own; a full pack ends in the address of the next one. -/

/-- **`PropagationOrderFinder`**; `free` are the packs that the allocator gives out. -/
structure PropagationOrderFinder where
  numNodes : BitVec 32
  edgeHead : ℕ → ℕ
  edgeTail : ℕ → ℕ
  mem : Mem
  free : List ℕ

namespace PropagationOrderFinder

variable (g : PropagationOrderFinder)

/-- `AllocateObject<EdgePack>`, which leaves the words as they are; `none` without memory. -/
def allocatePack : Option (ℕ × PropagationOrderFinder) :=
  match g.free with
  | [] => none
  | p :: free => some (p, { g with free := free })

/-- The first pack of a node. -/
def initializeNode (i : ℕ) : Option PropagationOrderFinder := do
  let (e, g) ← g.allocatePack
  pure { g with
    edgeHead := Function.update g.edgeHead i e
    edgeTail := Function.update g.edgeTail i e }

/-- `AddEdge` at a tail: the memory, and where the tail is then. -/
def addEdgeAt (tail : ℕ) (dest : BitVec 32) : Option (ℕ × PropagationOrderFinder) :=
  if isAtLastEdgeInPack tail then do
    let (next, g) ← g.allocatePack
    pure (next + 4, { g with mem := storePtr (Function.update g.mem next dest) tail next })
  else
    some (tail + 4, { g with mem := Function.update g.mem tail dest })

/-- **`AddEdge`**; `none` also if a node is asserted that is not there. -/
def addEdge (source dest : BitVec 32) : Option PropagationOrderFinder :=
  if source < g.numNodes ∧ dest < g.numNodes then do
    let (tail, g) ← g.addEdgeAt (g.edgeTail source.toNat) dest
    pure { g with edgeTail := Function.update g.edgeTail source.toNat tail }
  else none

/-- **`FinalizeGraph`.** -/
def finalizeGraph : PropagationOrderFinder :=
  let mem := (List.range g.numNodes.toNat).foldl
    (fun m i => Function.update m (g.edgeTail i) noNode) g.mem
  { g with mem := mem }

end PropagationOrderFinder

/-- **`Initialize`**, on any memory. -/
def initializeGraph (mem : Mem) (free : List ℕ) (numNodes : BitVec 32) :
    Option PropagationOrderFinder :=
  (List.range numNodes.toNat).foldlM PropagationOrderFinder.initializeNode
    { numNodes, edgeHead := fun _ => 0, edgeTail := fun _ => 0, mem, free }

/-- Any sequence of `AddEdge` calls, then `FinalizeGraph`. -/
def buildGraph (mem : Mem) (free : List ℕ) (numNodes : BitVec 32)
    (added : List (BitVec 32 × BitVec 32)) : Option PropagationOrderFinder := do
  let g ← initializeGraph mem free numNodes
  let g ← added.foldlM (fun g e => g.addEdge e.1 e.2) g
  pure g.finalizeGraph

/-! ## The iterator

It walks the words of a pack and goes over to the next pack at the end. -/

/-- **`EdgeIter`.** -/
structure EdgeIter where
  destNode : BitVec 32
  nextPtr : ℕ

namespace EdgeIter

/-- The constructor. -/
def start (g : PropagationOrderFinder) (nodeOrd : ℕ) : EdgeIter where
  destNode := g.mem (g.edgeHead nodeOrd)
  nextPtr := g.edgeHead nodeOrd + 4

/-- `IsValid`. -/
def isValid (it : EdgeIter) : Bool := it.destNode != noNode

/-- **`Advance`**: the iterator, and whether there is another edge. -/
def advance (m : Mem) (it : EdgeIter) : EdgeIter × Bool :=
  if m it.nextPtr = noNode then ({ it with destNode := noNode }, false)
  else
    let nextPtr := if isAtLastEdgeInPack it.nextPtr then loadPtr m it.nextPtr else it.nextPtr
    ({ destNode := m nextPtr, nextPtr := nextPtr + 4 }, true)

/-- The loop of the callers, which go on as `Advance` says; `none` if `IsValid` says otherwise. -/
def loop (m : Mem) : ℕ → EdgeIter → Option (List (BitVec 32))
  | 0, _ => none
  | fuel + 1, it =>
    if !it.isValid then none
    else
      let (next, found) := it.advance m
      if found then (loop m fuel next).map (it.destNode :: ·)
      else if next.isValid then none
      else some [it.destNode]

end EdgeIter

/-- **The edges that an iteration finds**, if it ends within `fuel` rounds. -/
def PropagationOrderFinder.edges (g : PropagationOrderFinder) (nodeOrd fuel : ℕ) :
    Option (List (BitVec 32)) :=
  let it := EdgeIter.start g nodeOrd
  if it.isValid then it.loop g.mem fuel else some []

/-! ## What an iterator still finds

Said over any memory, by the words that lie ahead of the iterator. -/

/-- The words from an address on. -/
def Words (m : Mem) : ℕ → List (BitVec 32) → Prop
  | _, [] => True
  | a, d :: es => m a = d ∧ Words m (a + 4) es

/-- What an iterator that is to read at an address still finds. -/
def Remaining (m : Mem) : ℕ → List (BitVec 32) → Prop
  | a, [] => m a = noNode
  | a, d :: es =>
    let ptr := if isAtLastEdgeInPack a then loadPtr m a else a
    m a ≠ noNode ∧ m ptr = d ∧ d ≠ noNode ∧ Remaining m (ptr + 4) es

variable {m m' : Mem} {a p tail fuel : ℕ} {d : BitVec 32} {es es' : List (BitVec 32)}
  {packs : List ℕ}

/-- Only the words themselves matter. -/
theorem Words.congr (hm : ∀ b, a ≤ b → b < a + 4 * es.length → m' b = m b) (h : Words m a es) :
    Words m' a es := by
  induction es generalizing a with
  | nil => trivial
  | cons d es ih =>
    simp only [List.length_cons] at hm
    refine ⟨?_, ih (fun b hb hb' => hm b (by omega) (by omega)) h.2⟩
    rw [hm a (Nat.le_refl a) (by omega)]
    exact h.1

/-- One more word at the end. -/
theorem Words.concat (h : Words m a es) (hd : m (a + 4 * es.length) = d) :
    Words m a (es ++ [d]) := by
  induction es generalizing a with
  | nil => exact ⟨hd, trivial⟩
  | cons d es ih =>
    refine ⟨h.1, ih h.2 ?_⟩
    rw [← hd, List.length_cons]
    congr 1
    omega

/-- Edges within a pack are read one after another. -/
theorem Words.remaining_append (h : Words m a es) (hfit : a % 32 + 4 * es.length ≤ 24)
    (hes : ∀ e ∈ es, e ≠ noNode) (hrest : Remaining m (a + 4 * es.length) es') :
    Remaining m a (es ++ es') := by
  induction es generalizing a with
  | nil => exact hrest
  | cons d es ih =>
    simp only [List.length_cons] at hfit hrest
    have hnot : ¬isAtLastEdgeInPack a := by
      rw [isAtLastEdgeInPack_iff]
      omega
    obtain ⟨hd, hwords⟩ := h
    rw [List.cons_append, Remaining, if_neg hnot]
    refine ⟨hd ▸ hes d (.head _), hd, hes d (.head _), ih hwords ?_ (fun e he => hes e (.tail _ he))
      ?_⟩
    · omega
    · rwa [show a + 4 + 4 * es.length = a + 4 * (es.length + 1) by omega]

/-- **Advancing finds the rest.** -/
theorem Remaining.loop {it : EdgeIter} (h : Remaining m it.nextPtr es) (hvalid : it.isValid)
    (hfuel : es.length < fuel) : it.loop m fuel = some (it.destNode :: es) := by
  induction es generalizing it fuel with
  | nil =>
    obtain ⟨fuel, rfl⟩ := Nat.exists_eq_add_of_lt hfuel
    rw [Remaining] at h
    rw [EdgeIter.loop, hvalid, EdgeIter.advance, if_pos h]
    simp [EdgeIter.isValid]
  | cons d es ih =>
    cases fuel with
    | zero => simp at hfuel
    | succ fuel =>
      simp only [List.length_cons] at hfuel
      obtain ⟨hne, hd, hdne, hrest⟩ := h
      rw [EdgeIter.loop, hvalid, EdgeIter.advance, if_neg hne]
      simp only [Bool.not_true, Bool.false_eq_true, ↓reduceIte]
      rw [ih hrest (by simpa [EdgeIter.isValid, hd] using hdne) (by omega), hd]
      rfl

/-! ## The packs of a node -/

/-- **What the packs of a node hold**, and where its tail is: six edges and a link in each pack but
the last. -/
inductive Chain (m : Mem) : List ℕ → List (BitVec 32) → ℕ → Prop
  | last {p : ℕ} {es : List (BitVec 32)} (hle : es.length ≤ 6) (hwords : Words m p es) :
      Chain m [p] es (p + 4 * es.length)
  | link {p q tail : ℕ} {packs : List ℕ} {es es' : List (BitVec 32)} (hlength : es.length = 6)
      (hwords : Words m p es) (hnext : loadPtr m (p + 24) = q) (hne : es' ≠ [])
      (hrest : Chain m (q :: packs) es' tail) : Chain m (p :: q :: packs) (es ++ es') tail

/-- The tail is in a pack. -/
theorem Chain.exists_mem (h : Chain m packs es tail) : ∃ p ∈ packs, p ≤ tail ∧ tail ≤ p + 24 := by
  induction h with
  | @last p es hle _ => exact ⟨p, .head _, by omega, by omega⟩
  | link _ _ _ _ _ ih =>
    obtain ⟨p, hp, hle⟩ := ih
    exact ⟨p, .tail _ hp, hle⟩

/-- **The frame rule**: the packs count, without what is at the tail. -/
theorem Chain.congr (hnodup : packs.Nodup) (haligned : ∀ p ∈ packs, p % 32 = 0)
    (hm : ∀ p ∈ packs, ∀ a, p ≤ a → a < p + 32 → ¬(tail ≤ a ∧ a < tail + 8) → m' a = m a)
    (h : Chain m packs es tail) : Chain m' packs es tail := by
  induction h with
  | @last p es hle hwords =>
    exact .last hle (hwords.congr fun a ha ha' => hm p (.head _) a ha (by omega) (by omega))
  | @link p q tail packs es es' hlength hwords hnext hne hrest ih =>
    obtain ⟨p', hp', hle, hge⟩ := hrest.exists_mem
    have hpp' : p ≠ p' := by
      rintro rfl
      exact (List.nodup_cons.mp hnodup).1 hp'
    have hp : p % 32 = 0 := haligned p (.head _)
    have hp'' : p' % 32 = 0 := haligned p' (.tail _ hp')
    have hpack (a : ℕ) (ha : p ≤ a) (ha' : a < p + 32) : m' a = m a :=
      hm p (.head _) a ha ha' (by omega)
    refine .link hlength (hwords.congr fun a ha ha' => hpack a ha (by omega)) ?_ hne
      (ih hnodup.of_cons (fun p hp => haligned p (.tail _ hp)) fun p hp => hm p (.tail _ hp))
    rw [loadPtr_congr (hpack _ (by omega) (by omega)) (hpack _ (by omega) (by omega)), hnext]

/-- **An edge within a pack.** -/
theorem Chain.addWord (haligned : ∀ p ∈ packs, p % 32 = 0) (hlast : tail % 32 ≠ 24)
    (hd : m tail = d) (h : Chain m packs es tail) : Chain m packs (es ++ [d]) (tail + 4) := by
  induction h with
  | @last p es hle hwords =>
    have hp := haligned p (.head _)
    have hfit : (es ++ [d]).length ≤ 6 := by
      rw [List.length_append, List.length_singleton]
      omega
    have hlast' := Chain.last hfit (hwords.concat hd)
    rwa [List.length_append, List.length_singleton, Nat.mul_add, ← Nat.add_assoc] at hlast'
  | link hlength hwords hnext hne hrest ih =>
    rw [List.append_assoc]
    exact .link hlength hwords hnext (by simp)
      (ih (fun p hp => haligned p (.tail _ hp)) hlast hd)

/-- **An edge in a new pack.** -/
theorem Chain.addPack {q : ℕ} (haligned : ∀ p ∈ packs, p % 32 = 0) (hlast : tail % 32 = 24)
    (hlink : loadPtr m tail = q) (hd : m q = d) (h : Chain m packs es tail) :
    Chain m (packs ++ [q]) (es ++ [d]) (q + 4) := by
  have hnew : Chain m [q] [d] (q + 4) := .last (by simp) ⟨hd, trivial⟩
  induction h with
  | @last p es hle hwords =>
    have hp := haligned p (.head _)
    have hlength : es.length = 6 := by omega
    rw [hlength] at hlink
    exact .link hlength hwords hlink (by simp) hnew
  | link hlength hwords hnext hne hrest ih =>
    rw [List.append_assoc]
    exact .link hlength hwords hnext (by simp)
      (ih (fun p hp => haligned p (.tail _ hp)) hlast hlink)

/-- **From the first pack on all edges are found**, when the end mark is at the tail. -/
theorem Chain.remaining (haligned : ∀ p ∈ packs, p % 32 = 0) (hes : ∀ e ∈ es, e ≠ noNode)
    (hend : m tail = noNode) (h : Chain m packs es tail) :
    ∀ p ∈ packs.head?, Remaining m p es := by
  induction h with
  | @last p es hle hwords =>
    rintro _ ⟨⟩
    have hp := haligned p (.head _)
    rw [← List.append_nil es]
    exact hwords.remaining_append (by omega) hes hend
  | @link p q tail packs es es' hlength hwords hnext hne hrest ih =>
    rintro _ ⟨⟩
    have hp := haligned p (.head _)
    have hq := haligned q (.tail _ (.head _))
    have hrest' := ih (fun p hp => haligned p (.tail _ hp))
      (fun e he => hes e (List.mem_append_right _ he)) hend q rfl
    refine hwords.remaining_append (by omega) (fun e he => hes e (List.mem_append_left _ he)) ?_
    rw [hlength]
    -- the link is behind the sixth edge
    have hlast : isAtLastEdgeInPack (p + 4 * 6) := by
      rw [isAtLastEdgeInPack_iff]
      omega
    have hnot : ¬isAtLastEdgeInPack q := by
      rw [isAtLastEdgeInPack_iff]
      omega
    cases es' with
    | nil => exact absurd rfl hne
    | cons d es' =>
      rw [Remaining, if_neg hnot] at hrest'
      rw [Remaining, if_pos hlast, hnext]
      exact ⟨low_loadPtr_ne_noNode (hnext ▸ hq), hrest'.2⟩

/-! ## All nodes

No pack belongs to two nodes, and the pool has the others. -/

/-- What the allocator gives out: packs that are apart. -/
structure Pool (free : List ℕ) : Prop where
  nodup : free.Nodup
  aligned : ∀ p ∈ free, p % 32 = 0
  lt : ∀ p ∈ free, p < 2 ^ 64

/-- What is left of the pool is a pool. -/
theorem Pool.of_append {new free : List ℕ} (h : Pool (new ++ free)) : Pool free where
  nodup := (List.nodup_append.mp h.nodup).2.1
  aligned p hp := h.aligned p (List.mem_append_right _ hp)
  lt p hp := h.lt p (List.mem_append_right _ hp)

namespace PropagationOrderFinder

variable {g g' : PropagationOrderFinder} {tail' : ℕ}

/-- **One edge, seen from its own node**: it comes last, and other packs stay as they are. -/
theorem addEdgeAt_spec (hadd : g.addEdgeAt tail d = some (tail', g')) (hpool : Pool g.free)
    (hnodup : packs.Nodup) (haligned : ∀ p ∈ packs, p % 32 = 0) (hfresh : ∀ p ∈ packs, p ∉ g.free)
    (h : Chain g.mem packs es tail) :
    ∃ new, g.free = new ++ g'.free ∧ new.length ≤ 1
      ∧ Chain g'.mem (packs ++ new) (es ++ [d]) tail'
      ∧ (∀ a, (∀ p ∈ packs ++ new, ¬(p ≤ a ∧ a < p + 32)) → g'.mem a = g.mem a)
      ∧ g'.numNodes = g.numNodes ∧ g'.edgeHead = g.edgeHead ∧ g'.edgeTail = g.edgeTail := by
  obtain ⟨p, hp, hle, hge⟩ := h.exists_mem
  have hp32 := haligned p hp
  unfold addEdgeAt at hadd
  split_ifs at hadd with hlast
  · rw [isAtLastEdgeInPack_iff] at hlast
    unfold allocatePack at hadd
    cases hfree : g.free with
    | nil => simp [hfree] at hadd
    | cons q free =>
      simp only [hfree, Option.bind_eq_bind, Option.bind_some, Option.pure_def, Option.some.injEq,
        Prod.mk.injEq] at hadd
      obtain ⟨rfl, rfl⟩ := hadd
      rw [hfree] at hpool hfresh
      have hq32 := hpool.aligned q (.head _)
      have hqp (p : ℕ) (hp : p ∈ packs) : p ≠ q := by
        rintro rfl
        exact hfresh p hp (.head _)
      have hpq := hqp p hp
      have hframe (a : ℕ) (ha : ¬(tail ≤ a ∧ a < tail + 8)) (haq : a ≠ q) :
          storePtr (Function.update g.mem q d) tail q a = g.mem a := by
        rw [storePtr_of_outside _ _ ha, Function.update_of_ne haq]
      have hword : storePtr (Function.update g.mem q d) tail q q = d := by
        rw [storePtr_of_outside _ _ (by omega), Function.update_self]
      refine ⟨[q], rfl, Nat.le_refl 1, ?_, ?_, rfl, rfl, rfl⟩
      · refine Chain.addPack haligned hlast (loadPtr_storePtr _ _ (hpool.lt q (.head _))) hword
          (h.congr hnodup haligned ?_)
        intro p' hp' a ha ha' hout
        have := haligned p' hp'
        have := hqp p' hp'
        exact hframe a hout (by omega)
      · intro a hout
        have h₁ := hout p (List.mem_append_left _ hp)
        have h₂ := hout q (by simp)
        exact hframe a (by omega) (by omega)
  · simp only [Option.some.injEq, Prod.mk.injEq] at hadd
    obtain ⟨rfl, rfl⟩ := hadd
    rw [isAtLastEdgeInPack_iff] at hlast
    refine ⟨[], rfl, Nat.zero_le _, ?_, ?_, rfl, rfl, rfl⟩
    · rw [List.append_nil]
      refine Chain.addWord haligned hlast (Function.update_self ..) (h.congr hnodup haligned ?_)
      intro p' hp' a ha ha' hout
      exact Function.update_of_ne (by omega) ..
    · intro a hout
      have h₁ := hout p (List.mem_append_left _ hp)
      exact Function.update_of_ne (by omega) ..

/-- **A node holds its edges**, in packs that are not given out any more. -/
structure NodeHolds (g : PropagationOrderFinder) (i : ℕ) (packs : List ℕ)
    (es : List (BitVec 32)) : Prop where
  chain : Chain g.mem packs es (g.edgeTail i)
  head : g.edgeHead i ∈ packs.head?
  nodup : packs.Nodup
  aligned : ∀ p ∈ packs, p % 32 = 0
  fresh : ∀ p ∈ packs, p ∉ g.free

/-- **The first `n` nodes hold their edges**, each in packs of its own. -/
structure Holds (g : PropagationOrderFinder) (n : ℕ) (packs : ℕ → List ℕ)
    (edges : ℕ → List (BitVec 32)) : Prop where
  node : ∀ i < n, NodeHolds g i (packs i) (edges i)
  apart : ∀ i < n, ∀ j < n, i ≠ j → ∀ p ∈ packs i, p ∉ packs j
  pool : Pool g.free

variable {n : ℕ} {packs : ℕ → List ℕ} {edges : ℕ → List (BitVec 32)}

/-- One more node with no edge yet. -/
theorem Holds.initializeNode (h : Holds g n packs fun _ => [])
    (hinit : g.initializeNode n = some g') :
    (∃ packs', Holds g' (n + 1) packs' fun _ => []) ∧ g'.numNodes = g.numNodes
      ∧ g.free.length = g'.free.length + 1 := by
  unfold PropagationOrderFinder.initializeNode allocatePack at hinit
  cases hfree : g.free with
  | nil => simp [hfree] at hinit
  | cons q free =>
    simp only [hfree, Option.bind_eq_bind, Option.bind_some, Option.pure_def,
      Option.some.injEq] at hinit
    subst hinit
    have hpool := h.pool
    rw [hfree] at hpool
    have hused (i : ℕ) (hi : i < n) : q ∉ packs i := fun hq =>
      (h.node i hi).fresh q hq (hfree ▸ List.mem_cons_self)
    have hpool' : Pool ([q] ++ free) := hpool
    refine ⟨⟨Function.update packs n [q], ?_, ?_, hpool'.of_append⟩, rfl, rfl⟩
    · intro i hi
      rcases eq_or_ne i n with rfl | hin
      · rw [Function.update_self]
        refine ⟨?_, ?_, List.nodup_singleton q, ?_, ?_⟩
        · simp only [Function.update_self]
          exact Chain.last (Nat.zero_le _) trivial
        · simp
        · simpa using hpool.aligned q (.head _)
        · simpa using (List.nodup_cons.mp hpool.nodup).1
      · rw [Function.update_of_ne hin]
        have hnode := h.node i (by omega)
        refine ⟨?_, ?_, hnode.nodup, hnode.aligned, fun p hp hp' => ?_⟩
        · simp only [Function.update_of_ne hin]
          exact hnode.chain
        · simp only [Function.update_of_ne hin]
          exact hnode.head
        · exact hnode.fresh p hp (hfree ▸ List.mem_cons_of_mem _ hp')
    · intro i hi j hj hij p hp
      rcases eq_or_ne i n with rfl | hin
      · rw [Function.update_self, List.mem_singleton] at hp
        subst hp
        rw [Function.update_of_ne (Ne.symm hij)]
        exact hused j (by omega)
      · rw [Function.update_of_ne hin] at hp
        rcases eq_or_ne j n with rfl | hjn
        · rw [Function.update_self, List.mem_singleton]
          rintro rfl
          exact hused i (by omega) hp
        · rw [Function.update_of_ne hjn]
          exact h.apart i (by omega) j (by omega) hij p hp

/-- **One edge.** -/
theorem Holds.addEdge {source dest : BitVec 32} (h : Holds g g.numNodes.toNat packs edges)
    (hadd : g.addEdge source dest = some g') :
    (∃ packs', Holds g' g'.numNodes.toNat packs' (Function.update edges source.toNat
      (edges source.toNat ++ [dest]))) ∧ g'.numNodes = g.numNodes
      ∧ g.free.length ≤ g'.free.length + 1 := by
  unfold PropagationOrderFinder.addEdge at hadd
  split_ifs at hadd with hlt
  obtain ⟨⟨tail, g₁⟩, hat, hg'⟩ := Option.bind_eq_some_iff.mp hadd
  simp only [Option.pure_def, Option.some.injEq] at hg'
  subst hg'
  have hs : source.toNat < g.numNodes.toNat := hlt.1
  have hnode := h.node _ hs
  obtain ⟨new, hfree, hlen, hchain, hframe, hnum, hheads, htails⟩ := addEdgeAt_spec hat h.pool
    hnode.nodup hnode.aligned hnode.fresh hnode.chain
  have hpool := h.pool
  rw [hfree] at hpool
  have hnew (i : ℕ) (hi : i < g.numNodes.toNat) (p : ℕ) (hp : p ∈ packs i) : p ∉ new := fun hp' =>
    (h.node i hi).fresh p hp (hfree ▸ List.mem_append_left _ hp')
  have halready (i : ℕ) (hi : i < g.numNodes.toNat) (p : ℕ) (hp : p ∈ packs i) :
      p ∉ g₁.free := fun hp' =>
    (h.node i hi).fresh p hp (hfree ▸ List.mem_append_right _ hp')
  have haligned : ∀ p ∈ packs source.toNat ++ new, p % 32 = 0 := fun p hp =>
    (List.mem_append.mp hp).elim (hnode.aligned p) fun hp =>
      hpool.aligned p (List.mem_append_left _ hp)
  refine ⟨⟨Function.update packs source.toNat (packs source.toNat ++ new), ?_, ?_,
    hpool.of_append⟩, hnum, ?_⟩
  · intro i hi
    simp only [hnum] at hi
    rcases eq_or_ne i source.toNat with rfl | his
    · simp only [Function.update_self]
      refine ⟨by simpa using hchain, ?_, ?_, haligned, ?_⟩
      · simp only [hheads]
        exact List.mem_head?_append_of_mem_head? hnode.head
      · refine List.nodup_append.mpr ⟨hnode.nodup, (List.nodup_append.mp hpool.nodup).1, ?_⟩
        rintro p hp _ hp' rfl
        exact hnew _ hs p hp hp'
      · intro p hp
        rcases List.mem_append.mp hp with hp | hp
        · exact halready _ hs p hp
        · exact fun hp' => (List.nodup_append.mp hpool.nodup).2.2 p hp p hp' rfl
    · have hi' := h.node i hi
      simp only [Function.update_of_ne his]
      refine ⟨?_, by simpa [hheads] using hi'.head, hi'.nodup, hi'.aligned, halready i hi⟩
      simp only [Function.update_of_ne his, htails]
      refine hi'.chain.congr hi'.nodup hi'.aligned fun p hp a ha ha' _ => hframe a fun q hq => ?_
      have hpq : p ≠ q := by
        rintro rfl
        rcases List.mem_append.mp hq with hq | hq
        · exact h.apart i hi _ hs his p hp hq
        · exact hnew i hi p hp hq
      have := hi'.aligned p hp
      have := haligned q hq
      omega
  · intro i hi j hj hij p hp
    simp only [hnum] at hi hj
    rcases eq_or_ne i source.toNat with rfl | his
    · rw [Function.update_self] at hp
      rw [Function.update_of_ne (Ne.symm hij)]
      rcases List.mem_append.mp hp with hp | hp
      · exact h.apart _ hi j hj hij p hp
      · exact fun hp' => hnew j hj p hp' hp
    · rw [Function.update_of_ne his] at hp
      rcases eq_or_ne j source.toNat with rfl | hjs
      · rw [Function.update_self, List.mem_append]
        rintro (hp' | hp')
        · exact h.apart i hi _ hj hij p hp hp'
        · exact hnew i hi p hp hp'
      · rw [Function.update_of_ne hjs]
        exact h.apart i hi j hj hij p hp
  · rw [hfree, List.length_append]
    simp only
    omega

/-! ## Whole runs -/

/-- The pool gives a pack while it has one. -/
theorem exists_allocatePack (hfree : g.free ≠ []) : ∃ r, g.allocatePack = some r := by
  unfold allocatePack
  cases h : g.free with
  | nil => exact absurd h hfree
  | cons p free => exact ⟨_, rfl⟩

/-- A node can be initialised while there is a pack. -/
theorem exists_initializeNode (i : ℕ) (hfree : g.free ≠ []) :
    ∃ g', g.initializeNode i = some g' := by
  obtain ⟨r, hr⟩ := exists_allocatePack hfree
  exact ⟨_, by rw [initializeNode, hr]; rfl⟩

/-- An edge can be added while there is a pack. -/
theorem exists_addEdge {source dest : BitVec 32} (hlt : source < g.numNodes ∧ dest < g.numNodes)
    (hfree : g.free ≠ []) : ∃ g', g.addEdge source dest = some g' := by
  obtain ⟨r, hr⟩ := exists_allocatePack hfree
  unfold addEdge addEdgeAt
  rw [if_pos hlt]
  split_ifs
  · exact ⟨_, by rw [hr]; rfl⟩
  · exact ⟨_, rfl⟩

/-- **`Initialize` gives every node an empty pack.** -/
theorem holds_foldlM_initializeNode (hnone : Holds g 0 packs fun _ => []) (n : ℕ) :
    (n ≤ g.free.length → ∃ g', (List.range n).foldlM initializeNode g = some g')
      ∧ ∀ g', (List.range n).foldlM initializeNode g = some g' →
        (∃ packs', Holds g' n packs' fun _ => []) ∧ g'.numNodes = g.numNodes
          ∧ g.free.length = g'.free.length + n := by
  induction n with
  | zero =>
    refine ⟨fun _ => ⟨g, rfl⟩, ?_⟩
    rintro _ ⟨⟩
    exact ⟨⟨packs, hnone⟩, rfl, rfl⟩
  | succ n ih =>
    obtain ⟨hsome, hholds⟩ := ih
    rw [List.range_succ, List.foldlM_append]
    simp only [List.foldlM_cons, List.foldlM_nil, bind_pure, Option.bind_eq_bind]
    constructor
    · intro hlen
      obtain ⟨g₁, hg₁⟩ := hsome (by omega)
      have hlen' := (hholds g₁ hg₁).2.2
      rw [hg₁, Option.bind_some]
      refine exists_initializeNode n fun hnil => ?_
      rw [hnil, List.length_nil] at hlen'
      omega
    · intro g' hg'
      obtain ⟨g₁, hg₁, hstep⟩ := Option.bind_eq_some_iff.mp hg'
      obtain ⟨⟨packs₁, h₁⟩, hnum, hlen⟩ := hholds g₁ hg₁
      obtain ⟨hpacks, hnum', hlen'⟩ := h₁.initializeNode hstep
      exact ⟨hpacks, hnum'.trans hnum, by omega⟩

/-- The edges from a node, in the order of the calls. -/
def edgesFrom (added : List (BitVec 32 × BitVec 32)) (i : ℕ) : List (BitVec 32) :=
  (added.filter fun e => e.1.toNat == i).map Prod.snd

/-- **Any sequence of `AddEdge` calls.** -/
theorem Holds.foldlM_addEdge {added : List (BitVec 32 × BitVec 32)}
    (h : Holds g g.numNodes.toNat packs edges)
    (hlt : ∀ e ∈ added, e.1 < g.numNodes ∧ e.2 < g.numNodes) :
    (added.length ≤ g.free.length → ∃ g', added.foldlM (fun g e => g.addEdge e.1 e.2) g = some g')
      ∧ ∀ g', added.foldlM (fun g e => g.addEdge e.1 e.2) g = some g' →
        (∃ packs', Holds g' g'.numNodes.toNat packs' fun i => edges i ++ edgesFrom added i)
          ∧ g'.numNodes = g.numNodes := by
  induction added generalizing g packs edges with
  | nil =>
    refine ⟨fun _ => ⟨g, rfl⟩, ?_⟩
    rintro _ ⟨⟩
    exact ⟨⟨packs, by simpa [edgesFrom] using h⟩, rfl⟩
  | cons e added ih =>
    have hstep (g₁ : PropagationOrderFinder) (hg₁ : g.addEdge e.1 e.2 = some g₁) :
        g.free.length ≤ g₁.free.length + 1
          ∧ ((added.length ≤ g₁.free.length →
              ∃ g', added.foldlM (fun g e => g.addEdge e.1 e.2) g₁ = some g')
            ∧ ∀ g', added.foldlM (fun g e => g.addEdge e.1 e.2) g₁ = some g' →
              (∃ packs', Holds g' g'.numNodes.toNat packs' fun i =>
                edges i ++ edgesFrom (e :: added) i) ∧ g'.numNodes = g.numNodes) := by
      obtain ⟨⟨packs₁, h₁⟩, hnum, hlen⟩ := h.addEdge hg₁
      have hrest := ih h₁ (by rw [hnum]; exact fun e' he' => hlt e' (.tail _ he'))
      have hedges (i : ℕ) : Function.update edges e.1.toNat (edges e.1.toNat ++ [e.2]) i
          ++ edgesFrom added i = edges i ++ edgesFrom (e :: added) i := by
        rcases eq_or_ne i e.1.toNat with rfl | hi
        · rw [Function.update_self, edgesFrom, edgesFrom, List.filter_cons_of_pos (by simp)]
          simp
        · rw [Function.update_of_ne hi, edgesFrom, edgesFrom,
            List.filter_cons_of_neg (by simpa using Ne.symm hi)]
      simp only [hedges, hnum] at hrest
      exact ⟨hlen, hrest⟩
    simp only [List.foldlM_cons, Option.bind_eq_bind]
    constructor
    · intro hlen
      simp only [List.length_cons] at hlen
      obtain ⟨g₁, hg₁⟩ := exists_addEdge (hlt e (.head _)) fun hnil => by simp [hnil] at hlen
      obtain ⟨hlen', hsome, -⟩ := hstep g₁ hg₁
      rw [hg₁, Option.bind_some]
      exact hsome (by omega)
    · intro g' hg'
      obtain ⟨g₁, hg₁, hrest⟩ := Option.bind_eq_some_iff.mp hg'
      exact (hstep g₁ hg₁).2.2 g' hrest

/-- The end marks are at the tails, and nowhere else. -/
theorem mem_finalizeGraph (g : PropagationOrderFinder) (a : ℕ) :
    g.finalizeGraph.mem a = if ∃ i < g.numNodes.toNat, g.edgeTail i = a then noNode
      else g.mem a := by
  have hfold (is : List ℕ) (m : Mem) :
      is.foldl (fun m i => Function.update m (g.edgeTail i) noNode) m a
        = if ∃ i ∈ is, g.edgeTail i = a then noNode else m a := by
    induction is generalizing m with
    | nil => simp
    | cons i is ih =>
      rw [List.foldl_cons, ih]
      rcases eq_or_ne (g.edgeTail i) a with rfl | hne
      · simp
      · simp [hne, Function.update_of_ne (Ne.symm hne)]
  have hmem := hfold (List.range g.numNodes.toNat) g.mem
  simp only [List.mem_range] at hmem
  exact hmem

/-- **After `FinalizeGraph` an iteration finds the edges of its node.** -/
theorem Holds.edges_finalizeGraph (h : Holds g g.numNodes.toNat packs edges) {i : ℕ}
    (hi : i < g.numNodes.toNat) (hes : ∀ e ∈ edges i, e ≠ noNode) {fuel : ℕ}
    (hfuel : (edges i).length ≤ fuel) : g.finalizeGraph.edges i fuel = some (edges i) := by
  have hnode := h.node i hi
  have hend : g.finalizeGraph.mem (g.edgeTail i) = noNode := by
    rw [mem_finalizeGraph, if_pos ⟨i, hi, rfl⟩]
  have hchain : Chain g.finalizeGraph.mem (packs i) (edges i) (g.edgeTail i) := by
    refine hnode.chain.congr hnode.nodup hnode.aligned fun p hp a ha ha' hout => ?_
    rw [mem_finalizeGraph, if_neg]
    -- the tail of another node is in a pack of that node
    rintro ⟨j, hj, rfl⟩
    have hij : i ≠ j := by
      rintro rfl
      omega
    obtain ⟨q, hq, hle, hge⟩ := (h.node j hj).chain.exists_mem
    have hpq : p ≠ q := by
      rintro rfl
      exact h.apart i hi j hj hij p hp hq
    have := hnode.aligned p hp
    have := (h.node j hj).aligned q hq
    omega
  have hremaining := hchain.remaining hnode.aligned hes hend _ hnode.head
  have hhead : g.edgeHead i % 32 = 0 :=
    hnode.aligned _ (List.mem_of_mem_head? hnode.head)
  have hnot : ¬isAtLastEdgeInPack (g.edgeHead i) := by
    rw [isAtLastEdgeInPack_iff]
    omega
  unfold PropagationOrderFinder.edges EdgeIter.start
  change (let it : EdgeIter := ⟨g.finalizeGraph.mem (g.edgeHead i), g.edgeHead i + 4⟩
    if it.isValid then it.loop g.finalizeGraph.mem fuel else some []) = _
  cases hedges : edges i with
  | nil =>
    rw [hedges, Remaining] at hremaining
    simp [EdgeIter.isValid, hremaining]
  | cons d es =>
    rw [hedges, Remaining, if_neg hnot] at hremaining
    obtain ⟨-, hd, hne, hrest⟩ := hremaining
    rw [hedges, List.length_cons] at hfuel
    have hvalid : EdgeIter.isValid ⟨g.finalizeGraph.mem (g.edgeHead i), g.edgeHead i + 4⟩ := by
      simpa [EdgeIter.isValid, hd] using hne
    simp only [hvalid, if_true]
    rw [Remaining.loop hrest hvalid (by omega), hd]

end PropagationOrderFinder

open PropagationOrderFinder

/-- An edge that exists is not the end mark. -/
theorem ne_noNode_of_lt {d numNodes : BitVec 32} (h : d < numNodes) : d ≠ noNode := by
  rintro rfl
  have := BitVec.lt_def.mp h
  rw [noNode, BitVec.toNat_allOnes] at this
  omega

/-- **The packed edges are those that were added**, in the order of the calls, whatever was in the
memory and wherever the packs are. -/
theorem edges_buildGraph (mem : Mem) {free : List ℕ} (hfree : Pool free) (numNodes : BitVec 32)
    (added : List (BitVec 32 × BitVec 32))
    (hadded : ∀ e ∈ added, e.1 < numNodes ∧ e.2 < numNodes) :
    (numNodes.toNat + added.length ≤ free.length →
        ∃ g, buildGraph mem free numNodes added = some g)
      ∧ ∀ g, buildGraph mem free numNodes added = some g →
        ∀ i < numNodes.toNat, ∀ fuel ≥ added.length,
          g.edges i fuel = some (edgesFrom added i) := by
  have hnone : Holds ⟨numNodes, fun _ => 0, fun _ => 0, mem, free⟩ 0 (fun _ => [])
      fun _ => [] := ⟨by simp, by simp, hfree⟩
  obtain ⟨hinit, hholds⟩ := holds_foldlM_initializeNode hnone numNodes.toNat
  rw [show (List.range numNodes.toNat).foldlM initializeNode _ = initializeGraph mem free numNodes
    from rfl] at hinit hholds
  have hrun (g₁ : PropagationOrderFinder) (hg₁ : initializeGraph mem free numNodes = some g₁) :
      g₁.numNodes = numNodes ∧ free.length = g₁.free.length + numNodes.toNat
        ∧ ∃ packs, Holds g₁ g₁.numNodes.toNat packs fun _ => [] := by
    obtain ⟨⟨packs, h₁⟩, hnum, hlen⟩ := hholds g₁ hg₁
    exact ⟨hnum, hlen, packs, by rwa [hnum]⟩
  unfold buildGraph
  constructor
  · intro hlen
    obtain ⟨g₁, hg₁⟩ := hinit (show numNodes.toNat ≤ free.length by omega)
    obtain ⟨hnum, hlen₁, packs, h₁⟩ := hrun g₁ hg₁
    obtain ⟨g₂, hg₂⟩ := (h₁.foldlM_addEdge (by rwa [hnum])).1 (by omega)
    exact ⟨g₂.finalizeGraph, by simp [hg₁, hg₂]⟩
  · intro g hg i hi fuel hfuel
    obtain ⟨g₁, hg₁, hg⟩ := Option.bind_eq_some_iff.mp hg
    obtain ⟨g₂, hg₂, hg⟩ := Option.bind_eq_some_iff.mp hg
    obtain rfl := Option.some.inj hg
    obtain ⟨hnum, -, packs, h₁⟩ := hrun g₁ hg₁
    obtain ⟨⟨packs₂, h₂⟩, hnum₂⟩ := (h₁.foldlM_addEdge (by rwa [hnum])).2 g₂ hg₂
    simp only [List.nil_append] at h₂
    refine h₂.edges_finalizeGraph (by rwa [hnum₂, hnum]) (fun d hd => ?_) ?_
    · simp only [edgesFrom, List.mem_map, List.mem_filter] at hd
      obtain ⟨e, ⟨he, -⟩, rfl⟩ := hd
      exact ne_noNode_of_lt (hadded e he).2
    · rw [edgesFrom, List.length_map]
      exact Nat.le_trans (List.length_filter_le _ _) hfuel

/-- Seven edges of one node, and one of another: the seventh is in a new pack. -/
theorem edges_buildGraph_seven :
    ∃ g, buildGraph (fun _ => noNode) ((List.range 10).map (32 * ·)) 2
        [(0, 1), (0, 1), (1, 0), (0, 1), (0, 0), (0, 1), (0, 1), (0, 0)] = some g
      ∧ g.edges 0 8 = some [1, 1, 1, 0, 1, 1, 0] := by
  obtain ⟨hsome, hedges⟩ := edges_buildGraph (fun _ => noNode)
    (⟨by decide, by decide, by decide⟩ : Pool ((List.range 10).map (32 * ·))) 2
    [(0, 1), (0, 1), (1, 0), (0, 1), (0, 0), (0, 1), (0, 1), (0, 0)] (by simp)
  obtain ⟨g, hg⟩ := hsome (by decide)
  exact ⟨g, hg, hedges g hg 0 (by decide) 8 (by decide)⟩

end EdgePacks

end Dsom
