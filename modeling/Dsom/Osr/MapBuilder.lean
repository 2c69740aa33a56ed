import Dsom.Foundations.Ring
import Mathlib.Data.List.Range
import Mathlib.Data.List.Perm.Subperm

/-!
# Osr/MapBuilder — recording where the interpreter slots live

`DfgOsrExitMapBuilder` of `drt/dfg_osr_exit_map_builder.h` records, for one basic block, the writes
`A[slot] = value` between OSR exit points.  Slots holding the same SSA value hang on a ring headed
by that value, so that one call rewrites them all.

`ExitMap` is what the builder is for: the array `A` itself, and its copy at every exit point.
`Refines` relates the two, and `Refines.run` carries it along every admitted sequence of calls.
-/

namespace Dsom

open Ring

/-- A `DoublyLinkedListNode`: a slot's, or the one an SSA value provides. -/
inductive ListNode where
  | slot (i : ℕ)
  | ssa (j : ℕ)
  deriving DecidableEq

/-- `DfgOsrExitMapBuilder`.  `info i` is the event vector of slot `i`, newest event first; an event
is an exit ordinal and a value. -/
structure DfgOsrExitMapBuilder where
  numSlots : ℕ
  curOsrExitOrd : ℕ
  next : ListNode → ListNode
  prev : ListNode → ListNode
  info : ℕ → List (ℕ × BitVec 16)

namespace DfgOsrExitMapBuilder

/-- A fresh builder: no events, every node isolated. -/
def init (numSlots : ℕ) : DfgOsrExitMapBuilder := ⟨numSlots, 0, id, id, fun _ => []⟩

/-- `AddEventImpl`, on the event vector of one slot. -/
def addEventImpl (curOsrExitOrd : ℕ) (value : BitVec 16) :
    List (ℕ × BitVec 16) → List (ℕ × BitVec 16)
  | [] => [(curOsrExitOrd, value)]
  | back :: v =>
    if value ≠ back.2 then
      if back.1 = curOsrExitOrd then (back.1, value) :: v
      else (curOsrExitOrd, value) :: back :: v
    else back :: v

/-- Add an event to the list of one slot. -/
def addEvent (b : DfgOsrExitMapBuilder) (slot : ℕ) (value : BitVec 16) : DfgOsrExitMapBuilder :=
  { b with info := Function.update b.info slot (addEventImpl b.curOsrExitOrd value (b.info slot)) }

/-- `UnlinkSlotFromList`. -/
def unlinkSlotFromList (b : DfgOsrExitMapBuilder) (node : ListNode) : DfgOsrExitMapBuilder :=
  { b with next := unlinkNext b.next b.prev node, prev := unlinkPrev b.next b.prev node }

/-- `AddSlotToList`. -/
def addSlotToList (b : DfgOsrExitMapBuilder) (listNode nodeToAdd : ListNode) :
    DfgOsrExitMapBuilder :=
  { b with
    next := linkNext b.next listNode nodeToAdd
    prev := linkPrev b.next b.prev listNode nodeToAdd }

/-- `DoublyLinkedListNode::Reset`. -/
def resetNode (b : DfgOsrExitMapBuilder) (node : ListNode) : DfgOsrExitMapBuilder :=
  { b with next := Function.update b.next node node, prev := Function.update b.prev node node }

/-- The loop of `SetForAllSlotsAssociatedWith`: follow the ring from `cur` back to the SSA node,
which `fuel` nodes must reach. -/
def setAlong (ssaNode : ListNode) (value : BitVec 16) :
    ℕ → ListNode → DfgOsrExitMapBuilder → Option DfgOsrExitMapBuilder
  | 0, _, _ => none
  | fuel + 1, cur, b =>
    if cur = ssaNode then some b
    else match cur with
      | .slot i => if i < b.numSlots then setAlong ssaNode value fuel (b.next cur)
          (b.addEvent i value)
          else none
      | .ssa _ => none

/-- The calls a client makes. -/
inductive Call where
  | setUnassociated (slot : ℕ) (value : BitVec 16)
  | setAndAssociate (ssaNode : ℕ) (slot : ℕ) (value : BitVec 16)
  | setAndDeassociate (slot : ℕ) (value : BitVec 16)
  | setForAllSlotsAssociatedWith (ssaNode : ℕ) (value : BitVec 16)
  | addOsrExitPoint

/-- One call; `none` is a failed assertion or the abort on too many exit points. -/
def call (b : DfgOsrExitMapBuilder) : Call → Option DfgOsrExitMapBuilder
  | .setUnassociated slot value =>
    if slot < b.numSlots ∧ b.prev (.slot slot) =
      .slot slot then some (b.addEvent slot value) else none
  | .setAndAssociate ssaNode slot value =>
    if slot < b.numSlots then
      some (((b.unlinkSlotFromList (.slot slot)).addSlotToList (.ssa ssaNode) (.slot slot)).addEvent
        slot value)
    else none
  | .setAndDeassociate slot value =>
    if slot < b.numSlots then
      some (((b.unlinkSlotFromList (.slot slot)).resetNode (.slot slot)).addEvent slot value)
    else none
  | .setForAllSlotsAssociatedWith ssaNode value =>
    setAlong (.ssa ssaNode) value (b.numSlots + 1) (b.next (.ssa ssaNode)) b
  | .addOsrExitPoint =>
    if b.curOsrExitOrd = 65534 then none else some { b with curOsrExitOrd := b.curOsrExitOrd + 1 }

/-- A sequence of calls. -/
def run (b : DfgOsrExitMapBuilder) : List Call → Option DfgOsrExitMapBuilder
  | [] => some b
  | c :: cs => (b.call c).bind (run · cs)

end DfgOsrExitMapBuilder

/-! ## The array and its checkpoints

What the map is for: the value of each slot, and a copy of all of them at every exit. -/

/-- **What is being recorded**: the array `A`, the SSA value each slot is associated with, and the
array as it was at each exit point. -/
structure ExitMap where
  value : ℕ → Option (BitVec 16)
  assoc : ℕ → Option ℕ
  checkpoints : List (ℕ → Option (BitVec 16))

namespace ExitMap

open DfgOsrExitMapBuilder (Call)

/-- No value anywhere, and nothing taken at an exit so far. -/
def init : ExitMap := ⟨fun _ => none, fun _ => none, []⟩

/-- What each call means for the array. -/
def call (a : ExitMap) : Call → ExitMap
  | .setUnassociated slot value => { a with value := Function.update a.value slot (some value) }
  | .setAndAssociate ssaNode slot value =>
    { a with
      value := Function.update a.value slot (some value)
      assoc := Function.update a.assoc slot (some ssaNode) }
  | .setAndDeassociate slot value =>
    { a with
      value := Function.update a.value slot (some value)
      assoc := Function.update a.assoc slot none }
  | .setForAllSlotsAssociatedWith ssaNode value =>
    { a with value := fun i => if a.assoc i = some ssaNode then some value else a.value i }
  | .addOsrExitPoint => { a with checkpoints := a.checkpoints ++ [a.value] }

/-- Run a list of calls. -/
def run (a : ExitMap) (cs : List Call) : ExitMap := cs.foldl call a

/-- The last value written to a slot before an exit point, if any. -/
def atExit (a : ExitMap) (k slot : ℕ) : Option (BitVec 16) :=
  ((a.checkpoints[k]?).getD fun _ => none) slot

end ExitMap

/-! ## Events of one slot

The list has the latest event first; an event at the ordinal of the exit replaces the one there. -/

/-- The newest event at or before an exit point. -/
def visibleAt (v : List (ℕ × BitVec 16)) (k : ℕ) : Option (BitVec 16) :=
  (v.find? fun e => e.1 ≤ k).map Prod.snd

/-- **The events of a slot record its history**: ordinals strictly descend from at most the current
one, the newest event is the value now, and each exit point sees the newest event before it. -/
structure Records (n : ℕ) (v : List (ℕ × BitVec 16)) (now : Option (BitVec 16))
    (past : ℕ → Option (BitVec 16)) : Prop where
  sorted : v.Pairwise fun newer older => older.1 < newer.1
  le : ∀ e ∈ v, e.1 ≤ n
  now_eq : v.head?.map Prod.snd = now
  past_eq : ∀ k < n, visibleAt v k = past k

/-- A later event is not visible yet. -/
theorem visibleAt_cons_of_lt {e : ℕ × BitVec 16} {k : ℕ} (h : k < e.1) (v : List (ℕ × BitVec 16)) :
    visibleAt (e :: v) k = visibleAt v k := by
  rw [visibleAt, List.find?_cons_of_neg (by simpa using h)]
  rfl

/-- The latest event is visible from its exit on. -/
theorem visibleAt_cons_of_le {e : ℕ × BitVec 16} {k : ℕ} (h : e.1 ≤ k) (v : List (ℕ × BitVec 16)) :
    visibleAt (e :: v) k = some e.2 := by
  rw [visibleAt, List.find?_cons_of_pos (by simpa using h)]
  rfl

/-- **`AddEventImpl` records the write.** -/
theorem Records.addEventImpl {n : ℕ} {v : List (ℕ × BitVec 16)} {now : Option (BitVec 16)}
    {past : ℕ → Option (BitVec 16)} (h : Records n v now past) (value : BitVec 16) :
    Records n (DfgOsrExitMapBuilder.addEventImpl n value v) (some value) past := by
  cases v with
  | nil =>
    refine ⟨List.pairwise_singleton _ _, by simp [DfgOsrExitMapBuilder.addEventImpl], rfl, ?_⟩
    intro k hk
    rw [← h.past_eq k hk]
    exact visibleAt_cons_of_lt hk []
  | cons back v =>
    obtain ⟨hlt, hsort⟩ := List.pairwise_cons.mp h.sorted
    have hback := h.le back (by simp)
    simp only [DfgOsrExitMapBuilder.addEventImpl]
    split_ifs with hval hord
    · refine ⟨List.pairwise_cons.mpr ⟨hlt, hsort⟩, ?_, rfl, fun k hk => ?_⟩
      · intro e he
        rcases List.mem_cons.mp he with rfl | he
        · exact hback
        · exact h.le e (List.mem_cons_of_mem _ he)
      · rw [← h.past_eq k hk, visibleAt_cons_of_lt (by simpa [hord] using hk),
          visibleAt_cons_of_lt (by omega)]
    · refine ⟨List.pairwise_cons.mpr ⟨?_, h.sorted⟩, ?_, rfl, fun k hk => ?_⟩
      · intro e he
        rcases List.mem_cons.mp he with rfl | he
        · simp only
          omega
        · have := hlt e he
          simp only
          omega
      · intro e he
        rcases List.mem_cons.mp he with rfl | he
        · exact le_refl n
        · exact h.le e he
      · rw [← h.past_eq k hk, visibleAt_cons_of_lt hk]
    · refine ⟨h.sorted, h.le, ?_, h.past_eq⟩
      simpa using (not_not.mp hval).symm

/-- A new exit point sees the value now. -/
theorem Records.addOsrExitPoint {n : ℕ} {v : List (ℕ × BitVec 16)} {now : Option (BitVec 16)}
    {past past' : ℕ → Option (BitVec 16)} (h : Records n v now past)
    (hlt : ∀ k < n, past' k = past k) (hn : past' n = now) : Records (n + 1) v now past' where
  sorted := h.sorted
  le e he := (h.le e he).trans (Nat.le_succ n)
  now_eq := h.now_eq
  past_eq k hk := by
    rcases Nat.lt_succ_iff_lt_or_eq.mp hk with hk | rfl
    · rw [h.past_eq k hk, hlt k hk]
    · rw [hn, ← h.now_eq]
      cases v with
      | nil => rfl
      | cons e v => exact visibleAt_cons_of_le (h.le e (by simp)) v

/-! ## The rings of associated slots

Every SSA value has the slots that hold it in a ring. -/

namespace DfgOsrExitMapBuilder

/-- **The rings spell the association**: the ring of an SSA value holds exactly the slots associated
with it, and every other slot is isolated. -/
structure Linked (n : ℕ) (next prev : ListNode → ListNode) (assoc : ℕ → Option ℕ)
    (L : ℕ → List ListNode) : Prop where
  rings : Rings ListNode.ssa L next prev
  mem : ∀ {j x}, x ∈ L j ↔ ∃ i, x = .slot i ∧ assoc i = some j
  alone : ∀ {i}, assoc i = none → next (.slot i) = .slot i ∧ prev (.slot i) = .slot i
  bound : ∀ {i j}, assoc i = some j → i < n

variable {n : ℕ} {next prev : ListNode → ListNode} {assoc : ℕ → Option ℕ} {L : ℕ → List ListNode}

/-- A slot is in the ring of the value it is associated with. -/
theorem Linked.slot_mem (h : Linked n next prev assoc L) {i j : ℕ} :
    .slot i ∈ ListNode.ssa j :: L j ↔ assoc i = some j := by
  simp [h.mem]

/-- Unlinking a slot takes it out of the rings and moves no isolated slot. -/
theorem Linked.unlink (h : Linked n next prev assoc L) (i : ℕ) :
    ∃ L', Rings ListNode.ssa L' (unlinkNext next prev (.slot i)) (unlinkPrev next prev (.slot i)) ∧
      (∀ {j x}, x ∈ L' j ↔ x ∈ L j ∧ x ≠ .slot i) ∧
      ∀ {i'}, assoc i' = none → unlinkNext next prev (.slot i) (.slot i') = .slot i' ∧
        unlinkPrev next prev (.slot i) (.slot i') = .slot i' := by
  cases hi : assoc i with
  | none =>
    obtain ⟨hn, hp⟩ := h.alone hi
    have hn' : unlinkNext next prev (.slot i) = next := by
      rw [unlinkNext, hp, Function.update_eq_self]
    have hp' : unlinkPrev next prev (.slot i) = prev := by
      rw [unlinkPrev, hn, Function.update_eq_self]
    rw [hn', hp']
    refine ⟨L, h.rings, fun {j x} => ⟨fun hx => ⟨hx, ?_⟩, And.left⟩, fun hi' => h.alone hi'⟩
    rintro rfl
    obtain ⟨i', hii', hj⟩ := h.mem.mp hx
    cases hii'
    simp [hi] at hj
  | some j₀ =>
    have hx : ListNode.slot i ∈ L j₀ := h.mem.mpr ⟨i, rfl, hi⟩
    obtain ⟨l, l', hL⟩ := List.append_of_mem hx
    obtain ⟨hnm, hpm⟩ := h.rings.neighbours_mem hx
    have hnd : (l ++ .slot i :: l').Nodup := hL ▸ (List.nodup_cons.mp (h.rings.nodup j₀)).2
    refine ⟨_, h.rings.unlink hL, fun {j x} => ?_, fun {i'} hi' => ⟨?_, ?_⟩⟩
    · by_cases hj : j = j₀
      · subst hj
        rw [Function.update_self, hL]
        have hxl : ListNode.slot i ∉ l ++ l' := (List.nodup_middle.mp hnd).notMem
        simp only [List.mem_append, List.mem_cons] at hxl ⊢
        constructor
        · intro hx
          exact ⟨by tauto, by rintro rfl; exact hxl hx⟩
        · tauto
      · rw [Function.update_of_ne hj]
        refine ⟨fun hx' => ⟨hx', ?_⟩, And.left⟩
        rintro rfl
        obtain ⟨i', hii', hj'⟩ := h.mem.mp hx'
        cases hii'
        exact hj (Option.some.inj (hj'.symm.trans hi))
    · rw [unlinkNext, Function.update_of_ne, (h.alone hi').1]
      intro heq
      rw [← heq, h.slot_mem, hi'] at hpm
      cases hpm
    · rw [unlinkPrev, Function.update_of_ne, (h.alone hi').2]
      intro heq
      rw [← heq, h.slot_mem, hi'] at hnm
      cases hnm

/-- A slot goes over to the ring of another value. -/
theorem Linked.associate (h : Linked n next prev assoc L) {i : ℕ} (hi : i < n) (j : ℕ) :
    ∃ L', Linked n (linkNext (unlinkNext next prev (.slot i)) (.ssa j) (.slot i))
      (linkPrev (unlinkNext next prev (.slot i)) (unlinkPrev next prev (.slot i))
      (.ssa j) (.slot i))
      (Function.update assoc i (some j)) L' := by
  obtain ⟨L₁, hr, hmem, halone⟩ := h.unlink i
  have hfresh : ∀ j', ListNode.slot i ∉ ListNode.ssa j' :: L₁ j' := fun j' => by simp [hmem]
  refine ⟨_, hr.linkAfter j hfresh, fun {j' x} => ?_, fun {i'} hi' => ?_, fun {i' j'} hi' => ?_⟩
  · by_cases hj : j' = j
    · subst hj
      rw [Function.update_self, List.mem_cons, hmem, h.mem]
      constructor
      · rintro (rfl | ⟨⟨i', rfl, hi'⟩, hne⟩)
        · exact ⟨i, rfl, Function.update_self _ _ _⟩
        · exact ⟨i', rfl, by rwa [Function.update_of_ne (fun hii' => hne (by rw [hii']))]⟩
      · rintro ⟨i', rfl, hi'⟩
        by_cases hii' : i' = i
        · exact Or.inl (by rw [hii'])
        · rw [Function.update_of_ne hii'] at hi'
          exact Or.inr ⟨⟨i', rfl, hi'⟩, fun heq => hii' (ListNode.slot.inj heq)⟩
    · rw [Function.update_of_ne hj, hmem, h.mem]
      constructor
      · rintro ⟨⟨i', rfl, hi'⟩, hne⟩
        exact ⟨i', rfl, by rwa [Function.update_of_ne (fun hii' => hne (by rw [hii']))]⟩
      · rintro ⟨i', rfl, hi'⟩
        by_cases hii' : i' = i
        · subst hii'
          rw [Function.update_self] at hi'
          exact absurd (Option.some.inj hi').symm hj
        · rw [Function.update_of_ne hii'] at hi'
          exact ⟨⟨i', rfl, hi'⟩, fun heq => hii' (ListNode.slot.inj heq)⟩
  · have hii' : i' ≠ i := by
      rintro rfl
      simp at hi'
    rw [Function.update_of_ne hii'] at hi'
    have hne : ListNode.slot i' ≠ .slot i := fun heq => hii' (ListNode.slot.inj heq)
    have hnm := hr.next_head_mem j
    obtain ⟨ha, hb⟩ := halone hi'
    refine ⟨?_, ?_⟩
    · rw [linkNext, Function.update_of_ne hne, Function.update_of_ne (by simp), ha]
    · rw [linkPrev, Function.update_of_ne hne, Function.update_of_ne, hb]
      intro heq
      rw [← heq] at hnm
      simp [hmem, h.mem, hi'] at hnm
  · by_cases hii' : i' = i
    · exact hii' ▸ hi
    · rw [Function.update_of_ne hii'] at hi'
      exact h.bound hi'

/-- A slot leaves its ring. -/
theorem Linked.deassociate (h : Linked n next prev assoc L) (i : ℕ) :
    ∃ L', Linked n (Function.update (unlinkNext next prev (.slot i)) (.slot i) (.slot i))
      (Function.update (unlinkPrev next prev (.slot i)) (.slot i) (.slot i))
      (Function.update assoc i none) L' := by
  obtain ⟨L₁, hr, hmem, halone⟩ := h.unlink i
  have hne : ∀ j x, x ∈ ListNode.ssa j :: L₁ j → x ≠ .slot i := by
    rintro j x hx rfl
    simp [hmem] at hx
  refine ⟨L₁, hr.congr (fun j x hx => Function.update_of_ne (hne j x hx) _ _)
    (fun j x hx => Function.update_of_ne (hne j x hx) _ _), fun {j x} => ?_, fun {i'} hi' => ?_,
    fun {i' j'} hi' => ?_⟩
  · rw [hmem, h.mem]
    constructor
    · rintro ⟨⟨i', rfl, hi'⟩, hne'⟩
      exact ⟨i', rfl, by rwa [Function.update_of_ne (fun hii' => hne' (by rw [hii']))]⟩
    · rintro ⟨i', rfl, hi'⟩
      by_cases hii' : i' = i
      · subst hii'
        simp at hi'
      · rw [Function.update_of_ne hii'] at hi'
        exact ⟨⟨i', rfl, hi'⟩, fun heq => hii' (ListNode.slot.inj heq)⟩
  · by_cases hii' : i' = i
    · subst hii'
      simp
    · rw [Function.update_of_ne hii'] at hi'
      have hne' : ListNode.slot i' ≠ .slot i := fun heq => hii' (ListNode.slot.inj heq)
      rw [Function.update_of_ne hne', Function.update_of_ne hne']
      exact halone hi'
  · by_cases hii' : i' = i
    · subst hii'
      simp at hi'
    · rw [Function.update_of_ne hii'] at hi'
      exact h.bound hi'

/-- A ring of slots has at most as many members as there are slots. -/
theorem Linked.length_le (h : Linked n next prev assoc L) (j : ℕ) : (L j).length ≤ n := by
  have hnd := (List.nodup_cons.mp (h.rings.nodup j)).2
  have hsub : L j ⊆ (List.range n).map ListNode.slot := by
    intro x hx
    obtain ⟨i, rfl, hi⟩ := h.mem.mp hx
    exact List.mem_map.mpr ⟨i, List.mem_range.mpr (h.bound hi), rfl⟩
  simpa using (List.subperm_of_subset hnd hsub).length_le

/-- One event added to each slot of a list of nodes. -/
def addEvents (b : DfgOsrExitMapBuilder) (l : List ListNode) (value : BitVec 16) :
    DfgOsrExitMapBuilder :=
  { b with info := fun i =>
      if ListNode.slot i ∈ l then addEventImpl b.curOsrExitOrd value (b.info i) else b.info i }

/-- **The loop of `SetForAllSlotsAssociatedWith`** adds one event to each slot of the ring. -/
theorem setAlong_eq (value : BitVec 16) {h : ListNode} : ∀ {l : List ListNode} {a : ListNode}
    {b : DfgOsrExitMapBuilder} {fuel : ℕ}, Path b.next b.prev a l h → l.Nodup → h ∉ l →
      (∀ x ∈ l, ∃ i, x = .slot i ∧ i < b.numSlots) → l.length < fuel →
      setAlong h value fuel (b.next a) b = some (b.addEvents l value)
  | [], a, b, fuel + 1, hp, _, _, _, _ => by simp [setAlong, hp.1, addEvents]
  | x :: l, a, b, fuel + 1, hp, hnd, hh, hs, hf => by
    obtain ⟨hx, hnd'⟩ := List.nodup_cons.mp hnd
    obtain ⟨i, rfl, hi⟩ := hs x (by simp)
    have hne : ListNode.slot i ≠ h := fun heq => hh (by simp [heq])
    have hrec := setAlong_eq value (b := b.addEvent i value) hp.2.2 hnd'
      (fun hm => hh (List.mem_cons_of_mem _ hm)) (fun y hy => hs y (List.mem_cons_of_mem _ hy))
      (Nat.lt_of_succ_lt_succ hf)
    simp only [setAlong, hp.1, if_neg hne, if_pos hi]
    refine hrec.trans (congrArg some ?_)
    simp only [addEvents, addEvent, DfgOsrExitMapBuilder.mk.injEq, true_and]
    funext i'
    by_cases hii' : i' = i
    · subst hii'
      simp [hx]
    · simp [hii']

/-! ## Refinement

Each call of the builder does to its lists what it does to the array. -/

/-- **The builder refines the array**: exit ordinals count the checkpoints, the rings spell the
association and each slot's events record its history. -/
structure Refines (b : DfgOsrExitMapBuilder) (a : ExitMap) : Prop where
  cur : b.curOsrExitOrd = a.checkpoints.length
  cur_le : b.curOsrExitOrd ≤ 65534
  linked : ∃ L, Linked b.numSlots b.next b.prev a.assoc L
  records : ∀ i, Records b.curOsrExitOrd (b.info i) (a.value i) fun k => a.atExit k i

/-- The new builder stands for the empty array. -/
theorem init_refines (numSlots : ℕ) : Refines (init numSlots) ExitMap.init where
  cur := rfl
  cur_le := Nat.zero_le _
  linked := ⟨fun _ => [], ⟨fun _ => ⟨rfl, rfl⟩, by simp, by simp⟩, by simp [ExitMap.init],
    fun _ => ⟨rfl, rfl⟩, by simp [ExitMap.init]⟩
  records i := by
    refine ⟨List.Pairwise.nil, by simp [init], rfl, fun k hk => ?_⟩
    exact absurd hk (Nat.not_lt_zero k)

/-- Adding an event to one slot, whatever happened to the rings. -/
theorem Refines.addEvent_records {b : DfgOsrExitMapBuilder} {a : ExitMap} (h : Refines b a)
    (slot : ℕ) (value : BitVec 16) (i : ℕ) :
    Records b.curOsrExitOrd
      (Function.update b.info slot (addEventImpl b.curOsrExitOrd value (b.info slot)) i)
      (Function.update a.value slot (some value) i) fun k => a.atExit k i := by
  by_cases hi : i = slot
  · subst hi
    rw [Function.update_self, Function.update_self]
    exact (h.records i).addEventImpl value
  · rw [Function.update_of_ne hi, Function.update_of_ne hi]
    exact h.records i

/-- The call that rewrites a whole ring never gets stuck. -/
theorem Refines.call_setForAll {b : DfgOsrExitMapBuilder} {a : ExitMap} (h : Refines b a) (j : ℕ)
    (value : BitVec 16) :
    ∃ L, Linked b.numSlots b.next b.prev a.assoc L ∧
      b.call (.setForAllSlotsAssociatedWith j value) = some (b.addEvents (L j) value) := by
  obtain ⟨L, hL⟩ := h.linked
  have hnd := List.nodup_cons.mp (hL.rings.nodup j)
  refine ⟨L, hL, setAlong_eq value (hL.rings.ring j) hnd.2 hnd.1 (fun x hx => ?_)
    (Nat.lt_succ_of_le (hL.length_le j))⟩
  obtain ⟨i, rfl, hi⟩ := hL.mem.mp hx
  exact ⟨i, rfl, hL.bound hi⟩

/-- **One call.** -/
theorem Refines.call {b b' : DfgOsrExitMapBuilder} {a : ExitMap} (h : Refines b a) {c : Call}
    (hc : b.call c = some b') : Refines b' (a.call c) ∧ b'.numSlots = b.numSlots := by
  cases c with
  | setUnassociated slot value =>
    simp only [DfgOsrExitMapBuilder.call] at hc
    split at hc
    · obtain rfl := Option.some.inj hc
      exact ⟨⟨h.cur, h.cur_le, h.linked, h.addEvent_records slot value⟩, rfl⟩
    · cases hc
  | setAndAssociate j slot value =>
    simp only [DfgOsrExitMapBuilder.call] at hc
    split at hc
    · next hslot =>
      obtain rfl := Option.some.inj hc
      obtain ⟨L, hL⟩ := h.linked
      exact ⟨⟨h.cur, h.cur_le, hL.associate hslot j, h.addEvent_records slot value⟩, rfl⟩
    · cases hc
  | setAndDeassociate slot value =>
    simp only [DfgOsrExitMapBuilder.call] at hc
    split at hc
    · obtain rfl := Option.some.inj hc
      obtain ⟨L, hL⟩ := h.linked
      exact ⟨⟨h.cur, h.cur_le, hL.deassociate slot, h.addEvent_records slot value⟩, rfl⟩
    · cases hc
  | setForAllSlotsAssociatedWith j value =>
    obtain ⟨L, hL, heq⟩ := h.call_setForAll j value
    obtain rfl := Option.some.inj (heq.symm.trans hc)
    refine ⟨⟨h.cur, h.cur_le, h.linked, fun i => ?_⟩, rfl⟩
    simp only [addEvents, ExitMap.call]
    by_cases hi : a.assoc i = some j
    · rw [if_pos (hL.mem.mpr ⟨i, rfl, hi⟩), if_pos hi]
      exact (h.records i).addEventImpl value
    · rw [if_neg (fun hm => hi ?_), if_neg hi]
      · exact h.records i
      · obtain ⟨i', hii', hi'⟩ := hL.mem.mp hm
        cases hii'
        exact hi'
  | addOsrExitPoint =>
    simp only [DfgOsrExitMapBuilder.call] at hc
    split at hc
    · cases hc
    · next hlt =>
      obtain rfl := Option.some.inj hc
      have hle := h.cur_le
      refine ⟨⟨by simp [ExitMap.call, h.cur], by simp only; omega, h.linked, fun i => ?_⟩, rfl⟩
      refine (h.records i).addOsrExitPoint (fun k hk => ?_) ?_
      · rw [h.cur] at hk
        simp only [ExitMap.atExit, ExitMap.call, List.getElem?_append_left hk]
      · simp [ExitMap.atExit, ExitMap.call, h.cur]

/-- **Every admitted sequence of calls**, by induction from one call. -/
theorem Refines.run : ∀ {cs : List Call} {b b' : DfgOsrExitMapBuilder} {a : ExitMap},
    Refines b a → b.run cs = some b' → Refines b' (a.run cs) ∧ b'.numSlots = b.numSlots
  | [], b, b', a, h, hr => by
    obtain rfl := Option.some.inj hr
    exact ⟨h, rfl⟩
  | c :: cs, b, b', a, h, hr => by
    obtain ⟨b₁, h₁, hrest⟩ := Option.bind_eq_some_iff.mp hr
    obtain ⟨hc, hn⟩ := h.call h₁
    obtain ⟨hr', hn'⟩ := Refines.run hc hrest
    exact ⟨hr', hn'.trans hn⟩

/-! ## Reading the map back -/

/-- `QueryCurrentValue`. -/
def queryCurrentValue (b : DfgOsrExitMapBuilder) (slot : ℕ) : Option (BitVec 16) :=
  (b.info slot).head?.map Prod.snd

/-- The loop of `ForEachSlotAssociatedWith`, as `setAlong` follows the ring. -/
def slotsAlong (b : DfgOsrExitMapBuilder) (ssaNode : ListNode) : ℕ → ListNode → List ℕ
  | 0, _ => []
  | fuel + 1, cur =>
    if cur = ssaNode then []
    else match cur with
      | .slot i => i :: slotsAlong b ssaNode fuel (b.next cur)
      | .ssa _ => []

/-- The slots `ForEachSlotAssociatedWith` visits. -/
def slotsAssociatedWith (b : DfgOsrExitMapBuilder) (ssaNode : ℕ) : List ℕ :=
  b.slotsAlong (.ssa ssaNode) (b.numSlots + 1) (b.next (.ssa ssaNode))

/-- Following a ring gives the slots in it. -/
theorem slotsAlong_eq {b : DfgOsrExitMapBuilder} {h : ListNode} : ∀ {l : List ListNode}
    {a : ListNode} {fuel : ℕ}, Path b.next b.prev a l h → h ∉ l → (∀ x ∈ l, ∃ i, x = .slot i) →
      l.length < fuel → (b.slotsAlong h fuel (b.next a)).map .slot = l
  | [], a, fuel + 1, hp, _, _, _ => by simp [slotsAlong, hp.1]
  | x :: l, a, fuel + 1, hp, hh, hs, hf => by
    obtain ⟨i, rfl⟩ := hs x (by simp)
    have hne : ListNode.slot i ≠ h := fun heq => hh (by simp [heq])
    have hrec := slotsAlong_eq hp.2.2 (fun hm => hh (List.mem_cons_of_mem _ hm))
      (fun y hy => hs y (List.mem_cons_of_mem _ hy)) (Nat.lt_of_succ_lt_succ hf)
    simp only [slotsAlong, hp.1, if_neg hne, List.map_cons, hrec]

/-- The ring of an SSA value visits exactly the slots associated with it. -/
theorem Refines.mem_slotsAssociatedWith {b : DfgOsrExitMapBuilder} {a : ExitMap} (h : Refines b a)
    {i j : ℕ} : i ∈ b.slotsAssociatedWith j ↔ a.assoc i = some j := by
  obtain ⟨L, hL⟩ := h.linked
  have hnd := List.nodup_cons.mp (hL.rings.nodup j)
  have hslots : ∀ x ∈ L j, ∃ i, x = ListNode.slot i := by
    intro x hx
    obtain ⟨i, rfl, -⟩ := hL.mem.mp hx
    exact ⟨i, rfl⟩
  have heq : (b.slotsAssociatedWith j).map .slot = L j :=
    slotsAlong_eq (hL.rings.ring j) hnd.1 hslots (Nat.lt_succ_of_le (hL.length_le j))
  have hmem : ListNode.slot i ∈ L j ↔ i ∈ b.slotsAssociatedWith j := by
    rw [← heq]
    simp
  rw [← hmem, hL.mem]
  simp

/-- The current value of a slot is read back. -/
theorem Refines.queryCurrentValue_eq {b : DfgOsrExitMapBuilder} {a : ExitMap} (h : Refines b a)
    (i : ℕ) : b.queryCurrentValue i = a.value i := (h.records i).now_eq

end DfgOsrExitMapBuilder

end Dsom
