import Dsom.Foundations.Chain
import Mathlib.Algebra.Group.Nat.Defs
import Mathlib.Data.List.Forall2
import Mathlib.Data.List.GetD
import Mathlib.Data.List.Induction
import Mathlib.Data.List.InsertIdx
import Mathlib.Data.List.TakeDrop
import Mathlib.Order.Basic
import Mathlib.Order.Nat

/-!
# Dfg/BatchedInsertions — many insertions into a block at once

`BatchedInsertions` of `drt/dfg_node.h` collects insertions, each before a node of the old list, and
commits them in one pass from the back.  If they were added in order of their places they are merged
directly, else they are first linked into one list for each place, the latest first.

`inserted` is the list that is meant.  Both passes fill a buffer from the back (`Filled`): what is
behind the cursor is the end of `inserted`, what is in front of it is still the old list.
-/

namespace Dsom

/-- `Insertion`: before the node with this index, or at the end. -/
structure Insertion (α : Type) where
  insertBefore : ℕ
  node : α
  deriving DecidableEq

namespace BatchedInsertions

variable {α : Type}

/-! ## The list that is meant

The insertions in front of a node are in its bucket, in the order they were added. -/

/-- The nodes to be inserted before index `j`, in the order of the insertions. -/
def bucket (ins : List (Insertion α)) (j : ℕ) : List α :=
  (ins.filter fun i => i.insertBefore == j).map Insertion.node

/-- Old nodes, of which the first has index `j`, with the insertions among them. -/
def insertedFrom (ins : List (Insertion α)) : ℕ → List α → List α
  | j, [] => bucket ins j
  | j, x :: nodes => bucket ins j ++ x :: insertedFrom ins (j + 1) nodes

/-- **The list that is meant.** -/
def inserted (ins : List (Insertion α)) (nodes : List α) : List α := insertedFrom ins 0 nodes

/-- A single insertion: the old node has moved by the insertions at its place and in front of it. -/
def insertNext (s : List (Insertion α) × List α) (i : Insertion α) :
    List (Insertion α) × List α :=
  (s.1 ++ [i], s.2.insertIdx
    (i.insertBefore + s.1.countP fun i' => decide (i'.insertBefore ≤ i.insertBefore)) i.node)

/-- One insertion after another. -/
def insertSequentially (ins : List (Insertion α)) (nodes : List α) : List α :=
  (ins.foldl insertNext ([], nodes)).2

variable {ins post : List (Insertion α)} {x : Insertion α} {old nodes : List α} {j k p : ℕ}

/-- The buckets of two lists of insertions, one after the other. -/
theorem bucket_append (ins ins' : List (Insertion α)) (j : ℕ) :
    bucket (ins ++ ins') j = bucket ins j ++ bucket ins' j := by
  simp [bucket]

/-- Nothing is inserted at a place that no insertion names. -/
theorem bucket_eq_nil (h : ∀ i ∈ ins, i.insertBefore ≠ j) : bucket ins j = [] := by
  simp only [bucket, List.map_eq_nil_iff, List.filter_eq_nil_iff, beq_iff_eq]
  exact h

theorem bucket_singleton_of_ne (h : x.insertBefore ≠ j) : bucket [x] j = [] :=
  bucket_eq_nil (by simpa using h)

/-- Only the buckets from the place on matter. -/
theorem insertedFrom_congr {ins' : List (Insertion α)}
    (h : ∀ i, j ≤ i → bucket ins i = bucket ins' i) :
    insertedFrom ins j nodes = insertedFrom ins' j nodes := by
  induction nodes generalizing j with
  | nil => exact h j le_rfl
  | cons x nodes ih =>
    rw [insertedFrom, insertedFrom, h j le_rfl, ih fun i hi => h i (by omega)]

/-- What is in front of an old node starts with the old nodes in front of it. -/
theorem insertedFrom_split (ins : List (Insertion α)) (hk : k ≤ nodes.length) :
    ∃ front, insertedFrom ins j nodes = front ++ insertedFrom ins (j + k) (nodes.drop k)
      ∧ (nodes.take k).Sublist front := by
  induction k generalizing j nodes with
  | zero => exact ⟨[], by simp, by simp⟩
  | succ k ih =>
    cases nodes with
    | nil => simp at hk
    | cons x nodes =>
      have hk' : k ≤ nodes.length := by simpa using hk
      obtain ⟨front, heq, hsub⟩ := ih (j := j + 1) hk'
      refine ⟨bucket ins j ++ x :: front, ?_, ?_⟩
      · rw [insertedFrom, heq, show j + 1 + k = j + (k + 1) by omega]
        simp
      · exact (hsub.cons_cons x).trans (List.sublist_append_right _ _)

/-- Nothing is inserted among the first nodes. -/
theorem insertedFrom_eq_append (hins : ∀ i ∈ ins, j + k ≤ i.insertBefore)
    (hk : k ≤ nodes.length) :
    insertedFrom ins j nodes = nodes.take k ++ insertedFrom ins (j + k) (nodes.drop k) := by
  induction k generalizing j nodes with
  | zero => simp
  | succ k ih =>
    cases nodes with
    | nil => simp at hk
    | cons x nodes =>
      have hempty : bucket ins j = [] := bucket_eq_nil fun i hi => by
        have := hins i hi
        omega
      rw [insertedFrom, hempty, List.nil_append,
        ih (fun i hi => by have := hins i hi; omega) (by simpa using hk),
        show j + 1 + k = j + (k + 1) by omega]
      simp

theorem insertedFrom_cons (x : Insertion α) (post : List (Insertion α)) (nodes : List α) :
    insertedFrom (x :: post) x.insertBefore nodes
      = x.node :: insertedFrom post x.insertBefore nodes := by
  have hhead : bucket (x :: post) x.insertBefore = x.node :: bucket post x.insertBefore := by
    simp [bucket]
  cases nodes with
  | nil => exact hhead
  | cons y nodes =>
    have htail : insertedFrom (x :: post) (x.insertBefore + 1) nodes
        = insertedFrom post (x.insertBefore + 1) nodes :=
      insertedFrom_congr fun i hi => by
        rw [show x :: post = [x] ++ post from rfl, bucket_append, bucket_singleton_of_ne (by omega),
          List.nil_append]
    rw [insertedFrom, insertedFrom, hhead, htail]
    rfl

/-- The insertions at the first place, and those behind it. -/
theorem countP_insertBefore (ins : List (Insertion α)) (j n : ℕ) :
    ins.countP (fun i => decide (j ≤ i.insertBefore ∧ i.insertBefore ≤ j + (n + 1)))
      = ins.countP (fun i => i.insertBefore == j)
        + ins.countP fun i => decide (j + 1 ≤ i.insertBefore ∧ i.insertBefore ≤ j + 1 + n) := by
  induction ins with
  | nil => rfl
  | cons i ins ih =>
    simp only [List.countP_cons, ih, decide_eq_true_eq, beq_iff_eq]
    split_ifs <;> omega

/-- Each insertion from the place on adds one node. -/
theorem length_insertedFrom (ins : List (Insertion α)) (j : ℕ) (nodes : List α) :
    (insertedFrom ins j nodes).length = nodes.length
      + ins.countP fun i => decide (j ≤ i.insertBefore ∧ i.insertBefore ≤ j + nodes.length) := by
  induction nodes generalizing j with
  | nil =>
    rw [insertedFrom, bucket, List.length_map, ← List.countP_eq_length_filter, List.length_nil,
      Nat.zero_add]
    exact List.countP_congr fun i _ => by simp; omega
  | cons x nodes ih =>
    rw [insertedFrom, List.length_append, List.length_cons, ih, List.length_cons, bucket,
      List.length_map, ← List.countP_eq_length_filter]
    have hsplit := countP_insertBefore ins j nodes.length
    omega

/-- Every insertion adds one node. -/
theorem length_inserted (hins : ∀ i ∈ ins, i.insertBefore ≤ nodes.length) :
    (inserted ins nodes).length = nodes.length + ins.length := by
  rw [inserted, length_insertedFrom, List.countP_eq_length.mpr]
  intro i hi
  have := hins i hi
  simp only [decide_eq_true_eq]
  omega

/-- What comes behind the insertions before index `k`. -/
def behind (ins : List (Insertion α)) (old : List α) (k : ℕ) : List α :=
  match old.drop k with
  | [] => []
  | x :: nodes => x :: insertedFrom ins (k + 1) nodes

theorem insertedFrom_eq_behind (ins : List (Insertion α)) (old : List α) (k : ℕ) :
    insertedFrom ins k (old.drop k) = bucket ins k ++ behind ins old k := by
  unfold behind
  cases old.drop k with
  | nil => simp [insertedFrom]
  | cons x nodes => rfl

/-- Behind a place that exists stands its old node. -/
theorem behind_of_lt (ins : List (Insertion α)) (hk : k < old.length) :
    behind ins old k = old[k] :: insertedFrom ins (k + 1) (old.drop (k + 1)) := by
  unfold behind
  rw [List.drop_eq_getElem_cons hk]

/-! ## Filling a buffer from the back

The cursor goes down; behind it stands what is already in place, before it the old nodes that have
yet to be moved. -/

/-- The node vector while it is filled; the old values below `oldVectorIndex` are still to move. -/
structure Cursor (α : Type) where
  nodes : List α
  curIndex : ℕ
  oldVectorIndex : ℕ

namespace Cursor

/-- `nodes[--curIndex] = n`. -/
def emit (c : Cursor α) (n : α) : Cursor α where
  nodes := c.nodes.set (c.curIndex - 1) n
  curIndex := c.curIndex - 1
  oldVectorIndex := c.oldVectorIndex

/-- Behind the cursor is `suffix`, and the first `k` nodes are the old ones. -/
structure Filled (old : List α) (k : ℕ) (suffix : List α) (c : Cursor α) : Prop where
  drop : c.nodes.drop c.curIndex = suffix
  length : c.nodes.length = c.curIndex + suffix.length
  take : c.nodes.take k = old.take k
  le : k ≤ c.curIndex

variable {c : Cursor α} {suffix : List α} {n : α}

/-- Fewer old nodes have yet to be moved. -/
theorem Filled.anti (h : Filled old k suffix c) (hp : p ≤ k) : Filled old p suffix c where
  drop := h.drop
  length := h.length
  take := by
    have := congrArg (List.take p) h.take
    rwa [List.take_take, List.take_take, Nat.min_eq_left hp] at this
  le := hp.trans h.le

/-- The next node is written in front of what is in place. -/
theorem Filled.emit (h : Filled old k suffix c) (hk : k < c.curIndex) :
    Filled old k (n :: suffix) (c.emit n) where
  drop := by
    have hlt : c.curIndex - 1 < c.nodes.length := by have := h.length; omega
    simp only [Cursor.emit]
    rw [List.drop_eq_getElem_cons (by simpa using hlt), List.getElem_set_self,
      List.drop_set_of_lt (by omega), show c.curIndex - 1 + 1 = c.curIndex by omega, h.drop]
  length := by
    have := h.length
    simp only [Cursor.emit, List.length_set, List.length_cons]
    omega
  take := by
    rw [← h.take]
    simp only [Cursor.emit]
    rw [List.take_set_of_le (by omega)]
  le := by
    simp only [Cursor.emit]
    omega

/-- The cursor has met the old nodes. -/
theorem Filled.nodes_eq (h : Filled old k suffix c) (hk : c.curIndex = k) :
    c.nodes = old.take k ++ suffix := by
  rw [← h.take, ← h.drop, hk, List.take_append_drop]

end Cursor

open Cursor

/-! ## The merging pass

Sorted insertions are merged with the old nodes from the back, in place. -/

section Merging

variable [Inhabited α]

/-- `ResizeVectorTo(nodes, n, nullptr)`. -/
def resizeVectorTo (nodes : List α) (n : ℕ) : List α :=
  nodes ++ List.replicate (n - nodes.length) default

/-- One round of `insertOldVectorValuesDownto`. -/
def Cursor.moveOldValue (c : Cursor α) : Cursor α :=
  { c with oldVectorIndex := c.oldVectorIndex - 1 }.emit
    (c.nodes.getD (c.oldVectorIndex - 1) default)

/-- `insertOldVectorValuesDownto`: `while (oldVectorIndex > targetIdx)`. -/
def Cursor.insertOldVectorValuesDownto (c : Cursor α) (targetIdx : ℕ) : Cursor α :=
  Cursor.moveOldValue^[c.oldVectorIndex - targetIdx] c

/-- One insertion of the merging pass. -/
def Cursor.insertSorted (i : Insertion α) (c : Cursor α) : Cursor α :=
  (c.insertOldVectorValuesDownto i.insertBefore).emit i.node

/-- The buffer at the start of either pass. -/
def startCursor (nodes : List α) (ins : List (Insertion α)) : Cursor α where
  nodes := resizeVectorTo nodes (nodes.length + ins.length)
  curIndex := nodes.length + ins.length
  oldVectorIndex := nodes.length

/-- **`DoSortedInsertion`**, from the last insertion to the first. -/
def doSortedInsertion (ins : List (Insertion α)) (nodes : List α) : List α :=
  (ins.foldr Cursor.insertSorted (startCursor nodes ins)).nodes

/-- At the start nothing is in place and every old node has to be moved. -/
theorem filled_startCursor (old : List α) (ins : List (Insertion α)) :
    Filled old old.length [] (startCursor old ins) where
  drop := by simp [startCursor, resizeVectorTo]
  length := by simp [startCursor, resizeVectorTo]
  take := by simp [startCursor, resizeVectorTo]
  le := by simp [startCursor]

theorem getD_of_take {nodes old : List α} (h : nodes.take k = old.take k) (hp : p < k)
    (hk : k ≤ old.length) : nodes.getD p default = old[p] := by
  have hget := congrArg (fun l => l[p]?) h
  simp only [List.getElem?_take_of_lt hp] at hget
  rw [List.getD_eq_getElem?_getD, hget, List.getElem?_eq_getElem (by omega), Option.getD_some]

/-- Moving old values keeps the distance between the two indices. -/
theorem Cursor.Filled.insertOldVectorValuesDownto {c : Cursor α} {suffix : List α} (hp : p ≤ k)
    (hk : k ≤ old.length) (hold : c.oldVectorIndex = k) (h : Filled old k suffix c) :
    Filled old p ((old.take k).drop p ++ suffix) (c.insertOldVectorValuesDownto p)
      ∧ (c.insertOldVectorValuesDownto p).oldVectorIndex = p
      ∧ (c.insertOldVectorValuesDownto p).curIndex + k = c.curIndex + p := by
  obtain ⟨d, rfl⟩ := Nat.exists_eq_add_of_le hp
  rw [Cursor.insertOldVectorValuesDownto, hold, show p + d - p = d by omega]
  clear hp
  induction d generalizing c suffix with
  | zero =>
    refine ⟨?_, hold, rfl⟩
    rw [List.drop_eq_nil_of_le (by rw [List.length_take]; omega)]
    exact h
  | succ d ih =>
    have hval : c.nodes.getD (c.oldVectorIndex - 1) default = old[p + d] := by
      rw [hold]
      exact getD_of_take h.take (by omega) hk
    have hle := h.le
    have hmoved : Filled old (p + d) (old[p + d] :: suffix) c.moveOldValue := by
      rw [Cursor.moveOldValue, hval]
      exact Filled.emit (c := { c with oldVectorIndex := c.oldVectorIndex - 1 })
        ⟨h.drop, h.length, (h.anti (by omega)).take, by simp only; omega⟩ (by simp only; omega)
    obtain ⟨hfilled, hindex, hcur⟩ := ih (by omega)
      (by simp only [Cursor.moveOldValue, Cursor.emit]; omega) hmoved
    have hcut : (old.take (p + d)).drop p ++ old[p + d] :: suffix
        = (old.take (p + (d + 1))).drop p ++ suffix := by
      rw [← Nat.add_assoc, List.take_succ_eq_append_getElem (by omega),
        List.drop_append_of_le_length (by simp; omega)]
      simp
    rw [Function.iterate_succ_apply]
    refine ⟨hcut ▸ hfilled, hindex, ?_⟩
    simp only [Cursor.moveOldValue, Cursor.emit] at hcur
    simp only [Cursor.moveOldValue, Cursor.emit]
    omega

/-- Where the old nodes still to be moved end once `post` has been inserted. -/
def sortedEnd (old : List α) : List (Insertion α) → ℕ
  | [] => old.length
  | i :: _ => i.insertBefore

/-- The state of the merging pass when the insertions `post` are done and `pre` are left. -/
structure SortedState (old : List α) (pre : ℕ) (post : List (Insertion α)) (c : Cursor α) :
    Prop where
  filled : Filled old (sortedEnd old post)
    (insertedFrom post (sortedEnd old post) (old.drop (sortedEnd old post))) c
  index : c.oldVectorIndex = sortedEnd old post
  cur : c.curIndex = sortedEnd old post + pre

/-- The next insertion from the back. -/
theorem SortedState.step {pre : ℕ} {c : Cursor α} (hx : x.insertBefore ≤ old.length)
    (hsorted : (x :: post).Pairwise fun i i' => i.insertBefore ≤ i'.insertBefore)
    (hpost : ∀ i ∈ post, i.insertBefore ≤ old.length) (h : SortedState old (pre + 1) post c) :
    SortedState old pre (x :: post) (c.insertSorted x) := by
  rw [List.pairwise_cons] at hsorted
  have hle : x.insertBefore ≤ sortedEnd old post := by
    cases post with
    | nil => exact hx
    | cons i post => exact hsorted.1 i (.head _)
  have hend : sortedEnd old post ≤ old.length := by
    cases post with
    | nil => exact le_rfl
    | cons i post => exact hpost i (.head _)
  have hlater : ∀ i ∈ post, sortedEnd old post ≤ i.insertBefore := by
    cases post with
    | nil => simp
    | cons i post =>
      rintro i' (_ | ⟨_, hi'⟩)
      · exact le_rfl
      · exact (List.pairwise_cons.mp hsorted.2).1 i' hi'
  obtain ⟨hfilled, hold, hcur⟩ := h.filled.insertOldVectorValuesDownto hle hend h.index
  have hcur' := h.cur
  -- no insertion is left between the place of `x` and where the old nodes ended
  have hmerge : (old.take (sortedEnd old post)).drop x.insertBefore
      ++ insertedFrom post (sortedEnd old post) (old.drop (sortedEnd old post))
      = insertedFrom post x.insertBefore (old.drop x.insertBefore) := by
    obtain ⟨d, hd⟩ := Nat.exists_eq_add_of_le hle
    rw [hd] at hlater hend ⊢
    rw [insertedFrom_eq_append (j := x.insertBefore) (k := d) hlater (by simp; omega),
      List.drop_take, List.drop_drop, Nat.add_sub_cancel_left]
  rw [hmerge] at hfilled
  constructor
  · simp only [sortedEnd, insertedFrom_cons]
    exact hfilled.emit (by omega)
  · exact hold
  · simp only [sortedEnd, Cursor.insertSorted, Cursor.emit]
    omega

/-- All the insertions of the list, from the back. -/
theorem sortedState_foldr (old : List α) (pre : List (Insertion α))
    (hins : ∀ i ∈ post, i.insertBefore ≤ old.length)
    (hsorted : post.Pairwise fun i i' => i.insertBefore ≤ i'.insertBefore) :
    SortedState old pre.length post
      (post.foldr Cursor.insertSorted (startCursor old (pre ++ post))) := by
  induction post generalizing pre with
  | nil =>
    refine ⟨?_, rfl, ?_⟩
    · rw [sortedEnd, List.drop_length]
      exact filled_startCursor old _
    · simp [startCursor, sortedEnd]
  | cons x post ih =>
    have h := ih (pre ++ [x]) (fun i hi => hins i (.tail _ hi)) (List.pairwise_cons.mp hsorted).2
    rw [List.append_assoc, List.length_append] at h
    exact h.step (hins x (.head _)) hsorted fun i hi => hins i (.tail _ hi)

/-- **The merging pass is right** when the insertions are in order. -/
theorem doSortedInsertion_eq (hins : ∀ i ∈ ins, i.insertBefore ≤ old.length)
    (hsorted : ins.Pairwise fun i i' => i.insertBefore ≤ i'.insertBefore) :
    doSortedInsertion ins old = inserted ins old := by
  have h := sortedState_foldr old [] hins hsorted
  have hend : sortedEnd old ins ≤ old.length := by
    cases ins with
    | nil => exact le_rfl
    | cons i ins => exact hins i (.head _)
  have hfirst : ∀ i ∈ ins, 0 + sortedEnd old ins ≤ i.insertBefore := by
    cases ins with
    | nil => simp
    | cons i ins =>
      rintro i' (_ | ⟨_, hi'⟩)
      · simp [sortedEnd]
      · simpa [sortedEnd] using (List.pairwise_cons.mp hsorted).1 i' hi'
  rw [doSortedInsertion, inserted, insertedFrom_eq_append hfirst hend, Nat.zero_add]
  exact h.filled.nodes_eq h.cur

end Merging

/-! ## The linking pass

Insertions out of order are first linked into one chain for every place, with no sorting. -/

/-- `static_cast<uint32_t>(-1)`. -/
def noInsertion : ℕ := 2 ^ 32 - 1

/-- One round of the first loop of `DoUnorderedInsertion`: the place of an insertion becomes a link
to the one before it at the same place. -/
def linkInsertion (s : List ℕ × List (Insertion α)) (idx : ℕ) : List ℕ × List (Insertion α) :=
  match s.2[idx]? with
  | none => s
  | some i =>
    (s.1.set i.insertBefore idx,
      s.2.set idx { i with insertBefore := s.1.getD i.insertBefore noInsertion })

/-- `m_radixSortArray` and `m_allInsertions` after the first loop. -/
def linkInsertions (oldSize : ℕ) (ins : List (Insertion α)) : List ℕ × List (Insertion α) :=
  (List.range ins.length).foldl linkInsertion (List.replicate (oldSize + 1) noInsertion, ins)

/-- `insertItems`: `while (idx != -1)`; `none` if the links do not end or lead out of the array. -/
def insertItems (ins : List (Insertion α)) : ℕ → Cursor α → ℕ → Option (Cursor α)
  | fuel, c, idx =>
    if idx = noInsertion then some c
    else
      match fuel with
      | 0 => none
      | fuel + 1 =>
        match ins[idx]? with
        | none => none
        | some i => insertItems ins fuel (c.emit i.node) i.insertBefore

/-- The second loop, for the old nodes below `oldNodeIdx`. -/
def unorderedLoop [Inhabited α] (radixSortArray : List ℕ) (ins : List (Insertion α)) :
    ℕ → Cursor α → Option (Cursor α)
  | 0, c => insertItems ins ins.length c (radixSortArray.getD 0 noInsertion)
  | oldNodeIdx + 1, c => do
    let c ← insertItems ins ins.length c (radixSortArray.getD (oldNodeIdx + 1) noInsertion)
    -- everything in front is in its place
    if c.curIndex - 1 = oldNodeIdx then pure c
    else unorderedLoop radixSortArray ins oldNodeIdx (c.emit (c.nodes.getD oldNodeIdx default))

/-- **`DoUnorderedInsertion`.** -/
def doUnorderedInsertion [Inhabited α] (ins : List (Insertion α)) (nodes : List α) :
    Option (List α) := do
  let (radixSortArray, linked) := linkInsertions nodes.length ins
  let c ← unorderedLoop radixSortArray linked nodes.length (startCursor nodes ins)
  pure c.nodes

/-- A link. -/
def link (idx : ℕ) : Option ℕ := if idx = noInsertion then none else some idx

/-- The link of an insertion that is in a list. -/
def prev (ins : List (Insertion α)) (idx : ℕ) : Option ℕ :=
  ins[idx]?.bind fun i => link i.insertBefore

/-- The node of an insertion. -/
def NodeAt (ins : List (Insertion α)) (idx : ℕ) (n : α) : Prop :=
  (ins[idx]? : Option (Insertion α)).map Insertion.node = some n

/-- **The lists after `t` insertions**: each is the insertions at its place, the latest first. -/
structure LinkState (oldSize : ℕ) (ins : List (Insertion α)) (t : ℕ)
    (s : List ℕ × List (Insertion α)) : Prop where
  radix : s.1.length = oldSize + 1
  length : s.2.length = ins.length
  node : ∀ idx : ℕ, s.2[idx]?.map Insertion.node = ins[idx]?.map Insertion.node
  later : ∀ idx : ℕ, t ≤ idx → s.2[idx]? = ins[idx]?
  linked : ∀ j ≤ oldSize, ∃ l, Chain.IsLinked (prev s.2) (link (s.1.getD j noInsertion)) l
    ∧ (∀ idx ∈ l, idx < t) ∧ List.Forall₂ (NodeAt ins) l (bucket (ins.take t) j).reverse

theorem linkState_zero (oldSize : ℕ) (ins : List (Insertion α)) :
    LinkState oldSize ins 0 (List.replicate (oldSize + 1) noInsertion, ins) where
  radix := by simp
  length := rfl
  node _ := rfl
  later _ _ := rfl
  linked j hj := by
    refine ⟨[], ?_, by simp, by simp [bucket]⟩
    rw [List.getD_eq_getElem _ _ (by simp; omega)]
    simp [link]

/-- The next insertion is linked. -/
theorem LinkState.step {oldSize t : ℕ} {s : List ℕ × List (Insertion α)}
    (h : LinkState oldSize ins t s) (ht : t < ins.length) (hins : ins[t].insertBefore ≤ oldSize)
    (hbound : t < noInsertion) : LinkState oldSize ins (t + 1) (linkInsertion s t) := by
  have hget : s.2[t]? = some ins[t] := by rw [h.later t le_rfl, List.getElem?_eq_getElem ht]
  have hlt : t < s.2.length := h.length ▸ ht
  have hradix := h.radix
  simp only [linkInsertion, hget]
  constructor
  · simpa using h.radix
  · simpa using h.length
  · intro idx
    rcases eq_or_ne idx t with rfl | hne
    · simp [List.getElem?_set_self hlt, ← h.node, hget]
    · rw [List.getElem?_set_ne (Ne.symm hne), h.node]
  · intro idx hidx
    rw [List.getElem?_set_ne (by omega), h.later idx (by omega)]
  · intro j hj
    obtain ⟨l, hlinked, hlt', hnodes⟩ := h.linked j hj
    have htake : ins.take (t + 1) = ins.take t ++ [ins[t]] := List.take_succ_eq_append_getElem ht
    have hprev : ∀ idx ∈ l, prev (s.2.set t
        { ins[t] with insertBefore := s.1.getD ins[t].insertBefore noInsertion }) idx
        = prev s.2 idx := by
      intro idx hidx
      have := hlt' idx hidx
      rw [prev, prev, List.getElem?_set_ne (by omega)]
    rw [htake, bucket_append]
    rcases eq_or_ne ins[t].insertBefore j with rfl | hne
    · refine ⟨t :: l, ⟨?_, ?_⟩, ?_, ?_⟩
      · rw [List.getD_eq_getElem _ _ (by simp; omega), List.getElem_set_self, link,
          if_neg (by omega)]
      · rw [prev, List.getElem?_set_self hlt]
        exact hlinked.congr hprev
      · rintro idx (_ | ⟨_, hidx⟩)
        · omega
        · exact Nat.lt_succ_of_lt (hlt' idx hidx)
      · have hlast : bucket [ins[t]] ins[t].insertBefore = [ins[t].node] := by simp [bucket]
        rw [hlast, List.reverse_append]
        exact .cons (by rw [NodeAt, List.getElem?_eq_getElem ht]; rfl) hnodes
    · refine ⟨l, ?_, fun idx hidx => Nat.lt_succ_of_lt (hlt' idx hidx), ?_⟩
      · have hhead : (s.1.set ins[t].insertBefore t).getD j noInsertion
            = s.1.getD j noInsertion := by
          rw [List.getD_eq_getElem?_getD, List.getD_eq_getElem?_getD, List.getElem?_set_ne hne]
        rw [hhead]
        exact hlinked.congr hprev
      · rw [bucket_singleton_of_ne hne, List.append_nil]
        exact hnodes

/-- After the pass every insertion is linked. -/
theorem linkState_linkInsertions {oldSize : ℕ} (hins : ∀ i ∈ ins, i.insertBefore ≤ oldSize)
    (hbound : ins.length ≤ noInsertion) :
    LinkState oldSize ins ins.length (linkInsertions oldSize ins) := by
  have hrun : ∀ t ≤ ins.length, LinkState oldSize ins t ((List.range t).foldl linkInsertion
      (List.replicate (oldSize + 1) noInsertion, ins)) := by
    intro t ht
    induction t with
    | zero => exact linkState_zero oldSize ins
    | succ t ih =>
      rw [List.range_succ, List.foldl_append]
      exact (ih (by omega)).step (by omega) (hins _ (List.getElem_mem _)) (by omega)
  exact hrun ins.length le_rfl

/-- **A list is put in front of what is behind the cursor**, the last node of the list in front. -/
theorem insertItems_eq {l : List ℕ} {ns suffix : List α} {idx fuel : ℕ} {c : Cursor α}
    (hlinked : Chain.IsLinked (prev ins) (link idx) l) (hnodes : List.Forall₂ (NodeAt ins) l ns)
    (hfuel : l.length ≤ fuel) (h : Filled old k suffix c) (hroom : k + ns.length ≤ c.curIndex) :
    ∃ c', insertItems ins fuel c idx = some c' ∧ Filled old k (ns.reverse ++ suffix) c'
      ∧ c'.nodes.length = c.nodes.length := by
  induction hnodes generalizing c suffix idx fuel with
  | nil =>
    refine ⟨c, ?_, by simpa using h, rfl⟩
    have hend : idx = noInsertion := by
      by_contra hne
      simp [link, hne] at hlinked
    cases fuel <;> simp [insertItems, hend]
  | @cons idx' n l ns hnode _ ih =>
    obtain ⟨hhead, htail⟩ := hlinked
    have hne : idx ≠ noInsertion := by
      rintro rfl
      simp [link] at hhead
    rw [link, if_neg hne, Option.some.injEq] at hhead
    subst hhead
    cases fuel with
    | zero => simp at hfuel
    | succ fuel =>
      obtain ⟨i, hi, rfl⟩ := Option.map_eq_some_iff.mp hnode
      rw [prev, hi, Option.bind_some] at htail
      simp only [List.length_cons] at hfuel hroom
      have hfuel' : l.length ≤ fuel := by omega
      obtain ⟨c', hc', hfilled, hlen⟩ := ih htail hfuel' (h.emit (n := i.node) (by omega))
        (by simp only [Cursor.emit]; omega)
      refine ⟨c', ?_, by simpa using hfilled, by simpa [Cursor.emit] using hlen⟩
      rw [insertItems.eq_def]
      simp only [if_neg hne, hi]
      exact hc'

section Unordered

variable {s : List ℕ × List (Insertion α)} {c : Cursor α}

/-- The state of the second loop when the old nodes from index `k` on are in place. -/
structure UnorderedState (ins : List (Insertion α)) (old : List α) (k : ℕ) (c : Cursor α) :
    Prop where
  filled : Filled old k (behind ins old k) c
  length : c.nodes.length = old.length + ins.length

/-- The list at index `k` is inserted. -/
theorem UnorderedState.insertItems (hstate : UnorderedState ins old k c) (hk : k ≤ old.length)
    (hins : ∀ i ∈ ins, i.insertBefore ≤ old.length)
    (hs : LinkState old.length ins ins.length s) :
    ∃ c', insertItems s.2 s.2.length c (s.1.getD k noInsertion) = some c'
      ∧ Filled old k (insertedFrom ins k (old.drop k)) c'
      ∧ c'.nodes.length = old.length + ins.length
      ∧ ∃ front, inserted ins old = front ++ insertedFrom ins k (old.drop k)
        ∧ (old.take k).Sublist front ∧ front.length = c'.curIndex := by
  obtain ⟨l, hlinked, -, hnodes⟩ := hs.linked k hk
  rw [List.take_length] at hnodes
  obtain ⟨front, hfront, hsub⟩ := insertedFrom_split ins (j := 0) hk
  rw [Nat.zero_add] at hfront
  have htotal := length_inserted hins
  have hsublen := hsub.length_le
  have hlen := hstate.filled.length
  rw [hstate.length] at hlen
  rw [inserted, hfront, List.length_append] at htotal
  have hbucket := congrArg List.length (insertedFrom_eq_behind ins old k)
  rw [List.length_append] at hbucket
  rw [List.length_take_of_le hk] at hsublen
  have hfuel : l.length ≤ s.2.length := by
    rw [hnodes.length_eq, List.length_reverse, bucket, List.length_map, hs.length]
    exact List.length_filter_le _ _
  have hnodes' : List.Forall₂ (NodeAt s.2) l (bucket ins k).reverse :=
    hnodes.imp fun idx n h => (hs.node idx).trans h
  obtain ⟨c', hc', hfilled, hlen'⟩ := insertItems_eq hlinked hnodes' hfuel hstate.filled
    (by rw [List.length_reverse]; omega)
  rw [List.reverse_reverse, ← insertedFrom_eq_behind] at hfilled
  rw [hstate.length] at hlen'
  refine ⟨c', hc', hfilled, hlen', front, hfront, hsub, ?_⟩
  have := hfilled.length
  omega

/-- **The second loop is right**: on the early exit nothing is left to be inserted in front. -/
theorem unorderedLoop_eq [Inhabited α] (hstate : UnorderedState ins old k c) (hk : k ≤ old.length)
    (hins : ∀ i ∈ ins, i.insertBefore ≤ old.length)
    (hs : LinkState old.length ins ins.length s) :
    ∃ c', unorderedLoop s.1 s.2 k c = some c' ∧ c'.nodes = inserted ins old := by
  induction k generalizing c with
  | zero =>
    obtain ⟨c', hc', hfilled, -, front, hfront, -, hfrontlen⟩ := hstate.insertItems hk hins hs
    refine ⟨c', hc', ?_⟩
    have hfrontnil : front = [] := List.self_eq_append_left.mp hfront
    rw [hfilled.nodes_eq (by rw [← hfrontlen, hfrontnil, List.length_nil])]
    rfl
  | succ k ih =>
    obtain ⟨c', hc', hfilled, hlen, front, hfront, hsub, hfrontlen⟩ :=
      hstate.insertItems hk hins hs
    have hle := hfilled.le
    rw [unorderedLoop, hc']
    simp only [Option.bind_eq_bind, Option.bind_some]
    split_ifs with hexit
    · refine ⟨c', rfl, ?_⟩
      have htake : old.take (k + 1) = front := hsub.eq_of_length (by
        rw [List.length_take_of_le hk]
        omega)
      rw [hfilled.nodes_eq (k := k + 1) (by omega), hfront, htake]
    · have hval : c'.nodes.getD k default = old[k] := getD_of_take hfilled.take (by omega) hk
      have hbehind := behind_of_lt ins (Nat.lt_of_succ_le hk)
      rw [hval]
      refine ih ⟨?_, ?_⟩ (by omega)
      · rw [hbehind]
        exact (hfilled.anti (by omega)).emit (by omega)
      · simpa [Cursor.emit] using hlen

/-- **The linking pass is right** for every order of the insertions. -/
theorem doUnorderedInsertion_eq [Inhabited α] (hins : ∀ i ∈ ins, i.insertBefore ≤ old.length)
    (hbound : ins.length ≤ noInsertion) :
    doUnorderedInsertion ins old = some (inserted ins old) := by
  have hstart : UnorderedState ins old old.length (startCursor old ins) := by
    refine ⟨?_, by simp [startCursor, resizeVectorTo]⟩
    rw [behind, List.drop_length]
    exact filled_startCursor old ins
  obtain ⟨c, hc, hnodes⟩ :=
    unorderedLoop_eq hstart le_rfl hins (linkState_linkInsertions hins hbound)
  rw [doUnorderedInsertion]
  simp only [hc, Option.bind_eq_bind, Option.bind_some, hnodes]
  rfl

end Unordered

/-! ## The sequence of insertions -/

/-- The batch that has been added up. -/
structure Batch (α : Type) where
  allInsertions : List (Insertion α)
  isSorted : Bool
  deriving DecidableEq

/-- The constructor, `Reset` and `DiscardAll`. -/
def Batch.reset : Batch α where
  allInsertions := []
  isSorted := true

/-- **`Add`.** -/
def Batch.add (b : Batch α) (i : Insertion α) : Batch α where
  allInsertions := b.allInsertions ++ [i]
  isSorted :=
    match b.allInsertions.getLast? with
    | none => b.isSorted
    | some back => if i.insertBefore < back.insertBefore then false else b.isSorted

/-- `CommitImpl`. -/
def Batch.commitImpl [Inhabited α] (b : Batch α) (nodes : List α) : Option (List α) :=
  if b.allInsertions.isEmpty then some nodes
  else if b.isSorted then some (doSortedInsertion b.allInsertions nodes)
  else doUnorderedInsertion b.allInsertions nodes

/-- **`Commit`**: the nodes of the block, and the batch for the next one. -/
def Batch.commit [Inhabited α] (b : Batch α) (nodes : List α) : Option (List α × Batch α) :=
  (b.commitImpl nodes).map fun nodes => (nodes, .reset)

/-- The batch after a sequence of `Add` calls. -/
def Batch.addAll (ins : List (Insertion α)) : Batch α := ins.foldl .add .reset

theorem Batch.allInsertions_addAll (ins : List (Insertion α)) :
    (addAll ins).allInsertions = ins := by
  induction ins using List.reverseRecOn with
  | nil => rfl
  | append_singleton ins i ih =>
    rw [addAll, List.foldl_append, List.foldl_cons, List.foldl_nil]
    change (addAll ins).allInsertions ++ [i] = ins ++ [i]
    rw [ih]

theorem Batch.addAll_concat (ins : List (Insertion α)) (i : Insertion α) :
    addAll (ins ++ [i]) = (addAll ins).add i := by
  rw [addAll, List.foldl_append]
  rfl

/-- The flag says whether the places never go back. -/
theorem Batch.isSorted_addAll (ins : List (Insertion α)) :
    (addAll ins).isSorted
      ↔ ins.Pairwise fun i i' => i.insertBefore ≤ i'.insertBefore := by
  induction ins using List.reverseRecOn with
  | nil => simp [addAll, reset]
  | append_singleton ins i ih =>
    rw [addAll_concat, List.pairwise_append, ← ih, add, allInsertions_addAll]
    rcases List.eq_nil_or_concat ins with rfl | ⟨front, back, rfl⟩
    · simp [addAll, reset]
    · rw [List.concat_eq_append] at ih ⊢
      rw [List.getLast?_concat]
      simp only [List.pairwise_singleton, List.mem_append, List.mem_singleton, true_and]
      split_ifs with hlt
      · simp only [false_iff]
        rintro ⟨-, hle⟩
        have := hle back (.inr rfl) i rfl
        omega
      · refine ⟨fun h => ⟨h, ?_⟩, And.left⟩
        have hsorted := (List.pairwise_append.mp (ih.mp h)).2.2
        rintro i' (hi' | rfl) _ rfl
        · have := hsorted i' hi' back (List.mem_singleton_self back)
          omega
        · omega

/-! ## One insertion after another -/

theorem insertIdx_append_add (l₁ l₂ : List α) (m : ℕ) (n : α) :
    (l₁ ++ l₂).insertIdx (l₁.length + m) n = l₁ ++ l₂.insertIdx m n := by
  induction l₁ with
  | nil => simp
  | cons x l₁ ih =>
    rw [List.cons_append, List.length_cons, Nat.add_right_comm, List.insertIdx_succ_cons, ih]
    rfl

/-- The insertions at one place are its bucket. -/
theorem countP_insertBefore_self (ins : List (Insertion α)) (j : ℕ) :
    ins.countP (fun i => decide (j ≤ i.insertBefore ∧ i.insertBefore ≤ j))
      = (bucket ins j).length := by
  rw [bucket, List.length_map, ← List.countP_eq_length_filter]
  exact List.countP_congr fun i _ => by simp; omega

/-- **One more insertion**: behind the nodes in front of its place and those at it. -/
theorem insertedFrom_concat (ins : List (Insertion α)) (i : Insertion α)
    (hj : j ≤ i.insertBefore) (hi : i.insertBefore ≤ j + nodes.length) :
    insertedFrom (ins ++ [i]) j nodes = (insertedFrom ins j nodes).insertIdx
      (i.insertBefore - j + ins.countP fun i' =>
        decide (j ≤ i'.insertBefore ∧ i'.insertBefore ≤ i.insertBefore)) i.node := by
  obtain ⟨d, hd⟩ := Nat.exists_eq_add_of_le hj
  rw [hd, Nat.add_sub_cancel_left]
  -- the insertions at the first place, when the new one goes there
  have hhere : d = 0 → bucket (ins ++ [i]) j = bucket ins j ++ [i.node] := by
    rintro rfl
    rw [bucket_append]
    simp [bucket, hd]
  induction nodes generalizing j d with
  | nil =>
    simp only [List.length_nil] at hi
    obtain rfl : d = 0 := by omega
    rw [insertedFrom, insertedFrom, hhere rfl, Nat.zero_add, Nat.add_zero,
      countP_insertBefore_self, List.insertIdx_length_self]
  | cons x nodes ih =>
    rw [insertedFrom, insertedFrom]
    cases d with
    | zero =>
      have hrest : insertedFrom (ins ++ [i]) (j + 1) nodes = insertedFrom ins (j + 1) nodes :=
        insertedFrom_congr fun p hp => by
          rw [bucket_append, bucket_singleton_of_ne (by omega), List.append_nil]
      have hpos : (bucket ins j ++ x :: insertedFrom ins (j + 1) nodes).insertIdx
          (bucket ins j).length i.node
          = bucket ins j ++ i.node :: x :: insertedFrom ins (j + 1) nodes :=
        insertIdx_append_add _ _ 0 _
      simp only [hhere rfl, hrest, Nat.zero_add, Nat.add_zero, countP_insertBefore_self, hpos,
        List.append_assoc, List.cons_append, List.nil_append]
    | succ d =>
      have hhere' : bucket (ins ++ [i]) j = bucket ins j := by
        rw [bucket_append, bucket_singleton_of_ne (by omega), List.append_nil]
      simp only [List.length_cons] at hi
      have hrec := ih (j := j + 1) (by omega) (by omega) d (by omega) (by
        rintro rfl
        rw [bucket_append]
        simp [bucket, hd])
      have hcount := countP_insertBefore ins j d
      rw [hhere', hrec, hcount,
        ← List.insertIdx_succ_cons, ← insertIdx_append_add]
      rw [bucket, List.length_map, ← List.countP_eq_length_filter]
      congr 1
      omega

/-- Inserting one after another gives the list that is meant. -/
theorem insertSequentially_eq (hins : ∀ i ∈ ins, i.insertBefore ≤ nodes.length) :
    insertSequentially ins nodes = inserted ins nodes := by
  have hrun : ins.foldl insertNext ([], nodes) = (ins, inserted ins nodes) := by
    induction ins using List.reverseRecOn with
    | nil =>
      have hnone : inserted [] nodes = nodes := by
        rw [inserted, insertedFrom_eq_append (k := nodes.length) (by simp) le_rfl]
        simp [insertedFrom, bucket]
      rw [hnone]
      rfl
    | append_singleton ins i ih =>
      have hi := hins i (by simp)
      rw [List.foldl_append, ih fun i' hi' => hins i' (List.mem_append_left _ hi'),
        List.foldl_cons, List.foldl_nil, insertNext, inserted, inserted,
        insertedFrom_concat ins i (Nat.zero_le _) (by omega)]
      simp
  rw [insertSequentially, hrun]

/-! ## Commit -/

variable [Inhabited α]

/-- **A batch is committed as meant**: whatever the order of the `Add` calls, `Commit` gives the
list in which every node is in front of its old node, which is also what inserting one node after
another gives, and leaves an empty batch; on sorted calls the linking pass would do the same.  There
are at most `noInsertion` insertions: the node vector has four bytes for each node, in an arena of
two gigabytes. -/
theorem commit_addAll (ins : List (Insertion α)) (nodes : List α)
    (hins : ∀ i ∈ ins, i.insertBefore ≤ nodes.length) (hbound : ins.length ≤ noInsertion) :
    (Batch.addAll ins).commit nodes = some (inserted ins nodes, .reset)
      ∧ inserted ins nodes = insertSequentially ins nodes
      ∧ doUnorderedInsertion ins nodes = some (inserted ins nodes)
      ∧ ((Batch.addAll ins).isSorted → doSortedInsertion ins nodes = inserted ins nodes) := by
  have hsorted (h : (Batch.addAll ins).isSorted) :
      doSortedInsertion ins nodes = inserted ins nodes :=
    doSortedInsertion_eq hins ((Batch.isSorted_addAll ins).mp h)
  have hunordered := doUnorderedInsertion_eq hins hbound
  have himpl : (Batch.addAll ins).commitImpl nodes = some (inserted ins nodes) := by
    rw [Batch.commitImpl, Batch.allInsertions_addAll]
    split_ifs with hempty hflag
    · rw [List.isEmpty_iff] at hempty
      subst hempty
      rw [← insertSequentially_eq (by simp)]
      rfl
    · rw [hsorted hflag]
    · exact hunordered
  refine ⟨?_, (insertSequentially_eq hins).symm, hunordered, hsorted⟩
  rw [Batch.commit, himpl]
  rfl

/-- Four insertions out of order, two of them at the same place. -/
theorem commit_addAll_example :
    (Batch.addAll [⟨2, 20⟩, ⟨0, 21⟩, ⟨2, 22⟩, ⟨1, 23⟩]).commit [1, 2]
      = some ([21, 1, 23, 2, 20, 22], Batch.reset) := by
  have h := (commit_addAll (α := ℕ) [⟨2, 20⟩, ⟨0, 21⟩, ⟨2, 22⟩, ⟨1, 23⟩] [1, 2]
    (by decide) (by decide)).1
  rwa [show inserted [⟨2, 20⟩, ⟨0, 21⟩, ⟨2, 22⟩, ⟨1, 23⟩] [1, 2] = [21, 1, 23, 2, 20, 22] from
    rfl] at h

end BatchedInsertions

end Dsom
