import Mathlib.Algebra.BigOperators.Group.Finset.Basic
import Mathlib.Algebra.BigOperators.Group.Finset.Piecewise
import Mathlib.Algebra.GroupWithZero.Nat
import Mathlib.Algebra.Order.BigOperators.Group.Finset
import Mathlib.Data.List.Count
import Mathlib.Data.List.Nodup
import Mathlib.Data.List.Perm.Basic
import Mathlib.Logic.Function.Basic

/-!
# Graph/Condensation — `TopologicallySortedCondensationGraphBuilder`

The components of a graph, each with its nodes, in an order in which edges go forward.  Nodes are
grouped by a counting sort; the components are ordered by removing those without incoming edges,
with the edges between components either all counted or, when there are few components, kept once
each in a bitmap.

The order is complete because the edges between components form no cycle: some rank falls along
them.  The finder numbers the components against the edges, so there the number is a rank.
-/

namespace Dsom

namespace Condensation

/-! ## Grouping the nodes

A counting sort by component: sizes, offsets, then the nodes in their places. -/

section Grouping

variable (numNodes : ℕ) (sccInfo : ℕ → ℕ)

/-- `sccMap[_].m_size`. -/
def sccSize : ℕ → ℕ :=
  (List.range numNodes).foldl
    (fun size i => Function.update size (sccInfo i) (size (sccInfo i) + 1)) fun _ => 0

/-- `sccMap[_].m_offset`, before and after the nodes are placed. -/
def sccOffset (size : ℕ → ℕ) : ℕ → ℕ
  | 0 => 0
  | i + 1 => sccOffset size i + size i

/-- Place a node at the offset of its component, which moves on: the offsets and `sccList`. -/
def place (arrays : (ℕ → ℕ) × (ℕ → ℕ)) (i : ℕ) : (ℕ → ℕ) × (ℕ → ℕ) :=
  let idx := sccInfo i
  (Function.update arrays.1 idx (arrays.1 idx + 1), Function.update arrays.2 (arrays.1 idx) i)

/-- `sccList`. -/
def sccList : ℕ → ℕ :=
  ((List.range numNodes).foldl (place sccInfo)
    (sccOffset (sccSize numNodes sccInfo), fun _ => 0)).2

/-- The nodes of a component, from its offset on. -/
def sccNodes (c : ℕ) : List ℕ :=
  (List.range (sccSize numNodes sccInfo c)).map fun k =>
    sccList numNodes sccInfo (sccOffset (sccSize numNodes sccInfo) c + k)

end Grouping

/-! ## The edges between components

With a bit map an edge between two components is counted once, without it as often as there are
edges. -/

/-- `cdg` and `inDeg`, whose counters are `uint32_t` in the source (`inDeg_le`). -/
structure Degrees where
  cdg : ℕ → ℕ → Bool
  inDeg : ℕ → ℕ

/-- Count an edge of the graph between two components. -/
def countEdge (useBitMap : Bool) (d : Degrees) (cdgSrcOrd cdgDstOrd : ℕ) : Degrees :=
  if cdgSrcOrd ≠ cdgDstOrd then
    if useBitMap then
      if d.cdg cdgSrcOrd cdgDstOrd then d
      else
        { cdg := Function.update d.cdg cdgSrcOrd
            (Function.update (d.cdg cdgSrcOrd) cdgDstOrd true)
          inDeg := Function.update d.inDeg cdgDstOrd (d.inDeg cdgDstOrd + 1) }
    else { d with inDeg := Function.update d.inDeg cdgDstOrd (d.inDeg cdgDstOrd + 1) }
  else d

section Edges

variable (edges : ℕ → List ℕ) (numNodes numSCCs : ℕ) (sccInfo : ℕ → ℕ) (useBitMap : Bool)

/-- The loop over the edges of all nodes. -/
def degrees : Degrees :=
  (List.range numNodes).foldl
    (fun d nodeOrd => (edges nodeOrd).foldl
      (fun d dstNodeOrd => countEdge useBitMap d (sccInfo nodeOrd) (sccInfo dstNodeOrd)) d)
    { cdg := fun _ _ => false, inDeg := fun _ => 0 }

/-- The edges out of a component, as the loop over the worklist goes through them. -/
def outEdges (sccOrd : ℕ) : List ℕ :=
  if useBitMap then
    (List.range numSCCs).filter ((degrees edges numNodes sccInfo useBitMap).cdg sccOrd)
  else
    (((sccNodes numNodes sccInfo sccOrd).flatMap edges).map sccInfo).filter (sccOrd ≠ ·)

end Edges

/-! ## The order

A component is put out when nothing that is left leads to it. -/

/-- An edge out of a component that was written: one less for its destination. -/
def relax (state : (ℕ → ℕ) × List ℕ) (dst : ℕ) : (ℕ → ℕ) × List ℕ :=
  let inDeg := Function.update state.1 dst (state.1 dst - 1)
  (inDeg, if inDeg dst = 0 then dst :: state.2 else state.2)

/-- The loop over the worklist, its back first; the result is `sccOrder`. -/
def orderLoop (out : ℕ → List ℕ) : ℕ → (ℕ → ℕ) × List ℕ → List ℕ → List ℕ
  | fuel + 1, (inDeg, sccOrd :: workList), sccOrder =>
      orderLoop out fuel ((out sccOrd).foldl relax (inDeg, workList)) (sccOrder ++ [sccOrd])
  | _, _, sccOrder => sccOrder

/-- `TopologicallySortedSccInfo::SccInfo`. -/
structure SccInfo where
  offset : ℕ
  size : ℕ
  deriving DecidableEq

/-- `TopologicallySortedSccInfo`. -/
structure TopologicallySortedSccInfo where
  sccList : List SccInfo
  nodeList : List ℕ
  deriving DecidableEq

/-- Append the nodes of a component. -/
def TopologicallySortedSccInfo.push (r : TopologicallySortedSccInfo) (nodes : List ℕ) :
    TopologicallySortedSccInfo where
  sccList := r.sccList ++ [{ offset := r.nodeList.length, size := nodes.length }]
  nodeList := r.nodeList ++ nodes

/-- The nodes of each component. -/
def TopologicallySortedSccInfo.components (r : TopologicallySortedSccInfo) : List (List ℕ) :=
  r.sccList.map fun item => (r.nodeList.drop item.offset).take item.size

section Compute

variable (edges : ℕ → List ℕ) (numNodes numSCCs : ℕ) (sccInfo : ℕ → ℕ)

/-- `sccOrder`. -/
def sccOrder (useBitMap : Bool) : List ℕ :=
  let inDeg := (degrees edges numNodes sccInfo useBitMap).inDeg
  orderLoop (outEdges edges numNodes numSCCs sccInfo useBitMap) numSCCs
    (inDeg, ((List.range numSCCs).filter fun sccOrd => inDeg sccOrd = 0).reverse) []

/-- `ComputeImpl`. -/
def computeImpl (useBitMap : Bool) : TopologicallySortedSccInfo :=
  if numSCCs = 0 then { sccList := [], nodeList := [] }
  else
    (sccOrder edges numNodes numSCCs sccInfo useBitMap).foldl
      (fun r sccOrd => r.push (sccNodes numNodes sccInfo sccOrd)) { sccList := [], nodeList := [] }

/-- `Compute`. -/
def compute (neverUseBitmap : Bool) : TopologicallySortedSccInfo :=
  computeImpl edges numNodes numSCCs sccInfo (numSCCs ≤ 256 && !neverUseBitmap)

end Compute

/-! ## The counting sort is stable grouping -/

section Grouped

variable {n : ℕ} {sccInfo : ℕ → ℕ}

theorem foldl_size (nodes : List ℕ) (size : ℕ → ℕ) (c : ℕ) :
    nodes.foldl (fun size i => Function.update size (sccInfo i) (size (sccInfo i) + 1)) size c
      = size c + (nodes.filter fun i => sccInfo i = c).length := by
  induction nodes generalizing size with
  | nil => rfl
  | cons i nodes ih =>
      rw [List.foldl_cons, ih]
      by_cases hc : sccInfo i = c
      · subst hc
        simp
        omega
      · simp [hc, Function.update_of_ne (Ne.symm hc)]

/-- The size of a component is the number of its nodes. -/
theorem sccSize_eq (c : ℕ) :
    sccSize n sccInfo c = ((List.range n).filter fun i => sccInfo i = c).length := by
  rw [sccSize, foldl_size, Nat.zero_add]

/-- The components lie one behind the other. -/
theorem sccOffset_mono (size : ℕ → ℕ) {c d : ℕ} (h : c < d) :
    sccOffset size c + size c ≤ sccOffset size d := by
  induction d with
  | zero => omega
  | succ d ih =>
      rw [sccOffset]
      rcases Nat.lt_succ_iff_lt_or_eq.mp h with h | rfl
      · have := ih h
        omega
      · exact Nat.le_refl _

/-- The stretches of two components do not meet. -/
theorem sccOffset_disjoint (size : ℕ → ℕ) {c d i j : ℕ} (hi : i < size c) (hj : j < size d)
    (h : sccOffset size c + i = sccOffset size d + j) : c = d := by
  rcases Nat.lt_trichotomy c d with hlt | heq | hlt
  · have := sccOffset_mono size hlt
    omega
  · exact heq
  · have := sccOffset_mono size hlt
    omega

/-- The nodes of a component among the first `m`. -/
def nodesBelow (sccInfo : ℕ → ℕ) (m c : ℕ) : List ℕ :=
  (List.range m).filter fun i => sccInfo i = c

/-- One more node, in its component. -/
theorem nodesBelow_succ (m c : ℕ) :
    nodesBelow sccInfo (m + 1) c = nodesBelow sccInfo m c ++ if sccInfo m = c then [m] else [] := by
  rw [nodesBelow, List.range_succ, List.filter_append]
  by_cases h : sccInfo m = c <;> simp [h, nodesBelow]

/-- More nodes below a larger bound. -/
theorem length_nodesBelow_mono {m m' : ℕ} (h : m ≤ m') (c : ℕ) :
    (nodesBelow sccInfo m c).length ≤ (nodesBelow sccInfo m' c).length := by
  induction m', h using Nat.le_induction with
  | base => exact Nat.le_refl _
  | succ m' _ ih =>
      rw [nodesBelow_succ, List.length_append]
      omega

/-- What has been placed after the first `m` nodes. -/
theorem foldl_place {m : ℕ} (hm : m ≤ n) :
    ∀ c, ((List.range m).foldl (place sccInfo) (sccOffset (sccSize n sccInfo), fun _ => 0)).1 c
        = sccOffset (sccSize n sccInfo) c + (nodesBelow sccInfo m c).length ∧
      (List.range (nodesBelow sccInfo m c).length).map (fun k =>
        ((List.range m).foldl (place sccInfo) (sccOffset (sccSize n sccInfo), fun _ => 0)).2
          (sccOffset (sccSize n sccInfo) c + k)) = nodesBelow sccInfo m c := by
  induction m with
  | zero => exact fun c => ⟨rfl, rfl⟩
  | succ m ih =>
      have hlen : ∀ c, (nodesBelow sccInfo m c).length ≤ sccSize n sccInfo c := by
        intro c
        rw [sccSize_eq c]
        exact length_nodesBelow_mono (by omega) c
      have hroom : (nodesBelow sccInfo m (sccInfo m)).length < sccSize n sccInfo (sccInfo m) := by
        have hle : (nodesBelow sccInfo (m + 1) (sccInfo m)).length ≤ _ :=
          length_nodesBelow_mono hm (sccInfo m)
        rw [nodesBelow_succ, if_pos rfl, List.length_append] at hle
        rw [sccSize_eq]
        exact hle
      intro c
      have ih := ih (by omega)
      rw [List.range_succ, List.foldl_append, List.foldl_cons, List.foldl_nil]
      generalize (List.range m).foldl (place sccInfo)
        (sccOffset (sccSize n sccInfo), fun _ => 0) = arrays at ih ⊢
      -- the position written is past what each component has
      have hkeep : ∀ k < (nodesBelow sccInfo m c).length,
          (place sccInfo arrays m).2 (sccOffset (sccSize n sccInfo) c + k)
            = arrays.2 (sccOffset (sccSize n sccInfo) c + k) := by
        intro k hk
        refine Function.update_of_ne (fun heq => ?_) ..
        rw [(ih (sccInfo m)).1] at heq
        have hc := sccOffset_disjoint _ (hk.trans_le (hlen c)) hroom heq
        subst hc
        omega
      have hmap : (List.range (nodesBelow sccInfo m c).length).map (fun k =>
          (place sccInfo arrays m).2 (sccOffset (sccSize n sccInfo) c + k))
            = nodesBelow sccInfo m c :=
        (List.map_congr_left fun k hk => hkeep k (List.mem_range.mp hk)).trans (ih c).2
      rw [nodesBelow_succ]
      by_cases hc : sccInfo m = c
      · subst hc
        rw [if_pos rfl, List.length_append, List.length_singleton, List.range_succ, List.map_append,
          hmap]
        refine ⟨?_, ?_⟩
        · exact (Function.update_self ..).trans (by rw [(ih _).1]; rfl)
        · rw [List.map_singleton, ← (ih _).1]
          exact congrArg (nodesBelow sccInfo m (sccInfo m) ++ [·]) (Function.update_self ..)
      · rw [if_neg hc, List.append_nil]
        exact ⟨(Function.update_of_ne (Ne.symm hc) ..).trans (ih c).1, hmap⟩

/-- **The nodes of a component** are those with its number, in order. -/
theorem sccNodes_eq (c : ℕ) :
    sccNodes n sccInfo c = (List.range n).filter fun i => sccInfo i = c := by
  rw [sccNodes, sccSize_eq]
  exact (foldl_place (Nat.le_refl n) c).2

end Grouped

/-! ## The counts

In-degrees count what `outEdges` lists, in either way of counting. -/

section Counts

variable {edges : ℕ → List ℕ} {n K : ℕ} {sccInfo : ℕ → ℕ}

/-- The components that each edge of the graph connects. -/
def pairs (edges : ℕ → List ℕ) (n : ℕ) (sccInfo : ℕ → ℕ) : List (ℕ × ℕ) :=
  (List.range n).flatMap fun v => (edges v).map fun w => (sccInfo v, sccInfo w)

/-- The pairs of components with an edge. -/
theorem mem_pairs {c d : ℕ} :
    (c, d) ∈ pairs edges n sccInfo ↔ ∃ v < n, sccInfo v = c ∧ ∃ w ∈ edges v, sccInfo w = d := by
  simp only [pairs, List.mem_flatMap, List.mem_range, List.mem_map, Prod.mk.injEq]
  constructor
  · rintro ⟨v, hv, w, hw, rfl, rfl⟩
    exact ⟨v, hv, rfl, w, hw, rfl⟩
  · rintro ⟨v, hv, rfl, w, hw, rfl⟩
    exact ⟨v, hv, w, hw, rfl, rfl⟩

/-- The loops count every pair. -/
theorem degrees_eq (useBitMap : Bool) :
    degrees edges n sccInfo useBitMap =
      (pairs edges n sccInfo).foldl (fun d p => countEdge useBitMap d p.1 p.2)
        { cdg := fun _ _ => false, inDeg := fun _ => 0 } := by
  rw [degrees, pairs, List.foldl_flatMap]
  simp only [List.foldl_map]

/-- The pair is an edge into `c` from another component. -/
def crosses (c : ℕ) (p : ℕ × ℕ) : Bool := p.1 ≠ p.2 ∧ p.2 = c

/-- What one pair adds without the bit map. -/
theorem countEdge_inDeg (d : Degrees) (p : ℕ × ℕ) (c : ℕ) :
    (countEdge false d p.1 p.2).inDeg c = d.inDeg c + if crosses c p then 1 else 0 := by
  by_cases hp : p.1 = p.2
  · simp [countEdge, crosses, hp]
  · by_cases hc : p.2 = c
    · subst hc
      simp [countEdge, crosses, hp]
    · simp [countEdge, crosses, hp, hc, Function.update_of_ne (Ne.symm hc)]

/-- One pair adds at most one. -/
theorem countEdge_inDeg_le (useBitMap : Bool) (d : Degrees) (p : ℕ × ℕ) (c : ℕ) :
    (countEdge useBitMap d p.1 p.2).inDeg c ≤ d.inDeg c + if crosses c p then 1 else 0 := by
  cases useBitMap with
  | false => exact (countEdge_inDeg d p c).le
  | true =>
    cases hseen : d.cdg p.1 p.2 with
    | true => simp [countEdge, hseen]
    | false =>
      -- an edge that the bitmap does not have yet counts as it does without it
      have hcounts : (countEdge true d p.1 p.2).inDeg = (countEdge false d p.1 p.2).inDeg := by
        by_cases hp : p.1 = p.2 <;> simp [countEdge, hp, hseen]
      rw [hcounts, countEdge_inDeg]

/-- **How far the counters go**: at no time past the number of edges into the component from
others.  With fewer than `2 ^ 32` of these they fit the 32 bits they have in the source. -/
theorem inDeg_le (useBitMap : Bool) (ps : List (ℕ × ℕ)) (c : ℕ) : ∀ d : Degrees,
    (ps.foldl (fun d p => countEdge useBitMap d p.1 p.2) d).inDeg c
      ≤ d.inDeg c + ps.countP (crosses c) := by
  induction ps with
  | nil => exact fun d => le_rfl
  | cons p ps ih =>
    intro d
    rw [List.foldl_cons, List.countP_cons]
    have hstep := countEdge_inDeg_le useBitMap d p c
    have hrest := ih (countEdge useBitMap d p.1 p.2)
    omega

/-- Without the bitmap an edge counts as often as it occurs. -/
theorem foldl_countEdge_inDeg (ps : List (ℕ × ℕ)) (d : Degrees) (c : ℕ) :
    (ps.foldl (fun d p => countEdge false d p.1 p.2) d).inDeg c
      = d.inDeg c + ps.countP (crosses c) := by
  induction ps generalizing d with
  | nil => rfl
  | cons p ps ih =>
      rw [List.foldl_cons, ih, countEdge_inDeg, List.countP_cons]
      omega

theorem sum_map_filter (p : ℕ → Bool) (f : ℕ → ℕ) (l : List ℕ) :
    ((l.filter p).map f).sum = (l.map fun v => if p v then f v else 0).sum := by
  induction l with
  | nil => rfl
  | cons v l ih => by_cases h : p v <;> simp [h, ih]

/-- How often a component is listed, without the bit map. -/
theorem count_outEdges_false (c d : ℕ) :
    (outEdges edges n K sccInfo false d).count c = ∑ v ∈ Finset.range n,
      if sccInfo v = d then ((edges v).map fun w => (sccInfo v, sccInfo w)).countP (crosses c)
      else 0 := by
  have hsum : ∀ f : ℕ → ℕ, ∑ v ∈ Finset.range n, f v = ((List.range n).map f).sum := fun _ => rfl
  have hout : outEdges edges n K sccInfo false d
      = (((sccNodes n sccInfo d).flatMap edges).map sccInfo).filter (d ≠ ·) := rfl
  rw [hout, sccNodes_eq, hsum, List.count, List.countP_filter, List.countP_map,
    List.countP_flatMap, sum_map_filter]
  refine congrArg List.sum (List.map_congr_left fun v _ => ?_)
  by_cases hv : sccInfo v = d
  · subst hv
    simp only [decide_true, if_true, List.countP_map]
    refine List.countP_congr fun w _ => ?_
    simp [crosses, and_comm]
  · simp [hv]

/-- Without the bitmap each component starts with the number of edges the loop will find into it. -/
theorem inDeg_false (hlt : ∀ v < n, sccInfo v < K) (c : ℕ) :
    (degrees edges n sccInfo false).inDeg c
      = ∑ d ∈ Finset.range K, (outEdges edges n K sccInfo false d).count c := by
  rw [degrees_eq, foldl_countEdge_inDeg, pairs, List.countP_flatMap]
  simp only [count_outEdges_false, Nat.zero_add]
  have hv : ∀ v ∈ Finset.range n, (∑ d ∈ Finset.range K, if sccInfo v = d then
      ((edges v).map fun w => (sccInfo v, sccInfo w)).countP (crosses c) else 0)
      = ((edges v).map fun w => (sccInfo v, sccInfo w)).countP (crosses c) := by
    intro v hv
    rw [Finset.sum_ite_eq, if_pos (Finset.mem_range.mpr (hlt v (Finset.mem_range.mp hv)))]
  rw [Finset.sum_comm, Finset.sum_congr rfl hv]
  rfl

/-- The bitmap and the counts agree. -/
def BitMapCounts (K : ℕ) (d : Degrees) : Prop :=
  ∀ c, d.inDeg c = ∑ x ∈ Finset.range K, if d.cdg x c then 1 else 0

/-- The bit map after one pair. -/
theorem countEdge_cdg (d : Degrees) (x y a b : ℕ) :
    (countEdge true d x y).cdg a b = true ↔ d.cdg a b = true ∨ (a, b) = (x, y) ∧ x ≠ y := by
  by_cases hxy : x = y
  · simp [countEdge, hxy]
  · cases hset : d.cdg x y with
    | true =>
        simp only [countEdge, hxy, hset, if_true, ne_eq, not_false_eq_true, Prod.mk.injEq, and_true]
        constructor
        · exact .inl
        · rintro (h | ⟨rfl, rfl⟩)
          · exact h
          · exact hset
    | false =>
        simp only [countEdge, hxy, hset, if_true, ne_eq, not_false_eq_true, Prod.mk.injEq, and_true,
          Bool.false_eq_true, if_false, Function.update_apply]
        by_cases ha : a = x
        · subst ha
          by_cases hb : b = y <;> simp [hb]
        · simp [ha]

/-- One pair keeps the counts right. -/
theorem BitMapCounts.countEdge {d : Degrees} (h : BitMapCounts K d) {x y : ℕ} (hx : x < K) :
    BitMapCounts K (countEdge true d x y) := by
  intro c
  by_cases hskip : x = y ∨ d.cdg x y = true
  · have : Condensation.countEdge true d x y = d := by
      rcases hskip with rfl | hset
      · simp [Condensation.countEdge]
      · by_cases hxy : x = y <;> simp [Condensation.countEdge, hxy, hset]
    rw [this]
    exact h c
  · rw [not_or, Bool.not_eq_true] at hskip
    obtain ⟨hxy, hset⟩ := hskip
    have hcdg := countEdge_cdg d x y
    have hin : (Condensation.countEdge true d x y).inDeg c
        = d.inDeg c + if c = y then 1 else 0 := by
      by_cases hc : c = y
      · subst hc
        simp [Condensation.countEdge, hxy, hset]
      · simp [Condensation.countEdge, hxy, hset, hc]
    have hterm : ∀ a, (if (Condensation.countEdge true d x y).cdg a c then 1 else 0)
        = (if d.cdg a c then 1 else 0) + if a = x then (if c = y then 1 else 0) else 0 := by
      intro a
      by_cases ha : a = x
      · subst ha
        by_cases hc : c = y
        · subst hc
          simp [hcdg, hset, hxy]
        · simp [hcdg, hc]
      · simp [hcdg, ha]
    rw [hin, h c, Finset.sum_congr rfl fun a _ => hterm a, Finset.sum_add_distrib,
      Finset.sum_ite_eq',
      if_pos (Finset.mem_range.mpr hx)]

/-- So do all of them, and the bit map has every pair. -/
theorem foldl_countEdge_bitmap {ps : List (ℕ × ℕ)} (hps : ∀ p ∈ ps, p.1 < K) {d : Degrees}
    (h : BitMapCounts K d) :
    BitMapCounts K (ps.foldl (fun d p => countEdge true d p.1 p.2) d) ∧
      ∀ a b, (ps.foldl (fun d p => countEdge true d p.1 p.2) d).cdg a b = true ↔
        d.cdg a b = true ∨ (a, b) ∈ ps ∧ a ≠ b := by
  induction ps generalizing d with
  | nil => exact ⟨h, by simp⟩
  | cons p ps ih =>
      obtain ⟨hp, hps⟩ := List.forall_mem_cons.mp hps
      obtain ⟨hcounts, hcdg⟩ := ih hps (h.countEdge (y := p.2) hp)
      refine ⟨hcounts, fun a b => ?_⟩
      rw [List.foldl_cons, hcdg, countEdge_cdg, List.mem_cons, or_assoc]
      refine or_congr_right ?_
      rw [or_and_right]
      refine or_congr_left (and_congr_right fun hab => ?_)
      obtain ⟨rfl, rfl⟩ := Prod.mk.inj hab
      exact Iff.rfl

theorem pairs_fst_lt (hlt : ∀ v < n, sccInfo v < K) : ∀ p ∈ pairs edges n sccInfo, p.1 < K := by
  rintro ⟨a, b⟩ hp
  obtain ⟨v, hv, rfl, -⟩ := mem_pairs.mp hp
  exact hlt v hv

/-- The counts with the bit map. -/
theorem degrees_bitmap (hlt : ∀ v < n, sccInfo v < K) :
    BitMapCounts K (degrees edges n sccInfo true) ∧
      ∀ a b, (degrees edges n sccInfo true).cdg a b = true ↔
        (a, b) ∈ pairs edges n sccInfo ∧ a ≠ b := by
  rw [degrees_eq]
  have h0 : BitMapCounts K { cdg := fun _ _ => false, inDeg := fun _ => 0 } := fun c => by simp
  have hfst : ∀ p ∈ pairs edges n sccInfo, p.1 < K := pairs_fst_lt hlt
  have h := foldl_countEdge_bitmap hfst h0
  exact ⟨h.1, fun a b => by simp [h.2 a b]⟩

/-- **Each component starts with the number of edges the loop will find into it.** -/
theorem inDeg_eq (hlt : ∀ v < n, sccInfo v < K) (useBitMap : Bool) {c : ℕ} (hc : c < K) :
    (degrees edges n sccInfo useBitMap).inDeg c
      = ∑ d ∈ Finset.range K, (outEdges edges n K sccInfo useBitMap d).count c := by
  cases useBitMap with
  | false => exact inDeg_false hlt c
  | true =>
      rw [(degrees_bitmap hlt).1 c]
      refine Finset.sum_congr rfl fun d _ => ?_
      have hnd : (outEdges edges n K sccInfo true d).Nodup := List.nodup_range.filter _
      rw [hnd.count]
      simp [outEdges, hc]

/-- **The edges out of a component**, either way. -/
theorem mem_outEdges (hlt : ∀ v < n, sccInfo v < K) (hE : ∀ v < n, ∀ w ∈ edges v, w < n)
    (useBitMap : Bool) {c d : ℕ} :
    c ∈ outEdges edges n K sccInfo useBitMap d ↔ (d, c) ∈ pairs edges n sccInfo ∧ d ≠ c := by
  cases useBitMap with
  | false =>
      simp only [outEdges, Bool.false_eq_true, if_false, sccNodes_eq, List.mem_filter, List.mem_map,
        List.mem_flatMap, List.mem_range, mem_pairs, decide_eq_true_eq]
      refine and_congr_left fun _ => ⟨?_, ?_⟩
      · rintro ⟨w, ⟨v, ⟨hv, hd⟩, hw⟩, hc⟩
        exact ⟨v, hv, hd, w, hw, hc⟩
      · rintro ⟨v, hv, hd, w, hw, hc⟩
        exact ⟨w, ⟨v, ⟨hv, hd⟩, hw⟩, hc⟩
  | true =>
      simp only [outEdges, if_true, List.mem_filter, List.mem_range, (degrees_bitmap hlt).2]
      refine and_iff_right_of_imp fun h => ?_
      obtain ⟨v, hv, -, w, hw, rfl⟩ := mem_pairs.mp h.1
      exact hlt w (hE v hv w hw)

end Counts

/-! ## The order -/

section Ordering

/-- One out-edge lowers one count. -/
theorem relax_deg (state : (ℕ → ℕ) × List ℕ) (dst c : ℕ) :
    (relax state dst).1 c = state.1 c - if c = dst then 1 else 0 := by
  by_cases h : c = dst
  · subst h
    simp [relax]
  · simp [relax, h]

/-- Every edge out of a component is taken off, and what has none left is put on the worklist. -/
theorem foldl_relax {dsts : List ℕ} {inDeg : ℕ → ℕ} {workList : List ℕ}
    (hle : ∀ c ∈ dsts, dsts.count c ≤ inDeg c) :
    (∀ c, (dsts.foldl relax (inDeg, workList)).1 c = inDeg c - dsts.count c) ∧
      ∃ pushed, (dsts.foldl relax (inDeg, workList)).2 = pushed ++ workList ∧ pushed.Nodup ∧
        ∀ c, c ∈ pushed ↔ c ∈ dsts ∧ inDeg c = dsts.count c := by
  induction dsts generalizing inDeg workList with
  | nil => exact ⟨fun c => rfl, [], rfl, List.nodup_nil, by simp⟩
  | cons d dsts ih =>
      have hd := hle d (.head _)
      rw [List.count_cons_self] at hd
      have hdeg : ∀ c, (relax (inDeg, workList) d).1 c = inDeg c - if c = d then 1 else 0 :=
        relax_deg (inDeg, workList) d
      have hle' : ∀ c ∈ dsts, dsts.count c ≤ (relax (inDeg, workList) d).1 c := by
        intro c hc
        have := hle c (.tail _ hc)
        rw [List.count_cons] at this
        rw [hdeg]
        by_cases hcd : d = c
        · simp [hcd] at this ⊢
          omega
        · simp [hcd, Ne.symm hcd] at this ⊢
          exact this
      have hsplit : relax (inDeg, workList) d = ((relax (inDeg, workList) d).1,
          (if inDeg d = 1 then [d] else []) ++ workList) := by
        refine Prod.ext rfl ?_
        have : inDeg d - 1 = 0 ↔ inDeg d = 1 := by omega
        by_cases h1 : inDeg d = 1 <;> simp [relax, this, h1]
      obtain ⟨hfst, pushed, hsnd, hnd, hmem⟩ := ih hle'
      rw [List.foldl_cons, hsplit]
      refine ⟨fun c => ?_, pushed ++ if inDeg d = 1 then [d] else [], ?_, ?_, fun c => ?_⟩
      · rw [hfst, hdeg, List.count_cons]
        by_cases hcd : d = c
        · simp [hcd]
          omega
        · simp [hcd, Ne.symm hcd]
      · rw [hsnd, List.append_assoc]
      · refine List.nodup_append.mpr ⟨hnd, by split_ifs <;> simp, fun a ha b hb hab => ?_⟩
        -- a node whose last edge this is has no other among the rest
        split_ifs at hb with h1
        · obtain rfl := List.mem_singleton.mp hb
          have hpos := List.count_pos_iff.mpr ((hmem a).mp ha).1
          rw [hab] at hpos
          omega
        · simp at hb
      · have hin : c ∈ dsts ↔ 0 < dsts.count c := List.count_pos_iff.symm
        rw [List.mem_append, hmem, hdeg, List.mem_cons, List.count_cons]
        by_cases hcd : c = d
        · subst hcd
          rw [hin]
          by_cases h1 : inDeg c = 1
          · simp only [h1, if_true, List.mem_singleton, or_true, true_or, true_and,
              beq_self_eq_true,
              true_iff]
            omega
          · simp only [h1, if_false, List.not_mem_nil, or_false, if_true, true_or, true_and,
              beq_self_eq_true]
            omega
        · have hnot : c ∉ (if inDeg d = 1 then [d] else [] : List ℕ) := by
            split_ifs <;> simp [hcd]
          simp [hnot, hcd, Ne.symm hcd]

variable {out : ℕ → List ℕ} {K : ℕ}

/-- What holds between two rounds of the loop. -/
structure OrderInv (out : ℕ → List ℕ) (K : ℕ) (inDeg : ℕ → ℕ) (workList sccOrder : List ℕ) :
    Prop where
  nodup : (sccOrder ++ workList).Nodup
  lt : ∀ c ∈ sccOrder ++ workList, c < K
  deg : ∀ c < K, inDeg c = ∑ d ∈ (Finset.range K).filter (· ∉ sccOrder), (out d).count c
  ready : ∀ c < K, inDeg c = 0 ↔ c ∈ sccOrder ++ workList
  sorted : ∀ before c after, sccOrder = before ++ c :: after → ∀ d < K, c ∈ out d → d ∈ before

/-- A component without incoming edges has all its predecessors in the order. -/
theorem OrderInv.mem_of_ready {inDeg : ℕ → ℕ} {workList sccOrder : List ℕ}
    (h : OrderInv out K inDeg workList sccOrder) {c d : ℕ} (hc : c ∈ sccOrder ++ workList)
    (hd : d < K) (hout : c ∈ out d) : d ∈ sccOrder := by
  by_contra hnot
  have hzero := (h.ready c (h.lt c hc)).mpr hc
  rw [h.deg c (h.lt c hc), Finset.sum_eq_zero_iff] at hzero
  have := hzero d (by simp [hd, hnot])
  exact absurd (List.count_pos_iff.mpr hout) (by omega)

/-- A component is put out and its edges are taken off. -/
theorem OrderInv.step {inDeg : ℕ → ℕ} {workList sccOrder : List ℕ} {c : ℕ}
    (hout : ∀ d < K, ∀ c ∈ out d, c < K) (h : OrderInv out K inDeg (c :: workList) sccOrder) :
    OrderInv out K ((out c).foldl relax (inDeg, workList)).1
      ((out c).foldl relax (inDeg, workList)).2 (sccOrder ++ [c]) := by
  have hcK : c < K := h.lt c (by simp)
  have hcnot : c ∉ sccOrder := by
    have := List.disjoint_of_nodup_append h.nodup
    exact fun hc => this hc (.head _)
  -- the sum without `c` and the edges out of `c`
  have hfilter : ((Finset.range K).filter (· ∉ sccOrder)).erase c
      = (Finset.range K).filter (· ∉ sccOrder ++ [c]) := by
    ext d
    simp only [Finset.mem_erase, Finset.mem_filter, Finset.mem_range, List.mem_append,
      List.mem_singleton]
    tauto
  have hsum : ∀ d < K, inDeg d
      = (out c).count d + ∑ x ∈ (Finset.range K).filter (· ∉ sccOrder ++ [c]), (out x).count d := by
    intro d hd
    rw [h.deg d hd, ← hfilter]
    exact (Finset.add_sum_erase _ (fun x => (out x).count d) (by simp [hcK, hcnot])).symm
  obtain ⟨hfst, pushed, hsnd, hnd, hmem⟩ := foldl_relax
    (fun d hd => (hsum d (hout c hcK d hd)).symm ▸ Nat.le_add_right ..)
  have hready : ∀ d < K, d ∈ sccOrder ++ c :: workList → (out c).count d = 0 := by
    intro d hd hin
    have := (h.ready d hd).mpr hin
    have := hsum d hd
    omega
  have hdisj : ∀ d ∈ pushed, d ∉ sccOrder ++ c :: workList := by
    intro d hd hin
    have hdout := ((hmem d).mp hd).1
    have := List.count_pos_iff.mpr hdout
    have := hready d (hout c hcK d hdout) hin
    omega
  have hperm : (sccOrder ++ [c] ++ (pushed ++ workList)).Perm
      (pushed ++ (sccOrder ++ c :: workList)) := by
    have := List.perm_append_comm_assoc (sccOrder ++ [c]) pushed workList
    simpa [List.append_assoc] using this
  rw [hsnd]
  constructor
  case nodup =>
    refine hperm.nodup_iff.mpr (List.nodup_append.mpr ⟨hnd, h.nodup, ?_⟩)
    rintro a ha b hb rfl
    exact hdisj a ha hb
  case lt =>
    intro d hd
    rcases List.mem_append.mp (hperm.mem_iff.mp hd) with hd | hd
    · exact hout c hcK d ((hmem d).mp hd).1
    · exact h.lt d hd
  case deg =>
    intro d hd
    rw [hfst, hsum d hd]
    omega
  case ready =>
    intro d hd
    rw [hperm.mem_iff, List.mem_append, hmem, ← h.ready d hd, hfst]
    have := hsum d hd
    have hin : d ∈ out c ↔ 0 < (out c).count d := List.count_pos_iff.symm
    rw [hin]
    omega
  case sorted =>
    intro before d after heq x hx hdout
    rcases List.eq_nil_or_concat after with rfl | ⟨after, z, rfl⟩
    · obtain ⟨rfl, hdc⟩ := List.append_inj' heq rfl
      obtain rfl : c = d := by simpa using hdc
      exact h.mem_of_ready (by simp) hx hdout
    · rw [List.concat_eq_append, ← List.cons_append, ← List.append_assoc] at heq
      exact h.sorted before d after (List.append_inj' heq rfl).1 x hx hdout

/-- **The loop writes components until none is ready.** -/
theorem orderLoop_inv (hout : ∀ d < K, ∀ c ∈ out d, c < K) {fuel : ℕ} {inDeg : ℕ → ℕ}
    {workList sccOrder : List ℕ} (h : OrderInv out K inDeg workList sccOrder)
    (hfuel : K ≤ fuel + sccOrder.length) :
    ∃ inDeg', OrderInv out K inDeg' [] (orderLoop out fuel (inDeg, workList) sccOrder) := by
  induction fuel generalizing inDeg workList sccOrder with
  | zero =>
      have hlen : (sccOrder ++ workList).length ≤ K := by
        have hsub := List.subperm_of_subset h.nodup
          fun c hc => List.mem_range.mpr (h.lt c hc)
        simpa using hsub.length_le
      rw [List.length_append] at hlen
      obtain rfl : workList = [] := List.length_eq_zero_iff.mp (by omega)
      exact ⟨inDeg, h⟩
  | succ fuel ih =>
      cases workList with
      | nil => exact ⟨inDeg, h⟩
      | cons c workList => exact ih (h.step hout) (by simp; omega)

/-- When a rank falls along the edges between components, every component becomes ready. -/
theorem OrderInv.complete {inDeg : ℕ → ℕ} {sccOrder : List ℕ}
    (h : OrderInv out K inDeg [] sccOrder) (rank : ℕ → ℕ)
    (hdown : ∀ d < K, ∀ c ∈ out d, rank c < rank d) {c : ℕ} (hc : c < K) : c ∈ sccOrder := by
  have hbound : ∀ d < K, rank d ≤ (Finset.range K).sup rank :=
    fun d hd => Finset.le_sup (Finset.mem_range.mpr hd)
  generalize (Finset.range K).sup rank = bound at hbound
  induction hk : bound - rank c using Nat.strong_induction_on generalizing c with
  | _ k ih =>
      have hzero : inDeg c = 0 := by
        rw [h.deg c hc]
        refine Finset.sum_eq_zero fun d hd => ?_
        obtain ⟨hdK, hdnot⟩ := Finset.mem_filter.mp hd
        rw [Finset.mem_range] at hdK
        refine List.count_eq_zero.mpr fun hmem => hdnot ?_
        have hlt := hdown d hdK c hmem
        have hle := hbound d hdK
        exact ih (bound - rank d) (by omega) hdK rfl
      have hin := (h.ready c hc).mp hzero
      rwa [List.append_nil] at hin

end Ordering

/-! ## The components in order -/

/-- The components that have been pushed. -/
theorem components_foldl (f : ℕ → List ℕ) (order : List ℕ) (r : TopologicallySortedSccInfo)
    (hr : ∀ item ∈ r.sccList, item.offset + item.size ≤ r.nodeList.length) :
    (order.foldl (fun r c => r.push (f c)) r).components = r.components ++ order.map f := by
  induction order generalizing r with
  | nil => simp
  | cons c order ih =>
      have hpush : (r.push (f c)).components = r.components ++ [f c] := by
        rw [TopologicallySortedSccInfo.components, TopologicallySortedSccInfo.push, List.map_append,
          List.map_singleton, List.drop_left, List.take_length]
        refine congrArg (· ++ [f c]) (List.map_congr_left fun item hitem => ?_)
        have := hr item hitem
        rw [List.drop_append_of_le_length (by omega), List.take_append_of_le_length]
        rw [List.length_drop]
        omega
      have hr' : ∀ item ∈ (r.push (f c)).sccList,
          item.offset + item.size ≤ (r.push (f c)).nodeList.length := by
        intro item hitem
        simp only [TopologicallySortedSccInfo.push, List.mem_append, List.mem_singleton,
          List.length_append] at hitem ⊢
        rcases hitem with hitem | rfl
        · have := hr item hitem
          omega
        · exact Nat.le_refl _
      rw [List.foldl_cons, ih _ hr', hpush, List.map_cons, List.append_assoc, List.singleton_append]

/-- The nodes that have been pushed. -/
theorem nodeList_foldl (f : ℕ → List ℕ) (order : List ℕ) (r : TopologicallySortedSccInfo) :
    (order.foldl (fun r c => r.push (f c)) r).nodeList = r.nodeList ++ order.flatMap f := by
  induction order generalizing r with
  | nil => simp
  | cons c order ih =>
      rw [List.foldl_cons, ih, List.flatMap_cons, ← List.append_assoc]
      rfl

section Result

variable {edges : ℕ → List ℕ} {n K : ℕ} {sccInfo rank : ℕ → ℕ}
  (hE : ∀ u < n, ∀ w ∈ edges u, w < n) (hlt : ∀ v < n, sccInfo v < K)
  (hrank : ∀ u < n, ∀ w ∈ edges u, sccInfo u ≠ sccInfo w → rank (sccInfo w) < rank (sccInfo u))

include hE hlt in
/-- Edges lead to components. -/
theorem outEdges_lt (useBitMap : Bool) :
    ∀ d < K, ∀ c ∈ outEdges edges n K sccInfo useBitMap d, c < K := by
  intro d _ c hc
  obtain ⟨v, hv, -, w, hw, rfl⟩ := mem_pairs.mp ((mem_outEdges hlt hE useBitMap).mp hc).1
  exact hlt w (hE v hv w hw)

include hE hlt hrank in
/-- Edges lead down in the rank. -/
theorem outEdges_down (useBitMap : Bool) :
    ∀ d < K, ∀ c ∈ outEdges edges n K sccInfo useBitMap d, rank c < rank d := by
  intro d _ c hc
  obtain ⟨hp, hne⟩ := (mem_outEdges hlt hE useBitMap).mp hc
  obtain ⟨v, hv, rfl, w, hw, rfl⟩ := mem_pairs.mp hp
  exact hrank v hv w hw hne

include hlt in
/-- The invariant holds of the start. -/
theorem initial_orderInv (useBitMap : Bool) :
    OrderInv (outEdges edges n K sccInfo useBitMap) K (degrees edges n sccInfo useBitMap).inDeg
      ((List.range K).filter fun c => (degrees edges n sccInfo useBitMap).inDeg c = 0).reverse
      [] where
  nodup := by simpa using (List.nodup_range.filter _)
  lt c hc := by
    simp only [List.nil_append, List.mem_reverse, List.mem_filter, List.mem_range] at hc
    exact hc.1
  deg c hc := by
    rw [inDeg_eq hlt useBitMap hc]
    exact Finset.sum_congr (by simp) fun _ _ => rfl
  ready c hc := by simp [hc]
  sorted before c after h := by simp at h

include hE hlt hrank in
/-- **The order is a permutation of the components in which edges go forward.** -/
theorem sccOrder_spec (useBitMap : Bool) :
    (sccOrder edges n K sccInfo useBitMap).Perm (List.range K) ∧
      ∀ before c after, sccOrder edges n K sccInfo useBitMap = before ++ c :: after →
        ∀ u < n, ∀ w ∈ edges u, sccInfo w = c → sccInfo u ≠ c → sccInfo u ∈ before := by
  obtain ⟨inDeg, h⟩ := orderLoop_inv (outEdges_lt hE hlt useBitMap)
    (initial_orderInv hlt useBitMap) (show K ≤ K + _ by omega)
  change OrderInv _ _ _ _ (sccOrder edges n K sccInfo useBitMap) at h
  refine ⟨?_, fun before c after heq u hu w hw hwc huc => ?_⟩
  · refine (List.perm_ext_iff_of_nodup ?_ List.nodup_range).mpr fun c => ?_
    · simpa using h.nodup
    · rw [List.mem_range]
      have hdown := outEdges_down hE hlt hrank useBitMap
      exact ⟨fun hc => h.lt c (by simpa using hc), h.complete rank hdown⟩
  · refine h.sorted before c after heq (sccInfo u) (hlt u hu) ?_
    exact (mem_outEdges hlt hE useBitMap).mpr ⟨mem_pairs.mpr ⟨u, hu, rfl, w, hw, hwc⟩, huc⟩

include hE hlt hrank in
/-- What `ComputeImpl` writes, for both ways of keeping the edges: the components one after another,
each with its nodes, in an order in which edges go forward. -/
theorem computeImpl_components (useBitMap : Bool) :
    ∃ order : List ℕ, order.Perm (List.range K) ∧
      (computeImpl edges n K sccInfo useBitMap).components
        = order.map (fun c => (List.range n).filter fun v => sccInfo v = c) ∧
      (computeImpl edges n K sccInfo useBitMap).nodeList
        = order.flatMap (fun c => (List.range n).filter fun v => sccInfo v = c) ∧
      ∀ before c after, order = before ++ c :: after →
        ∀ u < n, ∀ w ∈ edges u, sccInfo w = c → sccInfo u ≠ c → sccInfo u ∈ before := by
  obtain ⟨hperm, hsorted⟩ := sccOrder_spec hE hlt hrank useBitMap
  refine ⟨_, hperm, ?_, ?_, hsorted⟩
  all_goals
    rw [computeImpl]
    split_ifs with hK
  · subst hK
    rw [List.perm_nil.mp hperm]
    rfl
  · rw [components_foldl _ _ _ (by simp), funext sccNodes_eq]
    rfl
  · subst hK
    rw [List.perm_nil.mp hperm]
    rfl
  · rw [nodeList_foldl, funext sccNodes_eq]
    rfl

include hE hlt in
/-- **The components of the condensation**, when they are numbered against the edges. -/
theorem compute_components (hle : ∀ u < n, ∀ w ∈ edges u, sccInfo w ≤ sccInfo u)
    (neverUseBitmap : Bool) :
    ∃ order : List ℕ, order.Perm (List.range K) ∧
      (compute edges n K sccInfo neverUseBitmap).components
        = order.map (fun c => (List.range n).filter fun v => sccInfo v = c) ∧
      ∀ before c after, order = before ++ c :: after →
        ∀ u < n, ∀ w ∈ edges u, sccInfo w = c → sccInfo u ≠ c → sccInfo u ∈ before := by
  have hrank : ∀ u < n, ∀ w ∈ edges u, sccInfo u ≠ sccInfo w → id (sccInfo w) < id (sccInfo u) :=
    fun u hu w hw hne => lt_of_le_of_ne (hle u hu w hw) hne.symm
  obtain ⟨order, hperm, hcomp, -, hsorted⟩ :=
    computeImpl_components hE hlt hrank (decide (K ≤ 256) && !neverUseBitmap)
  exact ⟨order, hperm, hcomp, hsorted⟩

end Result

end Condensation

end Dsom
