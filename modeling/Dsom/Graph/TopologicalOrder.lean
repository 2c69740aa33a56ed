import Dsom.Graph.Condensation
import Dsom.Graph.Search
import Mathlib.Data.List.Nodup

/-!
# Graph/TopologicalOrder — the sorted condensation of a graph

For every numbering of the strongly connected components of a graph, the one of the finder among
them, `ComputeImpl` writes the nodes component by component, and no edge leads into an earlier
component (`condensation_sorted`).  Along an edge from one component to another the set of nodes
that are reached gets smaller, which is the rank the order needs (`reachedCard_lt`).  Counts of
nodes and edges are natural numbers, where the source has 32 bits: nodes are numbered in 32 bits,
and the counters of edges stay below the number of edges into one component (`inDeg_le`).
-/

namespace Dsom

namespace Condensation

open Scc

/-- `sccInfo` numbers the strongly connected components from `0` on. -/
structure Numbering (edges : ℕ → List ℕ) (n K : ℕ) (sccInfo : ℕ → ℕ) : Prop where
  same : ∀ u < n, ∀ v < n, sccInfo u = sccInfo v ↔ Reach edges u v ∧ Reach edges v u
  used : ∀ c, (∃ v < n, sccInfo v = c) ↔ c < K

/-- The nodes are written component by component, and edges between components go forward. -/
structure Sorted (edges : ℕ → List ℕ) (n : ℕ) (r : TopologicallySortedSccInfo) : Prop where
  perm : r.nodeList.Perm (List.range n)
  contiguous : r.components.flatten = r.nodeList
  strong : ∀ nodes ∈ r.components, ∃ u ∈ nodes, ∀ v < n,
    v ∈ nodes ↔ Reach edges u v ∧ Reach edges v u
  forward : r.components.Pairwise fun earlier later =>
    ∀ u ∈ later, ∀ w ∈ edges u, w ∉ earlier

variable {edges : ℕ → List ℕ} {n K : ℕ} {sccInfo : ℕ → ℕ}

theorem Numbering.lt (h : Numbering edges n K sccInfo) : ∀ v < n, sccInfo v < K :=
  fun v hv => (h.used _).mp ⟨v, hv, rfl⟩

/-! ## The rank of a component

It is the number of nodes it reaches, which gets smaller along every edge between components. -/

open Classical in
/-- The nodes that are reached from a component. -/
noncomputable def reached (edges : ℕ → List ℕ) (n : ℕ) (sccInfo : ℕ → ℕ) (c : ℕ) : Finset ℕ :=
  (Finset.range n).filter fun x => ∃ u < n, sccInfo u = c ∧ Reach edges u x

/-- What a component reaches. -/
theorem mem_reached {c x : ℕ} :
    x ∈ reached edges n sccInfo c ↔ x < n ∧ ∃ u < n, sccInfo u = c ∧ Reach edges u x := by
  classical
  rw [reached, Finset.mem_filter, Finset.mem_range]

/-- How many nodes are reached from a component: the rank that falls along the edges. -/
noncomputable def reachedCard (edges : ℕ → List ℕ) (n : ℕ) (sccInfo : ℕ → ℕ) (c : ℕ) : ℕ :=
  (reached edges n sccInfo c).card

/-- **Fewer nodes are reached past an edge that leaves a component.** -/
theorem reachedCard_lt (hE : ∀ u < n, ∀ w ∈ edges u, w < n) (h : Numbering edges n K sccInfo) :
    ∀ u < n, ∀ w ∈ edges u, sccInfo u ≠ sccInfo w →
      reachedCard edges n sccInfo (sccInfo w) < reachedCard edges n sccInfo (sccInfo u) := by
  intro u hu w hw hne
  have hwn := hE u hu w hw
  -- whatever the component of `w` reaches is reached from `w`
  have hfrom : ∀ x ∈ reached edges n sccInfo (sccInfo w), Reach edges w x := by
    intro x hx
    obtain ⟨-, v, hv, hvw, hvx⟩ := mem_reached.mp hx
    exact ((h.same w hwn v hv).mp hvw.symm).1.trans hvx
  refine Finset.card_lt_card ((Finset.ssubset_iff_of_subset fun x hx => ?_).mpr ⟨u, ?_, ?_⟩)
  · exact mem_reached.mpr ⟨(mem_reached.mp hx).1, u, hu, rfl, (hfrom x hx).head hw⟩
  · exact mem_reached.mpr ⟨hu, u, hu, rfl, .refl⟩
  · exact fun hback => hne ((h.same u hu w hwn).mpr ⟨.single hw, hfrom u hback⟩)

/-! ## The sorted condensation -/

/-- The components together have every node once. -/
theorem perm_flatMap_nodes {order : List ℕ} (hperm : order.Perm (List.range K))
    (hlt : ∀ v < n, sccInfo v < K) :
    (order.flatMap fun c => (List.range n).filter fun v => sccInfo v = c).Perm
      (List.range n) := by
  refine (List.perm_ext_iff_of_nodup ?_ List.nodup_range).mpr fun v => ?_
  · refine List.nodup_flatMap.mpr ⟨fun c _ => List.nodup_range.filter _, ?_⟩
    refine (hperm.nodup_iff.mpr List.nodup_range).imp fun {c d} hne v hv hv' => hne ?_
    simp only [List.mem_filter, decide_eq_true_eq] at hv hv'
    exact hv.2.symm.trans hv'.2
  · simp only [List.mem_flatMap, List.mem_filter, List.mem_range, decide_eq_true_eq]
    refine ⟨fun ⟨_, _, hv, _⟩ => hv, fun hv => ⟨sccInfo v, ?_, hv, rfl⟩⟩
    exact hperm.mem_iff.mpr (List.mem_range.mpr (hlt v hv))

/-- A numbering by components is sorted by the builder. -/
theorem Numbering.sorted (hE : ∀ u < n, ∀ w ∈ edges u, w < n) (h : Numbering edges n K sccInfo)
    (useBitMap : Bool) : Sorted edges n (computeImpl edges n K sccInfo useBitMap) := by
  obtain ⟨order, hperm, hcomp, hnodes, hsorted⟩ := computeImpl_components hE h.lt
    (reachedCard_lt hE h) useBitMap
  have hnd : order.Nodup := hperm.nodup_iff.mpr List.nodup_range
  constructor
  case perm => exact hnodes ▸ perm_flatMap_nodes hperm h.lt
  case contiguous => rw [hcomp, hnodes, List.flatMap_def]
  case strong =>
    intro nodes hmem
    rw [hcomp] at hmem
    obtain ⟨c, hc, rfl⟩ := List.mem_map.mp hmem
    obtain ⟨u, hu, rfl⟩ := (h.used c).mpr (List.mem_range.mp (hperm.mem_iff.mp hc))
    refine ⟨u, by simp [hu], fun v hv => ?_⟩
    rw [← h.same u hu v hv]
    simp [hv, eq_comm]
  case forward =>
    rw [hcomp, List.pairwise_map, List.pairwise_iff_getElem]
    intro i j hi hj hij u hu w hw hwc
    simp only [List.mem_filter, List.mem_range, decide_eq_true_eq] at hu hwc
    have hne : order[j] ≠ order[i] := fun heq => hij.ne' ((hnd.getElem_inj_iff).mp heq)
    -- an edge back would put the component of `u` before that of `w`
    have hmem := hsorted (order.take i) order[i] (order.drop (i + 1)) (by simp) u hu.1 w hw hwc.2
      (hu.2 ▸ hne)
    obtain ⟨k, hk, hget⟩ := List.mem_take_iff_getElem.mp hmem
    have := (hnd.getElem_inj_iff).mp (hget.trans hu.2)
    omega

/-- Both ways of keeping the edges write the same components. -/
theorem Numbering.components_perm (hE : ∀ u < n, ∀ w ∈ edges u, w < n)
    (h : Numbering edges n K sccInfo) :
    (computeImpl edges n K sccInfo true).components.Perm
      (computeImpl edges n K sccInfo false).components := by
  have himpl (useBitMap : Bool) := computeImpl_components hE h.lt
    (reachedCard_lt hE h) useBitMap
  obtain ⟨order, hperm, hcomp, -⟩ := himpl true
  obtain ⟨order', hperm', hcomp', -⟩ := himpl false
  rw [hcomp, hcomp']
  exact (hperm.trans hperm'.symm).map _

/-- The finder numbers the components. -/
theorem computeForGenericGraph_numbering (hE : ∀ u < n, ∀ w ∈ edges u, w < n) :
    ∃ numSCCs sccInfo, computeForGenericGraph n edges = some (numSCCs, sccInfo) ∧
      Numbering edges n numSCCs sccInfo := by
  obtain ⟨s, hall, hfin, -, hseen⟩ := searchAll_finished hE
    (fun v (hv : v ∈ List.range n) => List.mem_range.mp hv) initialFinder_finished
  obtain ⟨hsame, hused⟩ :=
    hfin.finishComputation fun v hv => hseen v (List.mem_range.mpr hv)
  exact ⟨_, _, by rw [computeForGenericGraph, hall]; rfl, hsame, hused⟩

/-- **The condensation is topologically sorted**: for every graph, parallel edges and self-loops
included, the finder numbers the components, and for this as for every other numbering of them the
nodes are written component by component with no edge into an earlier one, both with and without the
bitmap, and both ways with the same components. -/
theorem condensation_sorted (hE : ∀ u < n, ∀ w ∈ edges u, w < n) :
    (∃ numSCCs sccInfo, computeForGenericGraph n edges = some (numSCCs, sccInfo) ∧
      Numbering edges n numSCCs sccInfo) ∧
    ∀ numSCCs sccInfo, Numbering edges n numSCCs sccInfo →
      (∀ useBitMap, Sorted edges n (computeImpl edges n numSCCs sccInfo useBitMap)) ∧
      (computeImpl edges n numSCCs sccInfo true).components.Perm
        (computeImpl edges n numSCCs sccInfo false).components :=
  ⟨computeForGenericGraph_numbering hE, fun _ _ h => ⟨h.sorted hE, h.components_perm hE⟩⟩

/-- Two nodes on a cycle with a loop and parallel edges to a third. -/
def loopsAndParallels : ℕ → List ℕ
  | 0 => [1, 0, 2, 2]
  | 1 => [0, 2]
  | _ => []

example : (compute loopsAndParallels 3 2 (fun v => if v = 2 then 1 else 0) false).nodeList
    = [0, 1, 2] := by decide

theorem condensation_sorted_loopsAndParallels :
    ∃ numSCCs sccInfo, computeForGenericGraph 3 loopsAndParallels = some (numSCCs, sccInfo) ∧
      ∀ useBitMap, Sorted loopsAndParallels 3
        (computeImpl loopsAndParallels 3 numSCCs sccInfo useBitMap) := by
  obtain ⟨⟨numSCCs, sccInfo, hfind, hnum⟩, hall⟩ :=
    condensation_sorted (show ∀ u < 3, ∀ w ∈ loopsAndParallels u, w < 3 by decide)
  exact ⟨numSCCs, sccInfo, hfind, (hall numSCCs sccInfo hnum).1⟩

end Condensation

end Dsom
