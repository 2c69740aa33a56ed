import Dsom.Typemask.Generator

/-!
# Typemask/Nodes — the state machine behind the automaton

`Family`: what the generator needs of its items, for the queries `P` it is asked.  The plain
automaton has all queries; the leaf-optimised one, whose items are not closed any more when the
bottom item is gone, has those that the bottom item does not cover.

`buildNodes_spec`: each reachable item gets a chain of nodes that tests its open edges
(`ChainOk`), the items an edge can lead to are reachable as well, and the bits recorded as zero for
an item are zero whichever edge leads to it.
-/

namespace Dsom

namespace Typemask

open BitMask

variable {N : ℕ} {items : List (Item N)} {P : BitVec N → Prop}

/-- Items whose covers of a query in `P` are closed under intersection. -/
structure Family (items : List (Item N)) (P : BitVec N → Prop) : Prop where
  sorted : items.Pairwise fun a b => a.mask.toNat < b.mask.toNat
  top : ∃ e ∈ items, e.mask = BitVec.allOnes N
  up : ∀ m m', P m → Covers m' m → P m'
  items_mem : ∀ e ∈ items, P e.mask
  closed : ∀ m, P m → ∀ a ∈ items, ∀ b ∈ items, Covers a.mask m → Covers b.mask m →
    a.mask &&& b.mask ∈ items.map Item.mask

namespace Family

variable {i j : ℕ} {m : BitVec N}

theorem maskAt_eq (hi : i < items.length) : maskAt items i = items[i].mask := by
  rw [maskAt, List.getD_eq_getElem?_getD, List.getElem?_eq_getElem hi]
  rfl

theorem getD_mem (hi : i < items.length) : items.getD i default ∈ items := by
  rw [List.getD_eq_getElem?_getD, List.getElem?_eq_getElem hi]
  exact List.getElem_mem hi

/-- Some item covers every query. -/
theorem findMin_lt (h : Family items P) (m : BitVec N) :
    findMinOverapprox items m < items.length := by
  obtain ⟨e, he, htop⟩ := h.top
  exact List.findIdx_lt_length_of_exists ⟨e, he, by rw [htop]; simp⟩

/-- The first cover covers. -/
theorem covers_findMin (h : Family items P) (m : BitVec N) :
    Covers (maskAt items (findMinOverapprox items m)) m := by
  rw [maskAt_eq (h.findMin_lt m)]
  exact of_decide_eq_true (List.findIdx_getElem (w := h.findMin_lt m))

/-- **`findMinOverapprox` finds the least cover.** -/
theorem findMin_least (h : Family items P) (hm : P m) {e : Item N} (he : e ∈ items)
    (hcov : Covers e.mask m) : Covers e.mask (maskAt items (findMinOverapprox items m)) := by
  have hk := h.findMin_lt m
  have hk' : findMinOverapprox items m < (items.map Item.mask).length := by rwa [List.length_map]
  have hfound := h.covers_findMin m
  rw [maskAt_eq hk] at hfound ⊢
  have := covers_firstCover (items.map Item.mask) (x := m) (b := e.mask)
    (List.pairwise_map.mpr h.sorted) ?_ hk' (by rwa [List.getElem_map]) ?_
    (List.mem_map_of_mem he) hcov
  · rwa [List.getElem_map] at this
  · intro a ha b hb hca hcb
    obtain ⟨ea, hea, rfl⟩ := List.mem_map.mp ha
    obtain ⟨eb, heb, rfl⟩ := List.mem_map.mp hb
    exact h.closed m hm ea hea eb heb hca hcb
  · intro q hq hql hcq
    have hql' : q < items.length := by rwa [List.length_map] at hql
    rw [List.getElem_map] at hcq
    have := List.not_of_lt_findIdx hq
    simp [hcq] at this

/-- A strictly larger mask stands later. -/
theorem lt_of_covers (h : Family items P) (hi : i < items.length) (hj : j < items.length)
    (hcov : Covers (maskAt items j) (maskAt items i)) (hne : maskAt items i ≠ maskAt items j) :
    i < j := by
  have hle := hcov.toNat_le
  rw [maskAt_eq hi, maskAt_eq hj] at hle hne
  by_contra hge
  rcases Nat.lt_or_eq_of_le (not_lt.mp hge) with hlt | rfl
  · have := List.pairwise_iff_getElem.mp h.sorted j i hj hi hlt
    omega
  · exact hne rfl

/-- Different items have different masks. -/
theorem eq_of_maskAt_eq (h : Family items P) (hi : i < items.length) (hj : j < items.length)
    (heq : maskAt items i = maskAt items j) : i = j := by
  rw [maskAt_eq hi, maskAt_eq hj] at heq
  by_contra hne
  rcases Nat.lt_or_gt_of_ne hne with hlt | hlt
  · have := List.pairwise_iff_getElem.mp h.sorted _ _ hi hj hlt
    rw [heq] at this
    exact lt_irrefl _ this
  · have := List.pairwise_iff_getElem.mp h.sorted _ _ hj hi hlt
    rw [heq] at this
    exact lt_irrefl _ this

/-- **An edge leads to the least item that also has its bits.** -/
theorem transfer_spec (h : Family items P) (hi : i < items.length) (hj : j < N) {d : ℕ}
    (ht : transfer items i j = some d) :
    i < d ∧ d < items.length ∧ Covers (maskAt items d) (maskAt items i) ∧
      (maskAt items d).getLsbD j = true ∧
      ∀ e ∈ items, Covers e.mask (maskAt items i) → e.mask.getLsbD j = true →
        Covers e.mask (maskAt items d) := by
  unfold transfer at ht
  split_ifs at ht with hbit
  obtain rfl := Option.some.inj ht
  have hcov := h.covers_findMin (maskAt items i ||| BitVec.twoPow N j)
  obtain ⟨hci, hcj⟩ := covers_or.mp hcov
  rw [covers_twoPow hj] at hcj
  have hP : P (maskAt items i ||| BitVec.twoPow N j) := by
    refine h.up (maskAt items i) _ ?_ (covers_or.mp (Covers.refl _)).1
    rw [maskAt_eq hi]
    exact h.items_mem _ (List.getElem_mem hi)
  refine ⟨?_, h.findMin_lt _, hci, hcj, fun e he hei hej => ?_⟩
  · refine h.lt_of_covers hi (h.findMin_lt _) hci fun heq => hbit ?_
    rw [heq]
    exact hcj
  · exact h.findMin_least hP he (covers_or.mpr ⟨hei, (covers_twoPow hj).mpr hej⟩)

end Family

/-! ## Edges

The bits of an item are split among the items they lead to. -/

section Edges

variable {i o : ℕ} {edge : EdgeInfo N}

/-- What is an edge. -/
theorem mem_edgeMap : edge ∈ edgeMap items i ↔ edge.dest < items.length ∧ edge.edgeMask ≠ 0 ∧
    edge.edgeMask = ofBits N fun j => transfer items i j = some edge.dest := by
  simp only [edgeMap, List.mem_filterMap, List.mem_range]
  constructor
  · rintro ⟨d, hd, he⟩
    split_ifs at he with h0
    obtain rfl := Option.some.inj he
    exact ⟨hd, h0, rfl⟩
  · rintro ⟨hd, h0, hmask⟩
    refine ⟨edge.dest, hd, ?_⟩
    rw [← hmask, if_neg h0]

/-- A bit of an edge leads to its item. -/
theorem transfer_of_bit (he : edge ∈ edgeMap items i) {j : ℕ}
    (hj : edge.edgeMask.getLsbD j = true) :
    j < N ∧ transfer items i j = some edge.dest := by
  rw [(mem_edgeMap.mp he).2.2, getLsbD_ofBits] at hj
  simpa using hj

/-- Every bit outside of an item belongs to an edge. -/
theorem exists_edge (h : Family items P) {j : ℕ} (hj : j < N)
    (hbit : (maskAt items i).getLsbD j = false) :
    ∃ edge ∈ edgeMap items i, edge.edgeMask.getLsbD j = true := by
  have ht : transfer items i j =
    some (findMinOverapprox items (maskAt items i ||| BitVec.twoPow N j)) := by
    rw [transfer, if_neg (by simp [hbit])]
  have hget : (ofBits N fun k => transfer items i k =
      some (findMinOverapprox items (maskAt items i ||| BitVec.twoPow N j))).getLsbD j = true := by
    rw [getLsbD_ofBits]
    simp [hj, ht]
  refine ⟨⟨_, findMinOverapprox items (maskAt items i ||| BitVec.twoPow N j)⟩,
    mem_edgeMap.mpr ⟨h.findMin_lt _, ?_, rfl⟩, hget⟩
  intro h0
  change (ofBits N fun k => transfer items i k =
      some (findMinOverapprox items (maskAt items i ||| BitVec.twoPow N j))) = 0 at h0
  rw [h0] at hget
  simp at hget

/-- An item that has the source and one bit of an edge has the whole edge and its destination. -/
theorem covers_dest (h : Family items P) (hi : i < items.length) (he : edge ∈ edgeMap items i)
    {t : Item N} (ht : t ∈ items) (hti : Covers t.mask (maskAt items i)) {j : ℕ}
    (hj : edge.edgeMask.getLsbD j = true) (htj : t.mask.getLsbD j = true) :
    Covers t.mask (maskAt items edge.dest) ∧ Covers t.mask edge.edgeMask := by
  obtain ⟨hjN, htr⟩ := transfer_of_bit he hj
  have hdest := (h.transfer_spec hi hjN htr).2.2.2.2 t ht hti htj
  refine ⟨hdest, hdest.trans (covers_iff.mpr fun k hk hbit => ?_)⟩
  exact (h.transfer_spec hi hk (transfer_of_bit he hbit).2).2.2.2.1

/-- Edges lead to later items. -/
theorem edge_dest_gt (h : Family items P) (hi : i < items.length) (he : edge ∈ edgeMap items i) :
    i < edge.dest ∧ edge.dest < items.length := by
  obtain ⟨hlt, h0, -⟩ := mem_edgeMap.mp he
  have hne : edge.edgeMask &&& edge.edgeMask ≠ 0 := by rwa [BitVec.and_self]
  obtain ⟨j, hj, hbit, -⟩ := and_ne_zero_iff.mp hne
  exact ⟨(h.transfer_spec hi hj (transfer_of_bit he hbit).2).1, hlt⟩

/-- **An edge of an item is inside an edge of a larger item or apart from it**, as the traversal
asserts. -/
theorem covers_or_disjoint (h : Family items P) (ho : o < items.length) (hi : i < items.length)
    (hcov : Covers (maskAt items i) (maskAt items o)) (he : edge ∈ edgeMap items o)
    {edge' : EdgeInfo N} (he' : edge' ∈ edgeMap items i) :
    Covers edge'.edgeMask edge.edgeMask ∨ edge'.edgeMask &&& edge.edgeMask = 0 := by
  by_cases hdis : edge'.edgeMask &&& edge.edgeMask = 0
  · exact .inr hdis
  · obtain ⟨j, hj, hj', hje⟩ := and_ne_zero_iff.mp hdis
    obtain ⟨-, htj⟩ := transfer_of_bit he' hj'
    obtain ⟨-, hd, hdi, hdj, hdleast⟩ := h.transfer_spec hi hj htj
    refine .inl (covers_iff.mpr fun k hk hke => ?_)
    -- an item that has one bit of the smaller edge has the other
    have hboth : ∀ {d : ℕ}, d < items.length → Covers (maskAt items d) (maskAt items i) →
        ∀ {a b : ℕ}, b < N → edge.edgeMask.getLsbD a = true → edge.edgeMask.getLsbD b = true →
        (maskAt items d).getLsbD a = true → (maskAt items d).getLsbD b = true := by
      intro d hdl hdc a b hb ha hbe hda
      exact covers_iff.mp (covers_dest h ho he (Family.getD_mem hdl) (hdc.trans hcov) ha hda).2 b hb
        hbe
    have hki : (maskAt items i).getLsbD k = false := by
      by_contra hin
      have := hboth hi (Covers.refl _) hj hke hje (Bool.eq_true_of_not_eq_false hin)
      unfold transfer at htj
      rw [if_pos this] at htj
      exact absurd htj (by simp)
    obtain ⟨d, hdk⟩ : ∃ d, transfer items i k = some d :=
      ⟨_, if_neg (by rw [hki]; exact Bool.false_ne_true)⟩
    obtain ⟨-, hd', hdi', hdk', hdleast'⟩ := h.transfer_spec hi hk hdk
    have hsame : maskAt items d = maskAt items edge'.dest := by
      refine Covers.antisymm ?_ ?_
      · exact hdleast _ (Family.getD_mem hd') hdi' (hboth hd' hdi' hj hke hje hdk')
      · exact hdleast' _ (Family.getD_mem hd) hdi (hboth hd hdi hk hje hke hdj)
    rw [h.eq_of_maskAt_eq hd' hd hsame] at hdk
    rw [(mem_edgeMap.mp he').2.2, getLsbD_ofBits]
    simp [hk, hdk]

/-- **A traversal stays inside every item that has its start and its masks.** -/
theorem traverseWithMasks_spec (h : Family items P) {masks : List (BitVec N)}
    (hmasks : ∀ m ∈ masks, m ≠ 0) {t : Item N} (ht : t ∈ items)
    (htm : ∀ m ∈ masks, Covers t.mask m) : ∀ (fuel o : ℕ), o < items.length →
      Covers t.mask (maskAt items o) →
      o ≤ traverseWithMasks items masks fuel o ∧
        traverseWithMasks items masks fuel o < items.length ∧
        Covers t.mask (maskAt items (traverseWithMasks items masks fuel o))
  | 0, o, ho, hto => ⟨le_rfl, ho, hto⟩
  | fuel + 1, o, ho, hto => by
      rw [traverseWithMasks]
      cases hfind : (edgeMap items o).find? fun edge => masks.any fun m =>
        Covers edge.edgeMask m with
      | none => exact ⟨le_rfl, ho, hto⟩
      | some edge =>
        have he := List.mem_of_find?_eq_some hfind
        have hany := List.find?_some hfind
        simp only [List.any_eq_true, decide_eq_true_eq] at hany
        obtain ⟨m, hm, hcov⟩ := hany
        have hne : m &&& m ≠ 0 := by rw [BitVec.and_self]; exact hmasks m hm
        obtain ⟨j, hj, hbit, -⟩ := and_ne_zero_iff.mp hne
        have hej : edge.edgeMask.getLsbD j = true := covers_iff.mp hcov j hj hbit
        have htj : t.mask.getLsbD j = true := covers_iff.mp (htm m hm) j hj hbit
        obtain ⟨hgt, hlt⟩ := edge_dest_gt h ho he
        obtain ⟨h1, h2, h3⟩ := traverseWithMasks_spec h hmasks ht htm fuel edge.dest hlt
          (covers_dest h ho he ht hto hej htj).1
        exact ⟨hgt.le.trans h1, h2, h3⟩

/-- A traversal goes to larger items. -/
theorem covers_traverse_start (h : Family items P) (masks : List (BitVec N)) :
    ∀ (fuel o : ℕ), o < items.length →
      traverseWithMasks items masks fuel o < items.length ∧
        Covers (maskAt items (traverseWithMasks items masks fuel o)) (maskAt items o)
  | 0, o, ho => ⟨ho, Covers.refl _⟩
  | fuel + 1, o, ho => by
      rw [traverseWithMasks]
      cases hfind : (edgeMap items o).find? fun edge => masks.any fun m =>
        Covers edge.edgeMask m with
      | none => exact ⟨ho, Covers.refl _⟩
      | some edge =>
        have he := List.mem_of_find?_eq_some hfind
        obtain ⟨hlt, h0, -⟩ := mem_edgeMap.mp he
        obtain ⟨h1, h2⟩ := covers_traverse_start h masks fuel edge.dest hlt
        have hne : edge.edgeMask &&& edge.edgeMask ≠ 0 := by rwa [BitVec.and_self]
        obtain ⟨j, hj, hbit, -⟩ := and_ne_zero_iff.mp hne
        exact ⟨h1, h2.trans (h.transfer_spec ho hj (transfer_of_bit he hbit).2).2.2.1⟩

/-- The number of items is fuel enough: at the end of a traversal no edge has one of its masks. -/
theorem find?_traverseWithMasks (h : Family items P) (masks : List (BitVec N)) : ∀ (fuel o : ℕ),
    o < items.length → items.length ≤ fuel + o →
      (edgeMap items (traverseWithMasks items masks fuel o)).find?
        (fun edge => masks.any fun m => Covers edge.edgeMask m) = none
  | 0, o, ho, hf => absurd ho (by omega)
  | fuel + 1, o, ho, hf => by
      rw [traverseWithMasks]
      cases hfind : (edgeMap items o).find? fun edge => masks.any fun m =>
        Covers edge.edgeMask m with
      | none => exact hfind
      | some edge =>
        obtain ⟨hgt, hlt⟩ := edge_dest_gt h ho (List.mem_of_find?_eq_some hfind)
        exact find?_traverseWithMasks h masks fuel edge.dest hlt (by omega)

/-- **A traversal ends at an item that has its masks**, as it asserts. -/
theorem covers_traverseWithMasks (h : Family items P) {masks : List (BitVec N)}
    (ho : o < items.length) (hmasks : ∀ m ∈ masks, ∃ e ∈ edgeMap items o, e.edgeMask = m) :
    ∀ m ∈ masks, Covers (maskAt items (traverseWithMasks items masks items.length o)) m := by
  intro m hm
  obtain ⟨e, he, rfl⟩ := hmasks m hm
  have hend := find?_traverseWithMasks h masks items.length o ho (by omega)
  obtain ⟨hlt, hcov⟩ := covers_traverse_start h masks items.length o ho
  refine covers_iff.mpr fun j hj hbit => ?_
  by_contra hout
  obtain ⟨edge, hedge, hej⟩ := exists_edge h hj (eq_false_of_ne_true hout)
  have hsup : Covers edge.edgeMask e.edgeMask :=
    (covers_or_disjoint h ho hlt hcov he hedge).resolve_right
      (and_ne_zero_iff.mpr ⟨j, hj, hej, hbit⟩)
  have := List.find?_eq_none.mp hend edge hedge
  exact this (List.any_eq_true.mpr ⟨_, hm, decide_eq_true hsup⟩)

/-- It moves if some edge of its start has one of its masks. -/
theorem lt_traverseWithMasks (h : Family items P) {masks : List (BitVec N)}
    (hmasks : ∀ m ∈ masks, m ≠ 0) (ho : o < items.length) {m : BitVec N} (hm : m ∈ masks)
    (he : edge ∈ edgeMap items o) (hcov : Covers edge.edgeMask m) :
    o < traverseWithMasks items masks items.length o := by
  obtain ⟨n, hn⟩ : ∃ n, items.length = n + 1 := ⟨items.length - 1, by omega⟩
  obtain ⟨t, ht, htop⟩ := h.top
  rw [hn, traverseWithMasks]
  cases hfind : (edgeMap items o).find? fun edge => masks.any fun m => Covers edge.edgeMask m with
  | none =>
    have := List.find?_eq_none.mp hfind edge he
    simp only [List.any_eq_true, decide_eq_true_eq, not_exists, not_and] at this
    exact absurd hcov (this m hm)
  | some edge' =>
    obtain ⟨hgt, hlt⟩ := edge_dest_gt h ho (List.mem_of_find?_eq_some hfind)
    have hall : ∀ m : BitVec N, Covers t.mask m := fun m => by rw [htop]; exact covers_allOnes m
    have := (traverseWithMasks_spec h hmasks ht (fun m _ => hall m) n edge'.dest hlt (hall _)).1
    exact lt_of_lt_of_le hgt this

end Edges

/-! ## What the tests say

A test that fails tells that all of its bits are zero. -/

section Tests

variable {tests : List (BitVec N)} {idx : ℕ}

/-- The tests that hold at an index. -/
theorem mem_selectedMasks {m : BitVec N} :
    m ∈ selectedMasks tests idx ↔ ∃ i < tests.length,
      idx.testBit i = true ∧ tests.getD i 0 = m := by
  simp [selectedMasks, and_assoc]

/-- A bit is known to be zero if it was before, or if a test that has it is not taken. -/
theorem getLsbD_newKnownZeroMask {kz : BitVec N} {j : ℕ} :
    (newKnownZeroMask kz tests idx).getLsbD j = true ↔ kz.getLsbD j = true ∨
      ∃ i < tests.length, idx.testBit i = false ∧ (tests.getD i 0).getLsbD j = true := by
  unfold newKnownZeroMask
  suffices H : ∀ n, ((List.range n).foldl
      (fun m i => if idx.testBit i then m else m ||| tests.getD i 0) kz).getLsbD j = true ↔
        kz.getLsbD j = true ∨
          ∃ i < n, idx.testBit i = false ∧ (tests.getD i 0).getLsbD j = true from H _
  intro n
  induction n with
  | zero => simp
  | succ n ih =>
    rw [List.range_succ, List.foldl_append, List.foldl_cons, List.foldl_nil]
    split_ifs with hbit
    · rw [ih]
      refine or_congr_right ⟨?_, ?_⟩
      · rintro ⟨i, hi, h⟩
        exact ⟨i, by omega, h⟩
      · rintro ⟨i, hi, h1, h2⟩
        have hne : i ≠ n := by
          rintro rfl
          rw [hbit] at h1
          exact absurd h1 (by decide)
        exact ⟨i, by omega, h1, h2⟩
    · rw [BitVec.getLsbD_or, Bool.or_eq_true, ih, or_assoc]
      refine or_congr_right ⟨?_, ?_⟩
      · rintro (⟨i, hi, h⟩ | h)
        · exact ⟨i, by omega, h⟩
        · exact ⟨n, by omega, eq_false_of_ne_true hbit, h⟩
      · rintro ⟨i, hi, h1, h2⟩
        by_cases hin : i = n
        · exact .inr (hin ▸ h2)
        · exact .inl ⟨i, by omega, h1, h2⟩

end Tests

/-! ## The nodes of an item

They form a chain, and each knows what the ones before have found to be zero. -/

/-- The masks that the node for `edges` tests. -/
def testsOf (edges : List (EdgeInfo N)) : List (BitVec N) :=
  (edges.take maxTests).map (·.edgeMask)

/-- The tests are the first edges. -/
theorem getD_testsOf {edges : List (EdgeInfo N)} {i : ℕ} (hi : i < (testsOf edges).length) :
    ∃ edge ∈ edges.take maxTests, (testsOf edges).getD i 0 = edge.edgeMask := by
  rw [testsOf, List.length_map] at hi
  refine ⟨(edges.take maxTests)[i], List.getElem_mem hi, ?_⟩
  rw [testsOf, List.getD_eq_getElem?_getD, List.getElem?_map, List.getElem?_eq_getElem hi]
  rfl

/-- **A chain of nodes tests the edges of an item**, four at a time.  Nodes `n` and after it, all
below `b`, belong to it. -/
inductive ChainOk (items : List (Item N)) (g : Gen N) (o b : ℕ) :
    ℕ → List (EdgeInfo N) → BitVec N → Prop
  | mk {n : ℕ} {edges : List (EdgeInfo N)} {kz : BitVec N} (lt : n < b)
      (node : g.dfaNodes[n]? = some (newNode items o n edges))
      (next : ∀ idx, 0 < idx → idx < 2 ^ (testsOf edges).length →
        g.itemReachable (nextItem items o (testsOf edges) idx) = true ∧
        Covers (newKnownZeroMask kz (testsOf edges) idx)
          (g.knownZeroBitsForItem (nextItem items o (testsOf edges) idx)))
      (rest : maxTests < edges.length →
        ChainOk items g o b (n + 1) (edges.drop maxTests) (newKnownZeroMask kz (testsOf edges) 0)) :
      ChainOk items g o b n edges kz

namespace Gen

/-- A later state of the generation. -/
structure Extends (g g' : Gen N) : Prop where
  nodes : ∀ (n : ℕ) node, g.dfaNodes[n]? = some node → g'.dfaNodes[n]? = some node
  reachable : ∀ i, g.itemReachable i = true → g'.itemReachable i = true
  knownZero : ∀ i, Covers (g.knownZeroBitsForItem i) (g'.knownZeroBitsForItem i)

theorem Extends.refl (g : Gen N) :
    Extends g g := ⟨fun _ _ => id, fun _ => id, fun _ => Covers.refl _⟩

/-- One extension after another. -/
theorem Extends.trans {g g' g'' : Gen N} (h : Extends g g') (h' : Extends g' g'') :
    Extends g g'' :=
  ⟨fun n node hn => h'.nodes n node (h.nodes n node hn),
    fun i hi => h'.reachable i (h.reachable i hi),
    fun i => (h.knownZero i).trans (h'.knownZero i)⟩

/-- Nothing changes for the items up to `o`. -/
def SameUpTo (o : ℕ) (g g' : Gen N) : Prop :=
  ∀ i ≤ o, g'.itemReachable i = g.itemReachable i ∧
    g'.knownZeroBitsForItem i = g.knownZeroBitsForItem i

theorem SameUpTo.trans {o : ℕ} {g g' g'' : Gen N} (h : SameUpTo o g g') (h' : SameUpTo o g' g'') :
    SameUpTo o g g'' := fun i hi =>
  ⟨(h' i hi).1.trans (h i hi).1, (h' i hi).2.trans (h i hi).2⟩

end Gen

/-- A chain stays right when nodes are added. -/
theorem ChainOk.extends {g g' : Gen N} {o b n : ℕ} {edges : List (EdgeInfo N)} {kz : BitVec N}
    (h : ChainOk items g o b n edges kz) (hext : Gen.Extends g g') :
    ChainOk items g' o b n edges kz := by
  induction h with
  | mk lt node next _ ih =>
    refine .mk lt (hext.nodes _ _ node) (fun idx h0 h1 => ?_) ih
    exact ⟨hext.reachable _ (next idx h0 h1).1, (next idx h0 h1).2.trans (hext.knownZero _)⟩

/-- The item an edge of a node leads to is a later one. -/
theorem nextItem_gt (h : Family items P) {o : ℕ} (ho : o < items.length)
    {edges : List (EdgeInfo N)} (hedges : ∀ e ∈ edges, e ∈ edgeMap items o) {idx : ℕ}
    (h0 : 0 < idx) (h1 : idx < 2 ^ (testsOf edges).length) :
    o < nextItem items o (testsOf edges) idx ∧
      nextItem items o (testsOf edges) idx < items.length := by
  have hsel : ∀ m ∈ selectedMasks (testsOf edges) idx, ∃ e ∈ edgeMap items o, e.edgeMask = m := by
    intro m hm
    obtain ⟨i, hi, -, rfl⟩ := mem_selectedMasks.mp hm
    obtain ⟨e, he, hmask⟩ := getD_testsOf hi
    exact ⟨e, hedges e (List.mem_of_mem_take he), hmask.symm⟩
  have hne : ∀ m ∈ selectedMasks (testsOf edges) idx, m ≠ 0 := by
    intro m hm
    obtain ⟨e, he, rfl⟩ := hsel m hm
    exact (mem_edgeMap.mp he).2.1
  obtain ⟨i, hi⟩ := Nat.exists_testBit_of_ne_zero (Nat.pos_iff_ne_zero.mp h0)
  have hilt : i < (testsOf edges).length := by
    by_contra hge
    have := Nat.testBit_lt_two_pow (h1.trans_le (Nat.pow_le_pow_right (by decide) (not_lt.mp hge)))
    rw [this] at hi
    exact absurd hi (by decide)
  have hm := mem_selectedMasks.mpr ⟨i, hilt, hi, rfl⟩
  obtain ⟨e, he, hmask⟩ := hsel _ hm
  obtain ⟨t, ht, htop⟩ := h.top
  have hall : ∀ m : BitVec N, Covers t.mask m := fun m => by rw [htop]; exact covers_allOnes m
  refine ⟨lt_traverseWithMasks h hne ho hm he (by rw [hmask]; exact Covers.refl _), ?_⟩
  exact (traverseWithMasks_spec h hne ht (fun m _ => hall m) items.length o ho (hall _)).2.1

section Record

variable {o : ℕ} {tests : List (BitVec N)} {kz : BitVec N}

/-- Recording an edge touches the item it leads to only. -/
theorem recordEdge_spec (items : List (Item N)) (o : ℕ) (tests : List (BitVec N)) (kz : BitVec N)
    (g : Gen N) (idx : ℕ) :
    let g' := recordEdge items o tests kz g idx
    let next := nextItem items o tests idx
    Gen.Extends g g' ∧ g'.dfaNodes = g.dfaNodes ∧ g'.itemReachable next = true ∧
      Covers (newKnownZeroMask kz tests idx) (g'.knownZeroBitsForItem next) ∧
      (o < next → Gen.SameUpTo o g g') := by
  refine ⟨⟨fun _ _ => id, fun i hi => ?_, fun i => ?_⟩, rfl, ?_, ?_, fun hlt i hi => ?_⟩
  · change Function.update g.itemReachable _ true i = true
    by_cases hin : i = nextItem items o tests idx
    · rw [hin, Function.update_self]
    · rw [Function.update_of_ne hin, hi]
  · change Covers _ (Function.update g.knownZeroBitsForItem _ _ i)
    by_cases hin : i = nextItem items o tests idx
    · rw [hin, Function.update_self]
      exact (covers_and.mp (Covers.refl _)).1
    · rw [Function.update_of_ne hin]
      exact Covers.refl _
  · exact Function.update_self ..
  · change Covers _ (Function.update g.knownZeroBitsForItem _ _ _)
    rw [Function.update_self]
    exact (covers_and.mp (Covers.refl _)).2
  · have hin : i ≠ nextItem items o tests idx := by omega
    exact ⟨Function.update_of_ne hin _ _, Function.update_of_ne hin _ _⟩

/-- The loop over the outcomes of the tests. -/
theorem foldl_recordEdge_spec (items : List (Item N)) (o : ℕ) (tests : List (BitVec N))
    (kz : BitVec N) : ∀ (idxs : List ℕ) (g : Gen N),
    (∀ idx ∈ idxs, o < nextItem items o tests idx) →
    let g' := idxs.foldl (recordEdge items o tests kz) g
    Gen.Extends g g' ∧ g'.dfaNodes = g.dfaNodes ∧ Gen.SameUpTo o g g' ∧
      ∀ idx ∈ idxs, g'.itemReachable (nextItem items o tests idx) = true ∧
        Covers (newKnownZeroMask kz tests idx)
          (g'.knownZeroBitsForItem (nextItem items o tests idx))
  | [], g, _ => ⟨.refl g, rfl, fun _ _ => ⟨rfl, rfl⟩, fun _ h => absurd h List.not_mem_nil⟩
  | idx :: idxs, g, hgt => by
      obtain ⟨h1, h2, h3, h4, h5⟩ := recordEdge_spec items o tests kz g idx
      obtain ⟨k1, k2, k3, k4⟩ :=
        foldl_recordEdge_spec items o tests kz idxs (recordEdge items o tests kz g idx)
        fun i hi => hgt i (List.mem_cons_of_mem idx hi)
      refine ⟨h1.trans k1, k2.trans h2, (h5 (hgt idx List.mem_cons_self)).trans k3, ?_⟩
      intro i hi
      rcases List.mem_cons.mp hi with rfl | hi
      · exact ⟨k1.reachable _ h3, h4.trans (k1.knownZero _)⟩
      · exact k4 i hi

end Record

/-- **`handleEdges` builds a chain** at the end of the nodes, and leaves earlier items alone. -/
theorem handleEdges_spec (h : Family items P) {o : ℕ} (ho : o < items.length) :
    ∀ (fuel : ℕ) (edges : List (EdgeInfo N)) (kz : BitVec N) (g : Gen N), edges.length < fuel →
      (∀ e ∈ edges, e ∈ edgeMap items o) →
      let g' := handleEdges items o fuel edges kz g
      Gen.Extends g g' ∧ Gen.SameUpTo o g g' ∧
        ChainOk items g' o g'.dfaNodes.length g.dfaNodes.length edges kz
  | 0, _, _, _, hf, _ => absurd hf (Nat.not_lt_zero _)
  | fuel + 1, edges, kz, g, hf, hedges => by
      obtain ⟨g₁, hg₁⟩ : ∃ g₁ : Gen N, g₁ = { g with
        dfaNodes := g.dfaNodes ++ [newNode items o g.dfaNodes.length edges] } := ⟨_, rfl⟩
      have hext₁ : Gen.Extends g g₁ := by
        rw [hg₁]
        refine ⟨fun n node hn => ?_, fun _ => id, fun _ => Covers.refl _⟩
        obtain ⟨hlt, -⟩ := List.getElem?_eq_some_iff.mp hn
        exact (List.getElem?_append_left hlt).trans hn
      have hgt : ∀ idx ∈ List.range' 1 (2 ^ (testsOf edges).length - 1),
          o < nextItem items o (testsOf edges) idx := by
        intro idx hidx
        rw [List.mem_range'_1] at hidx
        have : 0 < 2 ^ (testsOf edges).length := Nat.pow_pos (by decide)
        exact (nextItem_gt h ho hedges (by omega) (by omega)).1
      obtain ⟨hext₂, hnodes₂, hsame₂, hnext⟩ := foldl_recordEdge_spec items o
        (testsOf edges) kz (List.range' 1 (2 ^ (testsOf edges).length - 1)) g₁ hgt
      obtain ⟨g₂, hg₂⟩ : ∃ g₂ : Gen N, g₂ = (List.range' 1 (2 ^ (testsOf edges).length - 1)).foldl
        (recordEdge items o (testsOf edges) kz) g₁ := ⟨_, rfl⟩
      rw [← hg₂] at hext₂ hnodes₂ hsame₂ hnext
      have hsame₁ : Gen.SameUpTo o g g₁ := by rw [hg₁]; exact fun _ _ => ⟨rfl, rfl⟩
      have hnode : g₂.dfaNodes[g.dfaNodes.length]? =
        some (newNode items o g.dfaNodes.length edges) := by
        rw [hnodes₂, hg₁]
        simp
      have hlen : g₂.dfaNodes.length = g.dfaNodes.length + 1 := by
        rw [hnodes₂, hg₁]
        simp
      have hnext' : ∀ idx, 0 < idx → idx < 2 ^ (testsOf edges).length →
          g₂.itemReachable (nextItem items o (testsOf edges) idx) = true ∧
          Covers (newKnownZeroMask kz (testsOf edges) idx)
            (g₂.knownZeroBitsForItem (nextItem items o (testsOf edges) idx)) :=
        fun idx h0 h1 => hnext idx (List.mem_range'_1.mpr ⟨h0, by omega⟩)
      have hunfold : handleEdges items o (fuel + 1) edges kz g = if maxTests < edges.length then
          handleEdges items o fuel (edges.drop maxTests) (newKnownZeroMask kz (testsOf edges) 0) g₂
          else g₂ := by
        rw [hg₂, hg₁]
        rfl
      rw [hunfold]
      by_cases hmore : maxTests < edges.length
      · rw [if_pos hmore]
        obtain ⟨hext₃, hsame₃, hchain⟩ := handleEdges_spec h ho fuel (edges.drop maxTests)
          (newKnownZeroMask kz (testsOf edges) 0) g₂ (by
            rw [List.length_drop]
            have : 0 < maxTests := by decide
            omega) fun e he => hedges e (List.mem_of_mem_drop he)
        refine ⟨(hext₁.trans hext₂).trans hext₃, (hsame₁.trans hsame₂).trans hsame₃, ?_⟩
        have hnode₃ := hext₃.nodes _ _ hnode
        obtain ⟨hlt, -⟩ := List.getElem?_eq_some_iff.mp hnode₃
        rw [hlen] at hchain
        refine .mk hlt hnode₃ (fun idx h0 h1 => ?_) fun _ => hchain
        exact ⟨hext₃.reachable _ (hnext' idx h0 h1).1,
          (hnext' idx h0 h1).2.trans (hext₃.knownZero _)⟩
      · rw [if_neg hmore]
        refine ⟨hext₁.trans hext₂, hsame₁.trans hsame₂, ?_⟩
        exact .mk (by omega) hnode hnext' fun hlt => absurd hlt hmore

/-! ## All items

In order; the nodes of an item are not changed any more when the next ones are made. -/

/-- The items before `o` have their nodes, those of an earlier item standing before those of a later
one. -/
structure BuildInv (items : List (Item N)) (roots : List ℕ) (o : ℕ)
    (s : Gen N × List (Option ℕ)) : Prop where
  length : s.2.length = o
  chain : ∀ i < o, s.1.itemReachable i = true → ∃ n b, s.2[i]? = some (some n) ∧
    ChainOk items s.1 i b n (openEdges items i (s.1.knownZeroBitsForItem i))
      (s.1.knownZeroBitsForItem i) ∧ b ≤ s.1.dfaNodes.length ∧
    ∀ i' n', i < i' → s.2[i']? = some (some n') → b ≤ n'
  roots : ∀ i ∈ roots, s.1.itemReachable i = true ∧ s.1.knownZeroBitsForItem i = 0

theorem eq_zero_of_covers {m : BitVec N} (h : Covers 0 m) : m = 0 := h.symm.trans BitVec.and_zero

/-- Step lemma of the main loop. -/
theorem BuildInv.processItem (h : Family items P) {roots : List ℕ} {o : ℕ}
    {s : Gen N × List (Option ℕ)} (hI : BuildInv items roots o s) (ho : o < items.length) :
    BuildInv items roots (o + 1) (processItem items s o) := by
  have hpush : ∀ (x : Option ℕ) (i : ℕ), i < o → (s.2 ++ [x])[i]? = s.2[i]? := fun x i hi =>
    List.getElem?_append_left (by rw [hI.length]; exact hi)
  have hlast : ∀ (x : Option ℕ) (i' n' : ℕ), (s.2 ++ [x])[i']? = some (some n') →
      s.2[i']? = some (some n') ∨ i' = o ∧ x = some n' := by
    intro x i' n' hx
    by_cases hlt : i' < o
    · exact .inl ((hpush x i' hlt).symm.trans hx)
    · obtain ⟨hlt', -⟩ := List.getElem?_eq_some_iff.mp hx
      rw [List.length_append, hI.length, List.length_singleton] at hlt'
      obtain rfl : i' = o := by omega
      rw [← hI.length, List.getElem?_concat_length] at hx
      exact .inr ⟨rfl, Option.some.inj hx⟩
  unfold Typemask.processItem
  split_ifs with hreach
  · obtain ⟨hext, hsame, hchain⟩ := handleEdges_spec h ho
      ((openEdges items o (s.1.knownZeroBitsForItem o)).length + 1)
      (openEdges items o (s.1.knownZeroBitsForItem o)) (s.1.knownZeroBitsForItem o) s.1
      (Nat.lt_succ_self _) fun e he => (List.mem_filter.mp he).1
    obtain ⟨g', hg'⟩ : ∃ g', g' = handleEdges items o
      ((openEdges items o (s.1.knownZeroBitsForItem o)).length + 1)
      (openEdges items o (s.1.knownZeroBitsForItem o)) (s.1.knownZeroBitsForItem o) s.1 := ⟨_, rfl⟩
    rw [← hg'] at hext hsame hchain
    change BuildInv items roots (o + 1) (handleEdges items o
      ((openEdges items o (s.1.knownZeroBitsForItem o)).length + 1)
      (openEdges items o (s.1.knownZeroBitsForItem o)) (s.1.knownZeroBitsForItem o) s.1,
      s.2 ++ [some s.1.dfaNodes.length])
    rw [← hg']
    have hgrow : s.1.dfaNodes.length ≤ g'.dfaNodes.length := by
      cases hchain with
      | mk lt => exact lt.le
    refine ⟨by simp [hI.length], fun i hi hri => ?_, fun i hi => ?_⟩
    · obtain ⟨hr, hk⟩ := hsame i (by omega)
      change g'.itemReachable i = true at hri
      by_cases hio : i = o
      · subst hio
        refine ⟨s.1.dfaNodes.length, g'.dfaNodes.length, ?_, ?_, le_rfl, fun i' n' hi' hn' => ?_⟩
        · change (s.2 ++ [some s.1.dfaNodes.length])[i]? = _
          rw [← hI.length, List.getElem?_concat_length]
        · rw [hk]
          exact hchain
        · rcases hlast _ _ _ hn' with hold | ⟨rfl, -⟩
          · obtain ⟨hlt, -⟩ := List.getElem?_eq_some_iff.mp hold
            rw [hI.length] at hlt
            omega
          · omega
      · obtain ⟨n, b, hn, hc, hb, hlater⟩ := hI.chain i (by omega) (by rw [← hr]; exact hri)
        refine ⟨n, b, (hpush _ i (by omega)).trans hn, ?_, hb.trans hgrow, fun i' n' hi' hn' => ?_⟩
        · rw [hk]
          exact hc.extends hext
        · rcases hlast _ _ _ hn' with hold | ⟨-, hx⟩
          · exact hlater i' n' hi' hold
          · rw [← Option.some.inj hx]
            exact hb
    · obtain ⟨hr, hk⟩ := hI.roots i hi
      refine ⟨hext.reachable i hr, eq_zero_of_covers ?_⟩
      rw [← hk]
      exact hext.knownZero i
  · refine ⟨by simp [hI.length], fun i hi hri => ?_, hI.roots⟩
    have hio : i ≠ o := fun heq => hreach (heq ▸ hri)
    obtain ⟨n, b, hn, hc, hb, hlater⟩ := hI.chain i (by omega) hri
    refine ⟨n, b, (hpush _ i (by omega)).trans hn, hc, hb, fun i' n' hi' hn' => ?_⟩
    rcases hlast _ _ _ hn' with hold | ⟨-, hx⟩
    · exact hlater i' n' hi' hold
    · exact absurd hx (by simp)

/-- **Run lemma of the main loop.** -/
theorem buildNodes_spec (h : Family items P) (roots : List ℕ) :
    BuildInv items roots items.length (buildNodes items roots) := by
  unfold buildNodes
  suffices H : ∀ n ≤ items.length, BuildInv items roots n ((List.range n).foldl (processItem items)
      ({ dfaNodes := []
         itemReachable := fun itemOrd => itemOrd ∈ roots
         knownZeroBitsForItem := fun itemOrd =>
           if itemOrd ∈ roots then 0 else BitVec.allOnes N }, [])) from H _ le_rfl
  intro n
  induction n with
  | zero =>
    intro _
    refine ⟨rfl, fun i hi => absurd hi (Nat.not_lt_zero i), fun i hi => ?_⟩
    simp [hi]
  | succ n ih =>
    intro hn
    rw [List.range_succ, List.foldl_append, List.foldl_cons, List.foldl_nil]
    exact (ih (by omega)).processItem h hn

end Typemask

end Dsom
