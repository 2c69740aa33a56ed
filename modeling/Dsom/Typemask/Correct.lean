import Dsom.Typemask.Nodes
import Dsom.Typemask.Encoding

/-!
# Typemask/Correct — the automata answer every query

`Query x o edges kz`: a run for the query `x` is at item `o`, has `edges` still to test, and knows
the bits of `kz` to be zero.  The item the run has to find (`findMinOverapprox`) always covers the
item it is at; a step that finds no test taken loses no edge of the query, and every other step
moves to a later item.  So the run ends at that item (`runNode_spec`).
-/

namespace Dsom

namespace Typemask

open BitMask Bytes

variable {N : ℕ} {items : List (Item N)} {P : BitVec N → Prop}

/-! ## The fields of a node -/

section NewNode

variable {o n : ℕ} {edges : List (EdgeInfo N)}

theorem length_dests_newNode :
    (newNode items o n edges).dests.length = 2 ^ (testsOf edges).length := by
  simp [newNode, testsOf]

theorem length_testsOf_le : (testsOf edges).length ≤ maxTests := by
  rw [testsOf, List.length_map, List.length_take]
  exact Nat.min_le_left _ _

/-- Where a test leads to. -/
theorem dests_newNode_item {idx : ℕ} (h0 : 0 < idx) (h1 : idx < 2 ^ (testsOf edges).length) :
    (newNode items o n edges).dests[idx]? =
    some (.item (nextItem items o (testsOf edges) idx)) := by
  have h0' : idx ≠ 0 := by omega
  unfold testsOf at h1 ⊢
  simp only [newNode, List.getElem?_map, List.getElem?_range h1, Option.map_some, if_pos h0']

/-- Where the node goes on if no test holds. -/
theorem dests_newNode_node (h : maxTests < edges.length) :
    (newNode items o n edges).dests[0]? = some (.node (n + 1)) := by
  simp [newNode, h]

theorem clearMask_newNode_nil (h : testsOf edges = []) :
    (newNode items o n edges).getClearMask = 0 := by
  unfold testsOf at h
  simp [newNode, NodeInfo.getClearMask, h]

/-- What a node clears from the query. -/
theorem clearMask_newNode (h : testsOf edges ≠ []) :
    (newNode items o n edges).getClearMask = BitVec.allOnes N ^^^ maskAt items o := by
  change BitVec.allOnes N ^^^ (if testsOf edges = [] then _ else maskAt items o) = _
  rw [if_neg h]

theorem isTerminalNode_newNode (h : testsOf edges ≠ []) :
    (newNode items o n edges).isTerminalNode = false := by
  refine decide_eq_false fun hterm => h ?_
  exact hterm.1

/-- The clear mask test is the cover test. -/
theorem and_clear_eq_zero {m x : BitVec N} : x &&& (BitVec.allOnes N ^^^ m) = 0 ↔ Covers m x := by
  constructor
  · intro h
    refine covers_iff.mpr fun j hj hx => ?_
    by_contra hm
    refine and_ne_zero_iff.mpr ⟨j, hj, hx, ?_⟩ h
    rw [BitVec.getLsbD_xor, BitVec.getLsbD_allOnes, eq_false_of_ne_true hm]
    simpa using hj
  · intro h
    by_contra hne
    obtain ⟨j, hj, hx, hc⟩ := and_ne_zero_iff.mp hne
    rw [BitVec.getLsbD_xor, BitVec.getLsbD_allOnes, covers_iff.mp h j hj hx] at hc
    simp [hj] at hc

end NewNode

/-! ## The invariant of a run

The answer is the one of the item that the node belongs to, for the part of the query that is left.
-/

/-- A run for the query `x` at item `o`. -/
structure Query (items : List (Item N)) (x : BitVec N) (o : ℕ) (edges : List (EdgeInfo N))
    (kz : BitVec N) : Prop where
  lt : o < items.length
  target : Covers (maskAt items (findMinOverapprox items x)) (maskAt items o)
  zero : ∀ j < N, kz.getLsbD j = true → x.getLsbD j = false
  edges_mem : ∀ e ∈ edges, e ∈ edgeMap items o
  bits : ∀ j < N, x.getLsbD j = true →
    (maskAt items o).getLsbD j = true ∨ ∃ e ∈ edges, e.edgeMask.getLsbD j = true

namespace Query

variable {x : BitVec N} {o : ℕ} {edges : List (EdgeInfo N)} {kz : BitVec N}

/-- At the first node of an item. -/
theorem start (h : Family items P) (kz : BitVec N) (lt : o < items.length)
    (target : Covers (maskAt items (findMinOverapprox items x)) (maskAt items o))
    (zero : ∀ j < N, kz.getLsbD j = true → x.getLsbD j = false) :
    Query items x o (openEdges items o kz) kz := by
  refine ⟨lt, target, zero, fun e he => (List.mem_filter.mp he).1, fun j hj hx => ?_⟩
  cases hbit : (maskAt items o).getLsbD j with
  | true => exact .inl rfl
  | false =>
    obtain ⟨e, he, hej⟩ := exists_edge h hj hbit
    refine .inr ⟨e, List.mem_filter.mpr ⟨he, decide_eq_true fun hcov => ?_⟩, hej⟩
    have := zero j hj (covers_iff.mp hcov j hj hej)
    rw [hx] at this
    exact absurd this (by decide)

/-- The item that covers the query is the one looked for. -/
theorem eq_findMin (hq : Query items x o edges kz) (h : Family items P) (hx : P x)
    (hcov : Covers (maskAt items o) x) : o = findMinOverapprox items x := by
  have hmem : items.getD o default ∈ items := Family.getD_mem hq.lt
  have hsame : maskAt items o = maskAt items (findMinOverapprox items x) :=
    (h.findMin_least hx hmem hcov).antisymm hq.target
  exact h.eq_of_maskAt_eq hq.lt (h.findMin_lt x) hsame

/-- What the tests of a node say about the bits of the query. -/
theorem zero_next (hq : Query items x o edges kz) (idx : ℕ)
    (hidx : ∀ i < (testsOf edges).length,
      (idx.testBit i = true ↔ x &&& (testsOf edges).getD i 0 ≠ 0)) :
    ∀ j < N, (newKnownZeroMask kz (testsOf edges) idx).getLsbD j = true → x.getLsbD j = false := by
  intro j hj hbit
  rcases getLsbD_newKnownZeroMask.mp hbit with hold | ⟨i, hi, hoff, htest⟩
  · exact hq.zero j hj hold
  · by_contra hx
    have := (hidx i hi).mpr (and_ne_zero_iff.mpr ⟨j, hj, Bool.eq_true_of_not_eq_false hx, htest⟩)
    rw [hoff] at this
    exact absurd this (by decide)

/-- If no test is taken, the edges not yet tested are enough. -/
theorem rest (hq : Query items x o edges kz)
    (hidx : ∀ i < (testsOf edges).length, x &&& (testsOf edges).getD i 0 = 0) :
    Query items x o (edges.drop maxTests) (newKnownZeroMask kz (testsOf edges) 0) := by
  refine ⟨hq.lt, hq.target, hq.zero_next 0 fun i hi => ?_,
    fun e he => hq.edges_mem e (List.mem_of_mem_drop he), fun j hj hx => ?_⟩
  · simpa using hidx i hi
  · rcases hq.bits j hj hx with hin | ⟨e, he, hej⟩
    · exact .inl hin
    · refine .inr ⟨e, ?_, hej⟩
      rw [← List.take_append_drop maxTests edges, List.mem_append] at he
      rcases he with he | he
      · obtain ⟨i, hi⟩ := List.mem_iff_getElem?.mp (List.mem_map_of_mem (f := (·.edgeMask)) he)
        have hget : (testsOf edges).getD i 0 = e.edgeMask := by
          rw [testsOf, List.getD_eq_getElem?_getD, hi]
          rfl
        obtain ⟨hlt, -⟩ := List.getElem?_eq_some_iff.mp hi
        exact absurd (hget ▸ hidx i hlt) (and_ne_zero_iff.mpr ⟨j, hj, hx, hej⟩)
      · exact he

/-- If some test is taken, the target covers the item it leads to. -/
theorem target_next (hq : Query items x o edges kz) (h : Family items P) {idx : ℕ}
    (hidx : ∀ i < (testsOf edges).length,
      (idx.testBit i = true ↔ x &&& (testsOf edges).getD i 0 ≠ 0)) :
    Covers (maskAt items (findMinOverapprox items x))
      (maskAt items (nextItem items o (testsOf edges) idx)) := by
  have hmem : items.getD (findMinOverapprox items x) default ∈ items :=
    Family.getD_mem (h.findMin_lt x)
  have hsel : ∀ m ∈ selectedMasks (testsOf edges) idx, ∃ e ∈ edgeMap items o,
      e.edgeMask = m ∧ x &&& m ≠ 0 := by
    intro m hm
    obtain ⟨i, hi, hbit, rfl⟩ := mem_selectedMasks.mp hm
    obtain ⟨e, he, hmask⟩ := getD_testsOf hi
    exact ⟨e, hq.edges_mem e (List.mem_of_mem_take he), hmask.symm, (hidx i hi).mp hbit⟩
  refine (traverseWithMasks_spec h (fun m hm => ?_) hmem (fun m hm => ?_) items.length o hq.lt
    hq.target).2.2
  · obtain ⟨e, he, rfl, -⟩ := hsel m hm
    exact (mem_edgeMap.mp he).2.1
  · obtain ⟨e, he, rfl, hne⟩ := hsel m hm
    obtain ⟨j, hj, hx, hej⟩ := and_ne_zero_iff.mp hne
    exact (covers_dest h hq.lt he hmem hq.target hej
      (covers_iff.mp (h.covers_findMin x) j hj hx)).2

end Query

/-! ## A run -/

section Run

variable {roots : List ℕ} {bytes : List (BitVec 8)} {base : ℕ} {x : BitVec N}

/-- Without tests the item has every bit of the query. -/
theorem Query.covers_of_no_tests {o : ℕ} {edges : List (EdgeInfo N)} {kz : BitVec N}
    (hq : Query items x o edges kz) (htests : testsOf edges = []) : Covers (maskAt items o) x := by
  have hnil : edges = [] := by
    rw [testsOf, List.map_eq_nil_iff, List.take_eq_nil_iff] at htests
    exact htests.resolve_left (by decide)
  refine covers_iff.mpr fun j hj hxj => ?_
  rcases hq.bits j hj hxj with hin | ⟨e, he, -⟩
  · exact hin
  · rw [hnil] at he
    exact absurd he List.not_mem_nil

/-- As long as the item is not the answer there are more edges. -/
theorem Query.lt_length {o : ℕ} {edges : List (EdgeInfo N)} {kz : BitVec N}
    (hq : Query items x o (edges.drop maxTests) kz) (hcov : ¬ Covers (maskAt items o) x) :
    maxTests < edges.length := by
  obtain ⟨j, hj, hxj, hoj⟩ := exists_bit_of_not_covers hcov
  rcases hq.bits j hj hxj with hin | ⟨e, he, -⟩
  · rw [hoj] at hin
    exact absurd hin (by decide)
  · have := List.length_pos_of_mem he
    rw [List.length_drop] at this
    omega

/-- **A run ends at the item looked for**, from any node whose item it covers. -/
theorem runNode_spec (h : Family items P) (hN : N ≤ 32) (hx : P x)
    {s : Gen N × List (Option ℕ)} (hI : BuildInv items roots items.length s)
    (henc : Encoded base s.1.dfaNodes s.2 bytes) :
    ∀ (fuel n : ℕ) {o b : ℕ} {edges : List (EdgeInfo N)} {kz : BitVec N},
      s.1.dfaNodes.length ≤ fuel + n → b ≤ s.1.dfaNodes.length → Query items x o edges kz →
      ChainOk items s.1 o b n edges kz →
      (∀ i' n', o < i' → s.2[i']? = some (some n') → b ≤ n') →
      runNode bytes x.toNat fuel (offsetForDfaNode base s.1.dfaNodes n)
        = some (items.getD (findMinOverapprox items x) default).value.toNat := by
  intro fuel
  induction fuel with
  | zero =>
    intro n o b edges kz hf hb hq hc
    cases hc with
    | mk lt => omega
  | succ fuel ih =>
    intro n o b edges kz hf hb hq hc hlater
    cases hc with
    | mk lt node next rest =>
      have hans : Covers (maskAt items o) x → (newNode items o n edges).item.value
          = (items.getD (findMinOverapprox items x) default).value := fun hcov => by
        rw [← hq.eq_findMin h hx hcov]
        rfl
      by_cases htests : testsOf edges = []
      · -- a node without tests answers; the query has no bit outside of its item
        rw [runNode_answer hN henc node
          (by rw [clearMask_newNode_nil htests]; exact BitVec.and_zero) fuel,
          hans (hq.covers_of_no_tests htests)]
      · by_cases hcov : Covers (maskAt items o) x
        · rw [runNode_answer hN henc node
            (by rw [clearMask_newNode htests]; exact and_clear_eq_zero.mpr hcov) fuel, hans hcov]
        · obtain ⟨idx, hlt, hbits, hstep⟩ := runNode_next hN henc node
            (isTerminalNode_newNode htests)
            (by rw [clearMask_newNode htests]; exact fun h0 => hcov (and_clear_eq_zero.mp h0))
            length_dests_newNode length_testsOf_le
          change idx < 2 ^ (testsOf edges).length at hlt
          change ∀ i < (testsOf edges).length,
            (idx.testBit i = true ↔ x &&& (testsOf edges).getD i 0 ≠ 0) at hbits
          rcases Nat.eq_zero_or_pos idx with rfl | hpos
          · -- no test is taken, so an edge of the query is still to come
            have hq' := hq.rest fun i hi => by
              by_contra hne
              have := (hbits i hi).mpr hne
              rw [Nat.zero_testBit] at this
              exact absurd this (by decide)
            have hmore := hq'.lt_length hcov
            rw [hstep (n + 1) (by rw [dests_newNode_node hmore]; rfl) (Nat.le_succ n)]
            exact ih (n + 1) (by omega) hb hq' (rest hmore) hlater
          · obtain ⟨hgt, hnlt⟩ := nextItem_gt h hq.lt hq.edges_mem hpos hlt
            obtain ⟨hreach, hkz⟩ := next idx hpos hlt
            obtain ⟨n', b', hn', hc', hb', hlater'⟩ := hI.chain _ hnlt hreach
            have hle := hlater _ _ hgt hn'
            have hq' := Query.start (x := x) h
              (s.1.knownZeroBitsForItem (nextItem items o (testsOf edges) idx)) hnlt
              (hq.target_next h hbits) fun j hj hk =>
              hq.zero_next idx hbits j hj (covers_iff.mp hkz j hj hk)
            have hres : ((newNode items o n edges).dests[idx]?).bind (resolve s.2) = some n' := by
              rw [dests_newNode_item hpos hlt, Option.bind_some, resolve,
                List.getD_eq_getElem?_getD, hn']
              rfl
            rw [hstep n' hres (by omega)]
            exact ih n' (by omega) hb' hq' hc' hlater'

/-- **A run from a root**, whose item the target covers. -/
theorem runNode_root (h : Family items P) (hN : N ≤ 32) (hx : P x)
    (henc : Encoded base (buildNodes items roots).1.dfaNodes (buildNodes items roots).2 bytes)
    {root : ℕ} (hroot : root ∈ roots) (hlt : root < items.length)
    (htarget : Covers (maskAt items (findMinOverapprox items x)) (maskAt items root)) :
    ∃ n, (buildNodes items roots).2[root]? = some (some n) ∧
      ∀ fuel, (buildNodes items roots).1.dfaNodes.length ≤ fuel →
      runNode bytes x.toNat fuel (offsetForDfaNode base (buildNodes items roots).1.dfaNodes n)
        = some (items.getD (findMinOverapprox items x) default).value.toNat := by
  have hI := buildNodes_spec h roots
  obtain ⟨hreach, hkz⟩ := hI.roots root hroot
  obtain ⟨n, b, hn, hc, hb, hlater⟩ := hI.chain root hlt hreach
  refine ⟨n, hn, fun fuel hf => ?_⟩
  refine runNode_spec h hN hx hI henc fuel n (by omega) hb
    (Query.start h _ hlt htarget ?_) hc hlater
  intro j _ hbit
  rw [hkz] at hbit
  simp at hbit

end Run

end Typemask

end Dsom
