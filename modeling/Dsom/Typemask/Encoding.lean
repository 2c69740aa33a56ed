import Dsom.Typemask.Generator
import Mathlib.Algebra.Order.BigOperators.Group.List

/-!
# Typemask/Encoding — the bytes of a node, as the interpreter reads them

The emitted nodes stand one after the other (`populateAll_spec`), and each field of a node is where
the interpreter loads it (`NodeAt`).  So the interpreter takes one step from node to node
(`runNode_answer`, `runNode_next`).
-/

namespace Dsom

namespace Typemask

open BitMask Bytes

variable {N : ℕ}

theorem toNat_lt_word (hN : N ≤ 32) (m : BitVec N) : m.toNat < 2 ^ (8 * 4) :=
  m.isLt.trans_le (Nat.pow_le_pow_right (by decide) hN)

/-! ## A node among the bytes -/

section Populate

variable {curOffset nodeOrd : ℕ} {dfaNodes : List (NodeInfo N)} {itemToNodeOrdMap : List (Option ℕ)}
  {node : NodeInfo N} {seg bytes : List (BitVec 8)}

/-- A destination has two bytes. -/
theorem length_encodeDest {dest : Dest}
    (h : encodeDest curOffset dfaNodes itemToNodeOrdMap nodeOrd dest = .ok seg) :
    seg.length = 2 := by
  unfold encodeDest at h
  split at h
  · cases h
    simp
  · dsimp only at h
    split_ifs at h
    cases h
    simp

/-- The bytes of a node that is not terminal. -/
theorem populate_ok (hterm : node.isTerminalNode = false)
    (h : populate curOffset dfaNodes itemToNodeOrdMap nodeOrd node = .ok seg) : ∃ dests,
    List.Forall₂ (fun dest bs =>
      encodeDest curOffset dfaNodes itemToNodeOrdMap nodeOrd dest = .ok bs)
      node.dests dests ∧
    seg = leBytes 4 node.getClearMask.toNat ++ leBytes 2 node.item.value.toNat
      ++ ((List.range maxTests).map fun i => leBytes 4 (node.testMasks.getD i 0).toNat).flatten
      ++ dests.flatten := by
  unfold populate at h
  rw [if_neg (by simp [hterm])] at h
  cases hd : node.dests.mapM (encodeDest curOffset dfaNodes itemToNodeOrdMap nodeOrd) with
  | error e => simp [hd, Bind.bind, Except.bind] at h
  | ok dests =>
    simp only [hd, Bind.bind, Except.bind, Except.ok.injEq] at h
    exact ⟨dests, mapM_ok hd, h.symm⟩

/-- All nodes start with their clear mask and their answer. -/
theorem populate_common (h : populate curOffset dfaNodes itemToNodeOrdMap nodeOrd node = .ok seg) :
    ∃ rest, seg = leBytes 4 node.getClearMask.toNat ++ leBytes 2 node.item.value.toNat ++ rest := by
  cases hterm : node.isTerminalNode with
  | true =>
    rw [populate, if_pos hterm] at h
    cases h
    exact ⟨[], by simp⟩
  | false =>
    obtain ⟨dests, -, rfl⟩ := populate_ok hterm h
    exact ⟨_, List.append_assoc _ _ _⟩

theorem length_flatten_tests : ((List.range maxTests).map fun i =>
    leBytes 4 (node.testMasks.getD i 0).toNat).flatten.length = 4 * maxTests := by
  simp [List.length_flatten, maxTests, Function.comp_def]

/-- **A node has the size that was reserved for it.** -/
theorem length_populate (h : populate curOffset dfaNodes itemToNodeOrdMap nodeOrd node = .ok seg) :
    seg.length = node.getByteSize := by
  cases hterm : node.isTerminalNode with
  | true =>
    rw [populate, if_pos hterm] at h
    cases h
    simp [NodeInfo.getByteSize, hterm]
  | false =>
    obtain ⟨dests, hdests, rfl⟩ := populate_ok hterm h
    have hsum : dests.flatten.length = 2 * node.dests.length := by
      rw [hdests.length_eq]
      refine length_flatten_const fun s hs => ?_
      obtain ⟨dest, -, henc⟩ := mem_of_forall₂ hdests hs
      exact length_encodeDest henc
    rw [List.length_append, List.length_append, List.length_append, length_leBytes, length_leBytes,
      hsum, length_flatten_tests, NodeInfo.getByteSize, if_neg (by simp [hterm])]

/-- A node lies inside the bytes. -/
theorem sum_take_le (dfaNodes : List (NodeInfo N)) (n : ℕ) :
    ((dfaNodes.take n).map NodeInfo.getByteSize).sum ≤ (dfaNodes.map NodeInfo.getByteSize).sum := by
  rw [List.map_take]
  exact (List.take_sublist n _).sum_le_sum fun _ _ => Nat.zero_le _

/-- **The nodes stand one after the other.** -/
theorem populateAll_spec
    (h : populateAll curOffset dfaNodes itemToNodeOrdMap = .ok bytes) :
    bytes.length = (dfaNodes.map NodeInfo.getByteSize).sum ∧
    ∀ n node, dfaNodes[n]? = some node → ∃ seg,
      populate curOffset dfaNodes itemToNodeOrdMap n node = .ok seg ∧
      At bytes (((dfaNodes.take n).map NodeInfo.getByteSize).sum) seg := by
  unfold populateAll at h
  cases hm : dfaNodes.zipIdx.mapM (fun node =>
      populate curOffset dfaNodes itemToNodeOrdMap node.2 node.1) with
  | error e => simp [hm, Bind.bind, Except.bind] at h
  | ok segs =>
    simp only [hm, Bind.bind, Except.bind, Except.ok.injEq] at h
    have hall := mapM_ok hm
    have hlen : dfaNodes.length = segs.length := by simpa using hall.length_eq
    have hseg : ∀ n, ∀ hn : n < dfaNodes.length, ∀ hs : n < segs.length,
        populate curOffset dfaNodes itemToNodeOrdMap n dfaNodes[n] = .ok segs[n] := by
      intro n hn hs
      simpa using hall.get (i := n) (by simpa using hn) hs
    have hsizes : segs.map List.length = dfaNodes.map NodeInfo.getByteSize := by
      refine List.ext_getElem (by simp [hlen]) fun n h1 h2 => ?_
      rw [List.getElem_map, List.getElem_map]
      exact length_populate (hseg n (by simpa using h2) (by simpa using h1))
    refine ⟨by rw [← h, List.length_flatten, hsizes], fun n node hn => ?_⟩
    obtain ⟨hlt, rfl⟩ := List.getElem?_eq_some_iff.mp hn
    have hlt' : n < segs.length := by omega
    refine ⟨segs[n], hseg n hlt hlt', ?_⟩
    have hat := (At.self bytes)
    rw [← h] at hat
    have := hat.flatten (List.getElem?_eq_getElem hlt')
    rwa [Nat.zero_add, List.map_take, hsizes, ← List.map_take, h] at this

/-- The size of an automaton that could not be encoded. -/
theorem populateAll_error {e : GenerateError}
    (h : populateAll curOffset dfaNodes itemToNodeOrdMap = .error e) :
    e = .dfaTooLarge ∧ 65534 < (dfaNodes.map NodeInfo.getByteSize).sum := by
  unfold populateAll at h
  cases hm : dfaNodes.zipIdx.mapM (fun node =>
      populate curOffset dfaNodes itemToNodeOrdMap node.2 node.1) with
  | ok segs => simp [hm, Bind.bind, Except.bind] at h
  | error e' =>
    simp only [hm, Bind.bind, Except.bind, Except.error.injEq] at h
    subst h
    obtain ⟨⟨node, n⟩, -, hp⟩ := mapM_error hm
    simp only [populate] at hp
    split_ifs at hp
    cases hd : node.dests.mapM (encodeDest curOffset dfaNodes itemToNodeOrdMap n) with
    | ok dests => simp [hd, Bind.bind, Except.bind] at hp
    | error e'' =>
      simp only [hd, Bind.bind, Except.bind, Except.error.injEq] at hp
      subst hp
      obtain ⟨dest, -, he⟩ := mapM_error hd
      unfold encodeDest at he
      split at he
      · cases he
      · rename_i d _
        dsimp only at he
        split_ifs at he with hle
        refine ⟨(Except.error.inj he).symm, ?_⟩
        have := sum_take_le dfaNodes d
        unfold offsetForDfaNode at hle
        omega

end Populate

/-! ## What the interpreter loads -/

section Run

variable {base : ℕ} {dfaNodes : List (NodeInfo N)} {itemToNodeOrdMap : List (Option ℕ)}
  {bytes : List (BitVec 8)} {n : ℕ} {node : NodeInfo N} {x : BitVec N}

/-- The nodes are in `bytes`, the first one at `base`. -/
def Encoded (base : ℕ) (dfaNodes : List (NodeInfo N)) (itemToNodeOrdMap : List (Option ℕ))
    (bytes : List (BitVec 8)) : Prop :=
  ∀ n node, dfaNodes[n]? = some node → ∃ seg,
    populate base dfaNodes itemToNodeOrdMap n node = .ok seg ∧
    At bytes (offsetForDfaNode base dfaNodes n) seg

/-- A load that finds a zero bit in common. -/
theorem and_toNat_eq_zero {m : BitVec N} : x.toNat &&& m.toNat = 0 ↔ x &&& m = 0 := by
  rw [← BitVec.toNat_and, BitVec.toNat_eq]
  simp

/-- **A node answers** if its clear mask says so. -/
theorem runNode_answer (hN : N ≤ 32) (h : Encoded base dfaNodes itemToNodeOrdMap bytes)
    (hn : dfaNodes[n]? = some node) (hx : x &&& node.getClearMask = 0) (fuel : ℕ) :
    runNode bytes x.toNat (fuel + 1) (offsetForDfaNode base dfaNodes n)
      = some node.item.value.toNat := by
  obtain ⟨seg, hp, hat⟩ := h n node hn
  obtain ⟨rest, rfl⟩ := populate_common hp
  have hclear := hat.left.left.load (toNat_lt_word hN _)
  have hvalue := hat.left.right.load node.item.value.isLt
  rw [length_leBytes] at hvalue
  simp [runNode, hclear, and_toNat_eq_zero.mpr hx, hvalue]

/-- The index of a node: a bit for each test that the query shares a bit with. -/
theorem testIndex_spec {tests : List (BitVec N)} {addr k : ℕ}
    (hload : ∀ i < k, load 4 bytes (addr + 6 + 4 * i) = some (tests.getD i 0).toNat) :
    ∃ idx, testIndex bytes x.toNat addr k = some idx ∧ idx < 2 ^ k ∧
      ∀ i < k, idx.testBit i = true ↔ x &&& tests.getD i 0 ≠ 0 := by
  induction k with
  | zero => exact ⟨0, rfl, by decide, fun i hi => absurd hi (Nat.not_lt_zero i)⟩
  | succ k ih =>
    obtain ⟨idx, hidx, hlt, hbits⟩ := ih fun i hi => hload i (by omega)
    have hpow : 2 ^ (k + 1) = 2 ^ k + 2 ^ k := by rw [Nat.pow_succ]; omega
    by_cases hx : x &&& tests.getD k 0 = 0
    · refine ⟨idx, ?_, by omega, fun i hi => ?_⟩
      · simp only [testIndex, hidx, hload k (Nat.lt_succ_self k), Option.bind_eq_bind,
          Option.bind_some]
        rw [if_neg (not_not.mpr (and_toNat_eq_zero.mpr hx))]
      · by_cases hik : i = k
        · subst hik
          rw [Nat.testBit_lt_two_pow hlt]
          exact ⟨fun h0 => absurd h0 (by decide), fun h0 => absurd hx h0⟩
        · exact hbits i (by omega)
    · refine ⟨idx + 2 ^ k, ?_, by omega, fun i hi => ?_⟩
      · simp only [testIndex, hidx, hload k (Nat.lt_succ_self k), Option.bind_eq_bind,
          Option.bind_some]
        rw [if_pos (fun h0 => hx (and_toNat_eq_zero.mp h0))]
      · rw [Nat.add_comm]
        by_cases hik : i = k
        · subst hik
          rw [Nat.testBit_two_pow_add_eq, Nat.testBit_lt_two_pow hlt]
          exact ⟨fun _ => hx, fun _ => rfl⟩
        · rw [Nat.testBit_two_pow_add_gt (by omega)]
          exact hbits i (by omega)

/-- **A node leads on** to the destination its tests select. -/
theorem runNode_next (hN : N ≤ 32) (h : Encoded base dfaNodes itemToNodeOrdMap bytes)
    (hn : dfaNodes[n]? = some node) (hterm : node.isTerminalNode = false)
    (hx : x &&& node.getClearMask ≠ 0) (hsize : node.dests.length = 2 ^ node.testMasks.length)
    (hmax : node.testMasks.length ≤ maxTests) : ∃ idx,
    idx < 2 ^ node.testMasks.length ∧
    (∀ i < node.testMasks.length, idx.testBit i = true ↔ x &&& node.testMasks.getD i 0 ≠ 0) ∧
    ∀ d, (node.dests[idx]?).bind (resolve itemToNodeOrdMap) = some d → n ≤ d → ∀ fuel,
      runNode bytes x.toNat (fuel + 1) (offsetForDfaNode base dfaNodes n)
        = runNode bytes x.toNat fuel (offsetForDfaNode base dfaNodes d) := by
  obtain ⟨seg, hp, hat⟩ := h n node hn
  obtain ⟨dests, hdests, rfl⟩ := populate_ok hterm hp
  have hclear := hat.left.left.left.load (toNat_lt_word hN _)
  have htests : ∀ i < maxTests, load 4 bytes (offsetForDfaNode base dfaNodes n + 6 + 4 * i)
      = some (node.testMasks.getD i 0).toNat := by
    intro i hi
    have hflat := hat.left.right
    rw [List.length_append, length_leBytes, length_leBytes] at hflat
    refine (hflat.flatten_const (k := 4) (fun s hs => ?_) (i := i) ?_).load (toNat_lt_word hN _)
    · obtain ⟨j, -, rfl⟩ := List.mem_map.mp hs
      exact length_leBytes
    · simp [hi]
  obtain ⟨idx, hidx, hlt, hbits⟩ := testIndex_spec (x := x) htests
  -- a test that the node does not have is never taken
  have hsmall : idx < 2 ^ node.testMasks.length := by
    refine Nat.lt_pow_two_of_testBit _ fun i hi => ?_
    by_cases him : i < maxTests
    · have := hbits i him
      rw [List.getD_eq_getElem?_getD, List.getElem?_eq_none hi] at this
      simpa using this
    · exact Nat.testBit_lt_two_pow (hlt.trans_le (Nat.pow_le_pow_right (by decide) (by omega)))
  refine ⟨idx, hsmall, fun i hi => hbits i (by omega), fun d hd hnd fuel => ?_⟩
  have hdlt : idx < node.dests.length := by omega
  have hdlt' : idx < dests.length := by rw [← hdests.length_eq]; exact hdlt
  rw [List.getElem?_eq_getElem hdlt, Option.bind_some] at hd
  have henc := hdests.get (i := idx) hdlt hdlt'
  have hdest : dests[idx] = leBytes 2 (offsetForDfaNode base dfaNodes d
        - offsetForDfaNode base dfaNodes n) ∧
      offsetForDfaNode base dfaNodes d - offsetForDfaNode base dfaNodes n ≤ 65534 := by
    simp only [encodeDest, List.get_eq_getElem, hd] at henc
    split_ifs at henc with hle
    exact ⟨(Except.ok.inj henc).symm, hle⟩
  have hmono : offsetForDfaNode base dfaNodes n ≤ offsetForDfaNode base dfaNodes d := by
    unfold offsetForDfaNode
    have : ((dfaNodes.take n).map NodeInfo.getByteSize).sum
        ≤ ((dfaNodes.take d).map NodeInfo.getByteSize).sum := by
      have hsub : (dfaNodes.take n).Sublist (dfaNodes.take d) :=
        (List.take_prefix_take_left hnd).sublist
      exact (hsub.map _).sum_le_sum fun _ _ => Nat.zero_le _
    omega
  have hload : load 2 bytes (offsetForDfaNode base dfaNodes n + 6 + 4 * maxTests + 2 * idx)
      = some (offsetForDfaNode base dfaNodes d - offsetForDfaNode base dfaNodes n) := by
    have hflat := hat.right
    rw [List.length_append, List.length_append, length_leBytes, length_leBytes,
      length_flatten_tests] at hflat
    refine At.load ?_ (by omega)
    rw [← hdest.1]
    have := hflat.flatten_const (k := 2) (fun s hs => ?_) (List.getElem?_eq_getElem hdlt')
    · rwa [show offsetForDfaNode base dfaNodes n + (4 + 2 + 4 * maxTests) + 2 * idx
        = offsetForDfaNode base dfaNodes n + 6 + 4 * maxTests + 2 * idx by omega] at this
    · obtain ⟨dest, -, henc⟩ := mem_of_forall₂ hdests hs
      exact length_encodeDest henc
  have hxn : x.toNat &&& node.getClearMask.toNat ≠ 0 := fun h0 => hx (and_toNat_eq_zero.mp h0)
  simp only [runNode, hclear, hidx, hload, Option.bind_eq_bind, Option.bind_some]
  rw [if_neg hxn, Nat.add_sub_cancel' hmono]

end Run

end Typemask

end Dsom
