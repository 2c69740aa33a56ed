import Dsom.Typemask.Correct

/-!
# Typemask/Automata — both encodings answer every query

`Least L x e`: `e` is the least item of `L` that covers `x`.  A run finds the least item of the
closed items; its value is that of a *minimal* item among those given (`IsAnswer`), since a new
item of the closure has such a value, or it is `-1` if the least item is the catch-all one.
-/

namespace Dsom

namespace Typemask

open BitMask Bytes

variable {N : ℕ} {items r : List (Item N)} {x : BitVec N}

/-- What a query has to be answered with. -/
def IsAnswer (items : List (Item N)) (x : BitVec N) (v : ℕ) : Prop :=
  (∃ a, IsBest items x a ∧ a.value.toNat = v) ∨ (∀ a ∈ items, ¬ Covers a.mask x) ∧ v = 65535

/-- The least item that covers `x`. -/
structure Least (L : List (Item N)) (x : BitVec N) (e : Item N) : Prop where
  mem : e ∈ L
  covers : Covers e.mask x
  least : ∀ l ∈ L, Covers l.mask x → Covers l.mask e.mask

/-- The first cover is the least one. -/
theorem Family.least_findMin {P : BitVec N → Prop} (h : Family items P) (hx : P x) :
    Least items x (items.getD (findMinOverapprox items x) default) :=
  ⟨Family.getD_mem (h.findMin_lt x), h.covers_findMin x,
    fun _ hl hcov => h.findMin_least hx hl hcov⟩

/-! ## The catch-all item

An item above all others stands for no answer. -/

theorem toNat_le_allOnes (m : BitVec N) : m.toNat ≤ (BitVec.allOnes N).toNat :=
  (covers_allOnes m).toNat_le

/-- In a sorted list a full mask is the last one. -/
theorem mask_ne_allOnes (hr : r.Pairwise fun a b => a.mask.toNat < b.mask.toNat)
    (hlast : r.getLast?.map Item.mask ≠ some (BitVec.allOnes N)) :
    ∀ e ∈ r, e.mask ≠ BitVec.allOnes N := by
  intro e he hfull
  rcases List.eq_nil_or_concat' r with rfl | ⟨init, last, rfl⟩
  · exact absurd he List.not_mem_nil
  · rw [List.getLast?_concat, Option.map_some] at hlast
    rcases List.mem_append.mp he with he | he
    · have := (List.pairwise_append.mp hr).2.2 e he last (List.mem_singleton_self last)
      rw [hfull] at this
      exact absurd (toNat_le_allOnes last.mask) (by omega)
    · rw [List.mem_singleton.mp he] at hfull
      exact hlast (congrArg some hfull)

/-- Either the closure has a full mask, or the catch-all item is added to it. -/
theorem withTop_cases (hr : r.Pairwise fun a b => a.mask.toNat < b.mask.toNat) :
    (withTop r = r ∧ ∃ e ∈ r, e.mask = BitVec.allOnes N) ∨
      withTop r = r ++ [⟨BitVec.allOnes N, 65535⟩] ∧ ∀ e ∈ r, e.mask ≠ BitVec.allOnes N := by
  unfold withTop
  split_ifs with hlast
  · obtain ⟨e, he, hm⟩ := Option.map_eq_some_iff.mp hlast
    exact .inl ⟨rfl, e, List.mem_of_getLast? he, hm⟩
  · exact .inr ⟨rfl, mask_ne_allOnes hr hlast⟩

/-- What the generator needs of the closed items. -/
structure IsTopped (L : List (Item N)) : Prop where
  sorted : L.Pairwise fun a b => a.mask.toNat < b.mask.toNat
  top : ∃ e ∈ L, e.mask = BitVec.allOnes N
  closed : ∀ a ∈ L, ∀ b ∈ L, a.mask &&& b.mask ∈ L.map Item.mask

theorem IsClosure.isTopped (h : IsClosure items r) : IsTopped (withTop r) := by
  rcases withTop_cases h.sorted with ⟨heq, htop⟩ | ⟨heq, hne⟩
  · rw [heq]
    exact ⟨h.sorted, htop, h.closed⟩
  · rw [heq]
    refine ⟨List.pairwise_append.mpr ⟨h.sorted, List.pairwise_singleton _ _, fun a ha b hb => ?_⟩,
      ⟨_, List.mem_append_right _ (List.mem_singleton_self _), rfl⟩, fun a ha b hb => ?_⟩
    · rw [List.mem_singleton.mp hb]
      refine lt_of_le_of_ne (toNat_le_allOnes a.mask) fun heq' => hne a ha ?_
      exact BitVec.eq_of_toNat_eq heq'
    · -- an intersection with the full mask changes nothing
      rcases List.mem_append.mp ha with ha' | ha'
      · rcases List.mem_append.mp hb with hb' | hb'
        · rw [List.map_append]
          exact List.mem_append_left _ (h.closed a ha' b hb')
        · rw [List.mem_singleton.mp hb', BitVec.and_allOnes]
          exact List.mem_map_of_mem ha
      · rw [List.mem_singleton.mp ha', BitVec.allOnes_and]
        exact List.mem_map_of_mem hb

/-- **The value of the least closed item answers the query.** -/
theorem IsClosure.isAnswer (h : IsClosure items r) {e : Item N} (he : Least (withTop r) x e) :
    IsAnswer items x e.value.toNat := by
  have hsub : ∀ l ∈ items, l ∈ withTop r := by
    intro l hl
    rcases withTop_cases h.sorted with ⟨heq, -⟩ | ⟨heq, -⟩
    · rw [heq]
      exact h.items_mem l hl
    · rw [heq]
      exact List.mem_append_left _ (h.items_mem l hl)
  by_cases hmem : e ∈ r
  · obtain ⟨a, hv, ha⟩ := h.best e hmem
    refine .inl ⟨a, ⟨ha.mem, ha.covers.trans he.covers, fun l hl hlx hal => ?_⟩, by rw [hv]⟩
    exact ha.minimal l hl (he.least l (hsub l hl) hlx) hal
  · rcases withTop_cases h.sorted with ⟨heq, -⟩ | ⟨heq, hne⟩
    · exact absurd (heq ▸ he.mem) hmem
    · have hcatch : e = ⟨BitVec.allOnes N, 65535⟩ := by
        have := he.mem
        rw [heq, List.mem_append] at this
        exact List.mem_singleton.mp (this.resolve_left hmem)
      refine .inr ⟨fun l hl hlx => hne l (h.items_mem l hl) ?_, by rw [hcatch]; rfl⟩
      have := he.least l (hsub l hl) hlx
      rw [hcatch] at this
      exact (covers_allOnes l.mask).antisymm this |>.symm

namespace IsTopped

variable {L : List (Item N)}

theorem family (h : IsTopped L) : Family L fun _ => True :=
  ⟨h.sorted, h.top, fun _ _ _ _ => trivial, fun _ _ => trivial,
    fun _ _ a ha b hb _ _ => h.closed a ha b hb⟩

/-- The first item is inside every other. -/
theorem covers_head {bottom : Item N} {rest : List (Item N)} (h : IsTopped (bottom :: rest)) :
    ∀ e ∈ bottom :: rest, Covers e.mask bottom.mask := by
  intro e he
  obtain ⟨c, hc, hmask⟩ := List.mem_map.mp (h.closed bottom List.mem_cons_self e he)
  have hle : c.mask.toNat ≤ bottom.mask.toNat := by
    rw [hmask, BitVec.toNat_and]
    exact Nat.and_le_left
  rcases List.mem_cons.mp hc with rfl | hc
  · exact hmask.symm
  · have := (List.pairwise_cons.mp h.sorted).1 c hc
    omega

/-- Without its first item the list still serves the queries that item does not cover. -/
theorem family_tail {bottom : Item N} {rest : List (Item N)} (h : IsTopped (bottom :: rest))
    (hne : rest ≠ []) : Family rest fun m => ¬ Covers bottom.mask m := by
  obtain ⟨hhead, hsorted⟩ := List.pairwise_cons.mp h.sorted
  refine ⟨hsorted, ?_, fun m m' hm hcov hm' => hm (hm'.trans hcov), fun e he hcov => ?_,
    fun m hm a ha b hb hca hcb => ?_⟩
  · obtain ⟨e, he, htop⟩ := h.top
    rcases List.mem_cons.mp he with rfl | he
    · obtain ⟨c, hc⟩ := List.exists_mem_of_ne_nil rest hne
      have := hhead c hc
      rw [htop] at this
      exact absurd (toNat_le_allOnes c.mask) (by omega)
    · exact ⟨e, he, htop⟩
  · have hlt := hhead e he
    have hle := hcov.toNat_le
    omega
  · obtain ⟨c, hc, hmask⟩ := List.mem_map.mp (h.closed a (List.mem_cons_of_mem _ ha) b
      (List.mem_cons_of_mem _ hb))
    rcases List.mem_cons.mp hc with rfl | hc
    · refine absurd ?_ hm
      rw [hmask]
      exact covers_and.mpr ⟨hca, hcb⟩
    · exact List.mem_map.mpr ⟨c, hc, hmask⟩

end IsTopped

/-! ## The plain encoding

The nodes are laid out one behind the other, the first one at the start. -/

/-- The bytes that nodes take. -/
def nodeBytes (dfaNodes : List (NodeInfo N)) : ℕ := (dfaNodes.map NodeInfo.getByteSize).sum

theorem length_le_nodeBytes (dfaNodes : List (NodeInfo N)) :
    dfaNodes.length ≤ nodeBytes dfaNodes := by
  induction dfaNodes with
  | nil => exact le_rfl
  | cons node nodes ih =>
    have hpos : 1 ≤ node.getByteSize := by
      unfold NodeInfo.getByteSize
      split_ifs <;> omega
    rw [nodeBytes, List.map_cons, List.sum_cons, List.length_cons]
    unfold nodeBytes at ih
    omega

/-- The first item of a plain automaton has the first node. -/
theorem buildNodes_head (hpos : 0 < items.length) :
    (buildNodes items [0]).2[0]? = some (some 0) := by
  have hgrow : ∀ (os : List ℕ) (s : Gen N × List (Option ℕ)), s.2[0]? = some (some 0) →
      (os.foldl (processItem items) s).2[0]? = some (some 0) := by
    intro os
    induction os with
    | nil => exact fun s hs => hs
    | cons o os ih =>
      intro s hs
      obtain ⟨hlt, -⟩ := List.getElem?_eq_some_iff.mp hs
      refine ih _ ?_
      unfold processItem
      split_ifs
      · exact (List.getElem?_append_left hlt).trans hs
      · exact (List.getElem?_append_left hlt).trans hs
  obtain ⟨k, hk⟩ : ∃ k, items.length = k + 1 := ⟨items.length - 1, by omega⟩
  rw [buildNodes, hk, List.range_succ_eq_map, List.foldl_cons]
  refine hgrow _ _ ?_
  simp [processItem]

/-- **The plain automaton** answers every query. -/
theorem runAutomata_of_populateAll (hN : N ≤ 32) (h : IsClosure items r) {bytes : List (BitVec 8)}
    (hp : populateAll 0 (buildNodes (withTop r) [0]).1.dfaNodes (buildNodes (withTop r) [0]).2
      = .ok bytes) {fuel : ℕ} (hf : bytes.length ≤ fuel) :
    ∃ v, runAutomataMayFail bytes fuel x.toNat = some v ∧ IsAnswer items x v := by
  have htop := h.isTopped
  obtain ⟨hlen, hat⟩ := populateAll_spec hp
  have henc : Encoded 0 (buildNodes (withTop r) [0]).1.dfaNodes (buildNodes (withTop r) [0]).2
      bytes := by
    intro n node hn
    obtain ⟨seg, hseg, hbytes⟩ := hat n node hn
    exact ⟨seg, hseg, by rwa [offsetForDfaNode, Nat.zero_add]⟩
  have hpos : 0 < (withTop r).length := by
    obtain ⟨e, he, -⟩ := htop.top
    exact List.length_pos_of_mem he
  have htarget : Covers (maskAt (withTop r) (findMinOverapprox (withTop r) x))
      (maskAt (withTop r) 0) := by
    have hmem := Family.getD_mem (htop.family.findMin_lt x)
    obtain ⟨bottom, rest, hL⟩ := List.exists_cons_of_length_pos hpos
    rw [hL] at htop hmem ⊢
    exact htop.covers_head _ hmem
  obtain ⟨n, hn, hrun⟩ := runNode_root htop.family hN trivial henc (List.mem_singleton_self 0) hpos
    htarget
  rw [buildNodes_head hpos, Option.some.injEq, Option.some.injEq] at hn
  subst hn
  refine ⟨_, hrun fuel ?_, h.isAnswer (htop.family.least_findMin trivial)⟩
  exact (length_le_nodeBytes _).trans (by rw [nodeBytes, ← hlen]; exact hf)

/-! ## The leaf-optimised encoding

A header for the bottom item and a table with an entry for every bit lead into the nodes. -/

/-- The first bit of a query, as `CountTrailingZeros` finds it. -/
theorem findIdx_testBit (hN : N ≤ 32) (hx : x ≠ 0) :
    let ord := (List.range 32).findIdx fun i => x.toNat.testBit i
    ord < N ∧ x.getLsbD ord = true := by
  have hne : x &&& x ≠ 0 := by rwa [BitVec.and_self]
  obtain ⟨j, hj, hbit, -⟩ := and_ne_zero_iff.mp hne
  have hlt : (List.range 32).findIdx (fun i => x.toNat.testBit i) < (List.range 32).length :=
    List.findIdx_lt_length_of_exists ⟨j, List.mem_range.mpr (by omega), hbit⟩
  have hget := List.findIdx_getElem (w := hlt)
  rw [List.getElem_range] at hget
  exact ⟨BitVec.lt_of_getLsbD hget, hget⟩

section LeafOpted

variable {bottom : Item N} {rest : List (Item N)}

/-- The bits of a query outside of the bottom item decide it. -/
theorem Least.of_tail (h : IsTopped (bottom :: rest)) {e : Item N}
    (he : Least rest (x &&& (BitVec.allOnes N ^^^ bottom.mask)) e)
    (hx : ¬ Covers bottom.mask (x &&& (BitVec.allOnes N ^^^ bottom.mask))) :
    Least (bottom :: rest) x e := by
  have hsub : ∀ m : BitVec N, Covers m x → Covers m (x &&& (BitVec.allOnes N ^^^ bottom.mask)) :=
    fun m hm => hm.trans (covers_and.mp (Covers.refl _)).1
  refine ⟨List.mem_cons_of_mem _ he.mem, covers_iff.mpr fun j hj hbit => ?_, fun l hl hlx => ?_⟩
  · cases hb : bottom.mask.getLsbD j with
    | true =>
      exact covers_iff.mp (h.covers_head e (List.mem_cons_of_mem _ he.mem)) j hj hb
    | false =>
      refine covers_iff.mp he.covers j hj ?_
      rw [BitVec.getLsbD_and, BitVec.getLsbD_xor, BitVec.getLsbD_allOnes, hbit, hb]
      simpa using hj
  · rcases List.mem_cons.mp hl with rfl | hl
    · exact absurd (hsub _ hlx) hx
    · exact he.least l hl (hsub _ hlx)

/-- The bottom item answers what it covers. -/
theorem Least.head (h : IsTopped (bottom :: rest)) (hx : Covers bottom.mask x) :
    Least (bottom :: rest) x bottom :=
  ⟨List.mem_cons_self, hx, fun l hl _ => h.covers_head l hl⟩

/-- The header of a leaf-optimised automaton. -/
def leafHeader (bottom : Item N) : List (BitVec 8) :=
  leBytes 4 (BitVec.allOnes N ^^^ bottom.mask).toNat ++ leBytes 2 bottom.value.toNat

/-- The fields of the header are read back. -/
theorem load_leafHeader (hN : N ≤ 32) {bytes : List (BitVec 8)}
    (h : At bytes 0 (leafHeader bottom)) :
    load 4 bytes 0 = some (BitVec.allOnes N ^^^ bottom.mask).toNat ∧
      load 2 bytes 4 = some bottom.value.toNat := by
  refine ⟨h.left.load (toNat_lt_word hN _), ?_⟩
  have := h.right.load bottom.value.isLt
  rwa [length_leBytes] at this

/-- The items a leaf-optimised automaton may start at. -/
def leafRoots (rest : List (Item N)) (bottom : Item N) : List ℕ :=
  (List.range N).filterMap (leafItem rest bottom)

theorem length_leafEntry {dfaNodes : List (NodeInfo N)} {itemToNodeOrdMap : List (Option ℕ)} {i : ℕ}
    {seg : List (BitVec 8)} (h : leafEntry rest bottom dfaNodes itemToNodeOrdMap i = .ok seg) :
    seg.length = 2 := by
  unfold leafEntry at h
  split at h
  · cases h
    simp
  · dsimp only at h
    split_ifs at h
    cases h
    simp

/-- The table has two bytes for each bit. -/
theorem length_leafTable {dfaNodes : List (NodeInfo N)} {itemToNodeOrdMap : List (Option ℕ)}
    {table : List (List (BitVec 8))}
    (ht : (List.range N).mapM (leafEntry rest bottom dfaNodes itemToNodeOrdMap) = .ok table) :
    (∀ s ∈ table, s.length = 2) ∧ table.flatten.length = 2 * N := by
  have htable := mapM_ok ht
  have hentry : ∀ s ∈ table, s.length = 2 := by
    intro s hs
    obtain ⟨i, -, hi⟩ := mem_of_forall₂ htable hs
    exact length_leafEntry hi
  refine ⟨hentry, ?_⟩
  rw [length_flatten_const hentry, ← htable.length_eq, List.length_range]

theorem length_leafHeader : (leafHeader bottom).length = 6 := by simp [leafHeader]

/-- The nodes are where the offsets say. -/
theorem encoded_leafOpted (bottom : Item N) {dfaNodes : List (NodeInfo N)}
    {itemToNodeOrdMap : List (Option ℕ)} {table : List (List (BitVec 8))} {nodes : List (BitVec 8)}
    (htlen : table.flatten.length = 2 * N)
    (hp : populateAll (6 + 2 * N) dfaNodes itemToNodeOrdMap = .ok nodes) :
    Encoded (6 + 2 * N) dfaNodes itemToNodeOrdMap
      (leafHeader bottom ++ table.flatten ++ nodes) := by
  intro n node hn
  obtain ⟨seg, hseg, hsat⟩ := (populateAll_spec hp).2 n node hn
  have hnodes := (At.self (leafHeader bottom ++ table.flatten ++ nodes)).right
  rw [List.length_append, length_leafHeader, htlen, Nat.zero_add] at hnodes
  exact ⟨seg, hseg, hnodes.trans hsat⟩

/-- The entry of a bit leads to the first node of its item. -/
theorem load_leafEntry {dfaNodes : List (NodeInfo N)} {itemToNodeOrdMap : List (Option ℕ)}
    {table : List (List (BitVec 8))} {nodes : List (BitVec 8)}
    (ht : (List.range N).mapM (leafEntry rest bottom dfaNodes itemToNodeOrdMap) = .ok table)
    {ord root n : ℕ} (hord : ord < N) (hleaf : leafItem rest bottom ord = some root)
    (hn : itemToNodeOrdMap[root]? = some (some n)) :
    load 2 (leafHeader bottom ++ table.flatten ++ nodes) (6 + ord * 2) =
      some (offsetForDfaNode (6 + 2 * N) dfaNodes n) := by
  have htable := mapM_ok ht
  have hlt : ord < table.length := by
    rw [← htable.length_eq, List.length_range]
    exact hord
  have hent := htable.get (i := ord) (by rwa [List.length_range]) hlt
  simp only [List.get_eq_getElem, List.getElem_range, leafEntry, hleaf] at hent
  rw [List.getD_eq_getElem?_getD, hn, Option.getD_some, Option.getD_some] at hent
  split_ifs at hent with hle
  have hsat := (At.self (leafHeader bottom ++ table.flatten ++ nodes)).left.right.flatten_const
    (length_leafTable ht).1 (List.getElem?_eq_getElem hlt)
  rw [← Except.ok.inj hent, length_leafHeader, Nat.zero_add, Nat.mul_comm] at hsat
  exact hsat.load (by omega)

/-- The item of a bit that the query has and the bottom item has not is above the answer. -/
theorem covers_leafRoot (h : IsTopped (bottom :: rest)) (hne : rest ≠ []) {ord : ℕ} (hord : ord < N)
    (hbit : x.getLsbD ord = true) (hbot : bottom.mask.getLsbD ord = false) :
    Covers (maskAt rest (findMinOverapprox rest x))
      (maskAt rest (findMinOverapprox rest (bottom.mask ||| BitVec.twoPow N ord))) := by
  have hfam := h.family_tail hne
  have hin := Family.getD_mem (hfam.findMin_lt x)
  have hP : ¬ Covers bottom.mask (bottom.mask ||| BitVec.twoPow N ord) := fun hcov => by
    have := (covers_twoPow hord).mp (covers_or.mp hcov).2
    rw [hbot] at this
    exact absurd this (by decide)
  refine hfam.findMin_least hP hin (covers_or.mpr ⟨?_, (covers_twoPow hord).mpr ?_⟩)
  · exact h.covers_head _ (List.mem_cons_of_mem _ hin)
  · exact covers_iff.mp (hfam.covers_findMin x) ord hord hbit

/-- **The leaf-optimised automaton** answers every query. -/
theorem runAutomataLeafOpted_of_encoded (hN : N ≤ 32) (h : IsTopped (bottom :: rest))
    (hne : rest ≠ []) {table : List (List (BitVec 8))} {nodes : List (BitVec 8)}
    (ht : (List.range N).mapM (leafEntry rest bottom
      (buildNodes rest (leafRoots rest bottom)).1.dfaNodes
      (buildNodes rest (leafRoots rest bottom)).2) = .ok table)
    (hp : populateAll (6 + 2 * N) (buildNodes rest (leafRoots rest bottom)).1.dfaNodes
      (buildNodes rest (leafRoots rest bottom)).2 = .ok nodes) {fuel : ℕ}
    (hf : (leafHeader bottom ++ table.flatten ++ nodes).length ≤ fuel) :
    ∃ e, runAutomataLeafOptedMayFail (leafHeader bottom ++ table.flatten ++ nodes) fuel x.toNat
      = some e.value.toNat ∧ Least (bottom :: rest) x e := by
  have hfam := h.family_tail hne
  have hself := At.self (leafHeader bottom ++ table.flatten ++ nodes)
  obtain ⟨hclear, hvalue⟩ := load_leafHeader hN hself.left.left
  have henc := encoded_leafOpted bottom (length_leafTable ht).2 hp
  obtain ⟨x', hx'⟩ : ∃ x', x' = x &&& (BitVec.allOnes N ^^^ bottom.mask) := ⟨_, rfl⟩
  have hmask : x.toNat &&& (BitVec.allOnes N ^^^ bottom.mask).toNat = x'.toNat := by
    rw [hx', BitVec.toNat_and]
  by_cases hzero : x' = 0
  · refine ⟨bottom, ?_, .head h (and_clear_eq_zero.mp (hx' ▸ hzero))⟩
    simp only [runAutomataLeafOptedMayFail, hclear, Option.bind_eq_bind, Option.bind_some, hmask]
    rw [if_pos (by rw [hzero]; rfl), hvalue]
  · obtain ⟨hord, hbit⟩ := findIdx_testBit hN hzero
    obtain ⟨ord, hordeq⟩ : ∃ ord, ord = (List.range 32).findIdx fun i => x'.toNat.testBit i :=
      ⟨_, rfl⟩
    rw [← hordeq] at hord hbit
    -- the bit is one that the bottom item does not have
    have hbot : bottom.mask.getLsbD ord = false := by
      rw [hx', BitVec.getLsbD_and, BitVec.getLsbD_xor, BitVec.getLsbD_allOnes] at hbit
      rw [decide_eq_true hord, Bool.true_xor, Bool.and_eq_true] at hbit
      simpa using hbit.2
    have hnot : ¬ Covers bottom.mask x' := fun hcov => by
      have := covers_iff.mp hcov ord hord hbit
      rw [hbot] at this
      exact absurd this (by decide)
    have hleaf : leafItem rest bottom ord =
        some (findMinOverapprox rest (bottom.mask ||| BitVec.twoPow N ord)) := by
      rw [leafItem, if_neg (by simp [hbot])]
    obtain ⟨n, hn, hrun⟩ := runNode_root hfam hN hnot henc
      (List.mem_filterMap.mpr ⟨ord, List.mem_range.mpr hord, hleaf⟩) (hfam.findMin_lt _)
      (covers_leafRoot h hne hord hbit hbot)
    refine ⟨_, ?_, .of_tail h (hx' ▸ hfam.least_findMin hnot) (hx' ▸ hnot)⟩
    simp only [runAutomataLeafOptedMayFail, hclear, Option.bind_eq_bind, Option.bind_some, hmask]
    have hzero' : x'.toNat ≠ 0 := fun h0 => hzero (BitVec.eq_of_toNat_eq h0)
    rw [if_neg hzero', ← hordeq, load_leafEntry ht hord hleaf hn, Option.bind_some,
      hrun fuel ?_, hx']
    refine (length_le_nodeBytes _).trans ?_
    rw [List.length_append, (populateAll_spec hp).1] at hf
    exact le_trans (Nat.le_add_left _ _) hf

end LeafOpted

/-! ## The generator -/

/-- A generator answers every query, or its automaton has offsets above the 16-bit limit. -/
def Answers (items : List (Item N)) (generated : Except GenerateError (List (BitVec 8))) (size : ℕ)
    (run : List (BitVec 8) → ℕ → ℕ → Option ℕ) : Prop :=
  (generated = .error .dfaTooLarge ∧ 65534 < size) ∨
    ∃ bytes, generated = .ok bytes ∧ ∀ x : BitVec N, ∀ fuel, bytes.length ≤ fuel →
      ∃ v, run bytes fuel x.toNat = some v ∧ IsAnswer items x v ∧
        ((∀ a ∈ items, a.value ≠ 65535) → (v = 65535 ↔ ∀ a ∈ items, ¬ Covers a.mask x))

/-- The size of the plain automaton. -/
def automataSize (r : List (Item N)) : ℕ := nodeBytes (buildNodes (withTop r) [0]).1.dfaNodes

/-- The size of the leaf-optimised automaton. -/
def automataLeafOptedSize (r : List (Item N)) : ℕ :=
  6 + 2 * N + nodeBytes (buildNodes (withTop r).tail
    (leafRoots (withTop r).tail ((withTop r).headD default))).1.dfaNodes

/-- `-1` is the answer exactly if no item covers the query, unless an item has that value. -/
theorem IsAnswer.eq_neg_one_iff {v : ℕ} (h : IsAnswer items x v)
    (hv : ∀ a ∈ items, a.value ≠ 65535) : v = 65535 ↔ ∀ a ∈ items, ¬ Covers a.mask x := by
  constructor
  · rintro rfl
    rcases h with ⟨a, ha, hval⟩ | ⟨hno, -⟩
    · exact absurd (BitVec.eq_of_toNat_eq hval) (hv a ha.mem)
    · exact hno
  · intro hno
    rcases h with ⟨a, ha, -⟩ | ⟨-, hval⟩
    · exact absurd ha.covers (hno a ha.mem)
    · exact hval

/-- The plain encoding answers every query. -/
theorem generateAutomata_answers (hN : N ≤ 32) (hr : makeClosure items = .ok r)
    (h : IsClosure items r) :
    Answers items (generateAutomata items) (automataSize r) runAutomataMayFail := by
  have hgen : generateAutomata items = populateAll 0 (buildNodes (withTop r) [0]).1.dfaNodes
      (buildNodes (withTop r) [0]).2 := by
    rw [generateAutomata, hr]
    rfl
  cases hp : populateAll 0 (buildNodes (withTop r) [0]).1.dfaNodes
    (buildNodes (withTop r) [0]).2 with
  | error e =>
    obtain ⟨rfl, hsize⟩ := populateAll_error hp
    exact .inl ⟨hgen.trans hp, hsize⟩
  | ok bytes =>
    refine .inr ⟨bytes, hgen.trans hp, fun x fuel hf => ?_⟩
    obtain ⟨v, hv, hans⟩ := runAutomata_of_populateAll (x := x) hN h hp hf
    exact ⟨v, hv, hans, hans.eq_neg_one_iff⟩

/-- The table could not be encoded either. -/
theorem leafEntry_error {bottom : Item N} {rest : List (Item N)} {dfaNodes : List (NodeInfo N)}
    {itemToNodeOrdMap : List (Option ℕ)} {i : ℕ} {e : GenerateError}
    (h : leafEntry rest bottom dfaNodes itemToNodeOrdMap i = .error e) :
    e = .dfaTooLarge ∧ 65534 < 6 + 2 * N + nodeBytes dfaNodes := by
  unfold leafEntry at h
  split at h
  · cases h
  · dsimp only at h
    split_ifs at h with hle
    refine ⟨(Except.error.inj h).symm, ?_⟩
    have := sum_take_le dfaNodes ((itemToNodeOrdMap.getD ‹ℕ› none).getD 0)
    unfold offsetForDfaNode at hle
    unfold nodeBytes
    omega

/-- So does the leaf-optimised one. -/
theorem generateAutomataLeafOpted_answers (hN : N ≤ 32) (hr : makeClosure items = .ok r)
    (h : IsClosure items r) : Answers items (generateAutomataLeafOpted items)
      (automataLeafOptedSize r) runAutomataLeafOptedMayFail := by
  have htop := h.isTopped
  have hpos : 0 < (withTop r).length := by
    obtain ⟨e, he, -⟩ := htop.top
    exact List.length_pos_of_mem he
  obtain ⟨bottom, rest, hL⟩ := List.exists_cons_of_length_pos hpos
  have hans : ∀ {x : BitVec N} {e : Item N}, Least (bottom :: rest) x e →
      IsAnswer items x e.value.toNat := fun hl => h.isAnswer (by rwa [hL])
  rw [hL] at htop
  unfold automataLeafOptedSize
  rw [hL, List.tail_cons, List.headD_cons]
  obtain ⟨g, hg⟩ : ∃ g, g = buildNodes rest (leafRoots rest bottom) := ⟨_, rfl⟩
  have hgen : generateAutomataLeafOpted items = if rest = [] then .ok (leafHeader bottom) else
      (List.range N).mapM (leafEntry rest bottom g.1.dfaNodes g.2) >>= fun table =>
        populateAll (6 + 2 * N) g.1.dfaNodes g.2 >>= fun nodes =>
          .ok (leafHeader bottom ++ table.flatten ++ nodes) := by
    rw [generateAutomataLeafOpted, hr, hg]
    simp only [Bind.bind, Except.bind, hL, List.headD_cons, List.tail_cons]
    rfl
  by_cases hne : rest = []
  · rw [if_pos hne] at hgen
    refine .inr ⟨_, hgen, fun x fuel hf => ?_⟩
    obtain ⟨hclear, hvalue⟩ := load_leafHeader hN (At.self (leafHeader bottom))
    have hcov : Covers bottom.mask x := by
      obtain ⟨e, he, hfull⟩ := htop.top
      rw [hne] at he
      rw [← List.mem_singleton.mp he, hfull]
      exact covers_allOnes x
    have hx := hans (.head htop hcov)
    refine ⟨_, ?_, hx, hx.eq_neg_one_iff⟩
    simp only [runAutomataLeafOptedMayFail, hclear, Option.bind_eq_bind, Option.bind_some]
    rw [if_pos (and_toNat_eq_zero.mpr (and_clear_eq_zero.mpr hcov)), hvalue]
  · rw [if_neg hne] at hgen
    rw [← hg]
    cases ht : (List.range N).mapM (leafEntry rest bottom g.1.dfaNodes g.2) with
    | error e =>
      obtain ⟨i, -, hi⟩ := mapM_error ht
      obtain ⟨rfl, hsize⟩ := leafEntry_error hi
      refine .inl ⟨?_, hsize⟩
      rw [hgen, ht]
      rfl
    | ok table =>
      cases hp : populateAll (6 + 2 * N) g.1.dfaNodes g.2 with
      | error e =>
        obtain ⟨rfl, hsize⟩ := populateAll_error hp
        refine .inl ⟨?_, by unfold nodeBytes; omega⟩
        rw [hgen, ht, hp]
        rfl
      | ok nodes =>
        refine .inr ⟨leafHeader bottom ++ table.flatten ++ nodes, ?_, fun x fuel hf => ?_⟩
        · rw [hgen, ht, hp]
          rfl
        · rw [hg] at ht hp
          obtain ⟨e, hrun, hleast⟩ := runAutomataLeafOpted_of_encoded (x := x) hN htop hne ht hp hf
          exact ⟨_, hrun, hans hleast, (hans hleast).eq_neg_one_iff⟩

/-- **The automata are correct.**  For items with distinct masks whose closure is within the limit,
both encodings end on every query, inside the emitted bytes, with the value of a minimal item that
covers the query, or with `-1` if there is none. -/
theorem automata_answer (hN : N ≤ 32) (items : List (Item N)) (hd : (items.map Item.mask).Nodup)
    (hlim : {m | InClosure items m}.ncard ≤ 500) : ∃ r, makeClosure items = .ok r ∧
      Answers items (generateAutomata items) (automataSize r) runAutomataMayFail ∧
      Answers items (generateAutomataLeafOpted items) (automataLeafOptedSize r)
        runAutomataLeafOptedMayFail := by
  rcases makeClosure_spec hd with ⟨r, hr, hcl⟩ | ⟨-, hbig⟩
  · exact ⟨r, hr, generateAutomata_answers hN hr hcl, generateAutomataLeafOpted_answers hN hr hcl⟩
  · exact absurd hlim (by omega)

/-- Masks over three bits: two singletons, a pair, and no cover of the highest bit. -/
def threeItems : List (Item 3) := [⟨0b001, 1⟩, ⟨0b010, 2⟩, ⟨0b011, 7⟩]

theorem automata_answer_threeItems : ∃ r, makeClosure threeItems = .ok r ∧
    Answers threeItems (generateAutomata threeItems) (automataSize r) runAutomataMayFail ∧
    Answers threeItems (generateAutomataLeafOpted threeItems) (automataLeafOptedSize r)
      runAutomataLeafOptedMayFail := by
  refine automata_answer (by decide) threeItems (by decide) ?_
  have : Finite (BitVec 3) := .of_injective BitVec.toFin fun _ _ => BitVec.eq_of_toFin_eq
  have hcard : Nat.card (BitVec 3) ≤ Nat.card (Fin (2 ^ 3)) :=
    Nat.card_le_card_of_injective BitVec.toFin fun _ _ => BitVec.eq_of_toFin_eq
  rw [Nat.card_fin] at hcard
  exact (Set.ncard_le_card _).trans (hcard.trans (by decide))

end Typemask

end Dsom
