import Dsom.Typemask.Automata

/-!
# Typemask/MinCost — the cheapest mask that covers a query

`MinCostTypemaskOverapproxAutomataGenerator::GetAutomata`: each candidate mask has a cost, and a
query is answered with a cheapest candidate that covers it.  The generator drops candidates that
another one makes useless, closes the masks of the rest under intersection and gives each closed
mask the cheapest candidate above it.  The least closed mask that covers a query lies below the
same candidates as the query, so its candidate is a cheapest one for the query too
(`minCost_answer`).
-/

namespace Dsom

namespace Typemask

open BitMask

/-- `CandidateInfo`. -/
structure CandidateInfo (N : ℕ) where
  identValue : BitVec 16
  mask : BitVec N
  cost : ℕ
  deriving DecidableEq

variable {N : ℕ}

/-- Another candidate is at least as capable and cheaper, or more capable and no dearer. -/
def Dominates (other c : CandidateInfo N) : Prop :=
  (Covers other.mask c.mask ∧ other.cost < c.cost) ∨
    (Covers other.mask c.mask ∧ c.mask ≠ other.mask ∧ other.cost ≤ c.cost)

instance (other c : CandidateInfo N) : Decidable (Dominates other c) :=
  inferInstanceAs (Decidable (_ ∨ _))

/-- The candidates that are not pruned. -/
def prune (candidates : List (CandidateInfo N)) : List (CandidateInfo N) :=
  candidates.filter fun c => ¬ ∃ other ∈ candidates, Dominates other c

/-- One round of the search for the best candidate of a node. -/
def pickCheaper (m : BitVec N) (best : Option (CandidateInfo N)) (c : CandidateInfo N) :
    Option (CandidateInfo N) :=
  if Covers c.mask m then
    match best with
    | none => some c
    | some b => if c.cost < b.cost then some c else some b
  else best

/-- The best candidate of a node. -/
def bestCandidate (candidates : List (CandidateInfo N)) (m : BitVec N) : Option (CandidateInfo N) :=
  candidates.foldl (pickCheaper m) none

/-- `GetAutomata`: the items of the generator it returns, or none if an assertion or a limit stops
it. -/
def getAutomata (items : List (CandidateInfo N)) : Option (List (Item N)) :=
  if ∀ c ∈ items, c.identValue.toNat ≤ 32767 then
    let candidates := prune items
    match makeClosure ((candidates.map CandidateInfo.mask).dedup.map fun m => ⟨m, 0⟩) with
    | .error _ => none
    | .ok citems => citems.mapM fun item =>
      (bestCandidate candidates item.mask).map fun c => ⟨item.mask, c.identValue⟩
  else none

/-! ## What a query is answered with -/

/-- **A cheapest candidate that covers the query.** -/
structure IsCheapest (candidates : List (CandidateInfo N)) (x : BitVec N) (c : CandidateInfo N) :
    Prop where
  mem : c ∈ candidates
  covers : Covers c.mask x
  cheapest : ∀ other ∈ candidates, Covers other.mask x → c.cost ≤ other.cost

/-- The automaton answers every query with the identifier of a cheapest candidate, and with `-1`
just when there is none; or its offsets are above the 16-bit limit. -/
def AnswersCheapest (candidates : List (CandidateInfo N))
    (generated : Except GenerateError (List (BitVec 8))) (size : ℕ)
    (run : List (BitVec 8) → ℕ → ℕ → Option ℕ) : Prop :=
  (generated = .error .dfaTooLarge ∧ 65534 < size) ∨
    ∃ bytes, generated = .ok bytes ∧ ∀ x : BitVec N, ∀ fuel, bytes.length ≤ fuel →
      ∃ v, run bytes fuel x.toNat = some v ∧
        ((∃ c, IsCheapest candidates x c ∧ c.identValue.toNat = v) ∨
          (∀ c ∈ candidates, ¬ Covers c.mask x) ∧ v = 65535) ∧
        (v = 65535 ↔ ∀ c ∈ candidates, ¬ Covers c.mask x)

/-! ## Pruning

A candidate that another one dominates is dropped. -/

variable {items : List (CandidateInfo N)} {x m : BitVec N}

/-- **A pruned candidate is not missed**: one that is kept is as capable and no dearer.  Each step
to a dominating candidate lowers the cost or adds to the mask. -/
theorem exists_mem_prune (c : CandidateInfo N) (hc : c ∈ items) :
    ∃ c' ∈ prune items, Covers c'.mask c.mask ∧ c'.cost ≤ c.cost := by
  by_cases h : ∃ other ∈ items, Dominates other c
  · obtain ⟨other, hother, hdom⟩ := h
    obtain ⟨c', hc', hcov, hcost⟩ := exists_mem_prune other hother
    refine ⟨c', hc', ?_⟩
    rcases hdom with ⟨hcov', hlt⟩ | ⟨hcov', -, hle⟩
    · exact ⟨hcov.trans hcov', hcost.trans hlt.le⟩
    · exact ⟨hcov.trans hcov', hcost.trans hle⟩
  · exact ⟨c, List.mem_filter.mpr ⟨hc, decide_eq_true h⟩, Covers.refl _, le_rfl⟩
termination_by (c.cost, 2 ^ N - c.mask.toNat)
decreasing_by
  rcases hdom with ⟨-, hlt⟩ | ⟨hcov, hne, hle⟩
  · exact Prod.Lex.left _ _ hlt
  · rcases hle.lt_or_eq with hlt | heq
    · exact Prod.Lex.left _ _ hlt
    · rw [heq]
      refine Prod.Lex.right _ ?_
      have hlt : c.mask.toNat < other.mask.toNat :=
        lt_of_le_of_ne hcov.toNat_le fun h => hne (BitVec.eq_of_toNat_eq h)
      have := other.mask.isLt
      omega

theorem mem_of_mem_prune {c : CandidateInfo N} (h : c ∈ prune items) : c ∈ items :=
  List.mem_of_mem_filter h

/-! ## The best candidate of a node

The cheapest one that covers the mask. -/

/-- The candidate found among those seen so far. -/
def BestSoFar (seen : List (CandidateInfo N)) (m : BitVec N) : Option (CandidateInfo N) → Prop
  | none => ∀ c ∈ seen, ¬ Covers c.mask m
  | some b => IsCheapest seen m b

theorem BestSoFar.pickCheaper {seen : List (CandidateInfo N)} {best : Option (CandidateInfo N)}
    (h : BestSoFar seen m best) (c : CandidateInfo N) :
    BestSoFar (seen ++ [c]) m (pickCheaper m best c) := by
  unfold Typemask.pickCheaper
  by_cases hcov : Covers c.mask m
  · rw [if_pos hcov]
    cases best with
    | none =>
      refine ⟨by simp, hcov, fun other hother hcov' => ?_⟩
      rcases List.mem_append.mp hother with hseen | hlast
      · exact absurd hcov' (h other hseen)
      · rw [List.mem_singleton.mp hlast]
    | some b =>
      by_cases hlt : c.cost < b.cost
      · simp only [if_pos hlt]
        refine ⟨by simp, hcov, fun other hother hcov' => ?_⟩
        rcases List.mem_append.mp hother with hseen | hlast
        · exact hlt.le.trans (h.cheapest other hseen hcov')
        · rw [List.mem_singleton.mp hlast]
      · simp only [if_neg hlt]
        refine ⟨List.mem_append_left _ h.mem, h.covers, fun other hother hcov' => ?_⟩
        rcases List.mem_append.mp hother with hseen | hlast
        · exact h.cheapest other hseen hcov'
        · rw [List.mem_singleton.mp hlast]
          exact Nat.le_of_not_lt hlt
  · rw [if_neg hcov]
    cases best with
    | none =>
      intro other hother
      rcases List.mem_append.mp hother with hseen | hlast
      · exact h other hseen
      · rwa [List.mem_singleton.mp hlast]
    | some b =>
      refine ⟨List.mem_append_left _ h.mem, h.covers, fun other hother hcov' => ?_⟩
      rcases List.mem_append.mp hother with hseen | hlast
      · exact h.cheapest other hseen hcov'
      · rw [List.mem_singleton.mp hlast] at hcov'
        exact absurd hcov' hcov

/-- By induction on the candidates not yet seen. -/
theorem bestSoFar_foldl : ∀ (cs : List (CandidateInfo N)) {seen : List (CandidateInfo N)}
    {best : Option (CandidateInfo N)}, BestSoFar seen m best →
    BestSoFar (seen ++ cs) m (cs.foldl (pickCheaper m) best)
  | [], seen, best, h => by rwa [List.append_nil]
  | c :: cs, seen, best, h => by
    rw [List.foldl_cons, List.append_cons]
    exact bestSoFar_foldl cs (h.pickCheaper c)

/-- The best of them all. -/
theorem bestCandidate_spec (cs : List (CandidateInfo N)) (m : BitVec N) :
    BestSoFar cs m (bestCandidate cs m) := by
  have h : BestSoFar ([] : List (CandidateInfo N)) m none := fun c hc => absurd hc List.not_mem_nil
  exact bestSoFar_foldl cs h

/-! ## The generator -/

/-- **What `GetAutomata` hands to the generator**: one item for each mask of the closure, with the
cheapest candidate above it. -/
structure IsMinCostItems (items : List (CandidateInfo N)) (gen : List (Item N)) : Prop where
  nodup : (gen.map Item.mask).Nodup
  closed : ∀ a ∈ gen, ∀ b ∈ gen, a.mask &&& b.mask ∈ gen.map Item.mask
  length : gen.length ≤ 500
  best : ∀ a ∈ gen, ∃ c, IsCheapest (prune items) a.mask c ∧ c.identValue = a.value
  masks : ∀ c ∈ prune items, c.mask ∈ gen.map Item.mask
  ident : ∀ c ∈ items, c.identValue.toNat ≤ 32767

theorem forall₂_of_mapM {α β : Type} {f : α → Option β} : ∀ {l : List α} {r : List β},
    l.mapM f = some r → List.Forall₂ (fun a b => f a = some b) l r
  | [], r, h => by
    rw [List.mapM_nil] at h
    obtain rfl := Option.some.inj h
    exact .nil
  | a :: l, r, h => by
    rw [List.mapM_cons] at h
    obtain ⟨b, hb, h⟩ := Option.bind_eq_some_iff.mp h
    obtain ⟨bs, hbs, h⟩ := Option.bind_eq_some_iff.mp h
    obtain rfl := Option.some.inj h
    exact .cons hb (forall₂_of_mapM hbs)

/-- The items of a closure keep their masks when each gets the best candidate. -/
theorem masks_of_forall₂ {cs : List (CandidateInfo N)} {citems gen : List (Item N)}
    (h : List.Forall₂ (fun item item' => (bestCandidate cs item.mask).map
      (fun c => (⟨item.mask, c.identValue⟩ : Item N)) = some item') citems gen) :
    gen.map Item.mask = citems.map Item.mask ∧
      ∀ a ∈ gen, ∃ c, IsCheapest cs a.mask c ∧ c.identValue = a.value := by
  induction h with
  | nil => exact ⟨rfl, fun a ha => absurd ha List.not_mem_nil⟩
  | @cons item _ _ _ hab _ ih =>
    obtain ⟨c, hc, rfl⟩ := Option.map_eq_some_iff.mp hab
    refine ⟨by rw [List.map_cons, List.map_cons, ih.1], fun a ha => ?_⟩
    rcases List.mem_cons.mp ha with rfl | ha
    · have hbest := bestCandidate_spec cs item.mask
      rw [hc] at hbest
      exact ⟨c, hbest, rfl⟩
    · exact ih.2 a ha

/-- What the generator is given. -/
theorem getAutomata_spec {gen : List (Item N)} (h : getAutomata items = some gen) :
    IsMinCostItems items gen := by
  unfold getAutomata at h
  split_ifs at h with hident
  dsimp only at h
  split at h
  · cases h
  next citems hcl =>
  have hd : (((prune items).map CandidateInfo.mask).dedup.map fun m => (⟨m, 0⟩ : Item N)).map
      Item.mask = ((prune items).map CandidateInfo.mask).dedup := by
    rw [List.map_map]
    exact List.map_id _
  have hclosure : IsClosure (((prune items).map CandidateInfo.mask).dedup.map fun m => ⟨m, 0⟩)
      citems := by
    rcases makeClosure_spec (by rw [hd]; exact List.nodup_dedup _) with ⟨r, hr, hspec⟩ | ⟨herr, -⟩
    · rw [hcl] at hr
      cases hr
      exact hspec
    · rw [hcl] at herr
      cases herr
  obtain ⟨hmasks, hbest⟩ := masks_of_forall₂ (forall₂_of_mapM h)
  have hlen : gen.length = citems.length := by simpa using congrArg List.length hmasks
  refine ⟨?_, fun a ha b hb => ?_, ?_, hbest, fun c hc => ?_, hident⟩
  · rw [hmasks]
    exact nodup_of_pairwise hclosure.sorted
  · have ha' := hmasks ▸ List.mem_map_of_mem (f := Item.mask) ha
    have hb' := hmasks ▸ List.mem_map_of_mem (f := Item.mask) hb
    obtain ⟨a', ha', hae⟩ := List.mem_map.mp ha'
    obtain ⟨b', hb', hbe⟩ := List.mem_map.mp hb'
    rw [hmasks, ← hae, ← hbe]
    exact hclosure.closed a' ha' b' hb'
  · rw [hlen]
    exact length_of_makeClosure hcl
  · rw [hmasks]
    have hmem : (⟨c.mask, 0⟩ : Item N) ∈
        ((prune items).map CandidateInfo.mask).dedup.map fun m => (⟨m, 0⟩ : Item N) :=
      List.mem_map_of_mem (List.mem_dedup.mpr (List.mem_map_of_mem hc))
    exact List.mem_map_of_mem (f := Item.mask) (hclosure.items_mem _ hmem)

section Answer

variable {gen : List (Item N)} (h : IsMinCostItems items gen)
include h

/-- The items are closed already. -/
theorem IsMinCostItems.mem_of_inClosure (hm : InClosure gen m) : m ∈ gen.map Item.mask := by
  induction hm with
  | item ha => exact List.mem_map_of_mem ha
  | and _ _ iha ihb =>
    obtain ⟨a, ha, rfl⟩ := List.mem_map.mp iha
    obtain ⟨b, hb, rfl⟩ := List.mem_map.mp ihb
    exact h.closed a ha b hb

/-- So the generator's own closure is within the limit. -/
theorem IsMinCostItems.makeClosure_ok : ∃ r, makeClosure gen = .ok r ∧ IsClosure gen r := by
  rcases makeClosure_spec h.nodup with hok | ⟨-, hbig⟩
  · exact hok
  · have hsub : {m | InClosure gen m} ⊆ (↑(gen.map Item.mask).toFinset : Set (BitVec N)) :=
      fun m hm => by simpa using h.mem_of_inClosure hm
    have hle := Set.ncard_le_ncard hsub (Finset.finite_toSet _)
    rw [Set.ncard_coe_finset, List.toFinset_card_of_nodup h.nodup, List.length_map] at hle
    have := h.length
    omega

/-- **The best item's candidate is a cheapest one for the query.** -/
theorem IsMinCostItems.isCheapest {a : Item N} (ha : IsBest gen x a) :
    ∃ c, IsCheapest items x c ∧ c.identValue = a.value := by
  obtain ⟨c, hc, hv⟩ := h.best a ha.mem
  refine ⟨c, ⟨mem_of_mem_prune hc.mem, hc.covers.trans ha.covers, fun other hother hcov => ?_⟩, hv⟩
  obtain ⟨c', hc', hcov', hcost⟩ := exists_mem_prune other hother
  -- the kept candidate covers the query, so it covers the best item too
  obtain ⟨b, hb, hbm⟩ := List.mem_map.mp (h.masks c' hc')
  obtain ⟨l, hl, hlm⟩ := List.mem_map.mp (h.closed a ha.mem b hb)
  have hlx : Covers l.mask x := by
    rw [hlm, covers_and, hbm]
    exact ⟨ha.covers, hcov'.trans hcov⟩
  have hla : l.mask = a.mask := by
    refine ha.minimal l hl hlx ?_
    rw [hlm]
    exact (covers_and.mp (Covers.refl _)).1
  have hca : Covers c'.mask a.mask := by
    rw [← hla, hlm, hbm]
    exact (covers_and.mp (Covers.refl _)).2
  exact (hc.cheapest c' hc' hca).trans hcost

/-- If the automaton answers, it answers with the cheapest. -/
theorem IsMinCostItems.answersCheapest
    {generated : Except GenerateError (List (BitVec 8))} {size : ℕ}
    {run : List (BitVec 8) → ℕ → ℕ → Option ℕ} (hans : Answers gen generated size run) :
    AnswersCheapest items generated size run := by
  rcases hans with herr | ⟨bytes, hbytes, hrun⟩
  · exact .inl herr
  · refine .inr ⟨bytes, hbytes, fun x fuel hf => ?_⟩
    obtain ⟨v, hv, hans, -⟩ := hrun x fuel hf
    refine ⟨v, hv, ?_⟩
    rcases hans with ⟨a, ha, hval⟩ | ⟨hno, hval⟩
    · obtain ⟨c, hc, hca⟩ := h.isCheapest ha
      rw [← hca] at hval
      refine ⟨.inl ⟨c, hc, hval⟩, fun hneg => ?_, fun hno => absurd hc.covers (hno c hc.mem)⟩
      have := h.ident c hc.mem
      omega
    · have hnone : ∀ c ∈ items, ¬ Covers c.mask x := by
        intro c hc hcov
        obtain ⟨c', hc', hcov', -⟩ := exists_mem_prune c hc
        obtain ⟨b, hb, hbm⟩ := List.mem_map.mp (h.masks c' hc')
        exact hno b hb (hbm ▸ hcov'.trans hcov)
      exact ⟨.inr ⟨hnone, hval⟩, fun _ => hnone, fun _ => hval⟩

end Answer

/-- **The automata find a cheapest candidate.**  For every list of candidates that is accepted, both
encodings answer every query with the identifier of a candidate that covers it at minimal cost, or
with `-1` just when no candidate covers it. -/
theorem minCost_answer (hN : N ≤ 32) (items : List (CandidateInfo N)) {gen : List (Item N)}
    (h : getAutomata items = some gen) : ∃ r, makeClosure gen = .ok r ∧
      AnswersCheapest items (generateAutomata gen) (automataSize r) runAutomataMayFail ∧
      AnswersCheapest items (generateAutomataLeafOpted gen) (automataLeafOptedSize r)
        runAutomataLeafOptedMayFail := by
  have hspec := getAutomata_spec h
  obtain ⟨r, hr, hcl⟩ := hspec.makeClosure_ok
  exact ⟨r, hr, hspec.answersCheapest (generateAutomata_answers hN hr hcl),
    hspec.answersCheapest (generateAutomataLeafOpted_answers hN hr hcl)⟩

/-- Two overlapping masks of different cost, and a third one that is pruned. -/
def overlapping : List (CandidateInfo 3) := [⟨1, 0b011, 5⟩, ⟨2, 0b110, 3⟩, ⟨3, 0b010, 4⟩]

/-- The items made of them: the intersection gets the cheaper of the two. -/
def overlappingItems : List (Item 3) := [⟨0b010, 2⟩, ⟨0b011, 1⟩, ⟨0b110, 2⟩]

theorem minCost_answer_overlapping : getAutomata overlapping = some overlappingItems ∧
    ∃ r, makeClosure overlappingItems = .ok r ∧
      AnswersCheapest overlapping (generateAutomata overlappingItems) (automataSize r)
        runAutomataMayFail ∧
      AnswersCheapest overlapping (generateAutomataLeafOpted overlappingItems)
        (automataLeafOptedSize r) runAutomataLeafOptedMayFail := by
  have h : getAutomata overlapping = some overlappingItems := by decide +kernel
  exact ⟨h, minCost_answer (by decide) overlapping h⟩

end Typemask

end Dsom
