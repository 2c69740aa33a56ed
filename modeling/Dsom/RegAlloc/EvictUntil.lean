import Dsom.RegAlloc.PassthruInfo

/-!
# RegAlloc/EvictUntil — making room

`EvictUntil` never fails, and of the values in registers it keeps those that are used soonest.
-/

namespace Dsom

open RegAlloc ValueNextUseInfo RegAllocPassthruAndScratchRegInfo

namespace RegAllocDecisionMaker

variable {bank : RegBank} {s s' s'' : RegAllocDecisionMaker bank} {r v : ℕ}

/-! ## The places of the registers in use

Where the words are ordered, these are the first places. -/

theorem eq_range_of_lower {t : Finset ℕ} (h : ∀ i ∈ t, ∀ j < i, j ∈ t) :
    t = Finset.range t.card := by
  refine Finset.eq_of_subset_of_card_le (fun i hi => ?_) (Finset.card_range _).le
  have hsub : Finset.range (i + 1) ⊆ t := fun j hj => by
    rcases Nat.lt_succ_iff_lt_or_eq.mp (Finset.mem_range.mp hj) with hlt | rfl
    · exact h i hi j hlt
    · exact hi
  have hcard := Finset.card_le_card hsub
  rw [Finset.card_range] at hcard
  exact Finset.mem_range.mpr hcard

namespace Consistent

/-- A register is free or in use. -/
theorem mem_scratch_iff (h : s.Consistent) (hreserved : s.reservedRegMask = ∅)
    (hr : r < bank.numRegs) : r ∈ s.scratchRegMask ↔ s.regValues r = none := by
  rw [h.free_iff r hr, hreserved]
  simp only [Finset.notMem_empty, or_false]

/-- A register in use comes before a free one. -/
theorem isSome_of_lt (h : s.Consistent) (hord : s.Ordered) {r' : ℕ} (hr : r < bank.numRegs)
    (hr' : r' < bank.numRegs) (hlt : s.regIdxToDataIdx r < s.regIdxToDataIdx r')
    (hused : (s.regValues r').isSome) : (s.regValues r).isSome := by
  by_contra hfree
  have hdata := hord r hr r' hr' hlt hused
  obtain ⟨v', hv'⟩ := Option.isSome_iff_exists.mp hused
  have hle := bank.numRegs_le
  obtain ⟨k, hk, hvalue⟩ := (s.nextUse v').exists_value_eq
  rw [h.word_free r hr (Option.not_isSome_iff_eq_none.mp hfree), h.word_used r' hr' v' hv',
    scratchWord_eq (by omega), value_noMoreUse, hvalue] at hdata
  omega

end Consistent

/-- Where the registers in use are in `m_data`. -/
def usedPlaces (s : RegAllocDecisionMaker bank) : Finset ℕ :=
  (bank.fullMask \ s.scratchRegMask).image s.regIdxToDataIdx

namespace Consistent

theorem mem_used (h : s.Consistent) (hreserved : s.reservedRegMask = ∅) :
    r ∈ bank.fullMask \ s.scratchRegMask ↔ r < bank.numRegs ∧ (s.regValues r).isSome := by
  rw [Finset.mem_sdiff, RegBank.mem_fullMask]
  refine and_congr_right fun hr => ?_
  rw [h.mem_scratch_iff hreserved hr, ← Option.not_isSome_iff_eq_none, not_not]

theorem mem_usedPlaces (h : s.Consistent) (hreserved : s.reservedRegMask = ∅)
    (hr : r < bank.numRegs) : s.regIdxToDataIdx r ∈ s.usedPlaces ↔ (s.regValues r).isSome := by
  constructor
  · intro hplace
    obtain ⟨r', hr', heq⟩ := Finset.mem_image.mp hplace
    obtain ⟨hlt, hused⟩ := (h.mem_used hreserved).mp hr'
    rwa [h.dataIdx_inj hlt hr heq] at hused
  · exact fun hused => Finset.mem_image_of_mem _ ((h.mem_used hreserved).mpr ⟨hr, hused⟩)

/-- As many places as registers in use. -/
theorem card_usedPlaces (h : s.Consistent) (hreserved : s.reservedRegMask = ∅) :
    s.usedPlaces.card = bank.numRegs - s.numScratchRegs := by
  rw [usedPlaces, Finset.card_image_of_injOn fun r hr r' hr' heq =>
      h.dataIdx_inj ((h.mem_used hreserved).mp hr).1 ((h.mem_used hreserved).mp hr').1 heq,
    Finset.card_sdiff_of_subset h.scratch_subset, ← h.numScratch, RegBank.fullMask,
    Finset.card_range]

/-- **In order, the registers in use come first.** -/
theorem isSome_iff (h : s.Consistent) (hord : s.Ordered) (hreserved : s.reservedRegMask = ∅)
    (hr : r < bank.numRegs) :
    (s.regValues r).isSome ↔ s.regIdxToDataIdx r < bank.numRegs - s.numScratchRegs := by
  have hlower : ∀ i ∈ s.usedPlaces, ∀ j < i, j ∈ s.usedPlaces := by
    intro i hi j hj
    obtain ⟨r', hr', rfl⟩ := Finset.mem_image.mp hi
    obtain ⟨hlt, hused⟩ := (h.mem_used hreserved).mp hr'
    obtain ⟨r'', hr'', rfl⟩ := h.dataIdx_surj j (hj.trans (h.dataIdx_lt r' hlt))
    exact (h.mem_usedPlaces hreserved hr'').mpr (h.isSome_of_lt hord hr'' hlt hj hused)
  rw [← h.mem_usedPlaces hreserved hr, eq_range_of_lower hlower, h.card_usedPlaces hreserved,
    Finset.mem_range]

end Consistent

/-- `IsValAvailableInReg`. -/
def IsValAvailableInReg (s : RegAllocDecisionMaker bank) (v : ℕ) : Prop := (s.cbs.valReg v).isSome

/-- A value is available if some register holds it. -/
theorem Consistent.isValAvailableInReg_iff (h : s.Consistent) (hout : s.outputRegMask = ∅) :
    s.IsValAvailableInReg v ↔ ∃ r < bank.numRegs, s.regValues r = some v := by
  constructor
  · intro hv
    obtain ⟨r, hr⟩ := Option.isSome_iff_exists.mp hv
    obtain ⟨hlt, hvalue, -⟩ := h.of_valReg hr
    exact ⟨r, hlt, hvalue⟩
  · rintro ⟨r, hr, hv⟩
    rw [IsValAvailableInReg, h.valReg_used hr hv (Finset.eq_empty_iff_forall_notMem.mp hout r)]
    rfl

/-! ## Evictions in a row -/

/-- `s'` is `s` with the registers at some places evicted. -/
structure Evicts (places : List ℕ) (s s' : RegAllocDecisionMaker bank) : Prop where
  consistent : s'.Consistent
  regIdxToDataIdx : s'.regIdxToDataIdx = s.regIdxToDataIdx
  isSorted : s'.isSorted = s.isSorted
  reservedRegMask : s'.reservedRegMask = s.reservedRegMask
  outputRegMask : s'.outputRegMask = s.outputRegMask
  nextUse : s'.nextUse = s.nextUse
  content : s'.cbs.content = s.cbs.content
  numScratchRegs : s'.numScratchRegs = s.numScratchRegs + places.length
  regValues : ∀ r < bank.numRegs,
    s'.regValues r = if s.regIdxToDataIdx r ∈ places then none else s.regValues r

/-- Registers in use can be evicted, one after the other. -/
theorem exists_evictDataIdxs (places : List ℕ) (h : s.Consistent) (hout : s.outputRegMask = ∅)
    (hnodup : places.Nodup) (hlt : ∀ i ∈ places, i < bank.numRegs)
    (hused : ∀ r < bank.numRegs, s.regIdxToDataIdx r ∈ places → (s.regValues r).isSome) :
    ∃ s', s.evictDataIdxs places = some s' ∧ Evicts places s s' := by
  induction places generalizing s with
  | nil => exact ⟨s, rfl, h, rfl, rfl, rfl, rfl, rfl, rfl, rfl, fun r _ => rfl⟩
  | cons i places ih =>
    obtain ⟨r, hr, rfl⟩ := h.dataIdx_surj i (hlt i List.mem_cons_self)
    obtain ⟨v, hv⟩ := Option.isSome_iff_exists.mp (hused r hr List.mem_cons_self)
    obtain ⟨hnot, hnodup⟩ := List.nodup_cons.mp hnodup
    have hr' : r ∉ s.outputRegMask := Finset.eq_empty_iff_forall_notMem.mp hout r
    let s₁ := s.evicted r (s.cbs.left v r)
    obtain ⟨s', hs', hevicts⟩ := ih (s := s₁) (h.evicted hr hv hr') hout hnodup
      (fun i hi => hlt i (List.mem_cons_of_mem _ hi)) fun r' hlt' hr' => by
        have hne : r' ≠ r := by
          rintro rfl
          exact hnot hr'
        change (Function.update s.regValues r none r').isSome
        rw [Function.update_of_ne hne]
        exact hused r' hlt' (List.mem_cons_of_mem _ hr')
    refine ⟨s', ?_, hevicts.consistent, hevicts.regIdxToDataIdx, hevicts.isSorted,
      hevicts.reservedRegMask, hevicts.outputRegMask, hevicts.nextUse, hevicts.content, ?_,
      fun r' hr' => ?_⟩
    · rw [evictDataIdxs, List.foldlM_cons, h.customDataAsU8_data hr,
        evictRegisterImpl_eq h hr hv hr']
      exact hs'
    · rw [hevicts.numScratchRegs, List.length_cons]
      change s.numScratchRegs + 1 + _ = _
      omega
    · rw [hevicts.regValues r' hr']
      change (if s.regIdxToDataIdx r' ∈ places then none
        else Function.update s.regValues r none r') = _
      by_cases hne : r' = r
      · subst hne
        rw [if_pos List.mem_cons_self, if_neg hnot, Function.update_self]
      · have hiff : s.regIdxToDataIdx r' ∈ s.regIdxToDataIdx r :: places ↔
            s.regIdxToDataIdx r' ∈ places :=
          List.mem_cons.trans (or_iff_right fun heq => hne (h.dataIdx_inj hr' hr heq))
        rw [Function.update_of_ne hne]
        simp only [hiff]

/-- The word of a value in a register is its next use, apart from the register index. -/
theorem Consistent.value_le (h : s.Consistent) {r' v' : ℕ} (hr : r < bank.numRegs)
    (hr' : r' < bank.numRegs) (hv : s.regValues r = some v) (hv' : s.regValues r' = some v')
    (hlt : s.data (s.regIdxToDataIdx r') < s.data (s.regIdxToDataIdx r)) :
    (s.nextUse v').value ≤ (s.nextUse v).value := by
  rw [h.word_used r hr v hv, h.word_used r' hr' v' hv'] at hlt
  have hle := bank.numRegs_le
  obtain ⟨k, -, hk⟩ := (s.nextUse v).exists_value_eq
  obtain ⟨k', -, hk'⟩ := (s.nextUse v').exists_value_eq
  omega

namespace Evicts

variable {places : List ℕ}

theorem idle (hevicts : Evicts places s s') (hidle : s.Idle) : s'.Idle :=
  ⟨hevicts.reservedRegMask.trans hidle.1, hevicts.outputRegMask.trans hidle.2⟩

/-- What is still available after the evictions. -/
theorem isValAvailableInReg_iff (hevicts : Evicts places s s') (hidle : s.Idle) :
    s'.IsValAvailableInReg v ↔
      ∃ r < bank.numRegs, s.regValues r = some v ∧ s.regIdxToDataIdx r ∉ places := by
  rw [hevicts.consistent.isValAvailableInReg_iff (hevicts.idle hidle).2]
  refine exists_congr fun r => and_congr_right fun hr => ?_
  rw [hevicts.regValues r hr]
  split_ifs with hplace
  · exact ⟨fun hv => (by cases hv), fun hv => absurd hplace hv.2⟩
  · exact (and_iff_left hplace).symm

/-- A value is evicted before one whose place comes earlier. -/
theorem value_le (hevicts : Evicts places s s') (h : s.Consistent) (hord : s.Ordered)
    (hidle : s.Idle) {v' : ℕ} (hv : s.IsValAvailableInReg v) (hnot : ¬ s'.IsValAvailableInReg v)
    (hv' : s'.IsValAvailableInReg v')
    (hbefore : ∀ i ∈ places, ∀ r < bank.numRegs, s.regValues r = some v' →
      s.regIdxToDataIdx r ∉ places → s.regIdxToDataIdx r < i) :
    (s.nextUse v').value ≤ (s.nextUse v).value := by
  obtain ⟨r, hr, hv⟩ := (h.isValAvailableInReg_iff hidle.2).mp hv
  obtain ⟨r', hr', hv', hkept⟩ := (hevicts.isValAvailableInReg_iff hidle).mp hv'
  have hplace : s.regIdxToDataIdx r ∈ places := by
    by_contra hplace
    exact hnot ((hevicts.isValAvailableInReg_iff hidle).mpr ⟨r, hr, hv, hplace⟩)
  exact h.value_le hr hr' hv hv'
    (hord r' hr' r hr (hbefore _ hplace r' hr' hv' hkept) (Option.isSome_of_eq_some hv))

end Evicts

/-- Nothing can be evicted from a free register. -/
theorem used_of_evictDataIdxs (places : List ℕ) (h : s.Consistent) (hout : s.outputRegMask = ∅)
    (hnodup : places.Nodup) (hlt : ∀ i ∈ places, i < bank.numRegs)
    (hs' : s.evictDataIdxs places = some s') :
    ∀ r < bank.numRegs, s.regIdxToDataIdx r ∈ places → (s.regValues r).isSome := by
  induction places generalizing s with
  | nil => exact fun r _ hr => absurd hr List.not_mem_nil
  | cons i places ih =>
    obtain ⟨r, hr, rfl⟩ := h.dataIdx_surj i (hlt i List.mem_cons_self)
    obtain ⟨hnot, hnodup⟩ := List.nodup_cons.mp hnodup
    have hr' : r ∉ s.outputRegMask := Finset.eq_empty_iff_forall_notMem.mp hout r
    rw [evictDataIdxs, List.foldlM_cons, h.customDataAsU8_data hr] at hs'
    cases hv : s.regValues r with
    | none =>
      rw [evictRegisterImpl, testAssert, if_pos hr, hv] at hs'
      cases hs'
    | some v =>
      rw [evictRegisterImpl_eq h hr hv hr'] at hs'
      intro r₁ hr₁ hplace
      by_cases hne : r₁ = r
      · rw [hne, hv]
        rfl
      have hused := ih (h.evicted hr hv hr') hout hnodup
        (fun i hi => hlt i (List.mem_cons_of_mem _ hi)) hs' r₁ hr₁
        ((List.mem_cons.mp hplace).resolve_left fun heq => hne (h.dataIdx_inj hr₁ hr heq))
      change (Function.update s.regValues r none r₁).isSome at hused
      rwa [Function.update_of_ne hne] at hused

/-! ## Enough scratch registers -/

/-- `s'` is `s` with values evicted, those first that are used last. -/
structure MakesRoom (numScratchRegs : ℕ) (s s' : RegAllocDecisionMaker bank) : Prop where
  consistent : s'.Consistent
  ordered : s'.isSorted = true → s'.Ordered
  idle : s'.Idle
  nextUse : s'.nextUse = s.nextUse
  numScratchRegs : s'.numScratchRegs = numScratchRegs
  available : ∀ v, s'.IsValAvailableInReg v → s.IsValAvailableInReg v
  soonest : ∀ v v', s.IsValAvailableInReg v → ¬ s'.IsValAvailableInReg v →
    s'.IsValAvailableInReg v' → (s'.nextUse v').value ≤ (s'.nextUse v).value

/-- Nothing is evicted. -/
theorem MakesRoom.of_sameRegisters (h : SameRegisters s s') (hs' : s'.Consistent)
    (hord : s'.isSorted = true → s'.Ordered) (hidle : s.Idle) :
    MakesRoom s.numScratchRegs s s' where
  consistent := hs'
  ordered := hord
  idle := h.idle hidle
  nextUse := h.nextUse
  numScratchRegs := h.numScratchRegs
  available v hv := by rwa [IsValAvailableInReg, h.cbs] at hv
  soonest v v' hv hv' := by
    rw [IsValAvailableInReg, h.cbs] at hv'
    exact absurd hv hv'

/-- Where only the order of `m_data` differs. -/
theorem MakesRoom.of_same {n : ℕ} (h : SameRegisters s s') (hroom : MakesRoom n s' s'') :
    MakesRoom n s s'' where
  consistent := hroom.consistent
  ordered := hroom.ordered
  idle := hroom.idle
  nextUse := hroom.nextUse.trans h.nextUse
  numScratchRegs := hroom.numScratchRegs
  available v hv := by
    have := hroom.available v hv
    rwa [IsValAvailableInReg, h.cbs] at this
  soonest v v' hv := hroom.soonest v v' (by rwa [IsValAvailableInReg, h.cbs])

/-- The last places of the registers in use are evicted. -/
theorem Evicts.makesRoom (h : s.Consistent) (hord : s.Ordered) (hidle : s.Idle) {desired : ℕ}
    (hlt : s.numScratchRegs < desired) (hd : desired ≤ bank.numRegs)
    (hevicts : Evicts (List.range' (bank.numRegs - desired) (desired - s.numScratchRegs)) s s') :
    MakesRoom desired s s' := by
  have hkept : ∀ r < bank.numRegs, (s'.regValues r).isSome →
      s.regIdxToDataIdx r < bank.numRegs - desired ∧ s'.regValues r = s.regValues r := by
    intro r hr hused
    rw [hevicts.regValues r hr] at hused ⊢
    split_ifs at hused ⊢ with hplace
    · cases hused
    · refine ⟨?_, rfl⟩
      have := (h.isSome_iff hord hidle.1 hr).mp hused
      rw [List.mem_range'_1] at hplace
      omega
  have hdata : ∀ r < bank.numRegs, (s'.regValues r).isSome →
      s'.data (s'.regIdxToDataIdx r) = s.data (s.regIdxToDataIdx r) := by
    intro r hr hused
    obtain ⟨v, hv⟩ := Option.isSome_iff_exists.mp hused
    rw [hevicts.consistent.word_used r hr v hv, hevicts.nextUse,
      h.word_used r hr v ((hkept r hr hused).2 ▸ hv)]
  constructor
  case consistent => exact hevicts.consistent
  case idle => exact hevicts.idle hidle
  case nextUse => exact hevicts.nextUse
  case numScratchRegs =>
    rw [hevicts.numScratchRegs, List.length_range']
    omega
  case ordered =>
    intro _ r hr r' hr' hbefore hused
    rw [hevicts.regIdxToDataIdx] at hbefore
    obtain ⟨hplace, hsame⟩ := hkept r' hr' hused
    rw [hsame] at hused
    have hused' : (s'.regValues r).isSome := by
      rw [hevicts.regValues r hr, if_neg fun hmem => ?_]
      · exact h.isSome_of_lt hord hr hr' hbefore hused
      · have := (List.mem_range'_1.mp hmem).1
        omega
    rw [hdata r hr hused', hdata r' hr' (hsame ▸ hused)]
    exact hord r hr r' hr' hbefore hused
  case available =>
    intro v hv
    obtain ⟨r, hr, hv, -⟩ := (hevicts.isValAvailableInReg_iff hidle).mp hv
    exact (h.isValAvailableInReg_iff hidle.2).mpr ⟨r, hr, hv⟩
  case soonest =>
    intro v v' hv hnot hv'
    rw [hevicts.nextUse]
    refine hevicts.value_le h hord hidle hv hnot hv' fun i hi r hr hv' hkept => ?_
    have := (h.isSome_iff hord hidle.1 hr).mp (Option.isSome_of_eq_some hv')
    rw [List.mem_range'_1] at hi hkept
    omega

/-- What `EvictUntil` starts to evict from: `m_isSorted` is kept only if no register is free. -/
def sortedForEviction (s : RegAllocDecisionMaker bank) : RegAllocDecisionMaker bank :=
  { s.sortRegisters with
    isSorted := s.sortRegisters.isSorted && decide (s.sortRegisters.numScratchRegs = 0) }

theorem sameRegisters_sortedForEviction (s : RegAllocDecisionMaker bank) :
    SameRegisters s s.sortedForEviction :=
  (sameRegisters_sortRegisters s).trans ⟨rfl, rfl, rfl, rfl, rfl, rfl, rfl⟩

/-- Nothing is evicted if enough registers are free. -/
theorem evictUntilScratch_of_le {desired : ℕ} (hle : desired ≤ s.numScratchRegs) :
    s.evictUntilScratch desired = some s.sortRegisters := by
  have hsame := (sameRegisters_sortRegisters s).numScratchRegs
  rw [evictUntilScratch, if_neg (by omega)]

/-- The last places of the registers in use are evicted if too few registers are free. -/
theorem exists_evicts_evictUntilScratch (h : s.Consistent)
    (hord : s.isSorted = true → s.Ordered) (hidle : s.Idle) {desired : ℕ}
    (hd : desired ≤ bank.numRegs) (hlt : s.numScratchRegs < desired) :
    ∃ s', s.evictUntilScratch desired = some s' ∧
      Evicts (List.range' (bank.numRegs - desired) (desired - s.numScratchRegs))
        s.sortedForEviction s' := by
  obtain ⟨hsorted, hord'⟩ := h.sortRegisters hord
  have hsame := sameRegisters_sortedForEviction s
  have ht : s.sortedForEviction.Consistent := hsorted.withSorted _
  have hwork : s.evictUntilScratch desired = s.sortedForEviction.evictDataIdxs
      (List.range' (bank.numRegs - desired) (desired - s.sortedForEviction.numScratchRegs)) :=
    if_pos (hsame.numScratchRegs.trans_lt hlt)
  rw [hwork, hsame.numScratchRegs]
  refine exists_evictDataIdxs _ ht (hsame.idle hidle).2 (List.nodup_range' ..) (fun i hi => ?_)
    fun r hr hplace => (ht.isSome_iff hord' (hsame.idle hidle).1 hr).mpr ?_
  · have := List.mem_range'_1.mp hi
    omega
  · have := (List.mem_range'_1.mp hplace).2
    rw [hsame.numScratchRegs]
    omega

/-- **Enough registers are made free**, and no more than are asked for. -/
theorem exists_evictUntilScratch (h : s.Consistent) (hord : s.isSorted = true → s.Ordered)
    (hidle : s.Idle) {desired : ℕ} (hd : desired ≤ bank.numRegs) :
    ∃ s', s.evictUntilScratch desired = some s' ∧
      MakesRoom (max s.numScratchRegs desired) s s' := by
  obtain ⟨hsorted, hord'⟩ := h.sortRegisters hord
  rcases Nat.lt_or_ge s.numScratchRegs desired with hlt | hle
  · have hsame := sameRegisters_sortedForEviction s
    obtain ⟨s', hs', hevicts⟩ := exists_evicts_evictUntilScratch h hord hidle hd hlt
    have ht : s.sortedForEviction.Consistent := hsorted.withSorted _
    rw [← hsame.numScratchRegs] at hevicts hlt ⊢
    rw [max_eq_right hlt.le]
    exact ⟨s', hs', MakesRoom.of_same hsame (hevicts.makesRoom ht hord' (hsame.idle hidle) hlt hd)⟩
  · rw [max_eq_left hle]
    exact ⟨_, evictUntilScratch_of_le hle,
      MakesRoom.of_sameRegisters (sameRegisters_sortRegisters s) hsorted (fun _ => hord') hidle⟩

/-! ## Moves out of group 1

Values in group 1 are moved to free registers of group 2. -/

/-- `s'` is `s` with values moved to other registers. -/
structure Moves (s s' : RegAllocDecisionMaker bank) : Prop where
  consistent : s'.Consistent
  isSorted : s'.isSorted = true → s' = s
  reservedRegMask : s'.reservedRegMask = s.reservedRegMask
  outputRegMask : s'.outputRegMask = s.outputRegMask
  content : ∀ r ∈ s.reservedRegMask, s'.cbs.content r = s.cbs.content r
  nextUse : s'.nextUse = s.nextUse
  numScratchRegs : s'.numScratchRegs = s.numScratchRegs
  available : ∀ v, s'.IsValAvailableInReg v ↔ s.IsValAvailableInReg v
  group1 : ∀ r ∈ s.scratchRegMask, firstGroup1GprIdx ≤ r → r ∈ s'.scratchRegMask

theorem Moves.refl (h : s.Consistent) : Moves s s :=
  ⟨h, fun _ => rfl, rfl, rfl, fun _ _ => rfl, rfl, rfl, fun _ => Iff.rfl, fun _ hr _ => hr⟩

theorem Moves.idle (h : Moves s s') (hidle : s.Idle) : s'.Idle :=
  ⟨h.reservedRegMask.trans hidle.1, h.outputRegMask.trans hidle.2⟩

theorem Moves.trans (h : Moves s s') (h' : Moves s' s'') : Moves s s'' where
  consistent := h'.consistent
  isSorted hsorted := by
    obtain rfl := h'.isSorted hsorted
    exact h.isSorted hsorted
  reservedRegMask := h'.reservedRegMask.trans h.reservedRegMask
  outputRegMask := h'.outputRegMask.trans h.outputRegMask
  content r hr := (h'.content r (h.reservedRegMask ▸ hr)).trans (h.content r hr)
  nextUse := h'.nextUse.trans h.nextUse
  numScratchRegs := h'.numScratchRegs.trans h.numScratchRegs
  available v := (h'.available v).trans (h.available v)
  group1 r hr hfirst := h'.group1 r (h.group1 r hr hfirst) hfirst

theorem Consistent.moves_relocated (h : s.Consistent) (hout : s.outputRegMask = ∅)
    (hr : r < bank.numRegs) (hv : s.regValues r = some v) {d : ℕ} (hd : d ∈ s.scratchRegMask)
    (hlow : d < firstGroup1GprIdx) :
    Moves s (s.relocated v r d ((s.cbs.left v r).entered v d (s.cbs.content r))) := by
  have hnot : r ∉ s.outputRegMask := Finset.eq_empty_iff_forall_notMem.mp hout r
  refine ⟨h.relocated hr hv hnot hd, fun hsorted => (by cases hsorted), rfl, rfl, fun r' hr' => ?_,
    rfl, rfl, fun v' => ?_,
    fun r' hr' hfirst => Finset.mem_insert_of_mem (Finset.mem_erase.mpr ⟨by omega, hr'⟩)⟩
  · refine Function.update_of_ne ?_ ..
    rintro rfl
    exact Finset.disjoint_left.mp h.disjoint hd hr'
  · change (Function.update (Function.update s.cbs.valReg v none) v (some d) v').isSome ↔ _
    rw [Function.update_idem, Function.update_apply]
    split_ifs with hne
    · rw [hne, IsValAvailableInReg, h.valReg_used hr hv hnot]
      exact Iff.rfl
    · exact Iff.rfl

/-- A register of group 1 can be freed. -/
theorem exists_relocateGroup1Gpr {s : RegAllocDecisionMaker .gpr} (h : s.Consistent)
    (hout : s.outputRegMask = ∅) (hreserved : ∀ r ∈ s.reservedRegMask, r < firstGroup1GprIdx)
    (hroom : numGroup1Gprs ≤ s.numScratchRegs) (hfirst : firstGroup1GprIdx ≤ r)
    (hr : r < RegBank.gpr.numRegs) :
    ∃ s', s.relocateGroup1Gpr r = some s' ∧ Moves s s' ∧ r ∈ s'.scratchRegMask := by
  rw [relocateGroup1Gpr]
  cases hv : s.regValues r with
  | none =>
    refine ⟨s, rfl, Moves.refl h, ((h.free_iff r hr).mp hv).resolve_right fun hmem => ?_⟩
    exact Nat.not_lt.mpr hfirst (hreserved r hmem)
  | some v =>
    have hnonempty : s.scratchRegMask.Nonempty := by
      rw [← Finset.card_pos, ← h.numScratch]
      exact Nat.lt_of_lt_of_le (by decide) hroom
    obtain ⟨d, hd, hfind, hmin⟩ :=
      countTrailingZeros_spec hnonempty (lt_sixteen h.scratch_subset)
    have hlow : d < firstGroup1GprIdx := by
      -- of group 1 only one register besides `r` could be free
      by_contra hge
      have hsub : s.scratchRegMask ⊆ (Finset.Ico firstGroup1GprIdx RegBank.gpr.numRegs).erase r :=
        fun r' hr' => Finset.mem_erase.mpr
          ⟨fun heq => h.not_scratch hv (heq ▸ hr'),
            Finset.mem_Ico.mpr ⟨(Nat.not_lt.mp hge).trans (hmin r' hr'), h.lt_of_scratch hr'⟩⟩
      have hcard := Finset.card_le_card hsub
      rw [Finset.card_erase_of_mem (Finset.mem_Ico.mpr ⟨hfirst, hr⟩), Nat.card_Ico,
        ← h.numScratch] at hcard
      exact absurd (hroom.trans hcard) (by decide)
    have hnot : r ∉ s.outputRegMask := Finset.eq_empty_iff_forall_notMem.mp hout r
    refine ⟨_, ?_, h.moves_relocated hout hr hv hd hlow, Finset.mem_insert_self ..⟩
    dsimp only
    rw [hfind, Option.bind_some, testAssert, if_pos hlow, relocateRegister_eq h hr hv hnot hd]
    rfl

theorem mem_group1 : r ∈ List.range' firstGroup1GprIdx numGroup1Gprs ↔
    firstGroup1GprIdx ≤ r ∧ r < RegBank.gpr.numRegs := by
  rw [List.mem_range'_1]
  rfl

/-- All of them can be freed, if there is room. -/
theorem exists_relocateToTurnAllGroup1GprIntoScratch {s : RegAllocDecisionMaker .gpr}
    (h : s.Consistent) (hout : s.outputRegMask = ∅)
    (hreserved : ∀ r ∈ s.reservedRegMask, r < firstGroup1GprIdx)
    (hroom : numGroup1Gprs ≤ s.numScratchRegs) :
    ∃ s', s.relocateToTurnAllGroup1GprIntoScratch = some s' ∧ Moves s s' ∧
      ∀ r, firstGroup1GprIdx ≤ r → r < RegBank.gpr.numRegs → r ∈ s'.scratchRegMask := by
  rw [relocateToTurnAllGroup1GprIntoScratch, testAssert, if_pos hroom]
  have hloop : ∃ s', (List.range' firstGroup1GprIdx numGroup1Gprs).foldlM
        (fun s regIdx => s.relocateGroup1Gpr regIdx) s = some s' ∧
      Moves s s' ∧ ∀ r ∈ List.range' firstGroup1GprIdx numGroup1Gprs, r ∈ s'.scratchRegMask := by
    refine Folds.foldlM_prefix (P := fun done s' => Moves s s' ∧ ∀ r ∈ done, r ∈ s'.scratchRegMask)
      ⟨Moves.refl h, fun r hr => absurd hr List.not_mem_nil⟩ ?_
    rintro done r rest t hl ⟨hmoves, hfree⟩
    have hmem : ∀ r' ∈ done ++ [r], firstGroup1GprIdx ≤ r' ∧ r' < RegBank.gpr.numRegs := by
      intro r' hr'
      refine mem_group1.mp ?_
      rw [hl, ← List.singleton_append, ← List.append_assoc]
      exact List.mem_append_left _ hr'
    obtain ⟨hfirst, hr⟩ := hmem r (List.mem_append_right _ (List.mem_singleton_self r))
    obtain ⟨t', ht', hmoves', hr'⟩ := exists_relocateGroup1Gpr hmoves.consistent
      (hmoves.outputRegMask.trans hout) (hmoves.reservedRegMask ▸ hreserved)
      (hmoves.numScratchRegs.symm ▸ hroom) hfirst hr
    refine ⟨t', ht', hmoves.trans hmoves', fun r₀ hr₀ => ?_⟩
    rcases List.mem_append.mp hr₀ with hdone | hlast
    · exact hmoves'.group1 r₀ (hfree r₀ hdone) (hmem r₀ hr₀).1
    · rwa [List.mem_singleton.mp hlast]
  obtain ⟨s', hs', hmoves, hfree⟩ := hloop
  exact ⟨s', hs', hmoves, fun r hfirst hr => hfree r (mem_group1.mpr ⟨hfirst, hr⟩)⟩

theorem shouldRelocate_eq_true {should : Bool} :
    shouldRelocate bank should = true ↔ bank = .gpr ∧ should = true := by
  rw [shouldRelocate, Bool.and_eq_true, decide_eq_true_iff]

theorem of_shouldRelocate {should : Bool} {n : ℕ}
    (hroom : bank = .gpr → should = true → numGroup1Gprs ≤ n)
    (hrelocate : shouldRelocate bank should = true) : bank = .gpr ∧ numGroup1Gprs ≤ n := by
  obtain ⟨hgpr, hshould⟩ := shouldRelocate_eq_true.mp hrelocate
  exact ⟨hgpr, hroom hgpr hshould⟩

/-- Whether or not group 1 is asked for. -/
theorem exists_relocateIf (h : s.Consistent) (hout : s.outputRegMask = ∅) (relocate : Bool)
    (hreserved : relocate = true → ∀ r ∈ s.reservedRegMask, r < firstGroup1GprIdx)
    (hroom : relocate = true → bank = .gpr ∧ numGroup1Gprs ≤ s.numScratchRegs) :
    ∃ s', s.relocateIf relocate = some s' ∧ Moves s s' ∧
      (relocate = true →
        ∀ r, firstGroup1GprIdx ≤ r → r < bank.numRegs → r ∈ s'.scratchRegMask) := by
  cases relocate with
  | false => exact ⟨s, rfl, Moves.refl h, fun hfalse => (by cases hfalse)⟩
  | true =>
    obtain ⟨rfl, hroom⟩ := hroom rfl
    obtain ⟨s', hs', hmoves, hfree⟩ :=
      exists_relocateToTurnAllGroup1GprIntoScratch h hout (hreserved rfl) hroom
    exact ⟨s', hs', hmoves, fun _ => hfree⟩

/-- Moves keep the room. -/
theorem MakesRoom.moves {n : ℕ} (h : MakesRoom n s s') (hmoves : Moves s' s'') :
    MakesRoom n s s'' where
  consistent := hmoves.consistent
  ordered hsorted := by
    obtain rfl := hmoves.isSorted hsorted
    exact h.ordered hsorted
  idle := hmoves.idle h.idle
  nextUse := hmoves.nextUse.trans h.nextUse
  numScratchRegs := hmoves.numScratchRegs.trans h.numScratchRegs
  available v hv := h.available v ((hmoves.available v).mp hv)
  soonest v v' hv hnot hv' := by
    rw [hmoves.nextUse]
    exact h.soonest v v' hv (fun hv => hnot ((hmoves.available v).mpr hv))
      ((hmoves.available v').mp hv')

/-! ## The whole operation -/

/-- The registers are made free and group 1 is cleared. -/
theorem exists_makesRoom_relocateIf (h : s.Consistent) (hord : s.isSorted = true → s.Ordered)
    (hidle : s.Idle) {desired : ℕ} (hd : desired ≤ bank.numRegs) {relocate : Bool}
    (hroom : relocate = true → bank = .gpr ∧ numGroup1Gprs ≤ desired) :
    ∃ s', (s.evictUntilScratch desired).bind (fun s => s.relocateIf relocate) = some s' ∧
      MakesRoom (max s.numScratchRegs desired) s s' ∧
      (relocate = true →
        ∀ r, firstGroup1GprIdx ≤ r → r < bank.numRegs → r ∈ s'.scratchRegMask) := by
  obtain ⟨t, ht, hmakes⟩ := exists_evictUntilScratch h hord hidle hd
  obtain ⟨s', hs', hmoves, hfree⟩ := exists_relocateIf hmakes.consistent
    hmakes.idle.2 relocate
    (fun _ r hr => absurd hr (Finset.eq_empty_iff_forall_notMem.mp hmakes.idle.1 r))
    fun hrelocate =>
      ⟨(hroom hrelocate).1, hmakes.numScratchRegs ▸ (hroom hrelocate).2.trans (le_max_right ..)⟩
  refine ⟨s', ?_, hmakes.moves hmoves, hfree⟩
  rw [ht]
  exact hs'

/-- The registers that are missing become free, and the node is told about free ones. -/
theorem exists_evictUntil (h : s.Consistent) (hord : s.isSorted = true → s.Ordered) (hidle : s.Idle)
    {desired : ℕ} (hd : desired ≤ bank.numRegs) {should : Bool}
    (hroom : bank = .gpr → should = true → numGroup1Gprs ≤ desired) :
    ∃ s', s.evictUntil desired should = some (init bank s'.scratchRegMask.card s'.scratchRegMask
        (bank.fullMask \ s'.scratchRegMask) desired, s') ∧
      MakesRoom (max s.numScratchRegs desired) s s' ∧
      (shouldRelocate bank should = true →
        ∀ r, firstGroup1GprIdx ≤ r → r < bank.numRegs → r ∈ s'.scratchRegMask) := by
  have hrelocate : shouldRelocate bank should = true → bank = .gpr ∧ numGroup1Gprs ≤ desired :=
    of_shouldRelocate hroom
  have hwork : ∃ s', (if 0 < desired then (s.evictUntilScratch desired).bind fun s =>
        s.relocateIf (shouldRelocate bank should) else some s) = some s' ∧
      MakesRoom (max s.numScratchRegs desired) s s' ∧
      (shouldRelocate bank should = true →
        ∀ r, firstGroup1GprIdx ≤ r → r < bank.numRegs → r ∈ s'.scratchRegMask) := by
    split_ifs with hpos
    · exact exists_makesRoom_relocateIf h hord hidle hd hrelocate
    · refine ⟨s, rfl, ?_, fun hr => absurd (hrelocate hr).2 ?_⟩
      · rw [max_eq_left (by omega)]
        exact MakesRoom.of_sameRegisters (SameRegisters.refl s) h hord hidle
      · exact Nat.not_le.mpr ((Nat.not_lt.mp hpos).trans_lt (by decide))
  obtain ⟨s', hs', hmakes, hfree⟩ := hwork
  refine ⟨s', ?_, hmakes, hfree⟩
  rw [evictUntil, testAssert, if_pos hidle, testAssert, if_pos ⟨fun hr => (hrelocate hr).2, hd⟩,
    hs', Option.map_some, hmakes.consistent.numScratch]

/-- **`EvictUntil`** never fails.  Exactly as many registers become free as are missing, of the
values in registers those are kept that are used soonest, and the node is told about registers that
are really free, in the number it wants, with all of group 1 among them if it wants that. -/
theorem evictUntil_spec (h : s.Consistent) (hord : s.isSorted = true → s.Ordered) (hidle : s.Idle)
    {desired : ℕ} (hd : desired ≤ bank.numRegs) {should : Bool}
    (hroom : bank = .gpr → should = true → numGroup1Gprs ≤ desired) :
    ∃ info s', s.evictUntil desired should = some (info, s') ∧
      MakesRoom (max s.numScratchRegs desired) s s' ∧
      Describes bank s'.scratchRegMask (bank.fullMask \ s'.scratchRegMask) desired info ∧
      (bank = .gpr → should = true → ∀ r, firstGroup1GprIdx ≤ r → r < bank.numRegs →
        r ∈ info.scratchRegs bank) := by
  obtain ⟨s', hs', hmakes, hfree⟩ := exists_evictUntil h hord hidle hd hroom
  have hcard : desired ≤ s'.scratchRegMask.card := by
    rw [← hmakes.consistent.numScratch, hmakes.numScratchRegs]
    exact le_max_right ..
  obtain ⟨hdescribes, hgroup1⟩ :=
    init_spec hmakes.consistent.scratch_subset hcard (bank.fullMask \ s'.scratchRegMask)
  exact ⟨_, s', hs', hmakes, hdescribes, fun hgpr hshould r hfirst hr =>
    hgroup1 hgpr (hroom hgpr hshould) r
      (hfree (shouldRelocate_eq_true.mpr ⟨hgpr, hshould⟩) r hfirst hr) hfirst⟩

/-- A bank without values. -/
def noneLoaded : RegAllocDecisionMaker .gpr := reset fun _ => noMoreUse

/-- Value `4` is in the first register of group 1. -/
def oneLoaded : RegAllocDecisionMaker .gpr :=
  { noneLoaded.loaded 4 5 with cbs := noneLoaded.cbs.entered 4 5 (some 4) }

theorem consistent_oneLoaded : oneLoaded.Consistent :=
  (consistent_reset fun _ => noMoreUse).loaded (by decide) fun r hr hv => (by cases hv)

/-- Room for all registers: the value has to go. -/
theorem evictUntil_spec_oneLoaded : oneLoaded.Consistent ∧
    ∃ info s', oneLoaded.evictUntil 7 true = some (info, s') ∧
      MakesRoom (max oneLoaded.numScratchRegs 7) oneLoaded s' ∧
      Describes .gpr s'.scratchRegMask (RegBank.gpr.fullMask \ s'.scratchRegMask) 7 info ∧
      (RegBank.gpr = .gpr → true = true → ∀ r, firstGroup1GprIdx ≤ r → r < RegBank.gpr.numRegs →
        r ∈ info.scratchRegs .gpr) :=
  ⟨consistent_oneLoaded,
    evictUntil_spec consistent_oneLoaded (fun hsorted => (by cases hsorted)) ⟨rfl, rfl⟩ (by decide)
      fun _ _ => by decide⟩

/-! ## Spilling everything -/

/-- The loop ends with every register free. -/
theorem exists_spillLoop {fuel : ℕ} (h : s.Consistent) (hidle : s.Idle)
    (hfuel : bank.numRegs - s.numScratchRegs ≤ fuel) :
    ∃ s', spillLoop fuel s = some s' ∧ s'.Consistent ∧ s'.Idle ∧
      s'.scratchRegMask = bank.fullMask ∧ s'.nextUse = s.nextUse ∧
      s'.regIdxToDataIdx = s.regIdxToDataIdx ∧ s'.isSorted = s.isSorted := by
  have hfull : bank.numRegs ≤ s.numScratchRegs → s.scratchRegMask = bank.fullMask := fun hle => by
    refine Finset.eq_of_subset_of_card_le h.scratch_subset ?_
    rwa [RegBank.fullMask, Finset.card_range, ← h.numScratch]
  induction fuel generalizing s with
  | zero =>
    refine ⟨s, ?_, h, hidle, hfull (by omega), rfl, rfl, rfl⟩
    rw [spillLoop, if_pos (hfull (by omega))]
  | succ fuel ih =>
    rw [spillLoop]
    rcases (bank.fullMask \ s.scratchRegMask).eq_empty_or_nonempty with hnone | hsome
    · have hdone : s.scratchRegMask = bank.fullMask :=
        h.scratch_subset.antisymm (Finset.sdiff_eq_empty_iff_subset.mp hnone)
      rw [hnone]
      exact ⟨s, rfl, h, hidle, hdone, rfl, rfl, rfl⟩
    · obtain ⟨r, hr, hfind, -⟩ := countTrailingZeros_spec hsome (lt_sixteen Finset.sdiff_subset)
      obtain ⟨hlt, hused⟩ := Finset.mem_sdiff.mp hr
      replace hlt := RegBank.mem_fullMask.mp hlt
      rw [h.mem_scratch_iff hidle.1 hlt] at hused
      obtain ⟨v, hv⟩ := Option.ne_none_iff_exists'.mp hused
      have hout : r ∉ s.outputRegMask := Finset.eq_empty_iff_forall_notMem.mp hidle.2 r
      have hevicted := h.evicted hlt hv hout
      rw [hfind]
      dsimp only
      rw [evictRegisterImpl_eq h hlt hv hout, Option.bind_some]
      refine ih hevicted hidle ?_ fun hle => ?_
      · change bank.numRegs - (s.numScratchRegs + 1) ≤ fuel
        omega
      · refine Finset.eq_of_subset_of_card_le hevicted.scratch_subset ?_
        rwa [RegBank.fullMask, Finset.card_range, ← hevicted.numScratch]

/-- **`SpillEverything`** never fails and leaves no value in a register. -/
theorem spillEverything_spec (h : s.Consistent) (hidle : s.Idle) :
    ∃ s', s.spillEverything = some s' ∧ s'.Consistent ∧ s'.Ordered ∧ s'.Idle ∧
      (∀ v, s'.cbs.valReg v = none) ∧ s'.nextUse = s.nextUse ∧
      s'.regIdxToDataIdx = s.regIdxToDataIdx ∧ s'.isSorted = s.isSorted := by
  obtain ⟨s', hs', h', hidle', hfull, hkeeps⟩ := exists_spillLoop h hidle (Nat.sub_le ..)
  have hfree : ∀ r < bank.numRegs, s'.regValues r = none := fun r hr =>
    h'.regValues_scratch (hfull ▸ RegBank.mem_fullMask.mpr hr)
  refine ⟨s', ?_, h', fun r hr r' hr' _ hused => ?_, hidle', fun v => ?_, hkeeps⟩
  · rw [spillEverything, testAssert, if_pos hidle, hs']
  · rw [hfree r' hr'] at hused
    cases hused
  · exact h'.valReg_fresh fun r hr hv => by
      rw [hfree r hr] at hv
      cases hv

end RegAllocDecisionMaker

end Dsom
