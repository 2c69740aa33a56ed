import Dsom.RegAlloc.AssertConsistency

/-!
# RegAlloc/BirthsAndDeaths — values that come and go

An output comes into its register with the node, and the value manager is told afterwards.  A dead
value leaves its register at once; `m_isSorted` is not touched, and is right only if no register in
use comes after it and no free register has a smaller index (`processDeathEvent_spec`).
-/

namespace Dsom

open RegAlloc ValueNextUseInfo

namespace RegAllocDecisionMaker

variable {bank : RegBank} {s s' : RegAllocDecisionMaker bank} {r v : ℕ}

/-- The state between two requests. -/
structure AtRest (s : RegAllocDecisionMaker bank) : Prop where
  consistent : s.Consistent
  ordered : s.isSorted = true → s.Ordered
  idle : s.Idle

/-- At rest, only the order can fail the check. -/
theorem AtRest.assertConsistency_iff (h : s.AtRest) :
    s.AssertConsistency ↔ (s.isSorted = true → s.Ascending) :=
  RegAllocDecisionMaker.assertConsistency_iff h.consistent h.idle.1

/-! ## Births

A value is born into a free register, and all of them are entered together. -/

/-- The value manager learns of one output. -/
theorem Consistent.processBornInRegister (h : s.Consistent) (hr : r ∈ s.outputRegMask)
    (hv : s.regValues r = some v) :
    s.cbs.processBornInRegister v r = some (s.cbs.entered v r (some v)) ∧
    ({ s with
      outputRegMask := s.outputRegMask.erase r
      cbs := s.cbs.entered v r (some v) } : RegAllocDecisionMaker bank).Consistent := by
  have hlt := (h.output_used r hr).1
  have hholder : s.cbs.holder r = none := by rw [h.holder r hlt, if_pos hr]
  have hval : s.cbs.valReg v = none := by
    cases hreg : s.cbs.valReg v with
    | none => rfl
    | some r' =>
      obtain ⟨hlt', hv', hout⟩ := h.of_valReg hreg
      rw [← h.unique r hlt r' hlt' v hv hv'] at hout
      exact absurd hr hout
  obtain ⟨hvalReg, hcontent⟩ := h.entered hlt hholder hval
  refine ⟨?_, { h with
    output_used := fun r' hr' => h.output_used r' (Finset.mem_of_mem_erase hr')
    holder := fun r' hr' => ?_
    valReg := hvalReg
    content := hcontent }⟩
  · rw [RegEventCallbacks.processBornInRegister, RegEventCallbacks.loadRegister, testAssert,
      if_pos ⟨hval, hholder⟩]
  · change Function.update s.cbs.holder r (some v) r' =
      if r' ∈ s.outputRegMask.erase r then none else s.regValues r'
    by_cases hne : r' = r
    · subst hne
      rw [Function.update_self, if_neg (Finset.notMem_erase r' _), hv]
    · rw [Function.update_of_ne hne, h.holder r' hr']
      simp only [Finset.mem_erase, ne_eq, hne, not_false_eq_true, true_and]

/-- The outputs are entered. -/
theorem exists_outputsBorn (h : s.Consistent) (hreserved : s.reservedRegMask = ∅) :
    ∃ s', s.outputsBorn = some s' ∧ s'.Consistent ∧ s'.Idle ∧ s'.regValues = s.regValues ∧
      s'.isSorted = s.isSorted ∧ s'.nextUse = s.nextUse := by
  have hloop : ∃ cbs, (List.range bank.numRegs).foldlM (fun cbs regIdx =>
        if regIdx ∈ s.outputRegMask then
          (s.regValues regIdx).bind fun v => cbs.processBornInRegister v regIdx
        else some cbs) s.cbs = some cbs ∧
      ({ s with
        outputRegMask := s.outputRegMask.filter (· ∉ List.range bank.numRegs)
        cbs := cbs } : RegAllocDecisionMaker bank).Consistent := by
    refine Folds.foldlM_prefix (P := fun (done : List ℕ) (cbs : RegEventCallbacks) =>
      ({ s with
        outputRegMask := s.outputRegMask.filter (· ∉ done)
        cbs := cbs } : RegAllocDecisionMaker bank).Consistent) ?_ ?_
    · rw [Finset.filter_true_of_mem fun r _ => List.not_mem_nil]
      exact h
    · intro done r rest cbs hl ht
      have hnodup : (done ++ r :: rest).Nodup := hl ▸ List.nodup_range
      have hnot : r ∉ done := fun hmem =>
        (List.nodup_append.mp hnodup).2.2 r hmem r List.mem_cons_self rfl
      have hmask : s.outputRegMask.filter (· ∉ done ++ [r]) =
          (s.outputRegMask.filter (· ∉ done)).erase r := by
        ext r'
        rw [Finset.mem_filter, Finset.mem_erase, Finset.mem_filter, List.mem_append,
          List.mem_singleton, not_or]
        tauto
      rw [hmask]
      split_ifs with hr
      · obtain ⟨v, hv⟩ := Option.isSome_iff_exists.mp (h.output_used r hr).2
        obtain ⟨hborn, hnext⟩ :=
          ht.processBornInRegister (Finset.mem_filter.mpr ⟨hr, hnot⟩) hv
        exact ⟨_, by rw [hv]; exact hborn, hnext⟩
      · refine ⟨cbs, rfl, ?_⟩
        rwa [Finset.erase_eq_of_notMem fun hmem => hr (Finset.mem_filter.mp hmem).1]
  obtain ⟨cbs, hcbs, hconsistent⟩ := hloop
  have hmask : s.outputRegMask.filter (· ∉ List.range bank.numRegs) = ∅ :=
    Finset.filter_false_of_mem fun r hr => not_not.mpr (List.mem_range.mpr (h.output_used r hr).1)
  rw [hmask] at hconsistent
  refine ⟨_, ?_, hconsistent, ⟨hreserved, rfl⟩, rfl, rfl, rfl⟩
  rw [outputsBorn, hcbs]
  rfl

/-- **A birth** outside of the decision maker, with the events after it. -/
theorem processHackyBorn_spec (h : s.AtRest) (hr : r ∈ s.scratchRegMask)
    (hv : ¬ s.IsValAvailableInReg v) :
    ∃ s', (s.processHackyBorn r v).bind outputsBorn = some s' ∧ s'.AtRest ∧
      s'.isSorted = false ∧ s'.cbs.valReg v = some r ∧
      (∀ w, s'.IsValAvailableInReg w ↔ w = v ∨ s.IsValAvailableInReg w) ∧
      s'.nextUse = s.nextUse := by
  have hfresh : s.Fresh v :=
    h.consistent.fresh_of_valReg h.idle.2 (Option.not_isSome_iff_eq_none.mp hv)
  obtain ⟨s', hs', hconsistent, hidle, hvalues, hsorted, hnext⟩ :=
    exists_outputsBorn (h.consistent.born hr hfresh) h.idle.1
  have hlt := h.consistent.lt_of_scratch hr
  have hregister : s'.regValues r = some v := by
    rw [hvalues]
    exact Function.update_self ..
  refine ⟨s', ?_, ⟨hconsistent, fun hsort => ?_, hidle⟩, hsorted, ?_, fun w => ?_, hnext⟩
  · rw [processHackyBorn, loadValueToGivenRegister_born h.consistent hr hfresh]
    exact hs'
  · rw [hsorted] at hsort
    cases hsort
  · exact hconsistent.valReg_used hlt hregister (Finset.eq_empty_iff_forall_notMem.mp hidle.2 r)
  · rw [hconsistent.isValAvailableInReg_iff hidle.2, h.consistent.isValAvailableInReg_iff h.idle.2,
      hvalues]
    change (∃ r' < bank.numRegs, Function.update s.regValues r (some v) r' = some w) ↔ _
    constructor
    · rintro ⟨r', hr', hw⟩
      rw [Function.update_apply] at hw
      split_ifs at hw
      · exact .inl (Option.some_inj.mp hw).symm
      · exact .inr ⟨r', hr', hw⟩
    · rintro (rfl | ⟨r', hr', hw⟩)
      · exact ⟨r, hlt, Function.update_self ..⟩
      · refine ⟨r', hr', ?_⟩
        rw [Function.update_of_ne, hw]
        rintro rfl
        cases (h.consistent.regValues_scratch hr).symm.trans hw

/-! ## Deaths

A register that dies is free from then on, but its word stays where it is among the others. -/

/-- No register in use comes after `r` in `m_data`. -/
def LastUsed (s : RegAllocDecisionMaker bank) (r : ℕ) : Prop :=
  ∀ r' < bank.numRegs, (s.regValues r').isSome → s.regIdxToDataIdx r' ≤ s.regIdxToDataIdx r

/-- One eviction leaves the order right exactly if it is the last register in use. -/
theorem Ordered.evicted_iff (h : s.Consistent) (hord : s.Ordered) (hr : r < bank.numRegs)
    (hv : s.regValues r = some v) (hout : r ∉ s.outputRegMask) :
    (s.evicted r (s.cbs.left v r)).Ordered ↔ s.LastUsed r := by
  have hne_of : ∀ r', ((Function.update s.regValues r none) r').isSome → r' ≠ r := by
    rintro r' hused rfl
    rw [Function.update_self] at hused
    cases hused
  constructor
  · intro hevicted r' hr' hused
    by_contra hlt
    have hne : r' ≠ r := by
      rintro rfl
      exact hlt le_rfl
    have hused' : ((s.evicted r (s.cbs.left v r)).regValues r').isSome := by
      change (Function.update s.regValues r none r').isSome
      rwa [Function.update_of_ne hne]
    have hfree := (h.evicted hr hv hout).isSome_of_lt hevicted hr hr' (Nat.not_le.mp hlt) hused'
    exact hne_of r hfree rfl
  · intro hlast r₁ hr₁ r₂ hr₂ hlt hused
    have hne₂ := hne_of r₂ hused
    change (Function.update s.regValues r none r₂).isSome at hused
    rw [Function.update_of_ne hne₂] at hused
    have hne₁ : r₁ ≠ r := by
      rintro rfl
      exact absurd (hlast r₂ hr₂ hused) (Nat.not_le.mpr hlt)
    change Function.update s.data (s.regIdxToDataIdx r) _ (s.regIdxToDataIdx r₁) <
      Function.update s.data (s.regIdxToDataIdx r) _ (s.regIdxToDataIdx r₂)
    rw [h.data_update hr hr₁ hne₁, h.data_update hr hr₂ hne₂]
    exact hord r₁ hr₁ r₂ hr₂ hlt hused

/-- `r` is the last register in use, and comes before the free ones also by its index. -/
def LastInOrder (s : RegAllocDecisionMaker bank) (r : ℕ) : Prop :=
  s.LastUsed r ∧ ∀ r' < bank.numRegs, s.regValues r' = none → r < r'

/-- One eviction leaves `m_data` ascending exactly if the register may be the first free one. -/
theorem Ascending.evicted_iff (h : s.Consistent) (hasc : s.Ascending) (hr : r < bank.numRegs)
    (hv : s.regValues r = some v) (hout : r ∉ s.outputRegMask) :
    (s.evicted r (s.cbs.left v r)).Ascending ↔ s.LastInOrder r := by
  rw [ascending_iff (h.evicted hr hv hout),
    Ordered.evicted_iff h (hasc.ordered h) hr hv hout, LastInOrder]
  refine and_congr_right fun hlast => ?_
  have hafter : ∀ r' < bank.numRegs, s.regValues r' = none →
      s.regIdxToDataIdx r < s.regIdxToDataIdx r' := fun r' hr' hfree => by
    rcases Nat.lt_trichotomy (s.regIdxToDataIdx r) (s.regIdxToDataIdx r') with hlt | heq | hgt
    · exact hlt
    · rw [← h.dataIdx_inj hr hr' heq, hv] at hfree
      cases hfree
    · have := h.isSome_of_lt (hasc.ordered h) hr' hr hgt (Option.isSome_of_eq_some hv)
      rw [hfree] at this
      cases this
  have hfree : ∀ r' : ℕ, (s.evicted r (s.cbs.left v r)).regValues r' = none ↔
      r' = r ∨ s.regValues r' = none := fun r' => by
    change Function.update s.regValues r none r' = none ↔ _
    by_cases hne : r' = r
    · subst hne
      simp
    · rw [Function.update_of_ne hne, or_iff_right hne]
  constructor
  · intro hindex r' hr' hfree'
    exact hindex r hr r' hr' ((hfree r).mpr (.inl rfl)) ((hfree r').mpr (.inr hfree'))
      (hafter r' hr' hfree')
  · intro hindex r₁ hr₁ r₂ hr₂ hfree₁ hfree₂ hlt
    rcases (hfree r₂).mp hfree₂ with rfl | hold₂
    · rcases (hfree r₁).mp hfree₁ with rfl | hold₁
      · exact absurd hlt (Nat.lt_irrefl _)
      · exact absurd hlt (hafter r₁ hr₁ hold₁).not_gt
    · rcases (hfree r₁).mp hfree₁ with rfl | hold₁
      · exact hindex r₂ hr₂ hold₂
      · exact ((ascending_iff h).mp hasc).2 r₁ hr₁ r₂ hr₂ hold₁ hold₂ hlt

/-- **A death** empties the register and nothing else.  The decisions can still rely on `m_isSorted`
exactly if it was not set, or no register in use comes later. -/
theorem processDeathEvent_spec (h : s.AtRest) (hr : r < bank.numRegs) (hv : s.regValues r = some v)
    (hdead : (s.nextUse v).nextUseIndex = noNextUse) :
    ∃ s', s.processDeathEvent r v = some s' ∧ s'.Consistent ∧ s'.Idle ∧
      (∀ w, s'.IsValAvailableInReg w ↔ w ≠ v ∧ s.IsValAvailableInReg w) ∧
      s'.nextUse = s.nextUse ∧
      (s'.AtRest ↔ (s.isSorted = true → s.LastUsed r)) := by
  have hout : r ∉ s.outputRegMask := Finset.eq_empty_iff_forall_notMem.mp h.idle.2 r
  have hevicted := h.consistent.evicted hr hv hout
  refine ⟨_, ?_, hevicted, h.idle, fun w => ?_, rfl, ?_⟩
  · rw [processDeathEvent, testAssert, if_pos ⟨hv, hdead⟩,
      evictRegisterImpl_eq h.consistent hr hv hout]
  · change (Function.update s.cbs.valReg v none w).isSome ↔ _
    rw [Function.update_apply]
    split_ifs with hne
    · exact iff_of_false (fun hnone => by cases hnone) fun hand => hand.1 hne
    · exact (and_iff_right hne).symm
  · constructor
    · exact fun hrest hsorted =>
        (Ordered.evicted_iff h.consistent (h.ordered hsorted) hr hv hout).mp (hrest.ordered hsorted)
    · exact fun hlast => ⟨hevicted, fun hsorted =>
        (Ordered.evicted_iff h.consistent (h.ordered hsorted) hr hv hout).mpr (hlast hsorted),
        h.idle⟩

/-- The next check after a death passes exactly if `m_isSorted` was not set, or the register is the
last in use and has a smaller index than the free ones. -/
theorem processDeathEvent_assertConsistency_iff (h : s.AtRest) (hassert : s.AssertConsistency)
    (hr : r < bank.numRegs) (hv : s.regValues r = some v)
    (hs' : s.processDeathEvent r v = some s') :
    s'.AssertConsistency ↔ (s.isSorted = true → s.LastInOrder r) := by
  have hout : r ∉ s.outputRegMask := Finset.eq_empty_iff_forall_notMem.mp h.idle.2 r
  have hdead : s.regValues r = some v ∧ (s.nextUse v).nextUseIndex = noNextUse := by
    by_contra hnot
    rw [processDeathEvent, testAssert, if_neg hnot] at hs'
    cases hs'
  rw [processDeathEvent, testAssert, if_pos hdead, evictRegisterImpl_eq h.consistent hr hv hout]
    at hs'
  obtain rfl := Option.some_inj.mp hs'
  rw [RegAllocDecisionMaker.assertConsistency_iff (h.consistent.evicted hr hv hout) h.idle.1]
  exact forall_congr' fun hsorted => Ascending.evicted_iff h.consistent
    (h.assertConsistency_iff.mp hassert hsorted) hr hv hout

/-! ## A stale flag

After a death out of order the flag is stale, and evicting takes a free register for one in use. -/

/-- If `m_isSorted` is set although a register in use comes after a free one, not all registers can
be made free. -/
theorem evictUntil_eq_none (h : s.Consistent) (hidle : s.Idle) (hsorted : s.isSorted = true)
    {r' : ℕ} (hr : r < bank.numRegs) (hfree : s.regValues r = none) (hr' : r' < bank.numRegs)
    (hused : (s.regValues r').isSome) (hlt : s.regIdxToDataIdx r < s.regIdxToDataIdx r') :
    s.evictUntil bank.numRegs false = none := by
  have hmem := (h.mem_usedPlaces hidle.1 hr').mpr hused
  have hcount : 0 < bank.numRegs - s.numScratchRegs := by
    rw [← h.card_usedPlaces hidle.1]
    exact Finset.card_pos.mpr ⟨_, hmem⟩
  have hwork : s.evictUntilScratch bank.numRegs = none := by
    refine Option.eq_none_iff_forall_ne_some.mpr fun s' hs' => ?_
    rw [evictUntilScratch, sortRegisters, if_pos hsorted, if_pos (by omega), Nat.sub_self] at hs'
    have hall := used_of_evictDataIdxs _
      (h.withSorted (s.isSorted && decide (s.numScratchRegs = 0))) hidle.2 (List.nodup_range' ..)
      (fun i hi => by
        have := List.mem_range'_1.mp hi
        omega) hs'
    -- the first places are all in use, so they are all the places in use
    have hrange : Finset.range (bank.numRegs - s.numScratchRegs) = s.usedPlaces := by
      refine Finset.eq_of_subset_of_card_le (fun i hi => ?_) ?_
      · have hi := Finset.mem_range.mp hi
        obtain ⟨r₁, hr₁, rfl⟩ := h.dataIdx_surj i (by omega)
        exact (h.mem_usedPlaces hidle.1 hr₁).mpr
          (hall r₁ hr₁ (List.mem_range'_1.mpr ⟨Nat.zero_le _, by rwa [Nat.zero_add]⟩))
      · rw [h.card_usedPlaces hidle.1, Finset.card_range]
    have hplace : s.regIdxToDataIdx r ∈ s.usedPlaces := by
      rw [← hrange, Finset.mem_range] at hmem ⊢
      exact hlt.trans hmem
    rw [h.mem_usedPlaces hidle.1 hr, hfree] at hplace
    cases hplace
  rw [evictUntil, testAssert, if_pos hidle, shouldRelocate, Bool.and_false, testAssert,
    if_pos ⟨fun hfalse => (by cases hfalse), le_rfl⟩, if_pos (by omega), hwork]
  rfl

/-- **A death can leave `m_isSorted` wrong.**  Room for all registers can still be made exactly if
it was not set or no register in use comes later; where the check of a test build passed before, it
passes afterwards exactly if besides the free registers have greater indices. -/
theorem evictUntil_of_processDeathEvent (h : s.AtRest) (hr : r < bank.numRegs)
    (hv : s.regValues r = some v) (hdead : (s.nextUse v).nextUseIndex = noNextUse) :
    ∃ s', s.processDeathEvent r v = some s' ∧
      ((s'.evictUntil bank.numRegs false).isSome ↔ (s.isSorted = true → s.LastUsed r)) ∧
      (s.AssertConsistency →
        (s'.AssertConsistency ↔ (s.isSorted = true → s.LastInOrder r))) := by
  have hout : r ∉ s.outputRegMask := Finset.eq_empty_iff_forall_notMem.mp h.idle.2 r
  obtain ⟨s', hs', hconsistent, hidle, -, -, hrest⟩ := processDeathEvent_spec h hr hv hdead
  refine ⟨s', hs', ⟨fun hsome hsorted r' hr' hused => ?_, fun hlast => ?_⟩, fun hassert =>
    processDeathEvent_assertConsistency_iff h hassert hr hv hs'⟩
  · by_contra hlt
    have hne : r' ≠ r := by
      rintro rfl
      exact hlt le_rfl
    rw [processDeathEvent, testAssert, if_pos ⟨hv, hdead⟩,
      evictRegisterImpl_eq h.consistent hr hv hout] at hs'
    obtain rfl := Option.some_inj.mp hs'
    have hused' : (Function.update s.regValues r none r').isSome := by
      rwa [Function.update_of_ne hne]
    rw [evictUntil_eq_none hconsistent hidle hsorted hr (Function.update_self ..) hr' hused'
      (Nat.not_le.mp hlt)] at hsome
    cases hsome
  · obtain ⟨s'', hs'', -⟩ := exists_evictUntil hconsistent (hrest.mpr hlast).ordered hidle
      le_rfl (fun _ (hfalse : false = true) => by cases hfalse)
    rw [hs'']
    rfl

/-- Values `8` and `9` are in the first two registers, and neither is used again. -/
def twoDying : RegAllocDecisionMaker .gpr :=
  let s : RegAllocDecisionMaker .gpr :=
    { noneLoaded.loaded 8 0 with cbs := noneLoaded.cbs.entered 8 0 (some 8) }
  ({ s.loaded 9 1 with cbs := s.cbs.entered 9 1 (some 9) } :
    RegAllocDecisionMaker .gpr).sortRegisters

theorem atRest_twoDying : twoDying.AtRest := by
  have hnone : noneLoaded.Consistent := consistent_reset fun _ => noMoreUse
  have hone := hnone.loaded (r := 0) (v := 8) (by decide) fun r hr hv => (by cases hv)
  have htwo := hone.loaded (r := 1) (v := 9) (by decide) fun r hr hv => by
    change Function.update noneLoaded.regValues 0 (some 8) r = some 9 at hv
    rw [Function.update_apply] at hv
    split_ifs at hv
    · cases hv
    · cases hv
  obtain ⟨hconsistent, hascending⟩ := htwo.sort rfl
  exact ⟨hconsistent, fun _ => hascending.ordered hconsistent,
    (sameRegisters_sortRegisters _).idle ⟨rfl, rfl⟩⟩

/-- The first of them dies, and room for all registers cannot be made. -/
theorem evictUntil_of_processDeathEvent_twoDying : twoDying.AtRest ∧
    ∃ s', twoDying.processDeathEvent 0 8 = some s' ∧
      ((s'.evictUntil 7 false).isSome ↔ (twoDying.isSorted = true → twoDying.LastUsed 0)) ∧
      (twoDying.AssertConsistency →
        (s'.AssertConsistency ↔ (twoDying.isSorted = true → twoDying.LastInOrder 0))) :=
  ⟨atRest_twoDying, evictUntil_of_processDeathEvent atRest_twoDying (by decide) (by decide) rfl⟩

example : (twoDying.processDeathEvent 0 8).map (fun s => (s.evictUntil 7 false).isSome) =
    some false := by decide +kernel

end RegAllocDecisionMaker

end Dsom
