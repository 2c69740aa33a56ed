import Dsom.RegAlloc.EvictUntil

/-!
# RegAlloc/CheckOperand — a register for the operand of a check

`WorkForCodegenCheck` brings the operand into a register without evicting it.
-/

namespace Dsom

open RegAlloc ValueNextUseInfo RegAllocPassthruAndScratchRegInfo

namespace RegAllocDecisionMaker

variable {bank : RegBank} {s s' s'' : RegAllocDecisionMaker bank} {r v : ℕ}

/-! ## Evictions around the operand

The operand's own register is left out, wherever it stands among the last places. -/

/-- The last places that are not the operand's. -/
structure LastPlaces (placesEnd count : ℕ) (operand : Option ℕ) (places : List ℕ) : Prop where
  nodup : places.Nodup
  length : places.length = count
  lt : ∀ i ∈ places, i < placesEnd
  ne : ∀ i ∈ places, operand ≠ some i
  last : ∀ i ∈ places, ∀ j < placesEnd, j ∉ places → operand ≠ some j → j < i

/-- The last places without that of the operand. -/
theorem lastPlaces_filter {b e : ℕ} (operand : Option ℕ) :
    LastPlaces e (e - b - (operand.any fun i => b ≤ i ∧ i < e).toNat) operand
      ((List.range' b (e - b)).filter fun i => operand ≠ some i) := by
  have hmem : ∀ i, i ∈ (List.range' b (e - b)).filter (fun i => operand ≠ some i) ↔
      (b ≤ i ∧ i < e) ∧ operand ≠ some i := fun i => by
    rw [List.mem_filter, List.mem_range'_1, decide_eq_true_iff]
    exact and_congr_left fun _ => by omega
  have hnodup : ((List.range' b (e - b)).filter fun i => operand ≠ some i).Nodup :=
    (List.nodup_range' ..).filter _
  refine ⟨hnodup, ?_, fun i hi => ((hmem i).mp hi).1.2, fun i hi => ((hmem i).mp hi).2,
    fun i hi j hj hnot hne => ?_⟩
  · have hfinset : ((List.range' b (e - b)).filter fun i => operand ≠ some i).toFinset =
        (Finset.Ico b e).filter fun i => operand ≠ some i := by
      ext i
      rw [List.mem_toFinset, hmem, Finset.mem_filter, Finset.mem_Ico]
    rw [← List.toFinset_card_of_nodup hnodup, hfinset]
    cases operand with
    | none =>
      rw [Finset.filter_true_of_mem fun i _ => by simp, Nat.card_Ico]
      rfl
    | some k =>
      have herase : ((Finset.Ico b e).filter fun i => some k ≠ some i) =
          (Finset.Ico b e).erase k := by
        ext i
        rw [Finset.mem_filter, Finset.mem_erase, and_comm, ne_eq, Option.some_inj, ne_eq, eq_comm]
      rw [herase, Finset.card_erase_eq_ite, Nat.card_Ico, Option.any_some]
      split_ifs with hk
      · rw [decide_eq_true (Finset.mem_Ico.mp hk)]
        rfl
      · rw [decide_eq_false fun hmem => hk (Finset.mem_Ico.mpr hmem)]
        rfl
  · by_contra hle
    have := ((hmem i).mp hi).1.1
    exact hnot ((hmem j).mpr ⟨⟨by omega, hj⟩, hne⟩)

/-- One more place is taken if that of the operand is skipped. -/
theorem exists_checkEvictions (operand : Option ℕ) {n : ℕ} (hlt : s.numScratchRegs < n)
    (hn : n ≤ bank.numRegs) (hroom : operand.isSome → n < bank.numRegs) :
    ∃ places, s.checkEvictions n operand = some places ∧
      LastPlaces (bank.numRegs - s.numScratchRegs) (n - s.numScratchRegs) operand places := by
  have hpos : (operand.any fun i => bank.numRegs - n ≤ i ∧ i < bank.numRegs - s.numScratchRegs) →
      0 < bank.numRegs - n := fun hany => by
    cases operand with
    | none => cases hany
    | some k => exact Nat.sub_pos_of_lt (hroom rfl)
  refine ⟨_, by rw [checkEvictions, testAssert, if_pos hpos], ?_⟩
  generalize hb : bank.numRegs - n = b at hpos ⊢
  generalize he : bank.numRegs - s.numScratchRegs = e at hpos ⊢
  have hcount : ∀ b', b' = b - (operand.any fun i => b ≤ i ∧ i < e).toNat →
      n - s.numScratchRegs = e - b' - (operand.any fun i => b' ≤ i ∧ i < e).toNat := by
    rintro b' rfl
    cases operand with
    | none =>
      rw [Option.any_none, Option.any_none, Bool.toNat_false]
      omega
    | some k =>
      rw [Option.any_some] at hpos ⊢
      by_cases hk : b ≤ k ∧ k < e
      · have := hpos (decide_eq_true hk)
        rw [decide_eq_true hk, Bool.toNat_true, Option.any_some, decide_eq_true (by omega),
          Bool.toNat_true]
        omega
      · rw [decide_eq_false hk, Bool.toNat_false, Nat.sub_zero, Option.any_some, decide_eq_false hk,
          Bool.toNat_false]
        omega
  rw [hcount _ rfl]
  exact lastPlaces_filter operand

/-- `s'` is `s` with values evicted, but not `v`. -/
structure EvictsAround (v numScratchRegs : ℕ) (s s' : RegAllocDecisionMaker bank) : Prop where
  consistent : s'.Consistent
  idle : s'.Idle
  nextUse : s'.nextUse = s.nextUse
  numScratchRegs : s'.numScratchRegs = numScratchRegs
  valReg : s'.cbs.valReg v = s.cbs.valReg v
  available : ∀ w, s'.IsValAvailableInReg w → s.IsValAvailableInReg w
  soonest : ∀ w w', s.IsValAvailableInReg w → ¬ s'.IsValAvailableInReg w →
    s'.IsValAvailableInReg w' → w' ≠ v → (s.nextUse w').value ≤ (s.nextUse w).value

/-- Evicting the last places but one. -/
theorem Evicts.around (h : s.Consistent) (hord : s.Ordered) (hidle : s.Idle) {places : List ℕ}
    {count : ℕ} (hplaces : LastPlaces (bank.numRegs - s.numScratchRegs) count
      ((s.cbs.valReg v).map s.regIdxToDataIdx) places) (hevicts : Evicts places s s') :
    EvictsAround v (s.numScratchRegs + count) s s' := by
  have havailable : ∀ w, s'.IsValAvailableInReg w → s.IsValAvailableInReg w := fun w hw => by
    obtain ⟨r, hr, hw, -⟩ := (hevicts.isValAvailableInReg_iff hidle).mp hw
    exact (h.isValAvailableInReg_iff hidle.2).mpr ⟨r, hr, hw⟩
  refine ⟨hevicts.consistent, hevicts.idle hidle, hevicts.nextUse, ?_, ?_, havailable, ?_⟩
  · rw [hevicts.numScratchRegs, hplaces.length]
  · cases hv : s.cbs.valReg v with
    | none =>
      refine Option.not_isSome_iff_eq_none.mp fun hsome => ?_
      have := havailable v hsome
      rw [IsValAvailableInReg, hv] at this
      cases this
    | some r =>
      obtain ⟨hr, hvalue, -⟩ := h.of_valReg hv
      have hkept : s'.regValues r = some v := by
        rw [hevicts.regValues r hr, if_neg fun hmem => hplaces.ne _ hmem (by rw [hv]; rfl), hvalue]
      exact hevicts.consistent.valReg_used hr hkept
        (Finset.eq_empty_iff_forall_notMem.mp (hevicts.idle hidle).2 r)
  · intro w w' hw hnot hw' hne
    refine hevicts.value_le h hord hidle hw hnot hw' fun i hi r hr hvalue hkept => ?_
    refine hplaces.last i hi _ ((h.isSome_iff hord hidle.1 hr).mp (Option.isSome_of_eq_some hvalue))
      hkept fun heq => ?_
    -- the place of the operand
    obtain ⟨r', hr', hplace⟩ := Option.map_eq_some_iff.mp heq
    obtain ⟨hlt, hv, -⟩ := h.of_valReg hr'
    rw [h.dataIdx_inj hlt hr hplace, hvalue] at hv
    exact hne (Option.some_inj.mp hv)

/-- Room can be made around the operand. -/
theorem exists_evictAround (h : s.Consistent) (hord : s.Ordered) (hidle : s.Idle) (v : ℕ) {n : ℕ}
    (hn : n ≤ bank.numRegs) (hroom : (s.cbs.valReg v).isSome → n < bank.numRegs) :
    ∃ s', (if s.numScratchRegs < n then
        (s.checkEvictions n ((s.cbs.valReg v).map s.regIdxToDataIdx)).bind s.evictDataIdxs
      else some s) = some s' ∧ EvictsAround v (max s.numScratchRegs n) s s' := by
  split_ifs with hlt
  · obtain ⟨places, hcheck, hplaces⟩ := exists_checkEvictions
      ((s.cbs.valReg v).map s.regIdxToDataIdx) hlt hn fun hsome => hroom (by
        rwa [Option.isSome_map] at hsome)
    obtain ⟨s', hs', hevicts⟩ := exists_evictDataIdxs places h hidle.2 hplaces.nodup
      (fun i hi => (hplaces.lt i hi).trans_le (Nat.sub_le ..)) fun r hr hmem =>
        (h.isSome_iff hord hidle.1 hr).mpr (hplaces.lt _ hmem)
    refine ⟨s', by rw [hcheck]; exact hs', ?_⟩
    have haround := hevicts.around h hord hidle hplaces
    rwa [Nat.add_sub_cancel' hlt.le, ← max_eq_right hlt.le] at haround
  · refine ⟨s, rfl, h, hidle, rfl, (max_eq_left (Nat.not_lt.mp hlt)).symm, rfl, fun _ => id,
      fun w w' hw hnot => absurd hw hnot⟩

/-! ## The operand in its register -/

/-- `s'` is `s` with the operand in a register and used. -/
structure UsesOperand (use : ValueUseRAInfo) (s s' : RegAllocDecisionMaker bank) : Prop where
  consistent : s'.Consistent
  isSorted : s'.isSorted = false
  idle : s'.Idle
  nextUse : s'.nextUse = Function.update s.nextUse use.ssaValue use.nextUseInfo
  numScratchRegs :
    s'.numScratchRegs = s.numScratchRegs - (s.cbs.valReg use.ssaValue).isNone.toNat
  available : ∀ v, s'.IsValAvailableInReg v ↔ v = use.ssaValue ∨ s.IsValAvailableInReg v

/-- The operand is in a register, or is loaded into a free one. -/
theorem exists_useCheckOperand (h : s.Consistent) (hidle : s.Idle) (use : ValueUseRAInfo)
    (hfree : s.cbs.valReg use.ssaValue = none → 0 < s.numScratchRegs) :
    ∃ s', s.useCheckOperand use (s.cbs.valReg use.ssaValue) = some s' ∧ UsesOperand use s s' := by
  cases hval : s.cbs.valReg use.ssaValue with
  | none =>
    let t := s.updateValNextUseInfo use.ssaValue use.nextUseInfo
    have hfresh : s.Fresh use.ssaValue := h.fresh_of_valReg hidle.2 hval
    have ht : t.Consistent := h.updateValNextUseInfo hfresh use.nextUseInfo
    have hnonempty : t.scratchRegMask.Nonempty := by
      rw [← Finset.card_pos, ← ht.numScratch]
      exact hfree hval
    obtain ⟨d, hd, hfind, -⟩ := countTrailingZeros_spec hnonempty (lt_sixteen ht.scratch_subset)
    refine ⟨_, ?_, ht.loaded hd hfresh, rfl, hidle, rfl, ?_, fun v => ?_⟩
    · rw [useCheckOperand, loadValueToRegister, hfind, Option.bind_some,
        loadValueToGivenRegister_eq ht hd hfresh]
      rfl
    · rw [hval]
      rfl
    · change (Function.update s.cbs.valReg use.ssaValue (some d) v).isSome ↔ _
      rw [Function.update_apply]
      split_ifs with hne
      · exact iff_of_true rfl (.inl hne)
      · exact (or_iff_right hne).symm
  | some r =>
    obtain ⟨hr, hvalue, -⟩ := h.of_valReg hval
    refine ⟨_, ?_, h.updateNextUse hr hvalue use, rfl, hidle, rfl, ?_, fun v => ?_⟩
    · rw [useCheckOperand, testAssert, if_pos hval]
    · rw [hval]
      rfl
    · refine (or_iff_right_of_imp ?_).symm
      rintro rfl
      exact Option.isSome_of_eq_some hval

/-! ## The whole operation -/

/-- `s'` is `s` with the operand in a register and used, and room made by evicting other values,
those first that are used last. -/
structure MakesRoomFor (use : ValueUseRAInfo) (numScratchRegs : ℕ)
    (s s' : RegAllocDecisionMaker bank) : Prop where
  consistent : s'.Consistent
  isSorted : s'.isSorted = false
  idle : s'.Idle
  nextUse : s'.nextUse = Function.update s.nextUse use.ssaValue use.nextUseInfo
  numScratchRegs : s'.numScratchRegs = numScratchRegs
  operand : s'.IsValAvailableInReg use.ssaValue
  available : ∀ v, s'.IsValAvailableInReg v → v = use.ssaValue ∨ s.IsValAvailableInReg v
  soonest : ∀ v v', s.IsValAvailableInReg v → ¬ s'.IsValAvailableInReg v →
    s'.IsValAvailableInReg v' → v' ≠ use.ssaValue → (s.nextUse v').value ≤ (s.nextUse v).value

/-- The three steps, one after the other. -/
theorem EvictsAround.makesRoomFor {use : ValueUseRAInfo} {n : ℕ} {t : RegAllocDecisionMaker bank}
    (haround : EvictsAround use.ssaValue n s s') (huses : UsesOperand use s' s'')
    (hmoves : Moves s'' t) :
    MakesRoomFor use (n - (s.cbs.valReg use.ssaValue).isNone.toNat) s t where
  consistent := hmoves.consistent
  isSorted := by
    by_contra hsorted
    have hsame := hmoves.isSorted (Bool.eq_true_of_not_eq_false hsorted)
    exact hsorted (hsame ▸ huses.isSorted)
  idle := hmoves.idle huses.idle
  nextUse := by rw [hmoves.nextUse, huses.nextUse, haround.nextUse]
  numScratchRegs := by
    rw [hmoves.numScratchRegs, huses.numScratchRegs, haround.numScratchRegs, haround.valReg]
  operand := (hmoves.available _).mpr ((huses.available _).mpr (.inl rfl))
  available v hv := ((huses.available v).mp ((hmoves.available v).mp hv)).imp_right
    (haround.available v)
  soonest v v' hv hnot hv' hne := by
    refine haround.soonest v v' hv (fun hv => hnot ?_) ?_ hne
    · exact (hmoves.available v).mpr ((huses.available v).mpr (.inr hv))
    · exact ((huses.available v').mp ((hmoves.available v').mp hv')).resolve_left hne

/-- Only the registers matter. -/
theorem MakesRoomFor.of_same {use : ValueUseRAInfo} {n : ℕ} (h : SameRegisters s s')
    (hroom : MakesRoomFor use n s' s'') : MakesRoomFor use n s s'' where
  consistent := hroom.consistent
  isSorted := hroom.isSorted
  idle := hroom.idle
  nextUse := by rw [hroom.nextUse, h.nextUse]
  numScratchRegs := hroom.numScratchRegs
  operand := hroom.operand
  available v hv := by
    have := hroom.available v hv
    rwa [IsValAvailableInReg, h.cbs] at this
  soonest v v' hv hnot hv' hne := by
    rw [← h.nextUse]
    exact hroom.soonest v v' (by rwa [IsValAvailableInReg, h.cbs]) hnot hv' hne

/-- The operand comes into a register, there is room for the node, and the node is told about other
registers that are free. -/
theorem exists_workForCodegenCheck (h : s.Consistent) (hord : s.isSorted = true → s.Ordered)
    (hidle : s.Idle) {use : ValueUseRAInfo} (hdup : use.isDuplicateEdge = false) {required : ℕ}
    (hreq : required < bank.numRegs) {should : Bool}
    (hroom : bank = .gpr → should = true → numGroup1Gprs ≤ required) :
    ∃ r s', s.workForCodegenCheck use required should =
        some (⟨r, init bank s'.scratchRegMask.card s'.scratchRegMask
          ((bank.fullMask \ s'.scratchRegMask).erase r) required⟩, s') ∧
      MakesRoomFor use
        (max (s.numScratchRegs - (s.cbs.valReg use.ssaValue).isNone.toNat) required) s s' ∧
      s'.cbs.valReg use.ssaValue = some r ∧ required ≤ s'.numScratchRegs ∧
      (shouldRelocate bank should = true →
        ∀ r, firstGroup1GprIdx ≤ r → r < bank.numRegs → r ∈ s'.scratchRegMask) := by
  have hsame := sameRegisters_sortRegisters s
  obtain ⟨hsorted, hord'⟩ := h.sortRegisters hord
  rw [workForCodegenCheck]
  generalize s.sortRegisters = t at hsame hsorted hord'
  have hrelocate : shouldRelocate bank should = true → bank = .gpr ∧ numGroup1Gprs ≤ required :=
    of_shouldRelocate hroom
  let t' : RegAllocDecisionMaker bank := { t with isSorted := false }
  have hsame' : SameRegisters s t' := hsame.trans ⟨rfl, rfl, rfl, rfl, rfl, rfl, rfl⟩
  have hidle' : t'.Idle := hsame'.idle hidle
  rw [← hsame'.numScratchRegs, ← hsame'.cbs]
  -- what has to be free for the operand and the node
  have hbit := Bool.toNat_le (t'.cbs.valReg use.ssaValue).isNone
  have hn : required + (t'.cbs.valReg use.ssaValue).isNone.toNat ≤ bank.numRegs := by omega
  obtain ⟨s₁, hs₁, haround⟩ := exists_evictAround (s := t') (hsorted.withSorted false) hord' hidle'
    use.ssaValue hn fun hsome => by
      rw [Option.isNone_eq_false_iff.mpr hsome]
      exact hreq
  have hcount : ∀ a k : ℕ, max a (required + k) - k = max (a - k) required := fun a k => by omega
  obtain ⟨s₂, hs₂, huses⟩ :=
    exists_useCheckOperand haround.consistent haround.idle use fun hnone => by
      rw [haround.valReg] at hnone
      rw [haround.numScratchRegs, hnone]
      exact lt_of_lt_of_le (Nat.succ_pos required) (le_max_right ..)
  have hscratch₂ : required ≤ s₂.numScratchRegs := by
    rw [huses.numScratchRegs, haround.numScratchRegs, haround.valReg, hcount]
    exact le_max_right ..
  obtain ⟨s', hs', hmoves, hfree⟩ := exists_relocateIf huses.consistent
    huses.idle.2 (shouldRelocate bank should)
    (fun _ r hr => absurd hr (Finset.eq_empty_iff_forall_notMem.mp huses.idle.1 r)) fun hr =>
      ⟨(hrelocate hr).1, (hrelocate hr).2.trans hscratch₂⟩
  have hroomFor := haround.makesRoomFor huses hmoves
  rw [hcount] at hroomFor
  obtain ⟨r, hr⟩ := Option.isSome_iff_exists.mp hroomFor.operand
  refine ⟨r, s', ?_, hroomFor.of_same hsame', hr, ?_, hfree⟩
  · rw [haround.valReg] at hs₂
    rw [testAssert, if_pos hidle, testAssert, if_pos hdup, testAssert,
      if_pos fun hr => (hrelocate hr).2, testAssert, if_pos hn]
    refine (congrArg (Option.bind · _) hs₁).trans ?_
    rw [Option.bind_some, hs₂, Option.bind_some, hs', Option.bind_some, hr, Option.map_some,
      hmoves.consistent.numScratch]
  · rw [hmoves.numScratchRegs]
    exact hscratch₂

/-- **`WorkForCodegenCheck`** never fails.  The operand is in the register that the node is told,
with its next use in place; of the other values in registers those are kept that are used soonest;
and the other registers are described as the node wants them. -/
theorem workForCodegenCheck_spec (h : s.Consistent) (hord : s.isSorted = true → s.Ordered)
    (hidle : s.Idle) {use : ValueUseRAInfo} (hdup : use.isDuplicateEdge = false) {required : ℕ}
    (hreq : required < bank.numRegs) {should : Bool}
    (hroom : bank = .gpr → should = true → numGroup1Gprs ≤ required) :
    ∃ d s', s.workForCodegenCheck use required should = some (d, s') ∧
      MakesRoomFor use
        (max (s.numScratchRegs - (s.cbs.valReg use.ssaValue).isNone.toNat) required) s s' ∧
      s'.cbs.valReg use.ssaValue = some d.inputRegIdx ∧
      s'.cbs.content d.inputRegIdx = some use.ssaValue ∧
      Describes bank s'.scratchRegMask ((bank.fullMask \ s'.scratchRegMask).erase d.inputRegIdx)
        required d.nonOperandRegInfo ∧
      (bank = .gpr → should = true → ∀ r, firstGroup1GprIdx ≤ r → r < bank.numRegs →
        r ∈ d.nonOperandRegInfo.scratchRegs bank) := by
  obtain ⟨r, s', hs', hmakes, hr, hscratch, hfree⟩ :=
    exists_workForCodegenCheck h hord hidle hdup hreq hroom
  obtain ⟨hlt, hholder⟩ := (hmakes.consistent.valReg _ r).mp hr
  have hcard : required ≤ s'.scratchRegMask.card := by
    rwa [← hmakes.consistent.numScratch]
  obtain ⟨hdescribes, hgroup1⟩ :=
    init_spec hmakes.consistent.scratch_subset hcard ((bank.fullMask \ s'.scratchRegMask).erase r)
  exact ⟨_, s', hs', hmakes, hr, hmakes.consistent.content r hlt _ hholder, hdescribes,
    fun hgpr hshould r hfirst hr => hgroup1 hgpr (hroom hgpr hshould) r
      (hfree (shouldRelocate_eq_true.mpr ⟨hgpr, hshould⟩) r hfirst hr) hfirst⟩

/-- The operand has to be moved out of group 1. -/
theorem workForCodegenCheck_spec_oneLoaded : oneLoaded.Consistent ∧
    ∃ d s', oneLoaded.workForCodegenCheck ⟨4, false, noMoreUse⟩ 2 true = some (d, s') ∧
      MakesRoomFor ⟨4, false, noMoreUse⟩
        (max (oneLoaded.numScratchRegs - (oneLoaded.cbs.valReg 4).isNone.toNat) 2) oneLoaded s' ∧
      s'.cbs.valReg 4 = some d.inputRegIdx ∧ s'.cbs.content d.inputRegIdx = some 4 ∧
      Describes .gpr s'.scratchRegMask
        ((RegBank.gpr.fullMask \ s'.scratchRegMask).erase d.inputRegIdx) 2 d.nonOperandRegInfo ∧
      (RegBank.gpr = .gpr → true = true → ∀ r, firstGroup1GprIdx ≤ r → r < RegBank.gpr.numRegs →
        r ∈ d.nonOperandRegInfo.scratchRegs .gpr) :=
  ⟨consistent_oneLoaded,
    workForCodegenCheck_spec consistent_oneLoaded (fun hsorted => (by cases hsorted)) ⟨rfl, rfl⟩ rfl
      (by decide) fun _ _ => by decide⟩

end RegAllocDecisionMaker

end Dsom
