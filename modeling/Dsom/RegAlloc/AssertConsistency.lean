import Dsom.RegAlloc.EvictUntil

/-!
# RegAlloc/AssertConsistency — the check of a test build

`AssertConsistency` itself.  A consistent state passes it exactly if `m_data` ascends wherever
`m_isSorted` is set.  `EvictUntil` and `SpillEverything` do not see to that: they leave `m_isSorted`
set over free registers that need not be in the order of their indices.
-/

namespace Dsom

open RegAlloc ValueNextUseInfo

namespace RegAllocDecisionMaker

variable {bank : RegBank} {s s' s'' : RegAllocDecisionMaker bank} {r v : ℕ}

/-! ## The check

What `AssertConsistency` asks of the value manager is asked of the callbacks. -/

/-- `m_data[i] & x_isScratchMask`. -/
def isScratchWord (word : ℕ) : Bool := word.testBit 11

/-- What is checked of the word at one place of `m_data`. -/
def AssertWord (s : RegAllocDecisionMaker bank) (i : ℕ) : Prop :=
  (nextUseIndexOf (s.data i) = noNextUse → (s.data i).testBit 31 = true) ∧
  (isScratchWord (s.data i) = true → nextUseIndexOf (s.data i) = noNextUse) ∧
  customDataAsU8 (s.data i) < bank.numRegs ∧
  (isScratchWord (s.data i) = false ↔ (s.regValues (customDataAsU8 (s.data i))).isSome) ∧
  (customDataAsU8 (s.data i) ∈ s.outputRegMask →
    (s.regValues (customDataAsU8 (s.data i))).isSome) ∧
  (∀ v ∈ s.regValues (customDataAsU8 (s.data i)),
    (s.nextUse v).isAllFutureUseGhostUse = (s.data i).testBit 31 ∧
    (s.nextUse v).nextUseIndex = nextUseIndexOf (s.data i) ∧
    s.cbs.valReg v = if customDataAsU8 (s.data i) ∈ s.outputRegMask then none
      else some (customDataAsU8 (s.data i))) ∧
  (s.isSorted = true →
    (s.regValues (customDataAsU8 (s.data i)) = none ↔ bank.numRegs - s.numScratchRegs ≤ i))

/-- `AssertConsistency`. -/
def AssertConsistency (s : RegAllocDecisionMaker bank) : Prop :=
  s.scratchRegMask ⊆ bank.fullMask ∧
  s.numScratchRegs = s.scratchRegMask.card ∧
  Disjoint s.reservedRegMask s.scratchRegMask ∧
  (∀ r < bank.numRegs,
    r ∉ s.scratchRegMask ∧ r ∉ s.reservedRegMask ↔ (s.regValues r).isSome) ∧
  (∀ r < bank.numRegs, s.regIdxToDataIdx r < bank.numRegs ∧
    (∀ r' < r, s.regIdxToDataIdx r' ≠ s.regIdxToDataIdx r) ∧
    customDataAsU8 (s.data (s.regIdxToDataIdx r)) = r) ∧
  Disjoint s.outputRegMask s.scratchRegMask ∧
  (∀ i < bank.numRegs, s.AssertWord i) ∧
  (s.isSorted = true → ∀ i < bank.numRegs, 0 < i → s.data (i - 1) < s.data i)

instance (i : ℕ) : Decidable (s.AssertWord i) := by
  unfold AssertWord
  infer_instance

instance : Decidable s.AssertConsistency := by
  unfold AssertConsistency
  infer_instance

/-! ## What passes it

A consistent state passes the check if the words are in order where the flag says so. -/

/-- The mark of a scratch register is above every register index. -/
theorem isScratchWord_value (info : ValueNextUseInfo) {c : ℕ} (hc : c < 2 ^ 12) :
    isScratchWord (info.value + c) = decide (2 ^ 11 ≤ c) := by
  obtain ⟨k, -, hk⟩ := info.exists_value_eq
  rw [hk, isScratchWord, Nat.testBit_eq_decide_div_mod_eq]
  exact decide_eq_decide.mpr (by omega)

/-- The word of a register passes the check. -/
theorem Consistent.assertWord (h : s.Consistent) (hr : r < bank.numRegs)
    (hsorted : s.isSorted = true →
      (s.regValues r = none ↔ bank.numRegs - s.numScratchRegs ≤ s.regIdxToDataIdx r)) :
    s.AssertWord (s.regIdxToDataIdx r) := by
  have hle := bank.numRegs_le
  rw [AssertWord, h.customDataAsU8_data hr]
  cases hv : s.regValues r with
  | none =>
    have hword : s.data (s.regIdxToDataIdx r) = noMoreUse.value + (2 ^ 11 + r) := by
      rw [h.word_free r hr hv, scratchWord_eq (by omega), Nat.add_assoc]
    rw [hword, nextUseIndexOf_value _ (by omega), testBit_value _ (by omega),
      isScratchWord_value _ (by omega)]
    refine ⟨fun _ => rfl, fun _ => rfl, hr, ?_, fun hout => ?_, fun v hv => (by cases hv),
      fun hs => (by rw [← hsorted hs, hv])⟩
    · rw [decide_eq_true (Nat.le_add_right ..)]
      simp
    · exact absurd hv (h.output_not_free hout)
  | some v =>
    rw [h.word_used r hr v hv, nextUseIndexOf_value _ (by omega), testBit_value _ (by omega),
      isScratchWord_value _ (by omega)]
    have hlow : decide (2 ^ 11 ≤ r) = false := decide_eq_false (by omega)
    refine ⟨(s.nextUse v).ghost, fun hmark => ?_, hr, iff_of_true hlow rfl, fun _ => rfl, ?_,
      fun hs => (by rw [← hsorted hs, hv])⟩
    · rw [hlow] at hmark
      cases hmark
    · rintro v' hv'
      obtain rfl : v = v' := Option.some_inj.mp hv'
      refine ⟨rfl, rfl, ?_⟩
      split_ifs with hout
      · -- an output that is not born yet
        cases hreg : s.cbs.valReg v with
        | none => rfl
        | some r' =>
          obtain ⟨hr', hv', hnot⟩ := h.of_valReg hreg
          rw [← h.unique r hr r' hr' v hv hv'] at hnot
          exact absurd hout hnot
      · exact h.valReg_used hr hv hout

/-- It is enough to compare neighbours, as the check does. -/
theorem ascending_iff_adjacent :
    s.Ascending ↔ ∀ i < bank.numRegs, 0 < i → s.data (i - 1) < s.data i := by
  refine ⟨fun hasc i hi hpos => hasc _ _ (Nat.sub_lt hpos Nat.one_pos) hi,
    fun hadj i j hlt hj => ?_⟩
  induction j with
  | zero => cases hlt
  | succ j ih =>
    have hnext := hadj (j + 1) hj (Nat.succ_pos j)
    rcases Nat.lt_succ_iff_lt_or_eq.mp hlt with hlt | rfl
    · exact (ih hlt (Nat.lt_of_succ_lt hj)).trans hnext
    · exact hnext

/-- **A consistent state passes the check exactly if `m_data` ascends where it should.** -/
theorem assertConsistency_iff (h : s.Consistent) (hreserved : s.reservedRegMask = ∅) :
    s.AssertConsistency ↔ (s.isSorted = true → s.Ascending) := by
  refine ⟨fun hassert hsorted =>
    ascending_iff_adjacent.mpr (hassert.2.2.2.2.2.2.2 hsorted), fun hasc => ?_⟩
  refine ⟨h.scratch_subset, h.numScratch, h.disjoint.symm, fun r hr => ?_, fun r hr =>
    ⟨h.dataIdx_lt r hr, fun r' hlt heq => ?_, h.customDataAsU8_data hr⟩, ?_, fun i hi => ?_,
    fun hsorted => ascending_iff_adjacent.mp (hasc hsorted)⟩
  · rw [← not_or, ← h.free_iff r hr, ← ne_eq, Option.ne_none_iff_isSome]
  · exact hlt.ne (h.dataIdx_inj (hlt.trans hr) hr heq)
  · exact Finset.disjoint_left.mpr fun r hout hr =>
      h.output_not_free hout (h.regValues_scratch hr)
  · obtain ⟨r, hr, rfl⟩ := h.dataIdx_surj i hi
    refine h.assertWord hr fun hsorted => ?_
    rw [← Nat.not_lt, ← h.isSome_iff ((hasc hsorted).ordered h) hreserved hr,
      Option.not_isSome_iff_eq_none]

/-! ## The order of the free registers

Registers in use come first, by next use; free ones follow by their index. -/

/-- The order that the decisions rest on, and that of the free registers. -/
theorem ascending_iff (h : s.Consistent) :
    s.Ascending ↔ s.Ordered ∧ ∀ r < bank.numRegs, ∀ r' < bank.numRegs, s.regValues r = none →
      s.regValues r' = none → s.regIdxToDataIdx r < s.regIdxToDataIdx r' → r < r' := by
  have hle := bank.numRegs_le
  have hfree : ∀ r < bank.numRegs, s.regValues r = none →
      s.data (s.regIdxToDataIdx r) = noMoreUse.value + 2 ^ 11 + r := fun r hr hv => by
    rw [h.word_free r hr hv, scratchWord_eq (by omega)]
  constructor
  · refine fun hasc => ⟨hasc.ordered h, fun r hr r' hr' hv hv' hlt => ?_⟩
    have hdata := hasc _ _ hlt (h.dataIdx_lt r' hr')
    rw [hfree r hr hv, hfree r' hr' hv'] at hdata
    omega
  · rintro ⟨hord, hindex⟩ i j hlt hj
    obtain ⟨r, hr, rfl⟩ := h.dataIdx_surj i (hlt.trans hj)
    obtain ⟨r', hr', rfl⟩ := h.dataIdx_surj j hj
    cases hv' : s.regValues r' with
    | some v' => exact hord r hr r' hr' hlt (Option.isSome_of_eq_some hv')
    | none =>
      rw [hfree r' hr' hv']
      cases hv : s.regValues r with
      | none =>
        rw [hfree r hr hv]
        exact Nat.add_lt_add_left (hindex r hr r' hr' hv hv' hlt) _
      | some v =>
        -- the word of a value is below every scratch word
        obtain ⟨k, hk, hvalue⟩ := (s.nextUse v).exists_value_eq
        rw [h.word_used r hr v hv, hvalue, value_noMoreUse]
        omega

/-! ## After `EvictUntil`

The flag is kept where no register was free before, though the order may have been lost. -/

/-- Nothing is moved if group 1 is free. -/
theorem relocateIf_of_free {relocate : Bool}
    (hroom : relocate = true → numGroup1Gprs ≤ s.numScratchRegs)
    (hfree : relocate = true → ∀ r, firstGroup1GprIdx ≤ r → r < RegBank.gpr.numRegs →
      s.regValues r = none) : s.relocateIf relocate = some s := by
  cases relocate with
  | false => rfl
  | true =>
    rw [relocateIf, if_pos rfl, relocateToTurnAllGroup1GprIntoScratch, testAssert,
      if_pos (hroom rfl)]
    obtain ⟨s', hs', rfl⟩ : ∃ s', (List.range' firstGroup1GprIdx numGroup1Gprs).foldlM
        (fun s regIdx => s.relocateGroup1Gpr regIdx) s = some s' ∧ s' = s := by
      refine Folds.foldlM_prefix (P := fun _ s' => s' = s) rfl ?_
      rintro done r rest t hl rfl
      obtain ⟨hfirst, hr⟩ := mem_group1.mp (hl ▸ List.mem_append_right _ List.mem_cons_self)
      exact ⟨t, by rw [relocateGroup1Gpr, hfree rfl r hfirst hr], rfl⟩
    exact hs'

/-- `m_isSorted` survives the moves exactly if there are none. -/
theorem relocateIf_isSorted (h : s.Consistent) (hidle : s.Idle) {relocate : Bool}
    (hroom : relocate = true → bank = .gpr ∧ numGroup1Gprs ≤ s.numScratchRegs)
    (hs' : s.relocateIf relocate = some s') (hsorted : s'.isSorted = true) :
    s' = s ∧ (relocate = true →
      ∀ r, firstGroup1GprIdx ≤ r → r < bank.numRegs → s.regValues r = none) := by
  obtain ⟨t, ht, hmoves, hfree⟩ := exists_relocateIf h hidle.2 relocate
    (fun _ r hr => absurd hr (Finset.eq_empty_iff_forall_notMem.mp hidle.1 r)) hroom
  obtain rfl := Option.some_inj.mp (hs'.symm.trans ht)
  obtain rfl := hmoves.isSorted hsorted
  exact ⟨rfl, fun hrelocate r hfirst hr =>
    h.regValues_scratch (hfree hrelocate r hfirst hr)⟩

/-- `EvictUntil` evicts the registers in the order of their indices, or has to move a value out of
group 1 afterwards. -/
def EvictsInOrder (s : RegAllocDecisionMaker bank) (desired : ℕ) (should : Bool) : Prop :=
  (∀ r < bank.numRegs, ∀ r' < bank.numRegs,
    bank.numRegs - desired ≤ s.sortRegisters.regIdxToDataIdx r →
    s.sortRegisters.regIdxToDataIdx r < s.sortRegisters.regIdxToDataIdx r' → r < r') ∨
  shouldRelocate bank should = true ∧ ∃ r < bank.numRegs, firstGroup1GprIdx ≤ r ∧
    s.sortRegisters.regIdxToDataIdx r < bank.numRegs - desired

/-- What the evictions of a full bank leave in the registers. -/
theorem Evicts.regValues_of_full (h : s.Consistent) (hidle : s.Idle)
    (hfull : s.numScratchRegs = 0) {desired : ℕ} (hd : desired ≤ bank.numRegs)
    (hevicts : Evicts (List.range' (bank.numRegs - desired) desired) s s') (hr : r < bank.numRegs) :
    s'.regValues r = none ↔ bank.numRegs - desired ≤ s.regIdxToDataIdx r := by
  have hempty : s.scratchRegMask = ∅ := Finset.card_eq_zero.mp (h.numScratch ▸ hfull)
  have hused : s.regValues r ≠ none := fun hnone => by
    have := (h.mem_scratch_iff hidle.1 hr).mpr hnone
    rw [hempty] at this
    exact absurd this (Finset.notMem_empty r)
  have hlt := h.dataIdx_lt r hr
  rw [hevicts.regValues r hr]
  split_ifs with hplace
  · exact iff_of_true rfl (List.mem_range'_1.mp hplace).1
  · refine iff_of_false hused fun hge => hplace (List.mem_range'_1.mpr ⟨hge, ?_⟩)
    omega

/-- **`EvictUntil` on a full bank** evicts in the order of the next uses and keeps `m_isSorted`. -/
theorem evictUntil_of_full (h : s.Consistent) (hord : s.isSorted = true → s.Ordered)
    (hidle : s.Idle) (hfull : s.numScratchRegs = 0) {desired : ℕ} (hpos : 0 < desired)
    (hd : desired ≤ bank.numRegs) {relocate : Bool}
    (hroom : relocate = true → bank = .gpr ∧ numGroup1Gprs ≤ desired)
    (hs' : (s.evictUntilScratch desired).bind (fun s => s.relocateIf relocate) = some s') :
    (s'.isSorted = true → s'.Ascending) ↔
      (∀ r < bank.numRegs, ∀ r' < bank.numRegs,
        bank.numRegs - desired ≤ s.sortRegisters.regIdxToDataIdx r →
        s.sortRegisters.regIdxToDataIdx r < s.sortRegisters.regIdxToDataIdx r' → r < r') ∨
      relocate = true ∧ ∃ r < bank.numRegs, firstGroup1GprIdx ≤ r ∧
        s.sortRegisters.regIdxToDataIdx r < bank.numRegs - desired := by
  have hsame := sameRegisters_sortedForEviction s
  obtain ⟨hsorted, hord'⟩ := h.sortRegisters hord
  have ht : s.sortedForEviction.Consistent := hsorted.withSorted _
  obtain ⟨t, ht', hevicts⟩ := exists_evicts_evictUntilScratch h hord hidle hd (hfull ▸ hpos)
  rw [hfull, Nat.sub_zero] at hevicts
  rw [ht', Option.bind_some] at hs'
  have hfull' : s.sortedForEviction.numScratchRegs = 0 := hsame.numScratchRegs.trans hfull
  have hmakes : MakesRoom desired s.sortedForEviction t := by
    refine Evicts.makesRoom ht hord' (hsame.idle hidle) (hfull' ▸ hpos) hd ?_
    rwa [hfull', Nat.sub_zero]
  have hidx : t.regIdxToDataIdx = s.sortRegisters.regIdxToDataIdx := hevicts.regIdxToDataIdx
  have hfree : ∀ r < bank.numRegs, t.regValues r = none ↔
      bank.numRegs - desired ≤ s.sortRegisters.regIdxToDataIdx r := fun r hr =>
    hevicts.regValues_of_full ht (hsame.idle hidle) hfull' hd hr
  have htsorted : t.isSorted = true := by
    rw [hevicts.isSorted, sortedForEviction, Bool.and_eq_true, decide_eq_true_iff]
    refine ⟨?_, (sameRegisters_sortRegisters s).numScratchRegs.trans hfull⟩
    rw [sortRegisters]
    split_ifs with hs
    · exact hs
    · rfl
  have hroom' : relocate = true → bank = .gpr ∧ numGroup1Gprs ≤ t.numScratchRegs := fun hr =>
    ⟨(hroom hr).1, hmakes.numScratchRegs ▸ (hroom hr).2⟩
  -- without a move, the evicted registers have to be in order
  have hascending : t.Ascending ↔ ∀ r < bank.numRegs, ∀ r' < bank.numRegs,
      bank.numRegs - desired ≤ s.sortRegisters.regIdxToDataIdx r →
      s.sortRegisters.regIdxToDataIdx r < s.sortRegisters.regIdxToDataIdx r' → r < r' := by
    rw [ascending_iff hevicts.consistent, and_iff_right (hmakes.ordered htsorted), hidx]
    refine forall₂_congr fun r hr => forall₂_congr fun r' hr' => ?_
    rw [hfree r hr, hfree r' hr']
    exact ⟨fun hall hge hlt => hall hge (hge.trans hlt.le) hlt, fun hall hge _ => hall hge⟩
  constructor
  · intro hkeeps
    by_contra hnot
    obtain ⟨hnot, hnomove⟩ := not_or.mp hnot
    have hgroup1 : relocate = true → ∀ r, firstGroup1GprIdx ≤ r → r < RegBank.gpr.numRegs →
        t.regValues r = none := fun hr r hfirst hlt => by
      obtain ⟨rfl, -⟩ := hroom hr
      by_contra hused
      exact hnomove ⟨hr, r, hlt, hfirst,
        Nat.not_le.mp fun hge => hused ((hfree r hlt).mpr hge)⟩
    rw [relocateIf_of_free (fun hr => (hroom' hr).2) hgroup1] at hs'
    obtain rfl := Option.some_inj.mp hs'
    exact hnot (hascending.mp (hkeeps htsorted))
  · rintro hor hsorted'
    obtain ⟨rfl, hgroup1⟩ :=
      relocateIf_isSorted hevicts.consistent hmakes.idle hroom' hs' hsorted'
    rcases hor with hinorder | ⟨hr, r, hlt, hfirst, hplace⟩
    · exact hascending.mpr hinorder
    · exact absurd ((hfree r hlt).mp (hgroup1 hr r hfirst hlt)) (Nat.not_le.mpr hplace)

/-- **The last check of `EvictUntil`** fails only on a bank without free registers: exactly if the
registers are evicted out of order and none is moved. -/
theorem evictUntil_assertConsistency_iff (h : s.Consistent) (hasc : s.isSorted = true → s.Ascending)
    (hidle : s.Idle) {desired : ℕ} (hd : desired ≤ bank.numRegs) {should : Bool}
    (hroom : bank = .gpr → should = true → numGroup1Gprs ≤ desired)
    {info : RegAllocPassthruAndScratchRegInfo}
    (hs' : s.evictUntil desired should = some (info, s')) :
    s'.AssertConsistency ↔ (s.numScratchRegs = 0 → s.EvictsInOrder desired should) := by
  have hord : s.isSorted = true → s.Ordered := fun hs => (hasc hs).ordered h
  have hrelocate : shouldRelocate bank should = true → bank = .gpr ∧ numGroup1Gprs ≤ desired :=
    of_shouldRelocate hroom
  obtain ⟨_, heq, hmakes, -⟩ := exists_evictUntil h hord hidle hd hroom
  obtain ⟨-, rfl⟩ := Prod.mk.inj (Option.some_inj.mp (hs'.symm.trans heq))
  rw [assertConsistency_iff hmakes.consistent hmakes.idle.1]
  rw [evictUntil, testAssert, if_pos hidle, testAssert, if_pos ⟨fun hr => (hrelocate hr).2, hd⟩]
    at hs'
  obtain ⟨_, hwork, heq⟩ := Option.map_eq_some_iff.mp hs'
  obtain ⟨-, rfl⟩ := Prod.mk.inj heq
  split_ifs at hwork with hpos
  · by_cases hfull : s.numScratchRegs = 0
    · rw [evictUntil_of_full h hord hidle hfull hpos hd hrelocate hwork]
      exact ⟨fun hor _ => hor, fun hall => hall hfull⟩
    · refine iff_of_true (fun hsorted => ?_) fun hzero => absurd hzero hfull
      obtain ⟨t, ht, hmakes'⟩ := exists_evictUntilScratch h hord hidle hd
      rw [ht, Option.bind_some] at hwork
      have hroom' : shouldRelocate bank should = true →
          bank = .gpr ∧ numGroup1Gprs ≤ t.numScratchRegs := fun hr =>
        ⟨(hrelocate hr).1, hmakes'.numScratchRegs ▸ (hrelocate hr).2.trans (le_max_right ..)⟩
      obtain ⟨rfl, -⟩ :=
        relocateIf_isSorted hmakes'.consistent hmakes'.idle hroom' hwork hsorted
      rcases Nat.lt_or_ge s.numScratchRegs desired with hlt | hle
      · -- `m_isSorted` is cleared before the first eviction
        obtain ⟨t', ht', hevicts⟩ := exists_evicts_evictUntilScratch h hord hidle hd hlt
        obtain rfl := Option.some_inj.mp (ht.symm.trans ht')
        rw [hevicts.isSorted, sortedForEviction, (sameRegisters_sortRegisters s).numScratchRegs,
          decide_eq_false hfull, Bool.and_false] at hsorted
        cases hsorted
      · rw [evictUntilScratch_of_le hle] at ht
        obtain rfl := Option.some_inj.mp ht
        exact h.ascending_sortRegisters hasc
  · obtain rfl := Option.some_inj.mp hwork
    refine iff_of_true hasc fun _ => .inl fun r hr r' hr' hge hlt => ?_
    have := ((h.sortRegisters hord).1).dataIdx_lt r hr
    omega

/-! ## After `SpillEverything`

It evicts in the order of the indices, wherever the registers are in `m_data`. -/

/-- The registers are in `m_data` in the order of their indices. -/
def InIndexOrder (s : RegAllocDecisionMaker bank) : Prop :=
  ∀ r < bank.numRegs, ∀ r' < bank.numRegs,
    s.regIdxToDataIdx r < s.regIdxToDataIdx r' → r < r'

/-- **The last check of `SpillEverything`** fails exactly if `m_isSorted` is set over registers that
are in another order than that of their indices. -/
theorem spillEverything_assertConsistency_iff (h : s.Consistent) (hidle : s.Idle)
    (hs' : s.spillEverything = some s') :
    s'.AssertConsistency ↔ (s.isSorted = true → s.InIndexOrder) := by
  obtain ⟨_, heq, h', hord, hidle', hnone, -, hidx, hsorted⟩ := spillEverything_spec h hidle
  obtain rfl := Option.some_inj.mp (hs'.symm.trans heq)
  have hfree : ∀ r < bank.numRegs, s'.regValues r = none := fun r hr => by
    by_contra hused
    obtain ⟨v, hv⟩ := Option.ne_none_iff_exists'.mp hused
    have := h'.valReg_used hr hv (Finset.eq_empty_iff_forall_notMem.mp hidle'.2 r)
    rw [hnone v] at this
    cases this
  rw [assertConsistency_iff h' hidle'.1, ascending_iff h', and_iff_right hord, hsorted, hidx]
  refine imp_congr_right fun _ => ?_
  exact ⟨fun hall r hr r' hr' => hall r hr r' hr' (hfree r hr) (hfree r' hr'),
    fun hall r hr r' hr' _ _ => hall r hr r' hr'⟩

end RegAllocDecisionMaker

end Dsom
