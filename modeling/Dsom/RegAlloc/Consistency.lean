import Dsom.RegAlloc.DecisionMaker
import Dsom.Foundations.Folds

/-!
# RegAlloc/Consistency — the invariant of the decision maker

`Consistent` is what `AssertConsistency` checks apart from the order of `m_data` (`Ascending`), and
the primitives keep it.  `Ordered` is the part of the order that the decisions rest on: it leaves
out that the free registers are in the order of their indices.
-/

namespace Dsom

open RegAlloc ValueNextUseInfo

/-! ## Words

A word has the next use in its upper bits, and in the lower ones a mark for free registers and the
register. -/

namespace ValueNextUseInfo

theorem pack_eq (g : Bool) {i : ℕ} (hi : i < 2 ^ 19) :
    pack g i = (g.toNat * 2 ^ 19 + i) * 2 ^ 12 := by
  have hlt : i * 2 ^ 12 < 2 ^ 31 := by omega
  rw [pack, Nat.shiftLeft_eq i, ← Nat.shiftLeft_add_eq_or_of_lt hlt, Nat.shiftLeft_eq]
  omega

theorem exists_value_eq (info : ValueNextUseInfo) : ∃ k < 2 ^ 20, info.value = k * 2 ^ 12 := by
  refine ⟨_, ?_, pack_eq _ info.lt⟩
  have := info.lt
  have := Bool.toNat_lt info.isAllFutureUseGhostUse
  omega

theorem value_noMoreUse : noMoreUse.value = 2 ^ 32 - 2 ^ 12 := by decide

/-- The register index fits behind the next use. -/
theorem value_or (info : ValueNextUseInfo) {c : ℕ} (hc : c < 2 ^ 12) :
    info.value ||| c = info.value + c := by
  obtain ⟨k, -, hk⟩ := info.exists_value_eq
  rw [hk, ← Nat.shiftLeft_eq, Nat.shiftLeft_add_eq_or_of_lt hc]

/-- So is the register. -/
theorem customDataAsU8_value (info : ValueNextUseInfo) {c : ℕ} (hc : c < 2 ^ 8) :
    customDataAsU8 (info.value + c) = c := by
  obtain ⟨k, -, hk⟩ := info.exists_value_eq
  rw [hk, customDataAsU8]
  omega

/-- The next use is read back. -/
theorem nextUseIndexOf_value (info : ValueNextUseInfo) {c : ℕ} (hc : c < 2 ^ 12) :
    nextUseIndexOf (info.value + c) = info.nextUseIndex := by
  have := info.lt
  rw [value, pack_eq _ info.lt, nextUseIndexOf, Nat.shiftRight_eq_div_pow]
  omega

/-- So is the kind of the uses to come. -/
theorem testBit_value (info : ValueNextUseInfo) {c : ℕ} (hc : c < 2 ^ 12) :
    (info.value + c).testBit 31 = info.isAllFutureUseGhostUse := by
  have := info.lt
  rw [value, pack_eq _ info.lt, Nat.testBit_eq_decide_div_mod_eq]
  cases info.isAllFutureUseGhostUse
  · exact decide_eq_false (by simp only [Bool.toNat_false]; omega)
  · exact decide_eq_true (by simp only [Bool.toNat_true]; omega)

theorem compositeValueWithLowerBitsCleared_value (info : ValueNextUseInfo) {c : ℕ}
    (hc : c < 2 ^ 12) : compositeValueWithLowerBitsCleared (info.value + c) = info.value := by
  rw [compositeValueWithLowerBitsCleared, testBit_value info hc, nextUseIndexOf_value info hc]
  rfl

end ValueNextUseInfo

/-! ## Masks -/

theorem find?_pairwise {R : ℕ → ℕ → Prop} {l : List ℕ} (hl : l.Pairwise R) {p : ℕ → Bool}
    (hex : ∃ r ∈ l, p r = true) :
    ∃ r ∈ l, p r = true ∧ l.find? p = some r ∧ ∀ r' ∈ l, p r' = true → r' = r ∨ R r r' := by
  obtain ⟨r, hr⟩ := Option.isSome_iff_exists.mp (List.find?_isSome.mpr hex)
  refine ⟨r, List.mem_of_find?_eq_some hr, List.find?_some hr, hr, fun r' hr' hp => ?_⟩
  obtain ⟨-, before, after, rfl, hbefore⟩ := List.find?_eq_some_iff_append.mp hr
  rcases List.mem_append.mp hr' with h | h
  · have := hbefore r' h
    rw [hp] at this
    cases this
  · rcases List.mem_cons.mp h with rfl | h
    · exact .inl rfl
    · exact .inr ((List.pairwise_cons.mp (List.pairwise_append.mp hl).2.1).1 r' h)

/-- The least register of a mask. -/
theorem RegAllocDecisionMaker.countTrailingZeros_spec {mask : Finset ℕ} (hmask : mask.Nonempty)
    (hlt : ∀ r ∈ mask, r < 16) :
    ∃ r ∈ mask, countTrailingZeros mask = some r ∧ ∀ r' ∈ mask, r ≤ r' := by
  obtain ⟨r₀, hr₀⟩ := hmask
  obtain ⟨r, -, hr, hfind, hle⟩ := find?_pairwise (p := (· ∈ mask)) List.pairwise_lt_range
    ⟨r₀, List.mem_range.mpr (hlt r₀ hr₀), decide_eq_true hr₀⟩
  refine ⟨r, of_decide_eq_true hr, hfind, fun r' hr' => ?_⟩
  rcases hle r' (List.mem_range.mpr (hlt r' hr')) (decide_eq_true hr') with rfl | h
  · exact le_rfl
  · exact h.le

theorem RegAlloc.RegBank.numRegs_le (bank : RegBank) : bank.numRegs ≤ 7 := by
  cases bank <;> decide

@[simp] theorem RegAlloc.RegBank.mem_fullMask {bank : RegBank} {r : ℕ} :
    r ∈ bank.fullMask ↔ r < bank.numRegs := Finset.mem_range

theorem lt_sixteen {bank : RegBank} {mask : Finset ℕ} (h : mask ⊆ bank.fullMask) :
    ∀ r ∈ mask, r < 16 := fun _ hr =>
  (RegBank.mem_fullMask.mp (h hr)).trans_le (bank.numRegs_le.trans (by decide))

/-! ## The invariant -/

namespace RegAllocDecisionMaker

theorem scratchWord_eq {r : ℕ} (hr : r < 2 ^ 8) :
    scratchWord r = noMoreUse.value + 2 ^ 11 + r := by
  have hlow : isScratchMask ||| r = 2 ^ 11 + r := by
    have := Nat.shiftLeft_add_eq_or_of_lt (a := 1) (show r < 2 ^ 11 by omega)
    rw [Nat.shiftLeft_eq, Nat.one_mul] at this
    exact this.symm
  rw [scratchWord, Nat.or_assoc, hlow, value_or _ (by omega), Nat.add_assoc]

/-- `AssertConsistency`, apart from the order, with what the value manager has to agree with. -/
structure Consistent {bank : RegBank} (s : RegAllocDecisionMaker bank) : Prop where
  scratch_subset : s.scratchRegMask ⊆ bank.fullMask
  reserved_subset : s.reservedRegMask ⊆ bank.fullMask
  numScratch : s.numScratchRegs = s.scratchRegMask.card
  disjoint : Disjoint s.scratchRegMask s.reservedRegMask
  free_iff : ∀ r < bank.numRegs,
    s.regValues r = none ↔ r ∈ s.scratchRegMask ∨ r ∈ s.reservedRegMask
  dataIdx_lt : ∀ r < bank.numRegs, s.regIdxToDataIdx r < bank.numRegs
  dataIdx_surj : ∀ i < bank.numRegs, ∃ r < bank.numRegs, s.regIdxToDataIdx r = i
  word_free : ∀ r < bank.numRegs, s.regValues r = none →
    s.data (s.regIdxToDataIdx r) = scratchWord r
  word_used : ∀ r < bank.numRegs, ∀ v, s.regValues r = some v →
    s.data (s.regIdxToDataIdx r) = (s.nextUse v).value + r
  output_used : ∀ r ∈ s.outputRegMask, r < bank.numRegs ∧ (s.regValues r).isSome
  unique : ∀ r < bank.numRegs, ∀ r' < bank.numRegs, ∀ v, s.regValues r = some v →
    s.regValues r' = some v → r = r'
  holder : ∀ r < bank.numRegs,
    s.cbs.holder r = if r ∈ s.outputRegMask then none else s.regValues r
  valReg : ∀ v r, s.cbs.valReg v = some r ↔ r < bank.numRegs ∧ s.cbs.holder r = some v
  content : ∀ r < bank.numRegs, ∀ v, s.cbs.holder r = some v → s.cbs.content r = some v

variable {bank : RegBank} {s : RegAllocDecisionMaker bank} {r v : ℕ}

namespace Consistent

/-- The register is in the low bits of its word. -/
theorem customDataAsU8_data (h : s.Consistent) (hr : r < bank.numRegs) :
    customDataAsU8 (s.data (s.regIdxToDataIdx r)) = r := by
  have hlt := bank.numRegs_le
  cases hv : s.regValues r with
  | none =>
    rw [h.word_free r hr hv, scratchWord_eq (by omega), value_noMoreUse, customDataAsU8]
    omega
  | some v => rw [h.word_used r hr v hv, customDataAsU8_value _ (by omega)]

/-- Two registers have two places. -/
theorem dataIdx_inj (h : s.Consistent) {r' : ℕ} (hr : r < bank.numRegs) (hr' : r' < bank.numRegs)
    (heq : s.regIdxToDataIdx r = s.regIdxToDataIdx r') : r = r' := by
  rw [← h.customDataAsU8_data hr, heq, h.customDataAsU8_data hr']

/-- Writing one word leaves the others. -/
theorem data_update (h : s.Consistent) {r' : ℕ} (hr : r < bank.numRegs) (hr' : r' < bank.numRegs)
    (hne : r' ≠ r) (word : ℕ) :
    Function.update s.data (s.regIdxToDataIdx r) word (s.regIdxToDataIdx r') =
      s.data (s.regIdxToDataIdx r') :=
  Function.update_of_ne (fun heq => hne (h.dataIdx_inj hr' hr heq)) ..

theorem lt_of_scratch (h : s.Consistent) (hr : r ∈ s.scratchRegMask) : r < bank.numRegs :=
  RegBank.mem_fullMask.mp (h.scratch_subset hr)

theorem regValues_scratch (h : s.Consistent) (hr : r ∈ s.scratchRegMask) : s.regValues r = none :=
  (h.free_iff r (h.lt_of_scratch hr)).mpr (.inl hr)

theorem not_scratch (h : s.Consistent) (hv : s.regValues r = some v) : r ∉ s.scratchRegMask :=
  fun hr => by
    rw [h.regValues_scratch hr] at hv
    cases hv

theorem not_reserved (h : s.Consistent) (hv : s.regValues r = some v) : r ∉ s.reservedRegMask :=
  fun hr => by
    have hlt := RegBank.mem_fullMask.mp (h.reserved_subset hr)
    rw [(h.free_iff r hlt).mpr (.inr hr)] at hv
    cases hv

theorem output_not_free (h : s.Consistent) (hr : r ∈ s.outputRegMask) : s.regValues r ≠ none :=
  fun hnone => by
    have := (h.output_used r hr).2
    rw [hnone] at this
    cases this

/-- A free register holds no value. -/
theorem holder_free (h : s.Consistent) (hr : r < bank.numRegs) (hfree : s.regValues r = none) :
    s.cbs.holder r = none := by
  rw [h.holder r hr, hfree]
  split_ifs <;> rfl

/-- A register in use holds its value. -/
theorem holder_used (h : s.Consistent) (hr : r < bank.numRegs) (hv : s.regValues r = some v)
    (hout : r ∉ s.outputRegMask) : s.cbs.holder r = some v := by
  rw [h.holder r hr, if_neg hout, hv]

/-- And the value knows its register. -/
theorem valReg_used (h : s.Consistent) (hr : r < bank.numRegs) (hv : s.regValues r = some v)
    (hout : r ∉ s.outputRegMask) : s.cbs.valReg v = some r :=
  (h.valReg v r).mpr ⟨hr, h.holder_used hr hv hout⟩

/-- A value's register holds it. -/
theorem of_valReg (h : s.Consistent) (hv : s.cbs.valReg v = some r) :
    r < bank.numRegs ∧ s.regValues r = some v ∧ r ∉ s.outputRegMask := by
  obtain ⟨hr, hholder⟩ := (h.valReg v r).mp hv
  rw [h.holder r hr] at hholder
  split_ifs at hholder with hout
  exact ⟨hr, hholder, hout⟩

end Consistent

/-! ## Evictions

The register becomes free, and its word says so. -/

/-- An eviction keeps the state consistent. -/
theorem Consistent.evicted (h : s.Consistent) (hr : r < bank.numRegs) (hv : s.regValues r = some v)
    (hout : r ∉ s.outputRegMask) : (s.evicted r (s.cbs.left v r)).Consistent where
  scratch_subset := Finset.insert_subset (RegBank.mem_fullMask.mpr hr) h.scratch_subset
  reserved_subset := h.reserved_subset
  numScratch := by
    change s.numScratchRegs + 1 = (insert r s.scratchRegMask).card
    rw [Finset.card_insert_of_notMem (h.not_scratch hv), h.numScratch]
  disjoint := Finset.disjoint_insert_left.mpr ⟨h.not_reserved hv, h.disjoint⟩
  free_iff r' hr' := by
    change Function.update s.regValues r none r' = none ↔
      r' ∈ insert r s.scratchRegMask ∨ r' ∈ s.reservedRegMask
    by_cases hne : r' = r
    · subst hne
      simp
    · rw [Function.update_of_ne hne, h.free_iff r' hr', Finset.mem_insert, or_iff_right hne]
  dataIdx_lt := h.dataIdx_lt
  dataIdx_surj := h.dataIdx_surj
  word_free r' hr' hfree := by
    change Function.update s.regValues r none r' = none at hfree
    change Function.update s.data (s.regIdxToDataIdx r) _ (s.regIdxToDataIdx r') = _
    by_cases hne : r' = r
    · subst hne
      rw [Function.update_self]
    · rw [Function.update_of_ne hne] at hfree
      rw [h.data_update hr hr' hne]
      exact h.word_free r' hr' hfree
  word_used r' hr' v' hv' := by
    change Function.update s.regValues r none r' = some v' at hv'
    change Function.update s.data (s.regIdxToDataIdx r) _ (s.regIdxToDataIdx r') = _
    by_cases hne : r' = r
    · subst hne
      rw [Function.update_self] at hv'
      cases hv'
    · rw [Function.update_of_ne hne] at hv'
      rw [h.data_update hr hr' hne]
      exact h.word_used r' hr' v' hv'
  output_used r' hr' := by
    have hne : r' ≠ r := by
      rintro rfl
      exact hout hr'
    refine ⟨(h.output_used r' hr').1, ?_⟩
    change (Function.update s.regValues r none r').isSome
    rw [Function.update_of_ne hne]
    exact (h.output_used r' hr').2
  unique r₁ hr₁ r₂ hr₂ v' hv₁ hv₂ := by
    change Function.update s.regValues r none r₁ = some v' at hv₁
    change Function.update s.regValues r none r₂ = some v' at hv₂
    rw [Function.update_apply] at hv₁ hv₂
    split_ifs at hv₁ hv₂
    exact h.unique r₁ hr₁ r₂ hr₂ v' hv₁ hv₂
  holder r' hr' := by
    change Function.update s.cbs.holder r none r' = if r' ∈ s.outputRegMask then none
      else Function.update s.regValues r none r'
    by_cases hne : r' = r
    · subst hne
      rw [Function.update_self, if_neg hout, Function.update_self]
    · rw [Function.update_of_ne hne, Function.update_of_ne hne, h.holder r' hr']
  valReg v' r' := by
    change Function.update s.cbs.valReg v none v' = some r' ↔
      r' < bank.numRegs ∧ Function.update s.cbs.holder r none r' = some v'
    by_cases hne : r' = r
    · subst hne
      rw [Function.update_self]
      refine ⟨fun heq => ?_, fun heq => by cases heq.2⟩
      rw [Function.update_apply] at heq
      split_ifs at heq with hv'
      have := ((h.valReg v' r').mp heq).2
      rw [h.holder_used hr hv hout] at this
      exact absurd (Option.some_inj.mp this).symm hv'
    · rw [Function.update_of_ne hne, ← h.valReg v' r', Function.update_apply]
      split_ifs with hv'
      · subst hv'
        rw [h.valReg_used hr hv hout, Option.some_inj]
        exact ⟨fun heq => (by cases heq), fun heq => absurd heq.symm hne⟩
      · rfl
  content r' hr' v' hv' := by
    change Function.update s.cbs.holder r none r' = some v' at hv'
    rw [Function.update_apply] at hv'
    split_ifs at hv'
    exact h.content r' hr' v' hv'

/-- `EvictRegisterImpl` of a register in use. -/
theorem evictRegisterImpl_eq (h : s.Consistent) (hr : r < bank.numRegs)
    (hv : s.regValues r = some v) (hout : r ∉ s.outputRegMask) (dueToDeath : Bool) :
    s.evictRegisterImpl r dueToDeath = some (s.evicted r (s.cbs.left v r)) := by
  have hcalls : s.cbs.evictRegister v r = some (s.cbs.left v r) := by
    rw [RegEventCallbacks.evictRegister, testAssert,
      if_pos ⟨h.valReg_used hr hv hout, h.holder_used hr hv hout⟩]
  rw [evictRegisterImpl, testAssert, if_pos hr, hv, Option.bind_some,
    RegEventCallbacks.killRegister, ite_self, hcalls]
  rfl

/-! ## Loads -/

/-- No register holds `v`. -/
def Fresh (s : RegAllocDecisionMaker bank) (v : ℕ) : Prop :=
  ∀ r < bank.numRegs, s.regValues r ≠ some v

theorem Consistent.valReg_fresh (h : s.Consistent) (hv : s.Fresh v) : s.cbs.valReg v = none := by
  cases hreg : s.cbs.valReg v with
  | none => rfl
  | some r =>
    obtain ⟨hr, hvalue, -⟩ := h.of_valReg hreg
    exact absurd hvalue (hv r hr)

/-- A value without a register is fresh. -/
theorem Consistent.fresh_of_valReg (h : s.Consistent) (hout : s.outputRegMask = ∅)
    (hv : s.cbs.valReg v = none) : s.Fresh v := fun r hr hvalue => by
  rw [h.valReg_used hr hvalue (Finset.eq_empty_iff_forall_notMem.mp hout r)] at hv
  cases hv

/-- What loads and births have in common. -/
theorem Consistent.loaded_aux (h : s.Consistent) (hr : r ∈ s.scratchRegMask) (hv : s.Fresh v)
    {output : Finset ℕ} {cbs : RegEventCallbacks}
    (houtput : ∀ r' ∈ output, r' ∈ s.outputRegMask ∨ r' = r)
    (hholder : ∀ r' < bank.numRegs, cbs.holder r' =
      if r' ∈ output then none else Function.update s.regValues r (some v) r')
    (hvalReg : ∀ v' r', cbs.valReg v' = some r' ↔ r' < bank.numRegs ∧ cbs.holder r' = some v')
    (hcontent : ∀ r' < bank.numRegs, ∀ v', cbs.holder r' = some v' → cbs.content r' = some v') :
    ({ s.loaded v r with
      outputRegMask := output
      cbs := cbs } : RegAllocDecisionMaker bank).Consistent where
  scratch_subset := (Finset.erase_subset ..).trans h.scratch_subset
  reserved_subset := h.reserved_subset
  numScratch := by
    change s.numScratchRegs - 1 = (s.scratchRegMask.erase r).card
    rw [Finset.card_erase_of_mem hr, h.numScratch]
  disjoint := Finset.disjoint_of_subset_left (Finset.erase_subset ..) h.disjoint
  free_iff r' hr' := by
    change Function.update s.regValues r (some v) r' = none ↔
      r' ∈ s.scratchRegMask.erase r ∨ r' ∈ s.reservedRegMask
    by_cases hne : r' = r
    · subst hne
      have : r' ∉ s.reservedRegMask := Finset.disjoint_left.mp h.disjoint hr
      simp [this]
    · rw [Function.update_of_ne hne, h.free_iff r' hr', Finset.mem_erase, and_iff_right hne]
  dataIdx_lt := h.dataIdx_lt
  dataIdx_surj := h.dataIdx_surj
  word_free r' hr' hfree := by
    change Function.update s.regValues r (some v) r' = none at hfree
    change Function.update s.data (s.regIdxToDataIdx r) _ (s.regIdxToDataIdx r') = _
    by_cases hne : r' = r
    · subst hne
      rw [Function.update_self] at hfree
      cases hfree
    · rw [Function.update_of_ne hne] at hfree
      rw [h.data_update (h.lt_of_scratch hr) hr' hne]
      exact h.word_free r' hr' hfree
  word_used r' hr' v' hv' := by
    change Function.update s.regValues r (some v) r' = some v' at hv'
    change Function.update s.data (s.regIdxToDataIdx r) _ (s.regIdxToDataIdx r') =
      (s.nextUse v').value + r'
    by_cases hne : r' = r
    · subst hne
      rw [Function.update_self, Option.some_inj] at hv'
      rw [Function.update_self, hv']
    · rw [Function.update_of_ne hne] at hv'
      rw [h.data_update (h.lt_of_scratch hr) hr' hne]
      exact h.word_used r' hr' v' hv'
  output_used r' hr' := by
    change r' < bank.numRegs ∧ (Function.update s.regValues r (some v) r').isSome
    by_cases hne : r' = r
    · subst hne
      rw [Function.update_self]
      exact ⟨h.lt_of_scratch hr, rfl⟩
    · rw [Function.update_of_ne hne]
      exact h.output_used r' ((houtput r' hr').resolve_right hne)
  unique r₁ hr₁ r₂ hr₂ v' hv₁ hv₂ := by
    change Function.update s.regValues r (some v) r₁ = some v' at hv₁
    change Function.update s.regValues r (some v) r₂ = some v' at hv₂
    rw [Function.update_apply] at hv₁ hv₂
    split_ifs at hv₁ hv₂ with h₁ h₂ h₂
    · exact h₁.trans h₂.symm
    · exact absurd (hv₂.trans hv₁.symm) (hv r₂ hr₂)
    · exact absurd (hv₁.trans hv₂.symm) (hv r₁ hr₁)
    · exact h.unique r₁ hr₁ r₂ hr₂ v' hv₁ hv₂
  holder := hholder
  valReg := hvalReg
  content := hcontent

/-- The callbacks after a value has come into a register that held none. -/
theorem Consistent.entered (h : s.Consistent) (hr : r < bank.numRegs)
    (hfree : s.cbs.holder r = none) (hv : s.cbs.valReg v = none) :
    (∀ v' r', (s.cbs.entered v r (some v)).valReg v' = some r' ↔
      r' < bank.numRegs ∧ (s.cbs.entered v r (some v)).holder r' = some v') ∧
    ∀ r' < bank.numRegs, ∀ v', (s.cbs.entered v r (some v)).holder r' = some v' →
      (s.cbs.entered v r (some v)).content r' = some v' := by
  constructor
  · intro v' r'
    change Function.update s.cbs.valReg v (some r) v' = some r' ↔
      r' < bank.numRegs ∧ Function.update s.cbs.holder r (some v) r' = some v'
    rw [Function.update_apply, Function.update_apply]
    split_ifs with hv' hne hne
    · subst hv' hne
      exact ⟨fun _ => ⟨hr, rfl⟩, fun _ => rfl⟩
    · subst hv'
      rw [← h.valReg v' r', hv, Option.some_inj]
      exact ⟨fun heq => absurd heq.symm hne, fun heq => (by cases heq)⟩
    · subst hne
      rw [h.valReg v' r', hfree, Option.some_inj]
      exact ⟨fun heq => (by cases heq.2), fun heq => absurd heq.2.symm hv'⟩
    · exact h.valReg v' r'
  · intro r' hr' v' hv'
    change Function.update s.cbs.holder r (some v) r' = some v' at hv'
    change Function.update s.cbs.content r (some v) r' = some v'
    by_cases hne : r' = r
    · subst hne
      rwa [Function.update_self] at hv' ⊢
    · rw [Function.update_of_ne hne] at hv' ⊢
      exact h.content r' hr' v' hv'

/-- A load keeps the state consistent. -/
theorem Consistent.loaded (h : s.Consistent) (hr : r ∈ s.scratchRegMask) (hv : s.Fresh v) :
    ({ s.loaded v r with cbs := s.cbs.entered v r (some v) } :
      RegAllocDecisionMaker bank).Consistent := by
  have hlt := h.lt_of_scratch hr
  obtain ⟨hvalReg, hcontent⟩ :=
    h.entered hlt (h.holder_free hlt (h.regValues_scratch hr)) (h.valReg_fresh hv)
  refine h.loaded_aux hr hv (fun _ => .inl) (fun r' hr' => ?_) hvalReg hcontent
  change Function.update s.cbs.holder r (some v) r' =
    if r' ∈ s.outputRegMask then none else Function.update s.regValues r (some v) r'
  by_cases hne : r' = r
  · subst hne
    have hout : r' ∉ s.outputRegMask := fun hout =>
      h.output_not_free hout (h.regValues_scratch hr)
    rw [Function.update_self, if_neg hout, Function.update_self]
  · rw [Function.update_of_ne hne, Function.update_of_ne hne, h.holder r' hr']

/-- `LoadValueToGivenRegister` of a fresh value. -/
theorem loadValueToGivenRegister_eq (h : s.Consistent) (hr : r ∈ s.scratchRegMask)
    (hv : s.Fresh v) : s.loadValueToGivenRegister v r false =
      some { s.loaded v r with cbs := s.cbs.entered v r (some v) } := by
  have hlt := h.lt_of_scratch hr
  have hcalls : s.cbs.loadRegister v r = some (s.cbs.entered v r (some v)) := by
    rw [RegEventCallbacks.loadRegister, testAssert,
      if_pos ⟨h.valReg_fresh hv, h.holder_free hlt (h.regValues_scratch hr)⟩]
  rw [loadValueToGivenRegister, testAssert, if_pos ⟨h.valReg_fresh hv, hr⟩, hcalls]
  rfl

/-- An output takes a register; it is in no register as far as the value manager knows. -/
theorem Consistent.born (h : s.Consistent) (hr : r ∈ s.scratchRegMask) (hv : s.Fresh v) :
    ({ s.loaded v r with outputRegMask := insert r s.outputRegMask } :
      RegAllocDecisionMaker bank).Consistent := by
  refine h.loaded_aux hr hv (fun r' hr' => (Finset.mem_insert.mp hr').symm) (fun r' hr' => ?_)
    h.valReg h.content
  by_cases hne : r' = r
  · subst hne
    rw [if_pos (Finset.mem_insert_self ..)]
    exact h.holder_free hr' (h.regValues_scratch hr)
  · rw [Function.update_of_ne hne]
    simp only [Finset.mem_insert, hne, false_or]
    exact h.holder r' hr'

/-- The same for a value that is born. -/
theorem loadValueToGivenRegister_born (h : s.Consistent) (hr : r ∈ s.scratchRegMask)
    (hv : s.Fresh v) : s.loadValueToGivenRegister v r true =
      some { s.loaded v r with outputRegMask := insert r s.outputRegMask } := by
  rw [loadValueToGivenRegister, testAssert, if_pos ⟨h.valReg_fresh hv, hr⟩]
  rfl

/-! ## Moves -/

/-- A move is an eviction and a load, as far as the registers are concerned. -/
theorem relocated_eq (h : s.Consistent) (hr : r < bank.numRegs) (hv : s.regValues r = some v)
    (hout : r ∉ s.outputRegMask) {d : ℕ} (hd : d ∈ s.scratchRegMask) :
    s.relocated v r d ((s.cbs.left v r).entered v d (s.cbs.content r)) =
      { (s.evicted r (s.cbs.left v r)).loaded v d with
        cbs := (s.cbs.left v r).entered v d (some v) } := by
  have hlt := h.lt_of_scratch hd
  have hle := bank.numRegs_le
  have hne : r ≠ d := by
    rintro rfl
    exact h.not_scratch hv hd
  have hidx : s.regIdxToDataIdx d ≠ s.regIdxToDataIdx r := fun heq =>
    hne (h.dataIdx_inj hr hlt heq.symm)
  have hword : compositeValueWithLowerBitsCleared (s.data (s.regIdxToDataIdx r)) ||| d =
      (s.nextUse v).value + d := by
    rw [h.word_used r hr v hv, compositeValueWithLowerBitsCleared_value _ (by omega),
      value_or _ (by omega)]
  rw [relocated, hword, h.content r hr v (h.holder_used hr hv hout), Function.update_comm hidx,
    Function.update_comm hne.symm, ← Finset.erase_insert_of_ne hne]
  rfl

/-- A move keeps the state consistent. -/
theorem Consistent.relocated (h : s.Consistent) (hr : r < bank.numRegs)
    (hv : s.regValues r = some v) (hout : r ∉ s.outputRegMask) {d : ℕ}
    (hd : d ∈ s.scratchRegMask) :
    (s.relocated v r d ((s.cbs.left v r).entered v d (s.cbs.content r))).Consistent := by
  rw [relocated_eq h hr hv hout hd]
  refine (h.evicted hr hv hout).loaded (Finset.mem_insert_of_mem hd) fun r' hr' heq => ?_
  change Function.update s.regValues r none r' = some v at heq
  rw [Function.update_apply] at heq
  split_ifs at heq with hne
  exact hne (h.unique r' hr' r hr v heq hv)

/-- `RelocateRegister` into a free register. -/
theorem relocateRegister_eq (h : s.Consistent) (hr : r < bank.numRegs)
    (hv : s.regValues r = some v) (hout : r ∉ s.outputRegMask) {d : ℕ}
    (hd : d ∈ s.scratchRegMask) :
    s.cbs.relocateRegister v r d = some ((s.cbs.left v r).entered v d (s.cbs.content r)) := by
  have hlt := h.lt_of_scratch hd
  rw [RegEventCallbacks.relocateRegister, testAssert, if_pos ⟨h.valReg_used hr hv hout,
    h.holder_used hr hv hout, h.holder_free hlt (h.regValues_scratch hd)⟩]

/-! ## Next uses -/

/-- A value in no register gets another next use. -/
theorem Consistent.updateValNextUseInfo (h : s.Consistent) (hv : s.Fresh v)
    (info : ValueNextUseInfo) : (s.updateValNextUseInfo v info).Consistent :=
  { h with
    word_used := fun r' hr' v' hv' => by
      have hne : v' ≠ v := by
        rintro rfl
        exact hv r' hr' hv'
      change s.data (s.regIdxToDataIdx r') = (Function.update s.nextUse v info v').value + r'
      rw [Function.update_of_ne hne]
      exact h.word_used r' hr' v' hv' }

/-- A value in a register gets another next use, in both places. -/
theorem Consistent.updateNextUse (h : s.Consistent) (hr : r < bank.numRegs)
    (hv : s.regValues r = some v) (use : ValueUseRAInfo) :
    ((s.updateValNextUseInfo v use.nextUseInfo).updateNextUseInfo r use).Consistent :=
  { h with
    word_free := fun r' hr' hfree => by
      have hne : r' ≠ r := by
        rintro rfl
        cases hv.symm.trans hfree
      change Function.update s.data (s.regIdxToDataIdx r) _ (s.regIdxToDataIdx r') = _
      rw [h.data_update hr hr' hne]
      exact h.word_free r' hr' hfree
    word_used := fun r' hr' v' hv' => by
      change Function.update s.data (s.regIdxToDataIdx r) (use.nextUseInfo.value ||| r)
        (s.regIdxToDataIdx r') = (Function.update s.nextUse v use.nextUseInfo v').value + r'
      have hle := bank.numRegs_le
      by_cases hne : r' = r
      · subst hne
        obtain rfl : v = v' := Option.some_inj.mp (hv.symm.trans hv')
        rw [Function.update_self, Function.update_self, value_or _ (by omega)]
      · have hvne : v' ≠ v := by
          rintro rfl
          exact hne (h.unique r' hr' r hr v' hv' hv)
        rw [h.data_update hr hr' hne, Function.update_of_ne hvne]
        exact h.word_used r' hr' v' hv' }

/-- `m_isSorted` is not part of the invariant. -/
theorem Consistent.withSorted (h : s.Consistent) (isSorted : Bool) :
    ({ s with isSorted := isSorted } : RegAllocDecisionMaker bank).Consistent := { h with }

/-! ## Sorting -/

/-- What `AssertConsistency` demands of `m_data` if `m_isSorted` is set. -/
def Ascending (s : RegAllocDecisionMaker bank) : Prop :=
  ∀ i j, i < j → j < bank.numRegs → s.data i < s.data j

/-- The registers in use come first, by their next use; the free ones may be in any order. -/
def Ordered (s : RegAllocDecisionMaker bank) : Prop :=
  ∀ r < bank.numRegs, ∀ r' < bank.numRegs, s.regIdxToDataIdx r < s.regIdxToDataIdx r' →
    (s.regValues r').isSome → s.data (s.regIdxToDataIdx r) < s.data (s.regIdxToDataIdx r')

/-- If all the words are in order, those in use come first. -/
theorem Ascending.ordered (hasc : s.Ascending) (h : s.Consistent) : s.Ordered :=
  fun _ _ r' hr' hlt _ => hasc _ _ hlt (h.dataIdx_lt r' hr')

/-- Registers other than `m_data` and its order stay as they are. -/
structure SameRegisters (s s' : RegAllocDecisionMaker bank) : Prop where
  numScratchRegs : s'.numScratchRegs = s.numScratchRegs
  scratchRegMask : s'.scratchRegMask = s.scratchRegMask
  reservedRegMask : s'.reservedRegMask = s.reservedRegMask
  outputRegMask : s'.outputRegMask = s.outputRegMask
  regValues : s'.regValues = s.regValues
  nextUse : s'.nextUse = s.nextUse
  cbs : s'.cbs = s.cbs

theorem SameRegisters.refl (s : RegAllocDecisionMaker bank) : SameRegisters s s :=
  ⟨rfl, rfl, rfl, rfl, rfl, rfl, rfl⟩

/-- The registers are the same all along. -/
theorem SameRegisters.trans {s s' s'' : RegAllocDecisionMaker bank} (h : SameRegisters s s')
    (h' : SameRegisters s' s'') : SameRegisters s s'' :=
  ⟨h'.numScratchRegs.trans h.numScratchRegs, h'.scratchRegMask.trans h.scratchRegMask,
    h'.reservedRegMask.trans h.reservedRegMask, h'.outputRegMask.trans h.outputRegMask,
    h'.regValues.trans h.regValues, h'.nextUse.trans h.nextUse, h'.cbs.trans h.cbs⟩

theorem SameRegisters.idle {s s' : RegAllocDecisionMaker bank} (h : SameRegisters s s')
    (hidle : s.Idle) : s'.Idle :=
  ⟨h.reservedRegMask.trans hidle.1, h.outputRegMask.trans hidle.2⟩

theorem sameRegisters_sortRegisters (s : RegAllocDecisionMaker bank) :
    SameRegisters s s.sortRegisters := by
  rw [sortRegisters]
  split_ifs <;> exact ⟨rfl, rfl, rfl, rfl, rfl, rfl, rfl⟩

/-- Whatever order `m_data` is in, the registers keep their words. -/
theorem Consistent.reorder (h : s.Consistent) {data : ℕ → ℕ} {idx : ℕ → ℕ} {isSorted : Bool}
    (hlt : ∀ r < bank.numRegs, idx r < bank.numRegs)
    (hsurj : ∀ i < bank.numRegs, ∃ r < bank.numRegs, idx r = i)
    (hdata : ∀ r < bank.numRegs, data (idx r) = s.data (s.regIdxToDataIdx r)) :
    ({ s with
      data := data
      regIdxToDataIdx := idx
      isSorted := isSorted } : RegAllocDecisionMaker bank).Consistent :=
  { h with
    dataIdx_lt := hlt
    dataIdx_surj := hsurj
    word_free := fun r hr hfree => (hdata r hr).trans (h.word_free r hr hfree)
    word_used := fun r hr v hv => (hdata r hr).trans (h.word_used r hr v hv) }

/-- Sorting keeps the registers and puts their words in order. -/
theorem Consistent.sort (h : s.Consistent) (hsorted : s.isSorted = false) :
    s.sortRegisters.Consistent ∧ s.sortRegisters.Ascending := by
  rw [RegAllocDecisionMaker.sortRegisters, if_neg (by rw [hsorted]; exact Bool.false_ne_true)]
  have hlength : bank.numRegs ≤ SortingNetwork.maxLength := bank.numRegs_le.trans (by decide)
  obtain ⟨hle, σ, hσ, hrun⟩ := SortingNetwork.isSorted_sortAscend hlength s.data
  generalize SortingNetwork.sortAscend bank.numRegs s.data = data at hle hrun
  dsimp only
  -- `σ i` is where the word at `i` was
  have hσlt : ∀ i, σ i < bank.numRegs ↔ i < bank.numRegs := by
    intro i
    constructor
    · intro hi
      by_contra hge
      rw [hσ i (Nat.not_lt.mp hge)] at hi
      exact hge hi
    · intro hi
      by_contra hge
      rw [σ.injective (hσ (σ i) (Nat.not_lt.mp hge))] at hge
      exact hge hi
  have hdata : ∀ i, data i = s.data (σ i) := congrFun hrun
  have hplace : ∀ i < bank.numRegs, ∃ r < bank.numRegs, s.regIdxToDataIdx r = σ i ∧
      customDataAsU8 (data i) = r := by
    intro i hi
    obtain ⟨r, hr, hidx⟩ := h.dataIdx_surj (σ i) ((hσlt i).mpr hi)
    exact ⟨r, hr, hidx, by rw [hdata, ← hidx, h.customDataAsU8_data hr]⟩
  have hinj : ∀ i ∈ List.range bank.numRegs, ∀ j ∈ List.range bank.numRegs,
      customDataAsU8 (data i) = customDataAsU8 (data j) → i = j := by
    intro i hi j hj heq
    obtain ⟨r, -, hri, hr⟩ := hplace i (List.mem_range.mp hi)
    obtain ⟨r', -, hrj, hr'⟩ := hplace j (List.mem_range.mp hj)
    refine σ.injective ?_
    rw [← hri, ← hrj, ← hr, ← hr', heq]
  have hidx : ∀ i < bank.numRegs, (List.range bank.numRegs).foldl
      (fun f i => Function.update f (customDataAsU8 (data i)) i) s.regIdxToDataIdx
      (customDataAsU8 (data i)) = i := fun i hi =>
    Folds.foldl_update hinj s.regIdxToDataIdx (List.mem_range.mpr hi)
  generalize (List.range bank.numRegs).foldl _ s.regIdxToDataIdx = idx at hidx
  have hback : ∀ r < bank.numRegs, idx r = σ.symm (s.regIdxToDataIdx r) ∧ idx r < bank.numRegs := by
    intro r hr
    have hlt : σ.symm (s.regIdxToDataIdx r) < bank.numRegs :=
      (hσlt _).mp (by rw [Equiv.apply_symm_apply]; exact h.dataIdx_lt r hr)
    obtain ⟨r', hr', hri, hr⟩ := hplace _ hlt
    rw [Equiv.apply_symm_apply] at hri
    obtain rfl := h.dataIdx_inj hr' ‹_› hri
    have := hidx _ hlt
    rw [hr] at this
    exact ⟨this, this ▸ hlt⟩
  have hwords : ∀ r < bank.numRegs, data (idx r) = s.data (s.regIdxToDataIdx r) := fun r hr => by
    rw [(hback r hr).1, hdata, Equiv.apply_symm_apply]
  refine ⟨h.reorder (fun r hr => (hback r hr).2) (fun i hi => ?_) hwords, ?_⟩
  · obtain ⟨r, hr, -, hri⟩ := hplace i hi
    exact ⟨r, hr, by rw [← hri, hidx i hi]⟩
  · intro i j hlt hj
    refine lt_of_le_of_ne (hle i j hlt.le hj) fun heq => hlt.ne ?_
    exact hinj i (List.mem_range.mpr (hlt.trans hj)) j (List.mem_range.mpr hj)
      (congrArg customDataAsU8 heq)

/-- **Sorting**, where what is sorted may have its free registers in any order. -/
theorem Consistent.sortRegisters (h : s.Consistent) (hord : s.isSorted = true → s.Ordered) :
    s.sortRegisters.Consistent ∧ s.sortRegisters.Ordered := by
  cases hsorted : s.isSorted with
  | true =>
    rw [RegAllocDecisionMaker.sortRegisters, if_pos hsorted]
    exact ⟨h, hord hsorted⟩
  | false => exact (h.sort hsorted).imp_right fun hasc => hasc.ordered (h.sort hsorted).1

/-- After sorting the words are in order. -/
theorem Consistent.ascending_sortRegisters (h : s.Consistent)
    (hasc : s.isSorted = true → s.Ascending) : s.sortRegisters.Ascending := by
  cases hsorted : s.isSorted with
  | true =>
    rw [RegAllocDecisionMaker.sortRegisters, if_pos hsorted]
    exact hasc hsorted
  | false => exact (h.sort hsorted).2

/-! ## The start -/

/-- The start is consistent. -/
theorem consistent_reset (nextUse : ℕ → ValueNextUseInfo) :
    (reset nextUse : RegAllocDecisionMaker bank).Consistent where
  scratch_subset := Finset.Subset.refl _
  reserved_subset := Finset.empty_subset _
  numScratch := (Finset.card_range _).symm
  disjoint := Finset.disjoint_empty_right _
  free_iff r hr := iff_of_true rfl (.inl (RegBank.mem_fullMask.mpr hr))
  dataIdx_lt r hr := hr
  dataIdx_surj i hi := ⟨i, hi, rfl⟩
  word_free r hr _ := by
    have hle := bank.numRegs_le
    rw [scratchWord_eq (by omega), ← value_or _ (show 2 ^ 11 < 2 ^ 12 by decide)]
    rfl
  word_used r hr v hv := by cases hv
  output_used r hr := absurd hr (Finset.notMem_empty r)
  unique r hr r' hr' v hv := by cases hv
  holder r hr := (ite_self none).symm
  valReg v r := ⟨fun hv => (by cases hv), fun hv => (by cases hv.2)⟩
  content r hr v hv := by cases hv

/-- The start is in order. -/
theorem ascending_reset (nextUse : ℕ → ValueNextUseInfo) :
    (reset nextUse : RegAllocDecisionMaker bank).Ascending :=
  fun _ _ hlt _ => Nat.add_lt_add_left hlt _

end RegAllocDecisionMaker

end Dsom
