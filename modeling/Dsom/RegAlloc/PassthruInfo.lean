import Dsom.RegAlloc.Consistency

/-!
# RegAlloc/PassthruInfo — which registers a node may use

`RegAllocPassthruAndScratchRegInfo` describes every register that holds no operand: it is passed
through or scratch, and exactly as many are scratch as the node wants (`init_spec`).
-/

namespace Dsom

open RegAlloc

/-- The first bits of a mask. -/
theorem getFirstKOnesInUint8Val_spec {mask : Finset ℕ} (hlt : ∀ r ∈ mask, r < 8) {k : ℕ}
    (hk : k ≤ mask.card) :
    getFirstKOnesInUint8Val mask k ⊆ mask ∧ (getFirstKOnesInUint8Val mask k).card = k := by
  let l := (List.range 8).filter (· ∈ mask)
  have hnodup : l.Nodup := List.nodup_range.filter _
  have hmem : ∀ r, r ∈ l ↔ r ∈ mask := fun r => by
    rw [List.mem_filter, List.mem_range, decide_eq_true_iff]
    exact and_iff_right_of_imp (hlt r)
  have hlength : l.length = mask.card := by
    rw [← List.toFinset_card_of_nodup hnodup]
    exact congrArg Finset.card (Finset.ext fun r => List.mem_toFinset.trans (hmem r))
  constructor
  · exact fun r hr => (hmem r).mp (List.mem_of_mem_take (List.mem_toFinset.mp hr))
  · rw [getFirstKOnesInUint8Val,
      List.toFinset_card_of_nodup (hnodup.sublist (List.take_sublist ..)), List.length_take]
    exact Nat.min_eq_left (hk.trans hlength.ge)

namespace RegAllocPassthruAndScratchRegInfo

variable {bank : RegBank} {group1 group2 change : Finset ℕ} {r : ℕ}

/-- The ordinal of the first register of group 1; in the other bank all registers are in it. -/
def group1Begin : RegBank → ℕ
  | .gpr => firstGroup1GprIdx
  | .fpr => 0

/-- The registers that two masks stand for. -/
def decode (bank : RegBank) (group1 group2 : Finset ℕ) : Finset ℕ :=
  group1.image (· + group1Begin bank) ∪ group2

/-- What a pair of masks stands for. -/
theorem mem_decode (h₂ : ∀ k ∈ group2, k < group1Begin bank) :
    r ∈ decode bank group1 group2 ↔
      if group1Begin bank ≤ r then r - group1Begin bank ∈ group1 else r ∈ group2 := by
  rw [decode, Finset.mem_union, Finset.mem_image]
  split_ifs with hr
  · constructor
    · rintro (⟨k, hk, rfl⟩ | hmem)
      · rwa [Nat.add_sub_cancel]
      · exact absurd (h₂ r hmem) (Nat.not_lt.mpr hr)
    · exact fun hmem => .inl ⟨_, hmem, Nat.sub_add_cancel hr⟩
  · refine ⟨fun hmem => hmem.resolve_left ?_, .inr⟩
    rintro ⟨k, -, rfl⟩
    exact hr (Nat.le_add_left ..)

theorem card_decode (h₂ : ∀ k ∈ group2, k < group1Begin bank) :
    (decode bank group1 group2).card = group1.card + group2.card := by
  rw [decode, Finset.card_union_of_disjoint,
    Finset.card_image_of_injective _ (add_left_injective (group1Begin bank))]
  refine Finset.disjoint_left.mpr fun r hr hr₂ => ?_
  obtain ⟨k, -, rfl⟩ := Finset.mem_image.mp hr
  exact absurd (h₂ _ hr₂) (Nat.not_lt.mpr (Nat.le_add_left ..))

/-- The registers of a bank that the callee may use as scratch. -/
def scratchRegs (bank : RegBank) (i : RegAllocPassthruAndScratchRegInfo) : Finset ℕ :=
  decode bank i.group1ScratchIdxMask i.group2ScratchIdxMask

/-- The registers of a bank that pass through the callee. -/
def passthruRegs (bank : RegBank) (i : RegAllocPassthruAndScratchRegInfo) : Finset ℕ :=
  decode bank i.group1PassthruIdxMask i.group2PassthruIdxMask

/-- Group 2 ends before group 1. -/
def Group2Bounded (bank : RegBank) (i : RegAllocPassthruAndScratchRegInfo) : Prop :=
  ∀ k ∈ i.group2ScratchIdxMask ∪ i.group2PassthruIdxMask, k < group1Begin bank

variable {i : RegAllocPassthruAndScratchRegInfo}

namespace Group2Bounded

theorem scratch (h : i.Group2Bounded bank) : ∀ k ∈ i.group2ScratchIdxMask, k < group1Begin bank :=
  fun k hk => h k (Finset.mem_union_left _ hk)

theorem passthru (h : i.Group2Bounded bank) : ∀ k ∈ i.group2PassthruIdxMask, k < group1Begin bank :=
  fun k hk => h k (Finset.mem_union_right _ hk)

end Group2Bounded

/-- The masks before any register is changed. -/
def unchanged (bank : RegBank) (scratchMask passthruMask : Finset ℕ) :
    RegAllocPassthruAndScratchRegInfo :=
  match bank with
  | .gpr =>
    ⟨group1IdxMask scratchMask, group1IdxMask passthruMask, group2IdxMask scratchMask,
      group2IdxMask passthruMask⟩
  | .fpr => ⟨scratchMask, passthruMask, ∅, ∅⟩

theorem group2IdxMask_lt {mask : Finset ℕ} : ∀ k ∈ group2IdxMask mask, k < group1Begin .gpr :=
  fun _ hk => (Finset.mem_filter.mp hk).2

/-- A mask is given back by its two groups. -/
theorem decode_groups (mask : Finset ℕ) :
    decode .gpr (group1IdxMask mask) (group2IdxMask mask) = mask := by
  ext r
  rw [mem_decode group2IdxMask_lt]
  split_ifs with hr
  · rw [group1IdxMask, Finset.mem_image]
    constructor
    · rintro ⟨k, hk, heq⟩
      obtain ⟨hmem, hle⟩ := Finset.mem_filter.mp hk
      change firstGroup1GprIdx ≤ r at hr
      change k - firstGroup1GprIdx = r - firstGroup1GprIdx at heq
      rwa [show r = k by omega]
    · exact fun hmem => ⟨r, Finset.mem_filter.mpr ⟨hmem, hr⟩, rfl⟩
  · rw [group2IdxMask, Finset.mem_filter]
    exact and_iff_left (Nat.not_le.mp hr)

theorem card_groups (mask : Finset ℕ) :
    (group1IdxMask mask).card + (group2IdxMask mask).card = mask.card := by
  rw [← card_decode group2IdxMask_lt, decode_groups]

theorem card_group1IdxMask_le {mask : Finset ℕ} (hlt : mask ⊆ RegBank.gpr.fullMask) :
    (group1IdxMask mask).card ≤ numGroup1Gprs := by
  refine (Finset.card_le_card fun k hk => ?_).trans (Finset.card_range numGroup1Gprs).le
  obtain ⟨r, hr, rfl⟩ := Finset.mem_image.mp hk
  obtain ⟨hmem, hge⟩ := Finset.mem_filter.mp hr
  have hlt : r < RegBank.gpr.numRegs := RegBank.mem_fullMask.mp (hlt hmem)
  have hsum : RegBank.gpr.numRegs = firstGroup1GprIdx + numGroup1Gprs := by decide
  exact Finset.mem_range.mpr (by omega)

/-- What the masks say before any change. -/
theorem unchanged_spec (bank : RegBank) (scratchMask passthruMask : Finset ℕ) :
    (unchanged bank scratchMask passthruMask).scratchRegs bank = scratchMask ∧
    (unchanged bank scratchMask passthruMask).passthruRegs bank = passthruMask ∧
    (unchanged bank scratchMask passthruMask).Group2Bounded bank := by
  cases bank with
  | gpr =>
    refine ⟨decode_groups _, decode_groups _, fun k hk => ?_⟩
    rcases Finset.mem_union.mp hk with hk | hk <;> exact group2IdxMask_lt k hk
  | fpr =>
    have hfpr : ∀ mask : Finset ℕ, decode .fpr mask ∅ = mask := fun mask => by
      rw [decode, Finset.union_empty]
      exact Finset.image_id
    exact ⟨hfpr _, hfpr _, fun k hk => absurd hk (Finset.notMem_empty k)⟩

/-- Scratch registers of both groups become pass-through registers. -/
structure Changed (i j : RegAllocPassthruAndScratchRegInfo) (change₁ change₂ : Finset ℕ) :
    Prop where
  subset₁ : change₁ ⊆ i.group1ScratchIdxMask
  subset₂ : change₂ ⊆ i.group2ScratchIdxMask
  eq : j = (i.changeGroup2 change₂).changeGroup1 change₁

namespace Changed

variable {j : RegAllocPassthruAndScratchRegInfo} {change₁ change₂ : Finset ℕ}

/-- The scratch registers that are left. -/
theorem card (h : Changed i j change₁ change₂) (hi : i.Group2Bounded bank) :
    (j.scratchRegs bank).card = (i.scratchRegs bank).card - (change₁.card + change₂.card) := by
  obtain ⟨h₁, h₂, rfl⟩ := h
  have hj : ∀ k ∈ i.group2ScratchIdxMask \ change₂, k < group1Begin bank :=
    fun k hk => hi.scratch k (Finset.mem_sdiff.mp hk).1
  rw [scratchRegs, scratchRegs, card_decode hi.scratch]
  change (decode bank (i.group1ScratchIdxMask \ change₁)
    (i.group2ScratchIdxMask \ change₂)).card = _
  rw [card_decode hj, Finset.card_sdiff_of_subset h₁, Finset.card_sdiff_of_subset h₂]
  have := Finset.card_le_card h₁
  have := Finset.card_le_card h₂
  omega

/-- There are no new ones. -/
theorem scratch_subset (h : Changed i j change₁ change₂) :
    j.scratchRegs bank ⊆ i.scratchRegs bank := by
  obtain ⟨-, -, rfl⟩ := h
  exact Finset.union_subset_union (Finset.image_subset_image Finset.sdiff_subset)
    Finset.sdiff_subset

theorem passthruRegs (h : Changed i j change₁ change₂) (hi : i.Group2Bounded bank) :
    j.passthruRegs bank = i.passthruRegs bank ∪ (i.scratchRegs bank \ j.scratchRegs bank) := by
  obtain ⟨h₁, h₂, rfl⟩ := h
  have hscratch : ∀ k ∈ i.group2ScratchIdxMask \ change₂, k < group1Begin bank :=
    fun k hk => hi.scratch k (Finset.mem_sdiff.mp hk).1
  have hpassthru : ∀ k ∈ i.group2PassthruIdxMask ∪ change₂, k < group1Begin bank := fun k hk =>
    (Finset.mem_union.mp hk).elim (hi.passthru k) fun hk => hi.scratch k (h₂ hk)
  ext r
  rw [Finset.mem_union, Finset.mem_sdiff]
  change r ∈ decode bank (i.group1PassthruIdxMask ∪ change₁) (i.group2PassthruIdxMask ∪ change₂) ↔
    r ∈ decode bank _ _ ∨ r ∈ decode bank _ _ ∧
      ¬ r ∈ decode bank (i.group1ScratchIdxMask \ change₁) (i.group2ScratchIdxMask \ change₂)
  rw [mem_decode hpassthru, mem_decode hi.passthru, mem_decode hi.scratch, mem_decode hscratch]
  split_ifs
  · have := @h₁ (r - group1Begin bank)
    simp only [Finset.mem_union, Finset.mem_sdiff]
    tauto
  · have := @h₂ r
    simp only [Finset.mem_union, Finset.mem_sdiff]
    tauto

end Changed

theorem changeGroup1_empty : i.changeGroup1 ∅ = i := by
  rw [changeGroup1, Finset.sdiff_empty, Finset.union_empty]

theorem changeGroup2_empty : i.changeGroup2 ∅ = i := by
  rw [changeGroup2, Finset.sdiff_empty, Finset.union_empty]

/-- Group 1 is only changed when all of group 2 has been. -/
theorem exists_changed_init {scratchMask : Finset ℕ} (hlt : scratchMask ⊆ bank.fullMask)
    {desired : ℕ} (hd : desired ≤ scratchMask.card) (passthruMask : Finset ℕ) :
    ∃ change₁ change₂,
      Changed (unchanged bank scratchMask passthruMask)
        (init bank scratchMask.card scratchMask passthruMask desired) change₁ change₂ ∧
      change₁.card + change₂.card = scratchMask.card - desired ∧
      (bank = .gpr → change₁ = ∅ ∨
        (group2IdxMask scratchMask).card < scratchMask.card - desired) := by
  have hsmall : ∀ r ∈ scratchMask, r < 8 := fun r hr =>
    (RegBank.mem_fullMask.mp (hlt hr)).trans_le (bank.numRegs_le.trans (by decide))
  by_cases hless : desired < scratchMask.card
  swap
  · refine ⟨∅, ∅, ⟨Finset.empty_subset _, Finset.empty_subset _, ?_⟩, ?_, fun _ => .inl rfl⟩
    · rw [changeGroup1_empty, changeGroup2_empty]
      cases bank with
      | gpr =>
        rw [init, initForGprState, if_neg hless]
        rfl
      | fpr =>
        rw [init, initForFprState, if_neg hless]
        rfl
    · rw [Finset.card_empty]
      omega
  cases bank with
  | gpr =>
    have hcard := card_groups scratchMask
    have hgroup1 : ∀ r ∈ group1IdxMask scratchMask, r < 8 := fun r hr => by
      obtain ⟨k, hk, rfl⟩ := Finset.mem_image.mp hr
      exact (Nat.sub_le ..).trans_lt (hsmall k (Finset.mem_filter.mp hk).1)
    have hgroup2 : ∀ r ∈ group2IdxMask scratchMask, r < 8 := fun r hr =>
      hsmall r (Finset.mem_filter.mp hr).1
    rw [init, initForGprState, if_pos hless]
    dsimp only
    split_ifs with hall
    · obtain ⟨hsub, hk⟩ := getFirstKOnesInUint8Val_spec hgroup1
        (k := scratchMask.card - desired - (group2IdxMask scratchMask).card) (by omega)
      refine ⟨_, group2IdxMask scratchMask, ⟨hsub, Finset.Subset.refl _, rfl⟩, ?_,
        fun _ => .inr hall⟩
      rw [hk]
      omega
    · obtain ⟨hsub, hk⟩ := getFirstKOnesInUint8Val_spec hgroup2
        (k := scratchMask.card - desired) (Nat.not_lt.mp hall)
      refine ⟨∅, _, ⟨Finset.empty_subset _, hsub, changeGroup1_empty.symm⟩, ?_, fun _ => .inl rfl⟩
      rw [Finset.card_empty, hk, Nat.zero_add]
  | fpr =>
    obtain ⟨hsub, hk⟩ := getFirstKOnesInUint8Val_spec hsmall
      (k := scratchMask.card - desired) (Nat.sub_le ..)
    rw [init, initForFprState, if_pos hless]
    refine ⟨_, ∅, ⟨hsub, Finset.empty_subset _, ?_⟩, ?_, fun hgpr => (by cases hgpr)⟩
    · rw [changeGroup2_empty]
      rfl
    · rw [Finset.card_empty, hk, Nat.add_zero]

/-- The registers of `scratchMask` and `passthruMask`, of which `desired` are scratch. -/
structure Describes (bank : RegBank) (scratchMask passthruMask : Finset ℕ) (desired : ℕ)
    (i : RegAllocPassthruAndScratchRegInfo) : Prop where
  scratch_subset : i.scratchRegs bank ⊆ scratchMask
  card : (i.scratchRegs bank).card = desired
  passthruRegs : i.passthruRegs bank = passthruMask ∪ (scratchMask \ i.scratchRegs bank)

/-- **Every register is described**; of group 1 no scratch register is given up if enough are
wanted. -/
theorem init_spec {scratchMask : Finset ℕ} (hlt : scratchMask ⊆ bank.fullMask)
    {desired : ℕ} (hd : desired ≤ scratchMask.card) (passthruMask : Finset ℕ) :
    Describes bank scratchMask passthruMask desired
        (init bank scratchMask.card scratchMask passthruMask desired) ∧
      (bank = .gpr → numGroup1Gprs ≤ desired → ∀ r ∈ scratchMask, firstGroup1GprIdx ≤ r →
        r ∈ (init bank scratchMask.card scratchMask passthruMask desired).scratchRegs bank) := by
  obtain ⟨change₁, change₂, hchanged, hcard, hgroup1⟩ := exists_changed_init hlt hd passthruMask
  obtain ⟨hscratch, hpassthru, hbounded⟩ := unchanged_spec bank scratchMask passthruMask
  generalize init bank scratchMask.card scratchMask passthruMask desired = j at hchanged ⊢
  refine ⟨⟨?_, ?_, ?_⟩, ?_⟩
  · exact hchanged.scratch_subset.trans hscratch.subset
  · rw [hchanged.card hbounded, hscratch, hcard]
    omega
  · rw [hchanged.passthruRegs hbounded, hscratch, hpassthru]
  · rintro rfl henough r hr hfirst
    have hnone : change₁ = ∅ := by
      refine (hgroup1 rfl).resolve_right fun hless => ?_
      have hle := card_group1IdxMask_le hlt
      have hsum := card_groups scratchMask
      omega
    obtain ⟨-, -, heq⟩ := hchanged
    rw [heq, hnone, changeGroup1_empty]
    refine Finset.mem_union_left _ (Finset.mem_image.mpr ⟨r - firstGroup1GprIdx, ?_, ?_⟩)
    · exact Finset.mem_image_of_mem _ (Finset.mem_filter.mpr ⟨hr, hfirst⟩)
    · exact Nat.sub_add_cancel hfirst

end RegAllocPassthruAndScratchRegInfo

end Dsom
