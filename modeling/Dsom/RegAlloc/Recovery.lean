import Dsom.RegAlloc.ValueManager

/-!
# RegAlloc/Recovery — every value that still has a use can be recovered

The invariant of `RegAllocValueManager` in four parts: the registers hold what their state says
(`RegistersOK`), the spill slots are parted into free, in use and handed out (`SlotsOK`), every slot
in use belongs to one live value and holds it (`OwnersOK`), and the OSR exit map names, for every
shadow slot of a value that still has a use, a location of that value (`MapOK`).  `Inv.step` keeps
it through each operation, `Inv.run` through every admitted sequence.

A value without further use may lose its register while it is still live: `EvictRegister` does not
spill it, and its shadow slots then name a register that may hold something else.
-/

namespace Dsom

open RegAlloc

namespace RegAllocValueManager

open DfgOsrExitMapBuilder (Refines)

variable {m m' : RegAllocValueManager} {a : ExitMap} {v w p : ℕ} {r : Reg} {b : RegBank} {ord : ℕ}

/-! ## The invariant

Registers and spill slots have one owner each, and the exit map names a place that holds the value.
-/

/-- A register a value claims is in use for it, and a register in use holds its value. -/
structure RegistersOK (m : RegAllocValueManager) : Prop where
  reg : ∀ {v b ord}, (m.info v).reg b = some ord →
    m.regValue ⟨b, ord⟩ = .inUse v ∧ ord < b.numRegs
  held : ∀ {r v}, m.regValue r = .inUse v → m.machine (.reg r) = some v

/-- **The spill slots**: the free list and its set agree, and no slot of the frame is in two of the
three states or in none. -/
structure SlotsOK (m : RegAllocValueManager) : Prop where
  first_le : m.layout.firstStackSpillPhysicalSlot ≤ m.totalNumPhysicalSlots
  free_eq : m.freeSpillSlots = m.spillSlotFreeList.toFinset
  free_nodup : m.spillSlotFreeList.Nodup
  free_inUse : ∀ {p}, p ∈ m.freeSpillSlots → p ∉ m.inUseSpillSlots
  handedOut_free : ∀ {p}, p ∈ m.handedOut → p ∉ m.freeSpillSlots
  handedOut_inUse : ∀ {p}, p ∈ m.handedOut → p ∉ m.inUseSpillSlots
  handedOut_lt : ∀ {p}, p ∈ m.handedOut → p < m.totalNumPhysicalSlots
  cover : ∀ {p}, m.IsSpillSlot p → p ∈ m.freeSpillSlots ∨ p ∈ m.inUseSpillSlots ∨ p ∈ m.handedOut

/-- The value owns the slot. -/
def Owns (m : RegAllocValueManager) (v p : ℕ) : Prop :=
  m.Live v ∧ (m.info v).physicalSpillSlot = some p

/-- **Owners**: a slot in use has one owner, whose value it holds. -/
structure OwnersOK (m : RegAllocValueManager) : Prop where
  inUse : ∀ {v p}, m.Owns v p → p ∈ m.inUseSpillSlots
  ge : ∀ {v p}, m.Owns v p → m.layout.firstStackSpillPhysicalSlot ≤ p
  lt : ∀ {v p}, m.Owns v p → p < 0x7fff
  held : ∀ {v p}, m.Owns v p → m.machine (.stack p) = some v
  unique : ∀ {v w p}, m.Owns v p → m.Owns w p → v = w
  owned : ∀ {p}, p ∈ m.inUseSpillSlots → ∃ v, m.Owns v p

/-- A value of the exit map that names the place the value is kept in: its spill slot if it has one,
else one of its registers. -/
def Backs (m : RegAllocValueManager) (v : ℕ) (ident : BitVec 16) : Prop :=
  match (m.info v).physicalSpillSlot with
  | some p => ident = BitVec.ofNat 16 p
  | none => ∃ b ord, (m.info v).reg b = some ord ∧
      ident = BitVec.ofNat 16 (m.layout.physicalSlotForRegister ⟨b, ord⟩)

/-- The values whose shadow slots are kept up to date. -/
def Needed (m : RegAllocValueManager) (v : ℕ) : Prop := m.Live v ∧ v ∉ m.discarded

/-- **The exit map**: only values that were born have shadow slots, and each shadow slot of a value
that still has a use names the place it is kept in. -/
structure MapOK (m : RegAllocValueManager) (a : ExitMap) : Prop where
  refines : Refines m.osrExitMap a
  born : ∀ {i v}, a.assoc i = some v → ¬ (m.info v).IsConstantLikeNode ∧ v ∈ m.valuesBorn
  backed : ∀ {i v}, a.assoc i = some v → m.Needed v → ∃ ident,
    a.value i = some ident ∧ m.Backs v ident

/-- Only born values die, and only values without further use are discarded. -/
structure ValuesOK (m : RegAllocValueManager) : Prop where
  dead_born : ∀ {v}, v ∈ m.valuesDead → v ∈ m.valuesBorn
  unused : ∀ {v}, v ∈ m.discarded → (m.info v).HasNoMoreUseInBothGprAndFpr

/-- What every call of the value manager keeps. -/
structure Inv (m : RegAllocValueManager) (a : ExitMap) : Prop where
  registers : m.RegistersOK
  slots : m.SlotsOK
  owners : m.OwnersOK
  map : m.MapOK a
  values : m.ValuesOK

theorem init_inv (l : FrameLayout) (values : ℕ → Option (BitVec 16) × (RegBank → Option ℕ)) :
    (init l values).Inv ExitMap.init where
  registers := ⟨by simp [init, ValueRegAllocInfo.fresh], by simp [init]⟩
  slots := ⟨le_refl _, by simp [init], by simp [init], by simp [init], by simp [init],
    by simp [init], by simp [init], by simp only [IsSpillSlot, init]; omega⟩
  owners := ⟨by simp [init, Owns, Live], by simp [init, Owns, Live], by simp [init, Owns, Live],
    by simp [init, Owns, Live], by simp [init, Owns, Live], by simp [init]⟩
  map := ⟨DfgOsrExitMapBuilder.init_refines _, by simp [ExitMap.init], by simp [ExitMap.init]⟩
  values := ⟨by simp [init], by simp [init]⟩

/-! ## What a location of the exit map recovers -/

/-- A register's location recovers from the register. -/
theorem recoveryLocation_register (l : FrameLayout) {r : Reg} (h : r.ord < r.bank.numRegs) :
    l.recoveryLocation (BitVec.ofNat 16 (l.physicalSlotForRegister r)) = .reg r := by
  obtain ⟨b, ord⟩ := r
  have hfits := l.fits
  cases b with
  | gpr =>
    simp only [RegBank.numRegs] at h hfits
    simp only [FrameLayout.recoveryLocation, FrameLayout.physicalSlotForRegister,
      FrameLayout.firstFprRegisterPhysicalSlot, FrameLayout.firstGprRegisterPhysicalSlot,
      BitVec.toNat_ofNat, RegBank.numRegs]
    rw [Nat.mod_eq_of_lt (by omega), if_pos (by omega)]
    simp
  | fpr =>
    simp only [RegBank.numRegs] at h hfits
    simp only [FrameLayout.recoveryLocation, FrameLayout.physicalSlotForRegister,
      FrameLayout.firstFprRegisterPhysicalSlot, FrameLayout.firstGprRegisterPhysicalSlot,
      FrameLayout.firstLocalPhysicalSlot, BitVec.toNat_ofNat, RegBank.numRegs]
    rw [Nat.mod_eq_of_lt (by omega), if_neg (by omega), if_pos (by omega)]
    simp

/-- A spill slot's location recovers from the stack. -/
theorem recoveryLocation_spillSlot (l : FrameLayout) {p : ℕ}
    (hge : l.firstStackSpillPhysicalSlot ≤ p) (hlt : p < 0x7fff) :
    l.recoveryLocation (BitVec.ofNat 16 p) = .stack p := by
  simp only [FrameLayout.firstStackSpillPhysicalSlot, FrameLayout.firstLocalPhysicalSlot] at hge
  simp only [FrameLayout.recoveryLocation, FrameLayout.firstFprRegisterPhysicalSlot,
    FrameLayout.firstLocalPhysicalSlot, BitVec.toNat_ofNat] at hge ⊢
  rw [Nat.mod_eq_of_lt (by omega), if_neg (by omega), if_neg (by omega)]

/-- **The place a value is kept in holds it.** -/
theorem Inv.machine_of_backs (h : m.Inv a) (hv : m.Live v) {ident : BitVec 16}
    (hb : m.Backs v ident) : m.machine (m.layout.recoveryLocation ident) = some v := by
  unfold Backs at hb
  split at hb
  · next p hp =>
    subst hb
    rw [recoveryLocation_spillSlot _ (h.owners.ge ⟨hv, hp⟩) (h.owners.lt ⟨hv, hp⟩)]
    exact h.owners.held ⟨hv, hp⟩
  · obtain ⟨b, ord, hreg, rfl⟩ := hb
    obtain ⟨huse, hlt⟩ := h.registers.reg hreg
    rw [recoveryLocation_register _ hlt]
    exact h.registers.held huse

/-! ## Parts an operation leaves alone -/

/-- What the slots depend on. -/
theorem SlotsOK.congr (h : m.SlotsOK) (hlayout : m'.layout = m.layout)
    (htotal : m'.totalNumPhysicalSlots = m.totalNumPhysicalSlots)
    (hlist : m'.spillSlotFreeList = m.spillSlotFreeList)
    (hfree : m'.freeSpillSlots = m.freeSpillSlots)
    (hinUse : m'.inUseSpillSlots = m.inUseSpillSlots) (hout : m'.handedOut = m.handedOut) :
    m'.SlotsOK where
  first_le := by rw [hlayout, htotal]; exact h.first_le
  free_eq := by rw [hfree, hlist]; exact h.free_eq
  free_nodup := by rw [hlist]; exact h.free_nodup
  free_inUse := by rw [hfree, hinUse]; exact h.free_inUse
  handedOut_free := by rw [hfree, hout]; exact h.handedOut_free
  handedOut_inUse := by rw [hinUse, hout]; exact h.handedOut_inUse
  handedOut_lt := by rw [htotal, hout]; exact h.handedOut_lt
  cover {p} hp := by
    rw [hfree, hinUse, hout]
    rw [IsSpillSlot, hlayout, htotal] at hp
    exact h.cover hp

/-- What the owners depend on. -/
theorem OwnersOK.congr (h : m.OwnersOK) (hlayout : m'.layout = m.layout)
    (hinUse : m'.inUseSpillSlots = m.inUseSpillSlots) (howns : ∀ v p, m'.Owns v p ↔ m.Owns v p)
    (hstack : ∀ p ∈ m.inUseSpillSlots, m'.machine (.stack p) = m.machine (.stack p)) :
    m'.OwnersOK where
  inUse hp := by rw [hinUse]; exact h.inUse ((howns _ _).mp hp)
  ge hp := by rw [hlayout]; exact h.ge ((howns _ _).mp hp)
  lt hp := h.lt ((howns _ _).mp hp)
  held hp := by
    have hp' := (howns _ _).mp hp
    rw [hstack _ (h.inUse hp')]
    exact h.held hp'
  unique hv hw := h.unique ((howns _ _).mp hv) ((howns _ _).mp hw)
  owned hp := by
    obtain ⟨v, hv⟩ := h.owned (hinUse ▸ hp)
    exact ⟨v, (howns _ _).mpr hv⟩

/-- What the map depends on. -/
theorem MapOK.congr (h : m.MapOK a) (hmap : m'.osrExitMap = m.osrExitMap)
    (hborn : ∀ v, ¬ (m.info v).IsConstantLikeNode ∧ v ∈ m.valuesBorn →
      ¬ (m'.info v).IsConstantLikeNode ∧ v ∈ m'.valuesBorn)
    (hneeded : ∀ v, v ∈ m.valuesBorn → m'.Needed v → m.Needed v)
    (hbacks : ∀ v ident, m'.Needed v → m.Backs v ident → m'.Backs v ident) : m'.MapOK a where
  refines := by rw [hmap]; exact h.refines
  born hi := hborn _ (h.born hi)
  backed {i v} hi hv := by
    obtain ⟨ident, hident, hb⟩ := h.backed hi (hneeded v (h.born hi).2 hv)
    exact ⟨ident, hident, hbacks v ident hv hb⟩

/-- What the values depend on. -/
theorem ValuesOK.congr (h : m.ValuesOK) (hdead : m'.valuesDead = m.valuesDead)
    (hborn : m.valuesBorn ⊆ m'.valuesBorn) (hdiscarded : m'.discarded = m.discarded)
    (huse : ∀ v, (m.info v).HasNoMoreUseInBothGprAndFpr →
      (m'.info v).HasNoMoreUseInBothGprAndFpr) : m'.ValuesOK where
  dead_born hv := hborn (h.dead_born (hdead ▸ hv))
  unused hv := huse _ (h.unused (hdiscarded ▸ hv))

/-- Changing one value's info leaves alone what the change does not touch. -/
theorem apply_update_info {X : Type} (f : ValueRegAllocInfo → X) (info : ℕ → ValueRegAllocInfo)
    {v : ℕ} (i : ValueRegAllocInfo) (hf : f i = f (info v)) (w : ℕ) :
    f (Function.update info v i w) = f (info w) := by
  by_cases hw : w = v
  · subst hw
    rw [Function.update_self, hf]
  · rw [Function.update_of_ne hw]

theorem isConstantLikeNode_setReg (info : ℕ → ValueRegAllocInfo) (o : Option ℕ) :
    (Function.update info v ((info v).setReg b o) w).IsConstantLikeNode =
      (info w).IsConstantLikeNode :=
  apply_update_info ValueRegAllocInfo.IsConstantLikeNode info ((info v).setReg b o) rfl w

theorem physicalSpillSlot_setReg (info : ℕ → ValueRegAllocInfo) (o : Option ℕ) :
    (Function.update info v ((info v).setReg b o) w).physicalSpillSlot =
      (info w).physicalSpillSlot :=
  apply_update_info ValueRegAllocInfo.physicalSpillSlot info ((info v).setReg b o) rfl w

theorem hasNoMoreUse_setReg (info : ℕ → ValueRegAllocInfo) (o : Option ℕ) :
    (Function.update info v ((info v).setReg b o) w).HasNoMoreUseInBothGprAndFpr =
      (info w).HasNoMoreUseInBothGprAndFpr :=
  apply_update_info ValueRegAllocInfo.HasNoMoreUseInBothGprAndFpr info ((info v).setReg b o) rfl w

theorem owns_setReg (o : Option ℕ) :
    (m.setInfo v ((m.info v).setReg b o)).Owns w p ↔ m.Owns w p := by
  simp only [Owns, Live, setInfo, isConstantLikeNode_setReg, physicalSpillSlot_setReg]

theorem needed_setReg (o : Option ℕ) :
    (m.setInfo v ((m.info v).setReg b o)).Needed w ↔ m.Needed w := by
  simp only [Needed, Live, setInfo, isConstantLikeNode_setReg]

/-! ## Registers

A register is released, taken, or left for another. -/

/-- **A register is given up.** -/
theorem RegistersOK.release (h : m.RegistersOK) (hr : m.regValue r = .inUse v) {st : RegisterValue}
    (hst : ¬ st.IsInUse) :
    ((m.setInfo v ((m.info v).setReg r.bank none)).setRegValue r st).RegistersOK where
  reg {w b ord} hreg := by
    simp only [setInfo, setRegValue] at hreg ⊢
    have hw : (m.info w).reg b = some ord ∧ (w = v → b ≠ r.bank) := by
      by_cases hwv : w = v
      · subst hwv
        rw [Function.update_self] at hreg
        by_cases hb : b = r.bank
        · subst hb
          simp at hreg
        · rw [ValueRegAllocInfo.setReg_reg_of_ne _ hb] at hreg
          exact ⟨hreg, fun _ => hb⟩
      · rw [Function.update_of_ne hwv] at hreg
        exact ⟨hreg, fun hwv' => absurd hwv' hwv⟩
    obtain ⟨huse, hlt⟩ := h.reg hw.1
    refine ⟨?_, hlt⟩
    rw [Function.update_of_ne, huse]
    rintro rfl
    rw [hr] at huse
    cases huse
    exact hw.2 rfl rfl
  held {r' w} hr' := by
    simp only [setInfo, setRegValue] at hr' ⊢
    by_cases hrr : r' = r
    · subst hrr
      rw [Function.update_self] at hr'
      exact absurd (hr' ▸ trivial) hst
    · rw [Function.update_of_ne hrr] at hr'
      exact h.held hr'

/-- **A register is taken** that was not in use. -/
theorem RegistersOK.occupy (h : m.RegistersOK) (hr : ¬ (m.regValue r).IsInUse)
    (hlt : r.ord < r.bank.numRegs) :
    (((m.emit (.reg r) (some v)).setInfo v ((m.info v).setReg r.bank (some r.ord))).setRegValue r
      (.inUse v)).RegistersOK where
  reg {w b ord} hreg := by
    simp only [setInfo, setRegValue, emit] at hreg ⊢
    by_cases hwb : w = v ∧ b = r.bank
    · obtain ⟨rfl, rfl⟩ := hwb
      simp only [Function.update_self, ValueRegAllocInfo.setReg_reg_self, Option.some.injEq] at hreg
      subst hreg
      exact ⟨Function.update_self _ _ _, hlt⟩
    · have hreg' : (m.info w).reg b = some ord := by
        by_cases hwv : w = v
        · subst hwv
          have hb : b ≠ r.bank := fun hb => hwb ⟨rfl, hb⟩
          rwa [Function.update_self, ValueRegAllocInfo.setReg_reg_of_ne _ hb] at hreg
        · rwa [Function.update_of_ne hwv] at hreg
      obtain ⟨huse, hlt'⟩ := h.reg hreg'
      refine ⟨?_, hlt'⟩
      rw [Function.update_of_ne, huse]
      rintro rfl
      exact hr (huse ▸ trivial)
  held {r' w} hr' := by
    simp only [setInfo, setRegValue, emit] at hr' ⊢
    by_cases hrr : r' = r
    · subst hrr
      rw [Function.update_self] at hr' ⊢
      cases hr'
      rfl
    · rw [Function.update_of_ne hrr] at hr'
      rw [Function.update_of_ne (fun hl => hrr (Loc.reg.inj hl))]
      exact h.held hr'

/-- **A value moves** from one register of a bank to another. -/
theorem RegistersOK.move (h : m.RegistersOK) {src dst : ℕ} (hne : src ≠ dst)
    (hsrc : m.regValue ⟨b, src⟩ = .inUse v) (hto : ¬ (m.regValue ⟨b, dst⟩).IsInUse)
    (hlt : dst < b.numRegs) :
    ((((m.emit (.reg ⟨b, dst⟩) (m.machine (.reg ⟨b, src⟩))).setInfo v
      ((m.info v).setReg b (some dst))).setRegValue ⟨b, src⟩ .scratch).setRegValue ⟨b, dst⟩
      (.inUse v)).RegistersOK := by
  have hrel := h.release hsrc (show ¬ RegisterValue.scratch.IsInUse from id)
  have hdst : Reg.mk b dst ≠ ⟨b, src⟩ := fun heq => hne (congrArg Reg.ord heq).symm
  have hto' : ¬ (((m.setInfo v ((m.info v).setReg b none)).setRegValue ⟨b, src⟩ .scratch).regValue
      ⟨b, dst⟩).IsInUse := by
    simpa only [setRegValue, setInfo, Function.update_of_ne hdst] using hto
  have hocc := hrel.occupy (v := v) (r := ⟨b, dst⟩) hto' hlt
  simp only [setRegValue, setInfo, emit, Function.update_self, Function.update_idem,
    ValueRegAllocInfo.setReg_setReg] at hocc ⊢
  rw [h.held hsrc]
  exact hocc

/-- Giving up a register of a value that is spilled or has no further use. -/
theorem Inv.release (h : m.Inv a) (hr : m.regValue r = .inUse v) {st : RegisterValue}
    (hst : ¬ st.IsInUse) (hv : m.Needed v → (m.info v).physicalSpillSlot.isSome) :
    ((m.setInfo v ((m.info v).setReg r.bank none)).setRegValue r st).Inv a where
  registers := h.registers.release hr hst
  slots := h.slots.congr rfl rfl rfl rfl rfl rfl
  owners := h.owners.congr rfl rfl (fun _ _ => owns_setReg none) (fun _ _ => rfl)
  values := h.values.congr rfl subset_rfl rfl fun w hw => by
    simpa only [setRegValue, setInfo, hasNoMoreUse_setReg] using hw
  map := by
    refine h.map.congr rfl (fun w hw => ?_) (fun w _ hw => (needed_setReg none).mp hw) ?_
    · simpa only [setRegValue, setInfo, isConstantLikeNode_setReg] using hw
    · intro w ident hw hb
      have hw' : m.Needed w := (needed_setReg none).mp hw
      simp only [Backs, setInfo, setRegValue, physicalSpillSlot_setReg]
      by_cases hwv : w = v
      · subst hwv
        obtain ⟨p, hp⟩ := Option.isSome_iff_exists.mp (hv hw')
        simp only [Backs, hp] at hb ⊢
        exact hb
      · rwa [Function.update_of_ne hwv]

/-- Taking a register in a bank where the value had none. -/
theorem Inv.occupy (h : m.Inv a) (hr : ¬ (m.regValue r).IsInUse) (hlt : r.ord < r.bank.numRegs)
    (hv : (m.info v).reg r.bank = none) :
    (((m.emit (.reg r) (some v)).setInfo v ((m.info v).setReg r.bank (some r.ord))).setRegValue r
      (.inUse v)).Inv a where
  registers := h.registers.occupy hr hlt
  slots := h.slots.congr rfl rfl rfl rfl rfl rfl
  owners := h.owners.congr rfl rfl (fun _ _ => owns_setReg _) (fun _ _ => rfl)
  values := h.values.congr rfl subset_rfl rfl fun w hw => by
    simpa only [setRegValue, setInfo, emit, hasNoMoreUse_setReg] using hw
  map := by
    refine h.map.congr rfl (fun w hw => ?_) (fun w _ hw => (needed_setReg (some r.ord)).mp hw) ?_
    · simpa only [setRegValue, setInfo, emit, isConstantLikeNode_setReg] using hw
    · intro w ident _ hb
      simp only [Backs, setInfo, setRegValue, emit, physicalSpillSlot_setReg]
      by_cases hwv : w = v
      · subst hwv
        unfold Backs at hb
        split at hb
        · exact hb
        · obtain ⟨b, ord, hreg, hident⟩ := hb
          have hb : b ≠ r.bank := by
            rintro rfl
            rw [hv] at hreg
            cases hreg
          exact ⟨b, ord, by rwa [Function.update_self, ValueRegAllocInfo.setReg_reg_of_ne _ hb],
            hident⟩
      · rwa [Function.update_of_ne hwv]

/-! ## Spill slots

A slot is taken from the list or from the end of the frame. -/

/-- The two managers differ in their record of the spill slots only. -/
structure OnlySlots (m m' : RegAllocValueManager) : Prop where
  layout : m'.layout = m.layout
  osrExitMap : m'.osrExitMap = m.osrExitMap
  info : m'.info = m.info
  regValue : m'.regValue = m.regValue
  valuesBorn : m'.valuesBorn = m.valuesBorn
  valuesDead : m'.valuesDead = m.valuesDead
  discarded : m'.discarded = m.discarded
  machine : m'.machine = m.machine

namespace OnlySlots

variable (h : OnlySlots m m')

include h

theorem live : m'.Live v ↔ m.Live v := by
  rw [Live, Live, h.info, h.valuesBorn, h.valuesDead]

theorem owns : m'.Owns v p ↔ m.Owns v p := by
  rw [Owns, Owns, h.live, h.info]

theorem needed : m'.Needed v ↔ m.Needed v := by
  rw [Needed, Needed, h.live, h.discarded]

theorem backs {ident : BitVec 16} : m'.Backs v ident ↔ m.Backs v ident := by
  rw [Backs, Backs, h.info, h.layout]

theorem registers (hr : m.RegistersOK) : m'.RegistersOK where
  reg := by rw [h.info, h.regValue]; exact hr.reg
  held := by rw [h.regValue, h.machine]; exact hr.held

theorem map (hm : m.MapOK a) : m'.MapOK a :=
  hm.congr h.osrExitMap (fun v hv => by rwa [h.info, h.valuesBorn])
    (fun _ _ hv => h.needed.mp hv) (fun _ _ _ hb => h.backs.mpr hb)

theorem values (hv : m.ValuesOK) : m'.ValuesOK :=
  hv.congr h.valuesDead (h.valuesBorn ▸ subset_rfl) h.discarded fun v hu => by rwa [h.info]

end OnlySlots

/-- Operations on the slots no value owns. -/
theorem Inv.ofSlots (h : m.Inv a) (hs : OnlySlots m m') (hslots : m'.SlotsOK)
    (hinUse : m'.inUseSpillSlots = m.inUseSpillSlots) : m'.Inv a where
  registers := hs.registers h.registers
  slots := hslots
  owners := h.owners.congr hs.layout hinUse (fun _ _ => hs.owns) (fun p _ => by rw [hs.machine])
  map := hs.map h.map
  values := hs.values h.values

/-- The frame grows at its end. -/
theorem growFrame_eq {n : ℕ} (h : m.growFrame n = some m') :
    m' = { m with
      totalNumPhysicalSlots := n
      historyMaxNumPhysicalSlots := max m.historyMaxNumPhysicalSlots n } := by
  simp only [growFrame, testAssert_eq_some, Option.some.injEq] at h
  exact h.2.symm

/-- **A slot is allocated**: it was in no state that a value or a holder relies on. -/
theorem SlotsOK.allocateSpillSlot (h : m.SlotsOK) (ha : m.allocateSpillSlot = some (p, m')) :
    m'.SlotsOK ∧ OnlySlots m m' ∧ m'.inUseSpillSlots = insert p m.inUseSpillSlots ∧
      m'.handedOut = m.handedOut ∧ p ∉ m.inUseSpillSlots ∧ p ∉ m.handedOut ∧
      m.layout.firstStackSpillPhysicalSlot ≤ p ∧ p < m'.totalNumPhysicalSlots := by
  rw [RegAllocValueManager.allocateSpillSlot, testAssert_eq_some] at ha
  obtain ⟨-, ha⟩ := ha
  split at ha
  · next res rest hlist =>
    simp only [testAssert_eq_some, Option.some.injEq, Prod.mk.injEq] at ha
    obtain ⟨⟨hfree, hinUse, hslot⟩, rfl, rfl⟩ := ha
    have hnd := List.nodup_cons.mp (hlist ▸ h.free_nodup)
    have hout : res ∉ m.handedOut := fun ho => h.handedOut_free ho hfree
    refine ⟨⟨h.first_le, ?_, hnd.2, ?_, ?_, ?_, h.handedOut_lt, ?_⟩,
      ⟨rfl, rfl, rfl, rfl, rfl, rfl, rfl, rfl⟩, rfl, rfl, hinUse, hout, hslot⟩
    · rw [h.free_eq, hlist, List.toFinset_cons, Finset.erase_insert (by simpa using hnd.1)]
    · intro q hq
      obtain ⟨hne, hq⟩ := Finset.mem_erase.mp hq
      simp [hne, h.free_inUse hq]
    · intro q hq hf
      exact h.handedOut_free hq (Finset.mem_of_mem_erase hf)
    · intro q hq hu
      rcases Finset.mem_insert.mp hu with rfl | hu
      · exact hout hq
      · exact h.handedOut_inUse hq hu
    · intro q hq
      rcases h.cover hq with hf | hu | ho
      · by_cases hqr : q = res
        · exact Or.inr (Or.inl (by simp [hqr]))
        · exact Or.inl (Finset.mem_erase.mpr ⟨hqr, hf⟩)
      · exact Or.inr (Or.inl (Finset.mem_insert_of_mem hu))
      · exact Or.inr (Or.inr ho)
  · next hlist =>
    simp only [testAssert_eq_some, Option.map_eq_some_iff, Prod.mk.injEq] at ha
    obtain ⟨-, ⟨hfree, -, hinUse, -⟩, m₁, hm₁, rfl, rfl⟩ := ha
    obtain rfl := growFrame_eq hm₁
    have hout : m.totalNumPhysicalSlots ∉ m.handedOut := fun ho =>
      Nat.lt_irrefl _ (h.handedOut_lt ho)
    refine ⟨⟨Nat.le_succ_of_le h.first_le, h.free_eq, h.free_nodup, ?_, h.handedOut_free, ?_, ?_,
      ?_⟩, ⟨rfl, rfl, rfl, rfl, rfl, rfl, rfl, rfl⟩, rfl, rfl, hinUse, hout, h.first_le,
      Nat.lt_succ_self _⟩
    · intro q hq hu
      rcases Finset.mem_insert.mp hu with rfl | hu
      · exact hfree hq
      · exact h.free_inUse hq hu
    · intro q hq hu
      rcases Finset.mem_insert.mp hu with rfl | hu
      · exact hout hq
      · exact h.handedOut_inUse hq hu
    · intro q hq
      exact Nat.lt_succ_of_lt (h.handedOut_lt hq)
    · rintro q ⟨hge, hlt⟩
      rcases Nat.lt_succ_iff_lt_or_eq.mp hlt with hlt | rfl
      · rcases h.cover ⟨hge, hlt⟩ with hf | hu | ho
        · exact Or.inl hf
        · exact Or.inr (Or.inl (Finset.mem_insert_of_mem hu))
        · exact Or.inr (Or.inr ho)
      · exact Or.inr (Or.inl (Finset.mem_insert_self _ _))

/-- **A slot gets its owner.** -/
theorem OwnersOK.acquire (h : m.OwnersOK) (hlayout : m'.layout = m.layout)
    (hinUse : m'.inUseSpillSlots = insert p m.inUseSpillSlots) (hp : p ∉ m.inUseSpillSlots)
    (hge : m.layout.firstStackSpillPhysicalSlot ≤ p) (hlt : p < 0x7fff)
    (howns : ∀ w q, m'.Owns w q ↔ (w = v ∧ q = p) ∨ m.Owns w q)
    (hheld : m'.machine (.stack p) = some v)
    (hstack : ∀ q ∈ m.inUseSpillSlots, m'.machine (.stack q) = m.machine (.stack q)) :
    m'.OwnersOK where
  inUse {w q} hq := by
    rw [hinUse]
    rcases (howns w q).mp hq with ⟨rfl, rfl⟩ | hq
    · exact Finset.mem_insert_self _ _
    · exact Finset.mem_insert_of_mem (h.inUse hq)
  ge {w q} hq := by
    rw [hlayout]
    rcases (howns w q).mp hq with ⟨rfl, rfl⟩ | hq
    · exact hge
    · exact h.ge hq
  lt {w q} hq := by
    rcases (howns w q).mp hq with ⟨rfl, rfl⟩ | hq
    · exact hlt
    · exact h.lt hq
  held {w q} hq := by
    rcases (howns w q).mp hq with ⟨rfl, rfl⟩ | hq
    · exact hheld
    · rw [hstack q (h.inUse hq)]
      exact h.held hq
  unique {w w' q} hw hw' := by
    rcases (howns w q).mp hw with ⟨rfl, rfl⟩ | hw
    · rcases (howns w' q).mp hw' with ⟨rfl, -⟩ | hw'
      · rfl
      · exact absurd (h.inUse hw') hp
    · rcases (howns w' q).mp hw' with ⟨rfl, rfl⟩ | hw'
      · exact absurd (h.inUse hw) hp
      · exact h.unique hw hw'
  owned {q} hq := by
    rw [hinUse] at hq
    rcases Finset.mem_insert.mp hq with rfl | hq
    · exact ⟨v, (howns v q).mpr (Or.inl ⟨rfl, rfl⟩)⟩
    · obtain ⟨w, hw⟩ := h.owned hq
      exact ⟨w, (howns w q).mpr (Or.inr hw)⟩

/-- A call of the exit map changes nothing else. -/
theorem callOsrExitMap_eq {c : DfgOsrExitMapBuilder.Call} (h : m.callOsrExitMap c = some m') :
    ∃ b, m.osrExitMap.call c = some b ∧ m' = { m with osrExitMap := b } := by
  obtain ⟨b, hb, rfl⟩ := Option.map_eq_some_iff.mp h
  exact ⟨b, hb, rfl⟩

/-- Giving a value without spill slot one. -/
theorem owns_setPhysicalSpillSlot (hv : m.Live v) (hs : (m.info v).physicalSpillSlot = none)
    (w q : ℕ) : (m.setInfo v ((m.info v).setPhysicalSpillSlot p)).Owns w q ↔
      (w = v ∧ q = p) ∨ m.Owns w q := by
  by_cases hwv : w = v
  · subst hwv
    obtain ⟨hc, hborn, hdead⟩ := hv
    have hno : ¬ m.Owns w q := by
      rintro ⟨-, ho⟩
      rw [hs] at ho
      cases ho
    have hc' : ¬ ((m.info w).setPhysicalSpillSlot p).IsConstantLikeNode := hc
    simp only [Owns, Live, setInfo, Function.update_self, hc', hborn, hdead, not_false_eq_true,
      true_and]
    rw [show ((m.info w).setPhysicalSpillSlot p).physicalSpillSlot = some p from rfl]
    exact ⟨fun h => Or.inl (Option.some.inj h).symm,
      fun h => h.elim (fun h => congrArg some h.symm) fun h => absurd ⟨⟨hc, hborn, hdead⟩, h.2⟩ hno⟩
  · simp [Owns, Live, setInfo, hwv]

/-- **Spilling a value**: it owns the new slot, which holds it, and all its shadow slots name it. -/
theorem Inv.spill (h : m.Inv a) (hv : m.Live v) (hs : (m.info v).physicalSpillSlot = none)
    (hr : m.regValue r = .inUse v) (hm : m.spill v r = some m') :
    (∃ a', m'.Inv a') ∧ (m'.info v).physicalSpillSlot.isSome ∧ m'.regValue = m.regValue ∧
      (m'.info v).reg = (m.info v).reg := by
  obtain ⟨⟨p, m₁⟩, halloc, hm⟩ := Option.bind_eq_some_iff.mp hm
  simp only [testAssert_eq_some, Option.map_eq_some_iff] at hm
  obtain ⟨hlt, m₂, hcall, rfl⟩ := hm
  obtain ⟨hslots, hsame, hinUse, -, hp, -, hge, -⟩ := h.slots.allocateSpillSlot halloc
  obtain ⟨b, hb, rfl⟩ := callOsrExitMap_eq hcall
  have hmap := hsame.map h.map
  have hrefines := (hmap.refines.call hb).1
  have hlive : m₁.Live v := hsame.live.mpr hv
  have hs₁ : (m₁.info v).physicalSpillSlot = none := by rw [hsame.info, hs]
  refine ⟨⟨_, ⟨?_, hslots.congr rfl rfl rfl rfl rfl rfl, ?_, ⟨hrefines, ?_, ?_⟩,
    (hsame.values h.values).congr rfl subset_rfl rfl fun w hw => ?_⟩⟩, ?_⟩
  · have hregs := hsame.registers h.registers
    refine ⟨fun {w b ord} hreg => ?_, hregs.held⟩
    have hreg' : (m₁.info w).reg b = some ord := by
      rw [← hreg]
      exact (congrFun (apply_update_info ValueRegAllocInfo.reg m₁.info
        ((m₁.info v).setPhysicalSpillSlot p) rfl w) b).symm
    exact hregs.reg hreg'
  · refine h.owners.acquire (v := v) hsame.layout hinUse hp hge hlt (fun w q => ?_) ?_
      fun q hq => ?_
    · exact (owns_setPhysicalSpillSlot hlive hs₁ w q).trans (or_congr_right hsame.owns)
    · simp only [emit, Function.update_self, setInfo, hsame.machine]
      exact h.registers.held hr
    · have hne : Loc.stack q ≠ .stack p := fun heq => hp (Loc.stack.inj heq ▸ hq)
      simp only [emit, Function.update_of_ne hne, setInfo, hsame.machine]
  · intro i w hi
    have hw := hmap.born hi
    rwa [← apply_update_info ValueRegAllocInfo.IsConstantLikeNode m₁.info
      ((m₁.info v).setPhysicalSpillSlot p) rfl w] at hw
  · intro i w hi hw
    by_cases hwv : w = v
    · subst hwv
      refine ⟨BitVec.ofNat 16 p, if_pos hi, ?_⟩
      simp [Backs, emit, setInfo, ValueRegAllocInfo.setPhysicalSpillSlot]
    · have hw₁ : m₁.Needed w := by
        simpa [Needed, Live, emit, setInfo, hwv] using hw
      obtain ⟨ident, hident, hb⟩ := hmap.backed hi hw₁
      have hne : a.assoc i ≠ some v := fun hi' => hwv (Option.some.inj (hi.symm.trans hi'))
      refine ⟨ident, (if_neg hne).trans hident, ?_⟩
      simpa [Backs, emit, setInfo, hwv] using hb
  · rwa [← apply_update_info ValueRegAllocInfo.HasNoMoreUseInBothGprAndFpr m₁.info
      ((m₁.info v).setPhysicalSpillSlot p) rfl w] at hw
  · simp [emit, setInfo, ValueRegAllocInfo.setPhysicalSpillSlot, hsame.regValue, hsame.info]

/-! ## The operations, one by one -/

/-- A value that passes the assertion is live, unless it is a constant. -/
theorem ValueLiveAndRegInfoOK.live {maybe : Bool} (h : m.ValueLiveAndRegInfoOK v maybe)
    (hc : ¬ (m.info v).IsConstantLikeNode) : m.Live v := by
  have h1 := h.1
  rw [if_neg hc] at h1
  exact ⟨hc, h1.1, h1.2.1⟩

/-- A value without further use may be discarded. -/
theorem Inv.discard (h : m.Inv a) (hv : (m.info v).HasNoMoreUseInBothGprAndFpr) :
    ({ m with discarded := insert v m.discarded } : RegAllocValueManager).Inv a where
  registers := ⟨h.registers.reg, h.registers.held⟩
  slots := h.slots.congr rfl rfl rfl rfl rfl rfl
  owners := h.owners.congr rfl rfl (fun _ _ => Iff.rfl) fun _ _ => rfl
  map := h.map.congr rfl (fun _ hv => hv)
    (fun _ _ hw => ⟨hw.1, fun hd => hw.2 (Finset.mem_insert_of_mem hd)⟩) fun _ _ _ hb => hb
  values := by
    refine ⟨h.values.dead_born, fun {w} hw => ?_⟩
    rcases Finset.mem_insert.mp hw with rfl | hw
    · exact hv
    · exact h.values.unused hw

/-- **Evicting**: a value that still has a use is spilled first. -/
theorem Inv.evictRegister (h : m.Inv a) {out : Bool} (hm : m.evictRegister v r out = some m') :
    ∃ a', m'.Inv a' := by
  simp only [RegAllocValueManager.evictRegister, testAssert_eq_some, Option.bind_eq_some_iff,
    Option.some.injEq] at hm
  obtain ⟨hok, ⟨hreg, -⟩, m₁, hm₁, hr, rfl⟩ := hm
  have hst : ¬ (if out then RegisterValue.ephemeral v else .scratch).IsInUse := by
    cases out <;> exact id
  split_ifs at hm₁ with hspilled huse
  · obtain rfl := Option.some.inj hm₁
    refine ⟨a, h.release hr hst fun hv => ?_⟩
    exact hspilled.resolve_left hv.1.1
  · obtain rfl := Option.some.inj hm₁
    exact ⟨a, (h.discard huse).release hr hst fun hv => absurd (Finset.mem_insert_self _ _) hv.2⟩
  · have hnc : ¬ (m.info v).IsConstantLikeNode := fun hc => hspilled (Or.inl hc)
    have hns : (m.info v).physicalSpillSlot = none := by
      rw [← Option.not_isSome_iff_eq_none]
      exact fun hs => hspilled (Or.inr hs)
    have hr₀ : m.regValue r = .inUse v := (h.registers.reg hreg).1
    obtain ⟨⟨a', h'⟩, hsome, -, -⟩ := h.spill (hok.live hnc) hns hr₀ hm₁
    exact ⟨a', h'.release hr hst fun _ => hsome⟩

/-- `KillRegister`. -/
theorem Inv.killRegister (h : m.Inv a) (hm : m.killRegister v r = some m') : m'.Inv a := by
  simp only [RegAllocValueManager.killRegister, testAssert_eq_some, Option.some.injEq] at hm
  obtain ⟨-, huse, -, hr, rfl⟩ := hm
  have hst : ¬ RegisterValue.scratch.IsInUse := id
  split_ifs with hspilled
  · exact h.release hr hst fun hv => hspilled.resolve_left hv.1.1
  · exact (h.discard huse).release hr hst fun hv => absurd (Finset.mem_insert_self _ _) hv.2

theorem not_isInUse_of_isScratchOrDuplication {st : RegisterValue}
    (h : st.IsScratchOrDuplication) : ¬ st.IsInUse := by
  cases st <;> first | exact id | exact absurd h id

/-- **Relocating**: a value that is kept in its registers has all its shadow slots moved along. -/
theorem Inv.relocateRegister (h : m.Inv a) {src dst : ℕ}
    (hm : m.relocateRegister v b src dst = some m') : ∃ a', m'.Inv a' := by
  simp only [RegAllocValueManager.relocateRegister, testAssert_eq_some, Option.bind_eq_some_iff,
    Option.some.injEq] at hm
  obtain ⟨-, ⟨hne, -, -, hdst⟩, m₁, hm₁, hsrc, hto, rfl⟩ := hm
  have hfree := not_isInUse_of_isScratchOrDuplication hto
  split_ifs at hm₁ with hspilled
  · obtain rfl := Option.some.inj hm₁
    refine ⟨a, h.registers.move hne hsrc hfree hdst, h.slots.congr rfl rfl rfl rfl rfl rfl,
      h.owners.congr rfl rfl (fun _ _ => owns_setReg _) fun _ _ => rfl, ?_,
      h.values.congr rfl subset_rfl rfl fun w hw => ?_⟩
    rotate_left
    · simpa only [setRegValue, setInfo, RegAllocValueManager.emit, hasNoMoreUse_setReg] using hw
    refine h.map.congr rfl (fun w hw => ?_) (fun w _ hw => (needed_setReg (some dst)).mp hw) ?_
    · simpa only [setRegValue, setInfo, RegAllocValueManager.emit,
        isConstantLikeNode_setReg] using hw
    · intro w ident hw hb
      have hw' : m.Needed w := (needed_setReg (some dst)).mp hw
      simp only [Backs, setInfo, setRegValue, RegAllocValueManager.emit, physicalSpillSlot_setReg]
      by_cases hwv : w = v
      · subst hwv
        obtain ⟨p, hp⟩ := Option.isSome_iff_exists.mp (hspilled.resolve_left hw'.1.1)
        simp only [Backs, hp] at hb ⊢
        exact hb
      · rwa [Function.update_of_ne hwv]
  · obtain ⟨b', hb', rfl⟩ := callOsrExitMap_eq hm₁
    have hns : (m.info v).physicalSpillSlot = none := by
      rw [← Option.not_isSome_iff_eq_none]
      exact fun hs => hspilled (Or.inr hs)
    have hregs : ({ m with osrExitMap := b' } : RegAllocValueManager).RegistersOK :=
      ⟨h.registers.reg, h.registers.held⟩
    refine ⟨_, hregs.move hne hsrc hfree hdst,
      h.slots.congr rfl rfl rfl rfl rfl rfl,
      h.owners.congr rfl rfl (fun _ _ => owns_setReg _) fun _ _ => rfl,
      ⟨(h.map.refines.call hb').1, ?_, ?_⟩, h.values.congr rfl subset_rfl rfl fun w hw => ?_⟩
    · intro i w hi
      have hw := h.map.born hi
      simpa only [setRegValue, setInfo, RegAllocValueManager.emit,
        isConstantLikeNode_setReg] using hw
    · intro i w hi hw
      have hw' : m.Needed w := (needed_setReg (some dst)).mp hw
      simp only [Backs, setInfo, setRegValue, RegAllocValueManager.emit, physicalSpillSlot_setReg]
      by_cases hwv : w = v
      · subst hwv
        refine ⟨_, if_pos hi, ?_⟩
        rw [hns]
        exact ⟨b, dst, by rw [Function.update_self, ValueRegAllocInfo.setReg_reg_self], rfl⟩
      · have hne' : a.assoc i ≠ some v := fun hi' => hwv (Option.some.inj (hi.symm.trans hi'))
        obtain ⟨ident, hident, hb⟩ := h.map.backed hi hw'
        refine ⟨ident, (if_neg hne').trans hident, ?_⟩
        rwa [Function.update_of_ne hwv]
    · simpa only [setRegValue, setInfo, RegAllocValueManager.emit, hasNoMoreUse_setReg] using hw

/-- **Loading**: what is loaded is the value. -/
theorem Inv.loadSource_eq (h : m.Inv a) {maybe : Bool} (hok : m.ValueLiveAndRegInfoOK v maybe)
    (hsome : ((m.info v).reg b.other).isSome ∨ (m.info v).IsConstantLikeNodeOrIsSpilled) :
    m.loadSource v b = some v := by
  unfold loadSource
  split
  · next ord hord => exact h.registers.held (h.registers.reg hord).1
  · next hnone =>
    split_ifs with hc
    · rfl
    · have hs : (m.info v).physicalSpillSlot.isSome := by
        simpa [hnone, ValueRegAllocInfo.IsConstantLikeNodeOrIsSpilled, hc] using hsome
      obtain ⟨p, hp⟩ := Option.isSome_iff_exists.mp hs
      rw [hp]
      exact h.owners.held ⟨hok.live hc, hp⟩

/-- The record of constants plays no part. -/
theorem Inv.withConstants (h : m.Inv a) (s t : Finset ℕ) :
    ({ m with constantsMaterialized := s, constantsDead := t } : RegAllocValueManager).Inv a where
  registers := ⟨h.registers.reg, h.registers.held⟩
  slots := h.slots.congr rfl rfl rfl rfl rfl rfl
  owners := h.owners.congr rfl rfl (fun _ _ => Iff.rfl) fun _ _ => rfl
  map := h.map.congr rfl (fun _ hv => hv) (fun _ _ hv => hv) fun _ _ _ hb => hb
  values := ⟨h.values.dead_born, h.values.unused⟩

/-- `LoadRegister`. -/
theorem Inv.loadRegister (h : m.Inv a) (hm : m.loadRegister v r = some m') : m'.Inv a := by
  simp only [RegAllocValueManager.loadRegister, testAssert_eq_some, Option.some.injEq] at hm
  obtain ⟨hok, ⟨hnone, hlt⟩, hsome, hto, rfl⟩ := hm
  have hinv := h.withConstants
    (if (m.info v).reg r.bank.other = none ∧ (m.info v).IsConstantLikeNode then
      insert v m.constantsMaterialized else m.constantsMaterialized) m.constantsDead
  rw [h.loadSource_eq hok hsome]
  exact hinv.occupy (not_isInUse_of_isScratchOrDuplication hto) hlt hnone

/-- Writing a location where no value lives. -/
theorem Inv.emit (h : m.Inv a) {dst : Loc} (hd : m.IsVacant dst) (content : Option ℕ) :
    (m.emit dst content).Inv a where
  registers := by
    refine ⟨h.registers.reg, fun {r w} hr => ?_⟩
    have hne : Loc.reg r ≠ dst := by
      rintro rfl
      exact hd (hr ▸ trivial)
    simp only [RegAllocValueManager.emit, Function.update_of_ne hne]
    exact h.registers.held hr
  slots := h.slots.congr rfl rfl rfl rfl rfl rfl
  owners := by
    refine h.owners.congr rfl rfl (fun _ _ => Iff.rfl) fun p hp => ?_
    have hne : Loc.stack p ≠ dst := by
      rintro rfl
      exact hd hp
    simp only [RegAllocValueManager.emit, Function.update_of_ne hne]
  map := h.map.congr rfl (fun _ hv => hv) (fun _ _ hv => hv) fun _ _ _ hb => hb
  values := ⟨h.values.dead_born, h.values.unused⟩

/-- The state of a register that no value claims. -/
theorem Inv.setRegValue (h : m.Inv a) {st : RegisterValue} (hr : ¬ (m.regValue r).IsInUse)
    (hst : ¬ st.IsInUse) : (m.setRegValue r st).Inv a where
  registers := by
    refine ⟨fun {w b ord} hreg => ?_, fun {r' w} hr' => ?_⟩
    · obtain ⟨huse, hlt⟩ := h.registers.reg hreg
      refine ⟨?_, hlt⟩
      simp only [RegAllocValueManager.setRegValue]
      rw [Function.update_of_ne, huse]
      rintro rfl
      exact hr (huse ▸ trivial)
    · simp only [RegAllocValueManager.setRegValue] at hr'
      by_cases hrr : r' = r
      · subst hrr
        rw [Function.update_self] at hr'
        exact absurd (hr' ▸ trivial) hst
      · rw [Function.update_of_ne hrr] at hr'
        exact h.registers.held hr'
  slots := h.slots.congr rfl rfl rfl rfl rfl rfl
  owners := h.owners.congr rfl rfl (fun _ _ => Iff.rfl) fun _ _ => rfl
  map := h.map.congr rfl (fun _ hv => hv) (fun _ _ hv => hv) fun _ _ _ hb => hb
  values := ⟨h.values.dead_born, h.values.unused⟩

/-- `DuplicateRegister`. -/
theorem Inv.duplicateRegister (h : m.Inv a) {src dst : ℕ}
    (hm : m.duplicateRegister v b src dst = some m') : m'.Inv a := by
  simp only [RegAllocValueManager.duplicateRegister, testAssert_eq_some, Option.some.injEq] at hm
  obtain ⟨-, -, hto, rfl⟩ := hm
  have hvacant := not_isInUse_of_isScratchOrDuplication hto
  have hdst : m.IsVacant (.reg ⟨b, dst⟩) := hvacant
  exact (h.emit hdst _).setRegValue hvacant id

/-- A value is born with neither shadow slots nor a spill slot. -/
theorem Inv.bear (h : m.Inv a) (hv : m.NotBornYet v) :
    ({ m with valuesBorn := insert v m.valuesBorn } : RegAllocValueManager).Inv a := by
  obtain ⟨hc, -, -, hs, hborn⟩ := hv
  have hlive : ∀ {w}, w ≠ v → (({ m with valuesBorn := insert v m.valuesBorn } :
      RegAllocValueManager).Live w ↔ m.Live w) := by
    intro w hw
    simp [Live, hw]
  refine ⟨⟨h.registers.reg, h.registers.held⟩, h.slots.congr rfl rfl rfl rfl rfl rfl,
    h.owners.congr rfl rfl (fun w p => ?_) fun _ _ => rfl, h.map.congr rfl (fun w hw => ?_)
    (fun w hw hn => ?_) fun _ _ _ hb => hb,
    h.values.congr rfl (Finset.subset_insert _ _) rfl fun _ hu => hu⟩
  · by_cases hw : w = v
    · subst hw
      simp [Owns, hs]
    · rw [Owns, Owns, hlive hw]
  · exact ⟨hw.1, Finset.mem_insert_of_mem hw.2⟩
  · have hwv : w ≠ v := fun hwv => hborn (hwv ▸ hw)
    exact ⟨(hlive hwv).mp hn.1, hn.2⟩

/-- `ProcessBornInRegister`. -/
theorem Inv.processBornInRegister (h : m.Inv a) (hm : m.processBornInRegister v r = some m') :
    m'.Inv a := by
  simp only [RegAllocValueManager.processBornInRegister, testAssert_eq_some,
    Option.some.injEq] at hm
  obtain ⟨⟨hv, hlt⟩, hr, rfl⟩ := hm
  have hnone : (m.info v).reg r.bank = none := by
    cases r.bank with
    | gpr => exact hv.2.1
    | fpr => exact hv.2.2.1
  exact (h.bear hv).occupy hr hlt hnone

/-- **Born on the stack**: the slot the node was given becomes the value's own. -/
theorem Inv.processBornOnStack (h : m.Inv a) (hm : m.processBornOnStack v p = some m') :
    m'.Inv a := by
  simp only [RegAllocValueManager.processBornOnStack, testAssert_eq_some, Option.some.injEq] at hm
  obtain ⟨hv, ⟨hslot, hlt⟩, ⟨hfree, hinUse⟩, rfl⟩ := hm
  have hb := h.bear hv
  have hs := hv.2.2.2.1
  have hlive : ({ m with valuesBorn := insert v m.valuesBorn } : RegAllocValueManager).Live v :=
    ⟨hv.1, Finset.mem_insert_self _ _, fun hd => hv.2.2.2.2 (h.values.dead_born hd)⟩
  refine ⟨?_, ?_, ?_, ?_, hb.values.congr rfl subset_rfl rfl fun w hw => ?_⟩
  · refine ⟨fun {w b ord} hreg => hb.registers.reg ?_, hb.registers.held⟩
    rw [← hreg]
    exact (congrFun (apply_update_info ValueRegAllocInfo.reg m.info
      ((m.info v).setPhysicalSpillSlot p) rfl w) b).symm
  · refine ⟨h.slots.first_le, h.slots.free_eq, h.slots.free_nodup, ?_, ?_, ?_, ?_, ?_⟩
    · intro q hq hu
      rcases Finset.mem_insert.mp hu with rfl | hu
      · exact hfree hq
      · exact h.slots.free_inUse hq hu
    · intro q hq
      exact h.slots.handedOut_free (Finset.mem_of_mem_erase hq)
    · intro q hq hu
      obtain ⟨hne, hq⟩ := Finset.mem_erase.mp hq
      exact h.slots.handedOut_inUse hq ((Finset.mem_insert.mp hu).resolve_left hne)
    · intro q hq
      exact h.slots.handedOut_lt (Finset.mem_of_mem_erase hq)
    · intro q hq
      by_cases hqp : q = p
      · exact Or.inr (Or.inl (hqp ▸ Finset.mem_insert_self _ _))
      · rcases h.slots.cover hq with hf | hu | ho
        · exact Or.inl hf
        · exact Or.inr (Or.inl (Finset.mem_insert_of_mem hu))
        · exact Or.inr (Or.inr (Finset.mem_erase.mpr ⟨hqp, ho⟩))
  · refine hb.owners.acquire (v := v) rfl rfl hinUse hslot.1 hlt (fun w q => ?_) ?_ fun q hq => ?_
    · exact owns_setPhysicalSpillSlot hlive hs w q
    · simp only [setInfo, RegAllocValueManager.emit, Function.update_self]
    · have hne : Loc.stack q ≠ .stack p := fun heq => hinUse (Loc.stack.inj heq ▸ hq)
      simp only [setInfo, RegAllocValueManager.emit, Function.update_of_ne hne]
  · -- the value has no shadow slot yet, and the others are as they were
    have hne : ∀ {i w}, a.assoc i = some w → w ≠ v := by
      rintro i w hi rfl
      exact hv.2.2.2.2 (h.map.born hi).2
    refine ⟨hb.map.refines, fun {i w} hi => ?_, fun {i w} hi hn => ?_⟩
    · have hw := hb.map.born hi
      simpa [setInfo, RegAllocValueManager.emit, hne hi] using hw
    · have hn' : ({ m with valuesBorn := insert v m.valuesBorn } :
          RegAllocValueManager).Needed w := by
        simpa [Needed, Live, setInfo, RegAllocValueManager.emit, hne hi] using hn
      obtain ⟨ident, hident, hbk⟩ := hb.map.backed hi hn'
      refine ⟨ident, hident, ?_⟩
      simpa [Backs, setInfo, RegAllocValueManager.emit, hne hi] using hbk
  · rwa [← apply_update_info ValueRegAllocInfo.HasNoMoreUseInBothGprAndFpr m.info
      ((m.info v).setPhysicalSpillSlot p) rfl w] at hw

/-- A slot goes back to the free list. -/
theorem SlotsOK.free (h : m.SlotsOK) (hp : p ∉ m.freeSpillSlots) :
    ({ m with
      spillSlotFreeList := p :: m.spillSlotFreeList
      inUseSpillSlots := m.inUseSpillSlots.erase p
      freeSpillSlots := insert p m.freeSpillSlots
      handedOut := m.handedOut.erase p } : RegAllocValueManager).SlotsOK where
  first_le := h.first_le
  free_eq := by simp [h.free_eq]
  free_nodup := List.nodup_cons.mpr ⟨by simpa [h.free_eq] using hp, h.free_nodup⟩
  free_inUse {q} hq hu := by
    obtain ⟨hne, hu⟩ := Finset.mem_erase.mp hu
    exact h.free_inUse ((Finset.mem_insert.mp hq).resolve_left hne) hu
  handedOut_free {q} hq hf := by
    obtain ⟨hne, hq⟩ := Finset.mem_erase.mp hq
    exact h.handedOut_free hq ((Finset.mem_insert.mp hf).resolve_left hne)
  handedOut_inUse {q} hq hu :=
    h.handedOut_inUse (Finset.mem_of_mem_erase hq) (Finset.mem_of_mem_erase hu)
  handedOut_lt {q} hq := h.handedOut_lt (Finset.mem_of_mem_erase hq)
  cover {q} hq := by
    by_cases hqp : q = p
    · exact Or.inl (hqp ▸ Finset.mem_insert_self _ _)
    · rcases h.cover hq with hf | hu | ho
      · exact Or.inl (Finset.mem_insert_of_mem hf)
      · exact Or.inr (Or.inl (Finset.mem_erase.mpr ⟨hqp, hu⟩))
      · exact Or.inr (Or.inr (Finset.mem_erase.mpr ⟨hqp, ho⟩))

/-- Only the slots of the dead value stop being in use. -/
theorem OwnersOK.die (h : m.OwnersOK) (hlayout : m'.layout = m.layout)
    (hmachine : m'.machine = m.machine) (howns : ∀ w q, m'.Owns w q ↔ w ≠ v ∧ m.Owns w q)
    (hinUse : ∀ q, q ∈ m'.inUseSpillSlots ↔ q ∈ m.inUseSpillSlots ∧ ¬ m.Owns v q) :
    m'.OwnersOK where
  inUse {w q} hq := by
    obtain ⟨hne, hq⟩ := (howns w q).mp hq
    exact (hinUse q).mpr ⟨h.inUse hq, fun hv => hne (h.unique hq hv)⟩
  ge {w q} hq := by
    rw [hlayout]
    exact h.ge ((howns w q).mp hq).2
  lt {w q} hq := h.lt ((howns w q).mp hq).2
  held {w q} hq := by
    rw [hmachine]
    exact h.held ((howns w q).mp hq).2
  unique {w w' q} hw hw' := h.unique ((howns w q).mp hw).2 ((howns w' q).mp hw').2
  owned {q} hq := by
    obtain ⟨hq, hv⟩ := (hinUse q).mp hq
    obtain ⟨w, hw⟩ := h.owned hq
    exact ⟨w, (howns w q).mpr ⟨fun hwv => hv (hwv ▸ hw), hw⟩⟩

/-- **Death**: the slot of the value, if it has one, is free again. -/
theorem Inv.processDeath (h : m.Inv a) (hm : m.processDeath v = some m') : m'.Inv a := by
  simp only [RegAllocValueManager.processDeath, testAssert_eq_some] at hm
  obtain ⟨hok, -, -, hm⟩ := hm
  split_ifs at hm with hc
  · simp only [testAssert_eq_some, Option.some.injEq] at hm
    obtain ⟨-, rfl⟩ := hm
    exact h.withConstants m.constantsMaterialized (insert v m.constantsDead)
  · have hlive := hok.live hc
    obtain ⟨m₁, hm₁, hm⟩ := Option.bind_eq_some_iff.mp hm
    simp only [testAssert_eq_some, Option.some.injEq] at hm
    obtain ⟨-, rfl⟩ := hm
    have hborn : ∀ {w}, w ∈ insert v m.valuesDead → w ∈ m.valuesBorn := by
      intro w hw
      rcases Finset.mem_insert.mp hw with rfl | hw
      · exact hlive.2.1
      · exact h.values.dead_born hw
    split at hm₁
    · next p hp =>
      simp only [deallocateSpillSlot, testAssert_eq_some, Option.some.injEq] at hm₁
      obtain ⟨-, -, ⟨hinUse, hfree⟩, rfl⟩ := hm₁
      have hout : p ∉ m.handedOut := fun ho => h.slots.handedOut_inUse ho hinUse
      have hslots := h.slots.free hfree
      rw [Finset.erase_eq_of_notMem hout] at hslots
      refine ⟨⟨h.registers.reg, h.registers.held⟩, hslots.congr rfl rfl rfl rfl rfl rfl,
        h.owners.die (v := v) rfl rfl (fun w q => ?_) fun q => ?_,
        h.map.congr rfl (fun _ hv => hv) (fun w _ hw => ?_) fun _ _ _ hb => hb,
        ⟨hborn, h.values.unused⟩⟩
      · simp only [Owns, Live, Finset.mem_insert, not_or]
        tauto
      · rw [Finset.mem_erase, Owns, hp, Option.some.injEq]
        simp only [hlive, true_and]
        tauto
      · simp only [Needed, Live, Finset.mem_insert, not_or] at hw ⊢
        tauto
    · next hp =>
      obtain rfl := Option.some.inj hm₁
      refine ⟨⟨h.registers.reg, h.registers.held⟩, h.slots.congr rfl rfl rfl rfl rfl rfl,
        h.owners.die (v := v) rfl rfl (fun w q => ?_) fun q => ?_,
        h.map.congr rfl (fun _ hv => hv) (fun w _ hw => ?_) fun _ _ _ hb => hb,
        ⟨hborn, h.values.unused⟩⟩
      · simp only [Owns, Live, Finset.mem_insert, not_or]
        tauto
      · simp [Owns, hp]
      · simp only [Needed, Live, Finset.mem_insert, not_or] at hw ⊢
        tauto

/-! ### The exit map -/

/-- A call of the exit map alone, that keeps every association which names a location of its
value. -/
theorem Inv.callOsrExitMap (h : m.Inv a) {c : DfgOsrExitMapBuilder.Call}
    (hm : m.callOsrExitMap c = some m') (hborn : ∀ {i w}, (a.call c).assoc i = some w →
      a.assoc i = some w ∨ ¬ (m.info w).IsConstantLikeNode ∧ w ∈ m.valuesBorn)
    (hbacked : ∀ {i w}, (a.call c).assoc i = some w → m.Needed w →
      a.assoc i = some w ∧ (a.call c).value i = a.value i ∨
      ∃ ident, (a.call c).value i = some ident ∧ m.Backs w ident) : m'.Inv (a.call c) := by
  obtain ⟨b, hb, rfl⟩ := callOsrExitMap_eq hm
  refine ⟨⟨h.registers.reg, h.registers.held⟩, h.slots.congr rfl rfl rfl rfl rfl rfl,
    h.owners.congr rfl rfl (fun _ _ => Iff.rfl) fun _ _ => rfl,
    ⟨(h.map.refines.call hb).1, fun {i w} hi => ?_, fun {i w} hi hw => ?_⟩,
    ⟨h.values.dead_born, h.values.unused⟩⟩
  · exact (hborn hi).elim h.map.born id
  · rcases hbacked hi hw with ⟨hi', hval⟩ | hnew
    · obtain ⟨ident, hident, hb⟩ := h.map.backed hi' hw
      exact ⟨ident, hval.trans hident, hb⟩
    · exact hnew

/-- A slot that stops being associated needs nothing. -/
theorem Inv.setAndDeassociate (h : m.Inv a) {slot : ℕ} {ident : BitVec 16}
    (hm : m.callOsrExitMap (.setAndDeassociate slot ident) = some m') : ∃ a', m'.Inv a' := by
  have hold : ∀ {i w}, (a.call (.setAndDeassociate slot ident)).assoc i = some w →
      i ≠ slot ∧ a.assoc i = some w := by
    intro i w hi
    simp only [ExitMap.call] at hi
    by_cases his : i = slot
    · subst his
      simp at hi
    · rw [Function.update_of_ne his] at hi
      exact ⟨his, hi⟩
  refine ⟨_, h.callOsrExitMap hm (fun hi => Or.inl (hold hi).2) fun hi _ =>
    Or.inl ⟨(hold hi).2, ?_⟩⟩
  simp only [ExitMap.call, Function.update_of_ne (hold hi).1]

/-- What `RecoverFrom` names holds the value. -/
theorem backs_recoverFrom {ident : ℕ} (h : m.recoverFrom v = some ident) :
    m.Backs v (BitVec.ofNat 16 ident) := by
  unfold recoverFrom at h
  unfold Backs
  cases hs : (m.info v).physicalSpillSlot with
  | some p =>
    rw [hs] at h
    obtain rfl := Option.some.inj h
    rfl
  | none =>
    rw [hs] at h
    simp only at h ⊢
    split at h
    · next ord hord =>
      obtain rfl := Option.some.inj h
      exact ⟨.fpr, ord, hord, rfl⟩
    · obtain ⟨ord, hord, rfl⟩ := Option.map_eq_some_iff.mp h
      exact ⟨.gpr, ord, hord, rfl⟩

/-- **A shadow store** names the place the value is kept in. -/
theorem Inv.processShadowStore (h : m.Inv a) {slot : ℕ}
    (hm : m.processShadowStore v slot = some m') : ∃ a', m'.Inv a' := by
  simp only [RegAllocValueManager.processShadowStore, testAssert_eq_some] at hm
  obtain ⟨hok, hm⟩ := hm
  split at hm
  · exact (h.withConstants (insert v m.constantsMaterialized) m.constantsDead).setAndDeassociate hm
  · next hc =>
    obtain ⟨ident, hident, hm⟩ := Option.bind_eq_some_iff.mp hm
    have hnc : ¬ (m.info v).IsConstantLikeNode := by simp [ValueRegAllocInfo.IsConstantLikeNode, hc]
    have hlive := hok.live hnc
    refine ⟨_, h.callOsrExitMap hm (fun {i w} hi => ?_) fun {i w} hi hw => ?_⟩
    · simp only [ExitMap.call] at hi
      by_cases his : i = slot
      · subst his
        rw [Function.update_self, Option.some.injEq] at hi
        subst hi
        exact Or.inr ⟨hnc, hlive.2.1⟩
      · rw [Function.update_of_ne his] at hi
        exact Or.inl hi
    · simp only [ExitMap.call] at hi ⊢
      by_cases his : i = slot
      · subst his
        rw [Function.update_self, Option.some.injEq] at hi
        subst hi
        exact Or.inr ⟨_, Function.update_self _ _ _, backs_recoverFrom hident⟩
      · rw [Function.update_of_ne his] at hi ⊢
        exact Or.inl ⟨hi, rfl⟩

/-- `ProcessSetLocal`. -/
theorem Inv.processSetLocal (h : m.Inv a) {slot : ℕ} (hm : m.processSetLocal v slot p = some m') :
    ∃ a', m'.Inv a' := by
  simp only [RegAllocValueManager.processSetLocal, testAssert_eq_some] at hm
  obtain ⟨-, -, hm⟩ := hm
  split_ifs at hm with hc
  · obtain rfl := Option.some.inj hm
    exact ⟨a, h⟩
  · exact h.setAndDeassociate hm

/-! ### The pool of spill slots -/

/-- **A slot is handed out** without an owner. -/
theorem Inv.allocateSpillSlotForTemporary (h : m.Inv a)
    (hm : m.allocateSpillSlotForTemporaryOrSSABornOnStack = some (p, m')) : m'.Inv a := by
  obtain ⟨⟨p', m₁⟩, halloc, hm⟩ := Option.bind_eq_some_iff.mp hm
  simp only [testAssert_eq_some, Option.some.injEq, Prod.mk.injEq] at hm
  obtain ⟨-, rfl, rfl⟩ := hm
  obtain ⟨hslots, hsame, hinUse, hout, hp, hp', -, hlt⟩ := h.slots.allocateSpillSlot halloc
  have herase : m₁.inUseSpillSlots.erase p' = m.inUseSpillSlots := by
    rw [hinUse, Finset.erase_insert hp]
  have hmem : p' ∈ m₁.inUseSpillSlots := by
    rw [hinUse]
    exact Finset.mem_insert_self _ _
  refine h.ofSlots ⟨hsame.1, hsame.2, hsame.3, hsame.4, hsame.5, hsame.6, hsame.7,
    hsame.8⟩ ?_ herase
  refine ⟨hslots.first_le, hslots.free_eq, hslots.free_nodup, ?_, ?_, ?_, ?_, ?_⟩
  · intro q hq hu
    exact hslots.free_inUse hq (Finset.mem_of_mem_erase hu)
  · intro q hq hf
    rcases Finset.mem_insert.mp hq with rfl | hq
    · exact hslots.free_inUse hf hmem
    · exact hslots.handedOut_free hq hf
  · intro q hq hu
    obtain ⟨hne, hu⟩ := Finset.mem_erase.mp hu
    exact hslots.handedOut_inUse ((Finset.mem_insert.mp hq).resolve_left hne) hu
  · intro q hq
    rcases Finset.mem_insert.mp hq with rfl | hq
    · exact hlt
    · exact hslots.handedOut_lt hq
  · intro q hq
    by_cases hqp : q = p'
    · exact Or.inr (Or.inr (hqp ▸ Finset.mem_insert_self _ _))
    · rcases hslots.cover hq with hf | hu | ho
      · exact Or.inl hf
      · exact Or.inr (Or.inl (Finset.mem_erase.mpr ⟨hqp, hu⟩))
      · exact Or.inr (Or.inr (Finset.mem_insert_of_mem ho))

/-- **Reserving**: the new slots are free. -/
theorem Inv.reserveSpillSlots (h : m.Inv a) {n : ℕ} (hm : m.reserveSpillSlots n = some m') :
    m'.Inv a := by
  simp only [RegAllocValueManager.reserveSpillSlots, testAssert_eq_some] at hm
  obtain ⟨⟨-, haccounted⟩, hm⟩ := hm
  split_ifs at hm with hlt
  · simp only [Option.bind_eq_some_iff, testAssert_eq_some, Option.some.injEq] at hm
    obtain ⟨m₁, hm₁, hfresh, rfl⟩ := hm
    obtain rfl := growFrame_eq hm₁
    refine h.ofSlots ⟨rfl, rfl, rfl, rfl, rfl, rfl, rfl, rfl⟩ ?_ rfl
    refine ⟨h.slots.first_le.trans (Nat.le_add_right _ _), ?_, ?_, ?_, ?_, h.slots.handedOut_inUse,
      fun ho => (h.slots.handedOut_lt ho).trans_le (Nat.le_add_right _ _), ?_⟩
    · ext q
      simp only [h.slots.free_eq, Finset.mem_union, List.mem_toFinset, Finset.mem_Ico,
        List.mem_append, List.mem_reverse, List.mem_range'_1]
      tauto
    · refine List.Nodup.append (List.nodup_reverse.mpr List.nodup_range') h.slots.free_nodup ?_
      intro q hq hf
      rw [List.mem_reverse, List.mem_range'_1] at hq
      exact hfresh q (Finset.mem_Ico.mpr hq) (by simpa [h.slots.free_eq] using hf)
    · intro q hq hu
      rcases Finset.mem_union.mp hq with hq | hq
      · exact h.slots.free_inUse hq hu
      · have := (haccounted.2.2.1 q hu).2
        have := (Finset.mem_Ico.mp hq).1
        omega
    · intro q ho hq
      rcases Finset.mem_union.mp hq with hq | hq
      · exact h.slots.handedOut_free ho hq
      · have := h.slots.handedOut_lt ho
        have := (Finset.mem_Ico.mp hq).1
        omega
    · rintro q ⟨hge, hq⟩
      by_cases hold : q < m.totalNumPhysicalSlots
      · exact (h.slots.cover ⟨hge, hold⟩).imp_left (Finset.mem_union_left _)
      · exact Or.inl (Finset.mem_union_right _ (Finset.mem_Ico.mpr ⟨not_lt.mp hold, hq⟩))
  · obtain rfl := Option.some.inj hm
    exact h

/-- **A range** at the end of the frame is handed out. -/
theorem Inv.allocatePhysicalRange (h : m.Inv a) {n start : ℕ}
    (hm : m.allocatePhysicalRange n = some (start, m')) : m'.Inv a := by
  simp only [RegAllocValueManager.allocatePhysicalRange, testAssert_eq_some,
    Option.map_eq_some_iff, Prod.mk.injEq] at hm
  obtain ⟨⟨-, haccounted⟩, m₁, hm₁, -, rfl⟩ := hm
  obtain rfl := growFrame_eq hm₁
  refine h.ofSlots ⟨rfl, rfl, rfl, rfl, rfl, rfl, rfl, rfl⟩ ?_ rfl
  refine ⟨h.slots.first_le.trans (Nat.le_add_right _ _), h.slots.free_eq, h.slots.free_nodup,
    h.slots.free_inUse, ?_, ?_, ?_, ?_⟩
  · intro q ho hf
    rcases Finset.mem_union.mp ho with ho | ho
    · exact h.slots.handedOut_free ho hf
    · have := (haccounted.2.1 q hf).2
      have := (Finset.mem_Ico.mp ho).1
      omega
  · intro q ho hu
    rcases Finset.mem_union.mp ho with ho | ho
    · exact h.slots.handedOut_inUse ho hu
    · have := (haccounted.2.2.1 q hu).2
      have := (Finset.mem_Ico.mp ho).1
      omega
  · intro q ho
    rcases Finset.mem_union.mp ho with ho | ho
    · exact (h.slots.handedOut_lt ho).trans_le (Nat.le_add_right _ _)
    · exact (Finset.mem_Ico.mp ho).2
  · rintro q ⟨hge, hq⟩
    by_cases hold : q < m.totalNumPhysicalSlots
    · exact (h.slots.cover ⟨hge, hold⟩).imp_right (Or.imp_right (Finset.mem_union_left _))
    · exact Or.inr (Or.inr (Finset.mem_union_right _ (Finset.mem_Ico.mpr ⟨not_lt.mp hold, hq⟩)))

theorem Inv.markUnaccountedPhysicalSlotAsFree (h : m.Inv a)
    (hm : m.markUnaccountedPhysicalSlotAsFree p = some m') : m'.Inv a := by
  simp only [RegAllocValueManager.markUnaccountedPhysicalSlotAsFree, testAssert_eq_some,
    Option.some.injEq] at hm
  obtain ⟨-, -, ⟨hinUse, hfree⟩, rfl⟩ := hm
  have hslots := h.slots.free hfree
  rw [Finset.erase_eq_of_notMem hinUse] at hslots
  exact h.ofSlots ⟨rfl, rfl, rfl, rfl, rfl, rfl, rfl, rfl⟩
    (hslots.congr rfl rfl rfl rfl rfl rfl) rfl

/-- **Shrinking** drops handed out slots only. -/
theorem Inv.shrinkPhysicalFrameLength (h : m.Inv a) {n n' : ℕ}
    (hm : m.shrinkPhysicalFrameLength n n' = some m') : m'.Inv a := by
  simp only [RegAllocValueManager.shrinkPhysicalFrameLength, testAssert_eq_some,
    Option.some.injEq] at hm
  obtain ⟨-, ⟨rfl, hle⟩, -, hfirst, rfl⟩ := hm
  refine h.ofSlots ⟨rfl, rfl, rfl, rfl, rfl, rfl, rfl, rfl⟩ ?_ rfl
  refine ⟨hfirst, h.slots.free_eq, h.slots.free_nodup, h.slots.free_inUse,
    fun ho => h.slots.handedOut_free (Finset.mem_filter.mp ho).1,
    fun ho => h.slots.handedOut_inUse (Finset.mem_filter.mp ho).1,
    fun ho => (Finset.mem_filter.mp ho).2, fun {q} hq => ?_⟩
  rcases h.slots.cover ⟨hq.1, lt_of_lt_of_le hq.2 hle⟩ with hf | hu | ho
  · exact Or.inl hf
  · exact Or.inr (Or.inl hu)
  · exact Or.inr (Or.inr (Finset.mem_filter.mpr ⟨ho, hq.2⟩))

/-! ### Between the operations -/

theorem afterNode_eq_inUse {st : RegisterValue} : afterNode st = .inUse v ↔ st = .inUse v := by
  cases st <;> simp [afterNode]

/-- The update of the registers after a node. -/
theorem Inv.updateRegisterState (h : m.Inv a)
    (hm : m.updateRegisterStateAfterNodeExecutedAndOutputsBorn = some m') : m'.Inv a := by
  simp only [updateRegisterStateAfterNodeExecutedAndOutputsBorn, testAssert_eq_some,
    Option.some.injEq] at hm
  obtain ⟨-, rfl⟩ := hm
  refine ⟨⟨fun {w b ord} hreg => ?_, fun {r w} hr => ?_⟩, h.slots.congr rfl rfl rfl rfl rfl rfl,
    h.owners.congr rfl rfl (fun _ _ => Iff.rfl) fun _ _ => rfl,
    h.map.congr rfl (fun _ hv => hv) (fun _ _ hv => hv) fun _ _ _ hb => hb,
    ⟨h.values.dead_born, h.values.unused⟩⟩
  · obtain ⟨huse, hlt⟩ := h.registers.reg hreg
    exact ⟨afterNode_eq_inUse.mpr huse, hlt⟩
  · exact h.registers.held (afterNode_eq_inUse.mp hr)

/-- **Uses run out** and never come back. -/
theorem Inv.setNextUseInfoInRegBank (h : m.Inv a) {u : ℕ} {n : Option ℕ}
    (hm : m.setNextUseInfoInRegBank v b u n = some m') : m'.Inv a := by
  simp only [RegAllocValueManager.setNextUseInfoInRegBank, testAssert_eq_some,
    Option.some.injEq] at hm
  obtain ⟨⟨huse, -⟩, rfl⟩ := hm
  have hsame : ∀ {X : Type} (f : ValueRegAllocInfo → X) (w : ℕ),
      f ((m.info v).setNextUse b n) = f (m.info v) →
      f ((m.setInfo v ((m.info v).setNextUse b n)).info w) = f (m.info w) :=
    fun f w hf => apply_update_info f m.info _ hf w
  have hconst := fun w => hsame ValueRegAllocInfo.IsConstantLikeNode w rfl
  have hspill := fun w => hsame ValueRegAllocInfo.physicalSpillSlot w rfl
  have hreg := fun w => hsame ValueRegAllocInfo.reg w rfl
  have hlive : ∀ w, (m.setInfo v ((m.info v).setNextUse b n)).Live w ↔ m.Live w := by
    intro w
    rw [Live, Live, hconst]
    rfl
  refine ⟨⟨fun {w b ord} hr => ?_, h.registers.held⟩, h.slots.congr rfl rfl rfl rfl rfl rfl,
    h.owners.congr rfl rfl (fun w p => ?_) fun _ _ => rfl,
    h.map.congr rfl (fun w hw => ?_) (fun w _ hw => ?_) fun w ident _ hb => ?_,
    ⟨h.values.dead_born, fun {w} hw => ?_⟩⟩
  · rw [hreg] at hr
    exact h.registers.reg hr
  · rw [Owns, Owns, hlive, hspill]
  · rw [hconst]
    exact hw
  · exact ⟨(hlive w).mp hw.1, hw.2⟩
  · unfold Backs at hb ⊢
    rw [hspill, hreg]
    exact hb
  · have hno := h.values.unused hw
    have hwv : w ≠ v := by
      rintro rfl
      cases b with
      | gpr => rw [hno.1] at huse; cases huse
      | fpr => rw [hno.2] at huse; cases huse
    simpa [setInfo, hwv] using hno

theorem Inv.materializeConstantToTempReg (h : m.Inv a)
    (hm : m.materializeConstantToTempReg v = some m') : m'.Inv a := by
  simp only [RegAllocValueManager.materializeConstantToTempReg, testAssert_eq_some,
    Option.some.injEq] at hm
  obtain ⟨-, rfl⟩ := hm
  have htemp : ({ m with constantsMaterialized := insert v m.constantsMaterialized } :
    RegAllocValueManager).IsVacant .tempReg := trivial
  exact (h.withConstants (insert v m.constantsMaterialized) m.constantsDead).emit htemp _

/-- Writing a place that no value lives in. -/
theorem Inv.clobber (h : m.Inv a) {dst : Loc} {content : Option ℕ}
    (hm : m.clobber dst content = some m') : m'.Inv a := by
  simp only [RegAllocValueManager.clobber, testAssert_eq_some, Option.some.injEq] at hm
  obtain ⟨hvacant, rfl⟩ := hm
  exact h.emit hvacant content

/-! ## Runs -/

/-- **One operation.** -/
theorem Inv.step (h : m.Inv a) {op : Op} (hm : m.step op = some m') : ∃ a', m'.Inv a' := by
  cases op with
  | evictRegister v r out => exact h.evictRegister hm
  | relocateRegister v b src dst => exact h.relocateRegister hm
  | duplicateRegister v b src dst => exact ⟨a, h.duplicateRegister hm⟩
  | loadRegister v r => exact ⟨a, h.loadRegister hm⟩
  | killRegister v r => exact ⟨a, h.killRegister hm⟩
  | processDeath v => exact ⟨a, h.processDeath hm⟩
  | processBornInRegister v r => exact ⟨a, h.processBornInRegister hm⟩
  | processBornOnStack v p => exact ⟨a, h.processBornOnStack hm⟩
  | processShadowStore v slot => exact h.processShadowStore hm
  | processSetLocal v slot p => exact h.processSetLocal hm
  | allocateSpillSlotForTemporaryOrSSABornOnStack =>
    obtain ⟨⟨p, m₁⟩, hm₁, rfl⟩ := Option.map_eq_some_iff.mp hm
    exact ⟨a, h.allocateSpillSlotForTemporary hm₁⟩
  | reserveSpillSlots n => exact ⟨a, h.reserveSpillSlots hm⟩
  | allocatePhysicalRange n =>
    obtain ⟨⟨p, m₁⟩, hm₁, rfl⟩ := Option.map_eq_some_iff.mp hm
    exact ⟨a, h.allocatePhysicalRange hm₁⟩
  | markUnaccountedPhysicalSlotAsFree p => exact ⟨a, h.markUnaccountedPhysicalSlotAsFree hm⟩
  | shrinkPhysicalFrameLength n n' => exact ⟨a, h.shrinkPhysicalFrameLength hm⟩
  | materializeConstantToTempReg v => exact ⟨a, h.materializeConstantToTempReg hm⟩
  | updateRegisterStateAfterNodeExecutedAndOutputsBorn => exact ⟨a, h.updateRegisterState hm⟩
  | setNextUseInfoInRegBank v b u n => exact ⟨a, h.setNextUseInfoInRegBank hm⟩
  | clobber dst content => exact ⟨a, h.clobber hm⟩

/-- **Every admitted sequence of operations.** -/
theorem Inv.run : ∀ {ops : List Op} {m : RegAllocValueManager} {a : ExitMap}, m.Inv a →
    m.run ops = some m' → ∃ a', m'.Inv a'
  | [], m, a, h, hm => by
    obtain rfl := Option.some.inj hm
    exact ⟨a, h⟩
  | op :: ops, m, a, h, hm => by
    obtain ⟨m₁, hm₁, hrest⟩ := Option.bind_eq_some_iff.mp hm
    obtain ⟨a₁, h₁⟩ := h.step hm₁
    exact h₁.run hrest

/-! ## The results

A value with a use to come can be recovered at any exit, from the place that the exit map names. -/

/-- The value an OSR exit would find for an interpreter slot. -/
def recovered (m : RegAllocValueManager) (slot : ℕ) : Option ℕ :=
  (m.osrExitMap.queryCurrentValue slot).bind fun ident =>
    m.machine (m.layout.recoveryLocation ident)

/-- The OSR exit map recovers the value: each of its shadow slots names a location that holds it. -/
def Recovers (m : RegAllocValueManager) (v : ℕ) : Prop :=
  ∀ i ∈ m.osrExitMap.slotsAssociatedWith v, m.recovered i = some v

instance (m : RegAllocValueManager) (v : ℕ) : Decidable (m.Recovers v) :=
  inferInstanceAs (Decidable (∀ i ∈ _, _))

/-- The slot is on the free list, or owned by one value, or handed out, and only one of these. -/
def SlotInOneState (m : RegAllocValueManager) (p : ℕ) : Prop :=
  (p ∈ m.spillSlotFreeList ∧ (¬ ∃ v, m.Owns v p) ∧ p ∉ m.handedOut) ∨
  (p ∉ m.spillSlotFreeList ∧ (∃! v, m.Owns v p) ∧ p ∉ m.handedOut) ∨
  (p ∉ m.spillSlotFreeList ∧ (¬ ∃ v, m.Owns v p) ∧ p ∈ m.handedOut)

/-- A value that is needed can be recovered. -/
theorem Inv.recovers (h : m.Inv a) (hv : m.Needed v) : m.Recovers v := by
  intro i hi
  rw [h.map.refines.mem_slotsAssociatedWith] at hi
  obtain ⟨ident, hident, hb⟩ := h.map.backed hi hv
  rw [recovered, h.map.refines.queryCurrentValue_eq, hident]
  exact h.machine_of_backs hv.1 hb

/-- A spill slot is free or in use, never both. -/
theorem Inv.slotInOneState (h : m.Inv a) (hp : m.IsSpillSlot p) : m.SlotInOneState p := by
  have hlist : p ∈ m.spillSlotFreeList ↔ p ∈ m.freeSpillSlots := by simp [h.slots.free_eq]
  have howned : (∃ v, m.Owns v p) ↔ p ∈ m.inUseSpillSlots :=
    ⟨fun ⟨v, hv⟩ => h.owners.inUse hv, fun hp => h.owners.owned hp⟩
  rw [SlotInOneState, hlist, howned]
  rcases h.slots.cover hp with hf | hu | ho
  · exact Or.inl ⟨hf, h.slots.free_inUse hf, fun ho => h.slots.handedOut_free ho hf⟩
  · obtain ⟨v, hv⟩ := h.owners.owned hu
    exact Or.inr (Or.inl ⟨fun hf => h.slots.free_inUse hf hu,
      ⟨v, hv, fun w hw => h.owners.unique hw hv⟩, fun ho => h.slots.handedOut_inUse ho hu⟩)
  · exact Or.inr (Or.inr ⟨h.slots.handedOut_free ho, h.slots.handedOut_inUse ho, ho⟩)

/-- **The register allocator never loses a value**: after every admitted sequence of operations,
each live value that was not discarded is recovered from a location that holds it, only values
without further use are discarded, and each spill slot is in one state. -/
theorem recovers_of_run (l : FrameLayout)
    (values : ℕ → Option (BitVec 16) × (RegBank → Option ℕ)) (ops : List Op)
    (hrun : (init l values).run ops = some m) :
    (∀ v, m.Live v → v ∉ m.discarded → m.Recovers v) ∧
    (∀ v ∈ m.discarded, (m.info v).HasNoMoreUseInBothGprAndFpr) ∧
    m.spillSlotFreeList.Nodup ∧ ∀ p, m.IsSpillSlot p → m.SlotInOneState p := by
  obtain ⟨a, h⟩ := (init_inv l values).run hrun
  exact ⟨fun v hv hd => h.recovers ⟨hv, hd⟩, fun v hv => h.values.unused hv, h.slots.free_nodup,
    fun p hp => h.slotInOneState hp⟩

/-- A frame with one interpreter slot and no local. -/
def oneSlotFrame : FrameLayout := ⟨1, 0, 0, by decide⟩

/-- Value `0` is born in a register, shadow stored, spilled and loaded back, and the slot of its
last register is taken by value `1`. -/
def spillAndReload : List Op :=
  [.processBornInRegister 0 ⟨.gpr, 0⟩, .processShadowStore 0 0, .evictRegister 0 ⟨.gpr, 0⟩ true,
    .processBornInRegister 1 ⟨.gpr, 0⟩, .loadRegister 0 ⟨.fpr, 2⟩,
    .allocateSpillSlotForTemporaryOrSSABornOnStack]

theorem recovers_of_run_spillAndReload :
    ∃ m, (init oneSlotFrame fun _ => (none, fun _ => some 9)).run spillAndReload = some m ∧
      m.Live 0 ∧ 0 ∉ m.discarded ∧ m.Recovers 0 ∧ m.SlotInOneState 13 := by
  have hrun : ((init oneSlotFrame fun _ => (none, fun _ => some 9)).run spillAndReload).any
      fun m => decide (m.Live 0 ∧ 0 ∉ m.discarded ∧ m.IsSpillSlot 13) := by decide +kernel
  obtain ⟨m, hm, hlive⟩ := (Option.any_eq_true _ _).mp hrun
  obtain ⟨hlive, hkept, hp⟩ := of_decide_eq_true hlive
  obtain ⟨hrec, -, -, hslot⟩ := recovers_of_run _ _ _ hm
  exact ⟨m, hm, hlive, hkept, hrec 0 hlive hkept, hslot 13 hp⟩

/-- The output of a node takes the register of an input that has no further use. -/
def takenByOutput : List Op :=
  [.processBornInRegister 0 ⟨.gpr, 0⟩, .processShadowStore 0 0, .evictRegister 0 ⟨.gpr, 0⟩ true,
    .processBornInRegister 1 ⟨.gpr, 0⟩]

/-- **Not every live value is recovered, and not every spill slot is free or owned**: an input that
has no further use is live until its death is processed, after the output of the node took its
register; a slot for a temporary is neither free nor owned. -/
theorem not_every_live_value_recovers :
    (¬ ∀ (l : FrameLayout) (values : ℕ → Option (BitVec 16) × (RegBank → Option ℕ))
      (ops : List Op) (m : RegAllocValueManager), (init l values).run ops = some m →
      ∀ v, m.Live v → m.Recovers v) ∧
    ¬ ∀ (l : FrameLayout) (values : ℕ → Option (BitVec 16) × (RegBank → Option ℕ))
      (ops : List Op) (m : RegAllocValueManager), (init l values).run ops = some m →
      ∀ p, m.IsSpillSlot p → p ∈ m.spillSlotFreeList ∨ ∃ v, m.Owns v p := by
  constructor
  · intro h
    have hrun : ((init oneSlotFrame fun _ => (none, fun _ => none)).run takenByOutput).any
        fun m => decide (m.Live 0 ∧ ¬ m.Recovers 0) := by decide +kernel
    obtain ⟨m, hm, hno⟩ := (Option.any_eq_true _ _).mp hrun
    obtain ⟨hlive, hno⟩ := of_decide_eq_true hno
    exact hno (h _ _ _ m hm 0 hlive)
  · intro h
    have hrun : ((init oneSlotFrame fun _ => (none, fun _ => none)).run
        [.allocateSpillSlotForTemporaryOrSSABornOnStack]).any fun m =>
        decide (m.IsSpillSlot 13 ∧ 13 ∉ m.spillSlotFreeList ∧ m.valuesBorn = ∅) := by decide +kernel
    obtain ⟨m, hm, hno⟩ := (Option.any_eq_true _ _).mp hrun
    obtain ⟨hp, hfree, hborn⟩ := of_decide_eq_true hno
    rcases h _ _ _ m hm 13 hp with hf | ⟨v, hv⟩
    · exact hfree hf
    · have := hv.1.2.1
      simp [hborn] at this

end RegAllocValueManager

end Dsom
