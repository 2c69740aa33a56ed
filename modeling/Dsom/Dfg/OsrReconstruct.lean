import Dsom.Dfg.OsrFrameInfo
import Dsom.Dfg.StackLayoutSafe

/-!
# Dfg/OsrReconstruct — the records give back the interpreter's frames

A slot is recorded by the innermost frame that reaches down to it (`RecordedAt`).  A constant is
recorded exactly where the frame knows of a constant, and a physical slot where the plan keeps the
slot (`SlotAgrees`).  The loop stores the recorded values, each slot once (`reconstructLoop_spec`),
if the start and the length of the frame fit in 16 bits; a frame of three nested calls need not.
-/

namespace Dsom

open VirtualRegisterMappingInfo

/-! ## What planning makes of a slot

Planning decides where a slot lives, not what kind of slot it is. -/

/-- A slot, before physical slots are assigned. -/
def SlotInfo.kind : SlotInfo → SlotInfo
  | physical _ => needed
  | slot => slot

theorem map_kind_reuseSlots (f : InlinedCallFrame) : ∀ (info : List SlotInfo) (idx : ℕ)
    (l : VRegAwareFreeList),
    (reuseSlots f idx info l).1.map SlotInfo.kind = info.map SlotInfo.kind
  | [], _, _ => rfl
  | .needed :: rest, idx, l => by
      cases hv : l.phySlotForVReg (f.vregForSlot idx) with
      | some ord =>
        simp only [reuseSlots, hv, List.map_cons, map_kind_reuseSlots f rest]
        rfl
      | none => simp only [reuseSlots, hv, List.map_cons, map_kind_reuseSlots f rest]
  | .physical _ :: rest, idx, l => congrArg (_ :: ·) (map_kind_reuseSlots f rest (idx + 1) l)
  | .unused :: rest, idx, l => congrArg (_ :: ·) (map_kind_reuseSlots f rest (idx + 1) l)
  | .constant :: rest, idx, l => congrArg (_ :: ·) (map_kind_reuseSlots f rest (idx + 1) l)

theorem map_kind_assignSlots : ∀ (info : List SlotInfo) (a : FreeList),
    (assignSlots info a).1.map SlotInfo.kind = info.map SlotInfo.kind
  | [], _ => rfl
  | .needed :: rest, a => congrArg (_ :: ·) (map_kind_assignSlots rest a.allocate.2)
  | .physical _ :: rest, a => congrArg (_ :: ·) (map_kind_assignSlots rest a)
  | .unused :: rest, a => congrArg (_ :: ·) (map_kind_assignSlots rest a)
  | .constant :: rest, a => congrArg (_ :: ·) (map_kind_assignSlots rest a)

section Frame

variable {first : ℕ} {frames : List InlinedCallFrame} {localOps : List LocalOp}
  {planned : List FrameSlots} {f : InlinedCallFrame} {ord idx : ℕ} {slot : SlotInfo}

theorem map_kind_initInfo :
    (f.initInfo ord localOps).map SlotInfo.kind = f.initInfo ord localOps := by
  refine (List.map_congr_left fun slot hslot => ?_).trans (List.map_id _)
  have hnone := initInfo_physical slot hslot
  cases slot with
  | physical p => cases hnone
  | _ => rfl

/-- **Planning only assigns physical slots.** -/
theorem map_kind_planFrame : (planFrame first frames localOps planned ord f).info.map SlotInfo.kind
    = f.initInfo ord localOps := by
  rw [← map_kind_initInfo]
  unfold planFrame
  cases f.parentFrame with
  | none => exact map_kind_assignSlots _ _
  | some parentOrd => exact (map_kind_assignSlots _ _).trans (map_kind_reuseSlots f _ _ _)

/-- A slot of the plan, and what it was. -/
theorem kind_planFrame
    (h : (planFrame first frames localOps planned ord f).info[idx]? = some slot) :
    (f.initInfo ord localOps)[idx]? = some slot.kind ∧ slot ≠ .needed := by
  have hkind := congrArg (fun l => l[idx]?)
    (@map_kind_planFrame first frames localOps planned f ord)
  have hphys := congrArg (fun l => l[idx]?)
    (map_physical_planFrame first frames localOps planned ord f)
  simp only [List.getElem?_map, h, Option.map_some] at hkind hphys
  refine ⟨hkind.symm, ?_⟩
  rintro rfl
  simp [← hkind, SlotInfo.kind, SlotInfo.isMapped, SlotInfo.physical?] at hphys

end Frame

/-! ## Slots that hold constants

A slot is recorded as a constant exactly where the callee was given one. -/

section Constants

variable {frames : List InlinedCallFrame} {localOps : List LocalOp} {f : InlinedCallFrame}
  {ord idx : ℕ}

/-- What the pass asserts: no operation is on a slot that holds a constant. -/
def LegalLocalOps (frames : List InlinedCallFrame) (localOps : List LocalOp) : Prop :=
  ∀ op ∈ localOps, ∀ f, frames[op.frameOrd]? = some f →
    f.isConstantSlot (f.infoIdx op.location) = false

/-- A constant slot is one the mapping has a constant for. -/
theorem FrameAt.isConstantSlot_iff (hat : FrameAt frames ord f) :
    f.isConstantSlot idx = true
      ↔ ∃ v, f.virtualRegisterMappingBeforeThisFrame[f.frameStart + idx]? = some (.unmapped v) := by
  have hlen := hat.ok.mapping_length
  have hstart := f.frameStart_le
  rw [InlinedCallFrame.isConstantSlot, decide_eq_true_iff, List.getD_eq_getElem?_getD]
  constructor
  · rintro ⟨-, -, hlive, hvreg⟩
    cases hget : f.virtualRegisterMappingBeforeThisFrame[f.frameStart + idx]? with
    | none => simp [hget, isLive] at hlive
    | some info =>
      cases info with
      | dead => simp [hget, isLive] at hlive
      | vreg r => simp [hget] at hvreg
      | unmapped v => exact ⟨v, rfl⟩
  · rintro ⟨v, hget⟩
    obtain ⟨hlt, -⟩ := List.getElem?_eq_some_iff.mp hget
    rw [hlen] at hlt
    obtain ⟨info, hinfo, hof⟩ := hat.own (f.frameStart + idx) (Nat.le_add_right _ _) hlt
    obtain rfl := Option.some.inj (hget.symm.trans hinfo)
    rw [hget]
    refine ⟨?_, ?_, rfl, rfl⟩
    · -- an own slot that holds a constant is in the header
      generalize hslot : f.frameStart + idx = slot at hof
      cases hof fun _ => false with
      | constant heq => omega
    · unfold InlinedCallFrame.stackBaseIdx
      omega

/-- The initial record has the constants of the frame. -/
theorem initInfo_constant_iff (hops : LegalLocalOps frames localOps) (hf : frames[ord]? = some f)
    (hidx : idx < f.frameLength) :
    (f.initInfo ord localOps)[idx]? = some .constant ↔ f.isConstantSlot idx = true := by
  rw [InlinedCallFrame.initInfo, List.getElem?_map, List.getElem?_range hidx, Option.map_some]
  split_ifs with hany hconst
  · obtain ⟨op, hop, hset⟩ := List.any_eq_true.mp hany
    obtain ⟨-, rfl, rfl⟩ := of_decide_eq_true hset
    simp [hops op hop f hf]
  · simp [hconst]
  · simp [hconst]

end Constants

/-! ## The slots below a frame

They belong to the frames around it, which describe them in the same way. -/

/-- **Every frame but the root** is the frame of a call that was inlined. -/
theorem InlineTree.exists_inlineCall {frames : List InlinedCallFrame} (h : InlineTree frames) :
    ∀ {ord p : ℕ} {f : InlinedCallFrame}, frames[ord]? = some f → f.parentFrame = some p →
      ∃ (before : List InlinedCallFrame) (caller : InlinedCallFrame) (site : CallSite),
        frames[p]? = some caller ∧ caller.Ok ∧ site.Legal caller
          ∧ f = inlineCall before p caller site := by
  induction h with
  | root codeBlock =>
    intro ord p f hf hp
    obtain ⟨hlt, rfl⟩ := List.getElem?_eq_some_iff.mp hf
    obtain rfl : ord = 0 := by simpa using hlt
    cases hp
  | @inline frames callerOrd caller site htree hcaller hlegal ih =>
    intro ord p f hf hp
    have hold : ∀ {i : ℕ} {g : InlinedCallFrame}, frames[i]? = some g →
        (frames ++ [inlineCall frames callerOrd caller site])[i]? = some g := fun {i g} hg => by
      obtain ⟨hlt, -⟩ := List.getElem?_eq_some_iff.mp hg
      rw [List.getElem?_append_left hlt, hg]
    by_cases hlt : ord < frames.length
    · rw [List.getElem?_append_left hlt] at hf
      obtain ⟨before, fp, site', hfp, hrest⟩ := ih hf hp
      exact ⟨before, fp, site', hold hfp, hrest⟩
    · obtain ⟨hlt', -⟩ := List.getElem?_eq_some_iff.mp hf
      rw [List.length_append, List.length_singleton] at hlt'
      obtain rfl : ord = frames.length := by omega
      rw [List.getElem?_concat_length, Option.some.injEq] at hf
      subst hf
      obtain rfl : callerOrd = p := Option.some.inj hp
      exact ⟨frames, caller, site, hold hcaller, (htree.frameAt _ _ hcaller).ok, hlegal, rfl⟩

/-- What a callee knows about the slots before the base of its caller. -/
theorem mapping_inlineCall_of_lt {before : List InlinedCallFrame} {p slot : ℕ}
    {caller : InlinedCallFrame} {site : CallSite} (hc : caller.Ok) (hl : site.Legal caller)
    (hlt : slot < (inlineCall before p caller site).frameStart)
    (hbase : slot < caller.baseInterpreterFrameSlot) :
    (inlineCall before p caller site).virtualRegisterMappingBeforeThisFrame[slot]?
      = caller.virtualRegisterMappingBeforeThisFrame[slot]? := by
  rw [frameStart_inlineCall before p hc hl] at hlt
  rw [(mapping_inlineCall before p caller site slot).1 hlt]
  unfold CallSite.survivingSlots at hlt ⊢
  split_ifs at hlt ⊢ with ht
  · rw [List.length_take] at hlt
    exact List.getElem?_take_of_lt (hlt.trans_le (Nat.min_le_left _ _))
  · exact List.getElem?_append_left (hc.mapping_length ▸ hbase)

/-- **The constants below a frame** are those that its parent knows of. -/
theorem InlineTree.unmapped_iff {frames : List InlinedCallFrame} (h : InlineTree frames)
    {ord p slot v : ℕ} {f fp : InlinedCallFrame} (hf : frames[ord]? = some f)
    (hp : f.parentFrame = some p) (hfp : frames[p]? = some fp) (hlt : slot < f.frameStart) :
    f.virtualRegisterMappingBeforeThisFrame[slot]? = some (.unmapped v)
      ↔ fp.virtualRegisterMappingBeforeThisFrame[slot]? = some (.unmapped v) := by
  obtain ⟨before, caller, site, hcaller, hok, hlegal, rfl⟩ := h.exists_inlineCall hf hp
  obtain rfl := Option.some.inj (hfp.symm.trans hcaller)
  by_cases hbase : slot < fp.baseInterpreterFrameSlot
  · rw [mapping_inlineCall_of_lt hok hlegal hlt hbase]
  · -- a local of the caller is in a register, or dead
    obtain ⟨-, fp', -, hfp', hcalls, -⟩ := (h.frameAt _ _ hf).parent p hp
    obtain rfl := Option.some.inj (hfp.symm.trans hfp')
    have hge := fp.frameStart_le
    obtain ⟨info, hinfo, hof⟩ := hcalls.inner slot (by omega) hlt
    refine iff_of_false (fun hv => ?_) fun hv => ?_
    · obtain rfl := Option.some.inj (hv.symm.trans hinfo)
      cases hof with
      | constant _ hslot => exact hbase hslot
    · obtain ⟨hlt', -⟩ := List.getElem?_eq_some_iff.mp hv
      exact hbase (hok.mapping_length ▸ hlt')

/-! ## The constant table -/

namespace ConstantTable

variable {t : ConstantTable} {v : ℕ}

/-- What is reserved is in the table. -/
theorem mem_foldl_reserve {nodes : List ConstantNode}
    (h : ConstantNode.unboxed v ∈ nodes ∨ v ∈ t.unboxed) :
    v ∈ (nodes.foldl reserve t).unboxed := by
  induction nodes generalizing t with
  | nil => exact h.resolve_left List.not_mem_nil
  | cons node nodes ih =>
    refine ih ?_
    rcases h with h | h
    · rcases List.mem_cons.mp h with rfl | h
      · refine .inr ?_
        rw [reserve]
        split_ifs with hmem
        · exact hmem
        · exact List.mem_append_right _ (List.mem_singleton_self v)
      · exact .inl h
    · refine .inr ?_
      cases node <;> rw [reserve] <;> split_ifs
      · exact h
      · exact h
      · exact h
      · exact List.mem_append_left _ h

/-- **The ordinal of a constant** is negative, and leads to its place in the table. -/
theorem ord_spec (h : v ∈ t.unboxed) : t.ord (.unboxed v) < 0
    ∧ -(t.final.length : ℤ) ≤ t.ord (.unboxed v)
    ∧ t.final[(-t.ord (.unboxed v) - 1).toNat]? = some v := by
  have hlt := List.idxOf_lt_length_of_mem h
  have hlen : t.final.length = t.boxed.length + t.unboxed.length := List.length_append
  have hidx : (-t.ord (.unboxed v) - 1).toNat = t.boxed.length + t.unboxed.idxOf v := by
    rw [ord]
    omega
  refine ⟨by rw [ord]; omega, by rw [ord]; omega, ?_⟩
  rw [hidx, final, List.getElem?_append_right (Nat.le_add_right _ _), Nat.add_sub_cancel_left,
    List.getElem?_eq_getElem hlt, List.getElem_idxOf hlt]

end ConstantTable

/-- The constants that a frame has in its own slots are in its header. -/
theorem InlineTree.mem_headerConstants {frames : List InlinedCallFrame} (h : InlineTree frames)
    {ord slot v : ℕ} {f : InlinedCallFrame} (hf : frames[ord]? = some f)
    (hge : f.frameStart ≤ slot)
    (hv : f.virtualRegisterMappingBeforeThisFrame[slot]? = some (.unmapped v)) :
    .unboxed v ∈ f.headerConstants := by
  have hat := h.frameAt ord f hf
  obtain ⟨hlt, -⟩ := List.getElem?_eq_some_iff.mp hv
  rw [hat.ok.mapping_length] at hlt
  cases hp : f.parentFrame with
  | none =>
    obtain ⟨-, hbase⟩ := hat.root hp
    omega
  | some p =>
    obtain ⟨info, hinfo, hof⟩ := hat.own slot hge hlt
    obtain rfl := Option.some.inj (hv.symm.trans hinfo)
    have hheader : f.baseInterpreterFrameSlot - numSlotsForStackFrameHeader ≤ slot := by
      cases hof fun _ => false with
      | constant heq =>
        unfold InlinedCallFrame.frameStart at heq
        omega
    rw [InlinedCallFrame.headerConstants, hp]
    refine List.mem_filterMap.mpr
      ⟨slot - (f.baseInterpreterFrameSlot - numSlotsForStackFrameHeader), ?_, ?_⟩
    · rw [List.mem_range]
      unfold numSlotsForStackFrameHeader at hheader ⊢
      omega
    · rw [Nat.add_sub_cancel' hheader, hv]

/-! ## What is recorded -/

/-- What is recorded for a slot by the innermost frame that covers it, of `ord` and the frames that
it is inlined into. -/
inductive RecordedAt (frames : List InlinedCallFrame) (infos : List DfgInlinedCallFrameOsrInfo) :
    ℕ → ℕ → ℤ → Prop
  | own {ord slot : ℕ} {val : ℤ} {f : InlinedCallFrame} {info : DfgInlinedCallFrameOsrInfo} :
      frames[ord]? = some f → infos[ord]? = some info → f.frameStart ≤ slot →
      info.values[slot - f.frameStart]? = some val → RecordedAt frames infos ord slot val
  | outer {ord slot parentOrd : ℕ} {val : ℤ} {f : InlinedCallFrame} : frames[ord]? = some f →
      slot < f.frameStart → f.parentFrame = some parentOrd →
      RecordedAt frames infos parentOrd slot val → RecordedAt frames infos ord slot val

/-- A recorded value is what the frame knows about the slot: the constant, if it knows of one; else
the physical slot where the plan keeps the slot, or nothing. -/
structure SlotAgrees (frames : List InlinedCallFrame) (r : StackLayoutPlanningResult) (first : ℕ)
    (f : InlinedCallFrame) (ord slot : ℕ) (val : ℤ) : Prop where
  constant_iff : val < 0 ↔ ∃ v, f.virtualRegisterMappingBeforeThisFrame[slot]? = some (.unmapped v)
  constant : ∀ v, f.virtualRegisterMappingBeforeThisFrame[slot]? = some (.unmapped v) →
    val = r.constantTable.ord (.unboxed v) ∧ r.constantTable.final[(-val - 1).toNat]? = some v
  physical : 0 < val → HeldAt frames r.plan ord slot val.toNat ∧ (first : ℤ) ≤ val
    ∧ val < r.numTotalPhysicalSlots

section Pass

variable {n ord slot : ℕ} {frames : List InlinedCallFrame} {localOps : List LocalOp}
  {operands : List ConstantNode} {r : StackLayoutPlanningResult} {f : InlinedCallFrame} {val : ℤ}

/-- What the pass computes, when it does not abort. -/
structure Ran (n : ℕ) (frames : List InlinedCallFrame) (localOps : List LocalOp)
    (operands : List ConstantNode) (r : StackLayoutPlanningResult) : Prop where
  constantTable : r.constantTable = (frames.flatMap InlinedCallFrame.headerConstants
    ++ operands).foldl ConstantTable.reserve ⟨[], []⟩
  table_lt : r.constantTable.final.length < 32400
  plan : r.plan = planFrames (n + regSpillAreaNumSlots) frames localOps frames.length
  total : r.numTotalPhysicalSlots = numTotalPhysicalSlots r.plan
  total_lt : r.numTotalPhysicalSlots < 32400
  infos : r.inlineFrameOsrInfo = List.zipWith (osrInfo r.constantTable) frames r.plan

/-- What a run of the pass leaves behind. -/
theorem ran_of_runPass (h : runPass n frames localOps operands = some r) :
    Ran n frames localOps operands r := by
  unfold runPass runStackLayoutPlanningPass at h
  dsimp only at h
  split_ifs at h with htable htotal
  · obtain rfl := Option.some.inj h
    exact ⟨rfl, htable, rfl, rfl, htotal, rfl⟩
  · cases h

namespace Ran

variable (hran : Ran n frames localOps operands r)

include hran

/-- The record of a frame. -/
theorem getElem?_infos (hf : frames[ord]? = some f) :
    r.inlineFrameOsrInfo[ord]? = some (osrInfo r.constantTable f
      (planFrame (n + regSpillAreaNumSlots) frames localOps
        (planFrames (n + regSpillAreaNumSlots) frames localOps ord) ord f)) := by
  obtain ⟨hord, -⟩ := List.getElem?_eq_some_iff.mp hf
  rw [hran.infos, List.getElem?_zipWith, hf, hran.plan,
    getElem?_planFrames (n + regSpillAreaNumSlots) localOps le_rfl hord hf]

/-- The physical slots of the plan are those of locals. -/
theorem heldAt_bounds (h : InlineTree frames) {p : ℕ} (hp : HeldAt frames r.plan ord slot p) :
    n + regSpillAreaNumSlots ≤ p ∧ p < r.numTotalPhysicalSlots := by
  induction hp with
  | outer _ _ _ _ ih => exact ih
  | own hf hs _ hinfo =>
    obtain ⟨s, outer, hs', hplanned⟩ := h.planned (n + regSpillAreaNumSlots) localOps _ _ hf
    rw [← hran.plan, hs, Option.some.injEq] at hs'
    subst hs'
    have hmem := List.mem_append_left outer.reduceOption (mem_takenSlots hinfo)
    rw [hran.total]
    exact ⟨hplanned.owns.ge hmem,
      (hplanned.owns.lt hmem).trans_le (le_numTotalPhysicalSlots (List.mem_of_getElem? hs))⟩

/-- **An own slot** of a frame. -/
theorem agrees_own (h : InlineTree frames) (hops : LegalLocalOps frames localOps)
    (hf : frames[ord]? = some f) {idx : ℕ} {info : DfgInlinedCallFrameOsrInfo}
    (hinfo : r.inlineFrameOsrInfo[ord]? = some info) (hval : info.values[idx]? = some val) :
    SlotAgrees frames r (n + regSpillAreaNumSlots) f ord (f.frameStart + idx) val := by
  obtain rfl := Option.some.inj ((hran.getElem?_infos hf).symm.trans hinfo)
  obtain ⟨hord, -⟩ := List.getElem?_eq_some_iff.mp hf
  have hplan := getElem?_planFrames (n + regSpillAreaNumSlots) localOps le_rfl hord hf
  rw [← hran.plan] at hplan
  have hlength := length_planFrame (n + regSpillAreaNumSlots) frames localOps
    (planFrames (n + regSpillAreaNumSlots) frames localOps ord) ord f
  rw [osrInfo, List.getElem?_mapIdx, Option.map_eq_some_iff] at hval
  obtain ⟨slot, hslot, rfl⟩ := hval
  obtain ⟨hkind, hneeded⟩ := kind_planFrame hslot
  obtain ⟨hidx, -⟩ := List.getElem?_eq_some_iff.mp hslot
  rw [hlength] at hidx
  have hiff := initInfo_constant_iff hops hf hidx
  rw [hkind, (h.frameAt ord f hf).isConstantSlot_iff] at hiff
  cases slot with
  | needed => exact absurd rfl hneeded
  | unused =>
    have hnone := hiff.not.mp (by simp [SlotInfo.kind])
    refine ⟨iff_of_false (by simp [SlotInfo.value]) hnone, fun v hv => absurd ⟨v, hv⟩ hnone,
      fun hpos => absurd hpos (by simp [SlotInfo.value])⟩
  | physical p =>
    have hnone := hiff.not.mp (by simp [SlotInfo.kind])
    have hheld : HeldAt frames r.plan ord (f.frameStart + idx) p :=
      .own hf hplan (Nat.le_add_right _ _) (by rw [Nat.add_sub_cancel_left, hslot])
    have hbounds := hran.heldAt_bounds h hheld
    have hlt := hran.total_lt
    have hval : (SlotInfo.value r.constantTable (f.virtualRegisterMappingBeforeThisFrame.getD
        (f.frameStart + idx) .dead) (.physical p)).bmod (2 ^ 16) = (p : ℤ) := by
      rw [SlotInfo.value]
      exact Int.bmod_eq_of_le (by omega) (by omega)
    rw [hval]
    refine ⟨iff_of_false (by omega) hnone, fun v hv => absurd ⟨v, hv⟩ hnone, fun _ => ?_⟩
    exact ⟨hheld, by omega, by omega⟩
  | constant =>
    obtain ⟨v, hv⟩ := hiff.mp rfl
    have hmem : v ∈ r.constantTable.unboxed := by
      rw [hran.constantTable]
      refine ConstantTable.mem_foldl_reserve (.inl (List.mem_append_left _ ?_))
      exact List.mem_flatMap.mpr ⟨f, List.mem_of_getElem? hf,
        h.mem_headerConstants hf (Nat.le_add_right _ _) hv⟩
    obtain ⟨hneg, hge, hfinal⟩ := ConstantTable.ord_spec hmem
    have hlt := hran.table_lt
    have hval : (SlotInfo.value r.constantTable (f.virtualRegisterMappingBeforeThisFrame.getD
        (f.frameStart + idx) .dead) .constant).bmod (2 ^ 16)
        = r.constantTable.ord (.unboxed v) := by
      rw [List.getD_eq_getElem?_getD, hv, Option.getD_some, SlotInfo.value]
      exact Int.bmod_eq_of_le (by omega) (by omega)
    rw [hval]
    refine ⟨iff_of_true hneg ⟨v, hv⟩, fun w hw => ?_, fun hpos => absurd hpos (by omega)⟩
    obtain rfl : v = w := by simpa using hv.symm.trans hw
    exact ⟨rfl, hfinal⟩

/-- **What is recorded agrees with what the frame knows**, along the chain of its parents. -/
theorem agrees (h : InlineTree frames) (hops : LegalLocalOps frames localOps)
    (hrec : RecordedAt frames r.inlineFrameOsrInfo ord slot val) :
    ∀ f, frames[ord]? = some f →
      SlotAgrees frames r (n + regSpillAreaNumSlots) f ord slot val := by
  induction hrec with
  | @own ord slot val f info hf hinfo hge hval =>
    intro f' hf'
    obtain rfl := Option.some.inj (hf.symm.trans hf')
    have hown := hran.agrees_own h hops hf hinfo hval
    rwa [Nat.add_sub_cancel' hge] at hown
  | @outer ord slot p val f hf hlt hp hrec ih =>
    intro f' hf'
    obtain rfl := Option.some.inj (hf.symm.trans hf')
    obtain ⟨-, fp, -, hfp, -⟩ := (h.frameAt ord f hf).parent p hp
    obtain ⟨hiff, hconst, hphys⟩ := ih fp hfp
    refine ⟨?_, fun v hv => hconst v ((h.unmapped_iff hf hp hfp hlt).mp hv), fun hpos => ?_⟩
    · rw [hiff]
      exact exists_congr fun v => (h.unmapped_iff hf hp hfp hlt).symm
    · obtain ⟨hheld, hbounds⟩ := hphys hpos
      exact ⟨.outer hf hlt hp hheld, hbounds⟩

/-- Live slots are recorded at different physical slots. -/
theorem distinct (h : InlineTree frames) (hops : LegalLocalOps frames localOps)
    (hf : frames[ord]? = some f) {slot' : ℕ} (hpos : 0 < val) (hlive : f.MayBeLive slot)
    (hlive' : f.MayBeLive slot') (hrec : RecordedAt frames r.inlineFrameOsrInfo ord slot val)
    (hrec' : RecordedAt frames r.inlineFrameOsrInfo ord slot' val) : slot = slot' := by
  obtain ⟨s, outer, hs, hplanned⟩ := h.planned (n + regSpillAreaNumSlots) localOps ord f hf
  rw [← hran.plan] at hs hplanned
  exact hplanned.injective hf hs hlive hlive' ((hran.agrees h hops hrec f hf).physical hpos).1
    ((hran.agrees h hops hrec' f hf).physical hpos).1

end Ran

end Pass

/-! ## The loop

Each round fills the slots of one frame, from its start to its end. -/

/-- A map that never fails. -/
theorem mapM_eq_some_map {α β : Type} {g : α → Option β} {g' : α → β} {l : List α}
    (h : ∀ x ∈ l, g x = some (g' x)) : l.mapM g = some (l.map g') := by
  induction l with
  | nil => rfl
  | cons x l ih =>
    obtain ⟨hx, hl⟩ := List.forall_mem_cons.mp h
    rw [List.mapM_cons, hx, ih hl]
    rfl

section Loop

variable {V : Type} {constantTableEnd dfgStackBase : ℤ → V} {n ord : ℕ}
  {frames : List InlinedCallFrame} {localOps : List LocalOp} {operands : List ConstantNode}
  {r : StackLayoutPlanningResult} {f : InlinedCallFrame} {info : DfgInlinedCallFrameOsrInfo}

/-- **One round** stores to the slots of one frame. -/
theorem fillValues_eq {start len : ℕ} (hlen : len ≤ info.values.length)
    (hlt : start + len < 2 ^ 64) :
    fillValues constantTableEnd dfgStackBase info start (start + len)
      = some ((List.range len).map fun i =>
        (start + i, loadValue constantTableEnd dfgStackBase (info.values.getD i 0))) := by
  have hcount : (start + len + 2 ^ 64 - start) % 2 ^ 64 = len := by omega
  rw [fillValues, hcount]
  refine mapM_eq_some_map fun i hi => ?_
  have hi' : i < info.values.length := (List.mem_range.mp hi).trans_le hlen
  rw [List.getElem?_eq_getElem hi', Option.map_some, List.getD_eq_getElem?_getD,
    List.getElem?_eq_getElem hi', Option.getD_some]

/-- A frame ends where its length says. -/
theorem InlinedCallFrame.frameStart_add_frameLength (f : InlinedCallFrame) :
    f.frameStart + f.frameLength = f.frameEnd := by
  have hle := f.frameStart_le
  unfold frameLength stackBaseIdx frameEnd
  omega

/-- **The loop** stores to each slot below the end once, and what is recorded. -/
theorem Ran.reconstructLoop_spec (hran : Ran n frames localOps operands r)
    (h : InlineTree frames) : ∀ {ord : ℕ} {f : InlinedCallFrame}
      {info : DfgInlinedCallFrameOsrInfo}, frames[ord]? = some f →
      r.inlineFrameOsrInfo[ord]? = some info → f.frameStart < 2 ^ 16 →
      ∀ {fuel e : ℕ}, ord ≤ fuel → f.frameStart ≤ e → e ≤ f.frameEnd → e < 2 ^ 64 →
      ∃ written, reconstructLoop constantTableEnd dfgStackBase r.inlineFrameOsrInfo fuel info
          info.frameStartSlot e = some written ∧ (written.map Prod.fst).Perm (List.range e)
        ∧ ∀ w ∈ written, ∃ val, RecordedAt frames r.inlineFrameOsrInfo ord w.1 val
          ∧ w.2 = loadValue constantTableEnd dfgStackBase val := by
  intro ord
  induction ord using Nat.strong_induction_on with
  | _ ord ih =>
    intro f info hf hinfo hstart fuel e hfuel hle hend hlt
    have hinfo' := (hran.getElem?_infos hf).symm.trans hinfo
    have hslot : info.frameStartSlot = f.frameStart := by
      rw [← Option.some.inj hinfo']
      exact Nat.mod_eq_of_lt hstart
    have hparent : info.parentFrameOsrInfo = f.parentFrame := by rw [← Option.some.inj hinfo']; rfl
    have hlength : info.values.length = f.frameLength := by
      rw [← Option.some.inj hinfo', osrInfo, List.length_mapIdx, length_planFrame]
    obtain ⟨len, rfl⟩ := Nat.exists_eq_add_of_le hle
    have hlen : len ≤ info.values.length := by
      rw [hlength]
      exact Nat.le_of_add_le_add_left (hend.trans_eq f.frameStart_add_frameLength.symm)
    have hfill := @fillValues_eq V constantTableEnd dfgStackBase info f.frameStart len hlen hlt
    have hown : ∀ w ∈ (List.range len).map (fun i => (f.frameStart + i,
        loadValue constantTableEnd dfgStackBase (info.values.getD i 0))),
        ∃ val, RecordedAt frames r.inlineFrameOsrInfo ord w.1 val
          ∧ w.2 = loadValue constantTableEnd dfgStackBase val := by
      rw [List.forall_mem_map]
      intro i hi
      have hi' : i < info.values.length := (List.mem_range.mp hi).trans_le hlen
      refine ⟨_, .own hf hinfo (Nat.le_add_right _ _) ?_, rfl⟩
      rw [Nat.add_sub_cancel_left, List.getD_eq_getElem?_getD, List.getElem?_eq_getElem hi',
        Option.getD_some]
    have hfst : ((List.range len).map (fun i => (f.frameStart + i,
        loadValue constantTableEnd dfgStackBase (info.values.getD i 0)))).map Prod.fst
        = List.range' f.frameStart len := by
      rw [List.map_map, List.range'_eq_map_range]
      rfl
    unfold reconstructLoop
    rw [hslot, hfill]
    by_cases hzero : f.frameStart = 0
    · refine ⟨_, by simp only [Option.bind_eq_bind, Option.bind_some, if_pos hzero], ?_, hown⟩
      rw [hfst, hzero, Nat.zero_add, List.range_eq_range']
    · cases hp : f.parentFrame with
      | none =>
        obtain ⟨-, hbase⟩ := (h.frameAt ord f hf).root hp
        have hle := f.frameStart_le
        omega
      | some p =>
        obtain ⟨hpo, fp, -, hfp, hcalls, -⟩ := (h.frameAt ord f hf).parent p hp
        obtain ⟨fuel, rfl⟩ : ∃ k, fuel = k + 1 := ⟨fuel - 1, by omega⟩
        have hfpinfo := hran.getElem?_infos hfp
        have hstart' := hcalls.start_le
        obtain ⟨rest, hrest, hperm, hrec⟩ := @ih p hpo fp _ hfp hfpinfo (by omega) fuel
          f.frameStart (by omega) hstart' hcalls.le_end (by omega)
        refine ⟨(List.range len).map (fun i => (f.frameStart + i,
          loadValue constantTableEnd dfgStackBase (info.values.getD i 0))) ++ rest, ?_, ?_,
          fun w hw => ?_⟩
        · simp only [Option.bind_eq_bind, Option.bind_some, if_neg hzero, hparent, hp, hfpinfo,
            hrest]
        · rw [List.map_append, hfst, List.range_eq_range', ← List.range'_append_1, Nat.zero_add,
            ← List.range_eq_range']
          exact List.perm_append_comm.trans (hperm.append_right _)
        · rcases List.mem_append.mp hw with hw | hw
          · exact hown w hw
          · obtain ⟨val, hval, heq⟩ := hrec w hw
            have hmem := hperm.mem_iff.mp (List.mem_map_of_mem hw)
            exact ⟨val, .outer hf (List.mem_range.mp hmem) hp hval, heq⟩

/-! ## Every frame of every tree -/

/-- **The interpreter's frames are given back** for the frame `ord` with the record `info`: every
slot of them is stored to once, with what is recorded, which is what the frame knows about it; live
slots have different physical slots. -/
structure Reconstructs (frames : List InlinedCallFrame) (r : StackLayoutPlanningResult)
    (first ord : ℕ) (f : InlinedCallFrame) (info : DfgInlinedCallFrameOsrInfo) : Prop where
  numSlots : info.getInterpreterFramesTotalNumSlots = f.frameEnd
  stores : ∀ {V : Type} (constantTableEnd dfgStackBase : ℤ → V), ∃ written,
    reconstructInterpreterFramesBaseInfo constantTableEnd dfgStackBase r.inlineFrameOsrInfo info
        = some written
      ∧ (written.map Prod.fst).Perm (List.range info.getInterpreterFramesTotalNumSlots)
      ∧ ∀ w ∈ written, ∃ val, RecordedAt frames r.inlineFrameOsrInfo ord w.1 val
        ∧ w.2 = loadValue constantTableEnd dfgStackBase val
        ∧ SlotAgrees frames r first f ord w.1 val
  distinct : ∀ slot slot' val, 0 < val → f.MayBeLive slot → f.MayBeLive slot' →
    RecordedAt frames r.inlineFrameOsrInfo ord slot val →
    RecordedAt frames r.inlineFrameOsrInfo ord slot' val → slot = slot'

/-- The number of slots is right exactly if nothing is cut off. -/
theorem Ran.numSlots_iff (hran : Ran n frames localOps operands r) (hf : frames[ord]? = some f)
    (hinfo : r.inlineFrameOsrInfo[ord]? = some info) :
    info.getInterpreterFramesTotalNumSlots = f.frameEnd
      ↔ f.frameStart < 2 ^ 16 ∧ f.frameLength < 2 ^ 16 := by
  obtain rfl := Option.some.inj ((hran.getElem?_infos hf).symm.trans hinfo)
  rw [← f.frameStart_add_frameLength]
  change f.frameStart % 2 ^ 16 + f.frameLength % 2 ^ 16 = _ ↔ _
  omega

/-- **An OSR exit gives back the interpreter's frames**, for every frame of every tree of inlined
calls, exactly if the start and the length of the frame fit in 16 bits. -/
theorem InlineTree.reconstructs_iff (h : InlineTree frames)
    (hops : LegalLocalOps frames localOps)
    (hrun : runPass n frames localOps operands = some r) (hf : frames[ord]? = some f) :
    ∃ info, r.inlineFrameOsrInfo[ord]? = some info
      ∧ (Reconstructs frames r (n + regSpillAreaNumSlots) ord f info
        ↔ f.frameStart < 2 ^ 16 ∧ f.frameLength < 2 ^ 16) := by
  have hran := ran_of_runPass hrun
  have hinfo := hran.getElem?_infos hf
  refine ⟨_, hinfo, fun hrec => (hran.numSlots_iff hf hinfo).mp hrec.numSlots, fun hfits => ?_⟩
  have hnum := (hran.numSlots_iff hf hinfo).mpr hfits
  refine ⟨hnum, fun {V} constantTableEnd dfgStackBase => ?_,
    fun slot slot' val hpos hlive hlive' => hran.distinct h hops hf hpos hlive hlive'⟩
  obtain ⟨hord, -⟩ := List.getElem?_eq_some_iff.mp hinfo
  have hstart := f.frameStart_add_frameLength
  obtain ⟨written, hwritten, hperm, hrec⟩ := @hran.reconstructLoop_spec V constantTableEnd
    dfgStackBase _ _ _ _ _ h ord f _ hf hinfo hfits.1 r.inlineFrameOsrInfo.length f.frameEnd
    hord.le (by omega) le_rfl (by omega)
  rw [← hnum] at hwritten hperm
  refine ⟨written, hwritten, hperm, fun w hw => ?_⟩
  obtain ⟨val, hval, heq⟩ := hrec w hw
  exact ⟨val, hval, heq, hran.agrees h hops hval f hf⟩

end Loop

/-- The example of two frames, one of them in place. -/
theorem InlineTree.reconstructs_iff_inPlaceSite : ∃ r info,
    runPass 7 [createRootFrame tenLocals,
      inlineCall [createRootFrame tenLocals] 0 (createRootFrame tenLocals) inPlaceSite]
      inPlaceOps [] = some r ∧
    Reconstructs [createRootFrame tenLocals,
      inlineCall [createRootFrame tenLocals] 0 (createRootFrame tenLocals) inPlaceSite] r 20 1
      (inlineCall [createRootFrame tenLocals] 0 (createRootFrame tenLocals) inPlaceSite) info := by
  have hops : LegalLocalOps ([createRootFrame tenLocals]
      ++ [inlineCall [createRootFrame tenLocals] 0
        (createRootFrame tenLocals) inPlaceSite]) inPlaceOps := by
    have hall : ∀ op ∈ inPlaceOps, ([createRootFrame tenLocals] ++ [inlineCall
        [createRootFrame tenLocals] 0 (createRootFrame tenLocals) inPlaceSite])[op.frameOrd]?.all
        (fun f => !f.isConstantSlot (f.infoIdx op.location)) = true := by decide
    intro op hop f hf
    have := hall op hop
    rw [hf] at this
    simpa using this
  have hrun : runPass 7 ([createRootFrame tenLocals]
    ++ [inlineCall [createRootFrame tenLocals] 0
      (createRootFrame tenLocals) inPlaceSite]) inPlaceOps [] = some _ := rfl
  obtain ⟨info, -, hiff⟩ := InlineTree.reconstructs_iff inPlaceTree hops hrun
    (show _[1]? = some (inlineCall [createRootFrame tenLocals] 0 (createRootFrame tenLocals)
      inPlaceSite) from rfl)
  exact ⟨_, info, hrun, hiff.mpr (by decide)⟩

/-! ## Frames that are too long

The records hold slot numbers in 16 bits.  A tree of deep calls with many locals needs more. -/

section NoSetLocals

variable {first : ℕ} {frames : List InlinedCallFrame}

/-- Nothing is assigned where no slot is needed. -/
theorem assignSlots_eq_self {info : List SlotInfo} (h : .needed ∉ info) (a : FreeList) :
    assignSlots info a = (info, a) := by
  induction info with
  | nil => rfl
  | cons slot rest ih =>
    rw [assignSlots, ih (List.not_mem_of_not_mem_cons h)]
    exact fun hneeded => List.ne_of_not_mem_cons h hneeded.symm

/-- Nothing is reused where no slot is needed. -/
theorem reuseSlots_eq_self (f : InlinedCallFrame) {info : List SlotInfo} (h : .needed ∉ info)
    (idx : ℕ) (l : VRegAwareFreeList) : reuseSlots f idx info l = (info, l) := by
  induction info generalizing idx with
  | nil => rfl
  | cons slot rest ih =>
    rw [reuseSlots, ih (List.not_mem_of_not_mem_cons h)]
    exact fun hneeded => List.ne_of_not_mem_cons h hneeded.symm

/-- A frame whose slots have no physical slots. -/
structure FrameSlots.NoPhysical (first : ℕ) (s : FrameSlots) : Prop where
  le : s.physicalSlots.firstAvailableOrdinal ≤ first
  info : ∀ slot ∈ s.info, slot.physical? = none

/-- A frame without local operations gets no physical slot. -/
theorem noPhysical_planFrame {planned : List FrameSlots}
    (h : ∀ s ∈ planned, s.NoPhysical first) (ord : ℕ) (f : InlinedCallFrame) :
    (planFrame first frames [] planned ord f).NoPhysical first := by
  have hneeded : .needed ∉ f.initInfo ord [] := by
    unfold InlinedCallFrame.initInfo
    rw [List.mem_map]
    rintro ⟨idx, -, hidx⟩
    rw [List.any_nil, if_neg Bool.false_ne_true] at hidx
    split_ifs at hidx
  unfold planFrame
  cases f.parentFrame with
  | none =>
    dsimp only
    rw [assignSlots_eq_self hneeded]
    exact ⟨le_rfl, initInfo_physical⟩
  | some p =>
    have hget : (planned.getD p default).NoPhysical first := by
      rw [List.getD_eq_getElem?_getD]
      cases hs : planned[p]? with
      | none => exact ⟨Nat.zero_le _, nofun⟩
      | some s => exact h s (List.mem_of_getElem? hs)
    have hfreed : ∀ parent, freedSlots parent f (planned.getD p default).info = [] := by
      refine fun parent => List.filterMap_eq_nil_iff.mpr fun idx hidx => ?_
      rw [List.mem_range] at hidx
      split_ifs
      · rfl
      · rw [List.getD_eq_getElem?_getD, List.getElem?_eq_getElem hidx, Option.getD_some,
          hget.info _ (List.getElem_mem hidx), Option.map_none]
    cases hp : frames[p]? with
    | none =>
      simp only [hp]
      rw [reuseSlots_eq_self f hneeded, assignSlots_eq_self hneeded]
      exact ⟨hget.le, initInfo_physical⟩
    | some parent =>
      simp only [hp]
      rw [hfreed, reuseSlots_eq_self f hneeded, assignSlots_eq_self hneeded]
      exact ⟨hget.le, initInfo_physical⟩

/-- So it is for all the frames. -/
theorem noPhysical_planFrames : ∀ n, ∀ s ∈ planFrames first frames [] n, s.NoPhysical first
  | 0, s, hs => absurd hs List.not_mem_nil
  | n + 1, s, hs => by
      have ih := noPhysical_planFrames n
      rw [planFrames] at hs
      cases hf : frames[n]? with
      | none =>
        rw [hf] at hs
        exact ih s hs
      | some f =>
        rw [hf] at hs
        rcases List.mem_append.mp hs with hs | hs
        · exact ih s hs
        · rw [List.mem_singleton.mp hs]
          exact noPhysical_planFrame ih n f

/-- **Frames without a `SetLocal`** need no physical slots. -/
theorem numTotalPhysicalSlots_le (n : ℕ) :
    numTotalPhysicalSlots (planFrames first frames [] n) ≤ first := by
  have hle : ∀ (l : List FrameSlots), (∀ s ∈ l, s.NoPhysical first) → ∀ k ≤ first,
      l.foldl (fun n slots => max n slots.physicalSlots.firstAvailableOrdinal) k ≤ first := by
    intro l
    induction l with
    | nil => exact fun _ k hk => hk
    | cons s l ih =>
      intro hl k hk
      obtain ⟨hs, hl⟩ := List.forall_mem_cons.mp hl
      exact ih hl _ (max_le hk hs.le)
  exact hle _ (noPhysical_planFrames n) 0 (Nat.zero_le _)

/-- A table has at most as many entries as there are constants. -/
theorem ConstantTable.length_final_foldl_reserve :
    ∀ (nodes : List ConstantNode) (t : ConstantTable),
      (nodes.foldl reserve t).final.length ≤ t.final.length + nodes.length
  | [], _ => le_rfl
  | node :: nodes, t => by
      have hstep : (t.reserve node).final.length ≤ t.final.length + 1 := by
        unfold final
        cases node <;> rw [reserve] <;> split_ifs <;> simp <;> omega
      have hrest := length_final_foldl_reserve nodes (t.reserve node)
      rw [List.foldl_cons, List.length_cons]
      omega

theorem InlinedCallFrame.length_headerConstants_le (f : InlinedCallFrame) :
    f.headerConstants.length ≤ numSlotsForStackFrameHeader := by
  unfold headerConstants
  split_ifs
  · exact Nat.zero_le _
  · exact (List.length_filterMap_le _ _).trans_eq List.length_range

theorem length_flatMap_headerConstants_le : ∀ frames : List InlinedCallFrame,
    (frames.flatMap InlinedCallFrame.headerConstants).length
      ≤ frames.length * numSlotsForStackFrameHeader
  | [] => le_rfl
  | f :: frames => by
      have hf := f.length_headerConstants_le
      have hframes := length_flatMap_headerConstants_le frames
      rw [List.flatMap_cons, List.length_append, List.length_cons, Nat.succ_mul]
      omega

/-- The pass succeeds on few frames without a `SetLocal`. -/
theorem exists_runPass_nil {n : ℕ} (hframes : frames.length < 1000) (hn : n < 1000) :
    ∃ r, runPass n frames [] [] = some r := by
  have htable := ConstantTable.length_final_foldl_reserve
    (frames.flatMap InlinedCallFrame.headerConstants ++ []) ⟨[], []⟩
  have hheaders := length_flatMap_headerConstants_le frames
  have htotal := @numTotalPhysicalSlots_le (n + regSpillAreaNumSlots) frames frames.length
  unfold runPass runStackLayoutPlanningPass
  dsimp only
  rw [if_pos, if_pos]
  · exact ⟨_, rfl⟩
  · unfold regSpillAreaNumSlots at htotal ⊢
    omega
  · rw [List.append_nil] at htable ⊢
    unfold numSlotsForStackFrameHeader at hheaders
    change _ ≤ 0 + _ at htable
    omega

end NoSetLocals

/-- A function of 30000 locals that are not used. -/
def manyLocals : CodeBlock where
  numFixedArguments := 1
  stackFrameNumSlots := 30000
  hasVariadicArguments := false
  liveness := fun _ _ _ => false
  fixed_le := by omega

/-- A call of it. -/
def manyLocalsSite : CallSite where
  bcIndex := 0
  isTailCall := false
  isInPlaceCall := false
  returnContinuationIsTrivial := true
  rangeArgs := none
  numExtraOutputs := 1
  appendsVariadicResultsToArgs := false
  staticVariadicRes := none
  maxObservedNumVariadicArgs := 0
  directCallTarget := some 0
  callee := manyLocals

/-- The frames of nested calls, and the last of them. -/
def nestedCalls : ℕ → List InlinedCallFrame × InlinedCallFrame
  | 0 => ([createRootFrame manyLocals], createRootFrame manyLocals)
  | depth + 1 =>
      let outer := nestedCalls depth
      let f := inlineCall outer.1 depth outer.2 manyLocalsSite
      (outer.1 ++ [f], f)

/-- The tree of `depth` calls, and where its last frame starts. -/
theorem nestedCalls_spec : ∀ depth, InlineTree (nestedCalls depth).1
    ∧ (nestedCalls depth).1.length = depth + 1
    ∧ (nestedCalls depth).1[depth]? = some (nestedCalls depth).2
    ∧ (nestedCalls depth).2.frameStart = 30004 * depth - 4
    ∧ (nestedCalls depth).2.frameEnd = 30004 * depth + 30000
  | 0 => ⟨.root manyLocals, rfl, rfl, rfl, rfl⟩
  | depth + 1 => by
      obtain ⟨htree, hlen, hget, -, hend⟩ := nestedCalls_spec depth
      have hlegal : manyLocalsSite.Legal (nestedCalls depth).2 := ⟨nofun, nofun⟩
      refine ⟨htree.inline hget hlegal, ?_, ?_, ?_, ?_⟩
      · rw [nestedCalls, List.length_append, hlen]
        rfl
      · rw [nestedCalls, ← hlen, List.getElem?_concat_length]
      · change (nestedCalls depth).2.frameEnd + 0 + 4 - 4 - 0 = _
        omega
      · change (nestedCalls depth).2.frameEnd + 0 + 4 + 30000 = _
        omega

/-- Three nested calls have too many slots. -/
theorem not_forall_reconstructs : ¬ ∀ (n : ℕ) (frames : List InlinedCallFrame)
    (localOps : List LocalOp) (operands : List ConstantNode) (r : StackLayoutPlanningResult),
    InlineTree frames → LegalLocalOps frames localOps →
    runPass n frames localOps operands = some r → ∀ ord f info, frames[ord]? = some f →
    r.inlineFrameOsrInfo[ord]? = some info →
    Reconstructs frames r (n + regSpillAreaNumSlots) ord f info := by
  intro hall
  obtain ⟨htree, hlen, hget, hstart, -⟩ := nestedCalls_spec 3
  obtain ⟨r, hrun⟩ := @exists_runPass_nil (nestedCalls 3).1 1 (by omega) (by omega)
  have hran := ran_of_runPass hrun
  have hinfo := hran.getElem?_infos hget
  have hfits := (hran.numSlots_iff hget hinfo).mp
    (hall 1 _ [] [] r htree nofun hrun 3 _ _ hget hinfo).numSlots
  omega

end Dsom
