import Dsom.Dfg.InlinedRegisters

/-!
# Dfg/InlineTree — the registers and slots of every frame of an inlining tree

`inlineCall_ok`: inlining a call keeps the invariant of a frame.  By induction over the tree each
frame has its own registers, apart from those of its ancestors' live slots
(`InlineTree.registers_never_clash`).

`SlotOf f live slot info`: the slot belongs to the frame `f`, and `info` is where `f` keeps it,
`live` being the locals of `f` that are live at the call.  The record of a slot is that of the
frame it belongs to (`SlotHolds`).
-/

namespace Dsom

open VirtualRegisterMappingInfo

section Inline

variable {frames : List InlinedCallFrame} {callerOrd : ℕ} {caller : InlinedCallFrame}
  {site : CallSite}

/-! ## Where the callee stands

The frame of the callee lies behind the slots of the caller that survive the call. -/

/-- A frame's start is below its locals. -/
theorem InlinedCallFrame.frameStart_le (f : InlinedCallFrame) :
    f.frameStart ≤ f.baseInterpreterFrameSlot := by
  unfold InlinedCallFrame.frameStart
  omega

/-- **The callee's frame starts after the slots that survive the call.** -/
theorem CallSite.newFrameInterpreterBaseOrd_eq (hc : caller.Ok) (hl : site.Legal caller) :
    site.newFrameInterpreterBaseOrd caller
      = (site.survivingSlots caller).length + site.maxNumVarArgs + numSlotsForStackFrameHeader := by
  have hstart := caller.frameStart_le
  have hlen := hc.mapping_length
  unfold newFrameInterpreterBaseOrd survivingSlots numSurvivingLocals
  cases ht : site.isTailCall with
  | true =>
    simp only [if_true, List.length_take, hlen]
    omega
  | false =>
    simp only [Bool.false_eq_true, if_false, List.length_append, List.length_map, List.length_range,
      hlen]
    split_ifs with hp
    · obtain ⟨r, hr, -⟩ := hl.inPlace ht hp
      have := (hl.range r hr).1
      rw [rangeStart, Option.mem_def.mp hr]
      simp only [Option.map_some, Option.getD_some]
      omega
    · unfold InlinedCallFrame.frameEnd
      omega

/-- The callee starts behind the slots that survive. -/
theorem frameStart_inlineCall (frames : List InlinedCallFrame) (callerOrd : ℕ) (hc : caller.Ok)
    (hl : site.Legal caller) :
    (inlineCall frames callerOrd caller site).frameStart = (site.survivingSlots caller).length := by
  change site.newFrameInterpreterBaseOrd caller - numSlotsForStackFrameHeader
    - site.maxNumVarArgs = _
  rw [CallSite.newFrameInterpreterBaseOrd_eq hc hl]
  omega

/-- The registers in a header. -/
theorem filterMap_stackFrameHeader {fo nv ret : Option ℕ} :
    (stackFrameHeader frames site fo nv ret).filterMap vreg? = fo.toList ++ nv.toList := by
  unfold stackFrameHeader
  cases fo with
  | none =>
    cases nv with
    | none => rfl
    | some r => rfl
  | some r =>
    cases nv with
    | none => rfl
    | some r' => rfl

/-! ## The invariant -/

/-- The registers that the callee gets. -/
theorem inlineCall_registers (frames : List InlinedCallFrame) (callerOrd : ℕ) (hc : caller.Ok)
    (hl : site.Legal caller) :
    let f := inlineCall frames callerOrd caller site
    f.localToRegisterMap.length = site.callee.stackFrameNumSlots ∧
      f.variadicArgumentToRegisterMap.length = site.maxNumVarArgs ∧
      f.vrState.Owns 0 (f.registers ++ site.survivingRegisters caller) := by
  -- the registers that are not given back
  have howns : ((site.freedRegisters caller).foldl FreeList.deallocate caller.vrState).Owns 0
      ((site.passedLocals caller).map caller.getRegisterForLocalOrd
        ++ site.survivingRegisters caller) :=
    (hc.owns.perm (CallSite.registers_perm hc hl)).deallocateAll
  have hlocals := CallSite.assignLocals_spec hl howns
  unfold inlineCall
  dsimp only
  generalize site.assignLocals caller
    ((site.freedRegisters caller).foldl FreeList.deallocate caller.vrState) = res at hlocals ⊢
  obtain ⟨locals, varArgs, vrState₁⟩ := res
  obtain ⟨hll, hlv, hown₁⟩ := hlocals
  have hown₂ := CallSite.assignUnless_spec site.canStaticallyDetermineNumVarArgs hown₁
  generalize CallSite.assignUnless site.canStaticallyDetermineNumVarArgs vrState₁ = nv at hown₂ ⊢
  have hown₃ := CallSite.assignUnless_spec site.directCallTarget.isSome hown₂
  generalize CallSite.assignUnless site.directCallTarget.isSome nv.2 = fo at hown₃ ⊢
  refine ⟨hll, hlv, hown₃.perm ?_⟩
  change (locals ++ (varArgs ++ fo.1.toList ++ nv.1.toList)
    ++ site.survivingRegisters caller).Perm _
  rw [List.perm_iff_count]
  intro a
  simp only [List.count_append]
  omega

/-- **Inlining a call keeps the invariant.** -/
theorem inlineCall_ok (frames : List InlinedCallFrame) (callerOrd : ℕ) (hc : caller.Ok)
    (hl : site.Legal caller) :
    (inlineCall frames callerOrd caller site).Ok := by
  have hstart := frameStart_inlineCall frames callerOrd hc hl
  have hbase := CallSite.newFrameInterpreterBaseOrd_eq hc hl
  obtain ⟨hll, hlv, howns⟩ := inlineCall_registers frames callerOrd hc hl
  obtain ⟨f, hf⟩ : ∃ f, f = inlineCall frames callerOrd caller site := ⟨_, rfl⟩
  have hmap : f.virtualRegisterMappingBeforeThisFrame = site.survivingSlots caller
      ++ (f.variadicArgumentToRegisterMap.map vreg
      ++ stackFrameHeader frames site f.functionObjectVR f.numVarArgsVR
        (parentFrameForReturn callerOrd caller site)) := by
    rw [hf, ← List.append_assoc]
    rfl
  rw [← hf] at hstart hll hlv howns ⊢
  refine ⟨by rw [hll, hf]; rfl, by rw [hlv, hf]; rfl, ?_, ?_, ?_⟩
  · rw [hmap, List.length_append, List.length_append, List.length_map, hlv, ← Nat.add_assoc]
    rw [hf]
    exact hbase.symm
  · rw [hmap, hstart, List.drop_left, List.filterMap_append, List.filterMap_map,
      filterMap_stackFrameHeader]
    simp [InlinedCallFrame.headRegisters, Function.comp_def]
  · have hanc : f.ancestorRegisters = site.survivingRegisters caller := by
      rw [InlinedCallFrame.ancestorRegisters, hmap, hstart, List.take_left]
      rfl
    rw [hanc]
    exact howns

end Inline

/-! ## Whose slot it is

Below its own start, a frame describes the slots of the frames around it. -/

/-- The slot belongs to the frame `f`, which keeps it at `info`; of its locals those in `live` are
needed. -/
inductive SlotOf (f : InlinedCallFrame) (live : ℕ → Bool) : ℕ → VirtualRegisterMappingInfo → Prop
  | varArg {i r : ℕ} : f.variadicArgumentToRegisterMap[i]? = some r →
      SlotOf f live (f.frameStart + i) (.vreg r)
  | functionObject {slot r : ℕ} : slot = f.frameStart + f.maxVariadicArguments →
      slot < f.baseInterpreterFrameSlot → f.functionObjectVR = some r → SlotOf f live slot (.vreg r)
  | numVarArgs {slot r : ℕ} : slot = f.frameStart + f.maxVariadicArguments + 1 →
      slot < f.baseInterpreterFrameSlot → f.numVarArgsVR = some r → SlotOf f live slot (.vreg r)
  | constant {slot i v : ℕ} : slot = f.frameStart + f.maxVariadicArguments + i →
      slot < f.baseInterpreterFrameSlot → (i = 0 → f.functionObjectVR = none) →
      (i = 1 → f.numVarArgsVR = none) → SlotOf f live slot (.unmapped v)
  | liveLocal {localOrd : ℕ} : localOrd < f.numBytecodeLocals → live localOrd = true →
      SlotOf f live (f.baseInterpreterFrameSlot + localOrd)
        (.vreg (f.getRegisterForLocalOrd localOrd))
  | deadLocal {localOrd : ℕ} : localOrd < f.numBytecodeLocals → live localOrd = false →
      SlotOf f live (f.baseInterpreterFrameSlot + localOrd) .dead

/-- The slots before the base of a frame that are its own. -/
def OwnSlots (f : InlinedCallFrame) : Prop :=
  ∀ slot, f.frameStart ≤ slot → slot < f.baseInterpreterFrameSlot →
    ∃ info, f.virtualRegisterMappingBeforeThisFrame[slot]? = some info ∧
      ∀ live, SlotOf f live slot info

/-- What a callee records about the slots below it. -/
structure Calls (caller callee : InlinedCallFrame) : Prop where
  start_le : caller.frameStart ≤ callee.frameStart
  le_end : callee.frameStart ≤ caller.frameEnd
  outer : ∀ slot < caller.frameStart, callee.virtualRegisterMappingBeforeThisFrame[slot]?
    = caller.virtualRegisterMappingBeforeThisFrame[slot]?
  inner : ∀ slot, caller.frameStart ≤ slot → slot < callee.frameStart →
    ∃ info, callee.virtualRegisterMappingBeforeThisFrame[slot]? = some info ∧
      SlotOf caller callee.parentFrameLocalLiveness slot info

section Inline

variable {frames : List InlinedCallFrame} {callerOrd : ℕ} {caller : InlinedCallFrame}
  {site : CallSite}

/-- The record of the callee, below and above its start. -/
theorem mapping_inlineCall (frames : List InlinedCallFrame) (callerOrd : ℕ)
    (caller : InlinedCallFrame) (site : CallSite) (slot : ℕ) :
    (slot < (site.survivingSlots caller).length →
      (inlineCall frames callerOrd caller site).virtualRegisterMappingBeforeThisFrame[slot]?
        = (site.survivingSlots caller)[slot]?) ∧
    ((site.survivingSlots caller).length ≤ slot →
      (inlineCall frames callerOrd caller site).virtualRegisterMappingBeforeThisFrame[slot]?
        = ((inlineCall frames callerOrd caller site).variadicArgumentToRegisterMap.map vreg
          ++ stackFrameHeader frames site (inlineCall frames callerOrd caller site).functionObjectVR
            (inlineCall frames callerOrd caller site).numVarArgsVR
            (parentFrameForReturn callerOrd caller site))[slot -
            (site.survivingSlots caller).length]?) := by
  have hmap : (inlineCall frames callerOrd caller site).virtualRegisterMappingBeforeThisFrame
      = site.survivingSlots caller
        ++ ((inlineCall frames callerOrd caller site).variadicArgumentToRegisterMap.map vreg
        ++ stackFrameHeader frames site (inlineCall frames callerOrd caller site).functionObjectVR
          (inlineCall frames callerOrd caller site).numVarArgsVR
          (parentFrameForReturn callerOrd caller site)) := by
    rw [← List.append_assoc]
    rfl
  rw [hmap]
  exact ⟨fun h => List.getElem?_append_left h, fun h => List.getElem?_append_right h⟩

/-- The callee describes its own slots. -/
theorem inlineCall_ownSlots (hc : caller.Ok) (hl : site.Legal caller) :
    OwnSlots (inlineCall frames callerOrd caller site) := by
  have hstart := frameStart_inlineCall frames callerOrd hc hl
  have hok := inlineCall_ok frames callerOrd hc hl
  have hbase : (inlineCall frames callerOrd caller site).baseInterpreterFrameSlot = _ :=
    CallSite.newFrameInterpreterBaseOrd_eq hc hl
  intro slot hge hlt
  have hread := (mapping_inlineCall frames callerOrd caller site slot).2 (by omega)
  obtain ⟨f, hf⟩ : ∃ f, f = inlineCall frames callerOrd caller site := ⟨_, rfl⟩
  rw [← hf] at hstart hok hge hlt hread hbase ⊢
  have hmax : f.maxVariadicArguments = site.maxNumVarArgs := by rw [hf]; rfl
  have hvlen := hok.varArgs_length
  rw [← hstart] at hread hbase
  obtain ⟨i, rfl⟩ : ∃ i, slot = f.frameStart + i := ⟨slot - f.frameStart, by omega⟩
  rw [Nat.add_sub_cancel_left] at hread
  by_cases hi : i < f.maxVariadicArguments
  · obtain ⟨r, hr⟩ : ∃ r, f.variadicArgumentToRegisterMap[i]? = some r :=
      ⟨_, List.getElem?_eq_getElem (by rw [hvlen]; exact hi)⟩
    rw [List.getElem?_append_left (by rw [List.length_map, hvlen]; exact hi), List.getElem?_map, hr,
      Option.map_some] at hread
    exact ⟨_, hread, fun _ => .varArg hr⟩
  · rw [List.getElem?_append_right (by rw [List.length_map]; omega), List.length_map,
      hvlen] at hread
    obtain ⟨k, rfl⟩ : ∃ k, i = f.maxVariadicArguments + k := ⟨i - f.maxVariadicArguments, by omega⟩
    rw [Nat.add_sub_cancel_left] at hread
    have hk : k < 4 := by
      rw [hmax] at hlt
      unfold numSlotsForStackFrameHeader at hbase
      omega
    -- the four slots of the header
    match k, hk with
    | 0, _ =>
      cases hfo : f.functionObjectVR with
      | some r => exact ⟨_, by rw [hread, hfo]; rfl, fun _ => .functionObject (by omega) hlt hfo⟩
      | none => exact ⟨_, by rw [hread, hfo]; rfl, fun _ => .constant (i := 0) (by omega) hlt
          (fun _ => hfo) (fun h => absurd h (by decide))⟩
    | 1, _ =>
      cases hnv : f.numVarArgsVR with
      | some r => exact ⟨_, by rw [hread, hnv]; rfl, fun _ => .numVarArgs (by omega) hlt hnv⟩
      | none => exact ⟨_, by rw [hread, hnv]; rfl, fun _ => .constant (i := 1) (by omega) hlt
          (fun h => absurd h (by decide)) (fun _ => hnv)⟩
    | 2, _ => exact ⟨_, hread, fun _ => .constant (i := 2) (by omega) hlt
        (fun h => absurd h (by decide)) (fun h => absurd h (by decide))⟩
    | 3, _ => exact ⟨_, hread, fun _ => .constant (i := 3) (by omega) hlt
        (fun h => absurd h (by decide)) (fun h => absurd h (by decide))⟩

/-- The callee describes the slots of its caller. -/
theorem inlineCall_calls (hc : caller.Ok) (hown : OwnSlots caller) (hl : site.Legal caller) :
    Calls caller (inlineCall frames callerOrd caller site) := by
  have hstart := frameStart_inlineCall frames callerOrd hc hl
  have hlive : (inlineCall frames callerOrd caller site).parentFrameLocalLiveness
      = site.parentFrameLocalLiveness caller := rfl
  have hread : ∀ slot < (site.survivingSlots caller).length,
      (inlineCall frames callerOrd caller site).virtualRegisterMappingBeforeThisFrame[slot]?
        = (site.survivingSlots caller)[slot]? := fun slot =>
    (mapping_inlineCall frames callerOrd caller site slot).1
  have hmlen := hc.mapping_length
  have hcs := caller.frameStart_le
  have hsurv := CallSite.numSurvivingLocals_le hl
  cases ht : site.isTailCall with
  | true =>
    have hs : site.survivingSlots caller
        = caller.virtualRegisterMappingBeforeThisFrame.take caller.frameStart := by
      rw [CallSite.survivingSlots, if_pos ht]
    have hlen : (site.survivingSlots caller).length = caller.frameStart := by
      rw [hs, List.length_take, hmlen]
      omega
    refine ⟨by omega, by unfold InlinedCallFrame.frameEnd; omega, fun slot hlt => ?_,
      fun slot h1 h2 => absurd h2 (by omega)⟩
    rw [hread slot (by omega), hs, List.getElem?_take_of_lt hlt]
  | false =>
    have hs : site.survivingSlots caller = caller.virtualRegisterMappingBeforeThisFrame
        ++ (List.range (site.numSurvivingLocals caller)).map fun localOrd =>
          if site.parentFrameLocalLiveness caller localOrd then
            .vreg (caller.getRegisterForLocalOrd localOrd) else .dead := by
      rw [CallSite.survivingSlots, if_neg (by simp [ht])]
    have hlen : (site.survivingSlots caller).length
        = caller.baseInterpreterFrameSlot + site.numSurvivingLocals caller := by
      rw [hs, List.length_append, List.length_map, List.length_range, hmlen]
    refine ⟨by omega, by unfold InlinedCallFrame.frameEnd; omega, fun slot hlt => ?_,
      fun slot h1 h2 => ?_⟩
    · rw [hread slot (by omega), hs, List.getElem?_append_left (by omega)]
    · rw [hstart] at h2
      rw [hread slot h2, hs]
      by_cases hb : slot < caller.baseInterpreterFrameSlot
      · obtain ⟨info, hinfo, hof⟩ := hown slot h1 hb
        exact ⟨info, by rw [List.getElem?_append_left (by omega)]; exact hinfo, hof _⟩
      · obtain ⟨l, rfl⟩ : ∃ l, slot = caller.baseInterpreterFrameSlot + l :=
          ⟨slot - caller.baseInterpreterFrameSlot, by omega⟩
        have hl' : l < site.numSurvivingLocals caller := by omega
        refine ⟨_, by rw [List.getElem?_append_right (by omega), hmlen, Nat.add_sub_cancel_left,
          List.getElem?_map, List.getElem?_range hl', Option.map_some], ?_⟩
        split_ifs with hlv
        · exact .liveLocal (by omega) (by rw [hlive]; exact hlv)
        · exact .deadLocal (by omega) (by rw [hlive]; exact eq_false_of_ne_true hlv)

end Inline

/-! ## Every tree

A frame only refers to earlier ones, and those do not change any more. -/

/-- The callee stands where the call puts it, and knows which locals of the caller are live there:
behind the uses of the call if its return continuation is trivial, before them otherwise. -/
def InlinedAt (caller : InlinedCallFrame) (site : CallSite) (callee : InlinedCallFrame) : Prop :=
  site.Legal caller ∧ callee.codeBlock = site.callee ∧ callee.isTailCall = site.isTailCall ∧
  callee.baseInterpreterFrameSlot = site.newFrameInterpreterBaseOrd caller ∧
  ∀ localOrd, callee.parentFrameLocalLiveness localOrd = caller.codeBlock.liveness site.bcIndex
    (if site.returnContinuationIsTrivial then .afterUse else .beforeUse) localOrd

/-- A frame of a tree. -/
structure FrameAt (frames : List InlinedCallFrame) (ord : ℕ) (f : InlinedCallFrame) : Prop where
  ok : f.Ok
  own : OwnSlots f
  root : f.parentFrame = none → ord = 0 ∧ f.baseInterpreterFrameSlot = 0
  parent : ∀ p, f.parentFrame = some p →
    p < ord ∧ ∃ fp site, frames[p]? = some fp ∧ Calls fp f ∧ InlinedAt fp site f

/-- **The frames of a tree**, by induction over the calls inlined so far. -/
theorem InlineTree.frameAt {frames : List InlinedCallFrame} (h : InlineTree frames) :
    ∀ (ord : ℕ) f, frames[ord]? = some f → FrameAt frames ord f := by
  induction h with
  | root codeBlock =>
    intro ord f hf
    obtain ⟨hlt, rfl⟩ := List.getElem?_eq_some_iff.mp hf
    obtain rfl : ord = 0 := by simpa using hlt
    exact ⟨createRootFrame_ok codeBlock, fun slot _ h => absurd h (Nat.not_lt_zero slot),
      fun _ => ⟨rfl, rfl⟩, fun p hp => absurd hp (by rintro ⟨⟩)⟩
  | @inline frames callerOrd caller site _ hcaller hlegal ih =>
    have hc := ih callerOrd caller hcaller
    obtain ⟨hcl, -⟩ := List.getElem?_eq_some_iff.mp hcaller
    have hold : ∀ (i : ℕ) g, frames[i]? = some g →
        (frames ++ [inlineCall frames callerOrd caller site])[i]? = some g := by
      intro i g hg
      obtain ⟨hlt, -⟩ := List.getElem?_eq_some_iff.mp hg
      rw [List.getElem?_append_left hlt, hg]
    intro ord f hf
    by_cases hlt : ord < frames.length
    · rw [List.getElem?_append_left hlt] at hf
      obtain ⟨hok, hown, hroot, hparent⟩ := ih ord f hf
      refine ⟨hok, hown, hroot, fun p hp => ?_⟩
      obtain ⟨hpo, fp, site, hfp, hcalls, hsite⟩ := hparent p hp
      exact ⟨hpo, fp, site, hold p fp hfp, hcalls, hsite⟩
    · obtain ⟨hlt', -⟩ := List.getElem?_eq_some_iff.mp hf
      rw [List.length_append, List.length_singleton] at hlt'
      obtain rfl : ord = frames.length := by omega
      rw [List.getElem?_concat_length, Option.some.injEq] at hf
      subst hf
      refine ⟨inlineCall_ok frames callerOrd hc.ok hlegal, inlineCall_ownSlots hc.ok hlegal,
        fun hp => absurd hp (by rintro ⟨⟩), fun p hp => ?_⟩
      obtain rfl : callerOrd = p := Option.some.inj hp
      exact ⟨hcl, caller, site, hold _ _ hcaller, inlineCall_calls hc.ok hc.own hlegal,
        hlegal, rfl, rfl, rfl, fun _ => rfl⟩

/-- The frame `c` is the frame `ord`, or one that it is inlined into. -/
def IsOuter (frames : List InlinedCallFrame) (c ord : ℕ) : Prop :=
  Relation.ReflTransGen (fun a b => ∃ f, frames[b]? = some f ∧ f.parentFrame = some a) c ord

/-- Where a slot before the base of a frame is kept: the slot is the frame's own, or it belongs to
an outer frame `o` and lies below the frame `c` that `o` called on the way. -/
inductive SlotHolds (frames : List InlinedCallFrame) (ord slot : ℕ)
    (info : VirtualRegisterMappingInfo) : Prop
  | own {f : InlinedCallFrame} : frames[ord]? = some f → slot < f.baseInterpreterFrameSlot →
      (∀ live, SlotOf f live slot info) → SlotHolds frames ord slot info
  | outer {o c : ℕ} {fo fc : InlinedCallFrame} : IsOuter frames c ord → frames[c]? = some fc →
      fc.parentFrame = some o → frames[o]? = some fo → slot < fc.frameStart →
      SlotOf fo fc.parentFrameLocalLiveness slot info → SlotHolds frames ord slot info

/-- A frame's record of the slots below it. -/
theorem InlineTree.slotHolds {frames : List InlinedCallFrame} (h : InlineTree frames) :
    ∀ (ord : ℕ) f, frames[ord]? = some f → ∀ slot < f.baseInterpreterFrameSlot,
      ∃ info, f.virtualRegisterMappingBeforeThisFrame[slot]? = some info ∧
        SlotHolds frames ord slot info := by
  intro ord
  induction ord using Nat.strong_induction_on with
  | _ ord ih =>
    intro f hf slot hlt
    have hat := h.frameAt ord f hf
    by_cases hge : f.frameStart ≤ slot
    · obtain ⟨info, hinfo, hof⟩ := hat.own slot hge hlt
      exact ⟨info, hinfo, .own hf hlt hof⟩
    · cases hp : f.parentFrame with
      | none =>
        obtain ⟨-, hbase⟩ := hat.root hp
        omega
      | some p =>
        obtain ⟨hpo, fp, -, hfp, hcalls, -⟩ := hat.parent p hp
        by_cases hin : fp.frameStart ≤ slot
        · -- the slot is the caller's
          obtain ⟨info, hinfo, hof⟩ := hcalls.inner slot hin (not_le.mp hge)
          exact ⟨info, hinfo, .outer Relation.ReflTransGen.refl hf hp hfp (not_le.mp hge) hof⟩
        · have hfps := fp.frameStart_le
          obtain ⟨info, hinfo, hholds⟩ := ih p hpo fp hfp slot (by omega)
          refine ⟨info, (hcalls.outer slot (not_le.mp hin)).trans hinfo, ?_⟩
          cases hholds with
          | own hf' hlt' hof' =>
            -- a slot below the caller's start is not the caller's own
            rw [hfp, Option.some.injEq] at hf'
            subst hf'
            cases hof' fun _ => false with
            | varArg => omega
            | functionObject => omega
            | numVarArgs => omega
            | constant => omega
            | liveLocal _ hlv => exact absurd hlv Bool.false_ne_true
            | deadLocal => omega
          | outer ho hc hpo' hfo hs hof' =>
            exact .outer (ho.tail ⟨f, hf, hp⟩) hc hpo' hfo hs hof'

/-- **The registers of inlined frames never clash.**  In every frame of every tree of inlined calls,
its registers are pairwise distinct and distinct from those of its ancestors' live slots; it records
for every slot before its base where the frame that the slot belongs to keeps it; and it comes from
a call of its parent, whose liveness table decides which slots are live. -/
theorem InlineTree.registers_never_clash {frames : List InlinedCallFrame} (h : InlineTree frames)
    {ord : ℕ} {f : InlinedCallFrame} (hf : frames[ord]? = some f) :
    f.registers.Nodup ∧
    (∀ slot < f.frameStart, ∀ r ∈ f.registers,
      f.virtualRegisterMappingBeforeThisFrame[slot]? ≠ some (.vreg r)) ∧
    (∀ slot slot' r : ℕ, f.virtualRegisterMappingBeforeThisFrame[slot]? = some (.vreg r) →
      f.virtualRegisterMappingBeforeThisFrame[slot']? = some (.vreg r) → slot = slot') ∧
    (∀ slot < f.baseInterpreterFrameSlot, ∃ info,
      f.virtualRegisterMappingBeforeThisFrame[slot]? = some info ∧
        SlotHolds frames ord slot info) ∧
    ∀ p, f.parentFrame = some p → ∃ caller site, frames[p]? = some caller ∧
      InlinedAt caller site f := by
  have hok := (h.frameAt ord f hf).ok
  have hnodup := hok.owns.used_nodup
  obtain ⟨hregs, -, hdisj⟩ := List.nodup_append.mp hnodup
  refine ⟨hregs, fun slot hlt r hr hslot => ?_, fun slot slot' r hs hs' => ?_,
    h.slotHolds ord f hf, fun p hp => ?_⟩
  · refine hdisj r hr r (List.mem_filterMap.mpr ⟨.vreg r, ?_, rfl⟩) rfl
    exact List.mem_of_getElem? ((List.getElem?_take_of_lt hlt).trans hslot)
  · have hmap : (f.virtualRegisterMappingBeforeThisFrame.filterMap vreg?).Nodup := by
      rw [hok.filterMap_mapping]
      refine (List.perm_append_comm.nodup_iff).mp (List.Nodup.sublist ?_ hnodup)
      exact (List.sublist_append_right _ _).append_right _
    have hpair := List.pairwise_filterMap.mp hmap
    obtain ⟨hlt, hget⟩ := List.getElem?_eq_some_iff.mp hs
    obtain ⟨hlt', hget'⟩ := List.getElem?_eq_some_iff.mp hs'
    by_contra hne
    rcases Nat.lt_or_gt_of_ne hne with hlt'' | hlt''
    · exact List.pairwise_iff_getElem.mp hpair slot slot' hlt hlt' hlt'' r (by rw [hget]; rfl) r
        (by rw [hget']; rfl) rfl
    · exact List.pairwise_iff_getElem.mp hpair slot' slot hlt' hlt hlt'' r (by rw [hget']; rfl) r
        (by rw [hget]; rfl) rfl
  · obtain ⟨-, caller, site, hcaller, -, hsite⟩ := (h.frameAt ord f hf).parent p hp
    exact ⟨caller, site, hcaller, hsite⟩

/-- A function of ten locals, of which the first three are always live. -/
def tenLocals : CodeBlock where
  numFixedArguments := 0
  stackFrameNumSlots := 10
  hasVariadicArguments := false
  liveness := fun _ _ localOrd => localOrd < 3
  fixed_le := by decide

/-- A variadic function of one argument and two locals. -/
def variadicCallee : CodeBlock where
  numFixedArguments := 1
  stackFrameNumSlots := 2
  hasVariadicArguments := true
  liveness := fun _ _ _ => true
  fixed_le := by decide

/-- A closure call in place, that passes locals 8 and 9 on. -/
def inPlaceSite : CallSite where
  bcIndex := 7
  isTailCall := false
  isInPlaceCall := true
  returnContinuationIsTrivial := true
  rangeArgs := some ⟨8, 2, 0⟩
  numExtraOutputs := 0
  appendsVariadicResultsToArgs := false
  staticVariadicRes := none
  maxObservedNumVariadicArgs := 0
  directCallTarget := none
  callee := variadicCallee

/-- The method with that call inlined. -/
theorem inPlaceTree : InlineTree ([createRootFrame tenLocals] ++ [inlineCall
    [createRootFrame tenLocals] 0 (createRootFrame tenLocals) inPlaceSite]) := by
  refine .inline (.root tenLocals) rfl ⟨fun r hr => ?_, fun _ _ => ⟨⟨8, 2, 0⟩, rfl, rfl⟩⟩
  obtain rfl : (⟨8, 2, 0⟩ : RangeArgs) = r := Option.some.inj hr
  decide

theorem InlineTree.registers_never_clash_inPlaceSite :
    let f := inlineCall [createRootFrame tenLocals] 0 (createRootFrame tenLocals) inPlaceSite
    f.registers = [8, 3, 9, 7] ∧ f.baseInterpreterFrameSlot = 9 ∧
    f.virtualRegisterMappingBeforeThisFrame = [.vreg 0, .vreg 1, .vreg 2, .dead, .vreg 9, .vreg 7,
      .unmapped 1, .unmapped 0, .unmapped 0] ∧
    f.registers.Nodup ∧
    ∃ caller site, [createRootFrame tenLocals, f][0]? = some caller ∧ InlinedAt caller site f := by
  have hframe : ([createRootFrame tenLocals] ++ [inlineCall [createRootFrame tenLocals] 0
    (createRootFrame tenLocals) inPlaceSite])[1]? = some _ := rfl
  obtain ⟨hnodup, -, -, -, hsite⟩ := InlineTree.registers_never_clash inPlaceTree hframe
  exact ⟨by decide, by decide, by decide, hnodup, hsite 0 rfl⟩

end Dsom
