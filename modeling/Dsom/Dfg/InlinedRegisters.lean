import Dsom.Dfg.InlinedFrame
import Mathlib.Logic.Relation
import Mathlib.Data.List.Range

/-!
# Dfg/InlinedRegisters — inlined frames never clash

The invariant of a frame (`InlinedCallFrame.Ok`): the allocator in which its body is translated owns
its registers together with those of the live slots of its ancestors, all of them different.  A call
splits them into registers that are given back, registers that are passed on as arguments, and
registers that stay with live slots (`registers_perm`); the callee then takes new ones.
-/

namespace Dsom

open VirtualRegisterMappingInfo

namespace InlinedCallFrame

/-- The invariant of a frame. -/
structure Ok (f : InlinedCallFrame) : Prop where
  locals_length : f.localToRegisterMap.length = f.numBytecodeLocals
  varArgs_length : f.variadicArgumentToRegisterMap.length = f.maxVariadicArguments
  mapping_length : f.virtualRegisterMappingBeforeThisFrame.length = f.baseInterpreterFrameSlot
  head : (f.virtualRegisterMappingBeforeThisFrame.drop f.frameStart).filterMap vreg?
    = f.headRegisters
  owns : f.vrState.Owns 0 (f.registers ++ f.ancestorRegisters)

variable {f : InlinedCallFrame}

/-- The locals of a frame by their ordinals. -/
theorem Ok.map_range (h : f.Ok) :
    (List.range f.numBytecodeLocals).map f.getRegisterForLocalOrd = f.localToRegisterMap := by
  refine List.ext_getElem (by simp [h.locals_length]) fun i h1 h2 => ?_
  simp [getRegisterForLocalOrd, List.getD_eq_getElem?_getD, h2]

/-- Every register recorded before the base belongs to an ancestor or to the frame itself. -/
theorem Ok.filterMap_mapping (h : f.Ok) :
    f.virtualRegisterMappingBeforeThisFrame.filterMap vreg? =
      f.ancestorRegisters ++ f.headRegisters := by
  conv_lhs => rw [← List.take_append_drop f.frameStart f.virtualRegisterMappingBeforeThisFrame]
  rw [List.filterMap_append, h.head, ancestorRegisters]

end InlinedCallFrame

/-- The root frame has its locals in registers of their own. -/
theorem createRootFrame_ok (codeBlock : CodeBlock) : (createRootFrame codeBlock).Ok := by
  have howns : FreeList.Owns 0 ⟨[], 0⟩ [] := ⟨List.nodup_nil, fun _ h => absurd h List.not_mem_nil,
    fun _ h => absurd h List.not_mem_nil, le_rfl⟩
  refine ⟨?_, rfl, rfl, rfl, ?_⟩
  · exact (FreeList.length_assign _ _).trans (List.length_replicate ..)
  · have := howns.assignNew codeBlock.stackFrameNumSlots
    simpa [createRootFrame, InlinedCallFrame.registers, InlinedCallFrame.headRegisters,
      InlinedCallFrame.ancestorRegisters] using this

namespace CallSite

variable {site : CallSite} {caller : InlinedCallFrame}

/-! ## What a call does to the registers of its caller -/

/-- The locals whose registers are passed on. -/
def passedLocals (site : CallSite) (caller : InlinedCallFrame) : List ℕ :=
  (List.range caller.numBytecodeLocals).filter site.isPassed

/-- The live locals that the call leaves alone. -/
def keptLocals (site : CallSite) (caller : InlinedCallFrame) : List ℕ :=
  (List.range (site.numSurvivingLocals caller)).filter (site.parentFrameLocalLiveness caller)

/-- No more locals survive than there are. -/
theorem numSurvivingLocals_le (hl : site.Legal caller) :
    site.numSurvivingLocals caller ≤ caller.numBytecodeLocals := by
  unfold numSurvivingLocals
  split_ifs with ht hp
  · exact Nat.zero_le _
  · obtain ⟨r, hr, -⟩ := hl.inPlace (eq_false_of_ne_true ht) hp
    have := (hl.range r hr).2
    rw [rangeStart, Option.mem_def.mp hr]
    exact le_trans (Nat.sub_le _ _) (by simp; omega)
  · exact le_rfl

/-- Only locals after the surviving ones are passed on. -/
theorem isPassed_ge (hl : site.Legal caller) {localOrd : ℕ} (h : site.isPassed localOrd = true) :
    site.numSurvivingLocals caller ≤ localOrd ∧ localOrd < caller.numBytecodeLocals := by
  unfold isPassed reusedRange at h
  split at h
  · exact absurd h (by decide)
  · rename_i r hr
    split_ifs at hr with hreuse
    have hrange := hl.range r (Option.mem_def.mpr hr)
    rw [decide_eq_true_eq] at h
    refine ⟨?_, by omega⟩
    unfold numSurvivingLocals
    split_ifs with ht hp
    · exact Nat.zero_le _
    · rw [rangeStart, hr]
      simp only [Option.map_some, Option.getD_some]
      omega
    · simp [ht, hp] at hreuse

/-- **The locals of the caller** are given back, passed on or kept. -/
theorem locals_perm (hl : site.Legal caller) (ht : site.isTailCall = false) :
    (site.freedLocals caller ++ (site.passedLocals caller ++ site.keptLocals caller)).Perm
      (List.range caller.numBytecodeLocals) := by
  have hle := numSurvivingLocals_le hl
  obtain ⟨k, hk⟩ : ∃ k, k = site.numSurvivingLocals caller := ⟨_, rfl⟩
  have hsplit : List.range caller.numBytecodeLocals
      = List.range k ++ List.range' k (caller.numBytecodeLocals - k) := by
    obtain ⟨m, hm⟩ : ∃ m, caller.numBytecodeLocals = k + m :=
      ⟨caller.numBytecodeLocals - k, by omega⟩
    rw [hm, Nat.add_sub_cancel_left, List.range_eq_range', List.range_eq_range',
      ← List.range'_append_1, Nat.zero_add]
  have hpassed : site.passedLocals caller
      = (List.range' k (caller.numBytecodeLocals - k)).filter site.isPassed := by
    have hnil : (List.range k).filter site.isPassed = [] := by
      refine List.filter_eq_nil_iff.mpr fun l hlk hp => ?_
      have := (isPassed_ge hl hp).1
      rw [List.mem_range] at hlk
      omega
    rw [passedLocals, hsplit, List.filter_append, hnil, List.nil_append]
  have h1 := List.filter_append_perm site.isPassed (List.range' k (caller.numBytecodeLocals - k))
  have h2 := List.filter_append_perm (site.parentFrameLocalLiveness caller) (List.range k)
  rw [freedLocals, if_neg (by simp [ht]), hpassed, keptLocals, ← hk, hsplit]
  refine List.Perm.trans ?_ (h2.append h1)
  -- the four parts in another order
  rw [List.perm_iff_count]
  intro a
  simp only [List.count_append]
  omega

/-- A tail call gives back or passes on all locals. -/
theorem locals_perm_tail (caller : InlinedCallFrame) (ht : site.isTailCall = true) :
    (site.freedLocals caller ++ site.passedLocals caller).Perm
      (List.range caller.numBytecodeLocals) := by
  rw [freedLocals, if_pos ht, passedLocals]
  exact (List.perm_append_comm).trans (List.filter_append_perm site.isPassed _)

/-- The registers of the live slots below the callee. -/
def survivingRegisters (site : CallSite) (caller : InlinedCallFrame) : List ℕ :=
  (site.survivingSlots caller).filterMap vreg?

/-- What survives a call that is no tail call. -/
theorem survivingRegisters_eq (hc : caller.Ok) (ht : site.isTailCall = false) :
    site.survivingRegisters caller = caller.ancestorRegisters ++ caller.headRegisters
      ++ (site.keptLocals caller).map caller.getRegisterForLocalOrd := by
  rw [survivingRegisters, survivingSlots, if_neg (by simp [ht]), List.filterMap_append,
    hc.filterMap_mapping, keptLocals]
  congr 1
  rw [List.filterMap_map, ← List.filterMap_eq_map, List.filterMap_filter]
  refine List.filterMap_congr fun l _ => ?_
  simp only [Function.comp_apply]
  split_ifs <;> rfl

/-- **The registers of the caller and its ancestors** are given back, passed on, or stay with the
live slots below the callee. -/
theorem registers_perm (hc : caller.Ok) (hl : site.Legal caller) :
    (site.freedRegisters caller ++ ((site.passedLocals caller).map caller.getRegisterForLocalOrd
      ++ site.survivingRegisters caller)).Perm (caller.registers ++ caller.ancestorRegisters) := by
  have hlocals := hc.map_range
  cases ht : site.isTailCall with
  | true =>
    have hp := (locals_perm_tail caller ht).map caller.getRegisterForLocalOrd
    rw [hlocals, List.map_append] at hp
    have hsurv : site.survivingRegisters caller = caller.ancestorRegisters := by
      rw [survivingRegisters, survivingSlots, if_pos ht]
      rfl
    rw [freedRegisters, if_pos ht, hsurv, InlinedCallFrame.registers]
    rw [List.perm_iff_count] at hp ⊢
    intro a
    have := hp a
    simp only [List.count_append] at this ⊢
    omega
  | false =>
    have hp := (locals_perm hl ht).map caller.getRegisterForLocalOrd
    rw [hlocals, List.map_append, List.map_append] at hp
    rw [freedRegisters, if_neg (by simp [ht]), survivingRegisters_eq hc ht,
      InlinedCallFrame.registers]
    rw [List.perm_iff_count] at hp ⊢
    intro a
    have := hp a
    simp only [List.count_append, List.nil_append] at this ⊢
    omega

/-! ## What the callee gets

The registers of the arguments passed in place, and free registers for everything else. -/

/-- The locals that arguments come with, by their place in the argument sequence. -/
theorem argRegisters_perm (hl : site.Legal caller) {r : RangeArgs}
    (hr : site.reusedRange = some r) :
    ((List.range site.argValueListLength).map (argRegister caller r)).reduceOption.Perm
      ((site.passedLocals caller).map caller.getRegisterForLocalOrd) := by
  have hrange := hl.range r (by
    unfold reusedRange at hr
    split_ifs at hr
    exact Option.mem_def.mpr hr)
  have hpassed : ∀ l, site.isPassed l = true ↔ r.rangeStart ≤ l ∧ l < r.rangeStart + r.rangeLen ∧
      r.rangeLocationInArgs + (l - r.rangeStart) < site.argValueListLength := by
    intro l
    rw [isPassed, hr]
    exact decide_eq_true_iff
  obtain ⟨g, hg⟩ : ∃ g : ℕ → Option ℕ, g = fun ord =>
      if r.rangeLocationInArgs ≤ ord ∧ ord < r.rangeLocationInArgs + r.rangeLen then
        some (r.rangeStart + (ord - r.rangeLocationInArgs)) else none := ⟨_, rfl⟩
  have hmap : ((List.range site.argValueListLength).map (argRegister caller r)).reduceOption
      = ((List.range site.argValueListLength).filterMap g).map caller.getRegisterForLocalOrd := by
    rw [List.reduceOption, List.filterMap_map, List.map_filterMap]
    refine List.filterMap_congr fun ord _ => ?_
    rw [hg]
    simp only [Function.comp_apply, id_eq, argRegister]
    split_ifs <;> rfl
  rw [hmap]
  refine List.Perm.map _ ((List.perm_ext_iff_of_nodup ?_ ?_).mpr fun l => ?_)
  · refine List.Nodup.filterMap (fun a a' b hb hb' => ?_) List.nodup_range
    simp only [hg, Option.mem_def] at hb hb'
    split_ifs at hb hb'
    have h1 := Option.some.inj hb
    have h2 := Option.some.inj hb'
    omega
  · exact List.nodup_range.filter _
  · rw [passedLocals, List.mem_filter, hpassed, List.mem_filterMap, List.mem_range]
    constructor
    · rintro ⟨ord, hord, hgo⟩
      simp only [hg] at hgo
      rw [List.mem_range] at hord
      split_ifs at hgo
      have := Option.some.inj hgo
      omega
    · rintro ⟨hlt, h1, h2, h3⟩
      refine ⟨r.rangeLocationInArgs + (l - r.rangeStart), List.mem_range.mpr h3, ?_⟩
      simp only [hg]
      rw [if_pos (by omega)]
      exact congrArg some (by omega)

/-- Without a range to reuse, nothing is passed in place. -/
theorem passedLocals_of_none (hr : site.reusedRange = none) : site.passedLocals caller = [] := by
  refine List.filter_eq_nil_iff.mpr fun l _ => ?_
  rw [isPassed, hr]
  exact Bool.false_ne_true

/-- **The registers of the callee's locals and variadic arguments** are those passed on and new
ones. -/
theorem assignLocals_spec (hl : site.Legal caller) {vrState : FreeList} {keep : List ℕ}
    (h : vrState.Owns 0 ((site.passedLocals caller).map caller.getRegisterForLocalOrd ++ keep)) :
    let (locals, varArgs, vrState') := site.assignLocals caller vrState
    locals.length = site.callee.stackFrameNumSlots ∧ varArgs.length = site.maxNumVarArgs ∧
      vrState'.Owns 0 (locals ++ varArgs ++ keep) := by
  have hfixed := site.callee.fixed_le
  unfold assignLocals
  cases hr : site.reusedRange with
  | some r =>
    have h1 := (h.perm ((argRegisters_perm hl hr).append_right keep)).assign
    have hlen := FreeList.length_assign
      ((List.range site.argValueListLength).map (argRegister caller r)) vrState
    rw [List.length_map, List.length_range] at hlen
    have hargs : site.argValueListLength = site.callee.numFixedArguments + site.maxNumVarArgs := rfl
    dsimp only
    generalize FreeList.assign ((List.range site.argValueListLength).map (argRegister caller r))
      vrState = args at h1 hlen ⊢
    have h2 := h1.assignNew (site.callee.stackFrameNumSlots - site.callee.numFixedArguments)
    have hrest := FreeList.length_assign (List.replicate
      (site.callee.stackFrameNumSlots - site.callee.numFixedArguments) none) args.2
    rw [List.length_replicate] at hrest
    generalize FreeList.assign (List.replicate
      (site.callee.stackFrameNumSlots - site.callee.numFixedArguments) none) args.2 = rest
      at h2 hrest ⊢
    refine ⟨?_, ?_, h2.perm ?_⟩
    · rw [List.length_append, List.length_take, hrest]
      omega
    · rw [List.length_drop]
      omega
    · rw [List.perm_iff_count]
      intro a
      have hcount := List.Perm.count_eq (List.Perm.of_eq (List.take_append_drop
        site.callee.numFixedArguments args.1)) a
      simp only [List.count_append] at hcount ⊢
      omega
  | none =>
    rw [passedLocals_of_none hr, List.map_nil, List.nil_append] at h
    have h1 := h.assignNew site.callee.stackFrameNumSlots
    have h2 := h1.assignNew site.maxNumVarArgs
    refine ⟨?_, ?_, h2.perm ?_⟩
    · rw [FreeList.length_assign, List.length_replicate]
    · rw [FreeList.length_assign, List.length_replicate]
    · rw [List.perm_iff_count]
      intro a
      simp only [List.count_append]
      omega

/-- A register is taken unless the slot holds a constant. -/
theorem assignUnless_spec (isConstant : Bool) {vrState : FreeList} {used : List ℕ}
    (h : vrState.Owns 0 used) :
    (assignUnless isConstant vrState).2.Owns 0
    ((assignUnless isConstant vrState).1.toList ++ used) := by
  unfold assignUnless
  split_ifs
  · exact h
  · exact h.allocate

end CallSite

end Dsom
