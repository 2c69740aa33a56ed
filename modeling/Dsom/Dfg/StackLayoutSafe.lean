import Dsom.Dfg.StackLayout

/-!
# Dfg/StackLayoutSafe — live values never share a physical slot

The invariant of a planned frame (`Planned`): its allocator owns the physical slots of its own slots
together with those of its ancestors' live slots.  What a call frees is in the pool of the
virtual-register-aware list (`Pooled`), from where the frame's slots take it or where it returns to
the free list; nothing else moves.
-/

namespace Dsom

open VirtualRegisterMappingInfo

/-- The physical slots that are taken. -/
def takenSlots (info : List SlotInfo) : List ℕ := info.filterMap SlotInfo.physical?

/-! ## The virtual-register-aware list

The slots in it are free slots, each under the register it was freed for. -/

namespace VRegAwareFreeList

/-- The physical slots that are in the list. -/
def Pool (l : VRegAwareFreeList) (ps : List ℕ) : Prop :=
  ∃ vs : List ℕ, vs.Nodup ∧ (∀ v, l.phySlotForVReg v ≠ none → v ∈ vs) ∧
    vs.filterMap l.phySlotForVReg = ps

/-- The list keeps count of the registers it has a slot for. -/
def Listed (l : VRegAwareFreeList) : Prop := ∀ v, l.phySlotForVReg v ≠ none → v ∈ l.availableVRegs

/-- Physical slots of the list, of the free list and of `used` are all different. -/
def Pooled (lo : ℕ) (l : VRegAwareFreeList) (a : FreeList) (used : List ℕ) : Prop :=
  l.Listed ∧ ∃ ps, l.Pool ps ∧ a.Owns lo (ps ++ used)

variable {lo : ℕ} {l : VRegAwareFreeList} {a : FreeList} {used : List ℕ}

theorem filterMap_update_of_notMem {g : ℕ → Option ℕ} {v : ℕ} {x : Option ℕ} {vs : List ℕ}
    (h : v ∉ vs) : vs.filterMap (Function.update g v x) = vs.filterMap g := by
  refine List.filterMap_congr fun w hw => ?_
  have hne : w ≠ v := fun heq => h (heq ▸ hw)
  exact Function.update_of_ne hne x g

/-- A register stands at one place. -/
theorem filterMap_update {g : ℕ → Option ℕ} {v : ℕ} {vs : List ℕ} (hv : v ∈ vs) (hnd : vs.Nodup) :
    ∃ b c, vs.filterMap g = b ++ (g v).toList ++ c ∧
      ∀ x, vs.filterMap (Function.update g v x) = b ++ x.toList ++ c := by
  obtain ⟨s, t, rfl⟩ := List.append_of_mem hv
  obtain ⟨-, hnt, hdisj⟩ := List.nodup_append.mp hnd
  have hs : v ∉ s := fun h => hdisj v h v List.mem_cons_self rfl
  have ht : v ∉ t := (List.nodup_cons.mp hnt).1
  have hcons : ∀ (g' : ℕ → Option ℕ), (s ++ v :: t).filterMap g'
      = s.filterMap g' ++ (g' v).toList ++ t.filterMap g' := by
    intro g'
    rw [List.filterMap_append, List.append_assoc]
    cases hg : g' v with
    | none => rw [List.filterMap_cons_none hg]; rfl
    | some p => rw [List.filterMap_cons_some hg]; rfl
  refine ⟨s.filterMap g, t.filterMap g, hcons g, fun x => ?_⟩
  rw [hcons, filterMap_update_of_notMem hs, filterMap_update_of_notMem ht, Function.update_self]

/-- At first the list is empty. -/
theorem pooled_empty (h : a.Owns lo used) : Pooled lo .empty a used :=
  ⟨fun _ hv => absurd rfl hv, [], ⟨[], List.nodup_nil, fun _ hv => absurd rfl hv, rfl⟩, h⟩

/-- A slot is put into the list. -/
theorem Pooled.addFree {slot : ℕ × ℕ} (h : Pooled lo l a (slot.2 :: used)) :
    Pooled lo (l.addFree slot) a used := by
  obtain ⟨hl, ps, ⟨vs, hnd, hvs, hps⟩, howns⟩ := h
  have hin : ∀ v, (l.addFree slot).phySlotForVReg v ≠ none → v = slot.1 ∨ v ∈ vs := by
    intro v hv
    by_cases heq : v = slot.1
    · exact .inl heq
    · refine .inr (hvs v ?_)
      rwa [phySlotForVReg_addFree, Function.update_of_ne heq] at hv
  refine ⟨fun v hv => ?_, ?_⟩
  · rw [availableVRegs_addFree, List.mem_append, List.mem_singleton]
    by_cases heq : v = slot.1
    · exact .inr heq
    · refine .inl (hl v ?_)
      rwa [phySlotForVReg_addFree, Function.update_of_ne heq] at hv
  · by_cases hmem : slot.1 ∈ vs
    · -- the register had a slot already, which is lost
      obtain ⟨b, c, hold, hnew⟩ := filterMap_update (g := l.phySlotForVReg) hmem hnd
      refine ⟨b ++ (some slot.2).toList ++ c, ⟨vs, hnd, fun v hv => ?_, hnew _⟩, ?_⟩
      · rcases hin v hv with rfl | hv'
        · exact hmem
        · exact hv'
      · rw [← hps, hold] at howns
        refine howns.subperm ((List.subperm_append_left a.freeList).mpr ?_)
        have : (b ++ [slot.2] ++ c ++ used).Subperm
            ([slot.2] ++ ((l.phySlotForVReg slot.1).toList ++ (b ++ c ++ used))) := by
          refine (List.Perm.subperm ?_).trans ((List.subperm_append_left [slot.2]).mpr
            (List.sublist_append_right (l.phySlotForVReg slot.1).toList (b ++ c ++ used)).subperm)
          rw [List.perm_iff_count]
          intro x
          simp only [List.count_append]
          omega
        refine this.trans (List.Perm.subperm ?_)
        rw [List.perm_iff_count]
        intro x
        simp only [List.count_append, List.count_cons, List.count_nil]
        omega
    · refine ⟨ps ++ [slot.2], ⟨vs ++ [slot.1], ?_, fun v hv => ?_, ?_⟩, howns.perm ?_⟩
      · rw [List.nodup_append]
        refine ⟨hnd, List.nodup_singleton _, fun v hv w hw heq => hmem ?_⟩
        rw [List.mem_singleton] at hw
        rwa [← hw, ← heq]
      · rw [List.mem_append, List.mem_singleton]
        exact (hin v hv).symm
      · rw [List.filterMap_append, phySlotForVReg_addFree, filterMap_update_of_notMem hmem, hps]
        simp
      · rw [List.append_assoc]
        rfl

theorem Pooled.addFreeAll : ∀ {slots : List (ℕ × ℕ)} {l : VRegAwareFreeList},
    Pooled lo l a (slots.map Prod.snd ++ used) →
    Pooled lo (slots.foldl VRegAwareFreeList.addFree l) a used
  | [], _, h => h
  | slot :: slots, l, h => by
      have hslot : Pooled lo (l.addFree slot) a (slots.map Prod.snd ++ used) := Pooled.addFree h
      rw [List.foldl_cons]
      exact addFreeAll hslot

/-- A slot is taken out of the list. -/
theorem Pooled.consume {v ord : ℕ} (h : Pooled lo l a used) (hv : l.phySlotForVReg v = some ord) :
    Pooled lo (l.consume v) a (ord :: used) := by
  obtain ⟨hl, ps, ⟨vs, hnd, hvs, hps⟩, howns⟩ := h
  have hmem : v ∈ vs := hvs v (by rw [hv]; exact Option.some_ne_none ord)
  obtain ⟨b, c, hold, hnew⟩ := filterMap_update (g := l.phySlotForVReg) hmem hnd
  have hsub : ∀ w, (l.consume v).phySlotForVReg w ≠ none → l.phySlotForVReg w ≠ none := by
    intro w hw
    by_cases heq : w = v
    · rw [heq, hv]
      exact Option.some_ne_none ord
    · rwa [phySlotForVReg_consume, Function.update_of_ne heq] at hw
  refine ⟨fun w hw => hl w (hsub w hw), b ++ c, ⟨vs, hnd, fun w hw => hvs w (hsub w hw), ?_⟩,
    howns.perm ?_⟩
  · rw [phySlotForVReg_consume, hnew none]
    simp
  · rw [← hps, hold, hv, List.perm_iff_count]
    intro x
    simp only [List.count_append, List.count_cons, Option.toList_some, List.count_nil]
    omega

/-- What is left returns to the free list. -/
theorem Pooled.addAllRemaining (h : Pooled lo l a used) : (l.addAllRemaining a).Owns lo used := by
  -- the registers still to come are all those that have a slot
  suffices H : ∀ (vs : List ℕ) (l : VRegAwareFreeList) (a : FreeList),
      (∀ v, l.phySlotForVReg v ≠ none → v ∈ vs) → Pooled lo l a used →
      (vs.foldl addRemaining (l, a)).2.Owns lo used from H _ _ _ h.1 h
  intro vs
  induction vs with
  | nil =>
    intro l a hvs h
    obtain ⟨-, ps, ⟨ws, -, -, hps⟩, howns⟩ := h
    have hnil : ps = [] := by
      rw [← hps]
      refine List.filterMap_eq_nil_iff.mpr fun w _ => ?_
      by_contra hw
      exact absurd (hvs w hw) List.not_mem_nil
    rwa [hnil] at howns
  | cons v vs ih =>
    intro l a hvs h
    rw [List.foldl_cons]
    cases hv : l.phySlotForVReg v with
    | none =>
      rw [show addRemaining (l, a) v = (l, a) by simp [addRemaining, hv]]
      refine ih l a (fun w hw => ?_) h
      rcases List.mem_cons.mp (hvs w hw) with rfl | hw'
      · exact absurd hv hw
      · exact hw'
    | some ord =>
      rw [show addRemaining (l, a) v = (l.consume v, a.deallocate ord) by simp [addRemaining, hv]]
      obtain ⟨hl, ps, hpool, howns⟩ := h.consume hv
      refine ih _ _ (fun w hw => ?_) ⟨hl, ps, hpool, (howns.perm List.perm_middle.symm).deallocate⟩
      by_cases heq : w = v
      · rw [heq, phySlotForVReg_consume, Function.update_self] at hw
        exact absurd rfl hw
      · rw [phySlotForVReg_consume, Function.update_of_ne heq] at hw
        exact (List.mem_cons.mp (hvs w hw)).resolve_left heq

end VRegAwareFreeList

/-! ## The two loops over the slots of a frame

The first reuses the slot of the same virtual register, the second takes what is free. -/

section Loops

variable {lo : ℕ} {a : FreeList} {used : List ℕ}

@[simp] theorem takenSlots_physical (p : ℕ) (rest : List SlotInfo) :
    takenSlots (.physical p :: rest) = p :: takenSlots rest := rfl

theorem takenSlots_cons_of_none (slot : SlotInfo) (h : slot.physical? = none)
    (rest : List SlotInfo) :
    takenSlots (slot :: rest) = takenSlots rest := List.filterMap_cons_none h

/-- **Slots take over the physical slot of their virtual register** out of the pool. -/
theorem reuseSlots_spec (f : InlinedCallFrame) : ∀ (info : List SlotInfo) (idx : ℕ)
    (l : VRegAwareFreeList) (used : List ℕ), (∀ slot ∈ info, slot.physical? = none) →
    l.Pooled lo a used →
    (reuseSlots f idx info l).2.Pooled lo a (takenSlots (reuseSlots f idx info l).1 ++ used)
  | [], _, _, _, _, h => h
  | .needed :: rest, idx, l, used, hinfo, h => by
      have hrest : ∀ slot ∈ rest, slot.physical? = none := fun slot hs =>
        hinfo slot (List.mem_cons_of_mem _ hs)
      cases hv : l.phySlotForVReg (f.vregForSlot idx) with
      | some ord =>
        have := reuseSlots_spec f rest (idx + 1) _ _ hrest (h.consume hv)
        obtain ⟨hl, ps, hpool, howns⟩ := this
        simp only [reuseSlots, hv, takenSlots_physical]
        exact ⟨hl, ps, hpool, howns.perm ((List.perm_middle.symm).append_left ps)⟩
      | none =>
        simp only [reuseSlots, hv, takenSlots_cons_of_none .needed rfl]
        exact reuseSlots_spec f rest (idx + 1) l used hrest h
  | .unused :: rest, idx, l, used, hinfo, h =>
      reuseSlots_spec f rest (idx + 1) l used
        (fun slot hs => hinfo slot (List.mem_cons_of_mem _ hs)) h
  | .constant :: rest, idx, l, used, hinfo, h =>
      reuseSlots_spec f rest (idx + 1) l used
        (fun slot hs => hinfo slot (List.mem_cons_of_mem _ hs)) h
  | .physical p :: rest, _, _, _, hinfo, _ =>
      absurd (hinfo (.physical p) List.mem_cons_self) (Option.some_ne_none p)

/-- **The other slots get free physical slots or new ones.** -/
theorem assignSlots_spec : ∀ (info : List SlotInfo) (a : FreeList) (used : List ℕ),
    a.Owns lo (takenSlots info ++ used) →
    (assignSlots info a).2.Owns lo (takenSlots (assignSlots info a).1 ++ used)
  | [], _, _, h => h
  | .needed :: rest, a, used, h => by
      have hnew := assignSlots_spec rest a.allocate.2 (a.allocate.1 :: used)
        ((FreeList.Owns.allocate h).perm List.perm_middle)
      exact hnew.perm List.perm_middle.symm
  | .physical p :: rest, a, used, h => by
      have hnew := assignSlots_spec rest a (p :: used) (h.perm List.perm_middle)
      exact hnew.perm List.perm_middle.symm
  | .unused :: rest, a, used, h => assignSlots_spec rest a used h
  | .constant :: rest, a, used, h => assignSlots_spec rest a used h

/-- The slot has a physical slot, or needs one. -/
def SlotInfo.isMapped : SlotInfo → Bool
  | .needed => true
  | .physical _ => true
  | _ => false

theorem map_isMapped_reuseSlots (f : InlinedCallFrame) : ∀ (info : List SlotInfo) (idx : ℕ)
    (l : VRegAwareFreeList), (reuseSlots f idx info l).1.map SlotInfo.isMapped
      = info.map SlotInfo.isMapped
  | [], _, _ => rfl
  | .needed :: rest, idx, l => by
      cases hv : l.phySlotForVReg (f.vregForSlot idx) with
      | some ord =>
        simp only [reuseSlots, hv, List.map_cons, map_isMapped_reuseSlots f rest]
        rfl
      | none => simp only [reuseSlots, hv, List.map_cons, map_isMapped_reuseSlots f rest]
  | .physical _ :: rest, idx, l => congrArg (_ :: ·) (map_isMapped_reuseSlots f rest (idx + 1) l)
  | .unused :: rest, idx, l => congrArg (_ :: ·) (map_isMapped_reuseSlots f rest (idx + 1) l)
  | .constant :: rest, idx, l => congrArg (_ :: ·) (map_isMapped_reuseSlots f rest (idx + 1) l)

/-- Afterwards a slot has a physical slot exactly if it needed one. -/
theorem map_physical_assignSlots : ∀ (info : List SlotInfo) (a : FreeList),
    (assignSlots info a).1.map (fun slot => slot.physical?.isSome) = info.map SlotInfo.isMapped
  | [], _ => rfl
  | .needed :: rest, a => congrArg (true :: ·) (map_physical_assignSlots rest a.allocate.2)
  | .physical _ :: rest, a => congrArg (true :: ·) (map_physical_assignSlots rest a)
  | .unused :: rest, a => congrArg (false :: ·) (map_physical_assignSlots rest a)
  | .constant :: rest, a => congrArg (false :: ·) (map_physical_assignSlots rest a)

end Loops

/-! ## What a call does to the physical slots of its caller

The slots that die with the call are freed, and the others kept. -/

section Call

variable {parent f : InlinedCallFrame} {info : List SlotInfo}

/-- A filter splits a list. -/
theorem filterMap_split_perm {α β : Type} (c : α → Prop) [DecidablePred c] (g : α → Option β) :
    ∀ l : List α, (l.filterMap (fun i => if c i then none else g i)
      ++ l.filterMap (fun i => if c i then g i else none)).Perm (l.filterMap g)
  | [] => .nil
  | i :: l => by
      have ih := filterMap_split_perm c g l
      simp only [List.filterMap_cons]
      by_cases hc : c i
      · simp only [if_pos hc]
        cases g i with
        | none => exact ih
        | some x => exact List.perm_middle.trans (ih.cons x)
      · simp only [if_neg hc]
        cases g i with
        | none => exact ih
        | some x => exact ih.cons x

/-- The live slots of the parent that the call leaves alone, with their physical slots. -/
def keptSlots (parent f : InlinedCallFrame) (info : List SlotInfo) : List (Option ℕ) :=
  (List.range (f.frameStart - parent.frameStart)).map fun idx =>
    if (f.virtualRegisterMappingBeforeThisFrame.getD (parent.frameStart + idx) .dead).isLive then
      (info.getD idx default).physical?
    else none

/-- The slots that a frame holds, by index. -/
theorem takenSlots_eq_range : takenSlots info
    = (List.range info.length).filterMap fun idx => (info.getD idx default).physical? := by
  have hinfo : info = (List.range info.length).map fun idx => info.getD idx default := by
    refine List.ext_getElem (by simp) fun i h1 h2 => ?_
    simp [List.getD_eq_getElem?_getD, h1]
  conv_lhs => rw [hinfo]
  rw [takenSlots, List.filterMap_map]
  rfl

/-- **The physical slots of the parent** are free during the call or kept. -/
theorem freedSlots_perm (hend : f.frameStart - parent.frameStart ≤ info.length) :
    ((freedSlots parent f info).map Prod.snd ++ (keptSlots parent f info).reduceOption).Perm
      (takenSlots info) := by
  have hsplit := filterMap_split_perm (fun idx => idx < f.frameStart - parent.frameStart ∧
    (f.virtualRegisterMappingBeforeThisFrame.getD (parent.frameStart + idx) .dead).isLive = true)
    (fun idx => (info.getD idx default).physical?) (List.range info.length)
  rw [← takenSlots_eq_range] at hsplit
  have hfreed : (freedSlots parent f info).map Prod.snd = (List.range info.length).filterMap
      fun idx => if idx < f.frameStart - parent.frameStart ∧
        (f.virtualRegisterMappingBeforeThisFrame.getD (parent.frameStart + idx) .dead).isLive = true
        then none else (info.getD idx default).physical? := by
    rw [freedSlots, List.map_filterMap]
    refine List.filterMap_congr fun idx _ => ?_
    split_ifs
    · rfl
    · cases (info.getD idx default).physical? <;> rfl
  have hkept : (keptSlots parent f info).reduceOption = (List.range info.length).filterMap
      fun idx => if idx < f.frameStart - parent.frameStart ∧
        (f.virtualRegisterMappingBeforeThisFrame.getD (parent.frameStart + idx) .dead).isLive = true
        then (info.getD idx default).physical? else none := by
    obtain ⟨k, hk⟩ : ∃ k, k = f.frameStart - parent.frameStart := ⟨_, rfl⟩
    obtain ⟨m, hm⟩ : ∃ m, info.length = k + m := ⟨info.length - k, by omega⟩
    rw [keptSlots, List.reduceOption, List.filterMap_map, ← hk, hm, List.range_eq_range',
      List.range_eq_range', ← List.range'_append_1, Nat.zero_add, List.filterMap_append]
    have htail : (List.range' k m).filterMap (fun idx => if idx < k ∧
        (f.virtualRegisterMappingBeforeThisFrame.getD (parent.frameStart + idx) .dead).isLive = true
        then (info.getD idx default).physical? else none) = [] := by
      refine List.filterMap_eq_nil_iff.mpr fun idx hidx => ?_
      rw [List.mem_range'_1] at hidx
      rw [if_neg (by omega)]
    rw [htail, List.append_nil]
    refine List.filterMap_congr fun idx hidx => ?_
    rw [List.mem_range'_1] at hidx
    simp only [Function.comp_apply, id_eq]
    by_cases hlive : (f.virtualRegisterMappingBeforeThisFrame.getD
        (parent.frameStart + idx) .dead).isLive = true
    · rw [if_pos hlive, if_pos ⟨by omega, hlive⟩]
    · rw [if_neg hlive, if_neg fun h => hlive h.2]
  rwa [hfreed, hkept]

end Call

/-! ## The plan

Frame after frame; the slots of a frame are those it kept from its parents and those assigned to it.
-/

section Plan

variable {first : ℕ} {frames : List InlinedCallFrame} {localOps : List LocalOp}

/-- There is a plan for every frame. -/
theorem length_planFrames (first : ℕ) (frames : List InlinedCallFrame) (localOps : List LocalOp) :
    ∀ n ≤ frames.length, (planFrames first frames localOps n).length = n
  | 0, _ => rfl
  | n + 1, hn => by
      rw [planFrames, List.getElem?_eq_getElem hn, List.length_append, List.length_singleton,
        length_planFrames first frames localOps n (by omega)]

/-- **Planning later frames leaves the plans of earlier ones alone.** -/
theorem planFrames_take (first : ℕ) (frames : List InlinedCallFrame) (localOps : List LocalOp) :
    ∀ n ≤ frames.length, ∀ k ≤ n,
    planFrames first frames localOps k = (planFrames first frames localOps n).take k
  | 0, _, k, hk => by
      obtain rfl : k = 0 := by omega
      rfl
  | n + 1, hn, k, hk => by
      have hlen := length_planFrames first frames localOps n (by omega)
      rcases Nat.lt_or_eq_of_le hk with hlt | rfl
      · rw [planFrames, List.getElem?_eq_getElem hn, List.take_append_of_le_length (by omega),
          planFrames_take first frames localOps n (by omega) k (by omega)]
      · rw [List.take_of_length_le (by rw [length_planFrames _ _ _ _ hn])]

/-- The plan of a frame. -/
theorem getElem?_planFrames (first : ℕ) (localOps : List LocalOp) {n ord : ℕ}
    {f : InlinedCallFrame} (hn : n ≤ frames.length)
    (hord : ord < n) (hf : frames[ord]? = some f) :
    (planFrames first frames localOps n)[ord]?
      = some (planFrame first frames localOps (planFrames first frames localOps ord) ord f) := by
  have hlen := length_planFrames first frames localOps ord (by omega)
  have htake := planFrames_take first frames localOps n hn (ord + 1) hord
  rw [planFrames, hf] at htake
  have hget := congrArg (fun l => l[ord]?) htake
  rw [List.getElem?_take_of_lt (Nat.lt_succ_self ord)] at hget
  dsimp only at hget
  rw [← hget, List.getElem?_append_right (by omega), hlen, Nat.sub_self]
  rfl

/-- Where the plan keeps a slot: in the frame it belongs to. -/
inductive HeldAt (frames : List InlinedCallFrame) (plan : List FrameSlots) : ℕ → ℕ → ℕ → Prop
  | own {ord slot p : ℕ} {f : InlinedCallFrame} {s : FrameSlots} : frames[ord]? = some f →
      plan[ord]? = some s → f.frameStart ≤ slot →
      s.info[slot - f.frameStart]? = some (.physical p) → HeldAt frames plan ord slot p
  | outer {ord slot p parentOrd : ℕ} {f : InlinedCallFrame} : frames[ord]? = some f →
      slot < f.frameStart → f.parentFrame = some parentOrd → HeldAt frames plan parentOrd slot p →
      HeldAt frames plan ord slot p

/-- The slots that may be live somewhere in a frame: its own, and those of its ancestors that are
live across the call. -/
def InlinedCallFrame.MayBeLive (f : InlinedCallFrame) (slot : ℕ) : Prop :=
  f.frameStart ≤ slot ∨ ∃ info, f.virtualRegisterMappingBeforeThisFrame[slot]? = some info ∧
    info.isLive = true

/-- The invariant of a planned frame; `outer` has the physical slots of the ancestors' live slots.
-/
structure Planned (first : ℕ) (frames : List InlinedCallFrame) (plan : List FrameSlots) (ord : ℕ)
    (f : InlinedCallFrame) (s : FrameSlots) (outer : List (Option ℕ)) : Prop where
  length : outer.length = f.frameStart
  info_length : s.info.length = f.frameLength
  owns : s.physicalSlots.Owns first (takenSlots s.info ++ outer.reduceOption)
  held : ∀ slot < f.frameStart, f.MayBeLive slot → ∀ p, HeldAt frames plan ord slot p →
    outer[slot]? = some (some p)

/-- At first no slot has a physical one. -/
theorem initInfo_physical {f : InlinedCallFrame} {ord : ℕ} :
    ∀ slot ∈ f.initInfo ord localOps, slot.physical? = none := by
  intro slot hs
  obtain ⟨idx, -, rfl⟩ := List.mem_map.mp hs
  split_ifs <;> rfl

theorem takenSlots_initInfo {f : InlinedCallFrame} {ord : ℕ} :
    takenSlots (f.initInfo ord localOps) = [] :=
  List.filterMap_eq_nil_iff.mpr initInfo_physical

/-- Which slots of a frame have a physical slot in the end. -/
theorem map_physical_planFrame (first : ℕ) (frames : List InlinedCallFrame)
    (localOps : List LocalOp)
    (planned : List FrameSlots) (ord : ℕ) (f : InlinedCallFrame) :
    (planFrame first frames localOps planned ord f).info.map (fun slot => slot.physical?.isSome)
      = (f.initInfo ord localOps).map SlotInfo.isMapped := by
  unfold planFrame
  cases f.parentFrame with
  | none => exact map_physical_assignSlots _ _
  | some parentOrd =>
    exact (map_physical_assignSlots _ _).trans (map_isMapped_reuseSlots f _ _ _)

/-- A record has as many slots as its frame. -/
theorem length_planFrame (first : ℕ) (frames : List InlinedCallFrame) (localOps : List LocalOp)
    (planned : List FrameSlots) (ord : ℕ) (f : InlinedCallFrame) :
    (planFrame first frames localOps planned ord f).info.length = f.frameLength := by
  have := congrArg List.length (map_physical_planFrame first frames localOps planned ord f)
  simpa [InlinedCallFrame.initInfo] using this

/-- The outermost frame begins with an empty free list. -/
theorem owns_planFrame_root {planned : List FrameSlots} {ord : ℕ} {f : InlinedCallFrame}
    (hp : f.parentFrame = none) :
    (planFrame first frames localOps planned ord f).physicalSlots.Owns first
      (takenSlots (planFrame first frames localOps planned ord f).info ++ []) := by
  have howns : FreeList.Owns first ⟨[], first⟩
      (takenSlots (f.initInfo ord localOps) ++ []) := by
    rw [takenSlots_initInfo]
    exact ⟨List.nodup_nil, fun _ hr => absurd hr List.not_mem_nil,
      fun _ hr => absurd hr List.not_mem_nil, le_rfl⟩
  have := assignSlots_spec _ _ _ howns
  unfold planFrame
  rw [hp]
  exact this

/-- A callee begins with the slots that its parent does not need across the call. -/
theorem owns_planFrame_callee {planned : List FrameSlots} {ord parentOrd : ℕ}
    {f parent : InlinedCallFrame} {ps : FrameSlots} {outer : List (Option ℕ)}
    (hp : f.parentFrame = some parentOrd) (hparent : frames[parentOrd]? = some parent)
    (hfound : planned.getD parentOrd default = ps)
    (hlen : f.frameStart - parent.frameStart ≤ ps.info.length)
    (howns : ps.physicalSlots.Owns first (takenSlots ps.info ++ outer.reduceOption)) :
    (planFrame first frames localOps planned ord f).physicalSlots.Owns first
      (takenSlots (planFrame first frames localOps planned ord f).info ++
        (outer ++ keptSlots parent f ps.info).reduceOption) := by
  have hpooled : ((freedSlots parent f ps.info).foldl VRegAwareFreeList.addFree .empty).Pooled
      first ps.physicalSlots ((outer ++ keptSlots parent f ps.info).reduceOption) := by
    refine VRegAwareFreeList.Pooled.addFreeAll (VRegAwareFreeList.pooled_empty
      (howns.perm ?_))
    have hperm := freedSlots_perm hlen
    rw [List.reduceOption_append]
    rw [List.perm_iff_count] at hperm ⊢
    intro x
    have := hperm x
    simp only [List.count_append] at this ⊢
    omega
  have hreuse := reuseSlots_spec f (f.initInfo ord localOps) 0 _ _ initInfo_physical hpooled
  have := assignSlots_spec _ _ _ hreuse.addAllRemaining
  unfold planFrame
  rw [hp]
  simp only [hparent, hfound]
  exact this

/-- A live slot of the parent is among those kept. -/
theorem getElem?_keptSlots {f parent : InlinedCallFrame} {info : List SlotInfo} {slot p : ℕ}
    {vreg : VirtualRegisterMappingInfo} (hle : parent.frameStart ≤ slot) (hlt : slot < f.frameStart)
    (hget : f.virtualRegisterMappingBeforeThisFrame[slot]? = some vreg) (hlive : vreg.isLive = true)
    (hinfo : info[slot - parent.frameStart]? = some (.physical p)) :
    (keptSlots parent f info)[slot - parent.frameStart]? = some (some p) := by
  have hidx : parent.frameStart + (slot - parent.frameStart) = slot := by omega
  rw [keptSlots, List.getElem?_map, List.getElem?_range (by omega), Option.map_some, hidx,
    List.getD_eq_getElem?_getD, hget, Option.getD_some, if_pos hlive,
    List.getD_eq_getElem?_getD, hinfo]
  rfl

/-- What a callee may find live of its ancestors is where they keep it. -/
theorem Planned.held_callee {plan : List FrameSlots} {ord parentOrd : ℕ}
    {f parent : InlinedCallFrame} {ps : FrameSlots} {outer : List (Option ℕ)}
    (hplanned : Planned first frames plan parentOrd parent ps outer)
    (hparent : frames[parentOrd]? = some parent) (hps : plan[parentOrd]? = some ps)
    (hf : frames[ord]? = some f) (hp : f.parentFrame = some parentOrd)
    (houter : ∀ slot < parent.frameStart, f.virtualRegisterMappingBeforeThisFrame[slot]? =
      parent.virtualRegisterMappingBeforeThisFrame[slot]?) :
    ∀ slot < f.frameStart, f.MayBeLive slot → ∀ p, HeldAt frames plan ord slot p →
      (outer ++ keptSlots parent f ps.info)[slot]? = some (some p) := by
  intro slot hlt hlive p hheld
  -- the slot belongs to an ancestor of the parent, or to the parent
  cases hheld with
  | own hf' _ hge =>
    rw [hf, Option.some.injEq] at hf'
    subst hf'
    omega
  | outer hf' _ hp' hheld' =>
    rw [hf, Option.some.injEq] at hf'
    subst hf'
    rw [hp, Option.some.injEq] at hp'
    subst hp'
    have hmap : ∃ info, f.virtualRegisterMappingBeforeThisFrame[slot]? = some info ∧
        info.isLive = true := hlive.resolve_left (by omega)
    by_cases hin : slot < parent.frameStart
    · rw [houter slot hin] at hmap
      rw [List.getElem?_append_left (by rw [hplanned.length]; exact hin)]
      exact hplanned.held slot hin (.inr hmap) p hheld'
    · cases hheld' with
      | outer hf'' hlt' =>
        rw [hparent, Option.some.injEq] at hf''
        subst hf''
        exact absurd hlt' hin
      | own hf'' hs' _ hinfo =>
        rw [hparent, Option.some.injEq] at hf''
        subst hf''
        rw [hps, Option.some.injEq] at hs'
        subst hs'
        obtain ⟨info, hget, hli⟩ := hmap
        rw [List.getElem?_append_right (by rw [hplanned.length]; omega), hplanned.length]
        exact getElem?_keptSlots (by omega) hlt hget hli hinfo

/-- **The invariant holds of every frame of a tree**, by induction over the ordinals. -/
theorem InlineTree.planned (h : InlineTree frames) (first : ℕ) (localOps : List LocalOp) :
    ∀ (ord : ℕ) f, frames[ord]? = some f → ∃ s outer,
      (planFrames first frames localOps frames.length)[ord]? = some s ∧
      Planned first frames (planFrames first frames localOps frames.length) ord f s outer := by
  intro ord
  induction ord using Nat.strong_induction_on with
  | _ ord ih =>
    intro f hf
    obtain ⟨hord, -⟩ := List.getElem?_eq_some_iff.mp hf
    obtain ⟨plan, hplan⟩ : ∃ plan, plan = planFrames first frames localOps frames.length := ⟨_, rfl⟩
    have hs := getElem?_planFrames first localOps le_rfl hord hf
    have hat := h.frameAt ord f hf
    rw [← hplan] at ih hs ⊢
    cases hp : f.parentFrame with
    | none =>
      obtain ⟨-, hbase⟩ := hat.root hp
      have hstart : f.frameStart = 0 := by
        unfold InlinedCallFrame.frameStart
        omega
      exact ⟨_, [], hs, by rw [hstart]; rfl, length_planFrame .., owns_planFrame_root hp,
        fun slot hlt => absurd hlt (by omega)⟩
    | some parentOrd =>
      obtain ⟨hpo, parent, -, hparent, hcalls, -⟩ := hat.parent parentOrd hp
      obtain ⟨ps, outer, hps, hplanned⟩ := ih parentOrd hpo parent hparent
      -- the parent's plan is the one that the frame finds
      have hfound : (planFrames first frames localOps ord).getD parentOrd default = ps := by
        rw [planFrames_take _ _ _ frames.length le_rfl ord hord.le, ← hplan,
          List.getD_eq_getElem?_getD,
          List.getElem?_take_of_lt hpo, hps]
        rfl
      have hlen : f.frameStart - parent.frameStart ≤ ps.info.length := by
        have h1 := hcalls.le_end
        have h2 := parent.frameStart_le
        rw [hplanned.info_length]
        unfold InlinedCallFrame.frameLength InlinedCallFrame.stackBaseIdx
        unfold InlinedCallFrame.frameEnd at h1
        omega
      refine ⟨_, outer ++ keptSlots parent f ps.info, hs, ?_, length_planFrame ..,
        owns_planFrame_callee hp hparent hfound hlen hplanned.owns,
        hplanned.held_callee hparent hps hf hp hcalls.outer⟩
      have := hcalls.start_le
      rw [List.length_append, hplanned.length, keptSlots, List.length_map, List.length_range]
      omega

/-- A recorded slot is taken. -/
theorem mem_takenSlots {info : List SlotInfo} {idx p : ℕ} (h : info[idx]? = some (.physical p)) :
    p ∈ takenSlots info :=
  List.mem_filterMap.mpr ⟨_, List.mem_of_getElem? h, rfl⟩

/-- A list without repetitions has a value at one place only. -/
theorem eq_of_filterMap_nodup {α : Type} {g : α → Option ℕ} {l : List α}
    (hnd : (l.filterMap g).Nodup)
    {i j p : ℕ} {x y : α} (hx : l[i]? = some x) (hy : l[j]? = some y) (hgx : g x = some p)
    (hgy : g y = some p) : i = j := by
  have hpair := List.pairwise_filterMap.mp hnd
  obtain ⟨hi, hxi⟩ := List.getElem?_eq_some_iff.mp hx
  obtain ⟨hj, hyj⟩ := List.getElem?_eq_some_iff.mp hy
  by_contra hne
  rcases Nat.lt_or_gt_of_ne hne with hlt | hlt
  · exact List.pairwise_iff_getElem.mp hpair i j hi hj hlt p (by rw [hxi]; exact hgx) p
      (by rw [hyj]; exact hgy) rfl
  · exact List.pairwise_iff_getElem.mp hpair j i hj hi hlt p (by rw [hyj]; exact hgy) p
      (by rw [hxi]; exact hgx) rfl

/-- A slot of the frame itself. -/
theorem HeldAt.info {plan : List FrameSlots} {ord slot p : ℕ} {f : InlinedCallFrame}
    {s : FrameSlots}
    (h : HeldAt frames plan ord slot p) (hf : frames[ord]? = some f) (hs : plan[ord]? = some s)
    (hge : f.frameStart ≤ slot) : s.info[slot - f.frameStart]? = some (.physical p) := by
  cases h with
  | own hf' hs' _ hinfo =>
    rw [hf, Option.some.injEq] at hf'
    rw [hs, Option.some.injEq] at hs'
    subst hf' hs'
    exact hinfo
  | outer hf' hlt =>
    rw [hf, Option.some.injEq] at hf'
    subst hf'
    omega

/-- Different live slots have different physical slots. -/
theorem Planned.injective {plan : List FrameSlots} {ord slot slot' p : ℕ} {f : InlinedCallFrame}
    {s : FrameSlots} {outer : List (Option ℕ)} (h : Planned first frames plan ord f s outer)
    (hf : frames[ord]? = some f) (hs : plan[ord]? = some s) (hl : f.MayBeLive slot)
    (hl' : f.MayBeLive slot') (hp : HeldAt frames plan ord slot p)
    (hp' : HeldAt frames plan ord slot' p) : slot = slot' := by
  obtain ⟨htaken, houter, hdisj⟩ := List.nodup_append.mp h.owns.used_nodup
  have hmem : ∀ {slot : ℕ}, slot < f.frameStart → f.MayBeLive slot → HeldAt frames plan ord slot p →
      p ∈ outer.reduceOption := fun hlt hl hp =>
    List.mem_filterMap.mpr ⟨some p, List.mem_of_getElem? (h.held _ hlt hl p hp), rfl⟩
  by_cases hge : f.frameStart ≤ slot
  · have hin := hp.info hf hs hge
    by_cases hge' : f.frameStart ≤ slot'
    · have := eq_of_filterMap_nodup htaken hin (hp'.info hf hs hge') rfl rfl
      omega
    · exact absurd rfl (hdisj p (mem_takenSlots hin) p (hmem (not_le.mp hge') hl' hp'))
  · by_cases hge' : f.frameStart ≤ slot'
    · exact absurd rfl (hdisj p (mem_takenSlots (hp'.info hf hs hge')) p
        (hmem (not_le.mp hge) hl hp))
    · exact eq_of_filterMap_nodup houter (h.held slot (not_le.mp hge) hl p hp)
        (h.held slot' (not_le.mp hge') hl' p hp') rfl rfl

/-- A live slot is held in one place. -/
theorem HeldAt.unique {plan : List FrameSlots} {ord slot p p' : ℕ}
    (h : HeldAt frames plan ord slot p)
    (h' : HeldAt frames plan ord slot p') : p = p' := by
  induction h with
  | own hf hs hge hinfo =>
    have := h'.info hf hs hge
    rw [hinfo, Option.some.injEq, SlotInfo.physical.injEq] at this
    exact this
  | outer hf hlt hparent _ ih =>
    cases h' with
    | own hf' _ hge =>
      rw [hf, Option.some.injEq] at hf'
      subst hf'
      omega
    | outer hf' _ hparent' hheld =>
      rw [hf, Option.some.injEq] at hf'
      subst hf'
      rw [hparent, Option.some.injEq] at hparent'
      subst hparent'
      exact ih hheld

/-- The total is above what each frame has. -/
theorem le_numTotalPhysicalSlots {plan : List FrameSlots} {s : FrameSlots} (hs : s ∈ plan) :
    s.physicalSlots.firstAvailableOrdinal ≤ numTotalPhysicalSlots plan := by
  have hgrow : ∀ (l : List FrameSlots) (n : ℕ),
      n ≤ l.foldl (fun n slots => max n slots.physicalSlots.firstAvailableOrdinal) n := by
    intro l
    induction l with
    | nil => exact fun n => le_rfl
    | cons a l ih => exact fun n => (Nat.le_max_left _ _).trans (ih _)
  obtain ⟨l, r, rfl⟩ := List.append_of_mem hs
  rw [numTotalPhysicalSlots, List.foldl_append, List.foldl_cons]
  exact (Nat.le_max_right _ _).trans (hgrow r _)

/-- A slot that some `SetLocal` writes has a physical slot. -/
theorem heldAt_setLocal {op : LocalOp} (hop : op ∈ localOps) (hset : op.isSetLocal = true)
    {f : InlinedCallFrame} (hf : frames[op.frameOrd]? = some f)
    (hidx : f.infoIdx op.location < f.frameLength) :
    ∃ p, HeldAt frames (planFrames first frames localOps frames.length) op.frameOrd
      (f.frameStart + f.infoIdx op.location) p := by
  obtain ⟨hord, -⟩ := List.getElem?_eq_some_iff.mp hf
  have hs := getElem?_planFrames first localOps le_rfl hord hf
  generalize hslots : planFrame first frames localOps
    (planFrames first frames localOps op.frameOrd) op.frameOrd f = s at hs
  have hmap := map_physical_planFrame first frames localOps
    (planFrames first frames localOps op.frameOrd) op.frameOrd f
  rw [hslots] at hmap
  have hneeded : (f.initInfo op.frameOrd localOps)[f.infoIdx op.location]? = some .needed := by
    have hany : (localOps.any fun op' => op'.isSetLocal ∧ op'.frameOrd = op.frameOrd ∧
        f.infoIdx op'.location = f.infoIdx op.location) = true :=
      List.any_eq_true.mpr ⟨op, hop, decide_eq_true ⟨hset, rfl, rfl⟩⟩
    rw [InlinedCallFrame.initInfo, List.getElem?_map, List.getElem?_range hidx, Option.map_some,
      if_pos hany]
  have hget := congrArg (fun l => l[f.infoIdx op.location]?) hmap
  simp only [List.getElem?_map, hneeded, Option.map_some] at hget
  obtain ⟨slot, hslot, hsome⟩ := Option.map_eq_some_iff.mp hget
  cases slot with
  | physical p =>
    refine ⟨p, .own hf hs (Nat.le_add_right _ _) ?_⟩
    rw [Nat.add_sub_cancel_left, hslot]
  | unused => exact absurd hsome Bool.false_ne_true
  | needed => exact absurd hsome Bool.false_ne_true
  | constant => exact absurd hsome Bool.false_ne_true

/-- **Stack-layout planning never aliases live values.**  In every frame of every tree of inlined
calls, the slots that may be live have different physical slots, from the first local slot on and
below the total; each slot of a frame has one physical slot, which later frames leave alone, and
every slot that is written has one. -/
theorem InlineTree.stackLayout_never_aliases (h : InlineTree frames) {plan : List FrameSlots}
    {total : ℕ} (hrun : runStackLayoutPlanningPass first frames localOps = some (plan, total)) :
    (∀ (ord slot slot' p : ℕ) f, frames[ord]? = some f → f.MayBeLive slot → f.MayBeLive slot' →
      HeldAt frames plan ord slot p → HeldAt frames plan ord slot' p → slot = slot') ∧
    (∀ ord slot p, HeldAt frames plan ord slot p → first ≤ p ∧ p < total) ∧
    (∀ ord slot p p', HeldAt frames plan ord slot p → HeldAt frames plan ord slot p' → p = p') ∧
    (∀ k ≤ frames.length, planFrames first frames localOps k = plan.take k) ∧
    ∀ op ∈ localOps, op.isSetLocal = true → ∀ f, frames[op.frameOrd]? = some f →
      f.infoIdx op.location < f.frameLength →
      ∃ p, HeldAt frames plan op.frameOrd (f.frameStart + f.infoIdx op.location) p := by
  unfold runStackLayoutPlanningPass at hrun
  dsimp only at hrun
  split_ifs at hrun
  obtain ⟨hplan, htotal⟩ := Prod.mk.inj (Option.some.inj hrun)
  subst hplan htotal
  refine ⟨fun ord slot slot' p f hf hl hl' hp hp' => ?_, fun ord slot p hp => ?_,
    fun _ _ _ _ hp hp' => hp.unique hp', planFrames_take _ _ _ frames.length le_rfl,
    fun op hop hset f hf hidx => heldAt_setLocal hop hset hf hidx⟩
  · obtain ⟨s, outer, hs, hplanned⟩ := h.planned first localOps ord f hf
    exact hplanned.injective hf hs hl hl' hp hp'
  · induction hp with
    | outer _ _ _ _ ih => exact ih
    | own hf hs _ hinfo =>
      obtain ⟨s, outer, hs', hplanned⟩ := h.planned first localOps _ _ hf
      rw [hs, Option.some.injEq] at hs'
      subst hs'
      have hmem := List.mem_append_left outer.reduceOption (mem_takenSlots hinfo)
      exact ⟨hplanned.owns.ge hmem,
        (hplanned.owns.lt hmem).trans_le (le_numTotalPhysicalSlots (List.mem_of_getElem? hs))⟩

end Plan

/-- Each frame of the example sets some of its locals. -/
def inPlaceOps : List LocalOp :=
  [⟨0, .local 0, true⟩, ⟨0, .local 3, true⟩, ⟨0, .local 8, true⟩, ⟨0, .local 0, false⟩,
   ⟨1, .local 0, true⟩, ⟨1, .local 1, true⟩, ⟨1, .varArg 0, true⟩, ⟨1, .functionObject, true⟩]

theorem InlineTree.stackLayout_never_aliases_inPlaceSite : ∃ plan,
    runStackLayoutPlanningPass 20 [createRootFrame tenLocals,
      inlineCall [createRootFrame tenLocals] 0 (createRootFrame tenLocals) inPlaceSite] inPlaceOps
      = some (plan, 25) ∧
    ∀ ord slot p, HeldAt [createRootFrame tenLocals,
      inlineCall [createRootFrame tenLocals] 0
        (createRootFrame tenLocals) inPlaceSite] plan ord slot p →
      20 ≤ p ∧ p < 25 := by
  have hrun : runStackLayoutPlanningPass 20 ([createRootFrame tenLocals]
    ++ [inlineCall [createRootFrame tenLocals] 0
      (createRootFrame tenLocals) inPlaceSite]) inPlaceOps
    = some (_, 25) := rfl
  exact ⟨_, hrun, (InlineTree.stackLayout_never_aliases inPlaceTree hrun).2.1⟩

end Dsom
