import Dsom.Dfg.InlineTree
import Mathlib.Data.List.GetD
import Mathlib.Order.Bounds.Basic

/-!
# Dfg/RegisterUsage — which virtual registers a frame and its inlinees use

Every `InlinedCallFrame` has an array with a flag for each virtual register.  It starts with the
frame's own registers, as long as the register file is then, and each callee that is complete is
merged into it, which may make it longer.

`Covered`: the frames that an array stands for.  A query at the register that comes next after the
array is let through by `ord > m_virtualRegisterVectorLength` and reads behind its end, so the
answers are right at all other registers and only there (`isUsed_iff`).
-/

namespace Dsom

/-- `m_virtualRegisterVectorLength` and `m_isVirtualRegisterUsed`. -/
structure UsageArray where
  virtualRegisterVectorLength : ℕ
  isVirtualRegisterUsed : List Bool
  deriving DecidableEq

namespace UsageArray

/-- The loop of `markVReg`. -/
def markVRegs (used : List Bool) (vregs : List ℕ) : List Bool :=
  vregs.foldl (fun used vreg => used.set vreg true) used

/-- `dst[i] |= src[i]` for `i < n`. -/
def orInto (n : ℕ) (dst src : List Bool) : List Bool :=
  (List.range n).foldl (fun dst i => dst.set i (dst.getD i false || src.getD i false)) dst

/-- **`UpdateVirtualRegisterUsageArray`.** -/
def updateVirtualRegisterUsageArray (self callee : UsageArray) : UsageArray :=
  if callee.virtualRegisterVectorLength > self.virtualRegisterVectorLength then
    { virtualRegisterVectorLength := callee.virtualRegisterVectorLength
      isVirtualRegisterUsed := orInto self.virtualRegisterVectorLength callee.isVirtualRegisterUsed
        self.isVirtualRegisterUsed }
  else
    { self with
      isVirtualRegisterUsed := orInto callee.virtualRegisterVectorLength self.isVirtualRegisterUsed
        callee.isVirtualRegisterUsed }

/-- **`IsVirtualRegisterUsedConsideringInlines`**; `none` is a read outside of the array. -/
def isVirtualRegisterUsedConsideringInlines (self : UsageArray) (ord : ℕ) : Option Bool :=
  if ord > self.virtualRegisterVectorLength then some false
  else self.isVirtualRegisterUsed[ord]?

end UsageArray

/-- **`InitializeVirtualRegisterUsageArray`**, with the register file as it is then. -/
def InlinedCallFrame.initializeVirtualRegisterUsageArray (f : InlinedCallFrame) : UsageArray where
  virtualRegisterVectorLength := f.vrState.firstAvailableOrdinal
  isVirtualRegisterUsed :=
    let used := UsageArray.markVRegs (List.replicate f.vrState.firstAvailableOrdinal false)
      f.localToRegisterMap
    if f.parentFrame.isSome then UsageArray.markVRegs used f.headRegisters else used

namespace UsageArray

variable {ua ub : UsageArray} {used dst src : List Bool} {vregs : List ℕ} {n v : ℕ}

@[simp] theorem length_markVRegs (used : List Bool) (vregs : List ℕ) :
    (markVRegs used vregs).length = used.length := by
  induction vregs generalizing used with
  | nil => rfl
  | cons r vregs ih => exact (ih _).trans (List.length_set ..)

theorem getElem?_markVRegs (hv : v < used.length) :
    (markVRegs used vregs)[v]? = some true ↔ used[v]? = some true ∨ v ∈ vregs := by
  induction vregs generalizing used with
  | nil => simp [markVRegs]
  | cons r vregs ih =>
    have hrec := @ih (used.set r true) (by simpa using hv)
    rw [show markVRegs used (r :: vregs) = markVRegs (used.set r true) vregs from rfl, hrec,
      List.getElem?_set]
    split_ifs with hrv hr
    · simp [hrv]
    · omega
    · simp [Ne.symm hrv]

theorem length_orInto (n : ℕ) (dst src : List Bool) : (orInto n dst src).length = dst.length := by
  induction n with
  | zero => rfl
  | succ n ih =>
    rw [orInto, List.range_succ, List.foldl_append]
    exact (List.length_set ..).trans ih

/-- The bits of both arrays, up to the length. -/
theorem getElem?_orInto (n : ℕ) (dst src : List Bool) (v : ℕ) :
    (orInto n dst src)[v]? = dst[v]?.map fun b => b || decide (v < n) && src.getD v false := by
  induction n with
  | zero => simp [orInto]
  | succ n ih =>
    have hlen := length_orInto n dst src
    rw [orInto, List.range_succ, List.foldl_append]
    change ((orInto n dst src).set n ((orInto n dst src).getD n false || src.getD n false))[v]? = _
    rcases eq_or_ne n v with rfl | hne
    · rcases Nat.lt_or_ge n dst.length with hlt | hge
      · rw [List.getElem?_set_self (by omega), List.getD_eq_getElem?_getD, ih,
          List.getElem?_eq_getElem hlt]
        simp
      · rw [List.getElem?_eq_none (by simp; omega), List.getElem?_eq_none hge]
        rfl
    · rw [List.getElem?_set_ne hne, ih]
      have hiff : v < n + 1 ↔ v < n := by omega
      simp only [hiff]

/-- A flag of the shorter array is added to the longer one. -/
theorem getElem?_orInto_length (h : src.length ≤ dst.length) :
    (orInto src.length dst src)[v]? = some true ↔ dst[v]? = some true ∨ src[v]? = some true := by
  rw [getElem?_orInto]
  rcases Nat.lt_or_ge v src.length with hsrc | hsrc
  · rw [List.getElem?_eq_getElem (hsrc.trans_le h), List.getD_eq_getElem _ _ hsrc,
      List.getElem?_eq_getElem hsrc]
    simp [hsrc]
  · rw [List.getElem?_eq_none hsrc]
    simp [Nat.not_lt.mpr hsrc]

/-- **The array stands for these registers**, and is as long as the longest register file. -/
structure Represents (ua : UsageArray) (isLength : ℕ → Prop) (isUsed : ℕ → Prop) : Prop where
  length : ua.isVirtualRegisterUsed.length = ua.virtualRegisterVectorLength
  greatest : IsGreatest {n | isLength n} ua.virtualRegisterVectorLength
  used : ∀ v, ua.isVirtualRegisterUsed[v]? = some true ↔ isUsed v

theorem Represents.congr {isLength isLength' isUsed isUsed' : ℕ → Prop}
    (hlength : ∀ n, isLength n ↔ isLength' n) (hused : ∀ v, isUsed v ↔ isUsed' v)
    (h : ua.Represents isLength isUsed) : ua.Represents isLength' isUsed' := by
  obtain rfl : isLength = isLength' := funext fun n => propext (hlength n)
  obtain rfl : isUsed = isUsed' := funext fun v => propext (hused v)
  exact h

/-- **Merging a callee.** -/
theorem Represents.update {isLength isLength' isUsed isUsed' : ℕ → Prop}
    (ha : ua.Represents isLength isUsed) (hb : ub.Represents isLength' isUsed') :
    (ua.updateVirtualRegisterUsageArray ub).Represents (fun n => isLength n ∨ isLength' n)
      (fun v => isUsed v ∨ isUsed' v) := by
  have hgreatest : IsGreatest {n | isLength n ∨ isLength' n}
      (max ua.virtualRegisterVectorLength ub.virtualRegisterVectorLength) :=
    ha.greatest.union hb.greatest
  have hla := ha.length
  have hlb := hb.length
  unfold updateVirtualRegisterUsageArray
  split_ifs with hgt
  · rw [max_eq_right hgt.le] at hgreatest
    refine ⟨(length_orInto ..).trans hlb, hgreatest, fun v => ?_⟩
    simp only [← hla]
    rw [getElem?_orInto_length (by omega), ha.used, hb.used, or_comm]
  · rw [max_eq_left (not_lt.mp hgt)] at hgreatest
    refine ⟨(length_orInto ..).trans hla, hgreatest, fun v => ?_⟩
    simp only [← hlb]
    rw [getElem?_orInto_length (by omega), ha.used, hb.used]

/-- **The answers are right at every register but the one behind the array.** -/
theorem Represents.isUsed_iff {isLength isUsed : ℕ → Prop} (h : ua.Represents isLength isUsed)
    (hlt : ∀ v, isUsed v → v < ua.virtualRegisterVectorLength) (v : ℕ) :
    (∃ b, ua.isVirtualRegisterUsedConsideringInlines v = some b ∧ (b = true ↔ isUsed v))
      ↔ ¬IsGreatest {n | isLength n} v := by
  have hlength := h.length
  have hgreatest : IsGreatest {n | isLength n} v ↔ v = ua.virtualRegisterVectorLength :=
    ⟨fun hv => hv.unique h.greatest, fun hv => hv ▸ h.greatest⟩
  rw [hgreatest, isVirtualRegisterUsedConsideringInlines]
  split_ifs with hgt
  · simp only [Option.some.injEq]
    refine ⟨fun _ => by omega, fun _ => ⟨false, rfl, ?_⟩⟩
    have := mt (hlt v) (by omega)
    simpa using this
  · rcases eq_or_ne v ua.virtualRegisterVectorLength with rfl | hne
    · rw [List.getElem?_eq_none (by omega)]
      simp
    · have hv : v < ua.isVirtualRegisterUsed.length := by omega
      refine ⟨fun _ => hne, fun _ => ⟨_, List.getElem?_eq_getElem hv, ?_⟩⟩
      rw [← h.used, List.getElem?_eq_getElem hv, Option.some.injEq]

end UsageArray

open UsageArray

/-- **A frame's own registers.** -/
theorem InlinedCallFrame.represents_initialize {f : InlinedCallFrame} (hok : f.Ok)
    (hroot : f.parentFrame = none → f.headRegisters = []) :
    f.initializeVirtualRegisterUsageArray.Represents
      (fun n => n = f.vrState.firstAvailableOrdinal) (fun v => v ∈ f.registers) := by
  have hlt (v : ℕ) (hv : v ∈ f.registers) : v < f.vrState.firstAvailableOrdinal :=
    hok.owns.lt (List.mem_append_left _ hv)
  have hused : f.initializeVirtualRegisterUsageArray.isVirtualRegisterUsed
      = markVRegs (List.replicate f.vrState.firstAvailableOrdinal false) f.registers := by
    simp only [initializeVirtualRegisterUsageArray, registers, markVRegs, List.foldl_append]
    split_ifs with hparent
    · rfl
    · rw [hroot (by simpa using hparent), List.foldl_nil]
  refine ⟨?_, ⟨rfl, fun n hn => le_of_eq hn⟩, fun v => ?_⟩
  · rw [hused, length_markVRegs, List.length_replicate]
    rfl
  · rw [hused]
    rcases Nat.lt_or_ge v f.vrState.firstAvailableOrdinal with hv | hv
    · rw [getElem?_markVRegs (by simpa using hv), List.getElem?_replicate_of_lt hv]
      simp
    · rw [List.getElem?_eq_none (by simpa using hv)]
      simp only [reduceCtorEq, false_iff]
      exact fun hmem => absurd (hlt v hmem) (by omega)

/-! ## A tree of frames

The array of a frame takes in those of the frames inlined into it, one after the other. -/

/-- The frame `d` is inlined into the frame `f`. -/
def CalledBy (frames : List InlinedCallFrame) (d f : ℕ) : Prop :=
  frames[d]?.bind InlinedCallFrame.parentFrame = some f

/-- The frame `d` is the frame `f`, or inlined into it transitively. -/
def InlinedInto (frames : List InlinedCallFrame) : ℕ → ℕ → Prop :=
  Relation.ReflTransGen (CalledBy frames)

/-- The arrays of the frames, and which frames have been merged into their parents. -/
structure UsageState where
  arrays : ℕ → Option UsageArray
  merged : ℕ → Bool

namespace UsageState

/-- Before any frame is created. -/
def start : UsageState where
  arrays := fun _ => none
  merged := fun _ => false

/-- A frame whose callees have all been merged into it: its translation has ended. -/
def Complete (s : UsageState) (frames : List InlinedCallFrame) (f : ℕ) : Prop :=
  (s.arrays f).isSome ∧ ∀ d, CalledBy frames d f → s.merged d

/-- **What happens to the arrays**: a frame gets its own, or a complete callee is merged into its
parent, once. -/
inductive Step (frames : List InlinedCallFrame) : UsageState → UsageState → Prop
  | create {s : UsageState} {f : ℕ} {frame : InlinedCallFrame} (hframe : frames[f]? = some frame)
      (hnew : s.arrays f = none) :
      Step frames s { s with
        arrays := Function.update s.arrays f (some frame.initializeVirtualRegisterUsageArray) }
  | merge {s : UsageState} {callee parent : ℕ} {ua ub : UsageArray}
      (hparent : CalledBy frames callee parent) (hcomplete : s.Complete frames callee)
      (hcallee : s.arrays callee = some ub) (hself : s.arrays parent = some ua)
      (honce : s.merged callee = false) :
      Step frames s
        { arrays := Function.update s.arrays parent (some (ua.updateVirtualRegisterUsageArray ub))
          merged := Function.update s.merged callee true }

/-- The states of all runs. -/
def Reachable (frames : List InlinedCallFrame) : UsageState → Prop :=
  Relation.ReflTransGen (Step frames) start

/-- **`IsVirtualRegisterUsedConsideringInlines`** of a frame. -/
def isVirtualRegisterUsedConsideringInlines (s : UsageState) (f vreg : ℕ) : Option Bool :=
  (s.arrays f).bind fun ua => ua.isVirtualRegisterUsedConsideringInlines vreg

/-- The frames that the array of a frame stands for. -/
def Covered (s : UsageState) (frames : List InlinedCallFrame) (f d : ℕ) : Prop :=
  d = f ∨ ∃ c, CalledBy frames c f ∧ s.merged c ∧ InlinedInto frames d c

end UsageState

section Tree

variable {frames : List InlinedCallFrame} {s : UsageState} {f d v : ℕ}

/-- One of these frames has a register file of this length. -/
def HasLength (frames : List InlinedCallFrame) (covered : ℕ → Prop) (n : ℕ) : Prop :=
  ∃ d, covered d ∧ ∃ frame ∈ frames[d]?, n = frame.vrState.firstAvailableOrdinal

/-- One of these frames uses this register. -/
def UsesRegister (frames : List InlinedCallFrame) (covered : ℕ → Prop) (v : ℕ) : Prop :=
  ∃ d, covered d ∧ ∃ frame ∈ frames[d]?, v ∈ frame.registers

/-- The length of two sets of frames. -/
theorem hasLength_or {p q : ℕ → Prop} (n : ℕ) :
    HasLength frames (fun d => p d ∨ q d) n ↔ HasLength frames p n ∨ HasLength frames q n := by
  simp only [HasLength, or_and_right, exists_or]

/-- The registers that two sets of frames use. -/
theorem usesRegister_or {p q : ℕ → Prop} (v : ℕ) :
    UsesRegister frames (fun d => p d ∨ q d) v
      ↔ UsesRegister frames p v ∨ UsesRegister frames q v := by
  simp only [UsesRegister, or_and_right, exists_or]

/-- **Of a complete frame the whole tree is covered.** -/
theorem UsageState.Complete.covered_iff (h : s.Complete frames f) :
    s.Covered frames f d ↔ InlinedInto frames d f := by
  constructor
  · rintro (rfl | ⟨c, hc, -, hd⟩)
    · exact .refl
    · exact hd.tail hc
  · intro hd
    rcases Relation.ReflTransGen.cases_tail hd with rfl | ⟨c, hd, hc⟩
    · exact .inl rfl
    · exact .inr ⟨c, hc, h.2 c hc, hd⟩

/-- **The arrays stand for the frames that have been merged.** -/
structure UsageState.Inv (s : UsageState) (frames : List InlinedCallFrame) : Prop where
  represents : ∀ f, ∀ ua ∈ s.arrays f, ua.Represents (HasLength frames (s.Covered frames f))
    (UsesRegister frames (s.Covered frames f))
  created : ∀ f, s.arrays f = none → ∀ d, CalledBy frames d f → s.merged d = false

/-- The invariant holds of the start. -/
theorem UsageState.inv_start : start.Inv frames where
  represents f ua hua := absurd hua (by simp [start])
  created _ _ _ _ := rfl

/-- Every frame of a tree is in order, and the root has no headers before it. -/
theorem InlineTree.ok_frame (h : InlineTree frames) {frame : InlinedCallFrame}
    (hframe : frames[f]? = some frame) :
    frame.Ok ∧ (frame.parentFrame = none → frame.headRegisters = []) := by
  have hat := h.frameAt f frame hframe
  refine ⟨hat.ok, fun hroot => ?_⟩
  have hbase := (hat.root hroot).2
  have hmap := hat.ok.mapping_length
  rw [hbase, List.length_eq_zero_iff] at hmap
  rw [← hat.ok.head, hmap, List.drop_nil, List.filterMap_nil]

/-- A frame gets its own array, in which nothing is merged yet. -/
theorem UsageState.Inv.create (htree : InlineTree frames) (h : s.Inv frames)
    {frame : InlinedCallFrame} (hframe : frames[f]? = some frame) (hnew : s.arrays f = none) :
    UsageState.Inv { s with
      arrays := Function.update s.arrays f (some frame.initializeVirtualRegisterUsageArray) }
      frames := by
  have hcovered (g d : ℕ) : UsageState.Covered { s with
      arrays := Function.update s.arrays f (some frame.initializeVirtualRegisterUsageArray) }
      frames g d ↔ s.Covered frames g d := Iff.rfl
  constructor
  · intro g ua hua
    rcases eq_or_ne g f with rfl | hg
    · simp only [Function.update_self, Option.mem_def, Option.some.injEq] at hua
      subst hua
      have honly (d : ℕ) : s.Covered frames g d ↔ d = g :=
        ⟨fun hd => hd.elim id fun ⟨c, hc, hm, _⟩ => by simp [h.created g hnew c hc] at hm, .inl⟩
      obtain ⟨hok, hroot⟩ := htree.ok_frame hframe
      refine (InlinedCallFrame.represents_initialize hok hroot).congr (fun n => ?_) fun v => ?_
      · simp [HasLength, hcovered, honly, hframe]
      · simp [UsesRegister, hcovered, honly, hframe]
    · simp only [Function.update_of_ne hg] at hua
      exact h.represents g ua hua
  · intro g hg d hd
    rcases eq_or_ne g f with rfl | hgf
    · simp at hg
    · simp only [Function.update_of_ne hgf] at hg
      exact h.created g hg d hd

/-- With a complete callee the parent covers all that is inlined into it. -/
theorem UsageState.covered_merge_self {callee parent : ℕ} (hparent : CalledBy frames callee parent)
    (hcomplete : s.Complete frames callee) (arrays : ℕ → Option UsageArray) :
    UsageState.Covered ⟨arrays, Function.update s.merged callee true⟩ frames parent =
      fun d => s.Covered frames parent d ∨ s.Covered frames callee d := by
  funext d
  rw [eq_iff_iff, hcomplete.covered_iff]
  constructor
  · rintro (rfl | ⟨c, hc, hm, hd⟩)
    · exact .inl (.inl rfl)
    · rcases eq_or_ne c callee with rfl | hcc
      · exact .inr hd
      · simp only [Function.update_of_ne hcc] at hm
        exact .inl (.inr ⟨c, hc, hm, hd⟩)
  · rintro ((rfl | ⟨c, hc, hm, hd⟩) | hd)
    · exact .inl rfl
    · refine .inr ⟨c, hc, ?_, hd⟩
      rcases eq_or_ne c callee with rfl | hcc
      · simp
      · simpa only [Function.update_of_ne hcc] using hm
    · exact .inr ⟨callee, hparent, by simp, hd⟩

/-- A complete callee is merged into its parent. -/
theorem UsageState.Inv.merge (h : s.Inv frames) {callee parent : ℕ} {ua ub : UsageArray}
    (hparent : CalledBy frames callee parent) (hcomplete : s.Complete frames callee)
    (hcallee : s.arrays callee = some ub) (hself : s.arrays parent = some ua) :
    UsageState.Inv
      { arrays := Function.update s.arrays parent (some (ua.updateVirtualRegisterUsageArray ub))
        merged := Function.update s.merged callee true } frames := by
  -- the parent of a frame is unique
  have hunique (g d : ℕ) (hg : g ≠ parent) (hd : CalledBy frames d g) : d ≠ callee := by
    rintro rfl
    exact hg (Option.some.inj (hd.symm.trans hparent))
  constructor
  · intro g ub' hub'
    rcases eq_or_ne g parent with rfl | hg
    · simp only [Function.update_self, Option.mem_def, Option.some.injEq] at hub'
      subst hub'
      rw [covered_merge_self hparent hcomplete]
      exact ((h.represents g ua hself).update (h.represents callee ub hcallee)).congr
        (fun n => (hasLength_or n).symm) fun v => (usesRegister_or v).symm
    · simp only [Function.update_of_ne hg] at hub'
      have hcovered : UsageState.Covered
          { arrays := Function.update s.arrays parent
              (some (ua.updateVirtualRegisterUsageArray ub))
            merged := Function.update s.merged callee true } frames g = s.Covered frames g := by
        funext d
        rw [eq_iff_iff]
        refine or_congr_right (exists_congr fun c => and_congr_right fun hc => ?_)
        simp only [Function.update_of_ne (hunique g c hg hc)]
      rw [hcovered]
      exact h.represents g ub' hub'
  · intro g hg d hd
    have hgp : g ≠ parent := by
      rintro rfl
      simp at hg
    simp only [Function.update_of_ne hgp] at hg
    simp only [Function.update_of_ne (hunique g d hgp hd)]
    exact h.created g hg d hd

/-- One step keeps the invariant. -/
theorem UsageState.Inv.step {s' : UsageState} (htree : InlineTree frames) (h : s.Inv frames)
    (hstep : Step frames s s') : s'.Inv frames := by
  cases hstep with
  | create hframe hnew => exact h.create htree hframe hnew
  | merge hparent hcomplete hcallee hself => exact h.merge hparent hcomplete hcallee hself

/-- Every reachable state has it. -/
theorem UsageState.Reachable.inv (htree : InlineTree frames) (h : Reachable frames s) :
    s.Inv frames := by
  induction h with
  | refl => exact inv_start
  | tail _ hstep ih => exact ih.step htree hstep

/-- **The query about a complete frame is exact and in bounds at every register but one**, the one
behind the longest register file of the frame and of what is inlined into it; there it reads behind
the array. -/
theorem UsageState.isVirtualRegisterUsedConsideringInlines_iff (htree : InlineTree frames)
    (hs : Reachable frames s) (hcomplete : s.Complete frames f) (v : ℕ) :
    (∃ b, s.isVirtualRegisterUsedConsideringInlines f v = some b
        ∧ (b = true ↔ ∃ d, InlinedInto frames d f ∧ ∃ frame ∈ frames[d]?, v ∈ frame.registers))
      ↔ ¬IsGreatest {n | ∃ d, InlinedInto frames d f
          ∧ ∃ frame ∈ frames[d]?, n = frame.vrState.firstAvailableOrdinal} v := by
  obtain ⟨ua, hua⟩ := Option.isSome_iff_exists.mp hcomplete.1
  have hrep := hs.inv htree |>.represents f ua hua
  have hcovered : s.Covered frames f = fun d => InlinedInto frames d f :=
    funext fun d => propext hcomplete.covered_iff
  rw [hcovered] at hrep
  rw [isVirtualRegisterUsedConsideringInlines, hua, Option.bind_some]
  refine hrep.isUsed_iff (fun v hv => ?_) v
  obtain ⟨d, hd, frame, hframe, hv⟩ := hv
  have hlt := (htree.ok_frame hframe).1.owns.lt (List.mem_append_left _ hv)
  exact hlt.trans_le (hrep.greatest.2 ⟨d, hd, frame, hframe, rfl⟩)

end Tree

/-! ## A read behind the array

Two calls from one frame, the second of which needs one register more. -/

/-- A function whose locals are always live. -/
def liveLocals (n : ℕ) : CodeBlock where
  numFixedArguments := 0
  stackFrameNumSlots := n
  hasVariadicArguments := false
  liveness := fun _ _ _ => true
  fixed_le := Nat.zero_le n

/-- A direct call without arguments. -/
def plainSite (callee : CodeBlock) : CallSite where
  bcIndex := 0
  isTailCall := false
  isInPlaceCall := false
  returnContinuationIsTrivial := true
  rangeArgs := none
  numExtraOutputs := 0
  appendsVariadicResultsToArgs := false
  staticVariadicRes := none
  maxObservedNumVariadicArgs := 0
  directCallTarget := some 0
  callee := callee

theorem plainSite_legal (callee : CodeBlock) (caller : InlinedCallFrame) :
    (plainSite callee).Legal caller :=
  ⟨fun _ hr => (nomatch hr), fun _ h => (nomatch h)⟩

/-- A root frame with two callees, of which the second needs more registers. -/
def siblingFrames : List InlinedCallFrame :=
  let root := createRootFrame (liveLocals 1)
  let first := inlineCall [root] 0 root (plainSite (liveLocals 3))
  [root, first, inlineCall [root, first] 0 root (plainSite (liveLocals 5))]

theorem inlineTree_siblingFrames : InlineTree siblingFrames :=
  .inline (.inline (.root (liveLocals 1)) (show _ = some (createRootFrame (liveLocals 1)) from rfl)
    (plainSite_legal (liveLocals 3) _)) (show _ = some (createRootFrame (liveLocals 1)) from rfl)
    (plainSite_legal (liveLocals 5) _)

theorem calledBy_siblingFrames {d f : ℕ} (h : CalledBy siblingFrames d f) :
    f = 0 ∧ (d = 1 ∨ d = 2) := by
  match d with
  | 0 => cases h
  | 1 => exact ⟨(Option.some.inj h).symm, .inl rfl⟩
  | 2 => exact ⟨(Option.some.inj h).symm, .inr rfl⟩
  | d + 3 => cases h

/-- All frames are created, and both callees are merged. -/
theorem exists_reachable_siblingFrames : ∃ s, UsageState.Reachable siblingFrames s
    ∧ s.Complete siblingFrames 0 ∧ s.Complete siblingFrames 1 ∧ s.Complete siblingFrames 2
    ∧ s.arrays 1 = some ⟨4, [false, true, true, true]⟩ := by
  have hleaf (s : UsageState) (f : ℕ) (hf : f ≠ 0) (hs : (s.arrays f).isSome) :
      s.Complete siblingFrames f := ⟨hs, fun d hd => absurd (calledBy_siblingFrames hd).1 hf⟩
  have h₁ : UsageState.Reachable siblingFrames _ :=
    .tail .refl (.create (f := 0) (show siblingFrames[0]? = _ from rfl) rfl)
  have h₂ := h₁.tail (.create (f := 1) (show siblingFrames[1]? = _ from rfl) rfl)
  have h₃ := h₂.tail (.create (f := 2) (show siblingFrames[2]? = _ from rfl) rfl)
  have h₄ := h₃.tail (.merge (show CalledBy siblingFrames 1 0 from rfl) (hleaf _ 1 (by decide) rfl)
    rfl rfl rfl)
  have h₅ := h₄.tail (.merge (show CalledBy siblingFrames 2 0 from rfl) (hleaf _ 2 (by decide) rfl)
    rfl rfl rfl)
  refine ⟨_, h₅, ⟨rfl, fun d hd => ?_⟩, hleaf _ 1 (by decide) rfl, hleaf _ 2 (by decide) rfl, ?_⟩
  · rcases (calledBy_siblingFrames hd).2 with rfl | rfl <;> rfl
  · decide

/-- **The register behind the array of the first callee** belongs to the second one; the query is
let through, and reads outside of the array. -/
theorem UsageState.isVirtualRegisterUsedConsideringInlines_out_of_bounds :
    ∃ s, Reachable siblingFrames s ∧ s.Complete siblingFrames 0 ∧ s.Complete siblingFrames 1
      ∧ (∃ frame ∈ siblingFrames[2]?, 4 ∈ frame.registers)
      ∧ s.isVirtualRegisterUsedConsideringInlines 1 4 = none := by
  obtain ⟨s, hs, hroot, hfirst, -, harray⟩ := exists_reachable_siblingFrames
  refine ⟨s, hs, hroot, hfirst, ⟨_, rfl, by decide⟩, ?_⟩
  rw [isVirtualRegisterUsedConsideringInlines, harray]
  rfl

/-- At the register behind that one the answer is right. -/
theorem UsageState.isVirtualRegisterUsedConsideringInlines_siblingFrames :
    ∃ s, Reachable siblingFrames s ∧ s.Complete siblingFrames 1
      ∧ ((∃ b, s.isVirtualRegisterUsedConsideringInlines 1 5 = some b
          ∧ (b = true ↔ ∃ d, InlinedInto siblingFrames d 1
            ∧ ∃ frame ∈ siblingFrames[d]?, 5 ∈ frame.registers))
        ↔ ¬IsGreatest {n | ∃ d, InlinedInto siblingFrames d 1
            ∧ ∃ frame ∈ siblingFrames[d]?, n = frame.vrState.firstAvailableOrdinal} 5) := by
  obtain ⟨s, hs, -, hfirst, -⟩ := exists_reachable_siblingFrames
  exact ⟨s, hs, hfirst, isVirtualRegisterUsedConsideringInlines_iff inlineTree_siblingFrames hs
    hfirst 5⟩

end Dsom
