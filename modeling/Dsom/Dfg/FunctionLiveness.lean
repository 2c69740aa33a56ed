import Dsom.Dfg.CapturePaths
import Dsom.Dfg.LivenessPaths

/-!
# Dfg/FunctionLiveness — the liveness of a function

`ComputeBytecodeLiveness` gets its blocks from `RunControlFlowAndUpvalueAnalysis` (`livenessCfg`).
The result is the path definition over the bytecode of the function itself, blocks forgotten.  What
a bytecode uses and defines depends on the captures in front of it; these are the captured locals of
`Dfg/CapturePaths` wherever the captures are exact.
-/

namespace Dsom

namespace BytecodeFunction

open Dataflow

variable {numLocals : ℕ} {f : BytecodeFunction numLocals}
variable {bbs res : List (BasicBlockUpvalueInfo numLocals)} {bb : BasicBlockUpvalueInfo numLocals}
variable {ord i : ℕ}

/-! ## The constructor of a block

It scans the block once, with the captures at its head to begin with. -/

/-- What the bytecodes of a block do, in order. -/
def kindsInBB (f : BytecodeFunction numLocals) (bb : BasicBlockUpvalueInfo numLocals) :
    List (BytecodeKind numLocals) :=
  (List.range' bb.bytecodeIndex (bb.terminalNode + 1 - bb.bytecodeIndex)).map fun i =>
    (f.bytecode i).kind

/-- A block has its bytecodes from the first to the last. -/
@[simp] theorem length_kindsInBB :
    (f.kindsInBB bb).length = bb.terminalNode + 1 - bb.bytecodeIndex := by
  simp [kindsInBB]

/-- `isCaptured` when the scan of a block has come to a bytecode. -/
def scanTo (f : BytecodeFunction numLocals) (bb : BasicBlockUpvalueInfo numLocals) (i : ℕ) :
    Finset (Fin numLocals) :=
  (List.range' bb.bytecodeIndex (i - bb.bytecodeIndex)).foldl
    (fun isCaptured j => (f.bytecode j).kind.scanCaptured isCaptured) bb.isLocalCapturedAtHead

/-- What the constructor records of a bytecode. -/
theorem getElem?_info (hi : bb.bytecodeIndex ≤ i) (hi' : i ≤ bb.terminalNode) :
    (BytecodeKind.usesAndDefs bb.isLocalCapturedAtHead (f.kindsInBB bb))[i - bb.bytecodeIndex]? =
      some ((f.bytecode i).kind.uses (f.scanTo bb i),
        (f.bytecode i).kind.defs (f.scanTo bb i)) := by
  have htake : (List.range' bb.bytecodeIndex (bb.terminalNode + 1 - bb.bytecodeIndex)).take
      (i - bb.bytecodeIndex) = List.range' bb.bytecodeIndex (i - bb.bytecodeIndex) := by
    obtain ⟨n, hn⟩ : ∃ n, bb.terminalNode + 1 - bb.bytecodeIndex = i - bb.bytecodeIndex + n :=
      ⟨bb.terminalNode + 1 - i, by omega⟩
    rw [hn, ← List.range'_append_1, List.take_left' List.length_range']
  have hget : (f.kindsInBB bb)[i - bb.bytecodeIndex]? = some (f.bytecode i).kind := by
    rw [kindsInBB, List.getElem?_map, List.getElem?_range' (by omega), one_mul,
      Nat.add_sub_cancel' hi]
    rfl
  rw [BytecodeKind.getElem?_usesAndDefs, hget, Option.map_some, kindsInBB, ← List.map_take, htake,
    List.foldl_map]
  rfl

/-! ## The blocks together -/

namespace IsCfg

/-- The successors are blocks. -/
theorem lt_length_of_mem_successors (h : IsCfg f bbs) (hb : bbs[ord]? = some bb) :
    ∀ succ ∈ bb.successors, succ < bbs.length := fun succ hs => by
  obtain ⟨p, hp⟩ := Option.isSome_iff_exists.mp (h.succ_isSome ord bb hb succ hs)
  obtain ⟨sb, hsb, -⟩ := getElem?_of_startAt hp
  exact (List.getElem?_eq_some_iff.mp hsb).choose

/-- **The `BytecodeLivenessBBInfo`s of a function.** -/
def livenessCfg (h : IsCfg f bbs) : LivenessCfg numLocals where
  numBBs := bbs.length
  firstBytecodeIndex bb := bbs[bb].bytecodeIndex
  info bb := BytecodeKind.usesAndDefs bbs[bb].isLocalCapturedAtHead (f.kindsInBB bbs[bb])
  successors bb := bbs[bb].successors.pmap Fin.mk
    (h.lt_length_of_mem_successors (List.getElem?_eq_getElem bb.isLt))
  info_ne_nil bb := by
    have hle := (h.isBlock bb _ (List.getElem?_eq_getElem bb.isLt)).start_le
    rw [← List.length_pos_iff, BytecodeKind.length_usesAndDefs, length_kindsInBB]
    exact Nat.sub_pos_of_lt (Nat.lt_succ_of_le hle)
  range_disjoint bb bb' hne i hi j hj heq := by
    rw [BytecodeKind.length_usesAndDefs, length_kindsInBB] at hi hj
    refine hne (Fin.ext (h.block_unique (List.getElem?_eq_getElem bb.isLt)
      (List.getElem?_eq_getElem bb'.isLt) (Nat.le_add_right _ i) ?_ ?_ ?_))
    · exact Nat.le_of_lt_succ (Nat.add_lt_of_lt_sub' hi)
    · exact (Nat.le_add_right _ j).trans_eq heq.symm
    · exact heq.trans_le (Nat.le_of_lt_succ (Nat.add_lt_of_lt_sub' hj))

end IsCfg

/-- `isCaptured` in front of a bytecode, in the scan of its block. -/
def isCapturedBefore (f : BytecodeFunction numLocals)
    (bbs : List (BasicBlockUpvalueInfo numLocals)) (i : ℕ) : Finset (Fin numLocals) :=
  match bbs.find? fun bb => bb.bytecodeIndex ≤ i ∧ i ≤ bb.terminalNode with
  | some bb => f.scanTo bb i
  | none => ∅

/-- The bits do not matter for the graph. -/
theorem BitsSeen.isCfg (hres : BitsSeen f bbs res) (h : IsCfg f bbs) : IsCfg f res := by
  have hback : ∀ (ord : ℕ) rb, res[ord]? = some rb → ∃ bb, bbs[ord]? = some bb ∧
      rb.bytecodeIndex = bb.bytecodeIndex ∧ rb.terminalNode = bb.terminalNode ∧
      rb.successors = bb.successors := by
    intro ord rb hrb
    obtain ⟨hlt, -⟩ := List.getElem?_eq_some_iff.mp hrb
    rw [hres.1] at hlt
    obtain ⟨rb', hrb', hstart, hterm, hsucc, -⟩ := hres.2 ord _ (List.getElem?_eq_getElem hlt)
    obtain rfl := Option.some_inj.mp (hrb.symm.trans hrb')
    exact ⟨bbs[ord], List.getElem?_eq_getElem hlt, hstart, hterm, hsucc⟩
  have hstartAt : startAt res = startAt bbs := by
    funext ord
    cases hrb : res[ord]? with
    | none =>
      have hle := List.getElem?_eq_none_iff.mp hrb
      rw [startAt, startAt, hrb, List.getElem?_eq_none (hres.1 ▸ hle)]
    | some rb =>
      obtain ⟨bb, hb, hstart, -⟩ := hback ord rb hrb
      rw [IsCfg.startAt_eq hrb, IsCfg.startAt_eq hb, hstart]
  constructor
  · exact hstartAt ▸ h.entry
  · intro ord rb hrb
    obtain ⟨bb, hb, hstart, hterm, -⟩ := hback ord rb hrb
    obtain ⟨hle, hlt, hfirst, hlast, hinner⟩ := h.isBlock ord bb hb
    rw [← hstart, ← hterm] at hle hinner
    rw [← hterm] at hlt hlast
    rw [← hstart] at hfirst
    exact ⟨hle, hlt, hfirst, hlast, hinner⟩
  · intro ord rb hrb
    obtain ⟨bb, hb, hstart, -⟩ := hback ord rb hrb
    exact hstart ▸ h.reachable ord bb hb
  · exact hstartAt ▸ h.start_injective
  · intro ord rb hrb
    obtain ⟨bb, hb, -, -, hsucc⟩ := hback ord rb hrb
    rw [hsucc, hstartAt]
    exact h.succ_isSome ord bb hb
  · intro ord rb hrb j
    obtain ⟨bb, hb, -, hterm, hsucc⟩ := hback ord rb hrb
    rw [hterm, hsucc, hstartAt]
    exact h.next_iff ord bb hb j

/-- The scan of a block meets the captured locals, if the bits at its head are right. -/
theorem mem_scanTo_iff (h : IsBlock f bb) (hr : f.Reachable bb.bytecodeIndex)
    (hhead : ∀ l, l ∈ bb.isLocalCapturedAtHead ↔ f.CapturedBefore l bb.bytecodeIndex)
    (hi : bb.bytecodeIndex ≤ i) (hi' : i ≤ bb.terminalNode) (l : Fin numLocals) :
    l ∈ f.scanTo bb i ↔ f.CapturedBefore l i := by
  obtain ⟨n, rfl⟩ := Nat.exists_eq_add_of_le hi
  rw [scanTo, Nat.add_sub_cancel_left]
  cases n with
  | zero => exact hhead l
  | succ n =>
    rw [mem_scan_iff h hr hhead n (by omega)]
    exact (before_succ_iff reachable_of_capture
      (h.inner_not_isLast _ (Nat.le_add_right ..) (by omega))).symm

namespace IsCfg

/-- What is captured before a bytecode, by the scan of its block. -/
theorem isCapturedBefore_eq (h : IsCfg f bbs) (hb : bbs[ord]? = some bb)
    (hi : bb.bytecodeIndex ≤ i) (hi' : i ≤ bb.terminalNode) :
    f.isCapturedBefore bbs i = f.scanTo bb i := by
  obtain ⟨bb', hfind⟩ : ∃ bb', bbs.find? (fun bb => bb.bytecodeIndex ≤ i ∧ i ≤ bb.terminalNode)
      = some bb' := by
    refine Option.isSome_iff_exists.mp (List.find?_isSome.mpr ⟨bb, List.mem_of_getElem? hb, ?_⟩)
    exact decide_eq_true ⟨hi, hi'⟩
  have hmem := List.find?_some (p := fun bb : BasicBlockUpvalueInfo numLocals =>
    bb.bytecodeIndex ≤ i ∧ i ≤ bb.terminalNode) hfind
  obtain ⟨hj, hj'⟩ := of_decide_eq_true hmem
  obtain ⟨ord', hb'⟩ := List.mem_iff_getElem?.mp (List.mem_of_find?_eq_some hfind)
  obtain rfl := h.block_unique hb hb' hi hi' hj hj'
  obtain rfl := Option.some_inj.mp (hb.symm.trans hb')
  rw [isCapturedBefore, hfind]

/-! ## The points of the graph are the reachable bytecodes

A point is a block and a place in it; its index in the function tells which bytecode it is. -/

section Points

open LivenessCfg

variable (h : IsCfg f bbs)

/-- A block of the graph. -/
theorem exists_block_of_ord (ord : Fin h.livenessCfg.numBBs) : ∃ bb, bbs[ord.val]? = some bb ∧
    h.livenessCfg.firstBytecodeIndex ord = bb.bytecodeIndex ∧
    h.livenessCfg.info ord =
      BytecodeKind.usesAndDefs bb.isLocalCapturedAtHead (f.kindsInBB bb) ∧
    ∀ succ, succ ∈ h.livenessCfg.successors ord ↔ succ.val ∈ bb.successors := by
  have hlt : ord.val < bbs.length := ord.isLt
  refine ⟨bbs[ord.val], List.getElem?_eq_getElem hlt, rfl, rfl, fun succ => ?_⟩
  refine List.mem_pmap.trans ⟨?_, fun hs => ⟨succ.val, hs, Fin.eta ..⟩⟩
  rintro ⟨a, ha, rfl⟩
  exact ha

/-- A point lies in its block. -/
theorem point_bounds {p : Point h.livenessCfg} (hb : bbs[p.bb.val]? = some bb) :
    p.index = bb.bytecodeIndex + p.idx ∧ p.index ≤ bb.terminalNode ∧
      (h.livenessCfg.info p.bb).length = bb.terminalNode + 1 - bb.bytecodeIndex := by
  obtain ⟨bb', hb', hfirst, hinfo, -⟩ := h.exists_block_of_ord p.bb
  obtain rfl := Option.some_inj.mp (hb.symm.trans hb')
  have hlen : (h.livenessCfg.info p.bb).length = bb.terminalNode + 1 - bb.bytecodeIndex := by
    rw [hinfo, BytecodeKind.length_usesAndDefs, length_kindsInBB]
  have hindex : p.index = bb.bytecodeIndex + p.idx := congrArg (· + p.idx) hfirst
  have hlt := p.idx_lt
  exact ⟨hindex, by omega, hlen⟩

/-- The bytecodes of a block are points. -/
theorem exists_point (hb : bbs[ord]? = some bb) (hi : bb.bytecodeIndex ≤ i)
    (hi' : i ≤ bb.terminalNode) :
    ∃ p : Point h.livenessCfg, p.bb.val = ord ∧ p.index = i := by
  obtain ⟨hord, rfl⟩ := List.getElem?_eq_some_iff.mp hb
  refine ⟨⟨⟨ord, hord⟩, i - bbs[ord].bytecodeIndex, ?_⟩, rfl, Nat.add_sub_cancel' hi⟩
  change _ < (BytecodeKind.usesAndDefs _ (f.kindsInBB bbs[ord])).length
  rw [BytecodeKind.length_usesAndDefs, length_kindsInBB]
  omega

/-- The points of the graph are the reachable bytecodes. -/
theorem reachable_iff : f.Reachable i ↔ ∃ p : Point h.livenessCfg, p.index = i := by
  constructor
  · intro hr
    obtain ⟨ord, bb, hb, hi, hi'⟩ := h.exists_block hr
    obtain ⟨p, -, hp⟩ := h.exists_point hb hi hi'
    exact ⟨p, hp⟩
  · rintro ⟨p, rfl⟩
    obtain ⟨bb, hb, -⟩ := h.exists_block_of_ord p.bb
    obtain ⟨hindex, hle, -⟩ := h.point_bounds hb
    exact reachable_of_start_le (h.isBlock _ _ hb) (h.reachable _ _ hb)
      (hindex ▸ Nat.le_add_right ..) hle

/-- **What a point uses and defines** is what its bytecode does. -/
theorem usesAndDefs_eq (p : Point h.livenessCfg) :
    p.uses = (f.bytecode p.index).kind.uses (f.isCapturedBefore bbs p.index) ∧
      p.defs = (f.bytecode p.index).kind.defs (f.isCapturedBefore bbs p.index) := by
  obtain ⟨bb, hb, -, hinfo, -⟩ := h.exists_block_of_ord p.bb
  obtain ⟨hindex, hle, -⟩ := h.point_bounds hb
  have hge : bb.bytecodeIndex ≤ p.index := hindex ▸ Nat.le_add_right ..
  have hget := getElem?_info (f := f) hge hle
  rw [hindex, Nat.add_sub_cancel_left, ← hinfo, ← hindex] at hget
  rw [h.isCapturedBefore_eq hb hge hle]
  have hboth : (p.uses, p.defs) = ((f.bytecode p.index).kind.uses (f.scanTo bb p.index),
      (f.bytecode p.index).kind.defs (f.scanTo bb p.index)) :=
    (List.getElem?_eq_some_iff.mp hget).choose_spec
  exact Prod.mk.inj hboth

/-- **Control flow** is that of the bytecode. -/
theorem next_index_iff (p : Point h.livenessCfg) (j : ℕ) :
    f.Next p.index j ↔ ∃ q, LivenessCfg.Next p q ∧ q.index = j := by
  obtain ⟨bb, hb, -, -, hsucc⟩ := h.exists_block_of_ord p.bb
  obtain ⟨hindex, hle, hlen⟩ := h.point_bounds hb
  rcases hle.eq_or_lt with hlast | hlt
  · -- at the end of the block the graph goes on at the successors
    have hend : p.idx + 1 = (h.livenessCfg.info p.bb).length := by omega
    rw [hlast, h.next_iff _ _ hb]
    constructor
    · rintro ⟨succ, hs, hst⟩
      obtain ⟨sb, hsb, rfl⟩ := getElem?_of_startAt hst
      obtain ⟨hlt, hsb⟩ := List.getElem?_eq_some_iff.mp hsb
      exact ⟨.head ⟨succ, hlt⟩, .leave hend ((hsucc _).mpr hs),
        congrArg BasicBlockUpvalueInfo.bytecodeIndex hsb⟩
    · rintro ⟨q, hn, rfl⟩
      cases hn with
      | inside hbb hidx =>
        have := q.idx_lt
        rw [hbb] at this
        omega
      | @leave succ _ hs =>
        exact ⟨succ.val, (hsucc succ).mp hs, startAt_eq (List.getElem?_eq_getElem succ.isLt)⟩
  · rw [next_iff_of_not_isLast ((h.isBlock _ _ hb).inner_not_isLast _
      (hindex ▸ Nat.le_add_right ..) hlt)]
    constructor
    · rintro rfl
      refine ⟨⟨p.bb, p.idx + 1, ?_⟩, .inside rfl rfl, (Nat.add_assoc ..).symm⟩
      omega
    · rintro ⟨q, hn, rfl⟩
      cases hn with
      | inside hbb hidx =>
        obtain ⟨bb, idx, hq⟩ := q
        subst hbb hidx
        exact (Nat.add_assoc ..).symm
      | leave hend _ => omega

end Points

end IsCfg

/-! ## Paths of the function

The same definition of liveness, over the bytecodes of the function and with no blocks. -/

/-- **Live before a bytecode** of the function: a path from before it reaches a use of `l`, with no
definition of `l` on the way. -/
def LiveBefore (f : BytecodeFunction numLocals) (isCaptured : ℕ → Finset (Fin numLocals))
    (l : Fin numLocals) : ℕ → Prop :=
  Reaches f.Next (fun i => l ∈ (f.bytecode i).kind.uses (isCaptured i))
    (fun i => l ∈ (f.bytecode i).kind.defs (isCaptured i))

/-- **Live after the uses of a bytecode**: the same for paths that start behind its uses. -/
def LiveAfter (f : BytecodeFunction numLocals) (isCaptured : ℕ → Finset (Fin numLocals))
    (l : Fin numLocals) : ℕ → Prop :=
  ReachesAfter f.Next (fun i => l ∈ (f.bytecode i).kind.uses (isCaptured i))
    (fun i => l ∈ (f.bytecode i).kind.defs (isCaptured i))

/-- **The points live as their bytecodes do.** -/
theorem IsCfg.live_index_iff (h : IsCfg f bbs) (l : Fin numLocals)
    (p : LivenessCfg.Point h.livenessCfg) :
    (f.LiveBefore (f.isCapturedBefore bbs) l p.index ↔ LivenessCfg.LiveBefore l p) ∧
      (f.LiveAfter (f.isCapturedBefore bbs) l p.index ↔ LivenessCfg.LiveAfter l p) := by
  have huses : ∀ p : LivenessCfg.Point h.livenessCfg,
      l ∈ (f.bytecode p.index).kind.uses (f.isCapturedBefore bbs p.index) ↔ l ∈ p.uses := by
    intro p
    rw [(h.usesAndDefs_eq p).1]
  have hdefs : ∀ p : LivenessCfg.Point h.livenessCfg,
      l ∈ (f.bytecode p.index).kind.defs (f.isCapturedBefore bbs p.index) ↔ l ∈ p.defs := by
    intro p
    rw [(h.usesAndDefs_eq p).2]
  exact ⟨reaches_iff_of_map LivenessCfg.Point.index huses hdefs h.next_index_iff p,
    reachesAfter_iff_of_map LivenessCfg.Point.index huses hdefs h.next_index_iff p⟩

/-- **The liveness of a function** is the path definition on its bytecode.  Both passes end, and the
captures that uses and defs depend on are the captured locals if the blocks hide none. -/
theorem computeBytecodeLiveness_of_function (f : BytecodeFunction numLocals) {fuel : ℕ}
    (hfuel : (f.numBytecodes + 1) * (numLocals + 1) < fuel) :
    ∃ bbs, f.runControlFlowAndUpvalueAnalysis fuel = some bbs ∧ ∃ h : IsCfg f bbs,
      ∃ r, h.livenessCfg.computeBytecodeLiveness fuel = some r ∧
        (∀ i l, (l ∈ r.beforeUse i ↔ f.Reachable i ∧ f.LiveBefore (f.isCapturedBefore bbs) l i) ∧
          (l ∈ r.afterUse i ↔ f.Reachable i ∧ f.LiveAfter (f.isCapturedBefore bbs) l i)) ∧
        (f.CapturesVisible → f.ClosesVisible → ∀ i, f.Reachable i → ∀ l,
          l ∈ f.isCapturedBefore bbs i ↔ f.CapturedBefore l i) := by
  obtain ⟨bbs₀, bbs, hrun, hcfg, hseen⟩ := f.runControlFlowAndUpvalueAnalysis_spec hfuel
  have h := hseen.isCfg hcfg
  have hlen := h.length_le
  have hexp : (f.numBytecodes + 1) * (numLocals + 1)
      = f.numBytecodes + f.numBytecodes * numLocals + numLocals + 1 := by ring
  have hmul : bbs.length * numLocals ≤ f.numBytecodes * numLocals := Nat.mul_le_mul_right _ hlen
  obtain ⟨r, hr, hsets⟩ := h.livenessCfg.computeBytecodeLiveness_spec
    (show bbs.length * numLocals < fuel by omega)
  refine ⟨bbs, hrun, h, r, hr, fun i l => ?_, fun hc hd i hi l => ?_⟩
  · rw [(hsets i l).1, (hsets i l).2, h.reachable_iff]
    refine ⟨⟨?_, ?_⟩, ?_, ?_⟩
    · rintro ⟨p, rfl, hlive⟩
      exact ⟨⟨p, rfl⟩, (h.live_index_iff l p).1.mpr hlive⟩
    · rintro ⟨⟨p, rfl⟩, hlive⟩
      exact ⟨p, rfl, (h.live_index_iff l p).1.mp hlive⟩
    · rintro ⟨p, rfl, hlive⟩
      exact ⟨⟨p, rfl⟩, (h.live_index_iff l p).2.mpr hlive⟩
    · rintro ⟨⟨p, rfl⟩, hlive⟩
      exact ⟨p, rfl, (h.live_index_iff l p).2.mp hlive⟩
  · obtain ⟨ord, bb, hb, hle, hge⟩ := h.exists_block hi
    rw [h.isCapturedBefore_eq hb hle hge]
    refine mem_scanTo_iff (h.isBlock ord bb hb) (h.reachable ord bb hb) (fun l => ?_) hle hge l
    obtain ⟨hlt, -⟩ := List.getElem?_eq_some_iff.mp hb
    rw [hseen.1] at hlt
    have hb₀ := List.getElem?_eq_getElem hlt
    obtain ⟨bb', hb', hstart, -, -, hhead, -⟩ := hseen.2 ord _ hb₀
    obtain rfl := Option.some_inj.mp (hb.symm.trans hb')
    rw [hhead, hstart, (seen_iff_captured hcfg hc hd hb₀ l).1]

theorem computeBytecodeLiveness_of_function_captureThenLoop :
    ∃ bbs, captureThenLoop.runControlFlowAndUpvalueAnalysis 20 = some bbs ∧
      ∃ h : IsCfg captureThenLoop bbs, ∃ r, h.livenessCfg.computeBytecodeLiveness 20 = some r ∧
        (∀ i l, (l ∈ r.beforeUse i ↔ captureThenLoop.Reachable i ∧
            captureThenLoop.LiveBefore (captureThenLoop.isCapturedBefore bbs) l i) ∧
          (l ∈ r.afterUse i ↔ captureThenLoop.Reachable i ∧
            captureThenLoop.LiveAfter (captureThenLoop.isCapturedBefore bbs) l i)) ∧
        (captureThenLoop.CapturesVisible → captureThenLoop.ClosesVisible →
          ∀ i, captureThenLoop.Reachable i → ∀ l,
            l ∈ captureThenLoop.isCapturedBefore bbs i ↔ captureThenLoop.CapturedBefore l i) :=
  computeBytecodeLiveness_of_function captureThenLoop (by decide)

end BytecodeFunction

end Dsom
