import Dsom.Jit.BlockOrder
import Dsom.Jit.Terminators

/-!
# Jit/CodeLayoutCorrect — the machine code runs through the control flow graph

The offsets of the first pass (`Offsets`) are those at which the second pass emits the code
(`foldlM_codegenBasicBlock`), so a terminator leads to the code of a successor, over the padding
when it is the block that follows (`layout_correct`).
-/

namespace Dsom

namespace CodeLayout

open X64 CodePtr TerminatorInfo

/-! ## The first pass

What it computes for every block: where it starts, where its terminator is, and where it ends. -/

/-- The length of the code that a block's log emits. -/
def logLength (input : Input) (bb : ℕ) : ℕ := ((input.codegenLog bb).map CodegenOp.len).sum

/-- Where a block ends, with its terminator and its padding. -/
def BlockInfo.endOffset (cbb : BlockInfo) : ℕ :=
  cbb.expectedFastPathOffsetAfterLogReplay + cbb.terminatorInfo.getJITCodeLength +
    cbb.addNopBytesAtEnd

/-- The blocks lie one behind the other. -/
def Offsets (input : Input) : ℕ → List BlockInfo → ℕ → Prop
  | start, [], total => start = total
  | start, cbb :: rest, total =>
    cbb.fastPathStartOffset = start ∧
    cbb.expectedFastPathOffsetAfterLogReplay = start + logLength input cbb.bb ∧
    Offsets input cbb.endOffset rest total

/-- What the first pass makes of a block. -/
structure Processed (g : Graph) (input : Input) (cbb cbb' : BlockInfo) : Prop where
  bb : cbb'.bb = cbb.bb
  terminator : cbb'.terminatorInfo = if (g.successors cbb.bb).length = 2 then
      cbb.terminatorInfo.setConditionValue (input.conditionValue cbb.bb)
    else cbb.terminatorInfo
  nops : cbb'.addNopBytesAtEnd ≤ 15
  padded : cbb.shouldPadFastPathTo16ByteAlignmentAtEnd = true → cbb'.endOffset % 16 = 0

section FirstPass

variable {g : Graph} {input : Input} {start total : ℕ} {l : List BlockInfo} {cbb cbb' : BlockInfo}

/-- The total is behind the start. -/
theorem Offsets.le (h : Offsets input start l total) : start ≤ total := by
  induction l generalizing start with
  | nil => exact Nat.le_of_eq h
  | cons cbb rest ih =>
    have hend := ih h.2.2
    have hreplayed := h.2.1
    rw [BlockInfo.endOffset] at hend
    omega

/-- Every block lies before the total. -/
theorem Offsets.mem (h : Offsets input start l total) (hcbb : cbb ∈ l) :
    cbb.fastPathStartOffset ≤ total ∧ cbb.endOffset ≤ total := by
  induction l generalizing start with
  | nil => exact absurd hcbb List.not_mem_nil
  | cons first rest ih =>
    rcases List.mem_cons.mp hcbb with rfl | hcbb
    · exact ⟨h.1 ▸ h.le, h.2.2.le⟩
    · exact ih h.2.2 hcbb

/-- The terminator is behind the code of the log. -/
theorem Offsets.replayed (h : Offsets input start l total) (hcbb : cbb ∈ l) :
    cbb.expectedFastPathOffsetAfterLogReplay
      = cbb.fastPathStartOffset + logLength input cbb.bb := by
  induction l generalizing start with
  | nil => exact absurd hcbb List.not_mem_nil
  | cons first rest ih =>
    rcases List.mem_cons.mp hcbb with rfl | hcbb
    · rw [h.2.1, h.1]
    · exact ih h.2.2 hcbb

/-- A block begins where the one before it ends. -/
theorem Offsets.next (h : Offsets input start l total) {i : ℕ} (hcbb : l[i]? = some cbb)
    (hnext : l[i + 1]? = some cbb') : cbb'.fastPathStartOffset = cbb.endOffset := by
  induction l generalizing start i with
  | nil => exact absurd hcbb.symm (Option.some_ne_none _)
  | cons first rest ih =>
    cases i with
    | zero =>
      obtain rfl := Option.some.inj hcbb
      cases rest with
      | nil => exact absurd hnext.symm (Option.some_ne_none _)
      | cons second rest =>
        obtain rfl := Option.some.inj hnext
        exact h.2.2.1
    | succ i => exact ih h.2.2 hcbb hnext

theorem le_roundUp16 (n : ℕ) : n ≤ roundUp16 n := by
  rw [roundUp16]
  omega

/-- **The loop of the first pass.** -/
theorem processBlocks_spec (g : Graph) (input : Input) (start : ℕ) (l : List BlockInfo) :
    Offsets input start (processBlocks g input start l).2 (processBlocks g input start l).1 ∧
      List.Forall₂ (Processed g input) l (processBlocks g input start l).2 := by
  induction l generalizing start with
  | nil => exact ⟨rfl, .nil⟩
  | cons cbb rest ih =>
    obtain ⟨hoffsets, hall⟩ := ih (processBasicBlock g input start cbb).1
    refine ⟨⟨rfl, rfl, hoffsets⟩, .cons ⟨rfl, rfl, ?_, fun hpad => ?_⟩ hall⟩
    · simp only [roundUp16]
      split_ifs <;> omega
    · simp only [BlockInfo.endOffset, hpad, if_true]
      rw [Nat.add_sub_cancel' (le_roundUp16 _)]
      exact Nat.mul_mod_left _ _

end FirstPass

/-! ## The second pass

The code of the blocks lies one behind the other, each as long as was computed. -/

section SecondPass

variable {g : Graph} {input : Input} {start total : ℕ} {l bbOrder : List BlockInfo}
  {cbb : BlockInfo} {c : CodePtr}

/-- The operations of a log write nothing before the code. -/
theorem foldl_runCodegenOp (ops : List CodegenOp) (c : CodePtr) :
    (ops.foldl runCodegenOp c).addr = c.addr + (ops.map CodegenOp.len).sum ∧
      ∀ a < c.addr, (ops.foldl runCodegenOp c).mem a = c.mem a := by
  induction ops generalizing c with
  | nil => exact ⟨rfl, fun _ _ => rfl⟩
  | cons op ops ih =>
    obtain ⟨haddr, hframe⟩ := ih (runCodegenOp c op)
    refine ⟨?_, fun a ha => ?_⟩
    · rw [List.foldl_cons, haddr, List.map_cons, List.sum_cons, ← Nat.add_assoc]
      rfl
    · rw [List.foldl_cons, hframe a (Nat.lt_of_lt_of_le ha (Nat.le_add_right _ _))]
      exact op.frame _ _ _ (.inl ha)

/-- The end of a block stands in memory. -/
def EndsIn (input : Input) (bbOrder : List BlockInfo) (cbb : BlockInfo) (mem : Memory) : Prop :=
  ∃ bytes, bytes.length = cbb.terminatorInfo.getJITCodeLength ∧
    mem.Holds (input.fastPathBaseAddr + cbb.expectedFastPathOffsetAfterLogReplay)
      (bytes ++ getX64MultiByteNOPInst cbb.addNopBytesAtEnd) ∧
    ∀ s : Cpu, s.pc = input.fastPathBaseAddr + cbb.expectedFastPathOffsetAfterLogReplay →
      s.mem.Holds s.pc bytes →
      cbb.terminatorInfo.Control input.fastPathBaseAddr bbOrder (s.pc + bytes.length) s

/-- It stays there when nothing is written before the end of the block. -/
theorem EndsIn.congr {mem mem' : Memory} (hnops : cbb.addNopBytesAtEnd ≤ 15)
    (h : EndsIn input bbOrder cbb mem)
    (heq : ∀ a < input.fastPathBaseAddr + cbb.endOffset, mem' a = mem a) :
    EndsIn input bbOrder cbb mem' := by
  obtain ⟨bytes, hlen, hholds, hcontrol⟩ := h
  refine ⟨bytes, hlen, hholds.congr fun a _ ha => heq a ?_, hcontrol⟩
  rw [List.length_append, hlen, length_getX64MultiByteNOPInst hnops] at ha
  rw [BlockInfo.endOffset]
  omega

/-- The code of one block, emitted at its place. -/
structure EmittedBlock (input : Input) (bbOrder : List BlockInfo) (cbb : BlockInfo)
    (c c' : CodePtr) : Prop where
  addr : c'.addr = input.fastPathBaseAddr + cbb.endOffset
  frame : ∀ a < c.addr, c'.mem a = c.mem a
  ends : EndsIn input bbOrder cbb c'.mem
  terminator : ∃ c₁, cbb.terminatorInfo.emitJITCode input.fastPathBaseAddr bbOrder
      ((input.codegenLog cbb.bb).foldl runCodegenOp c) = some c₁ ∧
    c₁.addr = ((input.codegenLog cbb.bb).foldl runCodegenOp c).addr +
      cbb.terminatorInfo.getJITCodeLength

/-- **One block.** -/
theorem codegenBasicBlock_spec (hin : InSection bbOrder total) (htotal : total < 2 ^ 31)
    (hready : cbb.terminatorInfo.Ready bbOrder) (hnops : cbb.addNopBytesAtEnd ≤ 15)
    (hend : cbb.endOffset ≤ total)
    (hreplayed : cbb.expectedFastPathOffsetAfterLogReplay
      = cbb.fastPathStartOffset + logLength input cbb.bb)
    (haddr : c.addr = input.fastPathBaseAddr + cbb.fastPathStartOffset) :
    ∃ c', codegenBasicBlock input bbOrder c cbb = some c' ∧
      EmittedBlock input bbOrder cbb c c' := by
  obtain ⟨hlog, hlogFrame⟩ := foldl_runCodegenOp (input.codegenLog cbb.bb) c
  set c₀ := (input.codegenLog cbb.bb).foldl runCodegenOp c with hc₀
  have haddr₀ : c₀.addr
      = input.fastPathBaseAddr + cbb.expectedFastPathOffsetAfterLogReplay := by
    rw [hlog, haddr, hreplayed, logLength, Nat.add_assoc]
  rw [BlockInfo.endOffset] at hend
  obtain ⟨bytes, c₁, hemit, hemitted, hlen, hcontrol⟩ := emitJITCode_spec hin htotal hready
    (show input.fastPathBaseAddr ≤ c₀.addr by omega) (by omega)
  have haddr₁ : c₁.addr = c₀.addr + cbb.terminatorInfo.getJITCodeLength := hlen ▸ hemitted.addr
  have hnopLen := length_getX64MultiByteNOPInst hnops
  -- the padding is written, unless there is none
  have hstore : (if 0 < cbb.addNopBytesAtEnd then
      c₁.store (getX64MultiByteNOPInst cbb.addNopBytesAtEnd) else c₁)
      = c₁.store (getX64MultiByteNOPInst cbb.addNopBytesAtEnd) := by
    split_ifs with hpos
    · rfl
    · rw [Nat.eq_zero_of_not_pos hpos]
      have hmem : c₁.mem.write c₁.addr [] = c₁.mem := by
        funext a
        rw [Memory.write]
        split_ifs <;> rfl
      exact congrArg (CodePtr.mk · c₁.addr) hmem.symm
  have hall := hemitted.trans (emitted_store c₁ (getX64MultiByteNOPInst cbb.addNopBytesAtEnd))
  refine ⟨c₁.store (getX64MultiByteNOPInst cbb.addNopBytesAtEnd), ?_, ?_, fun a ha => ?_,
    ⟨bytes, hlen, haddr₀ ▸ hall.holds, fun s hpc hholds => ?_⟩, c₁, hemit, haddr₁⟩
  · rw [codegenBasicBlock, ← hc₀, hemit, Option.map_some, hstore]
  · rw [BlockInfo.endOffset, hall.addr, List.length_append, hlen, hnopLen, haddr₀]
    omega
  · rw [hall.frame a (by omega), hlogFrame a ha]
  · have := hcontrol s (hpc.trans haddr₀.symm) ((hpc.trans haddr₀.symm) ▸ hholds)
    rwa [hemitted.addr, haddr₀, ← hpc] at this

/-- **The loop of the second pass.** -/
theorem foldlM_codegenBasicBlock (hin : InSection bbOrder total) (htotal : total < 2 ^ 31)
    (hready : ∀ cbb ∈ l, cbb.terminatorInfo.Ready bbOrder)
    (hnops : ∀ cbb ∈ l, cbb.addNopBytesAtEnd ≤ 15) (h : Offsets input start l total)
    (haddr : c.addr = input.fastPathBaseAddr + start) :
    ∃ c', l.foldlM (codegenBasicBlock input bbOrder) c = some c' ∧
      c'.addr = input.fastPathBaseAddr + total ∧ (∀ a < c.addr, c'.mem a = c.mem a) ∧
      (∀ cbb ∈ l, EndsIn input bbOrder cbb c'.mem) ∧
      ∀ i cbb, l[i]? = some cbb → ∃ c₀ c₁, (l.take i).foldlM (codegenBasicBlock input bbOrder) c
        = some c₀ ∧ c₀.addr = input.fastPathBaseAddr + cbb.fastPathStartOffset ∧
        EmittedBlock input bbOrder cbb c₀ c₁ := by
  induction l generalizing start c with
  | nil =>
    refine ⟨c, rfl, haddr.trans (congrArg _ h), fun _ _ => rfl, nofun, fun i cbb hi => ?_⟩
    exact absurd hi.symm (Option.some_ne_none _)
  | cons cbb rest ih =>
    have hmem : cbb ∈ cbb :: rest := List.mem_cons_self
    obtain ⟨c₁, hblock, hemitted⟩ := codegenBasicBlock_spec hin htotal (hready cbb hmem)
      (hnops cbb hmem) (h.mem hmem).2 (h.1 ▸ h.2.1) (h.1 ▸ haddr)
    obtain ⟨c', hfold, haddr', hframe, hends, hplaces⟩ := ih
      (fun b hb => hready b (List.mem_cons_of_mem _ hb))
      (fun b hb => hnops b (List.mem_cons_of_mem _ hb)) h.2.2 hemitted.addr
    have hbefore : c.addr ≤ c₁.addr := by
      rw [hemitted.addr, haddr, BlockInfo.endOffset, h.2.1]
      omega
    refine ⟨c', ?_, haddr', fun a ha => ?_, fun b hb => ?_, fun i b hb => ?_⟩
    · rw [List.foldlM_cons, hblock]
      exact hfold
    · rw [hframe a (by omega), hemitted.frame a ha]
    · rcases List.mem_cons.mp hb with rfl | hb
      · exact hemitted.ends.congr (hnops b hmem) fun a ha => hframe a (hemitted.addr ▸ ha)
      · exact hends b hb
    · cases i with
      | zero =>
        obtain rfl := Option.some.inj hb
        exact ⟨c, c₁, rfl, h.1 ▸ haddr, hemitted⟩
      | succ i =>
        obtain ⟨c₀, c₂, htake, haddr₀, hemitted₀⟩ := hplaces i b hb
        refine ⟨c₀, c₂, ?_, haddr₀, hemitted₀⟩
        rw [List.take_succ_cons, List.foldlM_cons, hblock]
        exact htake

end SecondPass

/-! ## The result -/

section Correct

variable {g : Graph} {input : Input}

/-- A processor that holds the code of the fast path. -/
def HoldsCode (input : Input) (lay : Layout) (mem : Memory) (s : Cpu) : Prop :=
  ∀ a, input.fastPathBaseAddr ≤ a → a < input.fastPathBaseAddr + lay.totalJitFastPathSectionLen →
    s.mem a = mem a

/-- Control comes to the start of the code of a block. -/
def LeadsTo (input : Input) (lay : Layout) (s : Cpu) (b : ℕ) : Prop :=
  ∃ info ∈ lay.bbOrder, info.bb = b ∧ s.Goes (input.fastPathBaseAddr + info.fastPathStartOffset)

/-- The end of a block does what the graph says; a block without successors traps. -/
def Implements (g : Graph) (input : Input) (lay : Layout) (bb : ℕ) (s : Cpu) : Prop :=
  (g.successors bb = [] → s.step = none) ∧
  (∀ succ, g.successors bb = [succ] → LeadsTo input lay s succ) ∧
  ∀ succ₀ succ₁, g.successors bb = [succ₀, succ₁] →
    LeadsTo input lay s (if (input.conditionValue bb).read s ≠ 0 then succ₁ else succ₀)

/-- The kinds of terminators, and where they lead. -/
theorem terminatorOf_uncondBr (i dest : ℕ) (t : TerminatorInfo) :
    (terminatorOf i [dest] t).kind = .uncondBr ∧
      (terminatorOf i [dest] t).defaultTargetOrd = dest ∧
      (terminatorOf i [dest] t).isDefaultTargetFallthrough = decide (i + 1 = dest) :=
  ⟨rfl, rfl, rfl⟩

/-- The terminator of a branch to two blocks. -/
theorem terminatorOf_condBr (i : ℕ) {dest₀ dest₁ : ℕ} (hne : dest₀ ≠ dest₁) (t : TerminatorInfo) :
    let t := terminatorOf i [dest₀, dest₁] t
    t.kind = .condBr ∧ t.isDefaultTargetFallthrough = decide (i + 1 = t.defaultTargetOrd) ∧
      t.branchTargetOrd = (if t.isTestForNonZero then dest₁ else dest₀) ∧
      t.defaultTargetOrd = if t.isTestForNonZero then dest₀ else dest₁ := by
  simp only [terminatorOf, initCondBranch, if_neg hne]
  by_cases hnext : dest₁ = i + 1
  · rw [if_pos hnext]
    exact ⟨rfl, (decide_eq_true hnext.symm).symm, rfl, rfl⟩
  · rw [if_neg hnext]
    exact ⟨rfl, decide_eq_decide.mpr eq_comm, rfl, rfl⟩

/-- **A terminator is ready** when the places of the successors are known. -/
theorem ready_terminatorOf {bbOrder : List BlockInfo} {i : ℕ} {succs ords : List ℕ}
    {t t' : TerminatorInfo} (hlen : succs.length ≤ 2)
    (hords : List.Forall₂ (fun s ord => (bbOrder.map (·.bb))[ord]? = some s) succs ords)
    (ht' : t' = if succs.length = 2 then (terminatorOf i ords t).setConditionValue v
      else terminatorOf i ords t) : t'.Ready bbOrder := by
  have hplace : ∀ {s ord}, (bbOrder.map (·.bb))[ord]? = some s → ord < bbOrder.length := by
    intro s ord h
    simpa using (List.getElem?_eq_some_iff.mp h).1
  cases hords with
  | nil =>
    rw [ht', if_neg (by decide)]
    exact ⟨by rintro ⟨⟩, by rintro ⟨⟩, fun h => absurd rfl h, by rintro ⟨⟩⟩
  | @cons _ dest₀ _ _ hdest₀ hords =>
    cases hords with
    | nil =>
      rw [ht', if_neg (by simp)]
      exact ⟨by rintro ⟨⟩, by rintro ⟨⟩, fun _ => hplace hdest₀, by rintro ⟨⟩⟩
    | @cons _ dest₁ _ _ hdest₁ hords =>
      cases hords with
      | cons => simp at hlen
      | nil =>
        rw [ht', if_pos (by rfl)]
        by_cases hne : dest₀ = dest₁
        · simp only [terminatorOf, initCondBranch, if_pos hne]
          exact ⟨by rintro ⟨⟩, by rintro ⟨⟩, fun _ => hplace hdest₀, by rintro ⟨⟩⟩
        · obtain ⟨hkind, -, hbranch, hdefault⟩ := terminatorOf_condBr i hne t
          refine ⟨fun h => absurd (hkind.symm.trans h) (by rintro ⟨⟩), fun _ => ⟨_, rfl⟩,
            fun _ => ?_, fun _ => ?_⟩
          · change (terminatorOf i _ t).defaultTargetOrd < _
            rw [hdefault]
            split_ifs
            exacts [hplace hdest₀, hplace hdest₁]
          · change (terminatorOf i _ t).branchTargetOrd < _
            rw [hbranch]
            split_ifs
            exacts [hplace hdest₁, hplace hdest₀]

/-- What holds of the blocks after the first pass. -/
structure LaidOut (g : Graph) (input : Input) (lay : Layout) : Prop where
  order : ∃ planned, Ordered g planned ∧ List.Forall₂ (Processed g input) planned lay.bbOrder
  offsets : Offsets input input.functionEntry.len lay.bbOrder lay.totalJitFastPathSectionLen

variable {lay : Layout}

/-- The first pass keeps the order of the blocks. -/
theorem map_bb {planned bbOrder : List BlockInfo}
    (hall : List.Forall₂ (Processed g input) planned bbOrder) :
    bbOrder.map (·.bb) = planned.map (·.bb) := by
  induction hall with
  | nil => rfl
  | cons h _ ih => rw [List.map_cons, List.map_cons, h.bb, ih]

/-- A block, and the one it was made of. -/
theorem exists_processed {planned : List BlockInfo}
    (hall : List.Forall₂ (Processed g input) planned lay.bbOrder) {i : ℕ} {cbb : BlockInfo}
    (hi : lay.bbOrder[i]? = some cbb) :
    ∃ info, planned[i]? = some info ∧ Processed g input info cbb := by
  obtain ⟨hlt, rfl⟩ := List.getElem?_eq_some_iff.mp hi
  have hlt' : i < planned.length := hall.length_eq ▸ hlt
  exact ⟨planned[i], List.getElem?_eq_getElem hlt', (List.forall₂_iff_get.mp hall).2 i hlt' hlt⟩

/-- How a block ends after the first pass. -/
theorem LaidOut.terminator (h : LaidOut g input lay) {i : ℕ} {cbb : BlockInfo}
    (hi : lay.bbOrder[i]? = some cbb) : ∃ ords t,
      List.Forall₂ (fun s ord => (lay.bbOrder.map (·.bb))[ord]? = some s)
        (g.successors cbb.bb) ords ∧
      cbb.terminatorInfo = if (g.successors cbb.bb).length = 2 then
          (terminatorOf i ords t).setConditionValue (input.conditionValue cbb.bb)
        else terminatorOf i ords t := by
  obtain ⟨planned, hordered, hall⟩ := h.order
  obtain ⟨info, hinfo, hprocessed⟩ := exists_processed hall hi
  obtain ⟨ords, t, hords, hterm⟩ := hordered.terminator i info hinfo
  refine ⟨ords, t, ?_, ?_⟩
  · rwa [map_bb hall, hprocessed.bb]
  · rw [hprocessed.terminator, hprocessed.bb, hterm]

/-- A block is padded with one instruction at most. -/
theorem LaidOut.nops (h : LaidOut g input lay) {cbb : BlockInfo} (hcbb : cbb ∈ lay.bbOrder) :
    cbb.addNopBytesAtEnd ≤ 15 := by
  obtain ⟨planned, -, hall⟩ := h.order
  obtain ⟨i, hi⟩ := List.mem_iff_getElem?.mp hcbb
  obtain ⟨info, -, hprocessed⟩ := exists_processed hall hi
  exact hprocessed.nops

/-- **A block that a back edge leads to** is aligned. -/
theorem LaidOut.aligned (h : LaidOut g input lay) {i j : ℕ} {cbb : BlockInfo}
    (hback : BackEdge g (lay.bbOrder.map (·.bb)) i j) (hj : lay.bbOrder[j]? = some cbb) :
    cbb.fastPathStartOffset % 16 = 0 := by
  obtain ⟨planned, hordered, hall⟩ := h.order
  rw [map_bb hall] at hback
  cases j with
  | zero => exact absurd hback (hordered.noBackEdge i)
  | succ j =>
    have hlt := (List.getElem?_eq_some_iff.mp hj).1
    obtain ⟨before, hbefore⟩ : ∃ before, lay.bbOrder[j]? = some before :=
      ⟨_, List.getElem?_eq_getElem (by omega)⟩
    obtain ⟨info, hinfo, hprocessed⟩ := exists_processed hall hbefore
    rw [h.offsets.next hbefore hj]
    exact hprocessed.padded (hordered.padded i j info hback hinfo)

/-- Control at a start address is control at the block there. -/
theorem leadsTo_of_startAddr {s : Cpu} {ord b : ℕ}
    (hplace : (lay.bbOrder.map (·.bb))[ord]? = some b)
    (hgoes : s.Goes (startAddr input.fastPathBaseAddr lay.bbOrder ord)) :
    LeadsTo input lay s b := by
  rw [List.getElem?_map] at hplace
  obtain ⟨info, hinfo, rfl⟩ := Option.map_eq_some_iff.mp hplace
  rw [startAddr, hinfo] at hgoes
  exact ⟨info, List.mem_of_getElem? hinfo, rfl, hgoes⟩

/-- **The default target** is reached, over the padding if it is the block that follows. -/
theorem LaidOut.leadsTo_default (h : LaidOut g input lay) {i len b : ℕ} {cbb : BlockInfo}
    (hi : lay.bbOrder[i]? = some cbb) {s : Cpu}
    (hnops : s.mem.Holds (s.pc + len) (getX64MultiByteNOPInst cbb.addNopBytesAtEnd))
    (hend : s.pc + len + cbb.addNopBytesAtEnd = input.fastPathBaseAddr + cbb.endOffset)
    (hfall : cbb.terminatorInfo.isDefaultTargetFallthrough =
      decide (i + 1 = cbb.terminatorInfo.defaultTargetOrd))
    (hplace : (lay.bbOrder.map (·.bb))[cbb.terminatorInfo.defaultTargetOrd]? = some b)
    (hgoes : s.Goes (cbb.terminatorInfo.defaultAddr input.fastPathBaseAddr lay.bbOrder
      (s.pc + len))) : LeadsTo input lay s b := by
  rw [defaultAddr] at hgoes
  split_ifs at hgoes with hnext
  · rw [List.getElem?_map] at hplace
    obtain ⟨info, hinfo, rfl⟩ := Option.map_eq_some_iff.mp hplace
    rw [hfall, decide_eq_true_eq] at hnext
    refine ⟨info, List.mem_of_getElem? hinfo, rfl, hgoes.trans fun zf => ?_⟩
    have hpad := Cpu.goes_nop (s := { s with pc := s.pc + len, zf := zf })
      (h.nops (List.mem_of_getElem? hi)) hnops
    rwa [hend, ← h.offsets.next hi (hnext ▸ hinfo)] at hpad
  · exact leadsTo_of_startAddr hplace hgoes

/-- The place of the only successor. -/
theorem exists_ords_one {α : Type} {R : ℕ → α → Prop} {succ : ℕ} {ords : List α}
    (h : List.Forall₂ R [succ] ords) : ∃ dest, R succ dest ∧ ords = [dest] := by
  cases h with
  | cons hdest hnil =>
    cases hnil
    exact ⟨_, hdest, rfl⟩

/-- The places of two successors. -/
theorem exists_ords_two {α : Type} {R : ℕ → α → Prop} {succ₀ succ₁ : ℕ} {ords : List α}
    (h : List.Forall₂ R [succ₀, succ₁] ords) :
    ∃ dest₀ dest₁, R succ₀ dest₀ ∧ R succ₁ dest₁ ∧ ords = [dest₀, dest₁] := by
  cases h with
  | cons hdest₀ hcons =>
    obtain ⟨dest₁, hdest₁, rfl⟩ := exists_ords_one hcons
    exact ⟨_, _, hdest₀, hdest₁, rfl⟩

/-- **A conditional branch**: the second successor if the decision is not zero, whichever of the two
the branch is taken to. -/
theorem leadsTo_condBr {t : TerminatorInfo} {s : Cpu} {v : TestValue}
    {dest₀ dest₁ succ₀ succ₁ addr : ℕ} (hdest₀ : (lay.bbOrder.map (·.bb))[dest₀]? = some succ₀)
    (hdest₁ : (lay.bbOrder.map (·.bb))[dest₁]? = some succ₁)
    (hbranchOrd : t.branchTargetOrd = if t.isTestForNonZero then dest₁ else dest₀)
    (hord : t.defaultTargetOrd = if t.isTestForNonZero then dest₀ else dest₁)
    (hdefault : ∀ {b}, (lay.bbOrder.map (·.bb))[t.defaultTargetOrd]? = some b →
      s.Goes (t.defaultAddr input.fastPathBaseAddr lay.bbOrder addr) → LeadsTo input lay s b)
    (hgoes : s.Goes (if decide (v.read s ≠ 0) = t.isTestForNonZero then
        startAddr input.fastPathBaseAddr lay.bbOrder t.branchTargetOrd
      else t.defaultAddr input.fastPathBaseAddr lay.bbOrder addr)) :
    LeadsTo input lay s (if v.read s ≠ 0 then succ₁ else succ₀) := by
  set nonZero := v.read s ≠ 0
  have hplace : (lay.bbOrder.map (·.bb))[if nonZero then dest₁ else dest₀]?
      = some (if nonZero then succ₁ else succ₀) := by
    split_ifs
    exacts [hdest₁, hdest₀]
  by_cases htaken : decide nonZero = t.isTestForNonZero
  · rw [if_pos htaken] at hgoes
    refine leadsTo_of_startAddr ?_ hgoes
    rw [hbranchOrd, ← htaken]
    simpa only [decide_eq_true_eq] using hplace
  · rw [if_neg htaken] at hgoes
    refine hdefault ?_ hgoes
    have hswap : (if !decide nonZero then dest₀ else dest₁)
        = if nonZero then dest₁ else dest₀ := by
      by_cases hv : nonZero <;> simp [hv]
    rw [hord, ← Bool.not_eq.mpr htaken, hswap]
    exact hplace

/-- **Control flow**, by the number of successors. -/
theorem LaidOut.implements (h : LaidOut g input lay) {i : ℕ} {cbb : BlockInfo}
    (hi : lay.bbOrder[i]? = some cbb) {mem : Memory} (hends : EndsIn input lay.bbOrder cbb mem)
    {s : Cpu} (hcode : HoldsCode input lay mem s)
    (hpc : s.pc = input.fastPathBaseAddr + cbb.expectedFastPathOffsetAfterLogReplay) :
    Implements g input lay cbb.bb s := by
  have hcbb := List.mem_of_getElem? hi
  obtain ⟨bytes, hlen, hholds, hcontrol⟩ := hends
  have hend := (h.offsets.mem hcbb).2
  rw [BlockInfo.endOffset] at hend
  have hnopLen := length_getX64MultiByteNOPInst (h.nops hcbb)
  have hholds' : s.mem.Holds s.pc (bytes ++ getX64MultiByteNOPInst cbb.addNopBytesAtEnd) := by
    rw [hpc]
    refine hholds.congr fun a hlo hhi => hcode a (by omega) ?_
    rw [List.length_append, hlen, hnopLen] at hhi
    omega
  obtain ⟨hbytes, hnops⟩ := Memory.holds_append.mp hholds'
  have hrun := hcontrol s hpc hbytes
  have hdone : s.pc + bytes.length + cbb.addNopBytesAtEnd =
      input.fastPathBaseAddr + cbb.endOffset := by
    rw [BlockInfo.endOffset, hpc, hlen]
    omega
  obtain ⟨ords, t, hords, hterm⟩ := h.terminator hi
  refine ⟨fun hsucc => ?_, fun succ hsucc => ?_, fun succ₀ succ₁ hsucc => ?_⟩ <;>
    rw [hsucc] at hords hterm
  · cases hords
    rw [if_neg (by simp)] at hterm
    rw [Control, hterm] at hrun
    exact hrun
  · obtain ⟨dest, hdest, rfl⟩ := exists_ords_one hords
    rw [if_neg (by simp)] at hterm
    obtain ⟨hkind, hord, hfall⟩ := terminatorOf_uncondBr i dest t
    rw [← hterm] at hkind hord hfall
    rw [Control, hkind] at hrun
    exact h.leadsTo_default hi hnops hdone (hord ▸ hfall) (hord ▸ hdest) hrun
  · obtain ⟨dest₀, dest₁, hdest₀, hdest₁, rfl⟩ := exists_ords_two hords
    rw [if_pos (by rfl)] at hterm
    by_cases hne : dest₀ = dest₁
    · -- both successors are one block
      obtain rfl := hne
      obtain rfl := Option.some.inj (hdest₀.symm.trans hdest₁)
      obtain ⟨-, -, hfall⟩ := terminatorOf_uncondBr i dest₀ t
      have heq : cbb.terminatorInfo =
          (terminatorOf i [dest₀] t).setConditionValue (input.conditionValue cbb.bb) := by
        rw [hterm]
        exact congrArg (setConditionValue · _) (if_pos rfl)
      rw [Control, heq] at hrun
      rw [ite_self]
      refine h.leadsTo_default hi hnops hdone ?_ ?_ (by rw [heq]; exact hrun)
      · rw [heq]
        exact hfall
      · rw [heq]
        exact hdest₀
    · obtain ⟨hkind, hfall, hbranchOrd, hord⟩ := terminatorOf_condBr i hne t
      have hkind' : cbb.terminatorInfo.kind = .condBr := by
        rw [hterm]
        exact hkind
      have htest : cbb.terminatorInfo.testValue = some (input.conditionValue cbb.bb) := by
        rw [hterm]
        rfl
      have hfall' : cbb.terminatorInfo.isDefaultTargetFallthrough =
          decide (i + 1 = cbb.terminatorInfo.defaultTargetOrd) := by
        rw [hterm]
        exact hfall
      rw [Control, hkind'] at hrun
      refine leadsTo_condBr hdest₀ hdest₁ ?_ ?_ (h.leadsTo_default hi hnops hdone hfall')
        (hrun _ htest)
      · rw [hterm]
        exact hbranchOrd
      · rw [hterm]
        exact hord

/-- **The machine code implements the control flow graph.**  The blocks that are reached are put in
the order, each once and the entry first.  A block that a back edge leads to starts at a multiple of
16.  If the code is not too long for its branches, the second pass emits every block at its start
offset, each terminator takes as many bytes as the first pass has said, and a processor that holds
the code comes from the end of a block to the start of a successor: of the second when the branch
decision is not zero, of the first otherwise. -/
theorem layout_correct (hwf : g.WellFormed) (hstart : input.jitRegionStart % 16 = 0) :
    ∃ N, ∀ fuel ≥ N, ∃ lay, layout fuel g input = some lay ∧
      (lay.bbOrder.map (·.bb)).Nodup ∧ (lay.bbOrder.map (·.bb))[0]? = some g.getEntryBB ∧
      (∀ b, b ∈ lay.bbOrder.map (·.bb) ↔ g.Reach g.getEntryBB b) ∧
      (∀ i j cbb, BackEdge g (lay.bbOrder.map (·.bb)) i j → lay.bbOrder[j]? = some cbb →
        (input.fastPathBaseAddr + cbb.fastPathStartOffset) % 16 = 0) ∧
      (lay.totalJitFastPathSectionLen < 2 ^ 31 → ∀ mem, ∃ c, doCodegen input lay mem = some c ∧
        ∀ i cbb, lay.bbOrder[i]? = some cbb → ∃ c₀ c₁,
          (lay.bbOrder.take i).foldlM (codegenBasicBlock input lay.bbOrder)
            (runCodegenOp ⟨mem, input.fastPathBaseAddr⟩ input.functionEntry) = some c₀ ∧
          c₀.addr = input.fastPathBaseAddr + cbb.fastPathStartOffset ∧
          cbb.terminatorInfo.emitJITCode input.fastPathBaseAddr lay.bbOrder
            ((input.codegenLog cbb.bb).foldl runCodegenOp c₀) = some c₁ ∧
          c₁.addr = ((input.codegenLog cbb.bb).foldl runCodegenOp c₀).addr +
            cbb.terminatorInfo.getJITCodeLength ∧
          ∀ s : Cpu, HoldsCode input lay c.mem s →
            s.pc = ((input.codegenLog cbb.bb).foldl runCodegenOp c₀).addr →
            Implements g input lay cbb.bb s) := by
  refine ⟨g.blocks.length + 1, fun fuel hfuel => ?_⟩
  obtain ⟨planned, hplan, hordered⟩ := planBasicBlockOrder_spec hwf (Nat.lt_of_succ_le hfuel)
  obtain ⟨hoffsets, hall⟩ := processBlocks_spec g input input.functionEntry.len planned
  rcases hblocks : processBlocks g input input.functionEntry.len planned with ⟨total, bbOrder⟩
  let lay : Layout := ⟨total, bbOrder⟩
  rw [hblocks] at hoffsets hall
  have h : LaidOut g input lay := ⟨⟨planned, hordered, hall⟩, hoffsets⟩
  have hmap : lay.bbOrder.map (·.bb) = planned.map (·.bb) := map_bb hall
  have hle : ∀ b ∈ lay.bbOrder.map (·.bb), (g.successors b).length ≤ 2 := by
    intro b hb
    rw [hmap] at hb
    refine hwf.le_two b ?_
    have hreach := (hordered.reach b).mp hb
    clear hb
    induction hreach with
    | refl =>
      obtain ⟨first, l, hl⟩ := List.exists_cons_of_ne_nil hwf.nonempty
      rw [Graph.getEntryBB, hl]
      exact .head _
    | tail _ hstep ih => exact hwf.closed _ ih _ hstep
  refine ⟨lay, by rw [layout, hplan, Option.map_some, hblocks], hmap ▸ hordered.nodup,
    hmap ▸ hordered.entry, hmap ▸ hordered.reach, fun i j cbb hback hj => ?_, fun htotal mem => ?_⟩
  · have haligned := h.aligned hback hj
    rw [Input.fastPathBaseAddr, roundUp16]
    omega
  · have hready : ∀ cbb ∈ lay.bbOrder, cbb.terminatorInfo.Ready lay.bbOrder := by
      intro cbb hcbb
      obtain ⟨i, hi⟩ := List.mem_iff_getElem?.mp hcbb
      obtain ⟨ords, t, hords, hterm⟩ := h.terminator hi
      exact ready_terminatorOf (hle _ (List.mem_map_of_mem hcbb)) hords hterm
    obtain ⟨c, hfold, haddr, -, hends, hplaces⟩ := foldlM_codegenBasicBlock
      (c := runCodegenOp ⟨mem, input.fastPathBaseAddr⟩ input.functionEntry)
      (fun cbb hcbb => (h.offsets.mem hcbb).1) htotal hready (fun cbb hcbb => h.nops hcbb)
      h.offsets rfl
    refine ⟨_, by rw [doCodegen, hfold, Option.map_some], fun i cbb hi => ?_⟩
    obtain ⟨c₀, c₁, htake, haddr₀, hemitted⟩ := hplaces i cbb hi
    obtain ⟨c₂, hemit, haddr₂⟩ := hemitted.terminator
    refine ⟨c₀, c₂, htake, haddr₀, hemit, haddr₂, fun s hcode hpc => ?_⟩
    have hcbb := List.mem_of_getElem? hi
    have hreplayed : ((input.codegenLog cbb.bb).foldl runCodegenOp c₀).addr
        = input.fastPathBaseAddr + cbb.expectedFastPathOffsetAfterLogReplay := by
      rw [(foldl_runCodegenOp _ c₀).1, haddr₀, h.offsets.replayed hcbb, logLength, Nat.add_assoc]
    refine h.implements hi ((hends cbb hcbb).congr (h.nops hcbb) fun a ha => ?_) hcode
      (hpc.trans hreplayed)
    -- the gap is filled behind the code
    have hbehind := (h.offsets.mem hcbb).2
    exact ((emitted_store c _).trans (emitted_store _ _)).frame a (by omega)

/-- A block that may be repeated. -/
def loopGraph : Graph := ⟨[0, 1, 2], fun b => [[1], [2, 1], []].getD b []⟩

/-- Blocks without code of their own; the branch decision is in `%rax`. -/
def emptyInput : Input where
  functionEntry := ⟨0, fun mem _ => mem, fun _ _ _ _ => rfl⟩
  codegenLog := fun _ => []
  conditionValue := fun _ => .reg 0
  jitRegionStart := 4096
  totalJitDataSectionLen := 0

theorem loopGraph_wellFormed : loopGraph.WellFormed where
  nonempty := by decide
  nodup := by decide
  closed := by decide
  le_two := by decide
  entry := by decide

theorem layout_correct_loopGraph :
    ∃ N, ∀ fuel ≥ N, ∃ lay, layout fuel loopGraph emptyInput = some lay ∧
      (lay.bbOrder.map (·.bb)).Nodup ∧ (lay.bbOrder.map (·.bb))[0]? = some loopGraph.getEntryBB ∧
      (∀ b, b ∈ lay.bbOrder.map (·.bb) ↔ loopGraph.Reach loopGraph.getEntryBB b) ∧
      (∀ i j cbb, BackEdge loopGraph (lay.bbOrder.map (·.bb)) i j → lay.bbOrder[j]? = some cbb →
        (emptyInput.fastPathBaseAddr + cbb.fastPathStartOffset) % 16 = 0) ∧
      (lay.totalJitFastPathSectionLen < 2 ^ 31 → ∀ mem, ∃ c, doCodegen emptyInput lay mem = some c ∧
        ∀ i cbb, lay.bbOrder[i]? = some cbb → ∃ c₀ c₁,
          (lay.bbOrder.take i).foldlM (codegenBasicBlock emptyInput lay.bbOrder)
            (runCodegenOp ⟨mem, emptyInput.fastPathBaseAddr⟩ emptyInput.functionEntry) = some c₀ ∧
          c₀.addr = emptyInput.fastPathBaseAddr + cbb.fastPathStartOffset ∧
          cbb.terminatorInfo.emitJITCode emptyInput.fastPathBaseAddr lay.bbOrder
            ((emptyInput.codegenLog cbb.bb).foldl runCodegenOp c₀) = some c₁ ∧
          c₁.addr = ((emptyInput.codegenLog cbb.bb).foldl runCodegenOp c₀).addr +
            cbb.terminatorInfo.getJITCodeLength ∧
          ∀ s : Cpu, HoldsCode emptyInput lay c.mem s →
            s.pc = ((emptyInput.codegenLog cbb.bb).foldl runCodegenOp c₀).addr →
            Implements loopGraph emptyInput lay cbb.bb s) :=
  layout_correct loopGraph_wellFormed rfl

end Correct

end CodeLayout

end Dsom
