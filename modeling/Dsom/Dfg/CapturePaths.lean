import Dsom.Dfg.Captures
import Mathlib.Tactic.Linarith
import Mathlib.Tactic.Ring

/-!
# Dfg/CapturePaths — when local captures are exact

The captured locals at a point of the control flow are those some path captures and does not close
again (`CapturedAfter`, `CapturedBefore`).  `AnalyzeLocalCaptures` looks for captures in all but the
last bytecode of a block, and for a close in the last one only, so its bits are the captured locals
exactly under `CapturesVisible` and `ClosesVisible` (`capturesExact_iff`).
-/

namespace Dsom

namespace BytecodeFunction

open Dataflow

variable {numLocals : ℕ} {f : BytecodeFunction numLocals}

variable (f) in
/-- **Captured after a bytecode**: on some path from the entry a `CreateClosure` captures the local
mutably, and no later `UpvalueClose` closes it. -/
def CapturedAfter (l : Fin numLocals) : ℕ → Prop :=
  f.After (fun i => f.Reachable i ∧ f.Captures l i) (f.Closes l)

variable (f) in
/-- …when a bytecode is about to be executed. -/
def CapturedBefore (l : Fin numLocals) : ℕ → Prop :=
  f.Before (fun i => f.Reachable i ∧ f.Captures l i) (f.Closes l)

/-- The captures a pass arrives at by scanning a block bytecode by bytecode from its head. -/
def scanBlock (f : BytecodeFunction numLocals) (bb : BasicBlockUpvalueInfo numLocals) :
    Finset (Fin numLocals) :=
  (List.range' bb.bytecodeIndex (bb.terminalNode + 1 - bb.bytecodeIndex)).foldl
    (fun isCaptured i => (f.bytecode i).kind.scanCaptured isCaptured) bb.isLocalCapturedAtHead

/-- **The analysis is exact on a list of blocks**: head and tail bits are the captured locals, and a
scan from the head bits ends in the tail bits. -/
def CapturesExact (f : BytecodeFunction numLocals)
    (bbs : List (BasicBlockUpvalueInfo numLocals)) : Prop :=
  ∀ bb ∈ bbs,
    (∀ l, l ∈ bb.isLocalCapturedAtHead ↔ f.CapturedBefore l bb.bytecodeIndex) ∧
    (∀ l, l ∈ bb.isLocalCapturedAtTail ↔ f.CapturedAfter l bb.terminalNode) ∧
    f.scanBlock bb = bb.isLocalCapturedAtTail

variable (f) in
/-- A local that the last bytecode of a straight line captures has already been captured on some
path to it, by a bytecode that is not the last of its line, and has not been closed at the end of
one since. -/
def CapturesVisible : Prop :=
  ∀ l i, f.Reachable i → f.IsLast i → f.Captures l i → f.SeenBefore l i

variable (f) in
/-- Where a bytecode in the middle of a line closes a captured local, a later one of the line
captures it again, or the last one closes it as well. -/
def ClosesVisible : Prop :=
  ∀ l i, ¬ f.IsLast i → f.Closes l i → f.CapturedBefore l i →
    ∃ j, i < j ∧ (∀ k, i ≤ k → k < j → ¬ f.IsLast k) ∧ (f.Captures l j ∨ f.LastClose l j)

variable {l : Fin numLocals} {i : ℕ}

/-- One bytecode does not both capture a local and close it. -/
theorem not_closes_of_captures (h : f.Captures l i) : ¬ f.Closes l i := by
  unfold Captures at h
  unfold Closes
  cases hk : (f.bytecode i).kind with
  | createClosure => exact id
  | upvalueClose start => rw [hk] at h; exact absurd h List.not_mem_nil
  | conventional => exact id

theorem reachable_of_capture {l : Fin numLocals} :
    ∀ i, f.Reachable i ∧ f.Captures l i → f.Reachable i := fun _ h => h.1

/-! ## The condition is enough -/

/-- With visible captures, all that is captured is seen. -/
theorem seenAfter_of_capturedAfter (hc : f.CapturesVisible) (h : f.CapturedAfter l i) :
    f.SeenAfter l i := by
  refine Reaches.mem_of_closed (S := f.SeenAfter l) ?_ ?_ h
  · rintro i ⟨hr, hcap⟩
    by_cases hlast : f.IsLast i
    · exact after_iff.mpr (.inr ⟨fun hk => not_closes_of_captures hcap hk.2, hc l i hr hlast hcap⟩)
    · exact after_iff.mpr (.inl ⟨hr, hlast, hcap⟩)
  · intro i j hk hn hj
    exact after_iff.mpr (.inr ⟨fun h => hk h.2, j, hn, hj⟩)

/-- With visible closes, all that is seen at the end of a line is captured. -/
theorem capturedAfter_of_seenAfter (hc : f.ClosesVisible) (hlast : f.IsLast i)
    (h : f.SeenAfter l i) : f.CapturedAfter l i := by
  -- in the middle of a line a seen local may have been closed, but the line is not done with it
  refine (Reaches.mem_of_closed (S := fun i => f.Reachable i ∧
    (f.IsLast i → f.CapturedAfter l i) ∧ (¬ f.IsLast i → f.CapturedAfter l i ∨
      ∃ j, i < j ∧ (∀ k, i ≤ k → k < j → ¬ f.IsLast k) ∧ (f.Captures l j ∨ f.LastClose l j)))
    ?_ ?_ h).2.1 hlast
  · rintro i ⟨hr, hnl, hcap⟩
    exact ⟨hr, fun hl => absurd hl hnl, fun _ => .inl (after_iff.mpr (.inl ⟨hr, hcap⟩))⟩
  · rintro i j hk hn ⟨hr, hend, hmid⟩
    have hri : f.Reachable i := hr.tail hn
    -- what follows if the local is captured when `i` is about to be executed
    have hbefore : f.CapturedAfter l j → (f.IsLast i → f.CapturedAfter l i) ∧
        (¬ f.IsLast i → f.CapturedAfter l i ∨ ∃ j, i < j ∧
          (∀ k, i ≤ k → k < j → ¬ f.IsLast k) ∧ (f.Captures l j ∨ f.LastClose l j)) := by
      intro hj
      by_cases hcl : f.Closes l i
      · exact ⟨fun hl => absurd ⟨hl, hcl⟩ hk, fun hnl => .inr (hc l i hnl hcl ⟨j, hn, hj⟩)⟩
      · have hi : f.CapturedAfter l i := after_iff.mpr (.inr ⟨hcl, j, hn, hj⟩)
        exact ⟨fun _ => hi, fun _ => .inl hi⟩
    by_cases hlj : f.IsLast j
    · exact ⟨hri, hbefore (hend hlj)⟩
    · rcases hmid hlj with hj | ⟨m, hjm, hline, hm⟩
      · exact ⟨hri, hbefore hj⟩
      · obtain rfl := (next_iff_of_not_isLast hlj).mp hn
        by_cases hmi : m = j + 1
        · subst hmi
          have hcap := hm.resolve_right hk
          have hi : f.CapturedAfter l (j + 1) := after_iff.mpr (.inl ⟨hri, hcap⟩)
          exact ⟨hri, fun _ => hi, fun _ => .inl hi⟩
        · have hnl : ¬ f.IsLast (j + 1) := hline (j + 1) (by omega) (by omega)
          refine ⟨hri, fun hl => absurd hl hnl, fun _ => .inr ⟨m, by omega, ?_, hm⟩⟩
          exact fun k hk => hline k (by omega)

/-! ## Along a block

The code scans a block bytecode by bytecode; its bits are the facts along control flow only if a
close or a capture is where the scan sees it. -/

section Block

variable {bb : BasicBlockUpvalueInfo numLocals}

/-- What is captured inside a block comes from its head or from one of its bytecodes. -/
theorem captured_source (h : IsBlock f bb) (hi : bb.bytecodeIndex ≤ i) :
    i ≤ bb.terminalNode → f.CapturedBefore l i →
      f.CapturedBefore l bb.bytecodeIndex ∨
        ∃ c, bb.bytecodeIndex ≤ c ∧ c < i ∧ f.Captures l c := by
  induction i, hi using Nat.le_induction with
  | base => exact fun _ => .inl
  | succ i hi ih =>
    intro hlt hb
    have hlast := h.inner_not_isLast i hi hlt
    rcases after_iff.mp ((before_succ_iff reachable_of_capture hlast).mp hb) with hg | ⟨-, hb⟩
    · exact .inr ⟨i, hi, Nat.lt_succ_self i, hg.2⟩
    · refine (ih (by omega) hb).imp_right ?_
      rintro ⟨c, hc, hci, hcap⟩
      exact ⟨c, hc, by omega, hcap⟩

/-- What is captured behind a close has been captured again since. -/
theorem exists_capture_behind (h : IsBlock f bb) {k : ℕ} (hk : bb.bytecodeIndex ≤ k)
    (hcl : f.Closes l k) (hi : k ≤ i) : i ≤ bb.terminalNode → f.CapturedAfter l i →
      ∃ j, k < j ∧ j ≤ i ∧ f.Captures l j := by
  induction i, hi using Nat.le_induction with
  | base =>
    intro _ hc
    rcases after_iff.mp hc with ⟨-, hcap⟩ | ⟨hncl, -⟩
    · exact absurd hcl (not_closes_of_captures hcap)
    · exact absurd hcl hncl
  | succ i hi ih =>
    intro hlt hc
    rcases after_iff.mp hc with ⟨-, hcap⟩ | ⟨-, hb⟩
    · exact ⟨i + 1, by omega, le_rfl, hcap⟩
    · have hlast := h.inner_not_isLast i (by omega) hlt
      obtain ⟨j, hkj, hji, hcap⟩ :=
        ih (by omega) ((before_succ_iff reachable_of_capture hlast).mp hb)
      exact ⟨j, hkj, by omega, hcap⟩

/-- **A scan follows the captured locals**: from those at the head of a block to those behind each
of its bytecodes. -/
theorem mem_scan_iff (h : IsBlock f bb) (hr : f.Reachable bb.bytecodeIndex)
    {head : Finset (Fin numLocals)}
    (hhead : ∀ l, l ∈ head ↔ f.CapturedBefore l bb.bytecodeIndex) :
    ∀ n, bb.bytecodeIndex + n ≤ bb.terminalNode → ∀ l,
      l ∈ (List.range' bb.bytecodeIndex (n + 1)).foldl
        (fun isCaptured i => (f.bytecode i).kind.scanCaptured isCaptured) head ↔
      f.CapturedAfter l (bb.bytecodeIndex + n) := by
  -- one bytecode further
  have hstep : ∀ i, bb.bytecodeIndex ≤ i → i ≤ bb.terminalNode →
      ∀ (c : Finset (Fin numLocals)), (∀ l, l ∈ c ↔ f.CapturedBefore l i) → ∀ l,
        l ∈ (f.bytecode i).kind.scanCaptured c ↔ f.CapturedAfter l i := by
    intro i hi hi' c hc l
    rw [BytecodeKind.mem_scanCaptured, hc, CapturedAfter, after_iff]
    exact or_congr_left ⟨fun hcap => ⟨reachable_of_start_le h hr hi hi', hcap⟩, fun hg => hg.2⟩
  intro n
  induction n with
  | zero =>
    intro hle l
    exact hstep bb.bytecodeIndex le_rfl hle head hhead l
  | succ n ih =>
    intro hle l
    rw [List.range'_concat, List.foldl_append, List.foldl_cons, List.foldl_nil, one_mul]
    refine hstep (bb.bytecodeIndex + (n + 1)) (by omega) hle _ (fun l => ?_) l
    have hlast := h.inner_not_isLast (bb.bytecodeIndex + n) (by omega) (by omega)
    rw [ih (by omega) l]
    exact (before_succ_iff reachable_of_capture hlast).symm

end Block

/-! ## The condition is exact -/

section Exact

variable {bbs res : List (BasicBlockUpvalueInfo numLocals)}

/-- The bits are the ones the propagation sees. -/
def BitsSeen (f : BytecodeFunction numLocals) (bbs res : List (BasicBlockUpvalueInfo numLocals)) :
    Prop :=
  res.length = bbs.length ∧ ∀ (ord : ℕ) bb, bbs[ord]? = some bb → ∃ rb, res[ord]? = some rb ∧
    rb.bytecodeIndex = bb.bytecodeIndex ∧ rb.terminalNode = bb.terminalNode ∧
    rb.successors = bb.successors ∧
    (∀ l, l ∈ rb.isLocalCapturedAtHead ↔ f.SeenBefore l bb.bytecodeIndex) ∧
    (∀ l, l ∈ rb.isLocalCapturedAtTail ↔ f.SeenAfter l bb.terminalNode)

/-- Exact bits: at every head and tail the seen locals are the captured ones. -/
theorem capturesExact_iff_seen (h : IsCfg f bbs) (hres : BitsSeen f bbs res) :
    CapturesExact f res ↔ ∀ (ord : ℕ) bb, bbs[ord]? = some bb → ∀ l,
      (f.SeenBefore l bb.bytecodeIndex ↔ f.CapturedBefore l bb.bytecodeIndex) ∧
      (f.SeenAfter l bb.terminalNode ↔ f.CapturedAfter l bb.terminalNode) := by
  constructor
  · intro hex ord bb hb l
    obtain ⟨rb, hrb, hstart, hterm, -, hhead, htail⟩ := hres.2 ord bb hb
    obtain ⟨hh, ht, -⟩ := hex rb (List.mem_of_getElem? hrb)
    rw [← hhead l, ← htail l, hh l, ht l, hstart, hterm]
    exact ⟨Iff.rfl, Iff.rfl⟩
  · intro hseen rb hrb
    obtain ⟨ord, hord⟩ := List.mem_iff_getElem?.mp hrb
    obtain ⟨hlt, -⟩ := List.getElem?_eq_some_iff.mp hord
    rw [hres.1] at hlt
    have hb := List.getElem?_eq_getElem hlt
    obtain ⟨rb', hrb', hstart, hterm, -, hhead, htail⟩ := hres.2 ord _ hb
    obtain rfl := Option.some.inj (hord.symm.trans hrb')
    have hblock := h.isBlock ord _ hb
    have hat : ∀ l, l ∈ rb.isLocalCapturedAtHead ↔ f.CapturedBefore l bbs[ord].bytecodeIndex :=
      fun l => (hhead l).trans (hseen ord _ hb l).1
    have hbt : ∀ l, l ∈ rb.isLocalCapturedAtTail ↔ f.CapturedAfter l bbs[ord].terminalNode :=
      fun l => (htail l).trans (hseen ord _ hb l).2
    refine ⟨by rw [hstart]; exact hat, by rw [hterm]; exact hbt, ?_⟩
    ext l
    have hle := hblock.start_le
    have hlen : bbs[ord].terminalNode + 1 - bbs[ord].bytecodeIndex
        = bbs[ord].terminalNode - bbs[ord].bytecodeIndex + 1 := by omega
    rw [scanBlock, hstart, hterm, hbt l, hlen, mem_scan_iff hblock (h.reachable ord _ hb) hat _
      (by omega), Nat.add_sub_cancel' hle]

/-- If the bits are exact, every capture is visible. -/
theorem capturesVisible_of_exact (h : IsCfg f bbs)
    (hex : ∀ (ord : ℕ) bb, bbs[ord]? = some bb → ∀ l,
      f.SeenAfter l bb.terminalNode ↔ f.CapturedAfter l bb.terminalNode) : f.CapturesVisible := by
  intro l i hr hlast hcap
  obtain ⟨ord, bb, hb, hle, hge⟩ := h.exists_block hr
  obtain rfl := h.eq_terminalNode hb hle hge hlast
  have hseen := (hex ord bb hb l).mpr (after_iff.mpr (.inl ⟨hr, hcap⟩))
  exact ((seenAfter_terminal_iff (h.isBlock ord bb hb)).mp hseen).2

/-- If the bits are exact, every close is visible. -/
theorem closesVisible_of_exact (h : IsCfg f bbs)
    (hex : ∀ (ord : ℕ) bb, bbs[ord]? = some bb → ∀ l,
      (f.SeenBefore l bb.bytecodeIndex ↔ f.CapturedBefore l bb.bytecodeIndex) ∧
      (f.SeenAfter l bb.terminalNode ↔ f.CapturedAfter l bb.terminalNode)) : f.ClosesVisible := by
  intro l i hnl hcl hcap
  obtain ⟨ord, bb, hb, hle, hge⟩ := h.exists_block (hcap.reachable reachable_of_capture)
  have hblock := h.isBlock ord bb hb
  have hlt : i < bb.terminalNode := lt_of_le_of_ne hge fun heq => hnl (heq ▸ hblock.terminal_isLast)
  have hline : ∀ j, j ≤ bb.terminalNode → ∀ k, i ≤ k → k < j → ¬ f.IsLast k :=
    fun j hj k hk hkj => hblock.inner_not_isLast k (by omega) (by omega)
  by_cases hend : f.Closes l bb.terminalNode
  · exact ⟨bb.terminalNode, hlt, hline _ le_rfl, .inr ⟨hblock.terminal_isLast, hend⟩⟩
  · -- the propagation does not see the close, so the local must be captured again
    have hsource := (captured_source hblock hle hge hcap).imp_left (hex ord bb hb l).1.mpr
    have hseen : f.SeenAfter l bb.terminalNode := by
      refine (seenAfter_terminal_iff hblock).mpr ⟨hend, ?_⟩
      refine (seenBefore_iff hblock (h.reachable ord bb hb) hblock.start_le le_rfl).mpr ?_
      refine hsource.imp_right ?_
      rintro ⟨c, hc, hci, hcc⟩
      exact ⟨c, hc, by omega, hcc⟩
    obtain ⟨j, hij, hj, hcj⟩ := exists_capture_behind hblock hle hcl hge le_rfl
      ((hex ord bb hb l).2.mp hseen)
    exact ⟨j, hij, hline j hj, .inl hcj⟩

/-- Under the condition, what is seen is what is captured. -/
theorem seen_iff_captured (h : IsCfg f bbs) (hc : f.CapturesVisible) (hd : f.ClosesVisible)
    {ord : ℕ} {bb : BasicBlockUpvalueInfo numLocals} (hb : bbs[ord]? = some bb)
    (l : Fin numLocals) :
    (f.SeenBefore l bb.bytecodeIndex ↔ f.CapturedBefore l bb.bytecodeIndex) ∧
      (f.SeenAfter l bb.terminalNode ↔ f.CapturedAfter l bb.terminalNode) := by
  have htail : ∀ (p : ℕ) pb, bbs[p]? = some pb →
      (f.SeenAfter l pb.terminalNode ↔ f.CapturedAfter l pb.terminalNode) := fun p pb hpb =>
    ⟨capturedAfter_of_seenAfter hd (h.isBlock p pb hpb).terminal_isLast,
      seenAfter_of_capturedAfter hc⟩
  refine ⟨?_, htail ord bb hb⟩
  rw [SeenBefore, h.before_start_iff InnerCapture.reachable hb, CapturedBefore,
    h.before_start_iff reachable_of_capture hb]
  constructor
  · rintro ⟨p, pb, hpb, hs, hp⟩
    exact ⟨p, pb, hpb, hs, (htail p pb hpb).mp hp⟩
  · rintro ⟨p, pb, hpb, hs, hp⟩
    exact ⟨p, pb, hpb, hs, (htail p pb hpb).mpr hp⟩

end Exact

/-! ## The main result -/

theorem length_bbStartOffsets_le : f.bbStartOffsets.length ≤ f.numBytecodes + 1 := by
  have hnd : f.bbStartOffsets.Nodup := sortedLT_bbStartOffsets.nodup
  rw [← List.toFinset_card_of_nodup hnd, ← Finset.card_range (f.numBytecodes + 1)]
  refine Finset.card_le_card fun p hp => ?_
  have := le_numBytecodes_of_mem (List.mem_toFinset.mp hp)
  exact Finset.mem_range.mpr (by omega)

/-- There are at most as many blocks as bytecodes. -/
theorem IsCfg.length_le {bbs : List (BasicBlockUpvalueInfo numLocals)} (h : IsCfg f bbs) :
    bbs.length ≤ f.numBytecodes := by
  have hmap : ∀ o ∈ Finset.range bbs.length,
    (startAt bbs o).getD 0 ∈ Finset.range f.numBytecodes := by
    intro o ho
    have hb := List.getElem?_eq_getElem (Finset.mem_range.mp ho)
    rw [startAt_eq hb]
    exact Finset.mem_range.mpr (h.reachable o _ hb).lt
  have hinj : Set.InjOn (fun o => (startAt bbs o).getD 0) (Finset.range bbs.length) := by
    intro o ho o' ho' heq
    have hb := List.getElem?_eq_getElem (Finset.mem_range.mp (Finset.mem_coe.mp ho))
    have hb' := List.getElem?_eq_getElem (Finset.mem_range.mp (Finset.mem_coe.mp ho'))
    simp only [startAt_eq hb, startAt_eq hb', Option.getD_some] at heq
    exact h.start_injective o o' _ (startAt_eq hb) (heq ▸ startAt_eq hb')
  simpa using Finset.card_le_card_of_injOn _ hmap hinj

/-- **The analysis ends**, on the control-flow graph and with the bits that the propagation sees. -/
theorem runControlFlowAndUpvalueAnalysis_spec (f : BytecodeFunction numLocals) {fuel : ℕ}
    (hfuel : (f.numBytecodes + 1) * (numLocals + 1) < fuel) :
    ∃ bbs res, f.runControlFlowAndUpvalueAnalysis fuel = some res ∧ IsCfg f bbs ∧
      BitsSeen f bbs res := by
  have hexp : (f.numBytecodes + 1) * (numLocals + 1)
      = f.numBytecodes + f.numBytecodes * numLocals + numLocals + 1 := by ring
  have hstarts := length_bbStartOffsets_le (f := f)
  obtain ⟨bbs, hgen, hcfg⟩ := generateBytecodeOffsetToBBMap_isCfg (f := f) fuel (by nlinarith)
  have hlen := hcfg.length_le
  have hmul : bbs.length * numLocals ≤ f.numBytecodes * numLocals := Nat.mul_le_mul_right _ hlen
  obtain ⟨res, hres, hspec⟩ := analyzeLocalCaptures_spec hcfg fuel (by omega)
  exact ⟨bbs, res, by rw [runControlFlowAndUpvalueAnalysis, hgen]; exact hres, hcfg, hspec⟩

/-- **Local captures are exact just when the last bytecodes of blocks hide nothing.**  The analysis
ends, and its bits are the captured locals if and only if no capture by the last bytecode of a block
is news, and no close by another bytecode goes unnoticed. -/
theorem capturesExact_iff (f : BytecodeFunction numLocals) {fuel : ℕ}
    (hfuel : (f.numBytecodes + 1) * (numLocals + 1) < fuel) :
    ∃ bbs, f.runControlFlowAndUpvalueAnalysis fuel = some bbs ∧
      (CapturesExact f bbs ↔ f.CapturesVisible ∧ f.ClosesVisible) := by
  obtain ⟨bbs, res, hrun, hcfg, hspec⟩ := f.runControlFlowAndUpvalueAnalysis_spec hfuel
  refine ⟨res, hrun, ?_⟩
  rw [capturesExact_iff_seen hcfg hspec]
  constructor
  · intro hex
    exact ⟨capturesVisible_of_exact hcfg fun ord bb hb l => (hex ord bb hb l).2,
      closesVisible_of_exact hcfg hex⟩
  · rintro ⟨hc, hd⟩ ord bb hb l
    exact seen_iff_captured hcfg hc hd hb l

/-- A closure that captures local `1` mutably, as one of its upvalues. -/
def captureOfOne : FrameUpvalue 2 where
  isParentLocal := true
  isImmutable := false
  slot := 1
  slot_lt := by decide

/-- `CreateClosure`, `UpvalueClose`, `Ret` in one block. -/
def closeThenReturn : BytecodeFunction 2 where
  numBytecodes := 3
  bytecode
    | 0 => ⟨.createClosure [captureOfOne] 0, false, none⟩
    | 1 => ⟨.upvalueClose 0, false, none⟩
    | _ => ⟨.conventional [.local 0] [], true, none⟩
  numBytecodes_pos := Nat.zero_lt_succ 2
  target_lt := by decide
  last_isBarrier := rfl

/-- A `CreateClosure` in front of a loop, which a branching `UpvalueClose` leaves. -/
def captureThenLoop : BytecodeFunction 2 where
  numBytecodes := 4
  bytecode
    | 0 => ⟨.createClosure [captureOfOne] 0, false, none⟩
    | 1 => ⟨.conventional [.local 0] [], false, some 1⟩
    | 2 => ⟨.upvalueClose 0, true, some 3⟩
    | _ => ⟨.conventional [.local 0] [], true, none⟩
  numBytecodes_pos := by decide
  target_lt := by decide
  last_isBarrier := rfl

/-- The captures are not exact where a scan of one block differs from its tail. -/
theorem not_capturesExact_of_scan {bbs : List (BasicBlockUpvalueInfo numLocals)}
    (h : ∃ bb ∈ bbs, f.scanBlock bb ≠ bb.isLocalCapturedAtTail) : ¬ CapturesExact f bbs := by
  obtain ⟨bb, hb, hne⟩ := h
  exact fun hex => hne (hex bb hb).2.2

theorem capturesExact_fails :
    (∃ bbs, closeThenReturn.runControlFlowAndUpvalueAnalysis 20 = some bbs ∧
      ¬ CapturesExact closeThenReturn bbs) ∧
    (∃ bbs, captureThenLoop.runControlFlowAndUpvalueAnalysis 20 = some bbs ∧
      ¬ CapturesExact captureThenLoop bbs) := by
  have hclose : ∃ bbs ∈ closeThenReturn.runControlFlowAndUpvalueAnalysis 20,
      ∃ bb ∈ bbs, closeThenReturn.scanBlock bb ≠ bb.isLocalCapturedAtTail := by decide +kernel
  have hcapture : ∃ bbs ∈ captureThenLoop.runControlFlowAndUpvalueAnalysis 20,
      ∃ bb ∈ bbs, captureThenLoop.scanBlock bb ≠ bb.isLocalCapturedAtTail := by decide +kernel
  obtain ⟨bbs, hbbs, h⟩ := hclose
  obtain ⟨bbs', hbbs', h'⟩ := hcapture
  exact ⟨⟨bbs, hbbs, not_capturesExact_of_scan h⟩, ⟨bbs', hbbs', not_capturesExact_of_scan h'⟩⟩

theorem capturesExact_iff_captureThenLoop :
    ∃ bbs, captureThenLoop.runControlFlowAndUpvalueAnalysis 20 = some bbs ∧
      (CapturesExact captureThenLoop bbs ↔
        captureThenLoop.CapturesVisible ∧ captureThenLoop.ClosesVisible) :=
  capturesExact_iff captureThenLoop (by decide)

end BytecodeFunction

end Dsom
