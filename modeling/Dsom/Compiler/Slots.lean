import Dsom.Compiler.Upvalues

/-!
# Compiler/Slots — the slots of emitted code

Which slots of the frame a piece of code names (`Code.slots`), and what it can do to the frame
(`Code.touches`): write a slot, build a callee's frame, or make a closure, which captures slots.  A
counting loop keeps its counter and its limit in two slots: its body must leave both alone, and the
code that evaluates the limit must leave the counter alone (`LoopsOk`).
-/

namespace Dsom

/-! ## The slots an instruction names -/

/-- The slots an operand reads. -/
def Operand.slots : Operand → List ℕ
  | .local slot => [slot]
  | .cst _ => []

/-- The slots of one bytecode; `self` is slot 0. -/
def Instr.slots : Instr → List ℕ
  | .mov input output => output :: input.slots
  | .somArrayDup _ output => [output]
  | .upvalueGetMutable _ output => [output]
  | .upvalueGetImmutable _ output => [output]
  | .upvaluePut _ value => value.slots
  | .upvalueClose base => [base]
  | .somGetField _ output => [0, output]
  | .somPutField _ value => 0 :: value.slots
  | .somGlobalGet _ output => [0, output]
  | .rangeFillNils base numToPut => List.range' base numToPut
  | .newClosure _ output => [output]
  | .operator _ operands output => output :: operands.flatMap Operand.slots
  | .somCall _ base _ numArgs output =>
    0 :: output :: List.range' base (numSlotsForStackFrameHeader + numArgs)
  | .ret retStart => [retStart]
  | .somThrow value => [value]

/-- The slots a branch writes. -/
def BranchStore.writes : BranchStore → List ℕ
  | .nothing => []
  | .storeNil output => [output]
  | .copy output => [output]

/-- The slots a branch reads or writes. -/
def Branch.slots (b : Branch) : List ℕ := b.cond :: b.store.writes

/-- **The slots of a piece of code.** -/
def Code.slots : Code → List ℕ
  | .empty => []
  | .op i => i.slots
  | .seq c c' => c.slots ++ c'.slots
  | .branch b body => b.slots ++ body.slots
  | .branchElse b body other => b.slots ++ (body.slots ++ other.slots)
  | .whileLoop cond exit body => cond.slots ++ (exit.slots ++ body.slots)
  | .forLoop _ base body => base :: (base + 1) :: (base + 2) :: body.slots
  | .inlined _ _ body => body.slots
  | .result _ _ value => value.slots
  | .assign _ rhs => rhs.slots

/-! ## What code does to its frame

Touches are the writes to single slots, the calls that clobber everything behind a slot, and what
closes upvalues. -/

/-- One thing that code can do to the frame it runs in. -/
inductive Touch where
  | write (slot : ℕ)
  | frame (base : ℕ)
  | closure (block : ℕ)

/-- What an instruction does to which slots, in order. -/
def Instr.touches : Instr → List Touch
  | .mov _ output => [.write output]
  | .somArrayDup _ output => [.write output]
  | .upvalueGetMutable _ output => [.write output]
  | .upvalueGetImmutable _ output => [.write output]
  | .upvaluePut _ _ => []
  | .upvalueClose _ => []
  | .somGetField _ output => [.write output]
  | .somPutField _ _ => []
  | .somGlobalGet _ output => [.write output]
  | .rangeFillNils base numToPut => (List.range' base numToPut).map .write
  | .newClosure block output => [.closure block, .write output]
  | .operator _ _ output => [.write output]
  | .somCall _ base _ _ output => [.frame base, .write output]
  | .ret _ => []
  | .somThrow _ => []

/-- A branch writes the slots it stores to. -/
def Branch.touches (b : Branch) : List Touch := b.store.writes.map .write

/-- A counting loop writes its counter and the block's parameter. -/
def Code.touches : Code → List Touch
  | .empty => []
  | .op i => i.touches
  | .seq c c' => c.touches ++ c'.touches
  | .branch b body => b.touches ++ body.touches
  | .branchElse b body other => b.touches ++ (body.touches ++ other.touches)
  | .whileLoop cond exit body => cond.touches ++ (exit.touches ++ body.touches)
  | .forLoop _ base body => .write base :: .write (base + 2) :: body.touches
  | .inlined _ _ body => body.touches
  | .result _ _ value => value.touches
  | .assign _ rhs => rhs.touches

/-- The counting loops: the first slot and the body of each. -/
def Code.loops : Code → List (ℕ × Code)
  | .empty => []
  | .op _ => []
  | .seq c c' => c.loops ++ c'.loops
  | .branch _ body => body.loops
  | .branchElse _ body other => body.loops ++ other.loops
  | .whileLoop cond _ body => cond.loops ++ body.loops
  | .forLoop _ base body => (base, body) :: body.loops
  | .inlined _ _ body => body.loops
  | .result _ _ value => value.loops
  | .assign _ rhs => rhs.loops

/-- What stands in front of a counting loop evaluates its limit. -/
def Code.limitBefore (c : Code) : Code → List (ℕ × Code)
  | .forLoop _ base _ => [(base, c)]
  | _ => []

/-- The limits of the counting loops: the first slot of each and the code that evaluates its
limit. -/
def Code.limits : Code → List (ℕ × Code)
  | .empty => []
  | .op _ => []
  | .seq c c' => c.limitBefore c' ++ (c.limits ++ c'.limits)
  | .branch _ body => body.limits
  | .branchElse _ body other => body.limits ++ other.limits
  | .whileLoop cond _ body => cond.limits ++ body.limits
  | .forLoop _ _ body => body.limits
  | .inlined _ _ body => body.limits
  | .result _ _ value => value.limits
  | .assign _ rhs => rhs.limits

/-- The slots of its creator's frame that a closure of the code block `c` captures. -/
def Captures (s : TranslationState) (c slot : ℕ) : Prop :=
  ∃ uv ∈ (s.bctxs.get (s.ctxs.get c).resultBCtx).uvs, uv.isParentLocal ∧ uv.slot = slot

/-- **Harmless for the slots outside of `A`**: writes and captures stay in `A`, frames begin at `k`
or later.  A closure's block is finished, so it is none of the blocks `E` under construction. -/
def Touch.Within (E : Set ℕ) (s : TranslationState) (A : Set ℕ) (k : ℕ) : Touch → Prop
  | .write slot => slot ∈ A
  | .frame base => k ≤ base
  | .closure c => c < s.ctxs.size ∧ (s.ctxs.get c).resultBCtx ∉ E ∧
      ∀ slot, Captures s c slot → slot ∈ A

/-- The slots outside of the `size` ones from `base` on. -/
def roomAround (base size : ℕ) : Set ℕ := {slot | slot < base ∨ base + size ≤ slot}

/-- **Every loop keeps its slots**: its body leaves the counter and the limit alone, and so does the
evaluation of the limit with the counter. -/
structure LoopsOk (E : Set ℕ) (s : TranslationState) (code : Code) : Prop where
  body : ∀ l ∈ code.loops, ∀ t ∈ l.2.touches, t.Within E s (roomAround l.1 2) (l.1 + 2)
  limit : ∀ l ∈ code.limits, ∀ t ∈ l.2.touches, t.Within E s (roomAround l.1 1) (l.1 + 1)

/-- A finished code block fits its frame. -/
def BlockOk (E : Set ℕ) (s : TranslationState) (c : ℕ) : Prop :=
  (∀ slot ∈ (s.ctxs.get c).bytecode.slots, slot ≤ (s.ctxs.get c).historyTopSlot) ∧
    LoopsOk E s (s.ctxs.get c).bytecode

section Transport

variable {E E' : Set ℕ} {s s' : TranslationState} {A A' : Set ℕ} {k k' : ℕ}

/-- A touch may do more where more is allowed. -/
theorem Touch.Within.mono {t : Touch} (h : t.Within E s A k) (hE : E' ⊆ E) (hA : A ⊆ A')
    (hk : k' ≤ k) : t.Within E' s A' k' := by
  cases t with
  | write slot => exact hA h
  | frame base => exact hk.trans h
  | closure c => exact ⟨h.1, fun hc => h.2.1 (hE hc), fun slot hs => hA (h.2.2 slot hs)⟩

/-- A slot that is not of an open block is captured later only if it is now. -/
theorem Later.captures (h : Later E s s') (hw : Wf s) {c : ℕ} (hc : c < s.ctxs.size)
    (hE : (s.ctxs.get c).resultBCtx ∉ E) {slot : ℕ} : Captures s' c slot ↔ Captures s c slot := by
  unfold Captures
  rw [(h.ctx c hc).2.1, h.calm _ (hw.ctx c hc).1 hE]

/-- What a finished closure captures stays the same. -/
theorem Touch.Within.later {t : Touch} (ht : t.Within E s A k) (hw : Wf s) (h : Later E s s') :
    t.Within E s' A k := by
  cases t with
  | write slot => exact ht
  | frame base => exact ht
  | closure c =>
    obtain ⟨hc, hE, hcap⟩ := ht
    refine ⟨hc.trans_le h.ctxs_le, ?_, fun slot hs => hcap slot ((h.captures hw hc hE).mp hs)⟩
    rwa [(h.ctx c hc).2.1]

/-- Closures capture the same whatever the code of the blocks. -/
theorem Touch.Within.congr {t : Touch} (ht : t.Within E s A k) (hb : s'.bctxs = s.bctxs)
    (hn : s'.ctxs.size = s.ctxs.size)
    (hr : ∀ c, (s'.ctxs.get c).resultBCtx = (s.ctxs.get c).resultBCtx) : t.Within E s' A k := by
  cases t with
  | write slot => exact ht
  | frame base => exact ht
  | closure c => simpa only [Touch.Within, Captures, hb, hn, hr] using ht

/-- Fewer open blocks ask for less. -/
theorem LoopsOk.mono {code : Code} (h : LoopsOk E s code) (hE : E' ⊆ E) : LoopsOk E' s code where
  body l hl t ht := (h.body l hl t ht).mono hE (fun _ h => h) (Nat.le_refl _)
  limit l hl t ht := (h.limit l hl t ht).mono hE (fun _ h => h) (Nat.le_refl _)

/-- Good loops stay good later. -/
theorem LoopsOk.later {code : Code} (hok : LoopsOk E s code) (hw : Wf s) (h : Later E s s') :
    LoopsOk E s' code where
  body l hl t ht := (hok.body l hl t ht).later hw h
  limit l hl t ht := (hok.limit l hl t ht).later hw h

/-- Loops do not depend on the code of the blocks, nor on the names. -/
theorem LoopsOk.setCode {code : Code} (hok : LoopsOk E s code) (c : ℕ)
    {f : TranslationContext → TranslationContext} (hr : ∀ x, (f x).resultBCtx = x.resultBCtx)
    (m : String → List ℕ) :
    LoopsOk E { s with ctxs := s.ctxs.modify c f, localVarMap := m } code where
  body l hl t ht :=
    (hok.body l hl t ht).congr rfl rfl fun d => s.ctxs.get_modify_congr _ hr c d
  limit l hl t ht :=
    (hok.limit l hl t ht).congr rfl rfl fun d => s.ctxs.get_modify_congr _ hr c d

theorem LoopsOk.setNames {code : Code} (h : LoopsOk E s code) (m : String → List ℕ) :
    LoopsOk E { s with localVarMap := m } code :=
  ⟨h.body, h.limit⟩

theorem BlockOk.mono {c : ℕ} (h : BlockOk E s c) (hE : E' ⊆ E) : BlockOk E' s c :=
  ⟨h.1, h.2.mono hE⟩

theorem BlockOk.later {c : ℕ} (hok : BlockOk E s c) (hw : Wf s) (hc : c < s.ctxs.size)
    (h : Later E s s') : BlockOk E s' c := by
  rw [BlockOk, (h.code c hc).2]
  exact ⟨fun slot hs => (hok.1 slot hs).trans (h.ctx c hc).2.2, hok.2.later hw h⟩

end Transport

/-! ## Good code

Code that names no slot above the top one and touches only what it may. -/

/-- The size of the frame so far. -/
def topSlot (ctx : ℕ) (s : TranslationState) : ℕ := (s.ctxs.get ctx).historyTopSlot

/-- **Code that fits the frame of `ctx`** and only touches the slots `A` of it, and frames from `k`
on.  A loop never comes without the code that evaluates its limit. -/
structure CodeOk (E : Set ℕ) (ctx : ℕ) (A : Set ℕ) (k : ℕ) (s : TranslationState) (code : Code) :
    Prop where
  slots : ∀ slot ∈ code.slots, slot ≤ topSlot ctx s
  touches : ∀ t ∈ code.touches, t.Within E s A k
  loops : LoopsOk E s code
  not_forLoop : ∀ downto base body, code ≠ .forLoop downto base body

section CodeOk

variable {E : Set ℕ} {ctx : ℕ} {A : Set ℕ} {k : ℕ} {s s' : TranslationState} {c c' : Code}

/-- Code without a loop has good loops. -/
theorem LoopsOk.of_nil (hloops : c.loops = []) (hlimits : c.limits = []) : LoopsOk E s c where
  body l hl := by
    rw [hloops] at hl
    cases hl
  limit l hl := by
    rw [hlimits] at hl
    cases hl

theorem CodeOk.empty : CodeOk E ctx A k s .empty :=
  ⟨fun _ h => (by cases h), fun _ h => (by cases h), .of_nil rfl rfl, fun _ _ _ h => by cases h⟩

theorem CodeOk.op {i : Instr} (hs : ∀ slot ∈ i.slots, slot ≤ topSlot ctx s)
    (ht : ∀ t ∈ i.touches, t.Within E s A k) : CodeOk E ctx A k s (.op i) :=
  ⟨hs, ht, .of_nil rfl rfl, fun _ _ _ h => by cases h⟩

/-- Two pieces that are not a limit and its loop. -/
theorem LoopsOk.seq (h : LoopsOk E s c) (h' : LoopsOk E s c')
    (hbare : ∀ downto base body, c' ≠ .forLoop downto base body) : LoopsOk E s (.seq c c') where
  body l hl := (List.mem_append.mp hl).elim (h.body l) (h'.body l)
  limit l hl := by
    have hnone : c.limitBefore c' = [] := by
      cases c' with
      | forLoop downto base body => exact absurd rfl (hbare downto base body)
      | _ => rfl
    rw [Code.limits, hnone, List.nil_append] at hl
    exact (List.mem_append.mp hl).elim (h.limit l) (h'.limit l)

/-- Good code after good code. -/
theorem CodeOk.seq (h : CodeOk E ctx A k s c) (h' : CodeOk E ctx A k s c') :
    CodeOk E ctx A k s (.seq c c') where
  slots slot hs := (List.mem_append.mp hs).elim (h.slots slot) (h'.slots slot)
  touches t ht := (List.mem_append.mp ht).elim (h.touches t) (h'.touches t)
  loops := h.loops.seq h'.loops h'.not_forLoop
  not_forLoop _ _ _ h := by cases h

/-- A branch that fits. -/
def BranchOk (ctx : ℕ) (A : Set ℕ) (s : TranslationState) (b : Branch) : Prop :=
  b.cond ≤ topSlot ctx s ∧ ∀ slot ∈ b.store.writes, slot ≤ topSlot ctx s ∧ slot ∈ A

/-- A good branch names slots of the frame. -/
theorem BranchOk.slots {b : Branch} (h : BranchOk ctx A s b) :
    ∀ slot ∈ b.slots, slot ≤ topSlot ctx s := by
  intro slot hs
  rcases List.mem_cons.mp hs with rfl | hs
  · exact h.1
  · exact (h.2 slot hs).1

/-- A good branch touches what it may. -/
theorem BranchOk.touches {b : Branch} (h : BranchOk ctx A s b) :
    ∀ t ∈ b.touches, t.Within E s A k := by
  intro t ht
  obtain ⟨slot, hs, rfl⟩ := List.mem_map.mp ht
  exact (h.2 slot hs).2

theorem CodeOk.branch {b : Branch} (hb : BranchOk ctx A s b) (h : CodeOk E ctx A k s c) :
    CodeOk E ctx A k s (.branch b c) where
  slots slot hs := (List.mem_append.mp hs).elim (hb.slots slot) (h.slots slot)
  touches t ht := (List.mem_append.mp ht).elim (hb.touches t) (h.touches t)
  loops := ⟨h.loops.body, h.loops.limit⟩
  not_forLoop _ _ _ h := by cases h

/-- The loops of two pieces side by side. -/
theorem LoopsOk.both (h : LoopsOk E s c) (h' : LoopsOk E s c') {d : Code}
    (hloops : d.loops = c.loops ++ c'.loops) (hlimits : d.limits = c.limits ++ c'.limits) :
    LoopsOk E s d where
  body l hl := (List.mem_append.mp (hloops ▸ hl)).elim (h.body l) (h'.body l)
  limit l hl := (List.mem_append.mp (hlimits ▸ hl)).elim (h.limit l) (h'.limit l)

theorem CodeOk.branchElse {b : Branch} (hb : BranchOk ctx A s b) (h : CodeOk E ctx A k s c)
    (h' : CodeOk E ctx A k s c') : CodeOk E ctx A k s (.branchElse b c c') where
  slots slot hs := (List.mem_append.mp hs).elim (hb.slots slot) ((h.seq h').slots slot)
  touches t ht := (List.mem_append.mp ht).elim (hb.touches t) ((h.seq h').touches t)
  loops := h.loops.both h'.loops rfl rfl
  not_forLoop _ _ _ h := by cases h

theorem CodeOk.whileLoop {b : Branch} (h : CodeOk E ctx A k s c) (hb : BranchOk ctx A s b)
    (h' : CodeOk E ctx A k s c') : CodeOk E ctx A k s (.whileLoop c b c') where
  slots slot hs := (List.mem_append.mp hs).elim (h.slots slot) ((h'.branch hb).slots slot)
  touches t ht := (List.mem_append.mp ht).elim (h.touches t) ((h'.branch hb).touches t)
  loops := h.loops.both h'.loops rfl rfl
  not_forLoop _ _ _ h := by cases h

/-- **A counting loop, with the code that evaluates its limit.**  Both this and the body are good
inside the loop as well, where the loop's slots are no room to work in. -/
theorem CodeOk.forLoop {downto : Bool} {base : ℕ} {limit : Code} (htop : base + 2 ≤ topSlot ctx s)
    (hbase : base ∈ A) (hparam : base + 2 ∈ A) (hlimit : CodeOk E ctx A k s limit)
    (hlimitRoom : CodeOk E ctx (roomAround base 1) (base + 1) s limit) (h : CodeOk E ctx A k s c)
    (hloop : CodeOk E ctx (roomAround base 2) (base + 2) s c) :
    CodeOk E ctx A k s (.seq limit (.forLoop downto base c)) where
  slots slot hs := by
    simp only [Code.slots, List.mem_append, List.mem_cons] at hs
    rcases hs with hs | rfl | rfl | rfl | hs
    · exact hlimit.slots slot hs
    · omega
    · omega
    · exact htop
    · exact h.slots slot hs
  touches t ht := by
    simp only [Code.touches, List.mem_append, List.mem_cons] at ht
    rcases ht with ht | rfl | rfl | ht
    · exact hlimit.touches t ht
    · exact hbase
    · exact hparam
    · exact h.touches t ht
  loops := by
    constructor
    · intro l hl
      rcases List.mem_append.mp hl with hl | hl
      · exact hlimit.loops.body l hl
      · rcases List.mem_cons.mp hl with rfl | hl
        · exact hloop.touches
        · exact h.loops.body l hl
    · intro l hl
      rcases List.mem_append.mp hl with hl | hl
      · obtain rfl := List.mem_singleton.mp hl
        exact hlimitRoom.touches
      · exact (List.mem_append.mp hl).elim (hlimit.loops.limit l) (h.loops.limit l)
  not_forLoop _ _ _ h := by cases h

theorem CodeOk.inlined {start free : ℕ} (h : CodeOk E ctx A k s c) :
    CodeOk E ctx A k s (.inlined start free c) :=
  ⟨h.slots, h.touches, ⟨h.loops.body, h.loops.limit⟩, fun _ _ _ h => by cases h⟩

theorem CodeOk.result {start free : ℕ} (h : CodeOk E ctx A k s c) :
    CodeOk E ctx A k s (.result start free c) :=
  ⟨h.slots, h.touches, ⟨h.loops.body, h.loops.limit⟩, fun _ _ _ h => by cases h⟩

theorem CodeOk.assign {slot : ℕ} (h : CodeOk E ctx A k s c) : CodeOk E ctx A k s (.assign slot c) :=
  ⟨h.slots, h.touches, ⟨h.loops.body, h.loops.limit⟩, fun _ _ _ h => by cases h⟩

theorem CodeOk.mov {input : Operand} {output : ℕ} (hi : ∀ slot ∈ input.slots, slot ≤ topSlot ctx s)
    (ho : output ≤ topSlot ctx s) (hA : output ∈ A) :
    CodeOk E ctx A k s (.op (.mov input output)) := by
  refine .op (fun slot hs => ?_) fun t ht => ?_
  · rcases List.mem_cons.mp hs with rfl | hs
    · exact ho
    · exact hi slot hs
  · obtain rfl := List.mem_singleton.mp ht
    exact hA

theorem CodeOk.closeBefore {close : Bool} {base : ℕ} (hb : base ≤ topSlot ctx s)
    (h : CodeOk E ctx A k s c) : CodeOk E ctx A k s (closeBefore close base c) := by
  unfold Dsom.closeBefore
  split
  · refine CodeOk.seq (.op (fun slot hs => ?_) (by simp [Instr.touches])) h
    obtain rfl := List.mem_singleton.mp hs
    exact hb
  · exact h

/-- Good code stays good later. -/
theorem CodeOk.later (hok : CodeOk E ctx A k s c) (hw : Wf s) (hc : ctx < s.ctxs.size)
    (h : Later E s s') : CodeOk E ctx A k s' c where
  slots slot hs := (hok.slots slot hs).trans (h.ctx ctx hc).2.2
  touches t ht := (hok.touches t ht).later hw h
  loops := hok.loops.later hw h
  not_forLoop := hok.not_forLoop

end CodeOk

/-! ## Between two moments of the compilation -/

/-- The compiler has gone on in the same scope, and the code blocks it has finished on the way fit
their frames. -/
structure Passes (E : Set ℕ) (ctx bctx : ℕ) (s s' : TranslationState) : Prop where
  ext : Ext E s s'
  inv : Inv E ctx bctx s'
  blocks : ∀ c, s.ctxs.size ≤ c → c < s'.ctxs.size → BlockOk E s' c

section Passes

variable {E : Set ℕ} {ctx bctx : ℕ} {s s₁ s₂ : TranslationState}

theorem Passes.refl (hi : Inv E ctx bctx s) : Passes E ctx bctx s s :=
  ⟨Ext.refl E s, hi, fun _ hge hlt => absurd hlt hge.not_gt⟩

/-- One moment after another. -/
theorem Passes.trans (h : Passes E ctx bctx s s₁) (h' : Passes E ctx bctx s₁ s₂) :
    Passes E ctx bctx s s₂ where
  ext := h.ext.trans h'.ext
  inv := h'.inv
  blocks c hge hlt := by
    rcases Nat.lt_or_ge c s₁.ctxs.size with hc | hc
    · exact (h.blocks c hge hc).later h.inv.wf hc h'.ext.toLater
    · exact h'.blocks c hc hlt

/-- The top slot only goes up. -/
theorem Passes.top (h : Passes E ctx bctx s s₁) (hi : Inv E ctx bctx s) :
    topSlot ctx s ≤ topSlot ctx s₁ :=
  (h.ext.ctx ctx hi.here.ctx_lt).2.2

/-- Good code stays good until a later moment. -/
theorem Passes.codeOk {A : Set ℕ} {k : ℕ} {c : Code} (h : Passes E ctx bctx s s₁)
    (hi : Inv E ctx bctx s) (hok : CodeOk E ctx A k s c) : CodeOk E ctx A k s₁ c :=
  hok.later hi.wf hi.here.ctx_lt h.ext.toLater

end Passes

end Dsom
