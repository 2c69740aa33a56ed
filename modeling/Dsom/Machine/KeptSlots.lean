import Dsom.Compiler.Frame
import Dsom.Machine.Trivial

/-!
# Machine/KeptSlots — code that leaves some slots alone

A stretch of a frame's code that spares some of its slots (`Touch.Spares`) leaves them as they are,
whatever it calls on the way: callees stand behind the slots, and no open upvalue points at them.
By induction over the steps of the machine, as long as the frame is in its place.
-/

namespace Dsom

/-! ## The slots and the code

A return value cannot come in where the stretch ends: the frame goes on by itself. -/

/-- What a frame goes on with by itself. -/
def Kont.IsOwn : Kont → Prop
  | .receive _ | .forward | .library => False
  | _ => True

/-- The `size` slots from `base` on of a frame, and where the code that keeps them ends: `next`
follows it, and `frame.todo` follows that. -/
structure Kept where
  base : ℕ
  size : ℕ
  next : Kont
  isOwn : next.IsOwn
  frame : Frame
  rest : List Frame

namespace Kept

variable (W : Kept)

/-- What remains when the code is done. -/
def again : List Kont := W.next :: W.frame.todo

/-- The code is done. -/
def AtNext (s : VM) : Prop := s.frames = { W.frame with todo := W.again } :: W.rest

/-- The code is under way: its frame is in its place. -/
def Inside (s : VM) : Prop :=
  ∃ above konts, s.frames = above ++ { W.frame with todo := konts ++ W.again } :: W.rest

/-- An address that is not one of the slots. -/
def Spared (addr : ℕ) : Prop :=
  addr < W.frame.base + W.base ∨ W.frame.base + W.base + W.size ≤ addr

/-- **No open upvalue** is left behind in the slots. -/
def Clear (s : VM) : Prop := ∀ uv ptr, s.upvalues.get uv = .open ptr → W.Spared ptr

end Kept

/-- The code runs to its end, and `s'` is the state then. -/
inductive Completes (P : Program) (env : Environment) (W : Kept) : VM → VM → Prop
  | done {s : VM} (h : W.AtNext s) : Completes P env W s s
  | step {s s' s'' : VM} (h : ¬ W.AtNext s) (hin : W.Inside s) (hs : step P env s = some s')
      (hr : Completes P env W s' s'') : Completes P env W s s''

/-! ## What the code can do

Every effect of the frame itself writes outside of the slots. -/

/-- The rest of code that spares the slots. -/
def Kont.Spares (blocks : Arena UnlinkedCodeBlock) (base size : ℕ) : Kont → Prop
  | .code c => ∀ t ∈ c.touches, t.Spares blocks base size
  | .forStep _ b body => (b ∈ roomAround base size ∧ b + 2 ∈ roomAround base size) ∧
      ∀ t ∈ body.touches, t.Spares blocks base size
  | .receive output => output ∈ roomAround base size
  | .endInlined _ _ | .endResult _ _ | .endAssign _ => True
  | .forward | .library => False

/-- What remains for the frame while the code is under way. -/
def Kept.TodoOk (W : Kept) (blocks : Arena UnlinkedCodeBlock) (todo : List Kont) : Prop :=
  ∃ konts, todo = konts ++ W.again ∧ ∀ κ ∈ konts, κ.Spares blocks W.base W.size

/-- An effect of the code. -/
def Kept.EffectOk (W : Kept) (blocks : Arena UnlinkedCodeBlock) : Effect → Prop
  | .run writes todo | .world _ _ writes todo =>
    (∀ w ∈ writes, w.1 ∈ roomAround W.base W.size) ∧ W.TodoOk blocks todo
  | .put _ _ todo | .close _ todo => W.TodoOk blocks todo
  | .closure block output todo => ((Touch.closure block).Spares blocks W.base W.size ∧
      output ∈ roomAround W.base W.size) ∧ W.TodoOk blocks todo
  | .call _ base _ todo => W.base + W.size ≤ base ∧ W.TodoOk blocks todo
  | .ret _ | .throw _ => True

section Decode

variable {P : Program} {env : Environment} {W : Kept} {blocks : Arena UnlinkedCodeBlock} {s : VM}
  {f : Frame} {todo : List Kont} {e : Effect}

/-- One more thing to do that spares the slots. -/
theorem Kept.TodoOk.cons {κ : Kont} (hκ : κ.Spares blocks W.base W.size)
    (h : W.TodoOk blocks todo) : W.TodoOk blocks (κ :: todo) := by
  obtain ⟨konts, rfl, hk⟩ := h
  refine ⟨κ :: konts, rfl, fun κ' hκ' => ?_⟩
  rcases List.mem_cons.mp hκ' with rfl | hκ'
  · exact hκ
  · exact hk κ' hκ'

/-- The effect of a library reply. -/
theorem Reply.effectOk {calleeBase output : ℕ} {globals : ℕ → Option Value} (r : Reply)
    (hcallee : W.base + W.size ≤ calleeBase) (ho : output ∈ roomAround W.base W.size)
    (h : W.TodoOk blocks todo) : W.EffectOk blocks (r.effect calleeBase output globals todo) := by
  cases r with
  | value v fields => exact ⟨by simpa using ho, h⟩
  | call fn args => exact ⟨hcallee, h.cons ho⟩

/-- The effect of a call. -/
theorem decodeCall_effectOk {kind : SOMReceiverKind} {base numArgs output : ℕ} {meth : String}
    (hcallee : W.base + W.size ≤ calleeBase P s f) (hbase : W.base + W.size ≤ base)
    (ho : output ∈ roomAround W.base W.size) (h : W.TodoOk blocks todo) :
    W.EffectOk blocks (decodeCall P env s f kind base meth numArgs output todo) := by
  have hw : ∀ v : Value, ∀ w ∈ [(output, v)], w.1 ∈ roomAround W.base W.size := fun _ => by
    simpa using ho
  have hr : W.TodoOk blocks (.receive output :: todo) := h.cons ho
  have hbase' : W.base + W.size ≤ base + 4 := by omega
  rw [decodeCall]
  split
  · exact ⟨hcallee, hr⟩
  · split
    · exact ⟨hcallee, hr⟩
    · exact ⟨hbase', hr⟩
  · exact ⟨hbase', hr⟩
  all_goals exact ⟨hw _, h⟩

/-- The effect of an instruction. -/
theorem decodeInstr_effectOk {i : Instr} (hi : ∀ t ∈ i.touches, t.Spares blocks W.base W.size)
    (hcallee : W.base + W.size ≤ calleeBase P s f) (h : W.TodoOk blocks todo)
    (hd : decodeInstr P env s f i todo = some e) : W.EffectOk blocks e := by
  have hw : ∀ {output : ℕ} {v : Value}, .write output ∈ i.touches →
      ∀ w ∈ [(output, v)], w.1 ∈ roomAround W.base W.size := by
    intro output v ho w hmem
    obtain rfl := List.mem_singleton.mp hmem
    exact hi _ ho
  cases i with simp only [decodeInstr] at hd
  | mov input output => cases hd; exact ⟨hw (by simp [Instr.touches]), h⟩
  | somArrayDup elements output => cases hd; exact ⟨hw (by simp [Instr.touches]), h⟩
  | upvalueGetMutable ord output =>
    split at hd <;> cases hd
    exact ⟨hw (by simp [Instr.touches]), h⟩
  | upvalueGetImmutable ord output =>
    split at hd <;> cases hd
    exact ⟨hw (by simp [Instr.touches]), h⟩
  | upvaluePut ord value =>
    split at hd <;> cases hd
    exact h
  | upvalueClose base => cases hd; exact h
  | somGetField index output => cases hd; exact ⟨hw (by simp [Instr.touches]), h⟩
  | somPutField index value => cases hd; exact ⟨by simp, h⟩
  | somGlobalGet index output =>
    have ho : output ∈ roomAround W.base W.size := hi (.write output) (by simp [Instr.touches])
    split at hd <;> cases hd
    · exact ⟨by simpa using ho, h⟩
    · exact ⟨hcallee, h.cons ho⟩
  | rangeFillNils base numToPut =>
    cases hd
    refine ⟨fun w hmem => ?_, h⟩
    obtain ⟨i, hlt, rfl⟩ := List.mem_map.mp hmem
    refine hi (.write (base + i)) (List.mem_map.mpr ⟨base + i, ?_, rfl⟩)
    rw [List.mem_range'_1]
    rw [List.mem_range] at hlt
    omega
  | newClosure block output =>
    cases hd
    exact ⟨⟨hi (.closure block) (by simp [Instr.touches]),
      hi (.write output) (by simp [Instr.touches])⟩, h⟩
  | operator op operands output =>
    cases hd
    exact Reply.effectOk _ hcallee (hi (.write output) (by simp [Instr.touches])) h
  | somCall kind base meth numArgs output =>
    cases hd
    exact decodeCall_effectOk hcallee (hi (.frame base) (by simp [Instr.touches]))
      (hi (.write output) (by simp [Instr.touches])) h
  | ret retStart => cases hd; trivial
  | somThrow value => cases hd; trivial

/-- The effect of structured code. -/
theorem decodeCode_effectOk {c : Code} (hc : ∀ t ∈ c.touches, t.Spares blocks W.base W.size)
    (hcallee : W.base + W.size ≤ calleeBase P s f) (h : W.TodoOk blocks todo)
    (hd : decodeCode P env s f c todo = some e) : W.EffectOk blocks e := by
  have hbranch : ∀ {b : Branch} {v : Value}, (∀ t ∈ b.touches, t.Spares blocks W.base W.size) →
      ∀ w ∈ branchWrites v b.store, w.1 ∈ roomAround W.base W.size := by
    rintro ⟨on, cond, store⟩ v hb w hw
    cases store with
    | nothing => cases hw
    | storeNil output =>
      obtain rfl := List.mem_singleton.mp hw
      exact hb (.write output) (List.mem_singleton_self _)
    | copy output =>
      obtain rfl := List.mem_singleton.mp hw
      exact hb (.write output) (List.mem_singleton_self _)
  have hcode : ∀ {c' : Code}, (∀ t ∈ c'.touches, t ∈ c.touches) →
      Kont.Spares blocks W.base W.size (.code c') := fun hsub t ht => hc t (hsub t ht)
  cases c with simp only [decodeCode] at hd
  | empty => cases hd; exact ⟨by simp, h⟩
  | op i => exact decodeInstr_effectOk hc hcallee h hd
  | seq c c' =>
    cases hd
    exact ⟨by simp, (h.cons (hcode fun t ht => List.mem_append_right _ ht)).cons
      (hcode fun t ht => List.mem_append_left _ ht)⟩
  | branch b body =>
    cases hd
    refine ⟨hbranch fun t ht => hc t (List.mem_append_left _ ht), ?_⟩
    split
    · exact h
    · exact h.cons (hcode fun t ht => List.mem_append_right _ ht)
  | branchElse b body other =>
    cases hd
    refine ⟨hbranch fun t ht => hc t (List.mem_append_left _ ht), ?_⟩
    split
    · exact h.cons (hcode fun t ht => List.mem_append_right _ (List.mem_append_right _ ht))
    · exact h.cons (hcode fun t ht => List.mem_append_right _ (List.mem_append_left _ ht))
  | whileLoop cond exit body =>
    cases hd
    refine ⟨by simp, (h.cons (hcode fun t ht => ?_)).cons
      (hcode fun t ht => List.mem_append_left _ ht)⟩
    -- the rest of the loop touches nothing new
    simp only [Code.touches, List.mem_append] at ht ⊢
    tauto
  | forLoop downto b body =>
    cases hd
    have hb : b ∈ roomAround W.base W.size ∧ b + 2 ∈ roomAround W.base W.size :=
      ⟨hc (.write b) (by simp [Code.touches]), hc (.write (b + 2)) (by simp [Code.touches])⟩
    have hbody : ∀ t ∈ body.touches, t.Spares blocks W.base W.size := fun t ht =>
      hc t (List.mem_cons_of_mem _ (List.mem_cons_of_mem _ ht))
    have hagain : Kont.Spares blocks W.base W.size (.forStep downto b body) := ⟨hb, hbody⟩
    have hcode : Kont.Spares blocks W.base W.size (.code body) := hbody
    refine ⟨by simpa using hb.2, ?_⟩
    split
    · exact (h.cons hagain).cons hcode
    · exact h
  | inlined start free body =>
    cases hd
    have hend : Kont.Spares blocks W.base W.size (.endInlined start free) := trivial
    exact ⟨by simp, (h.cons hend).cons hc⟩
  | result start free value =>
    cases hd
    have hend : Kont.Spares blocks W.base W.size (.endResult start free) := trivial
    exact ⟨by simp, (h.cons hend).cons hc⟩
  | assign slot rhs =>
    cases hd
    have hend : Kont.Spares blocks W.base W.size (.endAssign slot) := trivial
    exact ⟨by simp, (h.cons hend).cons hc⟩

/-- **The next effect spares the slots.** -/
theorem decode_effectOk {κ : Kont} {konts : List Kont} (htodo : f.todo = κ :: konts ++ W.again)
    (hk : ∀ κ' ∈ κ :: konts, κ'.Spares blocks W.base W.size)
    (hcallee : W.base + W.size ≤ calleeBase P s f) (hd : decode P env s f = some e) :
    W.EffectOk blocks e := by
  have hκ := hk κ List.mem_cons_self
  have h : W.TodoOk blocks (konts ++ W.again) :=
    ⟨konts, rfl, fun κ' hκ' => hk κ' (List.mem_cons_of_mem _ hκ')⟩
  rw [decode, htodo] at hd
  cases κ with simp only [List.cons_append] at hd
  | code c => exact decodeCode_effectOk hκ hcallee h hd
  | forStep downto b body =>
    cases hd
    refine ⟨by simpa using hκ.1, ?_⟩
    split
    · exact (h.cons hκ).cons hκ.2
    · exact h
  | endInlined start free => cases hd; exact ⟨by simp, h⟩
  | endResult start free => cases hd; exact ⟨by simp, h⟩
  | endAssign slot => cases hd; exact ⟨by simp, h⟩
  | receive output => cases hd
  | forward => exact hκ.elim
  | library => exact hκ.elim

end Decode

/-! ## What the code leaves alone

Callees only write behind the slots, and a value that comes back is written into a slot that the
frame does not keep. -/

/-- The slots hold `vals`, nothing points at them, and the frame runs `code`, whose callees begin
behind them. -/
structure Kept.Safe (W : Kept) (P : Program) (code : ℕ × ℕ) (vals : ℕ → Value) (s : VM) : Prop where
  keeps : ∀ i < W.size, s.stack (W.frame.base + W.base + i) = vals i
  clear : W.Clear s
  func_lt : W.frame.func < s.funs.size
  size_le : W.base + W.size ≤ ((P.blocks code.1).get code.2).stackFrameNumSlots
  runs : (s.funs.get W.frame.func).code = some code

section Safe

variable {P : Program} {env : Environment} {W : Kept} {code : ℕ × ℕ} {vals : ℕ → Value}
  {s s' : VM} {f : Frame}

/-- Only the stack, the upvalues and the functions matter. -/
theorem Kept.Safe.congr (h : W.Safe P code vals s) (hstack : s'.stack = s.stack)
    (hup : s'.upvalues = s.upvalues) (hfuns : s'.funs = s.funs) : W.Safe P code vals s' where
  keeps := by rw [hstack]; exact h.keeps
  clear := by rw [Kept.Clear, hup]; exact h.clear
  func_lt := by rw [hfuns]; exact h.func_lt
  size_le := h.size_le
  runs := by rw [hfuns]; exact h.runs

/-- What is above the slots is spared. -/
theorem Kept.spared_of_le {addr : ℕ} (h : W.frame.base + W.base + W.size ≤ addr) :
    W.Spared addr := .inr h

/-- So is the room around them. -/
theorem Kept.spared_of_mem {slot : ℕ} (h : slot ∈ roomAround W.base W.size) :
    W.Spared (W.frame.base + slot) := by
  rcases h with h | h
  · exact .inl (Nat.add_lt_add_left h _)
  · exact .inr (by omega)

/-- A spared address is none of the slots. -/
theorem Kept.Spared.ne {addr i : ℕ} (h : W.Spared addr) (hi : i < W.size) :
    W.frame.base + W.base + i ≠ addr := by
  rcases h with h | h <;> omega

/-- Writes elsewhere keep the slots. -/
theorem Kept.Safe.writeSlots (h : W.Safe P code vals s) {base : ℕ} {ws : List (ℕ × Value)}
    (hw : ∀ w ∈ ws, W.Spared (base + w.1)) : W.Safe P code vals (s.writeSlots base ws) where
  keeps i hi := by
    rw [VM.stack_writeSlots_of_ne fun w hm => (hw w hm).ne hi]
    exact h.keeps i hi
  clear := by
    rw [Kept.Clear, VM.upvalues_writeSlots]
    exact h.clear
  func_lt := by
    rw [VM.funs_writeSlots]
    exact h.func_lt
  size_le := h.size_le
  runs := by
    rw [VM.funs_writeSlots]
    exact h.runs

/-- So does a write to an upvalue. -/
theorem Kept.Safe.writeUpvalue (h : W.Safe P code vals s) (uv : ℕ) (v : Value) :
    W.Safe P code vals (s.writeUpvalue uv v) := by
  unfold VM.writeUpvalue
  split
  next ptr hopen =>
    have hspared := h.clear uv ptr hopen
    exact ⟨fun i hi => (if_neg (hspared.ne hi)).trans (h.keeps i hi), h.clear, h.func_lt, h.size_le,
      h.runs⟩
  next tv _ =>
    refine ⟨h.keeps, fun i ptr hi => ?_, h.func_lt, h.size_le, h.runs⟩
    by_cases heq : i = uv
    · subst heq
      rw [Arena.get_modify_self] at hi
      cases hi
    · rw [Arena.get_modify_of_ne _ heq] at hi
      exact h.clear i ptr hi

theorem Kept.Safe.closeUpvalues (h : W.Safe P code vals s) (base : ℕ) :
    W.Safe P code vals (s.closeUpvalues base) := by
  refine ⟨h.keeps, fun i ptr hi => ?_, h.func_lt, h.size_le, h.runs⟩
  simp only [VM.closeUpvalues] at hi
  split at hi
  next p hp =>
    split at hi
    · cases hi
    · cases hi
      exact h.clear i _ hp
  · cases hi

/-- A new upvalue of another slot. -/
theorem createUpvalue_clear {upvalues : Arena Upvalue} {dst : ℕ} (hdst : W.Spared dst)
    (h : ∀ uv ptr, upvalues.get uv = .open ptr → W.Spared ptr) :
    ∀ uv ptr, (createUpvalue upvalues dst).1.get uv = .open ptr → W.Spared ptr := by
  intro uv ptr huv
  unfold createUpvalue at huv
  split at huv
  · exact h uv ptr huv
  · simp only [Arena.push] at huv
    split at huv
    · cases huv
      exact hdst
    · exact h uv ptr huv

/-- All the upvalues of a new closure. -/
theorem fillUpvalues_clear {stack : ℕ → Value} {base self selfOrdinal : ℕ}
    {parent : List Captured} :
    ∀ (info : List UpvalueMetadata) {upvalues : Arena Upvalue},
    (∀ uv ∈ info, uv.isParentLocal → W.Spared (base + uv.slot)) →
    (∀ uv ptr, upvalues.get uv = .open ptr → W.Spared ptr) →
    ∀ uv ptr, (fillUpvalues stack base self selfOrdinal parent info upvalues).1.get uv = .open ptr →
      W.Spared ptr
  | [], _, _, h => h
  | uv :: info, upvalues, hinfo, h => by
    have hrest : ∀ uv ∈ info, uv.isParentLocal → W.Spared (base + uv.slot) :=
      fun u hu => hinfo u (List.mem_cons_of_mem _ hu)
    rw [fillUpvalues]
    split
    next hlocal =>
      split
      · exact fillUpvalues_clear info hrest h
      · exact fillUpvalues_clear info hrest
          (createUpvalue_clear (hinfo uv List.mem_cons_self hlocal) h)
    · exact fillUpvalues_clear info hrest h

/-- And making a closure that captures other slots. -/
theorem Kept.Safe.makeClosure (h : W.Safe P code vals s) {block output : ℕ}
    (hout : W.Spared (f.base + output))
    (hinfo : ∀ m c, (s.funs.get f.func).code = some (m, c) →
      ∀ uv ∈ ((P.blocks m).get block).upvalueInfo, uv.isParentLocal → W.Spared (f.base + uv.slot)) :
    W.Safe P code vals (makeClosure P s f block output) := by
  unfold Dsom.makeClosure
  split
  · exact h
  next m c hcode =>
    refine Kept.Safe.writeSlots ?_ (by simpa using hout)
    refine ⟨h.keeps, fillUpvalues_clear _ (hinfo m c hcode) h.clear,
      h.func_lt.trans (Nat.lt_succ_self _), h.size_le, ?_⟩
    rw [Arena.get_push_of_lt _ h.func_lt]
    exact h.runs

/-- **The code is under way and the slots are safe.** -/
structure Kept.Guarded (W : Kept) (P : Program) (code : ℕ × ℕ) (vals : ℕ → Value) (s : VM)
    (above : List Frame) (konts : List Kont) : Prop where
  safe : W.Safe P code vals s
  frames : s.frames = above ++ { W.frame with todo := konts ++ W.again } :: W.rest
  above : ∀ g ∈ above, W.frame.base + W.base + W.size ≤ g.base
  konts : ∀ κ ∈ konts, κ.Spares (P.blocks code.1) W.base W.size

/-- Inside the code there is at least one frame more. -/
theorem Kept.Inside.length_lt (h : W.Inside s) : W.rest.length < s.frames.length := by
  obtain ⟨above, konts, hframes⟩ := h
  rw [hframes]
  simp
  omega

/-- A value is delivered to a frame below. -/
theorem deliver_length {v : Value} : ∀ {fs : List Frame}, deliver s v fs = some s' →
    s'.frames.length ≤ fs.length
  | [], h => by
    cases h
    exact Nat.le_refl _
  | f :: rest, h => by
    unfold deliver at h
    split at h
    · cases h
      simp
    · cases h
      exact Nat.le_refl _
    · exact (deliver_length h).trans (Nat.le_succ _)
    · cases h

/-- A value that comes back to a frame which goes on by itself. -/
theorem deliver_of_isOwn {v : Value} {κ : Kont} {todo : List Kont} {rest : List Frame}
    (hκ : κ.IsOwn) (hf : f.todo = κ :: todo) : deliver s v (f :: rest) = none := by
  rw [deliver, hf]
  cases κ with
  | receive output => exact hκ.elim
  | forward => exact hκ.elim
  | library => exact hκ.elim
  | _ => rfl

/-- A value on its way to the frames above, or to the frame itself. -/
theorem deliver_guarded {v : Value} {konts : List Kont} (hs : W.Safe P code vals s)
    (hk : ∀ κ ∈ konts, κ.Spares (P.blocks code.1) W.base W.size) : ∀ {above : List Frame},
    (∀ g ∈ above, W.frame.base + W.base + W.size ≤ g.base) →
    deliver s v (above ++ { W.frame with todo := konts ++ W.again } :: W.rest) = some s' →
    ∃ above' konts', W.Guarded P code vals s' above' konts'
  | [], _, h => by
    cases konts with
    | nil =>
      rw [List.nil_append, deliver_of_isOwn W.isOwn rfl] at h
      cases h
    | cons κ konts =>
      have hκ := hk κ List.mem_cons_self
      cases κ with
      | receive output =>
        simp only [List.nil_append, deliver, List.cons_append, Option.some.injEq] at h
        subst h
        refine ⟨[], konts, ?_, by simp, by simp, fun κ hκ => hk κ (List.mem_cons_of_mem _ hκ)⟩
        refine Kept.Safe.writeSlots ?_ ?_
        · exact hs.congr rfl rfl rfl
        · simpa using Kept.spared_of_mem hκ
      | forward => exact hκ.elim
      | library => exact hκ.elim
      | _ => simp [deliver] at h
  | g :: above, habove, h => by
    have hg := habove g List.mem_cons_self
    have habove' : ∀ g' ∈ above, W.frame.base + W.base + W.size ≤ g'.base :=
      fun g' hg' => habove g' (List.mem_cons_of_mem _ hg')
    simp only [List.cons_append, deliver] at h
    split at h
    next output todo _ =>
      cases h
      refine ⟨{ g with todo := todo } :: above, konts, ?_, by simp, ?_, hk⟩
      · refine Kept.Safe.writeSlots ?_ ?_
        · exact hs.congr rfl rfl rfl
        · exact fun w _ => Kept.spared_of_le (by omega)
      · exact List.forall_mem_cons.mpr ⟨hg, habove'⟩
    · cases h
      exact ⟨g :: above, konts, hs.congr rfl rfl rfl, by simp, habove, hk⟩
    · exact deliver_guarded hs hk habove' h
    · cases h

/-- A call puts one frame on top. -/
theorem enter_frames {rest : List Frame} {fn base : ℕ} {args : List Value}
    (h : enter P s f rest fn base args = some s') :
    ∃ callee : Frame, s'.frames = callee :: f :: rest := by
  unfold enter at h
  split at h
  · cases h
    exact ⟨_, VM.frames_writeSlots _ _ _⟩
  · cases h

/-- A frame that only forwards has left the code. -/
theorem not_inside_forward {callee : Frame}
    (h : s.frames = callee :: { W.frame with todo := [.forward] } :: W.rest) : ¬ W.Inside s := by
  rintro ⟨above, konts, hframes⟩
  rw [h] at hframes
  have hlen := congrArg List.length hframes
  simp only [List.length_cons, List.length_append] at hlen
  obtain ⟨a, rfl⟩ := List.length_eq_one_iff.mp (by omega : above.length = 1)
  have htodo : [Kont.forward] = konts ++ W.again := by
    have heq := (List.cons.inj (List.cons.inj hframes).2).1
    exact congrArg Frame.todo heq
  have hlast := congrArg List.length htodo
  simp only [List.length_append, Kept.again, List.length_cons, List.length_nil] at hlast
  obtain rfl := List.length_eq_zero_iff.mp (by omega : konts.length = 0)
  have hnext : W.next = .forward := (List.cons.inj htodo).1.symm
  have hown := W.isOwn
  rw [hnext] at hown
  exact hown

/-- A call above the slots keeps them. -/
theorem enter_safe {rest : List Frame} {fn base : ℕ} {args : List Value}
    (hs : W.Safe P code vals s) (hbase : W.frame.base + W.base + W.size ≤ base)
    (h : enter P s f rest fn base args = some s') : W.Safe P code vals s' ∧
      ∃ callee : Frame, s'.frames = callee :: f :: rest ∧ callee.base = base := by
  unfold enter at h
  split at h
  · cases h
    refine ⟨Kept.Safe.writeSlots ?_ ?_, _, VM.frames_writeSlots _ _ _, rfl⟩
    · exact hs.congr rfl rfl rfl
    · exact fun w _ => Kept.spared_of_le (by omega)
  · cases h

/-- Where a search that succeeds in the first part of a list ends. -/
theorem dropWhile_append_of_mem {α : Type} {p : α → Bool} {r : List α} : ∀ {l : List α},
    (∃ a ∈ l, p a = false) →
    ∃ l₁ a l₂, l = l₁ ++ a :: l₂ ∧ p a = false ∧ (l ++ r).dropWhile p = a :: (l₂ ++ r)
  | [], h => by simp at h
  | b :: l, h => by
    cases hb : p b with
    | false => exact ⟨[], b, l, rfl, hb, by simp [hb]⟩
    | true =>
      obtain ⟨a, ha, hpa⟩ := h
      have hmem : a ∈ l := by
        rcases List.mem_cons.mp ha with rfl | ha
        · rw [hb] at hpa
          cases hpa
        · exact ha
      obtain ⟨l₁, a', l₂, rfl, hpa', hdrop⟩ := dropWhile_append_of_mem (r := r) ⟨a, hmem, hpa⟩
      exact ⟨b :: l₁, a', l₂, rfl, hpa', by simpa [hb] using hdrop⟩

/-- After a throw that stays inside the code, the slots are still guarded. -/
theorem throwValue_guarded {g : Frame} {rest : List Frame} {v : Value} {above : List Frame}
    {konts : List Kont} (h : W.Guarded P code vals s above konts)
    (hframes : s.frames = g :: rest) (ht : throwValue P env s g rest v = some s')
    (hin : W.Inside s') : ∃ above' konts', W.Guarded P code vals s' above' konts' := by
  have hlist : g :: rest = above ++ { W.frame with todo := konts ++ W.again } :: W.rest :=
    hframes.symm.trans h.frames
  unfold throwValue at ht
  split at ht
  · cases ht
  next home _ =>
    rw [hlist] at ht
    -- is the method's frame above?
    by_cases hmem : ∃ g' ∈ above, decide (g'.base ≠ home) = false
    · obtain ⟨l₁, g', l₂, rfl, hg', hdrop⟩ := dropWhile_append_of_mem hmem
      rw [hdrop] at ht
      have hbase := h.above g' (by simp)
      replace hg' : g'.base = home := by simpa using hg'
      refine deliver_guarded ?_ h.konts (fun g'' hg'' => h.above g'' (by simp [hg''])) ht
      refine (h.safe.closeUpvalues home).writeSlots fun w hw => ?_
      obtain rfl := List.mem_singleton.mp hw
      exact Kept.spared_of_le (by omega)
    · have hall : ∀ g' ∈ above, decide (g'.base ≠ home) = true := by
        intro g' hg'
        by_contra hne
        exact hmem ⟨g', hg', by simpa using hne⟩
      rw [List.dropWhile_append_of_pos hall] at ht
      split at ht
      · cases ht
      next callers hdrop =>
        have hlen := (List.dropWhile_suffix _).length_le.trans_eq' (congrArg List.length hdrop)
        have hle := deliver_length ht
        have hlt := hin.length_lt
        simp only [List.length_cons] at hlen
        omega
  · split at ht
    next uv _ =>
      cases above with
      | nil =>
        obtain ⟨rfl, rfl⟩ := List.cons.inj hlist
        obtain ⟨callee, hframes'⟩ := enter_frames ht
        exact absurd hin (not_inside_forward hframes')
      | cons g' above =>
        obtain ⟨rfl, rfl⟩ := List.cons.inj hlist
        have hg := h.above g List.mem_cons_self
        obtain ⟨hsafe, callee, hframes', hcallee⟩ :=
          enter_safe (h.safe.closeUpvalues g.base) (by omega) ht
        refine ⟨callee :: { g with todo := [.forward] } :: above, konts, hsafe, ?_, ?_, h.konts⟩
        · rw [hframes']
          rfl
        · refine List.forall_mem_cons.mpr ⟨by omega, List.forall_mem_cons.mpr ⟨hg, ?_⟩⟩
          exact fun g' hg' => h.above g' (List.mem_cons_of_mem _ hg')
    · cases ht

/-- An effect of the frame itself. -/
theorem apply_frame_guarded {konts : List Kont} {e : Effect}
    (h : W.Guarded P code vals s [] konts) (he : W.EffectOk (P.blocks code.1) e)
    (ha : apply P env s { W.frame with todo := konts ++ W.again } W.rest e = some s')
    (hin : W.Inside s') : ∃ above' konts', W.Guarded P code vals s' above' konts' := by
  have hroom : ∀ {ws : List (ℕ × Value)}, (∀ w ∈ ws, w.1 ∈ roomAround W.base W.size) →
      ∀ w ∈ ws, W.Spared (W.frame.base + w.1) := fun hw w hmem => Kept.spared_of_mem (hw w hmem)
  cases e with simp only [apply] at ha
  | run writes todo =>
    cases ha
    obtain ⟨hw, konts', rfl, hk⟩ := he
    refine ⟨[], konts', Kept.Safe.writeSlots ?_ (hroom hw), by simp, by simp, hk⟩
    exact h.safe.congr rfl rfl rfl
  | world fields globals writes todo =>
    cases ha
    obtain ⟨hw, konts', rfl, hk⟩ := he
    refine ⟨[], konts', Kept.Safe.writeSlots ?_ (hroom hw), by simp, by simp, hk⟩
    exact h.safe.congr rfl rfl rfl
  | put uv v todo =>
    cases ha
    obtain ⟨konts', rfl, hk⟩ := he
    exact ⟨[], konts', (h.safe.writeUpvalue uv v).congr rfl rfl rfl, rfl, by simp, hk⟩
  | close base todo =>
    cases ha
    obtain ⟨konts', rfl, hk⟩ := he
    exact ⟨[], konts', (h.safe.closeUpvalues _).congr rfl rfl rfl, rfl, by simp, hk⟩
  | closure block output todo =>
    cases ha
    obtain ⟨⟨hblock, hout⟩, konts', rfl, hk⟩ := he
    refine ⟨[], konts', Kept.Safe.congr (Kept.Safe.makeClosure h.safe ?_ ?_) rfl rfl rfl,
      rfl, by simp,
      hk⟩
    · exact Kept.spared_of_mem hout
    · intro m c hcode uv huv hlocal
      cases hcode.symm.trans h.safe.runs
      exact Kept.spared_of_mem (hblock uv huv hlocal)
  | call fn base args todo =>
    obtain ⟨hbase, konts', rfl, hk⟩ := he
    obtain ⟨hsafe, callee, hframes, hcallee⟩ := enter_safe h.safe (by omega) ha
    refine ⟨[callee], konts', hsafe, hframes, fun g hg => ?_, hk⟩
    obtain rfl := List.mem_singleton.mp hg
    omega
  | ret v =>
    have hlen := deliver_length ha
    have hlt := hin.length_lt
    omega
  | throw v => exact throwValue_guarded h (by rw [h.frames]; rfl) ha hin

/-- An effect of a frame above. -/
theorem apply_above_guarded {g : Frame} {above : List Frame} {konts : List Kont} {e : Effect}
    (h : W.Guarded P code vals s (g :: above) konts)
    (ha : apply P env s g (above ++ { W.frame with todo :=
    konts ++ W.again } :: W.rest) e = some s')
    (hin : W.Inside s') : ∃ above' konts', W.Guarded P code vals s' above' konts' := by
  obtain ⟨hg, habove⟩ := List.forall_mem_cons.mp h.above
  have habove' : ∀ todo, ∀ g' ∈ { g with todo := todo } :: above,
      W.frame.base + W.base + W.size ≤ g'.base :=
    fun todo => List.forall_mem_cons.mpr ⟨hg, habove⟩
  have hspared : ∀ slot, W.Spared (g.base + slot) := fun slot => Kept.spared_of_le (by omega)
  cases e with simp only [apply] at ha
  | run writes todo =>
    cases ha
    refine ⟨_, konts, Kept.Safe.writeSlots ?_ fun w _ => hspared _, by simp, habove' todo,
      h.konts⟩
    exact h.safe.congr rfl rfl rfl
  | world fields globals writes todo =>
    cases ha
    refine ⟨_, konts, Kept.Safe.writeSlots ?_ fun w _ => hspared _, by simp, habove' todo,
      h.konts⟩
    exact h.safe.congr rfl rfl rfl
  | put uv v todo =>
    cases ha
    exact ⟨_, konts, (h.safe.writeUpvalue uv v).congr rfl rfl rfl, rfl, habove' todo, h.konts⟩
  | close base todo =>
    cases ha
    exact ⟨_, konts, (h.safe.closeUpvalues _).congr rfl rfl rfl, rfl, habove' todo, h.konts⟩
  | closure block output todo =>
    cases ha
    refine ⟨_, konts, Kept.Safe.congr (Kept.Safe.makeClosure h.safe ?_ ?_) rfl rfl rfl, rfl,
      habove' todo, h.konts⟩
    · exact hspared output
    · exact fun _ _ _ uv _ _ => hspared uv.slot
  | call fn base args todo =>
    obtain ⟨hsafe, callee, hframes, hcallee⟩ := enter_safe h.safe (by omega) ha
    refine ⟨callee :: { g with todo := todo } :: above, konts, hsafe, hframes, ?_, h.konts⟩
    exact List.forall_mem_cons.mpr ⟨by omega, habove' todo⟩
  | ret v => exact deliver_guarded h.safe h.konts habove ha
  | throw v => exact throwValue_guarded h (by rw [h.frames]; rfl) ha hin

/-- **One step**: the slots are as they were, or the code is left for good. -/
theorem step_guarded {above : List Frame} {konts : List Kont}
    (h : W.Guarded P code vals s above konts) (hstep : ¬ W.AtNext s)
    (hs : step P env s = some s') (hin : W.Inside s') :
    ∃ above' konts', W.Guarded P code vals s' above' konts' := by
  rw [step, h.frames] at hs
  cases above with
  | nil =>
    obtain ⟨e, hd, ha⟩ := Option.bind_eq_some_iff.mp hs
    refine apply_frame_guarded h ?_ ha hin
    cases konts with
    | nil => exact absurd h.frames hstep
    | cons κ konts =>
      refine decode_effectOk rfl h.konts ?_ hd
      simp only [calleeBase, Program.block?, h.safe.runs, Option.map_some]
      exact h.safe.size_le.trans (Nat.le_add_right _ _)
  | cons g above =>
    obtain ⟨e, -, ha⟩ := Option.bind_eq_some_iff.mp hs
    exact apply_above_guarded h ha hin

/-- A run that completes begins inside the code. -/
theorem Completes.inside (h : Completes P env W s s') : W.Inside s := by
  cases h with
  | done h => exact ⟨[], [], h⟩
  | step _ hin => exact hin

/-- It ends behind the code. -/
theorem Completes.atNext (h : Completes P env W s s') : W.AtNext s' := by
  induction h with
  | done h => exact h
  | step _ _ _ _ ih => exact ih

/-- **The code leaves the slots alone.** -/
theorem Completes.guarded (hc : Completes P env W s s') : ∀ {above : List Frame}
    {konts : List Kont},
    W.Guarded P code vals s above konts → W.Safe P code vals s' := by
  induction hc with
  | done _ => exact fun h => h.safe
  | step hstep _ hs hr ih =>
    intro above konts h
    obtain ⟨above', konts', h'⟩ := step_guarded h hstep hs hr.inside
    exact ih h'

end Safe

end Dsom
