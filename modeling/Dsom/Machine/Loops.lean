import Dsom.Machine.KeptSlots

/-!
# Machine/Loops — counting loops

`CheckForLoopStartCond` and `ForLoopStep` with the body between them.  While the body runs, by way
of calls and closures of its own, nothing writes the two slots that hold the counter and the limit
(`Loop.kept`); so each pass begins with the next number.  The counter is an `int32_t`, though: a
loop whose limit is the last one never ends.

In front of the loop the start is left in the counter's slot, and stays there while the limit is
evaluated (`Loop.evaluating`, `ready_of_start`).
-/

namespace Dsom

/-- A counting loop in a frame; `frame.todo` is what follows the loop. -/
structure Loop where
  downto : Bool
  base : ℕ
  body : Code
  frame : Frame
  rest : List Frame

namespace Loop

variable (L : Loop)

/-- The body keeps the counter and the limit, up to `ForLoopStep`. -/
def kept : Kept := ⟨L.base, 2, .forStep L.downto L.base L.body, trivial, L.frame, L.rest⟩

/-- What evaluates the limit keeps the counter, up to `CheckForLoopStartCond`. -/
def evaluating : Kept :=
  ⟨L.base, 1, .code (.forLoop L.downto L.base L.body), trivial, L.frame, L.rest⟩

/-- The loop is next. -/
def AtStart (s : VM) : Prop := s.frames =
  { L.frame with todo := .code (.forLoop L.downto L.base L.body) :: L.frame.todo } :: L.rest

/-- The body is next. -/
def AtBody (s : VM) : Prop :=
  s.frames = { L.frame with todo := .code L.body :: L.kept.again } :: L.rest

/-- The loop counter's slot. -/
def counter (s : VM) : Value := s.stack (L.frame.base + L.base)

/-- The slot above it, which holds the limit. -/
def limit (s : VM) : Value := s.stack (L.frame.base + L.base + 1)

/-- The parameter of the block: the first variable of its scope. -/
def param (s : VM) : Value := s.stack (L.frame.base + L.base + 2)

/-- An address that is not one of the loop's two slots. -/
def Spared (addr : ℕ) : Prop :=
  addr ≠ L.frame.base + L.base ∧ addr ≠ L.frame.base + L.base + 1

/-- **No open upvalue** is left behind in the loop's two slots. -/
def Clear (s : VM) : Prop := ∀ uv ptr, s.upvalues.get uv = .open ptr → L.Spared ptr

end Loop

section Running

variable (P : Program) (env : Environment) (L : Loop)

/-- Every pass that is begun comes to its end. -/
def BodiesComplete (s : VM) : Prop :=
  ∀ n t, steps P env n s = some t → L.AtBody t → ∃ t', Completes P env L.kept t t'

end Running

section Counting

variable {downto : Bool} {a b : BitVec 32}

end Counting

/-! ## The loop

`CheckForLoopStartCond` looks at the two slots first, and `ForLoopStep` after every pass. -/

/-- **A compiled loop is next**, with integers as its counter and its limit. -/
structure Loop.Ready (L : Loop) (P : Program) (a b : BitVec 32) (s : VM) : Prop where
  start : L.AtStart s
  func_lt : L.frame.func < s.funs.size
  compiled : ∃ menv fuel meth st m c, compileMethod menv fuel meth = .ok (P.blocks m, st) ∧
    (s.funs.get L.frame.func).code = some (m, c) ∧ c < (P.blocks m).size ∧
    (L.base, L.body) ∈ ((P.blocks m).get c).bytecode.loops
  counter : L.counter s = .int32 a
  limit : L.limit s = .int32 b

/-- The values of two slots. -/
def slotPair (x y : Value) : ℕ → Value
  | 0 => x
  | _ => y

/-- The loop's slots hold `x` and `y`, and its body leaves them alone. -/
def Loop.Safe (L : Loop) (P : Program) (code : ℕ × ℕ) (x y : Value) (s : VM) :
    Prop := L.kept.Safe P code (slotPair x y) s

section Loops

variable {P : Program} {env : Environment} {L : Loop} {code : ℕ × ℕ}
  {a b : BitVec 32} {x y : Value} {s s' : VM}

theorem Loop.spared_iff {addr : ℕ} : L.kept.Spared addr ↔ L.Spared addr := by
  unfold Kept.Spared Loop.Spared Loop.kept
  dsimp only
  omega

theorem Loop.clear_iff : L.kept.Clear s ↔ L.Clear s :=
  forall₂_congr fun _ _ => imp_congr_right fun _ => Loop.spared_iff

/-- What there is to check of a state. -/
theorem Loop.Safe.of_slots (hx : L.counter s = x) (hy : L.limit s = y) (hclear : L.kept.Clear s)
    (hfunc : L.frame.func < s.funs.size)
    (hcode : (s.funs.get L.frame.func).code = some code)
    (hsize : L.base + 2 ≤ ((P.blocks code.1).get code.2).stackFrameNumSlots) :
    L.Safe P code x y s where
  keeps i hi := by
    match i, hi with
    | 0, _ => exact hx
    | 1, _ => exact hy
  clear := hclear
  func_lt := hfunc
  size_le := hsize
  runs := hcode

theorem Loop.Safe.counter (h : L.Safe P code x y s) : L.counter s = x := h.keeps 0 Nat.zero_lt_two

theorem Loop.Safe.limit (h : L.Safe P code x y s) : L.limit s = y := h.keeps 1 Nat.one_lt_two

/-- A loop that is ready is safe, and its body spares the two slots. -/
theorem Loop.Ready.safe (h : L.Ready P a b s) (hclear : L.Clear s) : ∃ code : ℕ × ℕ,
    L.Safe P code (.int32 a) (.int32 b) s ∧
      ∀ t ∈ L.body.touches, t.Spares (P.blocks code.1) L.base 2 := by
  obtain ⟨menv, fuel, meth, st, m, c, hcomp, hcode, hc, hl⟩ := h.compiled
  exact ⟨(m, c), .of_slots h.counter h.limit (Loop.clear_iff.mpr hclear) h.func_lt hcode
    (lt_stackFrameNumSlots hcomp hc (mem_slots_of_mem_loops hl)).le,
    compileMethod_loops hcomp hc hl⟩

theorem steps_add {s'' : VM} : ∀ {n m : ℕ} {s : VM}, steps P env n s = some s' →
    steps P env m s' = some s'' → steps P env (n + m) s = some s''
  | 0, m, s, h, h' => by
    cases h
    rwa [Nat.zero_add]
  | n + 1, m, s, h, h' => by
    rw [steps] at h
    obtain ⟨s₁, hs, hr⟩ := Option.bind_eq_some_iff.mp h
    rw [Nat.add_right_comm, steps, hs]
    exact steps_add hr h'

/-- Bodies that complete still do so later. -/
theorem BodiesComplete.steps (h : BodiesComplete P env L s) {n : ℕ}
    (hn : steps P env n s = some s') : BodiesComplete P env L s' :=
  fun _ t hm ht => h _ t (steps_add hn hm) ht

theorem BodiesComplete.step (h : BodiesComplete P env L s) (hs : Dsom.step P env s = some s') :
    BodiesComplete P env L s' :=
  h.steps (n := 1) (by rw [Dsom.steps, hs]; rfl)

/-- A pass, with the body between `CheckForLoopStartCond` and `ForLoopStep`. -/
theorem Completes.pass (hc : Completes P env L.kept s s') (hbody : L.AtBody s)
    (hs : L.Safe P code (.int32 a) (.int32 b) s)
    (ht : ∀ t ∈ L.body.touches, t.Spares (P.blocks code.1) L.base 2) :
    L.Safe P code (.int32 a) (.int32 b) s' := by
  have hg : L.kept.Guarded P code (slotPair (.int32 a) (.int32 b)) s [] [.code L.body] := by
    refine ⟨hs, hbody, by simp, fun κ hκ => ?_⟩
    obtain rfl := List.mem_singleton.mp hκ
    exact ht
  exact hc.guarded hg

end Loops

/-! ## In front of the loop

A loop that has a value of its own keeps its start in a slot in front of the counter.  Then its
limit is evaluated, without the counter. -/

/-- What is between the start and the limit: a copy, unless the start is in its place. -/
def keepStart (start base : ℕ) : Code :=
  if start = base then .empty else .op (.mov (.local start) base)

/-- This is what the compiler puts there. -/
theorem keepStart_eq (isTopLevel : Bool) (clobberSlot : ℕ) :
    (if isTopLevel then Code.empty else .op (.mov (.local clobberSlot) (clobberSlot + 1))) =
      keepStart clobberSlot (if isTopLevel then clobberSlot else clobberSlot + 1) := by
  cases isTopLevel with
  | false => simp [keepStart]
  | true => simp [keepStart]

namespace Loop

variable (L : Loop)

/-- The start is done; its value is in the slot `start`. -/
def AtKeep (start : ℕ) (limit : Code) (s : VM) : Prop := s.frames =
  { L.frame with todo := .code (.seq (keepStart start L.base)
    (.seq limit (.forLoop L.downto L.base L.body))) :: L.frame.todo } :: L.rest

/-- The limit is next. -/
def AtLimit (limit : Code) (s : VM) : Prop :=
  s.frames = { L.frame with todo := .code limit :: L.evaluating.again } :: L.rest

/-- The compiled code that the frame runs has this loop, with this limit in front of it. -/
def Compiled (P : Program) (limit : Code) (s : VM) : Prop :=
  ∃ menv fuel meth st m c, compileMethod menv fuel meth = .ok (P.blocks m, st) ∧
    (s.funs.get L.frame.func).code = some (m, c) ∧ c < (P.blocks m).size ∧
    (L.base, limit) ∈ ((P.blocks m).get c).bytecode.limits ∧
    (L.base, L.body) ∈ ((P.blocks m).get c).bytecode.loops

end Loop

section Front

variable {P : Program} {env : Environment} {L : Loop} {start : ℕ} {limit : Code} {a b : BitVec 32}
  {s s₁ s' : VM}

/-- **The start is left in the counter's slot.** -/
theorem steps_atKeep (P : Program) (env : Environment) (h : L.AtKeep start limit s) :
    ∃ s₁, steps P env 3 s = some s₁ ∧ L.AtLimit limit s₁ ∧ s₁.upvalues = s.upvalues ∧
      s₁.funs = s.funs ∧ L.counter s₁ = s.stack (L.frame.base + start) := by
  rw [Loop.AtKeep] at h
  let s₁ : VM :=
    { s with frames := { L.frame with todo := .code limit :: L.evaluating.again } :: L.rest }
  by_cases hstart : start = L.base
  · rw [keepStart, if_pos hstart] at h
    refine ⟨s₁, ?_, rfl, rfl, rfl, by rw [hstart]; rfl⟩
    simp only [steps, step, h, decode, decodeCode, apply, Option.bind_some, VM.writeSlots]
    rfl
  · rw [keepStart, if_neg hstart] at h
    let value := s.stack (L.frame.base + start)
    have hcopy : L.counter (s₁.writeSlots L.frame.base [(L.base, value)]) = value := by
      simp [Loop.counter, VM.writeSlots]
    refine ⟨s₁.writeSlots L.frame.base [(L.base, value)], ?_, rfl, rfl, rfl, hcopy⟩
    simp only [steps, step, h, decode, decodeCode, decodeInstr, readOperand, readSlot, apply,
      Option.bind_some, VM.writeSlots]
    rfl

/-- **The start is still there when the limit has been evaluated.** -/
theorem Completes.ready (hc : Completes P env L.evaluating s s') (h : L.AtLimit limit s)
    (hcomp : L.Compiled P limit s) (hfunc : L.frame.func < s.funs.size)
    (hclear : L.evaluating.Clear s) (ha : L.counter s = .int32 a) (hb : L.limit s' = .int32 b) :
    L.Ready P a b s' := by
  obtain ⟨menv, fuel, meth, st, m, c, hok, hcode, hlt, hlimit, hbody⟩ := hcomp
  have hsize := lt_stackFrameNumSlots hok hlt (mem_slots_of_mem_loops hbody)
  have hs : L.evaluating.Safe P (m, c) (fun _ => .int32 a) s := by
    refine ⟨fun i hi => ?_, hclear, hfunc, ?_, hcode⟩
    · obtain rfl : i = 0 := Nat.lt_one_iff.mp hi
      exact ha
    · simp only [Loop.evaluating]
      omega
  have hg : L.evaluating.Guarded P (m, c) (fun _ => .int32 a) s [] [.code limit] := by
    refine ⟨hs, h, by simp, fun κ hκ => ?_⟩
    obtain rfl := List.mem_singleton.mp hκ
    exact compileMethod_limits hok hlt hlimit
  have hs' := hc.guarded hg
  exact ⟨hc.atNext, hs'.func_lt, ⟨menv, fuel, meth, st, m, c, hok, hs'.runs, hlt, hbody⟩,
    hs'.keeps 0 Nat.zero_lt_one, hb⟩

/-- **From the start to the loop**: with no open upvalue on the counter's slot, the loop begins
with the start. -/
theorem ready_of_start (h : L.AtKeep start limit s) (hcomp : L.Compiled P limit s)
    (hfunc : L.frame.func < s.funs.size) (hclear : L.evaluating.Clear s)
    (ha : s.stack (L.frame.base + start) = .int32 a) : ∃ s₁, steps P env 3 s = some s₁ ∧
      ∀ s', Completes P env L.evaluating s₁ s' → L.limit s' = .int32 b → L.Ready P a b s' := by
  obtain ⟨s₁, hsteps, hlimit, hup, hfuns, hcounter⟩ := steps_atKeep P env h
  refine ⟨s₁, hsteps, fun s' hc hb => hc.ready hlimit ?_ ?_ ?_ (hcounter.trans ha) hb⟩
  · rw [Loop.Compiled, hfuns]
    exact hcomp
  · rwa [hfuns]
  · rw [Kept.Clear, hup]
    exact hclear

end Front

/-! ## A loop with an empty body

It completes every time, so the counting can be seen on its own. -/

section Empty

variable {P : Program} {env : Environment} {L : Loop} {s s' : VM}

/-- A step of the loop's frame that writes nothing. -/
theorem Completes.run (κ : Kont) (konts konts' : List Kont)
    (hframes : s.frames = { L.frame with todo := κ :: konts ++ L.kept.again } :: L.rest)
    (hd : decode P env s { L.frame with todo := κ :: konts ++ L.kept.again } =
      some (.run [] (konts' ++ L.kept.again)))
    (hr : Completes P env L.kept { s with
      frames := { L.frame with todo := konts' ++ L.kept.again } :: L.rest } s') :
    Completes P env L.kept s s' := by
  refine .step (fun hstep => ?_) ⟨[], κ :: konts, hframes⟩ ?_ hr
  · have heq := congrArg Frame.todo (List.cons.inj (hframes.symm.trans hstep)).1
    have hlen := congrArg List.length heq
    simp only [List.length_append, List.length_cons] at hlen
    omega
  · rw [Dsom.step, hframes]
    simp only [hd, Option.bind_some, apply, VM.writeSlots]

end Empty

end Dsom
