import Dsom.Machine.State

/-!
# Machine/Step — what the bytecodes do

A step of the machine reads the next thing to do of the top frame (`decode`) and does it (`apply`).
`decode` only reads the machine; all that a step can do to it is one of the few `Effect`s.
-/

namespace Dsom

/-- What a step does, `todo` being what remains for the frame.  Slots and bases are relative to the
frame. -/
inductive Effect where
  | run (writes : List (ℕ × Value)) (todo : List Kont)
  | world (fields : Fields) (globals : ℕ → Option Value) (writes : List (ℕ × Value))
      (todo : List Kont)
  | put (uv : ℕ) (v : Value) (todo : List Kont)
  | close (base : ℕ) (todo : List Kont)
  | closure (block output : ℕ) (todo : List Kont)
  | call (fn base : ℕ) (args : List Value) (todo : List Kont)
  | ret (v : Value)
  | throw (v : Value)

/-! ## Reading -/

section Read

variable (P : Program) (env : Environment) (s : VM) (f : Frame)

/-- The value in a slot of the frame. -/
def readSlot (slot : ℕ) : Value := s.stack (f.base + slot)

/-- The value of an operand. -/
def readOperand : Operand → Value
  | .local slot => readSlot s f slot
  | .cst v => v

/-- The captured value number `ord` of the running function. -/
def captured? (ord : ℕ) : Option Captured := (s.funs.get f.func).upvalues[ord]?

/-- Where `MakeCall` puts the callee: behind the frame. -/
def calleeBase : ℕ :=
  match P.block? (s.funs.get f.func) with
  | some b => b.stackFrameNumSlots + 4
  | none => 4

/-- Whether a branch is taken. -/
def branchTaken (v : Value) : BranchCond → Bool
  | .ifTrue => v = .bool true
  | .ifFalse => v = .bool false
  | .ifNil => v = .nil
  | .ifNotNil => v ≠ .nil

/-- What a conditional branch writes. -/
def branchWrites (v : Value) : BranchStore → List (ℕ × Value)
  | .nothing => []
  | .storeNil output => [(output, .nil)]
  | .copy output => [(output, v)]

/-- `CheckForLoopStartCond`: whether the body runs at all; doubles are the environment's. -/
def loopPassed (downto : Bool) (val limit : Value) : Bool :=
  match val, limit with
  | .int32 a, .int32 b => if downto then b.sle a else a.sle b
  | val, limit => env.loopPassed downto val limit

/-- The next value of the loop variable. -/
def loopNext (downto : Bool) : Value → Value
  | .int32 a => .int32 (if downto then a - 1 else a + 1)
  | val => env.loopNext downto val

/-- A reply to a bytecode with an output slot. -/
def Reply.effect (calleeBase output : ℕ) (globals : ℕ → Option Value) (todo : List Kont) :
    Reply → Effect
  | .value v fields => .world fields globals [(output, v)] todo
  | .call fn args => .call fn calleeBase args (.receive output :: todo)

/-! ## Calls -/

/-- `SOMMethodLookupResultKind`, with what the call bytecodes find. -/
inductive MethodLookup where
  | methodNotFound
  | callBaseNotObject
  | normalMethod (fn : ℕ)
  | literalReturn (v : Value)
  | globalReturn (v : Value)
  | selfReturn
  | getter (field : ℕ)
  | setter (field : ℕ)

/-- `c_funcTy` of a function. -/
def triviality (fn : ℕ) : Triviality :=
  match P.block? (s.funs.get fn) with
  | some b => b.trivialFn
  | none => .normalMethod

/-- `LookupObjectMethodImpl`: a method that returns a global is only short-cut if the global
exists. -/
def lookupObjectMethod (kind : SOMReceiverKind) (self : Value) (meth : String) : MethodLookup :=
  if env.isObject self then
    match env.getMethod s kind f.func self meth with
    | none => .methodNotFound
    | some fn =>
      match triviality P s fn with
      | .normalMethod => .normalMethod fn
      | .literalReturn v => .literalReturn v
      | .globalReturn index =>
        match s.globals index with
        | none => .normalMethod fn
        | some v => .globalReturn v
      | .selfReturn => .selfReturn
      | .getter field => .getter field
      | .setter field => .setter field
  else .callBaseNotObject

/-- A field of an object; nothing else has one. -/
def getField (self : Value) (index : ℕ) : Value :=
  match self with
  | .object ref => s.fields ref index
  | _ => .nil

/-- The fields after a store into one of them. -/
def putField (self : Value) (index : ℕ) (v : Value) : Fields :=
  match self with
  | .object ref => fun r i => if r = ref ∧ i = index then v else s.fields r i
  | _ => s.fields

/-- The receiver of a call: the argument in place, or the frame's own `self`. -/
def callReceiver (kind : SOMReceiverKind) (base : ℕ) : Value :=
  match kind with
  | .normal => readSlot s f (base + 4)
  | .objectSelf | .super => readSlot s f 0

/-- `SOMCall`, `SOMSelfCall` and `SOMSuperCall`.  The callee's frame is built in place, at `base`.
-/
def decodeCall (kind : SOMReceiverKind) (base : ℕ) (meth : String) (numArgs output : ℕ)
    (todo : List Kont) : Effect :=
  let self := callReceiver s f kind base
  let args := (List.range (numArgs - 1)).map fun i => readSlot s f (base + 5 + i)
  let receive := Kont.receive output :: todo
  let notFound :=
    let r := env.doesNotUnderstand s self meth args
    Effect.call r.1 (calleeBase P s f) r.2 receive
  match lookupObjectMethod P env s f kind self meth with
  | .methodNotFound => notFound
  | .callBaseNotObject =>
    match env.getMethod s kind f.func self meth with
    | none => notFound
    | some fn => .call fn (base + 4) (self :: args) receive
  | .normalMethod fn => .call fn (base + 4) (self :: args) receive
  | .literalReturn v => .run [(output, v)] todo
  | .globalReturn v => .run [(output, v)] todo
  | .selfReturn => .run [(output, self)] todo
  | .getter field => .run [(output, getField s self field)] todo
  | .setter field =>
    .world (putField s self field (readSlot s f (base + 5))) s.globals [(output, self)] todo

/-! ## Decoding

An instruction is decoded to its effect, which is then applied to the machine. -/

/-- What an instruction does. -/
def decodeInstr (i : Instr) (todo : List Kont) : Option Effect :=
  match i with
  | .mov input output => some (.run [(output, readOperand s f input)] todo)
  | .somArrayDup elements output =>
    let r := env.arrayDup s elements
    some (.world r.2 s.globals [(output, r.1)] todo)
  | .upvalueGetMutable ord output =>
    match captured? s f ord with
    | some (.mutable uv) => some (.run [(output, s.readUpvalue uv)] todo)
    | _ => none
  | .upvalueGetImmutable ord output =>
    match captured? s f ord with
    | some (.immutable v) => some (.run [(output, v)] todo)
    | _ => none
  | .upvaluePut ord value =>
    match captured? s f ord with
    | some (.mutable uv) => some (.put uv (readOperand s f value) todo)
    | _ => none
  | .upvalueClose base => some (.close base todo)
  | .somGetField index output =>
    some (.run [(output, getField s (readSlot s f 0) index)] todo)
  | .somPutField index value =>
    some (.world (putField s (readSlot s f 0) index (readOperand s f value)) s.globals [] todo)
  | .somGlobalGet index output =>
    match s.globals index with
    | some v => some (.run [(output, v)] todo)
    | none =>
      let r := env.unknownGlobal s (readSlot s f 0) index
      some (.call r.1 (calleeBase P s f) r.2 (.receive output :: todo))
  | .rangeFillNils base numToPut =>
    some (.run ((List.range numToPut).map fun i => (base + i, .nil)) todo)
  | .newClosure block output => some (.closure block output todo)
  | .operator op operands output =>
    some ((env.operator s op (operands.map (readOperand s f))).effect (calleeBase P s f) output
      s.globals todo)
  | .somCall kind base meth numArgs output =>
    some (decodeCall P env s f kind base meth numArgs output todo)
  | .ret retStart => some (.ret (readSlot s f retStart))
  | .somThrow value => some (.throw (readSlot s f value))

/-- What a piece of code does, up to the next one. -/
def decodeCode (c : Code) (todo : List Kont) : Option Effect :=
  match c with
  | .empty => some (.run [] todo)
  | .op i => decodeInstr P env s f i todo
  | .seq c c' => some (.run [] (.code c :: .code c' :: todo))
  | .branch b body =>
    let v := readSlot s f b.cond
    some (.run (branchWrites v b.store) (if branchTaken v b.on then todo else .code body :: todo))
  | .branchElse b body other =>
    let v := readSlot s f b.cond
    some (.run (branchWrites v b.store)
      (if branchTaken v b.on then .code other :: todo else .code body :: todo))
  | .whileLoop cond exit body =>
    some (.run [] (.code cond :: .code (.branch exit (.seq body (.whileLoop cond exit body))) ::
      todo))
  | .forLoop downto base body =>
    let val := readSlot s f base
    let limit := readSlot s f (base + 1)
    some (.run [(base + 2, val)]
      (if loopPassed env downto val limit then .code body :: .forStep downto base body :: todo
        else todo))
  | .inlined start free body => some (.run [] (.code body :: .endInlined start free :: todo))
  | .result start free value => some (.run [] (.code value :: .endResult start free :: todo))
  | .assign slot rhs => some (.run [] (.code rhs :: .endAssign slot :: todo))

/-- The next effect of the top frame. -/
def decode : Option Effect :=
  match f.todo with
  | [] => none
  | .code c :: todo => decodeCode P env s f c todo
  | .forStep downto base body :: todo =>
    let next := loopNext env downto (readSlot s f base)
    some (.run [(base, next), (base + 2, next)]
      (if loopPassed env downto next (readSlot s f (base + 1)) then
        .code body :: .forStep downto base body :: todo
        else todo))
  | .endInlined _ _ :: todo | .endResult _ _ :: todo | .endAssign _ :: todo => some (.run [] todo)
  | .receive _ :: _ | .forward :: _ => none
  | .library :: todo =>
    match env.library s with
    | .ret v => some (.ret v)
    | .call fn room args => some (.call fn (room + 4) args (.library :: todo))
    | .world fields globals => some (.world fields globals [] (.library :: todo))

end Read

/-! ## Doing -/

/-- Give `v` to the frames that wait for it. -/
def deliver (s : VM) (v : Value) : List Frame → Option VM
  | [] => some { s with frames := [], returned := v }
  | f :: rest =>
    match f.todo with
    | .receive output :: todo =>
      some (({ s with frames := { f with todo := todo } :: rest, returned := v } : VM).writeSlots
        f.base [(output, v)])
    | .library :: _ => some { s with frames := f :: rest, returned := v }
    | .forward :: _ => deliver s v rest
    | _ => none

/-- Enter a function, with the caller's frame `f` below it. -/
def enter (P : Program) (s : VM) (f : Frame) (rest : List Frame) (fn base : ℕ) (args : List Value) :
    Option VM :=
  if fn < s.funs.size then
    let callee : Frame := ⟨s.acts.size, fn, base, P.entry (s.funs.get fn)⟩
    some (({ s with
      frames := callee :: f :: rest
      headers := fun a => if a = base then fn else s.headers a
      acts := s.acts.push fn } : VM).writeSlots base (List.zipIdx args |>.map fun x => (x.2, x.1)))
  else none

/-- The loop of `ThrowTValueErrorImpl`: the base of the method's frame, or none if an upvalue on the
way is closed. -/
def findHome (P : Program) (s : VM) : ℕ → ℕ → Option (Option ℕ)
  | 0, _ => none
  | fuel + 1, block =>
    match (s.funs.get block).upvalues.head? with
    | some (.mutable uv) =>
      match s.upvalues.get uv with
      | .closed _ => some none
      | .open ptr =>
        if P.isMethod (s.funs.get (s.headers ptr)) then some (some ptr)
        else findHome P s fuel (s.headers ptr)
    | _ => none

/-- `ThrowTValueErrorImpl`. -/
def throwValue (P : Program) (env : Environment) (s : VM) (f : Frame) (rest : List Frame)
    (v : Value) :
    Option VM :=
  match findHome P s (s.funs.size + 1) f.func with
  | none => none
  | some (some home) =>
    match (f :: rest).dropWhile fun g => g.base ≠ home with
    | [] => none
    | _ :: callers => deliver ((s.closeUpvalues home).writeSlots home [(0, v)]) v callers
  | some none =>
    match (s.funs.get f.func).upvalues.head? with
    | some (.mutable uv) =>
      let blockSelf := s.readUpvalue uv
      enter P (s.closeUpvalues f.base) { f with todo := [.forward] } rest
        (env.escapedBlock s blockSelf) (f.base + 4) [blockSelf, .function f.func]
    | _ => none

/-- `NewClosureImpl`. -/
def makeClosure (P : Program) (s : VM) (f : Frame) (block output : ℕ) : VM :=
  match (s.funs.get f.func).code with
  | none => s
  | some (meth, _) =>
    let r := fillUpvalues s.stack f.base s.funs.size output (s.funs.get f.func).upvalues
      ((P.blocks meth).get block).upvalueInfo s.upvalues
    ({ s with
      upvalues := r.1
      funs := s.funs.push ⟨some (meth, block), r.2, f.act⟩ } : VM).writeSlots
        f.base [(output, .function s.funs.size)]

/-- The state after an effect of the top frame. -/
def apply (P : Program) (env : Environment) (s : VM) (f : Frame) (rest : List Frame) :
    Effect → Option VM
  | .run writes todo =>
    some (({ s with frames := { f with todo := todo } :: rest } : VM).writeSlots f.base writes)
  | .world fields globals writes todo =>
    some (({ s with
      frames := { f with todo := todo } :: rest
      fields := fields
      globals := globals } : VM).writeSlots f.base writes)
  | .put uv v todo =>
    some { s.writeUpvalue uv v with frames := { f with todo := todo } :: rest }
  | .close base todo =>
    some { s.closeUpvalues (f.base + base) with frames := { f with todo := todo } :: rest }
  | .closure block output todo =>
    some { makeClosure P s f block output with frames := { f with todo := todo } :: rest }
  | .call fn base args todo => enter P s { f with todo := todo } rest fn (f.base + base) args
  | .ret v => deliver s v rest
  | .throw v => throwValue P env s f rest v

/-- **One step.**  The machine stops when there is nothing left to do. -/
def step (P : Program) (env : Environment) (s : VM) : Option VM :=
  match s.frames with
  | [] => none
  | f :: rest => (decode P env s f).bind (apply P env s f rest)

/-- Several steps. -/
def steps (P : Program) (env : Environment) : ℕ → VM → Option VM
  | 0, s => some s
  | n + 1, s => (step P env s).bind (steps P env n)

end Dsom
