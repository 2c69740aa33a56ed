import Dsom.Compiler.Code
import Dsom.Foundations.Arena

/-!
# Machine/State — the interpreter's state

The stack with its frames, the function objects and the upvalues, as the interpreter tier sees them.
Activations are numbered; the numbers, and who created a block, are not in the source.  What the
code calls but does not contain (classes, primitives, the arithmetic of doubles) is an
`Environment`.
-/

namespace Dsom

/-- `Upvalue`: it points into the stack while it is open. -/
inductive Upvalue where
  | open (ptr : ℕ)
  | closed (tv : Value)
  deriving DecidableEq

/-- An entry of `m_upvalues`: a value, or an `Upvalue`. -/
inductive Captured where
  | immutable (v : Value)
  | mutable (uv : ℕ)
  deriving DecidableEq

/-- `FunctionObject`: a code block of a method, or a library function.  `creator` is the activation
that made it. -/
structure FunctionObject where
  code : Option (ℕ × ℕ)
  upvalues : List Captured
  creator : ℕ

/-- What a frame has yet to do.  `receive` waits for a call and takes its value; `forward` hands it
on to the caller; `library` is the rest of a library function.  The other three end a part of the
tree. -/
inductive Kont where
  | code (c : Code)
  | forStep (downto : Bool) (base : ℕ) (body : Code)
  | endInlined (start free : ℕ)
  | endResult (start free : ℕ)
  | endAssign (slot : ℕ)
  | receive (output : ℕ)
  | forward
  | library

/-- A stack frame: `base` is the address of local 0. -/
structure Frame where
  act : ℕ
  func : ℕ
  base : ℕ
  todo : List Kont

/-- Fields of objects, by object and index. -/
abbrev Fields := ℕ → ℕ → Value

/-- The machine.  `headers` has `m_func` of the frame header in front of a base, also after the
frame is gone; `acts` has the function of each activation. -/
structure VM where
  frames : List Frame
  stack : ℕ → Value
  headers : ℕ → ℕ
  upvalues : Arena Upvalue
  funs : Arena FunctionObject
  acts : Arena ℕ
  fields : Fields
  globals : ℕ → Option Value
  returned : Value

/-- The code blocks of each method. -/
structure Program where
  blocks : ℕ → Arena UnlinkedCodeBlock

/-- How an operator or a lookup is answered: with a value, or by calling a function. -/
inductive Reply where
  | value (v : Value) (fields : Fields)
  | call (fn : ℕ) (args : List Value)

/-- What a library function does next; `room` is what it keeps of its frame. -/
inductive LibraryStep where
  | ret (v : Value)
  | call (fn room : ℕ) (args : List Value)
  | world (fields : Fields) (globals : ℕ → Option Value)

/-- What is outside the bytecode. -/
structure Environment where
  operator : VM → Operator → List Value → Reply
  arrayDup : VM → List AstLiteral → Value × Fields
  isObject : Value → Bool
  getMethod : VM → SOMReceiverKind → ℕ → Value → String → Option ℕ
  doesNotUnderstand : VM → Value → String → List Value → ℕ × List Value
  unknownGlobal : VM → Value → ℕ → ℕ × List Value
  escapedBlock : VM → Value → ℕ
  library : VM → LibraryStep
  loopNext : Bool → Value → Value
  loopPassed : Bool → Value → Value → Bool

/-! ## Upvalues

An open upvalue is a place on the stack, a closed one has a value of its own. -/

namespace VM

/-- The value an upvalue has. -/
def readUpvalue (s : VM) (uv : ℕ) : Value :=
  match s.upvalues.get uv with
  | .open ptr => s.stack ptr
  | .closed tv => tv

/-- `UpvalueAccessor::Put`. -/
def writeUpvalue (s : VM) (uv : ℕ) (v : Value) : VM :=
  match s.upvalues.get uv with
  | .open ptr => { s with stack := fun a => if a = ptr then v else s.stack a }
  | .closed _ => { s with upvalues := s.upvalues.modify uv fun _ => .closed v }

/-- `CloseUpvalues`. -/
def closeUpvalues (s : VM) (base : ℕ) : VM :=
  { s with upvalues := ⟨s.upvalues.size, fun i =>
      match s.upvalues.get i with
      | .open ptr => if base ≤ ptr then .closed (s.stack ptr) else .open ptr
      | .closed tv => .closed tv⟩ }

/-- Write slots of the frame at `base`. -/
def writeSlots (s : VM) (base : ℕ) : List (ℕ × Value) → VM
  | [] => s
  | (slot, v) :: ws =>
    writeSlots { s with stack := fun a => if a = base + slot then v else s.stack a } base ws

section WriteSlots

variable (s : VM) (base : ℕ) (ws : List (ℕ × Value))

/-- Writing slots changes the stack only. -/
theorem writeSlots_eq : s.writeSlots base ws =
    { s with stack := (s.writeSlots base ws).stack } := by
  induction ws generalizing s with
  | nil => rfl
  | cons w ws ih => exact ih _

@[simp] theorem frames_writeSlots : (s.writeSlots base ws).frames = s.frames := by
  rw [writeSlots_eq]

@[simp] theorem headers_writeSlots : (s.writeSlots base ws).headers = s.headers := by
  rw [writeSlots_eq]

@[simp] theorem upvalues_writeSlots : (s.writeSlots base ws).upvalues = s.upvalues := by
  rw [writeSlots_eq]

@[simp] theorem funs_writeSlots : (s.writeSlots base ws).funs = s.funs := by
  rw [writeSlots_eq]

@[simp] theorem acts_writeSlots : (s.writeSlots base ws).acts = s.acts := by
  rw [writeSlots_eq]

@[simp] theorem fields_writeSlots : (s.writeSlots base ws).fields = s.fields := by
  rw [writeSlots_eq]

@[simp] theorem globals_writeSlots : (s.writeSlots base ws).globals = s.globals := by
  rw [writeSlots_eq]

variable {s base ws}

/-- A slot that is not written keeps its value. -/
theorem stack_writeSlots_of_ne {a : ℕ} (h : ∀ w ∈ ws, a ≠ base + w.1) :
    (s.writeSlots base ws).stack a = s.stack a := by
  induction ws generalizing s with
  | nil => rfl
  | cons w ws ih =>
    rw [writeSlots, ih fun w' hw' => h w' (List.mem_cons_of_mem _ hw')]
    exact if_neg (h w List.mem_cons_self)

/-- Writes leave what is below them. -/
theorem stack_writeSlots_of_lt {a : ℕ} (h : a < base) :
    (s.writeSlots base ws).stack a = s.stack a :=
  stack_writeSlots_of_ne fun w _ => by omega

/-- The last write to a slot counts. -/
theorem stack_writeSlots_const {v : Value} (hv : ∀ w ∈ ws, w.2 = v) {slot : ℕ}
    (h : slot ∈ ws.map Prod.fst) : (s.writeSlots base ws).stack (base + slot) = v := by
  induction ws generalizing s with
  | nil => cases h
  | cons w ws ih =>
    rw [writeSlots]
    by_cases hmem : slot ∈ ws.map Prod.fst
    · exact ih (fun w' hw' => hv w' (List.mem_cons_of_mem _ hw')) hmem
    · have hslot : slot = w.1 := (List.mem_cons.mp h).resolve_right hmem
      rw [stack_writeSlots_of_ne fun w' hw' heq =>
        hmem (List.mem_map.mpr ⟨w', hw', (Nat.add_left_cancel heq).symm⟩)]
      simpa [hslot] using hv w List.mem_cons_self

/-- Arguments are written from a slot on. -/
theorem stack_writeSlots_zipIdx {args : List Value} {k i : ℕ} {v : Value} (h : args[i]? = some v) :
    (s.writeSlots base ((args.zipIdx k).map fun x => (x.2, x.1))).stack (base + (k + i)) = v := by
  induction args generalizing s k i with
  | nil => cases h
  | cons arg args ih =>
    rw [List.zipIdx_cons, List.map_cons, writeSlots]
    cases i with
    | zero =>
      cases h
      rw [stack_writeSlots_of_ne]
      · exact if_pos rfl
      · intro w hw
        obtain ⟨x, hx, rfl⟩ := List.mem_map.mp hw
        have := List.le_snd_of_mem_zipIdx hx
        simp only
        omega
    | succ i =>
      rw [← ih (k := k + 1) (i := i) h, Nat.add_right_comm, Nat.add_assoc]

end WriteSlots

end VM

/-- `Upvalue::Create`: there is at most one open upvalue for an address. -/
def createUpvalue (upvalues : Arena Upvalue) (ptr : ℕ) : Arena Upvalue × ℕ :=
  match (List.range upvalues.size).find? fun i => upvalues.get i = .open ptr with
  | some i => (upvalues, i)
  | none => (upvalues.push (.open ptr), upvalues.size)

/-- The loop of `CreateAndFillUpvalues`, for the function object `self` that goes into the slot
`selfOrdinal` of the frame at `base`. -/
def fillUpvalues (stack : ℕ → Value) (base self selfOrdinal : ℕ) (parent : List Captured) :
    List UpvalueMetadata → Arena Upvalue → Arena Upvalue × List Captured
  | [], upvalues => (upvalues, [])
  | uv :: uvs, upvalues =>
    if uv.isParentLocal then
      if uv.isImmutable then
        let v := if uv.slot = selfOrdinal then .function self else stack (base + uv.slot)
        let r := fillUpvalues stack base self selfOrdinal parent uvs upvalues
        (r.1, .immutable v :: r.2)
      else
        let c := createUpvalue upvalues (base + uv.slot)
        let r := fillUpvalues stack base self selfOrdinal parent uvs c.1
        (r.1, .mutable c.2 :: r.2)
    else
      let r := fillUpvalues stack base self selfOrdinal parent uvs upvalues
      (r.1, parent[uv.slot]?.getD (.immutable .nil) :: r.2)

/-! ## Functions -/

/-- The code block of a function; a library function has none. -/
def Program.block? (P : Program) (f : FunctionObject) : Option UnlinkedCodeBlock :=
  f.code.map fun c => (P.blocks c.1).get c.2

/-- `IsClosureMethod`. -/
def Program.isMethod (P : Program) (f : FunctionObject) : Bool :=
  match P.block? f with
  | some b => b.fnKind = .method
  | none => true

/-- What a frame of the function has to do at its entry. -/
def Program.entry (P : Program) (f : FunctionObject) : List Kont :=
  match P.block? f with
  | some b => [.code b.bytecode]
  | none => [.library]

end Dsom
