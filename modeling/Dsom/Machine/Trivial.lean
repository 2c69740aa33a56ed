import Dsom.Compiler.Trivial
import Dsom.Machine.Step

/-!
# Machine/Trivial — the short cuts of the call bytecodes

`SOMCall`, `SOMSelfCall` and `SOMSuperCall` do not enter a method that is classified as trivial.
Here is when that makes no difference: always, except for a setter whose parameter is hidden in its
body, and for a field or a global whose ordinal does not fit into an operand of the body.
-/

namespace Dsom

/-! ## Running until a return -/

/-- `s'` is the first state from `s` on with at most `depth` frames. -/
inductive Returns (P : Program) (env : Environment) (depth : ℕ) : VM → VM → Prop
  | done {s : VM} (h : s.frames.length ≤ depth) : Returns P env depth s s
  | step {s s' s'' : VM} (h : depth < s.frames.length) (hs : step P env s = some s')
      (hr : Returns P env depth s' s'') : Returns P env depth s s''

section Returns

variable {P : Program} {env : Environment} {depth : ℕ} {s s₁ s₂ : VM} {f : Frame}
    {rest : List Frame}
  {todo : List Kont}

/-- A run returns in one state. -/
theorem Returns.unique (h₁ : Returns P env depth s s₁) (h₂ : Returns P env depth s s₂) :
    s₁ = s₂ := by
  induction h₁ with
  | done hle =>
    cases h₂ with
    | done => rfl
    | step hlt => omega
  | step hlt hs _ ih =>
    cases h₂ with
    | done hle => omega
    | step _ hs' hr =>
      cases hs.symm.trans hs'
      exact ih hr

/-- One step of the top frame. -/
theorem Returns.head {e : Effect} (hframes : s.frames = f :: rest) (hdepth : depth ≤ rest.length)
    (hdecode : decode P env s f = some e) (happly : apply P env s f rest e = some s₁)
    (hr : Returns P env depth s₁ s₂) : Returns P env depth s s₂ :=
  .step (by rw [hframes]; exact Nat.lt_succ_of_le hdepth)
    (by rw [Dsom.step.eq_def, hframes]; simp only [hdecode, Option.bind_some, happly]) hr

end Returns

/-! ## What a trivial method does -/

/-- The value a trivial method returns to the receiver `self`. -/
def trivialValue (s : VM) (self : Value) : Triviality → Value
  | .literalReturn v => v
  | .globalReturn index => (s.globals index).getD .nil
  | .getter field => getField s self field
  | .selfReturn | .setter _ | .normalMethod => self

/-- The fields after it, where a setter puts `arg`. -/
def trivialFields (s : VM) (self arg : Value) : Triviality → Fields
  | .setter field => putField s self field arg
  | _ => s.fields

/-- The value depends on the globals and the fields. -/
theorem trivialValue_congr {s s' : VM} (hglobals : s'.globals = s.globals)
    (hfields : s'.fields = s.fields) : trivialValue s' = trivialValue s := by
  funext self t
  cases t <;> simp only [trivialValue, getField, hglobals, hfields]

/-- The fields depend on the fields. -/
theorem trivialFields_congr {s s' : VM} (hfields : s'.fields = s.fields) :
    trivialFields s' = trivialFields s := by
  funext self arg t
  cases t <;> simp only [trivialFields, putField, hfields]

/-- **The outcome of a call** from the frame `f`: the caller goes on with the value in `output`, and
nothing below the callee's frame at `base` has changed but that slot. -/
structure Outcome (s : VM) (f : Frame) (rest : List Frame) (todo : List Kont) (output base : ℕ)
    (v : Value) (fields : Fields) (s' : VM) : Prop where
  frames : s'.frames = { f with todo := todo } :: rest
  value : s'.stack (f.base + output) = v
  below : ∀ a < base, a ≠ f.base + output → s'.stack a = s.stack a
  fields : s'.fields = fields
  globals : s'.globals = s.globals

/-- A call that returns through a slot. -/
theorem Outcome.of_writeSlots {s s' : VM} {f : Frame} {rest : List Frame} {todo : List Kont}
    {output base : ℕ} {v : Value} {fields : Fields}
    (hframes : s'.frames = { f with todo := todo } :: rest)
    (hbelow : ∀ a < base, s'.stack a = s.stack a) (hfields : s'.fields = fields)
    (hglobals : s'.globals = s.globals) :
    Outcome s f rest todo output base v fields (s'.writeSlots f.base [(output, v)]) where
  frames := by rw [VM.frames_writeSlots, hframes]
  value := if_pos rfl
  below a ha hne := (if_neg hne).trans (hbelow a ha)
  fields := by rw [VM.fields_writeSlots, hfields]
  globals := by rw [VM.globals_writeSlots, hglobals]

/-- A call that a call bytecode short-cuts, of the first code block of the method `m`. -/
structure ShortCut (P : Program) (env : Environment) (s : VM) (f : Frame) (kind : SOMReceiverKind)
    (base : ℕ) (selector : String) (m fn : ℕ) : Prop where
  fn_lt : fn < s.funs.size
  code : (s.funs.get fn).code = some (m, 0)
  isObject : env.isObject (callReceiver s f kind base)
  found : env.getMethod s kind f.func (callReceiver s f kind base) selector = some fn
  taken : lookupObjectMethod P env s f kind (callReceiver s f kind base) selector ≠ .normalMethod fn

section ShortCut

variable {P : Program} {env : Environment} {s : VM} {f : Frame} {kind : SOMReceiverKind}
  {base : ℕ} {selector : String} {m fn : ℕ}

/-- The global of a method that is short-cut exists, and the method is trivial. -/
theorem ShortCut.trivial (h : ShortCut P env s f kind base selector m fn) :
    ((P.blocks m).get 0).trivialFn ≠ .normalMethod ∧
      ∀ index, ((P.blocks m).get 0).trivialFn = .globalReturn index →
        (s.globals index).isSome := by
  have ht := h.taken
  have htriv : triviality P s fn = ((P.blocks m).get 0).trivialFn := by
    rw [triviality, Program.block?, h.code]
    rfl
  simp only [lookupObjectMethod, h.isObject, h.found, htriv, if_true] at ht
  refine ⟨fun hn => ht (by simp only [hn]), fun index hindex => ?_⟩
  rw [hindex] at ht
  cases hg : s.globals index with
  | none => exact absurd (by simp only [hg]) ht
  | some v => rfl

/-- **The short cut.** -/
theorem ShortCut.outcome (h : ShortCut P env s f kind base selector m fn) (rest : List Frame)
    (todo : List Kont) (numArgs output bound : ℕ) :
    ∃ s₁, apply P env s f rest (decodeCall P env s f kind base selector numArgs output todo) =
        some s₁ ∧
      Outcome s f rest todo output bound
        (trivialValue s (callReceiver s f kind base) ((P.blocks m).get 0).trivialFn)
        (trivialFields s (callReceiver s f kind base) (readSlot s f (base + 5))
          ((P.blocks m).get 0).trivialFn) s₁ := by
  obtain ⟨hne, hglobal⟩ := h.trivial
  have htriv : triviality P s fn = ((P.blocks m).get 0).trivialFn := by
    rw [triviality, Program.block?, h.code]
    rfl
  simp only [decodeCall, lookupObjectMethod, h.isObject, h.found, htriv, if_true]
  cases ht : ((P.blocks m).get 0).trivialFn with
  | normalMethod => exact absurd ht hne
  | globalReturn index =>
    obtain ⟨v, hv⟩ := Option.isSome_iff_exists.mp (hglobal index ht)
    simp only [hv, trivialValue, trivialFields, Option.getD_some]
    exact ⟨_, rfl, .of_writeSlots rfl (fun _ _ => rfl) rfl rfl⟩
  | _ => exact ⟨_, rfl, .of_writeSlots rfl (fun _ _ => rfl) rfl rfl⟩

end ShortCut

/-! ## What its body does -/

section Body

variable (P : Program) (env : Environment) {s s' : VM} {f : Frame} {rest : List Frame}
  {todo : List Kont} {act fn base output slot : ℕ} {t : Triviality}

/-- The end of a body. -/
theorem returnCode_returns (close : Bool) (start : ℕ)
    (hframes : s.frames = ⟨act, fn, base, [.code (returnCode close start)]⟩ ::
      { f with todo := .receive output :: todo } :: rest) :
    ∃ s', Returns P env (rest.length + 1) s s' ∧
      Outcome s f rest todo output base (s.stack (base + start)) s.fields s' := by
  have hret {s : VM} (hframes : s.frames = ⟨act, fn, base, [.code (.op (.ret start))]⟩ ::
      { f with todo := .receive output :: todo } :: rest) :
      ∃ s', Returns P env (rest.length + 1) s s' ∧
        Outcome s f rest todo output base (s.stack (base + start)) s.fields s' :=
    ⟨_, .head hframes (le_refl _) rfl rfl (.done (by simp)),
      .of_writeSlots rfl (fun _ _ => rfl) rfl rfl⟩
  cases close with
  | false => exact hret hframes
  | true =>
    obtain ⟨s', hr, h⟩ := hret (s := { s.closeUpvalues (base + 0) with
      frames := ⟨act, fn, base, [.code (.op (.ret start))]⟩ ::
        { f with todo := .receive output :: todo } :: rest }) rfl
    exact ⟨s', .head hframes (le_refl _) rfl rfl (.head rfl (le_refl _) rfl rfl hr),
      h.frames, h.value, h.below, h.fields, h.globals⟩

/-- The one instruction that reads the value. -/
theorem decodeInstr_valueInstr {i : Instr} (hi : valueInstr output t = some i)
    (hglobal : ∀ index, t = .globalReturn index → (s.globals index).isSome) (frames : List Frame)
    (g : Frame) : decodeInstr P env { s with frames := frames } g i todo =
      some (.run [(output, trivialValue s (s.stack g.base) t)] todo) := by
  cases t with
  | globalReturn index =>
    cases hi
    obtain ⟨v, hv⟩ := Option.isSome_iff_exists.mp (hglobal index rfl)
    simp only [decodeInstr, hv, trivialValue, Option.getD_some]
  | _ => cases hi <;> rfl

/-- What happened before the rest of a body. -/
theorem Outcome.of_prefix {v : Value} {fields : Fields} {s₁ : VM}
    (h : Outcome s₁ f rest todo output base v fields s')
    (hbelow : ∀ a < base, s₁.stack a = s.stack a) (hglobals : s₁.globals = s.globals) :
    Outcome s f rest todo output base v fields s' :=
  { h with
    below := fun a ha hne => (h.below a ha hne).trans (hbelow a ha)
    globals := h.globals.trans hglobals }

/-- A value, and its return. -/
theorem value_returns {i : Instr} {close : Bool} {start : ℕ} (hi : valueInstr start t = some i)
    (hglobal : ∀ index, t = .globalReturn index → (s.globals index).isSome)
    (hframes : s.frames = ⟨act, fn, base, [.code (.seq (.op i) (returnCode close start))]⟩ ::
      { f with todo := .receive output :: todo } :: rest) :
    ∃ s', Returns P env (rest.length + 1) s s' ∧
      Outcome s f rest todo output base (trivialValue s (s.stack base) t) s.fields s' := by
  let s₁ : VM := ({ s with
    frames := ⟨act, fn, base, [.code (returnCode close start)]⟩ ::
      { f with todo := .receive output :: todo } :: rest } : VM).writeSlots base
        [(start, trivialValue s (s.stack base) t)]
  have hframes₁ : s₁.frames = ⟨act, fn, base, [.code (returnCode close start)]⟩ ::
      { f with todo := .receive output :: todo } :: rest := rfl
  obtain ⟨s', hr, h⟩ := returnCode_returns P env close start hframes₁
  refine ⟨s', .head hframes (le_refl _) rfl rfl
    (.head rfl (le_refl _) (decodeInstr_valueInstr P env hi hglobal _ _) rfl hr), ?_⟩
  have hvalue : s'.stack (f.base + output) = trivialValue s (s.stack base) t :=
    h.value.trans (VM.stack_writeSlots_const (by simp) (by simp))
  refine Outcome.of_prefix { h with value := hvalue } (fun a ha => ?_) rfl
  exact VM.stack_writeSlots_of_lt ha

/-- The assignment of a setter. -/
theorem put_returns {field : ℕ} {tail : Code} {v : Value} {fields : Fields}
    (hframes : s.frames =
      ⟨act, fn, base, [.code (.seq (.seq (.op (.somPutField field (.local slot))) .empty) tail)]⟩ ::
      { f with todo := .receive output :: todo } :: rest)
    (htail : ∀ s₁ : VM, s₁ = { s with
        frames := ⟨act, fn, base, [.code tail]⟩ ::
          { f with todo := .receive output :: todo } :: rest
        fields := putField s (s.stack base) field (s.stack (base + slot)) } →
      ∃ s', Returns P env (rest.length + 1) s₁ s' ∧
        Outcome s₁ f rest todo output base v fields s') :
    ∃ s', Returns P env (rest.length + 1) s s' ∧
      Outcome s f rest todo output base v fields s' := by
  obtain ⟨s', hr, h⟩ := htail _ rfl
  exact ⟨s', .head hframes (le_refl _) rfl rfl (.head rfl (le_refl _) rfl rfl
    (.head rfl (le_refl _) rfl rfl (.head rfl (le_refl _) rfl rfl hr))),
      h.of_prefix (fun _ _ => rfl) rfl⟩

/-- **The body of a trivial method.** -/
theorem TrivialCode.returns {code : Code} (h : TrivialCode slot t code)
    (hglobal : ∀ index, t = .globalReturn index → (s.globals index).isSome)
    (hframes : s.frames = ⟨act, fn, base, [.code code]⟩ ::
      { f with todo := .receive output :: todo } :: rest) :
    ∃ s', Returns P env (rest.length + 1) s s' ∧
      Outcome s f rest todo output base (trivialValue s (s.stack base) t)
        (trivialFields s (s.stack base) (s.stack (base + slot)) t) s' := by
  cases h with
  | empty => exact returnCode_returns P env false 0 hframes
  | value start close hi =>
    have hfields : trivialFields s (s.stack base) (s.stack (base + slot)) t = s.fields := by
      cases t <;> first | rfl | cases hi
    rw [hfields]
    exact value_returns P env hi hglobal hframes
  | setter field close =>
    refine put_returns P env hframes ?_
    rintro _ rfl
    exact returnCode_returns P env close 0 rfl
  | setterSelf field start close =>
    refine put_returns P env hframes ?_
    rintro _ rfl
    exact value_returns P env (t := .selfReturn) rfl (by simp) rfl

/-- Clearing the locals of a method. -/
theorem fillLocals_returns {meth : AstMethod} {code : Code} {v : Value} {fields : Fields}
    (hframes : s.frames = ⟨act, fn, base, [.code (.seq (fillLocals meth) code)]⟩ ::
      { f with todo := .receive output :: todo } :: rest)
    (hcode : ∀ s₁ : VM, s₁.frames = ⟨act, fn, base, [.code code]⟩ ::
          { f with todo := .receive output :: todo } :: rest → s₁.fields = s.fields →
        s₁.globals = s.globals →
        (∀ a < base + (1 + meth.params.length), s₁.stack a = s.stack a) →
        (∀ i < meth.locals.length, s₁.stack (base + (1 + meth.params.length + i)) = .nil) →
      ∃ s', Returns P env (rest.length + 1) s₁ s' ∧
        Outcome s₁ f rest todo output base v fields s') :
    ∃ s', Returns P env (rest.length + 1) s s' ∧
      Outcome s f rest todo output base v fields s' := by
  have hfill : ∃ s₁ : VM, s₁.frames = ⟨act, fn, base, [.code code]⟩ ::
        { f with todo := .receive output :: todo } :: rest ∧
      s₁.fields = s.fields ∧ s₁.globals = s.globals ∧
      (∀ a < base + (1 + meth.params.length), s₁.stack a = s.stack a) ∧
      (∀ i < meth.locals.length, s₁.stack (base + (1 + meth.params.length + i)) = .nil) ∧
      ∀ s', Returns P env (rest.length + 1) s₁ s' → Returns P env (rest.length + 1) s s' := by
    let s₁ : VM := { s with
      frames := ⟨act, fn, base, [.code code]⟩ ::
        { f with todo := .receive output :: todo } :: rest }
    rw [fillLocals] at hframes
    split at hframes
    next hnil =>
      refine ⟨s₁, rfl, rfl, rfl, fun _ _ => rfl, fun i hi => ?_, fun s' hr =>
        .head hframes (le_refl _) rfl rfl (.head rfl (le_refl _) rfl rfl hr)⟩
      simp [hnil] at hi
    next =>
      refine ⟨s₁.writeSlots base ((List.range meth.locals.length).map fun i =>
        (1 + meth.params.length + i, .nil)), VM.frames_writeSlots _ _ _, VM.fields_writeSlots _ _ _,
        VM.globals_writeSlots _ _ _,
        fun a ha => ?_, fun i hi => ?_, fun s' hr =>
        .head hframes (le_refl _) rfl rfl (.head rfl (le_refl _) rfl rfl hr)⟩
      · refine (VM.stack_writeSlots_of_ne fun w hw => ?_).trans rfl
        obtain ⟨i, -, rfl⟩ := List.mem_map.mp hw
        simp only
        omega
      · refine VM.stack_writeSlots_const (fun w hw => ?_) ?_
        · obtain ⟨i, -, rfl⟩ := List.mem_map.mp hw
          rfl
        · simpa using hi
  obtain ⟨s₁, hframes₁, hfields, hglobals, hbelow, hnil, hr⟩ := hfill
  obtain ⟨s', hr', h⟩ := hcode s₁ hframes₁ hfields hglobals hbelow hnil
  exact ⟨s', hr s' hr', h.of_prefix (fun a ha => hbelow a (by omega)) hglobals⟩

end Body

/-! ## Agreement

A short cut agrees if the body returns with the same outcome. -/

/-- The call of the method's body, as a call bytecode makes it. -/
def bodyCall (s : VM) (f : Frame) (kind : SOMReceiverKind) (base fn numArgs output : ℕ)
    (todo : List Kont) : Effect :=
  .call fn (base + 4) (callReceiver s f kind base ::
    (List.range (numArgs - 1)).map fun i => readSlot s f (base + 5 + i)) (.receive output :: todo)

/-- **The short cuts of a method agree with its body**: wherever a call bytecode takes one, running
the body instead returns to the caller with the same value, and the fields, the globals and the
stack below the body's frame are the same. -/
def ShortCutsAgree (blocks : Arena UnlinkedCodeBlock) (numArgs : ℕ) : Prop :=
  ∀ (P : Program) (env : Environment) (s : VM) (f : Frame) (rest : List Frame)
    (kind : SOMReceiverKind) (base : ℕ) (selector : String) (m fn output : ℕ) (todo : List Kont),
    P.blocks m = blocks → ShortCut P env s f kind base selector m fn →
    ∃ s₁ s₀ s₂,
      apply P env s f rest (decodeCall P env s f kind base selector numArgs output todo) = some s₁ ∧
      apply P env s f rest (bodyCall s f kind base fn numArgs output todo) = some s₀ ∧
      Returns P env (rest.length + 1) s₀ s₂ ∧
      s₂.frames = s₁.frames ∧ s₂.fields = s₁.fields ∧ s₂.globals = s₁.globals ∧
      ∀ a, a < f.base + (base + 4) ∨ a = f.base + output → s₂.stack a = s₁.stack a

/-- A setter whose body means something else by the name of its parameter. -/
def HidesParameter (meth : AstMethod) : Prop :=
  ∃ param field, meth.params = [param] ∧ SetterBody field param meth.body ∧
    (param ∈ meth.locals ∨ param = "self" ∨ param = "super")

section Agreement

variable {P : Program} {env : Environment} {s : VM} {f : Frame} {kind : SOMReceiverKind}
  {base m fn : ℕ} {selector : String} {meth : AstMethod} {slot : ℕ} {code : Code}
  {blocks : Arena UnlinkedCodeBlock}

/-- What the body of a trivial method finds in the slot it puts. -/
def bodyArg (s : VM) (f : Frame) (kind : SOMReceiverKind) (base : ℕ) (meth : AstMethod)
    (slot : ℕ) : Value :=
  if slot = 0 then callReceiver s f kind base
  else if slot < 1 + meth.params.length then readSlot s f (base + 4 + slot)
  else .nil

/-- **Running the body**, whose global exists. -/
theorem ShortCut.body (h : ShortCut P env s f kind base selector m fn) (rest : List Frame)
    (todo : List Kont) (output : ℕ) {t : Triviality} (hcode : TrivialCode slot t code)
    (hglobal : ∀ index, t = .globalReturn index → (s.globals index).isSome)
    (hbytecode : ((P.blocks m).get 0).bytecode = .seq (fillLocals meth) code)
    (hslot : slot < 1 + meth.params.length + meth.locals.length) :
    ∃ s₀ s₂, apply P env s f rest
        (bodyCall s f kind base fn (meth.params.length + 1) output todo) = some s₀ ∧
      Returns P env (rest.length + 1) s₀ s₂ ∧
      Outcome s f rest todo output (f.base + (base + 4))
        (trivialValue s (callReceiver s f kind base) t)
        (trivialFields s (callReceiver s f kind base) (bodyArg s f kind base meth slot) t) s₂ := by
  set self := callReceiver s f kind base with hself
  set args := self :: (List.range (meth.params.length + 1 - 1)).map fun i =>
    readSlot s f (base + 5 + i) with hargs
  have hentry : P.entry (s.funs.get fn) = [.code (.seq (fillLocals meth) code)] := by
    rw [Program.entry, Program.block?, h.code]
    exact congrArg (fun c => [Kont.code c]) hbytecode
  let s₀ : VM := ({ s with
    frames := ⟨s.acts.size, fn, f.base + (base + 4), [.code (.seq (fillLocals meth) code)]⟩ ::
      { f with todo := .receive output :: todo } :: rest
    headers := fun a => if a = f.base + (base + 4) then fn else s.headers a
    acts := s.acts.push fn } : VM).writeSlots (f.base + (base + 4))
      (List.zipIdx args |>.map fun x => (x.2, x.1))
  have happly : apply P env s f rest
      (bodyCall s f kind base fn (meth.params.length + 1) output todo) = some s₀ := by
    rw [bodyCall, apply, enter, if_pos h.fn_lt, hentry]
  have hframes : s₀.frames =
      ⟨s.acts.size, fn, f.base + (base + 4), [.code (.seq (fillLocals meth) code)]⟩ ::
        { f with todo := .receive output :: todo } :: rest := VM.frames_writeSlots _ _ _
  have harg {i : ℕ} {v : Value} (hi : args[i]? = some v) :
      s₀.stack (f.base + (base + 4) + i) = v := by
    rw [← Nat.zero_add i]
    exact VM.stack_writeSlots_zipIdx hi
  suffices hbody : ∃ s₂, Returns P env (rest.length + 1) s₀ s₂ ∧
      Outcome s₀ f rest todo output (f.base + (base + 4))
        (trivialValue s self t)
        (trivialFields s self (bodyArg s f kind base meth slot) t) s₂ by
    obtain ⟨s₂, hr, ho⟩ := hbody
    exact ⟨s₀, s₂, happly, hr, ho.of_prefix (fun a ha => VM.stack_writeSlots_of_lt ha)
      (VM.globals_writeSlots _ _ _)⟩
  · refine fillLocals_returns P env hframes fun s₁ hframes₁ hfields hglobals hbelow hnil => ?_
    have hfields₁ : s₁.fields = s.fields := hfields.trans (VM.fields_writeSlots _ _ _)
    have hglobals₁ : s₁.globals = s.globals := hglobals.trans (VM.globals_writeSlots _ _ _)
    have hself₁ : s₁.stack (f.base + (base + 4)) = self :=
      (hbelow _ (by omega)).trans (harg (i := 0) rfl)
    have harg₁ : s₁.stack (f.base + (base + 4) + slot) = bodyArg s f kind base meth slot := by
      rw [bodyArg]
      split_ifs with h0 hparam
      · rw [h0]
        exact hself₁
      · obtain ⟨i, rfl⟩ : ∃ i, slot = i + 1 := ⟨slot - 1, by omega⟩
        refine (hbelow _ (by omega)).trans (harg ?_)
        rw [hargs, List.getElem?_cons_succ, List.getElem?_map, List.getElem?_range (by omega)]
        simp only [Option.map_some, readSlot]
        rw [show f.base + (base + 5 + i) = f.base + (base + 4 + (i + 1)) by omega]
      · obtain ⟨i, rfl⟩ : ∃ i, slot = 1 + meth.params.length + i :=
          ⟨slot - (1 + meth.params.length), by omega⟩
        exact hnil i (by omega)
    have h₁ := hcode.returns P env (s := s₁) (fun index hindex => by
      rw [hglobals₁]
      exact hglobal index hindex) hframes₁
    rw [hself₁, harg₁, trivialValue_congr hglobals₁ hfields₁, trivialFields_congr hfields₁] at h₁
    exact h₁

/-- If the body puts what the short cut puts, and where it puts it, they agree. -/
theorem shortCutsAgree_of (hcode : TrivialCode slot (blocks.get 0).trivialFn.asOperand code)
    (hfits : (blocks.get 0).trivialFn.asOperand = (blocks.get 0).trivialFn)
    (hbytecode : (blocks.get 0).bytecode = .seq (fillLocals meth) code)
    (hslot : slot < 1 + meth.params.length + meth.locals.length)
    (hsetter : (∃ ord, (blocks.get 0).trivialFn = .setter ord) →
      slot = 1 ∧ meth.params.length = 1) :
    ShortCutsAgree blocks (meth.params.length + 1) := by
  rintro P env s f rest kind base selector m fn output todo rfl h
  rw [hfits] at hcode
  obtain ⟨s₁, happly₁, h₁⟩ :=
    h.outcome rest todo (meth.params.length + 1) output (f.base + (base + 4))
  obtain ⟨s₀, s₂, happly, hr, h₂⟩ := h.body rest todo output hcode h.trivial.2 hbytecode hslot
  refine ⟨s₁, s₀, s₂, happly₁, happly, hr, h₂.frames.trans h₁.frames.symm, ?_,
    h₂.globals.trans h₁.globals.symm, fun a ha => ?_⟩
  · rw [h₂.fields, h₁.fields]
    cases ht : ((P.blocks m).get 0).trivialFn with
    | setter ord =>
      obtain ⟨rfl, hparams⟩ := hsetter ⟨ord, ht⟩
      rw [bodyArg, if_neg Nat.one_ne_zero, if_pos (by omega)]
    | _ => rfl
  · by_cases hout : a = f.base + output
    · rw [hout, h₂.value, h₁.value]
    · have hlt := ha.resolve_right hout
      rw [h₂.below a hlt hout, h₁.below a hlt hout]

/-- If they agree, the body has the value and the fields that the short cut has. -/
theorem ShortCutsAgree.outcome_eq (hagree : ShortCutsAgree blocks (meth.params.length + 1))
    (h : ShortCut P env s f kind base selector m fn) (hblocks : P.blocks m = blocks)
    (hcode : TrivialCode slot (blocks.get 0).trivialFn.asOperand code)
    (hglobal : ∀ index, (blocks.get 0).trivialFn.asOperand = .globalReturn index →
      (s.globals index).isSome)
    (hbytecode : (blocks.get 0).bytecode = .seq (fillLocals meth) code)
    (hslot : slot < 1 + meth.params.length + meth.locals.length) :
    trivialValue s (callReceiver s f kind base) (blocks.get 0).trivialFn.asOperand =
        trivialValue s (callReceiver s f kind base) (blocks.get 0).trivialFn ∧
      trivialFields s (callReceiver s f kind base) (bodyArg s f kind base meth slot)
          (blocks.get 0).trivialFn.asOperand =
        trivialFields s (callReceiver s f kind base) (readSlot s f (base + 5))
          (blocks.get 0).trivialFn := by
  subst hblocks
  obtain ⟨s₁, s₀, s₂, happly₁, happly, hr, -, hfields, -, hstack⟩ :=
    hagree P env s f [] kind base selector m fn 0 [] rfl h
  obtain ⟨s₁', happly₁', h₁⟩ := h.outcome [] [] (meth.params.length + 1) 0 (f.base + (base + 4))
  obtain ⟨s₀', s₂', happly', hr', h₂⟩ := h.body [] [] 0 hcode hglobal hbytecode hslot
  cases happly₁.symm.trans happly₁'
  cases happly.symm.trans happly'
  cases hr.unique hr'
  rw [← h₁.fields, ← h₂.fields, ← h₁.value, ← h₂.value]
  exact ⟨hstack _ (.inr rfl), hfields⟩

end Agreement

/-! ## Which methods

Those whose ordinals fit in 16 bits and whose field does not hide the parameter. -/

/-- An environment with one class, whose only method is function 0. -/
def oneMethod : Environment where
  operator s _ _ := .value .nil s.fields
  arrayDup s _ := (.nil, s.fields)
  isObject
    | .object _ => true
    | _ => false
  getMethod _ _ _ _ _ := some 0
  doesNotUnderstand _ _ _ _ := (0, [])
  unknownGlobal _ _ _ := (0, [])
  escapedBlock _ _ := 0
  library _ := .ret .nil
  loopNext _ v := v
  loopPassed _ _ _ := false

/-- A frame about to send a message with one argument: the receiver is object 0, the argument true.
Only the field and the global number `ord` are true. -/
def aboutToSend (ord : ℕ) : VM where
  frames := [⟨0, 0, 0, []⟩]
  stack a := if a = 4 then .object 0 else .bool true
  headers _ := 0
  upvalues := ⟨0, fun _ => .closed .nil⟩
  funs := ⟨1, fun _ => ⟨some (0, 0), [], 0⟩⟩
  acts := ⟨1, fun _ => 0⟩
  fields _ i := .bool (i = ord)
  globals i := some (.bool (i = ord))
  returned := .nil

/-- A method whose short cut keeps an ordinal that its bytecode cannot hold. -/
def WideOrdinal (env : MethodEnv) (meth : AstMethod) : Prop :=
  ∃ name ord, Accesses meth name ∧ outerOrdinal env meth name = some ord ∧ 65536 ≤ ord

section Methods

variable {env : MethodEnv} {fuel : ℕ} {meth : AstMethod} {blocks : Arena UnlinkedCodeBlock}
  {s : TranslationState}

/-- Every trivial method can be short-cut. -/
theorem shortCut_aboutToSend (ord : ℕ) (ht : (blocks.get 0).trivialFn ≠ .normalMethod) :
    ShortCut ⟨fun _ => blocks⟩ oneMethod (aboutToSend ord) ⟨0, 0, 0, []⟩ .normal 0 "set:" 0 0 where
  fn_lt := Nat.zero_lt_one
  code := rfl
  isObject := rfl
  found := rfl
  taken := by
    have htriv : triviality ⟨fun _ => blocks⟩ (aboutToSend ord) 0 = (blocks.get 0).trivialFn := rfl
    intro h
    simp only [lookupObjectMethod, oneMethod, htriv] at h
    cases hcase : (blocks.get 0).trivialFn with
    | normalMethod => exact ht hcase
    | _ => simp [hcase, aboutToSend, callReceiver, readSlot] at h

/-- A hidden parameter tells the body from the short cut. -/
theorem HidesParameter.not_agree (hhides : HidesParameter meth)
    (h : compileMethod env fuel meth = .ok (blocks, s))
    (ht : (blocks.get 0).trivialFn ≠ .normalMethod)
    (hfits : (blocks.get 0).trivialFn.asOperand = (blocks.get 0).trivialFn) :
    ¬ ShortCutsAgree blocks (meth.params.length + 1) := by
  intro hagree
  obtain ⟨slot, code, hlt, hslot, hsetter, -, hcode, hbytecode⟩ := compileMethod_trivial h ht
  obtain ⟨param, field, hparams, hbody, hhidden⟩ := hhides
  obtain ⟨ord, hord⟩ := hsetter.mpr ⟨param, field, hparams, hbody⟩
  obtain ⟨-, hfields⟩ := hagree.outcome_eq (shortCut_aboutToSend ord ht) rfl hcode
    (fun _ _ => rfl) hbytecode hlt
  rw [hfits, hord] at hfields
  have harg : bodyArg (aboutToSend ord) ⟨0, 0, 0, []⟩ .normal 0 meth slot = .bool true := by
    simpa [trivialFields, putField, callReceiver, readSlot, aboutToSend] using
      congrFun (congrFun hfields 0) ord
  have hslot := hslot param hparams
  rw [ParamSlot] at hslot
  rw [bodyArg, hparams] at harg
  split_ifs at hslot with hself hlocal
  · rw [if_pos hslot] at harg
    cases harg
  · rw [if_neg (by omega), if_neg (by simp; omega)] at harg
    cases harg
  · exact absurd hhidden (by tauto)

/-- **An ordinal that does not fit** tells the body from the short cut. -/
theorem not_agree_of_ordinal {ord : ℕ} (h : compileMethod env fuel meth = .ok (blocks, s))
    (ht : (blocks.get 0).trivialFn ≠ .normalMethod)
    (hord : (blocks.get 0).trivialFn.ordinal = some ord) (hwide : 65536 ≤ ord) :
    ¬ ShortCutsAgree blocks (meth.params.length + 1) := by
  intro hagree
  obtain ⟨slot, code, hlt, -, -, -, hcode, hbytecode⟩ := compileMethod_trivial h ht
  obtain ⟨hvalue, hfields⟩ := hagree.outcome_eq (shortCut_aboutToSend ord ht) rfl hcode
    (fun _ _ => rfl) hbytecode hlt
  have hcast : safeIntegerCastU16 ord ≠ ord := fun heq =>
    (safeIntegerCastU16_eq_iff.mp heq).not_ge hwide
  cases hcase : (blocks.get 0).trivialFn with
  | globalReturn index =>
    rw [hcase] at hord hvalue
    cases hord
    simp [trivialValue, Triviality.asOperand, aboutToSend, hcast] at hvalue
  | getter field =>
    rw [hcase] at hord hvalue
    cases hord
    simp [trivialValue, Triviality.asOperand, getField, callReceiver, readSlot, aboutToSend,
      hcast] at hvalue
  | setter field =>
    -- the short cut leaves the field that the body puts false
    rw [hcase] at hord hfields
    cases hord
    have hput : bodyArg (aboutToSend ord) ⟨0, 0, 0, []⟩ .normal 0 meth slot = .bool false := by
      simpa [trivialFields, Triviality.asOperand, putField, callReceiver, readSlot, aboutToSend,
        hcast] using congrFun (congrFun hfields 0) (safeIntegerCastU16 ord)
    have hne (a : ℕ) : (aboutToSend ord).stack a ≠ .bool false := by
      simp only [aboutToSend]
      split_ifs <;> simp
    rw [bodyArg] at hput
    split_ifs at hput
    exacts [hne _ hput, hne _ hput]
  | _ =>
    rw [hcase] at hord
    cases hord

/-- **The short cuts of a trivial method agree with its body unless it is a setter that hides its
parameter, or accesses a field or a global whose ordinal needs more than 16 bits.** -/
theorem shortCutsAgree_iff (h : compileMethod env fuel meth = .ok (blocks, s))
    (ht : (blocks.get 0).trivialFn ≠ .normalMethod) :
    ShortCutsAgree blocks (meth.params.length + 1) ↔
      ¬ HidesParameter meth ∧ ¬ WideOrdinal env meth := by
  obtain ⟨slot, code, hlt, hslot, hsetter, hordinal, hcode, hbytecode⟩ :=
    compileMethod_trivial h ht
  by_cases hfits : (blocks.get 0).trivialFn.asOperand = (blocks.get 0).trivialFn
  · have hnarrow : ¬ WideOrdinal env meth := by
      rintro ⟨name, ord, hname, hord, hwide⟩
      have := Triviality.asOperand_eq_iff.mp hfits ord ((hordinal ord).mpr ⟨name, hname, hord⟩)
      omega
    refine ⟨fun hagree => ⟨fun hhides => hhides.not_agree h ht hfits hagree, hnarrow⟩,
      fun ⟨hhides, _⟩ => ?_⟩
    refine shortCutsAgree_of hcode hfits hbytecode hlt fun hord => ?_
    obtain ⟨param, field, hparams, hbody⟩ := hsetter.mp hord
    have hslot := hslot param hparams
    rw [ParamSlot] at hslot
    split_ifs at hslot with hself hlocal
    · exact absurd ⟨param, field, hparams, hbody, .inr hself⟩ hhides
    · exact absurd ⟨param, field, hparams, hbody, .inl hlocal⟩ hhides
    · exact ⟨hslot, by rw [hparams]; rfl⟩
  · obtain ⟨ord, hord, hwide⟩ : ∃ ord, (blocks.get 0).trivialFn.ordinal = some ord ∧
        65536 ≤ ord := by
      simpa [Triviality.asOperand_eq_iff] using hfits
    obtain ⟨name, hname, houter⟩ := (hordinal ord).mp hord
    exact iff_of_false (not_agree_of_ordinal h ht hord hwide)
      fun hno => hno.2 ⟨name, ord, hname, houter, hwide⟩

/-- The fields of a class with one field. -/
def oneField : MethodEnv :=
  ⟨fun name => if name = "field" then some 0 else none, true, fun _ => 0⟩

/-- A setter `field: x = ( field := x )`. -/
def plainSetter : AstMethod := ⟨["x"], [], [.assignation ["field"] (.varUse "x")]⟩

theorem shortCutsAgree_iff_plainSetter :
    ∃ blocks s, compileMethod oneField 20 plainSetter = .ok (blocks, s) ∧
      (blocks.get 0).trivialFn = .setter 0 ∧
      (ShortCutsAgree blocks 2 ↔
        ¬ HidesParameter plainSetter ∧ ¬ WideOrdinal oneField plainSetter) := by
  have htriv : (match compileMethod oneField 20 plainSetter with
      | .ok (blocks, _) => (blocks.get 0).trivialFn
      | .error _ => .normalMethod) = .setter 0 := by decide +kernel
  cases h : compileMethod oneField 20 plainSetter with
  | error e => simp [h] at htriv
  | ok r =>
    replace htriv : (r.1.get 0).trivialFn = .setter 0 := by simpa only [h] using htriv
    exact ⟨r.1, r.2, rfl, htriv, shortCutsAgree_iff h (by rw [htriv]; simp)⟩

/-- A setter `field: x = ( | x | field := x )`, which puts nil. -/
def hidingSetter : AstMethod := ⟨["x"], ["x"], [.assignation ["field"] (.varUse "x")]⟩

/-- **A short cut that does not agree.** -/
theorem hidingSetter_disagrees :
    ∃ blocks s, compileMethod oneField 20 hidingSetter = .ok (blocks, s) ∧
      (blocks.get 0).trivialFn = .setter 0 ∧ ¬ ShortCutsAgree blocks 2 := by
  have htriv : (match compileMethod oneField 20 hidingSetter with
      | .ok (blocks, _) => (blocks.get 0).trivialFn
      | .error _ => .normalMethod) = .setter 0 := by decide +kernel
  have hhides : HidesParameter hidingSetter :=
    ⟨"x", "field", rfl, .inl rfl, .inl List.mem_cons_self⟩
  cases h : compileMethod oneField 20 hidingSetter with
  | error e => simp [h] at htriv
  | ok r =>
    replace htriv : (r.1.get 0).trivialFn = .setter 0 := by simpa only [h] using htriv
    exact ⟨r.1, r.2, rfl, htriv, hhides.not_agree h (by rw [htriv]; simp) (by rw [htriv]; rfl)⟩

end Methods

end Dsom
