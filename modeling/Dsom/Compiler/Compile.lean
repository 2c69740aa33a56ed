import Dsom.Compiler.Context

/-!
# Compiler/Compile — from trees to bytecode

`CompileMethod` of `som_compile_file.cpp` and everything below it.  A function that emits bytecode
returns the code instead of appending it to a builder; pieces are put together in the order of
emission.  The functions that recurse over the tree take fuel.
-/

namespace Dsom

/-- `x_numSlotsForStackFrameHeader`. -/
def numSlotsForStackFrameHeader : ℕ := 4

/-! ## Literals, variables and operands -/

/-- `CreateConstantNonArray`; an array literal is not given to it. -/
def createConstantNonArray : AstLiteral → Value
  | .double value => .double value
  | .integer value => .int32 value
  | .string text => .string text
  | .symbol text => .symbol text
  | .array _ => .nil

/-- An array literal has to be copied. -/
def AstLiteral.isArray : AstLiteral → Bool
  | .array _ => true
  | _ => false

/-- `CompileAstLiteral`. -/
def compileAstLiteral (ctx : ℕ) (node : AstLiteral) (destSlot : ℕ) : CompileM Code := do
  updateTopSlot ctx destSlot
  match node with
  | .array elements => return .op (.somArrayDup elements destSlot)
  | node => return .op (.mov (.cst (createConstantNonArray node)) destSlot)

/-- `DetectTrivialLocalVarUse`. -/
def detectTrivialLocalVarUse (env : MethodEnv) (ctx bctx : ℕ) : AstExpr → CompileM (Option ℕ)
  | .varUse name => do
    if (← isVariableResolvedToLocal env ctx bctx name) then
      match ← resolveVariable env ctx bctx name .forRead with
      | .local slot => return some slot
      | _ => return none
    else return none
  | _ => return none

/-- `DetectTrivialLocalVarOrConstantUse`. -/
def detectTrivialLocalVarOrConstantUse (env : MethodEnv) (ctx bctx : ℕ) :
    AstExpr → CompileM (Option Operand)
  | .literal l => return if l.isArray then none else some (.cst (createConstantNonArray l))
  | .varUse name => do
    if (← isVariableResolvedToLocalOrFalseTrueNil env ctx bctx name) then
      match ← resolveVariable env ctx bctx name .forRead with
      | .local slot => return some (.local slot)
      | .falseTrueNil v => return some (.cst v)
      | _ => return none
    else return none
  | _ => return none

/-- An operand that needs no code: a local, or a constant where the bytecode takes one. -/
def detectTrivialOperand (env : MethodEnv) (ctx bctx : ℕ) (mayBeConstant : Bool) (e : AstExpr) :
    CompileM (Option Operand) := do
  if mayBeConstant then detectTrivialLocalVarOrConstantUse env ctx bctx e
  else return (← detectTrivialLocalVarUse env ctx bctx e).map Operand.local

/-- The bytecode that reads a resolved variable. -/
def emitVarUse (destSlot : ℕ) : VarResolveResult → Instr
  | .local ord => .mov (.local ord) destSlot
  | .upvalue ord => .upvalueGetMutable (safeIntegerCastU16 ord) destSlot
  | .field ord => .somGetField (safeIntegerCastU16 ord) destSlot
  | .global ord => .somGlobalGet (safeIntegerCastU16 ord) destSlot
  | .falseTrueNil v => .mov (.cst v) destSlot

/-- `CompileVarUse`. -/
def compileVarUse (env : MethodEnv) (ctx bctx : ℕ) (name : String) (destSlot : ℕ) :
    CompileM Code := do
  updateTopSlot ctx destSlot
  return .op (emitVarUse destSlot (← resolveVariable env ctx bctx name .forRead))

/-- `EmitAssignValueToLhs`; nothing else resolves for writing. -/
def emitAssignValueToLhs (valToPut : Operand) : VarResolveResult → Code
  | .local ord => .op (.mov valToPut ord)
  | .upvalue ord => .op (.upvaluePut (safeIntegerCastU16 ord) valToPut)
  | .field ord => .op (.somPutField (safeIntegerCastU16 ord) valToPut)
  | .global _ | .falseTrueNil _ => .empty

/-- The loop that assigns a value to each name. -/
def emitAssignments (env : MethodEnv) (ctx bctx : ℕ) (valToPut : Operand) :
    List String → CompileM Code
  | [] => return .empty
  | name :: lhs => do
    let vr ← resolveVariable env ctx bctx name .forWrite
    return .seq (emitAssignValueToLhs valToPut vr) (← emitAssignments env ctx bctx valToPut lhs)

/-- The first left-hand side that is a local, and the others. -/
def findLocalLhs (env : MethodEnv) (ctx bctx : ℕ) :
    List String → CompileM (Option (String × List String))
  | [] => return none
  | name :: lhs => do
    if (← isVariableResolvedToLocal env ctx bctx name) then return some (name, lhs)
    else
      match ← findLocalLhs env ctx bctx lhs with
      | some (x, others) => return some (x, name :: others)
      | none => return none

/-! ## Selectors

Some selectors are inlined and some are operators; what a message send becomes is decided by its
selector and the shape of its arguments. -/

/-- The operators with one argument that have a bytecode. -/
def arithmeticOperator : String → Option Operator
  | "+" => some .plus
  | "-" => some .minus
  | "*" => some .star
  | "//" => some .slashSlash
  | "%" => some .percent
  | "&" => some .and
  | "=" => some .equal
  | "<" => some .lessThan
  | "<=" => some .lessEqual
  | ">" => some .greaterThan
  | ">=" => some .greaterEqual
  | "<>" => some .unequal
  | "~=" => some .tildeUnequal
  | "<<" => some .leftShift
  | ">>>" => some .rightShift
  | "bitXor:" => some .bitwiseXor
  | "/" => some .slash
  | "==" => some .equalEqual
  | _ => none

/-- The other binary operators, and whether the bytecode takes a constant on the right. -/
def otherBinaryOperator : String → Option (Operator × Bool)
  | "&&" => some (.logicalAnd, false)
  | "and:" => some (.keywordAnd, false)
  | "||" => some (.logicalOr, false)
  | "or:" => some (.keywordOr, false)
  | "value:" => some (.valueColon, true)
  | "at:" => some (.atColon, true)
  | "charAt:" => some (.charAtColon, true)
  | _ => none

/-- The messages without arguments that have a bytecode. -/
def unaryOperator : String → Option Operator
  | "abs" => some .abs
  | "sqrt" => some .sqrt
  | "isNil" => some .isNil
  | "notNil" => some .notNil
  | "value" => some .value
  | "not" => some .not
  | "length" => some .length
  | _ => none

/-- The messages with two arguments that have a bytecode. -/
def ternaryOperator : String → Option Operator
  | "at:put:" => some .atPut
  | "value:with:" => some .valueWith
  | _ => none

/-- A one-armed inlined control structure: the branch over the block, and what the expression is
worth if the block is skipped: nil, or the receiver. -/
def oneArmed : String → Option (BranchCond × Bool)
  | "ifTrue:" => some (.ifFalse, false)
  | "ifFalse:" => some (.ifTrue, false)
  | "ifNil:" => some (.ifNotNil, true)
  | "ifNotNil:" => some (.ifNil, true)
  | "and:" | "&&" => some (.ifFalse, true)
  | "or:" | "||" => some (.ifTrue, true)
  | _ => none

/-- A two-armed one: the branch to the second block. -/
def twoArmed : String → Option BranchCond
  | "ifTrue:ifFalse:" => some .ifFalse
  | "ifFalse:ifTrue:" => some .ifTrue
  | "ifNil:ifNotNil:" => some .ifNotNil
  | "ifNotNil:ifNil:" => some .ifNil
  | _ => none

/-- The branch out of a loop. -/
def whileLoopExit : String → Option BranchCond
  | "whileTrue:" => some .ifFalse
  | "whileFalse:" => some .ifTrue
  | _ => none

/-- Whether a counting loop counts down. -/
def countingLoop : String → Option Bool
  | "to:do:" => some false
  | "downTo:do:" => some true
  | _ => none

/-- Where the method is looked up: `super` and a `self` that is an object are known. -/
def receiverKind (env : MethodEnv) : AstExpr → SOMReceiverKind
  | .varUse name =>
    if name = "self" ∧ env.isSelfObject then .objectSelf
    else if name = "super" then .super
    else .normal
  | _ => .normal

/-- A constant operand for which the fast path of an arithmetic operator is of no use. -/
def isUselessLiteral (op : Operator) : AstExpr → Bool
  | .literal l =>
    match op, l with
    | .equalEqual, _ => false
    | _, .integer _ => false
    | .and, _ | .leftShift, _ | .rightShift, _ | .bitwiseXor, _ => true
    | _, .double _ => false
    | .equal, .string _ | .equal, .symbol _ => false
    | _, _ => true
  | _ => false

/-- The expression is one of the three constants, unless the name is hidden. -/
def isFalseTrueNilUse (env : MethodEnv) (ctx bctx : ℕ) : AstExpr → CompileM Bool
  | .varUse name => isVariableResolvedToFalseTrueNil env ctx bctx name
  | _ => return false

/-- `shouldSkip` of the arithmetic path. -/
def shouldSkipArithmetic (env : MethodEnv) (ctx bctx : ℕ) (op : Operator) (receiver arg : AstExpr) :
    CompileM Bool := do
  if op = .equalEqual then return false
  else if isUselessLiteral op receiver || isUselessLiteral op arg then return true
  else
    let r ← isFalseTrueNilUse env ctx bctx receiver
    let a ← isFalseTrueNilUse env ctx bctx arg
    return r || a

/-- How `CompileSOMCall` treats a send: an inlined control structure, a specialised operator (with
its operands, and which of them may be constants), or a call. -/
inductive CallShape where
  | oneArmed (on : BranchCond) (copies : Bool) (locals : List String) (body : List AstExpr)
  | twoArmed (on : BranchCond) (locals₁ : List String) (body₁ : List AstExpr)
      (locals₂ : List String) (body₂ : List AstExpr)
  | whileLoop (exit : BranchCond) (condLocals : List String) (condBody : List AstExpr)
      (locals : List String) (body : List AstExpr)
  | countingLoop (downto : Bool) (limit : AstExpr) (param : String) (locals : List String)
      (body : List AstExpr)
  | operator (op : Operator) (operands : List (AstExpr × Bool))
  | call

/-- The inlined control structures. -/
def inlinedShape (receiver : AstExpr) (selector : String) : List AstExpr → Option CallShape
  | [.nestedBlock [] locals body] =>
    match oneArmed selector, whileLoopExit selector, receiver with
    | some (on, copies), _, _ => some (.oneArmed on copies locals body)
    | none, some exit, .nestedBlock [] condLocals condBody =>
      some (.whileLoop exit condLocals condBody locals body)
    | _, _, _ => none
  | [.nestedBlock [] locals₁ body₁, .nestedBlock [] locals₂ body₂] =>
    (twoArmed selector).map fun on => .twoArmed on locals₁ body₁ locals₂ body₂
  | [limit, .nestedBlock [param] locals body] =>
    (countingLoop selector).map fun downto => .countingLoop downto limit param locals body
  | _ => none

/-- The operators after the arithmetic ones. -/
def operatorShape (receiver : AstExpr) (selector : String) : List AstExpr → CallShape
  | [arg] =>
    match otherBinaryOperator selector with
    | some (op, cst) => .operator op [(receiver, false), (arg, cst)]
    | none => .call
  | [] =>
    match unaryOperator selector with
    | some op => .operator op [(receiver, false)]
    | none => .call
  | [arg₁, arg₂] =>
    match ternaryOperator selector with
    | some op => .operator op [(receiver, false), (arg₁, true), (arg₂, true)]
    | none => .call
  | _ => .call

/-- The order in which `CompileSOMCall` tries its paths; a send to `super` is always a call. -/
def callShape (env : MethodEnv) (ctx bctx : ℕ) (receiver : AstExpr) (selector : String)
    (args : List AstExpr) : CompileM CallShape := do
  if receiverKind env receiver = .super then return .call
  else
    match inlinedShape receiver selector args with
    | some shape => return shape
    | none =>
      match arithmeticOperator selector, args with
      | some op, [arg] =>
        if (← shouldSkipArithmetic env ctx bctx op receiver arg) then
          return operatorShape receiver selector args
        else return .operator op [(receiver, true), (arg, true)]
      | _, _ => return operatorShape receiver selector args

/-! ## Branches -/

/-- What a one-armed structure does about its destination: the store in the branch, and the code of
an explicit else branch where an early write could destroy a variable. -/
def oneArmedStore (copies : Bool) (condSlot clobberSlot destSlot : ℕ) (isTopLevel : Bool) :
    BranchStore × Option Instr :=
  if isTopLevel || (copies && condSlot = destSlot) then (.nothing, none)
  else if clobberSlot ≤ destSlot then
    (if copies then .copy destSlot else .storeNil destSlot, none)
  else (.nothing, some (.mov (if copies then .local condSlot else .cst .nil) destSlot))

/-! ## Expressions and blocks

The recursion of the compiler, with one unit of fuel for each call. -/

/-- The expression of a return. -/
def isRet : AstExpr → Option AstExpr
  | .ret e => some e
  | _ => none

/-- A last expression that need not be evaluated when nobody looks at its value. -/
def isDiscardable (env : MethodEnv) (ctx bctx : ℕ) : AstExpr → CompileM Bool
  | .literal _ | .nestedBlock .. => return true
  | .varUse name => return !(← isVariableResolvedToGlobal env ctx bctx name)
  | _ => return false

/-- `m_fnKind` of a block. -/
def blockKind (numParams : ℕ) (selfMutable : Bool) : FnKind :=
  match numParams, selfMutable with
  | 0, true => .blockNoArg
  | 0, false => .blockNoArgImmSelf
  | 1, true => .blockOneArg
  | 1, false => .blockOneArgImmSelf
  | _, true => .blockTwoArgs
  | _, false => .blockTwoArgsImmSelf

/-- The `UpvalueClose` of a return. -/
def closeBefore (close : Bool) (base : ℕ) (code : Code) : Code :=
  if close then .seq (.op (.upvalueClose base)) code else code

/-- The scope of a block inlined into the scope `bctx`, whose contents are `parent`. -/
def inlinedBCtx (bctx : ℕ) (parent : BlockTranslationContext) (frameStartSlot destSlot : ℕ)
    (mayDiscardReturnValue : Bool) : BlockTranslationContext where
  startSlot := frameStartSlot
  lexicalParent := some bctx
  owningContext := parent.owningContext
  trueParent := parent.trueParent
  hasCapturedLocal := false
  containsThrowableBlocks := false
  blockMayThrow := false
  returnValueMayBeDiscarded := mayDiscardReturnValue
  returnValueSlot := destSlot
  uvs := []
  declares := []

/-- The scope number `self` of a real block, or of a method; upvalue 0 of a block is `self`. -/
def realBCtx (self : ℕ) (lexicalParent trueParent : Option ℕ) : BlockTranslationContext where
  startSlot := 0
  lexicalParent := lexicalParent
  owningContext := self
  trueParent := trueParent
  hasCapturedLocal := false
  containsThrowableBlocks := false
  blockMayThrow := false
  returnValueMayBeDiscarded := false
  returnValueSlot := 0
  uvs := if trueParent.isSome then [⟨true, 0, none⟩] else []
  declares := []

/-- A context for a block that is inlined here. -/
def newInlinedBCtx (bctx frameStartSlot destSlot : ℕ) (mayDiscardReturnValue : Bool) :
    CompileM ℕ := do
  let s ← get
  let b := inlinedBCtx bctx (s.bctxs.get bctx) frameStartSlot destSlot mayDiscardReturnValue
  set { s with bctxs := s.bctxs.push b }
  return s.bctxs.size

/-- Allocate the code block and the scope of a real block inside `bctx`. -/
def newBlockBCtx (ctx bctx numFixedArguments : ℕ) : CompileM (ℕ × ℕ) := do
  let s ← get
  let b := s.bctxs.size
  set { s with
    bctxs := s.bctxs.push (realBCtx b (some bctx) (some (s.bctxs.get bctx).owningContext))
    ctxs := s.ctxs.push ⟨0, some ctx, numFixedArguments, .method, b, .empty⟩ }
  return (s.ctxs.size, b)

/-- Allocate those of a method. -/
def newMethodBCtx (numFixedArguments : ℕ) : CompileM (ℕ × ℕ) := do
  let s ← get
  let b := s.bctxs.size
  set { s with
    bctxs := s.bctxs.push (realBCtx b none none)
    ctxs := s.ctxs.push ⟨0, none, numFixedArguments, .method, b, .empty⟩ }
  return (s.ctxs.size, b)

/-- A block that throws, or creates one that does, makes its surroundings one that creates one. -/
def propagateThrow (bctx newBCtx : ℕ) : CompileM Unit := do
  let b ← getBCtx newBCtx
  if b.blockMayThrow || b.containsThrowableBlocks then
    modifyBCtx bctx fun x => { x with containsThrowableBlocks := true }

mutual

/-- `CompileExpression`. -/
def compileExpression (env : MethodEnv) (ctx bctx : ℕ) : ℕ → AstExpr → ℕ → ℕ → CompileM Code
  | 0, _, _, _ => compileError .outOfFuel
  | fuel + 1, node, clobberSlot, destSlot =>
    match node with
    | .literal l => compileAstLiteral ctx l destSlot
    | .varUse name => compileVarUse env ctx bctx name destSlot
    | .assignation lhs rhs => compileAssignation env ctx bctx fuel lhs rhs clobberSlot destSlot
    | .nestedBlock params locals body =>
      compileNewBlock env ctx bctx fuel params locals body destSlot
    | .unaryCall selector receiver =>
      compileSOMCall env ctx bctx fuel receiver selector [] clobberSlot destSlot false
    | .binaryCall selector receiver argument =>
      compileSOMCall env ctx bctx fuel receiver selector [argument] clobberSlot destSlot false
    | .keywordCall selector receiver arguments =>
      compileSOMCall env ctx bctx fuel receiver selector arguments clobberSlot destSlot false
    | .ret _ => return .empty
termination_by structural fuel => fuel

/-- `CompileAssignation`. -/
def compileAssignation (env : MethodEnv) (ctx bctx : ℕ) :
    ℕ → List String → AstExpr → ℕ → ℕ → CompileM Code
  | 0, _, _, _, _ => compileError .outOfFuel
  | fuel + 1, lhs, rhs, clobberSlot, destSlot => do
    updateTopSlot ctx destSlot
    let code ← compileExpression env ctx bctx fuel rhs clobberSlot destSlot
    return .seq code (← emitAssignments env ctx bctx (.local destSlot) lhs)
termination_by structural fuel => fuel

/-- `CompileTopLevelAssignation`. -/
def compileTopLevelAssignation (env : MethodEnv) (ctx bctx : ℕ) :
    ℕ → List String → AstExpr → ℕ → CompileM Code
  | 0, _, _, _ => compileError .outOfFuel
  | fuel + 1, lhs, rhs, clobberSlot => do
    match ← detectTrivialLocalVarOrConstantUse env ctx bctx rhs with
    | some operand => emitAssignments env ctx bctx operand lhs
    | none =>
      match ← findLocalLhs env ctx bctx lhs with
      | some (name, others) =>
        match ← resolveVariable env ctx bctx name .forWrite with
        | .local destSlot =>
          let code ← compileExpression env ctx bctx fuel rhs clobberSlot destSlot
          return .seq (.assign destSlot code)
            (← emitAssignments env ctx bctx (.local destSlot) others)
        | _ => return .empty
      | none => compileAssignation env ctx bctx fuel lhs rhs clobberSlot clobberSlot
termination_by structural fuel => fuel

/-- The operands of a specialised operator, from the first free slot on; the answer has the free
slot after them. -/
def compileOperands (env : MethodEnv) (ctx bctx : ℕ) :
    ℕ → List (AstExpr × Bool) → ℕ → CompileM (Code × List Operand × ℕ)
  | 0, _, _ => compileError .outOfFuel
  | _ + 1, [], curClobberSlot => return (.empty, [], curClobberSlot)
  | fuel + 1, (e, mayBeConstant) :: operands, curClobberSlot => do
    match ← detectTrivialOperand env ctx bctx mayBeConstant e with
    | some operand =>
      let (code, rest, free) ← compileOperands env ctx bctx fuel operands curClobberSlot
      return (code, operand :: rest, free)
    | none =>
      let code ← compileExpression env ctx bctx fuel e curClobberSlot curClobberSlot
      let (code', rest, free) ← compileOperands env ctx bctx fuel operands (curClobberSlot + 1)
      return (.seq code code', .local curClobberSlot :: rest, free)
termination_by structural fuel => fuel

/-- The arguments of a call, each into its slot of the callee's frame. -/
def compileArguments (env : MethodEnv) (ctx bctx : ℕ) : ℕ → List AstExpr → ℕ → CompileM Code
  | 0, _, _ => compileError .outOfFuel
  | _ + 1, [], _ => return .empty
  | fuel + 1, arg :: args, curArgDest => do
    let code ← compileExpression env ctx bctx fuel arg curArgDest curArgDest
    return .seq code (← compileArguments env ctx bctx fuel args (curArgDest + 1))
termination_by structural fuel => fuel

/-- The slot of the condition of a one- or two-armed structure, and the code that fills it. -/
def compileCondition (env : MethodEnv) (ctx bctx : ℕ) : ℕ → AstExpr → ℕ → CompileM (Code × ℕ)
  | 0, _, _ => compileError .outOfFuel
  | fuel + 1, receiver, clobberSlot => do
    match ← detectTrivialLocalVarUse env ctx bctx receiver with
    | some condSlot => return (.empty, condSlot)
    | none => return (← compileExpression env ctx bctx fuel receiver clobberSlot clobberSlot,
        clobberSlot)
termination_by structural fuel => fuel

/-- `CompileSOMCall`. -/
def compileSOMCall (env : MethodEnv) (ctx bctx : ℕ) :
    ℕ → AstExpr → String → List AstExpr → ℕ → ℕ → Bool → CompileM Code
  | 0, _, _, _, _, _, _ => compileError .outOfFuel
  | fuel + 1, receiver, selector, args, clobberSlot, destSlot, isTopLevel => do
    updateTopSlot ctx destSlot
    updateTopSlot ctx (clobberSlot + numSlotsForStackFrameHeader + args.length)
    match ← callShape env ctx bctx receiver selector args with
    | .oneArmed on copies locals body =>
      let (code, condSlot) ← compileCondition env ctx bctx fuel receiver clobberSlot
      let (store, otherwise) := oneArmedStore copies condSlot clobberSlot destSlot isTopLevel
      let body ← inlineBlock env ctx bctx fuel [] locals body clobberSlot destSlot isTopLevel
      match otherwise with
      | none => return .seq code (.branch ⟨on, condSlot, store⟩ body)
      | some i => return .seq code (.branchElse ⟨on, condSlot, store⟩ body (.op i))
    | .twoArmed on locals₁ body₁ locals₂ body₂ =>
      let (code, condSlot) ← compileCondition env ctx bctx fuel receiver clobberSlot
      let first ← inlineBlock env ctx bctx fuel [] locals₁ body₁ clobberSlot destSlot isTopLevel
      let second ← inlineBlock env ctx bctx fuel [] locals₂ body₂ clobberSlot destSlot false
      return .seq code (.branchElse ⟨on, condSlot, .nothing⟩ first second)
    | .whileLoop exit condLocals condBody locals body =>
      let cond ← inlineBlock env ctx bctx fuel [] condLocals condBody clobberSlot clobberSlot false
      let body ← inlineBlock env ctx bctx fuel [] locals body clobberSlot clobberSlot true
      let loop := Code.whileLoop cond ⟨exit, clobberSlot, .nothing⟩ body
      return if isTopLevel then loop else .seq loop (.op (.mov (.cst .nil) destSlot))
    | .countingLoop downto limit param locals body =>
      let start ← compileExpression env ctx bctx fuel receiver clobberSlot clobberSlot
      let base := if isTopLevel then clobberSlot else clobberSlot + 1
      let keep := if isTopLevel then Code.empty
        else .op (.mov (.local clobberSlot) (clobberSlot + 1))
      let limit ← compileExpression env ctx bctx fuel limit (base + 1) (base + 1)
      updateTopSlot ctx (base + 2)
      let body ← inlineBlock env ctx bctx fuel [param] locals body (base + 2) (base + 2) true
      let loop := Code.seq start (.seq keep (.seq limit (.forLoop downto base body)))
      return if isTopLevel || clobberSlot = destSlot then loop
        else .seq loop (.op (.mov (.local clobberSlot) destSlot))
    | .operator op operands =>
      let (code, operands, free) ← compileOperands env ctx bctx fuel operands clobberSlot
      if args ≠ [] then updateTopSlot ctx free
      return .seq code (.op (.operator op operands destSlot))
    | .call =>
      let kind := receiverKind env receiver
      let argBase := clobberSlot + numSlotsForStackFrameHeader
      let self ← if kind = .normal then compileExpression env ctx bctx fuel receiver argBase argBase
        else pure .empty
      let code ← compileArguments env ctx bctx fuel args (argBase + 1)
      return .seq self (.seq code
        (.op (.somCall kind clobberSlot selector (args.length + 1) destSlot)))
termination_by structural fuel => fuel

/-- `CompileReturn`. -/
def compileReturn (env : MethodEnv) (ctx bctx : ℕ) : ℕ → AstExpr → ℕ → CompileM Code
  | 0, _, _ => compileError .outOfFuel
  | fuel + 1, node, clobberSlot => do
    let code ← compileExpression env ctx bctx fuel node clobberSlot clobberSlot
    let close := (← getBCtx bctx).mustEmitUpvalueCloseBeforeReturn
    return .seq code (closeBefore close 0 (.op (.ret clobberSlot)))
termination_by structural fuel => fuel

/-- `CompileThrow`. -/
def compileThrow (env : MethodEnv) (ctx bctx : ℕ) : ℕ → AstExpr → ℕ → CompileM Code
  | 0, _, _ => compileError .outOfFuel
  | fuel + 1, node, clobberSlot => do
    modifyBCtx bctx fun x => { x with blockMayThrow := true }
    let code ← compileExpression env ctx bctx fuel node clobberSlot clobberSlot
    return .seq code (.op (.somThrow clobberSlot))
termination_by structural fuel => fuel

/-- One statement that is neither a return nor the last one of a block. -/
def compileStatement (env : MethodEnv) (ctx bctx : ℕ) : ℕ → AstExpr → ℕ → CompileM Code
  | 0, _, _ => compileError .outOfFuel
  | fuel + 1, expr, clobberSlot =>
    match expr with
    | .assignation lhs rhs => compileTopLevelAssignation env ctx bctx fuel lhs rhs clobberSlot
    | .unaryCall selector receiver =>
      compileSOMCall env ctx bctx fuel receiver selector [] clobberSlot clobberSlot true
    | .binaryCall selector receiver argument =>
      compileSOMCall env ctx bctx fuel receiver selector [argument] clobberSlot clobberSlot true
    | .keywordCall selector receiver arguments =>
      compileSOMCall env ctx bctx fuel receiver selector arguments clobberSlot clobberSlot true
    | expr => compileExpression env ctx bctx fuel expr clobberSlot clobberSlot
termination_by structural fuel => fuel

/-- The last expression of an inlined block: its own upvalues are closed **before** it. -/
def compileInlinedResult (env : MethodEnv) (ctx bctx : ℕ) : ℕ → AstExpr → ℕ → CompileM Code
  | 0, _, _ => compileError .outOfFuel
  | fuel + 1, expr, clobberSlot => do
    let b ← getBCtx bctx
    let close := b.mustEmitUpvalueCloseBeforeReturn
    let discard ← if b.returnValueMayBeDiscarded then isDiscardable env ctx bctx expr
      else pure false
    let code ← if discard then pure .empty
      else compileExpression env ctx bctx fuel expr clobberSlot b.returnValueSlot
    return closeBefore close b.startSlot (.result b.startSlot clobberSlot code)
termination_by structural fuel => fuel

/-- The loop of `CompileBlockBody`; what follows the last statement of a method returns `self`. -/
def compileStatements (env : MethodEnv) (ctx bctx : ℕ) : ℕ → List AstExpr → ℕ → CompileM Code
  | 0, _, _ => compileError .outOfFuel
  | _ + 1, [], _ => do
    let close := (← getBCtx bctx).mustEmitUpvalueCloseBeforeReturn
    return closeBefore close 0 (.op (.ret 0))
  | fuel + 1, expr :: rest, clobberSlot => do
    let b ← getBCtx bctx
    match isRet expr with
    | some retVal =>
      if b.isInlinedIntoTopLevelMethod then compileReturn env ctx bctx fuel retVal clobberSlot
      else compileThrow env ctx bctx fuel retVal clobberSlot
    | none =>
      if rest = [] ∧ ¬ (b.isInlinedIntoTopLevelMethod ∧ b.owningContext = bctx) then
        if b.owningContext ≠ bctx then compileInlinedResult env ctx bctx fuel expr clobberSlot
        else compileReturn env ctx bctx fuel expr clobberSlot
      else
        let code ← compileStatement env ctx bctx fuel expr clobberSlot
        return .seq code (← compileStatements env ctx bctx fuel rest clobberSlot)
termination_by structural fuel => fuel

/-- `CompileBlockBody`. -/
def compileBlockBody (env : MethodEnv) (ctx bctx : ℕ) : ℕ → List AstExpr → ℕ → CompileM Code
  | 0, _, _ => compileError .outOfFuel
  | fuel + 1, body, clobberSlot => do
    let b ← getBCtx bctx
    if body = [] then
      if b.owningContext ≠ bctx then
        return if b.returnValueMayBeDiscarded then .empty
          else .op (.mov (.cst .nil) b.returnValueSlot)
      else if b.isInlinedIntoTopLevelMethod then return .op (.ret 0)
      else return .seq (.op (.mov (.cst .nil) 0)) (.op (.ret 0))
    else compileStatements env ctx bctx fuel body clobberSlot
termination_by structural fuel => fuel

/-- `InlineBlock`. -/
def inlineBlock (env : MethodEnv) (ctx bctx : ℕ) :
    ℕ → List String → List String → List AstExpr → ℕ → ℕ → Bool → CompileM Code
  | 0, _, _, _, _, _, _ => compileError .outOfFuel
  | fuel + 1, params, locals, body, frameStartSlot, destSlot, mayDiscardReturnValue => do
    updateTopSlot ctx destSlot
    updateTopSlot ctx frameStartSlot
    let newBCtx ← newInlinedBCtx bctx frameStartSlot destSlot mayDiscardReturnValue
    let (fill, firstFreeSlot) ← installLocalVariables newBCtx params locals frameStartSlot
    updateTopSlot ctx firstFreeSlot
    let code ← compileBlockBody env ctx newBCtx fuel body firstFreeSlot
    uninstallLocalVariables params locals
    propagateThrow bctx newBCtx
    return .inlined frameStartSlot firstFreeSlot (.seq fill code)
termination_by structural fuel => fuel

/-- `CompileNewBlock`. -/
def compileNewBlock (env : MethodEnv) (ctx bctx : ℕ) :
    ℕ → List String → List String → List AstExpr → ℕ → CompileM Code
  | 0, _, _, _, _ => compileError .outOfFuel
  | fuel + 1, params, locals, body, destSlot => do
    updateTopSlot ctx destSlot
    let (newCtx, newBCtx) ← newBlockBCtx ctx bctx (params.length + 1)
    let (fill, firstFreeSlot) ← installLocalVariables newBCtx params locals 1
    modifyCtx newCtx fun c => { c with historyTopSlot := firstFreeSlot }
    let code ← compileBlockBody env newCtx newBCtx fuel body firstFreeSlot
    uninstallLocalVariables params locals
    propagateThrow bctx newBCtx
    let selfMutable := (← getBCtx newBCtx).mustMutablyCaptureSelf
    modifyCtx newCtx fun c => { c with
      fnKind := blockKind params.length selfMutable, bytecode := .seq fill code }
    return .op (.newClosure newCtx destSlot)
termination_by structural fuel => fuel

end

/-! ## Methods -/

/-- The triviality of a method whose body is one return. -/
def returnTriviality (env : MethodEnv) (ctx bctx : ℕ) : AstExpr → CompileM Triviality
  | .literal l =>
    return if l.isArray then .normalMethod else .literalReturn (createConstantNonArray l)
  | .varUse name => do
    match ← resolveVariable env ctx bctx name .dryRun with
    | .local _ => return if name = "self" ∨ name = "super" then .selfReturn else .normalMethod
    | .field ord => return .getter ord
    | .global ord => return .globalReturn ord
    | .falseTrueNil v => return .literalReturn v
    | .upvalue _ => return .normalMethod
  | _ => return .normalMethod

/-- The triviality of a method by its body alone. -/
def bodyTriviality (env : MethodEnv) (ctx bctx : ℕ) : List AstExpr → CompileM Triviality
  | [] => return .selfReturn
  | [.ret val] => returnTriviality env ctx bctx val
  | _ => return .normalMethod

/-- The assignment of a method that may be a setter: alone, or followed by a return of `self`. -/
def setterStmt : List AstExpr → Option (List String × AstExpr)
  | [.assignation lhs rhs] => some (lhs, rhs)
  | [.assignation lhs rhs, .ret (.varUse name)] =>
    if name = "self" ∨ name = "super" then some (lhs, rhs) else none
  | _ => none

/-- A method whose only statement assigns its only parameter to a field is a setter. -/
def setterTriviality (env : MethodEnv) (ctx bctx : ℕ) (meth : AstMethod) (triviality : Triviality) :
    CompileM Triviality := do
  match meth.params, setterStmt meth.body with
  | [param], some ([field], rhs) =>
    match ← resolveVariable env ctx bctx field .dryRun, rhs with
    | .field ord, .varUse name => return if name = param then .setter ord else triviality
    | _, _ => return triviality
  | _, _ => return triviality

/-- Trivial method detection. -/
def detectTrivialMethod (env : MethodEnv) (ctx bctx : ℕ) (meth : AstMethod) :
    CompileM Triviality := do
  setterTriviality env ctx bctx meth (← bodyTriviality env ctx bctx meth.body)

/-- The bytecode with `UpvalueGetMutable` replaced where the upvalue turned out immutable. -/
def replaceImmutableGets (isImmutable : ℕ → Bool) : Code → Code
  | .op (.upvalueGetMutable ord output) =>
    .op (if isImmutable ord then .upvalueGetImmutable ord output else .upvalueGetMutable ord output)
  | .op i => .op i
  | .empty => .empty
  | .seq c c' => .seq (replaceImmutableGets isImmutable c) (replaceImmutableGets isImmutable c')
  | .branch b body => .branch b (replaceImmutableGets isImmutable body)
  | .branchElse b body other =>
    .branchElse b (replaceImmutableGets isImmutable body) (replaceImmutableGets isImmutable other)
  | .whileLoop cond exit body =>
    .whileLoop (replaceImmutableGets isImmutable cond) exit (replaceImmutableGets isImmutable body)
  | .forLoop downto base body => .forLoop downto base (replaceImmutableGets isImmutable body)
  | .inlined start free body => .inlined start free (replaceImmutableGets isImmutable body)
  | .result start free value => .result start free (replaceImmutableGets isImmutable value)
  | .assign slot rhs => .assign slot (replaceImmutableGets isImmutable rhs)

/-- The block does not need a `self` that can change. -/
def FnKind.selfIsImmutable : FnKind → Bool
  | .blockNoArgImmSelf | .blockOneArgImmSelf | .blockTwoArgsImmSelf => true
  | _ => false

/-- `UpvalueMetadata` of one upvalue; upvalue 0 is `self`. -/
def upvalueMetadata (s : TranslationState) (fnKind : FnKind) (uv : UVInfo) : UpvalueMetadata where
  isParentLocal := uv.isParentLocal
  isImmutable := match uv.varInfo with
    | none => fnKind.selfIsImmutable
    | some var => (s.vars.get var).isImmutable
  slot := uv.slot

/-- What `CompileMethod` makes of each translation context in the end. -/
def finishCodeBlock (s : TranslationState) (trivialFn : Triviality) (c : ℕ) : UnlinkedCodeBlock :=
  let t := s.ctxs.get c
  let upvalueInfo := (s.bctxs.get t.resultBCtx).uvs.map (upvalueMetadata s t.fnKind)
  { parent := t.parent
    numFixedArguments := t.numFixedArguments
    stackFrameNumSlots := t.historyTopSlot + 1
    upvalueInfo := upvalueInfo
    fnKind := t.fnKind
    trivialFn := if c = 0 then trivialFn else .normalMethod
    bytecode := replaceImmutableGets
      (fun ord => (upvalueInfo[ord]?.map UpvalueMetadata.isImmutable).getD false) t.bytecode }

/-- Nothing was compiled yet. -/
def initialState : TranslationState := ⟨⟨0, fun _ => ⟨0, 0, false, false, true⟩⟩,
  ⟨0, fun _ => ⟨0, none, 0, none, false, false, false, false, 0, [], []⟩⟩,
  ⟨0, fun _ => ⟨0, none, 0, .method, 0, .empty⟩⟩, fun _ => [], []⟩

/-- `CompileMethod` up to the finished code blocks: the triviality of the method. -/
def compileMethodM (env : MethodEnv) (fuel : ℕ) (meth : AstMethod) : CompileM Triviality := do
  let (ctx, bctx) ← newMethodBCtx (meth.params.length + 1)
  let (fill, firstFreeSlot) ← installLocalVariables bctx meth.params meth.locals 1
  modifyCtx ctx fun c => { c with historyTopSlot := firstFreeSlot }
  let triviality ← detectTrivialMethod env ctx bctx meth
  let code ← compileBlockBody env ctx bctx fuel meth.body firstFreeSlot
  uninstallLocalVariables meth.params meth.locals
  modifyCtx ctx fun c => { c with bytecode := .seq fill code }
  return triviality

/-- `CompileMethod`: the code blocks of the method, number 0, and of the real blocks in it. -/
def compileMethod (env : MethodEnv) (fuel : ℕ) (meth : AstMethod) :
    Except CompileError (Arena UnlinkedCodeBlock × TranslationState) := do
  let (triviality, s) ← compileMethodM env fuel meth initialState
  return (⟨s.ctxs.size, finishCodeBlock s triviality⟩, s)

end Dsom
