import Dsom.Compiler.Code
import Dsom.Foundations.Arena

/-!
# Compiler/Context — scopes, variables and their resolution

The objects `CompileMethod` allocates, and `ResolveVariable` with `AddUpvalue` on them.  A block
that is compiled into its parent's frame still opens a scope of its own, a
`BlockTranslationContext`; only a real block has a `TranslationContext`.
-/

namespace Dsom

/-- `LocalVarInfo`; `bctx` is the scope that declares the variable. -/
structure LocalVarInfo where
  bctx : ℕ
  slotOrd : ℕ
  isUsed : Bool
  isWritten : Bool
  isImmutable : Bool

/-- `UVInfo`: where the parent finds the value, and for which variable (none for `self`). -/
structure UVInfo where
  isParentLocal : Bool
  slot : ℕ
  varInfo : Option ℕ

/-- `BlockTranslationContext`.  `declares` is not in the source: the names installed for the scope,
newest first, which the source keeps in `m_localVarMap` only. -/
structure BlockTranslationContext where
  startSlot : ℕ
  lexicalParent : Option ℕ
  owningContext : ℕ
  trueParent : Option ℕ
  hasCapturedLocal : Bool
  containsThrowableBlocks : Bool
  blockMayThrow : Bool
  returnValueMayBeDiscarded : Bool
  returnValueSlot : ℕ
  uvs : List UVInfo
  declares : List (String × ℕ)

namespace BlockTranslationContext

/-- `IsInlinedIntoTopLevelMethod`. -/
def isInlinedIntoTopLevelMethod (b : BlockTranslationContext) : Bool := b.trueParent.isNone

/-- `MustEmitUpvalueCloseBeforeReturn`: some local may still be captured. -/
def mustEmitUpvalueCloseBeforeReturn (b : BlockTranslationContext) : Bool :=
  b.hasCapturedLocal || b.containsThrowableBlocks

/-- `MustMutablyCaptureSelf`: a return out of the block needs the frame of the method. -/
def mustMutablyCaptureSelf (b : BlockTranslationContext) : Bool :=
  b.containsThrowableBlocks || b.blockMayThrow

end BlockTranslationContext

/-- `TranslationContext` with its `UnlinkedCodeBlock`. -/
structure TranslationContext where
  historyTopSlot : ℕ
  parent : Option ℕ
  numFixedArguments : ℕ
  fnKind : FnKind
  resultBCtx : ℕ
  bytecode : Code

/-- `VarResolveResult`; `falseTrueNil` carries the constant. -/
inductive VarResolveResult where
  | local (ord : ℕ)
  | upvalue (ord : ℕ)
  | field (ord : ℕ)
  | global (ord : ℕ)
  | falseTrueNil (v : Value)

/-- `VarResolveMode`. -/
inductive VarResolveMode where
  | forRead
  | forWrite
  | dryRun
  deriving DecidableEq

/-- A use of a name that `ResolveVariable` resolved to an upvalue: in which code block and scope. -/
structure Resolution where
  ctx : ℕ
  bctx : ℕ
  name : String
  ord : ℕ

/-- What `CompileMethod` works on.  `localVarMap` keeps each stack newest first; `resolutions` is
not in the source and records the answers of `ResolveVariable`. -/
structure TranslationState where
  vars : Arena LocalVarInfo
  bctxs : Arena BlockTranslationContext
  ctxs : Arena TranslationContext
  localVarMap : String → List ℕ
  resolutions : List Resolution

/-- Why a compilation aborts. -/
inductive CompileError where
  | writeToSelfOrSuper
  | writeToUndefined (name : String)
  | nullTrueParent
  | outOfFuel

/-- What does not change during the compilation of a method.  `getSlotForGlobal` is the index that a
global has, or gets when it is first asked for. -/
structure MethodEnv where
  fieldMap : String → Option ℕ
  isSelfObject : Bool
  getSlotForGlobal : String → ℕ

/-- The compiler: it changes its state and may fail. -/
abbrev CompileM (α : Type) := StateT TranslationState (Except CompileError) α

/-! ## Allocation and flags

The arenas are indexed by ordinals, which stand for the source's pointers. -/

/-- The variable with a number. -/
def getVar (v : ℕ) : CompileM LocalVarInfo := return (← get).vars.get v

/-- The block context with a number. -/
def getBCtx (b : ℕ) : CompileM BlockTranslationContext := return (← get).bctxs.get b

/-- A variable changes. -/
def modifyVar (v : ℕ) (f : LocalVarInfo → LocalVarInfo) : CompileM Unit :=
  modify fun s => { s with vars := s.vars.modify v f }

/-- A block context changes. -/
def modifyBCtx (b : ℕ) (f : BlockTranslationContext → BlockTranslationContext) : CompileM Unit :=
  modify fun s => { s with bctxs := s.bctxs.modify b f }

/-- A function context changes. -/
def modifyCtx (c : ℕ) (f : TranslationContext → TranslationContext) : CompileM Unit :=
  modify fun s => { s with ctxs := s.ctxs.modify c f }

/-- The compiler gives up. -/
def compileError {α : Type} (e : CompileError) : CompileM α := fun _ => .error e

/-- `UpdateTopSlot`. -/
def updateTopSlot (ctx slot : ℕ) : CompileM Unit :=
  modifyCtx ctx fun c => { c with historyTopSlot := max c.historyTopSlot slot }

/-- `NotifyUse`. -/
def notifyUse (var : ℕ) : CompileM Unit := modifyVar var fun v => { v with isUsed := true }

/-- `NotifyWrite`. -/
def notifyWrite (var : ℕ) (isInDefiningBlock : Bool) : CompileM Unit :=
  modifyVar var fun v => { v with
    isImmutable := v.isImmutable && !(v.isUsed || !isInDefiningBlock)
    isWritten := true }

/-- What a resolution notifies of the variable it found. -/
def notify (mode : VarResolveMode) (var : ℕ) (isInDefiningBlock : Bool) : CompileM Unit :=
  match mode with
  | .forRead => notifyUse var
  | .forWrite => notifyWrite var isInDefiningBlock
  | .dryRun => pure ()

/-! ## Upvalues -/

/-- Append an upvalue to a block; the answer is its ordinal. -/
def pushUpvalue (b : ℕ) (uv : UVInfo) : CompileM ℕ := do
  modifyBCtx b fun x => { x with uvs := x.uvs ++ [uv] }
  return (← getBCtx b).uvs.length - 1

/-- `AddUpvalue`: capture a variable of an outer function in `b` and in every block between. -/
def addUpvalue : ℕ → ℕ → ℕ → CompileM ℕ
  | 0, _, _ => compileError .outOfFuel
  | fuel + 1, b, var => do
    let v ← getVar var
    modifyBCtx v.bctx fun x => { x with hasCapturedLocal := true }
    let self ← getBCtx b
    match self.uvs.findIdx? fun uv => uv.varInfo = some var with
    | some ord => return ord
    | none =>
      let defContext := (← getBCtx v.bctx).owningContext
      match self.trueParent with
      | none => compileError .nullTrueParent
      | some parent =>
        if parent = defContext then pushUpvalue b ⟨true, v.slotOrd, some var⟩
        else
          let parentUvOrd ← addUpvalue fuel parent var
          pushUpvalue b ⟨false, parentUvOrd, some var⟩

/-! ## Names -/

/-- The case of `ResolveVariable` in which the name is a variable of the method or of a block. -/
def resolveLocal (ctx bctx : ℕ) (name : String) (mode : VarResolveMode) (var : ℕ) :
    CompileM VarResolveResult := do
  let v ← getVar var
  notify mode var (bctx = v.bctx)
  let owner := (← getBCtx bctx).owningContext
  if (← getBCtx v.bctx).owningContext ≠ owner then
    let uvOrd ← addUpvalue (owner + 1) owner var
    modify fun s => { s with resolutions := ⟨ctx, bctx, name, uvOrd⟩ :: s.resolutions }
    return .upvalue uvOrd
  else return .local v.slotOrd

/-- `ResolveVariable`. -/
def resolveVariable (env : MethodEnv) (ctx bctx : ℕ) (name : String) (mode : VarResolveMode) :
    CompileM VarResolveResult := do
  if name = "self" ∨ name = "super" then
    if mode = .forWrite then compileError .writeToSelfOrSuper else return .local 0
  else
    match (← get).localVarMap name with
    | var :: _ => resolveLocal ctx bctx name mode var
    | [] =>
      match env.fieldMap name with
      | some ord => return .field ord
      | none =>
        if mode = .forWrite then compileError (.writeToUndefined name)
        else if name = "false" then return .falseTrueNil (.bool false)
        else if name = "true" then return .falseTrueNil (.bool true)
        else if name = "nil" then return .falseTrueNil .nil
        else return .global (env.getSlotForGlobal name)

/-- `IsVariableResolvedToLocal`, `…ToGlobal` and `…ToFalseTrueNil` are dry runs. -/
def isResolvedTo (p : VarResolveResult → Bool) (env : MethodEnv) (ctx bctx : ℕ) (name : String) :
    CompileM Bool := return p (← resolveVariable env ctx bctx name .dryRun)

/-- A local of the function itself. -/
def VarResolveResult.isLocal : VarResolveResult → Bool
  | .local _ => true
  | _ => false

/-- A global. -/
def VarResolveResult.isGlobal : VarResolveResult → Bool
  | .global _ => true
  | _ => false

/-- One of the three constants. -/
def VarResolveResult.isFalseTrueNil : VarResolveResult → Bool
  | .falseTrueNil _ => true
  | _ => false

/-- `IsVariableResolvedToLocal`. -/
def isVariableResolvedToLocal := isResolvedTo VarResolveResult.isLocal

/-- `IsVariableResolvedToGlobal`. -/
def isVariableResolvedToGlobal := isResolvedTo VarResolveResult.isGlobal

/-- `IsVariableResolvedToFalseTrueNil`. -/
def isVariableResolvedToFalseTrueNil := isResolvedTo VarResolveResult.isFalseTrueNil

/-- Its value is there without an instruction. -/
def isVariableResolvedToLocalOrFalseTrueNil := isResolvedTo fun r => r.isLocal || r.isFalseTrueNil

/-! ## Installing names

The map keeps a list for each name: a declaration hides the ones below it and is taken off again at
the end of its scope. -/

/-- `InstallLocalVariable`. -/
def installLocalVariable (bctx : ℕ) (name : String) (slot : ℕ) : CompileM Unit :=
  modify fun s => { s with
    vars := s.vars.push ⟨bctx, slot, false, false, true⟩
    bctxs := s.bctxs.modify bctx fun x => { x with declares := (name, s.vars.size) :: x.declares }
    localVarMap := fun n => if n = name then s.vars.size :: s.localVarMap n else s.localVarMap n }

/-- The loops of `InstallLocalVariables`. -/
def installNames (bctx : ℕ) : List String → ℕ → CompileM Unit
  | [], _ => return ()
  | name :: names, slot => do
    installLocalVariable bctx name slot
    installNames bctx names (slot + 1)

/-- `InstallLocalVariables`: the code that clears the locals, and the first free slot. -/
def installLocalVariables (bctx : ℕ) (params locals : List String) (startSlot : ℕ) :
    CompileM (Code × ℕ) := do
  installNames bctx params startSlot
  let localStart := startSlot + params.length
  installNames bctx locals localStart
  let fill := if locals = [] then Code.empty else .op (.rangeFillNils localStart locals.length)
  return (fill, localStart + locals.length)

/-- `UninstallLocalVariable`. -/
def uninstallLocalVariable (name : String) : CompileM Unit :=
  modify fun s => { s with
    localVarMap := fun n => if n = name then (s.localVarMap n).tail else s.localVarMap n }

/-- The names of a block that is left are taken out of the map. -/
def uninstallNames : List String → CompileM Unit
  | [] => return ()
  | name :: names => do
    uninstallLocalVariable name
    uninstallNames names

/-- `UninstallLocalVariables`. -/
def uninstallLocalVariables (params locals : List String) : CompileM Unit :=
  uninstallNames (locals.reverse ++ params.reverse)

end Dsom
