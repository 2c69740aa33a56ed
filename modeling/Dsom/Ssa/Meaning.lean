import Dsom.Ssa.Construct

/-!
# Ssa/Meaning — executing a graph

What a node does, the checks on its inputs and all other effects included, is left open: it may
depend on everything seen so far (`Behaviour`).  Seen are the type checks and the nodes that are not
about locals, with the values of their inputs.  A local keeps, besides its value, which location it
was stored for.
-/

namespace Dsom

namespace LocalSsa

/-- What is seen of a run. -/
inductive Event (Val : Type) where
  | check (n useKind : ℕ) (value : Val)
  | node (n : ℕ) (inputs : List Val)

/-- What the rest of the world does; the events are those so far, the latest first. -/
structure Behaviour (Val : Type) where
  constant : ℕ → Val
  output : List (Event Val) → ℕ → Val
  exits : List (Event Val) → Bool
  branch : List (Event Val) → ℕ

/-- The values of the nodes, the locals with the variable each one holds, and the events so far. -/
structure Config (Val : Type) where
  env : ℕ → ℕ → Val
  locals : ℕ → Option (LocalIdentifier × Val)
  events : List (Event Val)

section Exec

variable {Val : Type} (β : Behaviour Val)

namespace Behaviour

/-- After an exit nothing is seen any more. -/
def record (events : List (Event Val)) (event : Event Val) : List (Event Val) :=
  if β.exits events then events else event :: events

/-- The value of an operand. -/
def eval (env : ℕ → ℕ → Val) : Ir.Value → Val
  | .constant n => β.constant n
  | .ssa n outputOrd => env n outputOrd

/-- The type checks of a node. -/
def runChecks (n : ℕ) (env : ℕ → ℕ → Val) (inputs : List Edge) (events : List (Event Val)) :
    List (Event Val) :=
  (inputs.filter fun e => e.needsTypeCheck).foldl
    (fun events e => β.record events (.check n e.useKind (β.eval env e.value))) events

end Behaviour

namespace Graph

variable (g : Graph)

/-- The value of a local that was loaded. -/
def loaded (stored : Option (LocalIdentifier × Val)) : Val :=
  (stored.map Prod.snd).getD (β.constant g.undefValue)

/-- The effect of one node. -/
def exec (n : ℕ) (node : Node) (c : Config Val) : Config Val :=
  let events := β.runChecks n c.env node.inputs c.events
  match node.kind with
  | .getLocal ident =>
    let value := g.loaded β (c.locals (g.virtualRegister ident))
    { c with
      events := events
      env := Function.update c.env n fun _ => value }
  | .setLocal ident =>
    let value := β.eval c.env (g.soleInput node)
    { c with
      events := events
      locals := Function.update c.locals (g.virtualRegister ident) (some (ident, value)) }
  | .nop => { c with events := events }
  | _ =>
    let events := β.record events (.node n (node.inputs.map fun e => β.eval c.env e.value))
    { c with
      events := events
      env := Function.update c.env n (β.output events) }

/-- Nodes one after the other, with a table of what they are. -/
def execNodes (node : ℕ → Node) (l : List ℕ) (c : Config Val) : Config Val :=
  l.foldl (fun c n => g.exec β n (node n) c) c

/-- The block to which a run goes on. -/
def nextBlock (bb : ℕ) (c : Config Val) : Option ℕ :=
  if β.exits c.events then none else (g.cfg.successors bb)[β.branch c.events]?

/-- A number of blocks is executed, or fewer if the run ends. -/
def runBlocks : ℕ → Option ℕ × Config Val → Option ℕ × Config Val
  | 0, s => s
  | k + 1, (none, c) => runBlocks k (none, c)
  | k + 1, (some bb, c) =>
    let c := g.execNodes β g.node (g.cfg.nodes bb) c
    runBlocks k (g.nextBlock β bb c, c)

/-- Before a run nothing is stored. -/
def startConfig (env : ℕ → ℕ → Val) : Option ℕ × Config Val :=
  (some g.cfg.getEntryBB, ⟨env, fun _ => none, []⟩)

end Graph

/-! ## What a node reads and writes

A node writes its own outputs, and at most one local. -/

section Lemmas

variable {β} {g : Graph} {node node' : ℕ → Node} {l : List ℕ} {c c' : Config Val}

@[simp] theorem execNodes_nil : g.execNodes β node [] c = c := rfl

/-- Two lists of nodes one after the other. -/
theorem execNodes_append (l l' : List ℕ) :
    g.execNodes β node (l ++ l') c = g.execNodes β node l' (g.execNodes β node l c) :=
  List.foldl_append

theorem execNodes_concat (n : ℕ) :
    g.execNodes β node (l ++ [n]) c = g.exec β n (node n) (g.execNodes β node l c) :=
  execNodes_append l [n]

/-- Only the nodes of the list matter. -/
theorem execNodes_congr (h : ∀ n ∈ l, node n = node' n) :
    g.execNodes β node l c = g.execNodes β node' l c := by
  refine List.foldl_ext _ _ c fun c n hn => ?_
  rw [h n hn]

/-- The checks of edges with the same values are the same. -/
theorem runChecks_map {ρ : Edge → Edge} {env env' : ℕ → ℕ → Val} {inputs : List Edge} (n : ℕ)
    (events : List (Event Val)) (hkind : ∀ e, (ρ e).useKind = e.useKind)
    (hcheck : ∀ e, (ρ e).needsTypeCheck = e.needsTypeCheck)
    (hvalue : ∀ e ∈ inputs, β.eval env e.value = β.eval env' (ρ e).value) :
    β.runChecks n env inputs events = β.runChecks n env' (inputs.map ρ) events := by
  rw [Behaviour.runChecks, Behaviour.runChecks, List.filter_map, List.foldl_map]
  have hfilter : (fun e : Edge => e.needsTypeCheck) ∘ ρ = fun e => e.needsTypeCheck :=
    funext hcheck
  rw [hfilter]
  refine List.foldl_ext _ _ events fun events e he => ?_
  rw [hkind, hvalue e (List.mem_of_mem_filter he)]

/-- A `Nop` makes the same checks as the node it was. -/
theorem runChecks_convertToNop (n : ℕ) (env : ℕ → ℕ → Val) (inputs : List Edge)
    (events : List (Event Val)) :
    β.runChecks n env (inputs.filter fun e => e.needsTypeCheck) events =
      β.runChecks n env inputs events := by
  rw [Behaviour.runChecks, Behaviour.runChecks, List.filter_filter]
  simp

/-- A node that has become a `Nop` still makes its checks. -/
theorem exec_convertToNop (n : ℕ) (node : Node) :
    g.exec β n node.convertToNop c =
      { c with events := β.runChecks n c.env node.inputs c.events } := by
  rw [← runChecks_convertToNop]
  rfl

theorem exec_getLocal {n : ℕ} {node : Node} {ident : LocalIdentifier}
    (h : node.kind = .getLocal ident) :
    g.exec β n node c =
      { c with
        events := β.runChecks n c.env node.inputs c.events
        env := Function.update c.env n fun _ =>
          g.loaded β (c.locals (g.virtualRegister ident)) } := by
  simp only [Graph.exec, h]

theorem exec_setLocal {n : ℕ} {node : Node} {ident : LocalIdentifier}
    (h : node.kind = .setLocal ident) :
    g.exec β n node c =
      { c with
        events := β.runChecks n c.env node.inputs c.events
        locals := Function.update c.locals (g.virtualRegister ident)
          (some (ident, β.eval c.env (g.soleInput node))) } := by
  simp only [Graph.exec, h]

theorem exec_nop {n : ℕ} {node : Node} (h : node.kind = .nop) :
    g.exec β n node c = { c with events := β.runChecks n c.env node.inputs c.events } := by
  simp only [Graph.exec, h]

/-- The kinds of nodes that are neither about locals nor a `Nop`. -/
def NodeKind.IsOther (kind : NodeKind) : Prop :=
  (∀ ident, kind ≠ .getLocal ident) ∧ (∀ ident, kind ≠ .setLocal ident) ∧ kind ≠ .nop

theorem exec_other {n : ℕ} {node : Node} (h : NodeKind.IsOther node.kind) :
    g.exec β n node c =
      { c with
        events := β.record (β.runChecks n c.env node.inputs c.events)
          (.node n (node.inputs.map fun e => β.eval c.env e.value))
        env := Function.update c.env n (β.output (β.record
          (β.runChecks n c.env node.inputs c.events)
          (.node n (node.inputs.map fun e => β.eval c.env e.value)))) } := by
  obtain ⟨hget, hset, hnop⟩ := h
  rw [Graph.exec]
  split
  case h_1 ident heq => exact absurd heq (hget ident)
  case h_2 ident heq => exact absurd heq (hset ident)
  case h_3 heq => exact absurd heq hnop
  case h_4 => rfl

/-- A node writes its own outputs only. -/
theorem exec_env_of_ne {n m : ℕ} {node : Node} (h : m ≠ n) :
    (g.exec β n node c).env m = c.env m := by
  rw [Graph.exec]
  split
  case h_1 => exact Function.update_of_ne h _ _
  case h_2 => rfl
  case h_3 => rfl
  case h_4 => exact Function.update_of_ne h _ _

/-- Only stores write locals. -/
theorem exec_locals {n : ℕ} {node : Node} (h : ∀ ident, node.kind ≠ .setLocal ident) :
    (g.exec β n node c).locals = c.locals := by
  rw [Graph.exec]
  split
  case h_1 => rfl
  case h_2 ident heq => exact absurd heq (h ident)
  case h_3 => rfl
  case h_4 => rfl

end Lemmas

end Exec

end LocalSsa

end Dsom
