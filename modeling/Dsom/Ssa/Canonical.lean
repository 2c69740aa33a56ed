import Dsom.Ssa.Meaning
import Dsom.Foundations.Folds

/-!
# Ssa/Canonical — blocks in canonical form

In a block in canonical form every local is loaded at most once and stored at most once, and it is
not loaded after it was stored (`Canonical`); the events at the head and at the tail of the block
say which nodes those are (`LocalEvents`).

The form is kept when a node is added behind the block, and when a store or a load that nobody
refers to becomes a `Nop` (`Canonical.concat_store`, `Canonical.dropStore` and the like).  What this
does to the execution of the block is said beside each.
-/

namespace Dsom

namespace LocalSsa

/-- The outputs of a node. -/
def NodeKind.HasOutput : NodeKind → ℕ → Prop
  | .getLocal _, outputOrd => outputOrd = 0
  | .setLocal _, _ => False
  | .nop, _ => False
  | _, _ => True

/-- A load, a store, a `Nop`, or anything else. -/
theorem NodeKind.cases (kind : NodeKind) : (∃ ident, kind = .getLocal ident) ∨
    (∃ ident, kind = .setLocal ident) ∨ kind = .nop ∨ kind.IsOther := by
  cases kind with
  | getLocal ident => exact .inl ⟨ident, rfl⟩
  | setLocal ident => exact .inr (.inl ⟨ident, rfl⟩)
  | nop => exact .inr (.inr (.inl rfl))
  | _ => exact .inr (.inr (.inr ⟨by simp, by simp, by simp⟩))

/-- A constant, or an output of a node of the list that is not replaced. -/
def Available (node : ℕ → Node) (ρ : ℕ → Option Ir.Value) (l : List ℕ) : Ir.Value → Prop
  | .constant _ => True
  | .ssa m outputOrd => m ∈ l ∧ (node m).kind.HasOutput outputOrd ∧ ρ m = none

/-- The graphs that the pass is given. -/
structure Graph.WellFormed (g : Graph) : Prop where
  nodup : g.cfg.blocks.Nodup
  consistent : g.cfg.Consistent (· ∈ g.cfg.blocks)
  nodup_nodes : (g.cfg.blocks.flatMap g.cfg.nodes).Nodup
  register_lt : ∀ ident, g.virtualRegister ident < g.numLocals
  getLocal : ∀ n ident, (g.node n).kind = .getLocal ident → (g.node n).inputs = []
  setLocal : ∀ n ident, (g.node n).kind = .setLocal ident → ∃ e, (g.node n).inputs = [e]
  /-- A node uses constants and nodes before it in its block. -/
  uses : ∀ bb ∈ g.cfg.blocks, ∀ done n rest, g.cfg.nodes bb = done ++ n :: rest →
    ∀ e ∈ (g.node n).inputs, Available g.node (fun _ => none) done e.value

section Canonical

variable (g : Graph) (node : ℕ → Node) (l : List ℕ)

/-- The node is a load of the `i`th local. -/
def IsLoad (i m : ℕ) : Prop :=
  m ∈ l ∧ ∃ ident, (node m).kind = .getLocal ident ∧ g.virtualRegister ident = i

/-- The node is a store to the `i`th local. -/
def IsStore (i m : ℕ) : Prop :=
  m ∈ l ∧ ∃ ident, (node m).kind = .setLocal ident ∧ g.virtualRegister ident = i

/-- What the first and the last event of a local can be. -/
inductive LocalEvents (i : ℕ) : PhiOrNode → PhiOrNode → Prop
  | none : LocalEvents i .null .null
  | undef : LocalEvents i .undefValue .undefValue
  | load {m : ℕ} (h : IsLoad g node l i m) : LocalEvents i (.getLocal m) (.getLocal m)
  | loadStore {m m' : ℕ} (h : IsLoad g node l i m) (h' : IsStore g node l i m') :
    LocalEvents i (.getLocal m) (.setLocal m')
  | store {m : ℕ} (h : IsStore g node l i m) : LocalEvents i (.setLocal m) (.setLocal m)

/-- **Canonical form** of a list of nodes. -/
structure Canonical (ρ : ℕ → Option Ir.Value) (head tail : ℕ → PhiOrNode) : Prop where
  events : ∀ i, LocalEvents g node l i (head i) (tail i)
  load : ∀ i m, IsLoad g node l i m → head i = .getLocal m
  store : ∀ i m, IsStore g node l i m → tail i = .setLocal m
  after : ∀ done m rest, l = done ++ m :: rest → ∀ ident, (node m).kind = .setLocal ident →
    ∀ n ∈ rest, ∀ ident', (node n).kind = .getLocal ident' →
      g.virtualRegister ident' ≠ g.virtualRegister ident
  getLocal : ∀ n ∈ l, ∀ ident, (node n).kind = .getLocal ident → (node n).inputs = []
  setLocal : ∀ n ∈ l, ∀ ident, (node n).kind = .setLocal ident → ∃ e, (node n).inputs = [e]
  uses : ∀ done n rest, l = done ++ n :: rest →
    ∀ e ∈ (node n).inputs, Available node ρ done e.value

end Canonical

section Events

variable {g : Graph} {node : ℕ → Node} {l : List ℕ} {i m : ℕ} {e : PhiOrNode}

theorem LocalEvents.tail_null (h : LocalEvents g node l i e .null) : e = .null := by
  cases h
  rfl

theorem LocalEvents.tail_undef (h : LocalEvents g node l i e .undefValue) : e = .undefValue := by
  cases h
  rfl

/-- If the last event is a load, it is the only one. -/
theorem LocalEvents.tail_getLocal (h : LocalEvents g node l i e (.getLocal m)) :
    e = .getLocal m ∧ IsLoad g node l i m := by
  cases h with
  | load h => exact ⟨rfl, h⟩

/-- If the last event is a store, a load may stand before it. -/
theorem LocalEvents.tail_setLocal (h : LocalEvents g node l i e (.setLocal m)) :
    IsStore g node l i m ∧ (e = .setLocal m ∨ ∃ m', e = .getLocal m' ∧ IsLoad g node l i m') := by
  cases h with
  | loadStore h h' => exact ⟨h', .inr ⟨_, rfl, h⟩⟩
  | store h => exact ⟨h, .inl rfl⟩

/-- A phi is no event of a block. -/
theorem LocalEvents.tail_phi (h : LocalEvents g node l i e (.phi m)) : False := by
  cases h

/-- If the first event is a load, a store may follow. -/
theorem LocalEvents.head_getLocal (h : LocalEvents g node l i (.getLocal m) e) :
    IsLoad g node l i m ∧ (e = .getLocal m ∨ ∃ m', e = .setLocal m' ∧ IsStore g node l i m') := by
  cases h with
  | load h => exact ⟨h, .inl rfl⟩
  | loadStore h h' => exact ⟨h, .inr ⟨_, rfl, h'⟩⟩

end Events

section Congr

variable {g : Graph} {node node' : ℕ → Node} {l : List ℕ} {ρ ρ' : ℕ → Option Ir.Value}
  {head tail : ℕ → PhiOrNode} {i m : ℕ}

theorem IsLoad.congr (hnode : ∀ n ∈ l, node' n = node n) (h : IsLoad g node l i m) :
    IsLoad g node' l i m :=
  ⟨h.1, (hnode m h.1).symm ▸ h.2⟩

theorem IsStore.congr (hnode : ∀ n ∈ l, node' n = node n) (h : IsStore g node l i m) :
    IsStore g node' l i m :=
  ⟨h.1, (hnode m h.1).symm ▸ h.2⟩

/-- The form depends on the nodes of the list only. -/
theorem Canonical.congr (h : Canonical g node l ρ head tail) (hnode : ∀ n ∈ l, node' n = node n)
    (hρ : ∀ n ∈ l, ρ' n = ρ n) : Canonical g node' l ρ' head tail where
  events i := by
    have := h.events i
    generalize head i = e, tail i = e' at this
    cases this with
    | none => exact .none
    | undef => exact .undef
    | load h => exact .load (h.congr hnode)
    | loadStore h h' => exact .loadStore (h.congr hnode) (h'.congr hnode)
    | store h => exact .store (h.congr hnode)
  load i m hm := h.load i m (hm.congr fun n hn => (hnode n hn).symm)
  store i m hm := h.store i m (hm.congr fun n hn => (hnode n hn).symm)
  after done m rest hsplit ident hm n hn ident' hkind := by
    rw [hnode m (hsplit ▸ List.mem_append_right _ (.head _))] at hm
    rw [hnode n (hsplit ▸ List.mem_append_right _ (.tail _ hn))] at hkind
    exact h.after done m rest hsplit ident hm n hn ident' hkind
  getLocal n hn ident hkind := by
    rw [hnode n hn] at hkind ⊢
    exact h.getLocal n hn ident hkind
  setLocal n hn ident hkind := by
    rw [hnode n hn] at hkind ⊢
    exact h.setLocal n hn ident hkind
  uses done n rest hsplit e he := by
    rw [hnode n (hsplit ▸ List.mem_append_right _ (.head _))] at he
    have havail := h.uses done n rest hsplit e he
    cases hvalue : e.value with
    | constant _ => trivial
    | ssa x outputOrd =>
      rw [hvalue] at havail
      have hx : x ∈ l := hsplit ▸ List.mem_append_left _ havail.1
      exact ⟨havail.1, (hnode x hx).symm ▸ havail.2.1, (hρ x hx).trans havail.2.2⟩

end Congr

/-! ## Adding a node -/

/-- Where a list with one more element can be split. -/
theorem split_concat {l done rest : List ℕ} {n m : ℕ} (h : l ++ [n] = done ++ m :: rest) :
    (done = l ∧ m = n ∧ rest = []) ∨ ∃ rest', rest = rest' ++ [n] ∧ l = done ++ m :: rest' := by
  rcases List.eq_nil_or_concat rest with rfl | ⟨rest', a, rfl⟩
  · obtain ⟨rfl, hlast⟩ := List.append_inj' h rfl
    exact .inl ⟨rfl, (List.singleton_inj.mp hlast).symm, rfl⟩
  · rw [List.concat_eq_append, ← List.cons_append, ← List.append_assoc] at h
    obtain ⟨rfl, hlast⟩ := List.append_inj' h rfl
    exact .inr ⟨rest', by rw [List.singleton_inj.mp hlast, List.concat_eq_append], rfl⟩

section Concat

variable {g : Graph} {node node' : ℕ → Node} {l : List ℕ} {ρ ρ' : ℕ → Option Ir.Value}
  {head tail : ℕ → PhiOrNode} {n i : ℕ}

/-- A value stays available. -/
theorem Available.mono {l' : List ℕ} {v : Ir.Value} (h : Available node ρ l v) (hsub : l ⊆ l')
    (hnode : ∀ m ∈ l, (node' m).kind = (node m).kind) (hρ : ∀ m ∈ l, ρ' m = ρ m) :
    Available node' ρ' l' v := by
  cases v with
  | constant n => trivial
  | ssa m outputOrd =>
    obtain ⟨hmem, hout, hnone⟩ := h
    exact ⟨hsub hmem, (hnode m hmem).symm ▸ hout, (hρ m hmem).trans hnone⟩

/-- A load is still one with a node more. -/
theorem IsLoad.concat (hkinds : ∀ m ∈ l, (node' m).kind = (node m).kind) {m : ℕ}
    (h : IsLoad g node l i m) : IsLoad g node' (l ++ [n]) i m :=
  ⟨List.mem_append_left _ h.1, (hkinds m h.1).symm ▸ h.2⟩

theorem IsStore.concat (hkinds : ∀ m ∈ l, (node' m).kind = (node m).kind) {m : ℕ}
    (h : IsStore g node l i m) : IsStore g node' (l ++ [n]) i m :=
  ⟨List.mem_append_left _ h.1, (hkinds m h.1).symm ▸ h.2⟩

/-- So are the events of a local. -/
theorem LocalEvents.concat (hkinds : ∀ m ∈ l, (node' m).kind = (node m).kind) {e e' : PhiOrNode}
    (h : LocalEvents g node l i e e') : LocalEvents g node' (l ++ [n]) i e e' := by
  cases h with
  | none => exact .none
  | undef => exact .undef
  | load h => exact .load (h.concat hkinds)
  | loadStore h h' => exact .loadStore (h.concat hkinds) (h'.concat hkinds)
  | store h => exact .store (h.concat hkinds)

/-- What a new node is, and the tables around it. -/
structure Adds (node : ℕ → Node) (ρ : ℕ → Option Ir.Value) (l : List ℕ) (n : ℕ)
    (node' : ℕ → Node) (ρ' : ℕ → Option Ir.Value) : Prop where
  same : ∀ m ∈ l, node' m = node m
  replacement : ∀ m ∈ l, ρ' m = ρ m
  uses : ∀ e ∈ (node' n).inputs, Available node ρ l e.value

theorem Adds.kind (h : Adds node ρ l n node' ρ') : ∀ m ∈ l, (node' m).kind = (node m).kind :=
  fun m hm => congrArg Node.kind (h.same m hm)

/-- The inputs of the new node, and of the others. -/
theorem Canonical.concat_uses (h : Canonical g node l ρ head tail)
    (hadds : Adds node ρ l n node' ρ') {done rest : List ℕ} {m : ℕ}
    (hsplit : l ++ [n] = done ++ m :: rest) : ∀ e ∈ (node' m).inputs,
      Available node' ρ' done e.value := by
  intro e he
  rcases split_concat hsplit with ⟨rfl, rfl, rfl⟩ | ⟨rest', rfl, rfl⟩
  · exact (hadds.uses e he).mono (List.Subset.refl _) hadds.kind hadds.replacement
  · have hsub : done ⊆ done ++ m :: rest' := List.subset_append_left _ _
    rw [hadds.same m (List.mem_append_right _ (.head _))] at he
    exact (h.uses done m rest' rfl e he).mono (List.Subset.refl _)
      (fun x hx => hadds.kind x (hsub hx)) fun x hx => hadds.replacement x (hsub hx)

/-- No load after a store of its local, if the new node is not such a load. -/
theorem Canonical.concat_after (h : Canonical g node l ρ head tail)
    (hadds : Adds node ρ l n node' ρ')
    (hlast : ∀ ident', (node' n).kind = .getLocal ident' → ∀ m ∈ l, ∀ ident,
      (node m).kind = .setLocal ident → g.virtualRegister ident' ≠ g.virtualRegister ident)
    {done rest : List ℕ} {m : ℕ} (hsplit : l ++ [n] = done ++ m :: rest) {ident : LocalIdentifier}
    (hm : (node' m).kind = .setLocal ident) : ∀ x ∈ rest, ∀ ident',
      (node' x).kind = .getLocal ident' →
        g.virtualRegister ident' ≠ g.virtualRegister ident := by
  intro x hx ident' hkind
  rcases split_concat hsplit with ⟨rfl, rfl, rfl⟩ | ⟨rest', rfl, rfl⟩
  · exact absurd hx List.not_mem_nil
  · have hmem : m ∈ done ++ m :: rest' := List.mem_append_right _ (.head _)
    rw [hadds.kind m hmem] at hm
    rcases List.mem_append.mp hx with hx | hx
    · rw [hadds.kind x (List.mem_append_right _ (.tail _ hx))] at hkind
      exact h.after done m rest' rfl ident hm x hx ident' hkind
    · exact hlast ident' (List.mem_singleton.mp hx ▸ hkind) m hmem ident hm

/-- Loads have no inputs, if the new node has none in case it is one. -/
theorem Canonical.concat_getLocal (h : Canonical g node l ρ head tail)
    (hadds : Adds node ρ l n node' ρ')
    (hlast : ∀ ident, (node' n).kind = .getLocal ident → (node' n).inputs = []) :
    ∀ m ∈ l ++ [n], ∀ ident, (node' m).kind = .getLocal ident → (node' m).inputs = [] := by
  intro m hm ident hkind
  rcases List.mem_append.mp hm with hm | hm
  · rw [hadds.same m hm] at hkind ⊢
    exact h.getLocal m hm ident hkind
  · rw [List.mem_singleton.mp hm] at hkind ⊢
    exact hlast ident hkind

/-- Likewise stores have one. -/
theorem Canonical.concat_setLocal (h : Canonical g node l ρ head tail)
    (hadds : Adds node ρ l n node' ρ')
    (hlast : ∀ ident, (node' n).kind = .setLocal ident → ∃ e, (node' n).inputs = [e]) :
    ∀ m ∈ l ++ [n], ∀ ident, (node' m).kind = .setLocal ident →
      ∃ e, (node' m).inputs = [e] := by
  intro m hm ident hkind
  rcases List.mem_append.mp hm with hm | hm
  · rw [hadds.same m hm] at hkind ⊢
    exact h.setLocal m hm ident hkind
  · rw [List.mem_singleton.mp hm] at hkind ⊢
    exact hlast ident hkind

/-- A node that is not about locals. -/
theorem Canonical.concat_other (h : Canonical g node l ρ head tail)
    (hadds : Adds node ρ l n node' ρ') (hget : ∀ ident, (node' n).kind ≠ .getLocal ident)
    (hset : ∀ ident, (node' n).kind ≠ .setLocal ident) :
    Canonical g node' (l ++ [n]) ρ' head tail where
  events i := (h.events i).concat hadds.kind
  load i m hm := by
    obtain ⟨hmem, ident, hkind, hreg⟩ := hm
    rcases List.mem_append.mp hmem with hmem | hmem
    · exact h.load i m ⟨hmem, ident, hadds.kind m hmem ▸ hkind, hreg⟩
    · exact absurd hkind (List.mem_singleton.mp hmem ▸ hget ident)
  store i m hm := by
    obtain ⟨hmem, ident, hkind, hreg⟩ := hm
    rcases List.mem_append.mp hmem with hmem | hmem
    · exact h.store i m ⟨hmem, ident, hadds.kind m hmem ▸ hkind, hreg⟩
    · exact absurd hkind (List.mem_singleton.mp hmem ▸ hset ident)
  after _ _ _ hsplit _ hm := h.concat_after hadds (fun _ hn => absurd hn (hget _)) hsplit hm
  getLocal := h.concat_getLocal hadds fun _ hn => absurd hn (hget _)
  setLocal := h.concat_setLocal hadds fun _ hn => absurd hn (hset _)
  uses _ _ _ hsplit := h.concat_uses hadds hsplit

/-- The first load of a local. -/
theorem Canonical.concat_load (h : Canonical g node l ρ head tail)
    (hadds : Adds node ρ l n node' ρ') {ident : LocalIdentifier}
    (hn : (node' n).kind = .getLocal ident) (hreg : g.virtualRegister ident = i)
    (hinputs : (node' n).inputs = []) (hnull : tail i = .null) :
    Canonical g node' (l ++ [n]) ρ' (Function.update head i (.getLocal n))
      (Function.update tail i (.getLocal n)) := by
  have hnew : IsLoad g node' (l ++ [n]) i n :=
    ⟨List.mem_append_right _ (.head _), ident, hn, hreg⟩
  have hhead : head i = .null := (hnull ▸ h.events i).tail_null
  constructor
  case events =>
    intro j
    by_cases hj : j = i
    · subst hj
      rw [Function.update_self, Function.update_self]
      exact .load hnew
    · rw [Function.update_of_ne hj, Function.update_of_ne hj]
      exact (h.events j).concat hadds.kind
  case load =>
    rintro j m ⟨hmem, ident', hkind, rfl⟩
    rcases List.mem_append.mp hmem with hmem | hmem
    · have hj := h.load _ m ⟨hmem, ident', hadds.kind m hmem ▸ hkind, rfl⟩
      by_cases heq : g.virtualRegister ident' = i
      · rw [heq, hhead] at hj
        cases hj
      · rw [Function.update_of_ne heq, hj]
    · obtain rfl := List.mem_singleton.mp hmem
      rw [hn] at hkind
      cases hkind
      rw [hreg, Function.update_self]
  case store =>
    rintro j m ⟨hmem, ident', hkind, rfl⟩
    rcases List.mem_append.mp hmem with hmem | hmem
    · have hj := h.store _ m ⟨hmem, ident', hadds.kind m hmem ▸ hkind, rfl⟩
      by_cases heq : g.virtualRegister ident' = i
      · rw [heq, hnull] at hj
        cases hj
      · rw [Function.update_of_ne heq, hj]
    · obtain rfl := List.mem_singleton.mp hmem
      rw [hn] at hkind
      cases hkind
  case after =>
    refine fun _ _ _ hsplit _ hm => h.concat_after hadds (fun ident' hkind m hmem ident' hm => ?_)
      hsplit hm
    -- a store before the load would be the last event
    rw [hn] at hkind
    cases hkind
    intro heq
    have hstored := h.store _ m ⟨hmem, ident', hm, rfl⟩
    rw [← heq, hreg, hnull] at hstored
    cases hstored
  case getLocal => exact h.concat_getLocal hadds fun _ _ => hinputs
  case setLocal =>
    refine h.concat_setLocal hadds fun _ hkind => ?_
    rw [hn] at hkind
    cases hkind
  case uses => exact fun _ _ _ hsplit => h.concat_uses hadds hsplit

/-- The first event of a local after it is stored. -/
def headAfterStore (head tail : ℕ → PhiOrNode) (i n j : ℕ) : PhiOrNode :=
  match tail i with
  | .getLocal _ => head j
  | _ => Function.update head i (.setLocal n) j

theorem headAfterStore_of_ne {j : ℕ} (hj : j ≠ i) : headAfterStore head tail i n j = head j := by
  rw [headAfterStore]
  split
  · rfl
  · exact Function.update_of_ne hj _ _

/-- The first store of a local. -/
theorem Canonical.concat_store (h : Canonical g node l ρ head tail)
    (hadds : Adds node ρ l n node' ρ') {ident : LocalIdentifier}
    (hn : (node' n).kind = .setLocal ident) (hreg : g.virtualRegister ident = i)
    (hinputs : ∃ e, (node' n).inputs = [e]) (hnot : ∀ m, tail i ≠ .setLocal m) :
    Canonical g node' (l ++ [n]) ρ' (headAfterStore head tail i n)
      (Function.update tail i (.setLocal n)) := by
  have hnew : IsStore g node' (l ++ [n]) i n :=
    ⟨List.mem_append_right _ (.head _), ident, hn, hreg⟩
  constructor
  case events =>
    intro j
    by_cases hj : j = i
    · subst hj
      rw [Function.update_self]
      rw [headAfterStore]
      split
      case h_1 m heq =>
        obtain ⟨hhead, hload⟩ := (heq ▸ h.events j).tail_getLocal
        exact hhead ▸ .loadStore (hload.concat hadds.kind) hnew
      case h_2 =>
        rw [Function.update_self]
        exact .store hnew
    · rw [headAfterStore_of_ne hj, Function.update_of_ne hj]
      exact (h.events j).concat hadds.kind
  case load =>
    rintro j m ⟨hmem, ident', hkind, rfl⟩
    rcases List.mem_append.mp hmem with hmem | hmem
    · have hload : IsLoad g node l _ m := ⟨hmem, ident', hadds.kind m hmem ▸ hkind, rfl⟩
      have hj := h.load _ m hload
      by_cases heq : g.virtualRegister ident' = i
      · subst heq
        rcases (hj ▸ h.events _).head_getLocal.2 with htail | ⟨m', htail, -⟩
        · rw [headAfterStore, htail]
          exact hj
        · exact absurd htail (hnot m')
      · rw [headAfterStore_of_ne heq, hj]
    · obtain rfl := List.mem_singleton.mp hmem
      rw [hn] at hkind
      cases hkind
  case store =>
    rintro j m ⟨hmem, ident', hkind, rfl⟩
    rcases List.mem_append.mp hmem with hmem | hmem
    · have hj := h.store _ m ⟨hmem, ident', hadds.kind m hmem ▸ hkind, rfl⟩
      by_cases heq : g.virtualRegister ident' = i
      · exact absurd (heq ▸ hj) (hnot m)
      · rw [Function.update_of_ne heq, hj]
    · obtain rfl := List.mem_singleton.mp hmem
      rw [hn] at hkind
      cases hkind
      rw [hreg, Function.update_self]
  case after =>
    refine fun _ _ _ hsplit _ hm => h.concat_after hadds (fun ident' hkind => ?_) hsplit hm
    rw [hn] at hkind
    cases hkind
  case getLocal =>
    refine h.concat_getLocal hadds fun _ hkind => ?_
    rw [hn] at hkind
    cases hkind
  case setLocal => exact h.concat_setLocal hadds fun _ _ => hinputs
  case uses => exact fun _ _ _ hsplit => h.concat_uses hadds hsplit

end Concat

/-! ## A node becomes a `Nop`

A store that is overwritten, or a load whose value is known. -/

section Drop

variable {g : Graph} {node : ℕ → Node} {l : List ℕ} {ρ : ℕ → Option Ir.Value}
  {head tail head' tail' : ℕ → PhiOrNode} {m i : ℕ}

/-- The table in which a node became a `Nop`. -/
def dropNode (node : ℕ → Node) (m : ℕ) : ℕ → Node := Function.update node m (node m).convertToNop

@[simp] theorem dropNode_self : dropNode node m m = (node m).convertToNop :=
  Function.update_self ..

theorem dropNode_of_ne {n : ℕ} (h : n ≠ m) : dropNode node m n = node n :=
  Function.update_of_ne h _ _

/-- A node that is not a `Nop` is not the one that was dropped. -/
theorem dropNode_kind {n : ℕ} {kind : NodeKind} (h : (dropNode node m n).kind = kind)
    (hkind : kind ≠ .nop) : n ≠ m ∧ dropNode node m n = node n := by
  have hne : n ≠ m := by
    rintro rfl
    rw [dropNode_self] at h
    exact hkind h.symm
  exact ⟨hne, dropNode_of_ne hne⟩

/-- Dropping a node keeps its inputs, or some of them. -/
theorem mem_inputs_dropNode {n : ℕ} {e : Edge} (h : e ∈ (dropNode node m n).inputs) :
    e ∈ (node n).inputs := by
  by_cases hn : n = m
  · subst hn
    rw [dropNode_self] at h
    exact List.mem_of_mem_filter h
  · rwa [dropNode_of_ne hn] at h

/-- What is still a load was one. -/
theorem IsLoad.of_dropNode {j n : ℕ} (h : IsLoad g (dropNode node m) l j n) :
    n ≠ m ∧ IsLoad g node l j n := by
  obtain ⟨hmem, ident, hkind, hreg⟩ := h
  obtain ⟨hne, hnode⟩ := dropNode_kind hkind (by simp)
  exact ⟨hne, hmem, ident, hnode ▸ hkind, hreg⟩

theorem IsStore.of_dropNode {j n : ℕ} (h : IsStore g (dropNode node m) l j n) :
    n ≠ m ∧ IsStore g node l j n := by
  obtain ⟨hmem, ident, hkind, hreg⟩ := h
  obtain ⟨hne, hnode⟩ := dropNode_kind hkind (by simp)
  exact ⟨hne, hmem, ident, hnode ▸ hkind, hreg⟩

theorem IsLoad.dropNode {j n : ℕ} (h : IsLoad g node l j n) (hne : n ≠ m) :
    IsLoad g (dropNode node m) l j n :=
  ⟨h.1, (dropNode_of_ne hne).symm ▸ h.2⟩

theorem IsStore.dropNode {j n : ℕ} (h : IsStore g node l j n) (hne : n ≠ m) :
    IsStore g (dropNode node m) l j n :=
  ⟨h.1, (dropNode_of_ne hne).symm ▸ h.2⟩

/-- A node is not a load and a store. -/
theorem IsLoad.ne_store {j j' n n' : ℕ} (h : IsLoad g node l j n) (h' : IsStore g node l j' n') :
    n ≠ n' := by
  rintro rfl
  obtain ⟨-, ident, hkind, -⟩ := h
  obtain ⟨-, ident', hkind', -⟩ := h'
  rw [hkind] at hkind'
  cases hkind'

/-- A load or a store is one of one local only. -/
theorem IsLoad.unique {j j' n : ℕ} (h : IsLoad g node l j n) (h' : IsLoad g node l j' n) :
    j = j' := by
  obtain ⟨-, ident, hkind, rfl⟩ := h
  obtain ⟨-, ident', hkind', rfl⟩ := h'
  rw [hkind] at hkind'
  cases hkind'
  rfl

/-- A store is to one local. -/
theorem IsStore.unique {j j' n : ℕ} (h : IsStore g node l j n) (h' : IsStore g node l j' n) :
    j = j' := by
  obtain ⟨-, ident, hkind, rfl⟩ := h
  obtain ⟨-, ident', hkind', rfl⟩ := h'
  rw [hkind] at hkind'
  cases hkind'
  rfl

/-- The events of a local that the dropped node is not about. -/
theorem LocalEvents.dropNode {j : ℕ} {e e' : PhiOrNode} (h : LocalEvents g node l j e e')
    (hload : ¬ IsLoad g node l j m) (hstore : ¬ IsStore g node l j m) :
    LocalEvents g (dropNode node m) l j e e' := by
  cases h with
  | none => exact .none
  | undef => exact .undef
  | load h => exact .load (h.dropNode (by rintro rfl; exact hload h))
  | loadStore h h' =>
    exact .loadStore (h.dropNode (by rintro rfl; exact hload h))
      (h'.dropNode (by rintro rfl; exact hstore h'))
  | store h => exact .store (h.dropNode (by rintro rfl; exact hstore h))

/-- The parts of the form that speak of one node. -/
theorem Canonical.drop_of_events (h : Canonical g node l ρ head tail)
    (huses : ∀ n ∈ l, ∀ e ∈ (node n).inputs, ∀ outputOrd, e.value ≠ .ssa m outputOrd)
    (hevents : ∀ j, LocalEvents g (dropNode node m) l j (head' j) (tail' j))
    (hload : ∀ j n, n ≠ m → IsLoad g node l j n → head' j = .getLocal n)
    (hstore : ∀ j n, n ≠ m → IsStore g node l j n → tail' j = .setLocal n) :
    Canonical g (dropNode node m) l ρ head' tail' where
  events := hevents
  load j n hn := hload j n hn.of_dropNode.1 hn.of_dropNode.2
  store j n hn := hstore j n hn.of_dropNode.1 hn.of_dropNode.2
  after done n rest hsplit ident hkind x hx ident' hkind' := by
    have hn := (dropNode_kind hkind (by simp)).2
    have hx' := (dropNode_kind hkind' (by simp)).2
    exact h.after done n rest hsplit ident (hn ▸ hkind) x hx ident' (hx' ▸ hkind')
  getLocal n hn ident hkind := by
    have heq := (dropNode_kind hkind (by simp)).2
    exact heq ▸ h.getLocal n hn ident (heq ▸ hkind)
  setLocal n hn ident hkind := by
    have heq := (dropNode_kind hkind (by simp)).2
    exact heq ▸ h.setLocal n hn ident (heq ▸ hkind)
  uses done n rest hsplit e he := by
    have he' := mem_inputs_dropNode he
    have hmem : n ∈ l := hsplit ▸ List.mem_append_right _ (.head _)
    have havail := h.uses done n rest hsplit e he'
    cases hvalue : e.value with
    | constant _ => trivial
    | ssa x outputOrd =>
      rw [hvalue] at havail
      have hne : x ≠ m := by
        rintro rfl
        exact huses n hmem e he' outputOrd hvalue
      exact ⟨havail.1, (dropNode_of_ne hne).symm ▸ havail.2.1, havail.2.2⟩

/-- The store of a local is dropped. -/
theorem Canonical.dropStore (h : Canonical g node l ρ head tail) (hm : IsStore g node l i m)
    (hother : ∀ j, j ≠ i → head' j = head j ∧ tail' j = tail j)
    (hstore : head i = .setLocal m → head' i = .null ∧ tail' i = .null)
    (hload : head i ≠ .setLocal m → head' i = head i ∧ tail' i = head i) :
    Canonical g (dropNode node m) l ρ head' tail' := by
  have hnotLoad (j : ℕ) : ¬ IsLoad g node l j m := fun hl => hl.ne_store hm rfl
  have htail := h.store i m hm
  have hhead := (htail ▸ h.events i).tail_setLocal.2
  refine h.drop_of_events (fun n hn e he outputOrd hvalue => ?_) (fun j => ?_)
    (fun j n hne hn => ?_) fun j n hne hn => ?_
  · obtain ⟨done, rest, hsplit⟩ := List.append_of_mem hn
    have havail := h.uses done n rest hsplit e he
    rw [hvalue] at havail
    obtain ⟨-, ident, hkind, -⟩ := hm
    exact (hkind ▸ havail.2.1 : (NodeKind.setLocal ident).HasOutput outputOrd).elim
  · by_cases hj : j = i
    · subst hj
      rcases hhead with hhead | ⟨m', hhead, hl⟩
      · obtain ⟨hh, ht⟩ := hstore hhead
        rw [hh, ht]
        exact .none
      · obtain ⟨hh, ht⟩ := hload (by rw [hhead]; simp)
        rw [hh, ht, hhead]
        exact .load (hl.dropNode (hl.ne_store hm))
    · obtain ⟨hh, ht⟩ := hother j hj
      rw [hh, ht]
      exact (h.events j).dropNode (hnotLoad j) fun hs => hj (hs.unique hm)
  · have hj := h.load j n hn
    by_cases heq : j = i
    · subst heq
      exact (hload (by rw [hj]; simp)).1.trans hj
    · rw [(hother j heq).1, hj]
  · have hj := h.store j n hn
    by_cases heq : j = i
    · subst heq
      rw [htail] at hj
      cases hj
      exact absurd rfl hne
    · rw [(hother j heq).2, hj]

/-- The load of a local, to which no node refers, is dropped. -/
theorem Canonical.dropLoad (h : Canonical g node l ρ head tail) (hm : IsLoad g node l i m)
    (huses : ∀ n ∈ l, ∀ e ∈ (node n).inputs, ∀ outputOrd, e.value ≠ .ssa m outputOrd)
    (hother : ∀ j, j ≠ i → head' j = head j ∧ tail' j = tail j)
    (hload : tail i = .getLocal m → head' i = .null ∧ tail' i = .null)
    (hstore : tail i ≠ .getLocal m → head' i = tail i ∧ tail' i = tail i) :
    Canonical g (dropNode node m) l ρ head' tail' := by
  have hnotStore (j : ℕ) : ¬ IsStore g node l j m := fun hs => hm.ne_store hs rfl
  have hhead := h.load i m hm
  have htail := (hhead ▸ h.events i).head_getLocal.2
  refine h.drop_of_events huses (fun j => ?_) (fun j n hne hn => ?_) fun j n hne hn => ?_
  · by_cases hj : j = i
    · subst hj
      rcases htail with htail | ⟨m', htail, hs⟩
      · obtain ⟨hh, ht⟩ := hload htail
        rw [hh, ht]
        exact .none
      · obtain ⟨hh, ht⟩ := hstore (by rw [htail]; simp)
        rw [hh, ht, htail]
        exact .store (hs.dropNode (hm.ne_store hs).symm)
    · obtain ⟨hh, ht⟩ := hother j hj
      rw [hh, ht]
      exact (h.events j).dropNode (fun hl => hj (hl.unique hm)) (hnotStore j)
  · have hj := h.load j n hn
    by_cases heq : j = i
    · subst heq
      rw [hhead] at hj
      cases hj
      exact absurd rfl hne
    · rw [(hother j heq).1, hj]
  · have hj := h.store j n hn
    by_cases heq : j = i
    · subst heq
      exact (hstore (by rw [hj]; simp)).2.trans hj
    · rw [(hother j heq).2, hj]

/-- The value that is stored is available. -/
theorem Canonical.soleInput_available (h : Canonical g node l ρ head tail)
    (hm : IsStore g node l i m) : Available node ρ l (g.soleInput (node m)) := by
  obtain ⟨hmem, ident, hkind, -⟩ := hm
  obtain ⟨e, he⟩ := h.setLocal m hmem ident hkind
  obtain ⟨before, after, rfl⟩ := List.append_of_mem hmem
  rw [Graph.soleInput, he]
  exact (h.uses before m after rfl e (he ▸ .head _)).mono (List.subset_append_left _ _)
    (fun _ _ => rfl) fun _ _ => rfl

end Drop

/-! ## What dropping a node does to a run -/

section Run

variable {Val : Type} {β : Behaviour Val} {g : Graph} {node : ℕ → Node} {l : List ℕ}
  {ρ : ℕ → Option Ir.Value} {head tail : ℕ → PhiOrNode} {c c' : Config Val} {m i : ℕ}

/-- Two configurations differ in one local only. -/
structure SameButLocal (i : ℕ) (c c' : Config Val) : Prop where
  events : c.events = c'.events
  env : c.env = c'.env
  locals : ∀ j, j ≠ i → c.locals j = c'.locals j

/-- A node that does not load the local does the same. -/
theorem SameButLocal.exec {n : ℕ} {node : Node} (h : SameButLocal i c c')
    (hload : ∀ ident, node.kind = .getLocal ident → g.virtualRegister ident ≠ i) :
    SameButLocal i (g.exec β n node c) (g.exec β n node c') := by
  obtain ⟨hevents, henv, hlocals⟩ := h
  rcases node.kind.cases with ⟨ident, hkind⟩ | ⟨ident, hkind⟩ | hkind | hkind
  · rw [exec_getLocal hkind, exec_getLocal hkind, henv, hevents, hlocals _ (hload ident hkind)]
    exact ⟨rfl, rfl, hlocals⟩
  · rw [exec_setLocal hkind, exec_setLocal hkind, henv, hevents]
    refine ⟨rfl, rfl, fun j hj => ?_⟩
    dsimp only
    by_cases heq : j = g.virtualRegister ident
    · rw [heq, Function.update_self, Function.update_self]
    · rw [Function.update_of_ne heq, Function.update_of_ne heq, hlocals j hj]
  · rw [exec_nop hkind, exec_nop hkind, henv, hevents]
    exact ⟨rfl, rfl, hlocals⟩
  · rw [exec_other hkind, exec_other hkind, henv, hevents]
    exact ⟨rfl, rfl, hlocals⟩

/-- So do several nodes. -/
theorem SameButLocal.execNodes (h : SameButLocal i c c')
    (hload : ∀ n ∈ l, ∀ ident, (node n).kind = .getLocal ident → g.virtualRegister ident ≠ i) :
    SameButLocal i (g.execNodes β node l c) (g.execNodes β node l c') := by
  induction l generalizing c c' with
  | nil => exact h
  | cons n l ih =>
    obtain ⟨hn, hl⟩ := List.forall_mem_cons.mp hload
    exact ih (h.exec hn) hl

/-- Without a store its local keeps another value, and nothing else is different. -/
theorem Canonical.execNodes_dropStore (h : Canonical g node l ρ head tail) (hnodup : l.Nodup)
    (hm : IsStore g node l i m) :
    SameButLocal i (g.execNodes β (dropNode node m) l c) (g.execNodes β node l c) := by
  obtain ⟨hmem, ident, hkind, rfl⟩ := hm
  obtain ⟨done, rest, rfl⟩ := List.append_of_mem hmem
  obtain ⟨-, hnodup', hdisj⟩ := List.nodup_append'.mp hnodup
  have hrest : m ∉ rest := (List.nodup_cons.mp hnodup').1
  have hdone : m ∉ done := fun hin => hdisj hin (.head _)
  have hsame (l : List ℕ) (hl : m ∉ l) (c : Config Val) :
      g.execNodes β (dropNode node m) l c = g.execNodes β node l c :=
    execNodes_congr fun n hn => dropNode_of_ne (by rintro rfl; exact hl hn)
  rw [← List.singleton_append, execNodes_append, execNodes_append, execNodes_append,
    execNodes_append, hsame done hdone, hsame rest hrest]
  refine SameButLocal.execNodes ?_ (h.after done m rest rfl ident hkind)
  generalize g.execNodes β node done c = c₁
  have hdrop : g.execNodes β (dropNode node m) [m] c₁ = g.exec β m (node m).convertToNop c₁ := by
    rw [← dropNode_self (m := m)]
    rfl
  have hkeep : g.execNodes β node [m] c₁ = g.exec β m (node m) c₁ := rfl
  rw [hdrop, hkeep, exec_convertToNop, exec_setLocal hkind]
  exact ⟨rfl, rfl, fun j hj => (Function.update_of_ne hj _ _).symm⟩

/-- Two configurations differ in the outputs of one node only. -/
structure SameButNode (m : ℕ) (c c' : Config Val) : Prop where
  events : c.events = c'.events
  env : ∀ n, n ≠ m → c.env n = c'.env n
  locals : c.locals = c'.locals

/-- Other values are the same. -/
theorem SameButNode.eval (h : SameButNode m c c') {v : Ir.Value}
    (hv : ∀ outputOrd, v ≠ .ssa m outputOrd) : β.eval c.env v = β.eval c'.env v := by
  cases v with
  | constant _ => rfl
  | ssa n outputOrd =>
    have hne : n ≠ m := by
      rintro rfl
      exact hv outputOrd rfl
    exact congrFun (h.env n hne) outputOrd

/-- A node that does not use the value does the same. -/
theorem SameButNode.exec {n : ℕ} {node : Node} (h : SameButNode m c c')
    (huses : ∀ e ∈ node.inputs, ∀ outputOrd, e.value ≠ .ssa m outputOrd)
    (hset : ∀ ident, node.kind = .setLocal ident → ∃ e, node.inputs = [e]) :
    SameButNode m (g.exec β n node c) (g.exec β n node c') := by
  have hchecks : β.runChecks n c.env node.inputs c.events =
      β.runChecks n c'.env node.inputs c'.events := by
    rw [runChecks_map (ρ := fun e => e) n c.events (fun _ => rfl) (fun _ => rfl)
      fun e he => h.eval (huses e he), List.map_id', h.events]
  have hupdate (f f' : ℕ → Val) (hf : f = f') (x : ℕ) (hx : x ≠ m) :
      Function.update c.env n f x = Function.update c'.env n f' x := by
    by_cases heq : x = n
    · rw [heq, Function.update_self, Function.update_self, hf]
    · rw [Function.update_of_ne heq, Function.update_of_ne heq, h.env x hx]
  rcases node.kind.cases with ⟨ident, hkind⟩ | ⟨ident, hkind⟩ | hkind | hkind
  · rw [exec_getLocal hkind, exec_getLocal hkind, hchecks]
    exact ⟨rfl, hupdate _ _ (by rw [h.locals]), h.locals⟩
  · rw [exec_setLocal hkind, exec_setLocal hkind, hchecks]
    obtain ⟨e, hinputs⟩ := hset ident hkind
    have hvalue : β.eval c.env (g.soleInput node) = β.eval c'.env (g.soleInput node) := by
      rw [Graph.soleInput, hinputs]
      exact h.eval (huses e (hinputs ▸ .head _))
    exact ⟨rfl, h.env, by rw [hvalue, h.locals]⟩
  · rw [exec_nop hkind, exec_nop hkind, hchecks]
    exact ⟨rfl, h.env, h.locals⟩
  · rw [exec_other hkind, exec_other hkind, hchecks]
    have hvalues : (node.inputs.map fun e => β.eval c.env e.value) =
        node.inputs.map fun e => β.eval c'.env e.value :=
      List.map_congr_left fun e he => h.eval (huses e he)
    rw [hvalues]
    exact ⟨rfl, hupdate _ _ rfl, h.locals⟩

/-- Without a load that no node refers to, its output is different and nothing else. -/
theorem Canonical.execNodes_dropLoad (h : Canonical g node l ρ head tail)
    (hm : IsLoad g node l i m)
    (huses : ∀ n ∈ l, ∀ e ∈ (node n).inputs, ∀ outputOrd, e.value ≠ .ssa m outputOrd) :
    SameButNode m (g.execNodes β (dropNode node m) l c) (g.execNodes β node l c) := by
  obtain ⟨-, ident, hkind, -⟩ := hm
  refine Folds.foldl_prefix (P := fun done c' =>
    SameButNode m c' (g.execNodes β node done c)) ⟨rfl, fun _ _ => rfl, rfl⟩ ?_
  intro done n rest c' hsplit hsame
  rw [execNodes_concat]
  have hn : n ∈ l := hsplit ▸ List.mem_append_right _ (.head _)
  by_cases heq : n = m
  · subst heq
    rw [dropNode_self, exec_convertToNop, exec_getLocal hkind, h.getLocal n hn ident hkind]
    exact ⟨hsame.events, fun x hx =>
      (hsame.env x hx).trans (Function.update_of_ne hx _ _).symm, hsame.locals⟩
  · rw [dropNode_of_ne heq]
    exact hsame.exec (huses n hn) (h.setLocal n hn)

end Run

end LocalSsa

end Dsom
