import Dsom.Foundations.Arena
import Dsom.Foundations.Chain
import Dsom.Foundations.Ensures

/-!
# Runtime/UpvalueList — the list of open upvalues

`Upvalue::Create`, `Upvalue::Close` and `CoroutineRuntimeContext::CloseUpvalues` of
`runtime/runtime_utils.h`.  Upvalue objects live in a heap; those that still point into the stack
are chained through `m_prev`, from the highest address down.

`OpenList s head l` is the invariant: `l` is the chain from `head`, it has exactly the open
upvalues and their addresses go down.  Each operation keeps it and ends without failing an
assertion; what they do is `create_spec` and `closeUpvalues_spec`, and `openUpvalues_run` puts them
together for every run.
-/

namespace Dsom

namespace UpvalueList

open Chain

/-- A `TValue*`: a stack slot, or the `m_tv` of an upvalue. -/
inductive TValuePtr where
  | stack (slot : ℕ)
  | tv (upvalue : ℕ)
  deriving DecidableEq

variable {V : Type}

/-- `Upvalue`; `m_tv` is not set before the upvalue is closed. -/
structure Upvalue (V : Type) where
  ptr : TValuePtr
  isClosed : Bool
  isImmutable : Bool
  tv : Option V
  prev : Option ℕ

/-- `CoroutineRuntimeContext` with the objects and the stack. -/
structure Context (V : Type) where
  upvalueList : Option ℕ
  heap : Arena (Upvalue V)
  stack : ℕ → V

/-- `a < b` for two stack slots; pointers into the heap are never compared. -/
def TValuePtr.lt : TValuePtr → TValuePtr → Bool
  | stack a, stack b => a < b
  | _, _ => false

@[simp] theorem TValuePtr.lt_stack {a b : ℕ} :
    TValuePtr.lt (.stack a) (.stack b) = decide (a < b) := rfl

/-- `CreateUpvalueImpl`. -/
def createUpvalueImpl (prev : Option ℕ) (dst : ℕ) (isImmutable : Bool) (s : Context V) :
    Context V × ℕ :=
  ({ s with heap := s.heap.push ⟨.stack dst, false, isImmutable, none, prev⟩ }, s.heap.size)

/-- The new node goes between `cur` and `prev`. -/
def insertBetween (cur : ℕ) (prev : Option ℕ) (dst : ℕ) (isImmutable : Bool) (s : Context V) :
    Context V × ℕ :=
  let (s, newNode) := createUpvalueImpl prev dst isImmutable s
  ({ s with heap := s.heap.modify cur fun uv => { uv with prev := some newNode } }, newNode)

/-- The loop of `Create`, with its assertions; the fuel is the number of objects. -/
def createLoop (dst : ℕ) (isImmutable : Bool) (s : Context V) : ℕ → ℕ → Option (Context V × ℕ)
  | 0, _ => none
  | fuel + 1, cur =>
    let node := s.heap.get cur
    testAssert (node.isClosed = false ∧ node.ptr.lt (.stack dst) = false) <|
    if node.ptr = .stack dst then some (s, cur)
    else
      match node.prev with
      | none => some (insertBetween cur none dst isImmutable s)
      | some prev =>
        let prevNode := s.heap.get prev
        testAssert (prevNode.isClosed = false ∧ prevNode.ptr.lt node.ptr = true) <|
        if prevNode.ptr.lt (.stack dst) then
          some (insertBetween cur (some prev) dst isImmutable s)
        else createLoop dst isImmutable s fuel prev

/-- `Upvalue::Create`. -/
def create (dst : ℕ) (isImmutable : Bool) (s : Context V) : Option (Context V × ℕ) :=
  let insertFirst :=
    let (s, newNode) := createUpvalueImpl s.upvalueList dst isImmutable s
    ({ s with upvalueList := some newNode }, newNode)
  match s.upvalueList with
  | none => some insertFirst
  | some head =>
    if (s.heap.get head).ptr.lt (.stack dst) then some insertFirst
    else createLoop dst isImmutable s s.heap.size head

/-- `*ptr`. -/
def load (s : Context V) : TValuePtr → Option V
  | .stack slot => some (s.stack slot)
  | .tv uv => (s.heap.get uv).tv

/-- `Upvalue::Close`. -/
def close (uv : ℕ) (s : Context V) : Option (Context V) :=
  let node := s.heap.get uv
  testAssert (node.isClosed = false ∧ node.ptr ≠ .tv uv) <|
  some { s with heap := s.heap.modify uv fun node =>
    { node with tv := load s node.ptr, ptr := .tv uv, isClosed := true } }

/-- The loop of `CloseUpvalues`. -/
def closeLoop (base : ℕ) : ℕ → Option ℕ → Context V → Option (Context V)
  | _, none, s => some { s with upvalueList := none }
  | 0, some _, _ => none
  | fuel + 1, some cur, s =>
    let node := s.heap.get cur
    if node.ptr.lt (.stack base) then some { s with upvalueList := some cur }
    else
      testAssert (node.isClosed = false ∧ ∀ prev ∈ node.prev, (s.heap.get prev).ptr.lt node.ptr) <|
      (close cur s).bind fun s => closeLoop base fuel node.prev s

/-- `CloseUpvalues`. -/
def closeUpvalues (base : ℕ) (s : Context V) : Option (Context V) :=
  closeLoop base s.heap.size s.upvalueList s

/-! ## The invariant

The list is sorted by the slots, and has every open upvalue once. -/

/-- The stack slot of an open upvalue. -/
def slotOf (s : Context V) (uv : ℕ) : ℕ :=
  match (s.heap.get uv).ptr with
  | .stack slot => slot
  | .tv _ => 0

/-- The upvalue points at a stack slot. -/
structure IsOpen (s : Context V) (uv : ℕ) : Prop where
  lt : uv < s.heap.size
  isClosed : (s.heap.get uv).isClosed = false
  ptr : (s.heap.get uv).ptr = .stack (slotOf s uv)

/-- **The list of open upvalues** from `head` on: the chain has exactly the open upvalues, from the
highest slot down. -/
structure OpenList (s : Context V) (head : Option ℕ) (l : List ℕ) : Prop where
  chain : IsLinked (fun uv => (s.heap.get uv).prev) head l
  isOpen : ∀ uv ∈ l, IsOpen s uv
  sorted : l.Pairwise fun uv uv' => slotOf s uv' < slotOf s uv
  complete : ∀ uv < s.heap.size, (s.heap.get uv).isClosed = false → uv ∈ l

/-- No upvalue is in the list twice. -/
theorem OpenList.nodup {s : Context V} {head : Option ℕ} {l : List ℕ}
    (h : OpenList s head l) : l.Nodup :=
  h.sorted.imp fun hlt heq => by rw [heq] at hlt; exact Nat.lt_irrefl _ hlt

/-- The list is not longer than the heap. -/
theorem OpenList.length_le {s : Context V} {head : Option ℕ} {l : List ℕ} (h : OpenList s head l) :
    l.length ≤ s.heap.size :=
  length_le_of_lt h.nodup fun uv huv => (h.isOpen uv huv).lt

/-! ## Creating

An upvalue for a slot is looked up, and made where it is not there. -/

variable {s : Context V} {l : List ℕ} {dst : ℕ} {isImmutable : Bool}

/-- **The two outcomes of `Create`**: the open upvalue of the slot, or a new one in its place of the
list. -/
inductive Created (dst : ℕ) (isImmutable : Bool) (s : Context V) (l : List ℕ) (s' : Context V)
    (uv : ℕ) : Prop
  | found (mem : uv ∈ l) (slot : slotOf s uv = dst) (same : s' = s)
  | new (l₁ l₂ : List ℕ) (split : l = l₁ ++ l₂) (above : ∀ p ∈ l₁, dst < slotOf s p)
      (below : ∀ p ∈ l₂, slotOf s p < dst) (fresh : uv = s.heap.size)
      (size : s'.heap.size = s.heap.size + 1) (stack : s'.stack = s.stack)
      (node : ∃ prev, s'.heap.get uv = ⟨.stack dst, false, isImmutable, none, prev⟩)
      (others : ∀ p < s.heap.size, ∃ prev, s'.heap.get p = { s.heap.get p with prev := prev })
      (list : OpenList s' s'.upvalueList (l₁ ++ uv :: l₂))

/-- A new node, and at most the link of another one changed. -/
structure Extends (s s' : Context V) (dst : ℕ) (isImmutable : Bool) : Prop where
  size : s'.heap.size = s.heap.size + 1
  stack : s'.stack = s.stack
  node : ∃ prev, s'.heap.get s.heap.size = ⟨.stack dst, false, isImmutable, none, prev⟩
  others : ∀ p < s.heap.size, ∃ prev, s'.heap.get p = { s.heap.get p with prev := prev }

section Extends

variable {s' : Context V} (h : Extends s s' dst isImmutable)
include h

/-- The new upvalue is for the slot asked for. -/
theorem Extends.slotOf_new : slotOf s' s.heap.size = dst := by
  obtain ⟨prev, hnode⟩ := h.node
  rw [slotOf, hnode]

theorem Extends.slotOf_old {p : ℕ} (hp : p < s.heap.size) : slotOf s' p = slotOf s p := by
  obtain ⟨prev, hother⟩ := h.others p hp
  rw [slotOf, hother, slotOf]

/-- The new upvalue is open. -/
theorem Extends.isOpen_new : IsOpen s' s.heap.size := by
  obtain ⟨prev, hnode⟩ := h.node
  refine ⟨by rw [h.size]; exact Nat.lt_succ_self _, by rw [hnode], ?_⟩
  rw [h.slotOf_new, hnode]

/-- Open upvalues stay open. -/
theorem Extends.isOpen_old {p : ℕ} (hp : IsOpen s p) : IsOpen s' p := by
  obtain ⟨prev, hother⟩ := h.others p hp.lt
  refine ⟨by rw [h.size]; exact Nat.lt_succ_of_lt hp.lt, by rw [hother]; exact hp.isClosed, ?_⟩
  rw [h.slotOf_old hp.lt, hother]
  exact hp.ptr

/-- **A new node in its place keeps the list**, if the links are right. -/
theorem Extends.created (hl : OpenList s s.upvalueList l) {l₁ l₂ : List ℕ} (hsplit : l = l₁ ++ l₂)
    (above : ∀ p ∈ l₁, dst < slotOf s p) (below : ∀ p ∈ l₂, slotOf s p < dst)
    (hchain : IsLinked (fun uv => (s'.heap.get uv).prev) s'.upvalueList
      (l₁ ++ s.heap.size :: l₂)) :
    Created dst isImmutable s l s' s.heap.size := by
  refine .new l₁ l₂ hsplit above below rfl h.size h.stack h.node h.others ⟨hchain, ?_, ?_, ?_⟩
  · intro uv huv
    rcases List.mem_append.mp huv with h₁ | h₂
    · exact h.isOpen_old (hl.isOpen uv (hsplit ▸ List.mem_append_left _ h₁))
    · rcases List.mem_cons.mp h₂ with rfl | h₂
      · exact h.isOpen_new
      · exact h.isOpen_old (hl.isOpen uv (hsplit ▸ List.mem_append_right _ h₂))
  · have hold : ∀ p ∈ l, slotOf s' p = slotOf s p := fun p hp => h.slotOf_old (hl.isOpen p hp).lt
    have hsorted := hl.sorted.imp_of_mem (S := fun uv uv' => slotOf s' uv' < slotOf s' uv)
      fun ha hb hlt => by rwa [hold _ ha, hold _ hb]
    rw [hsplit] at hsorted hold
    obtain ⟨hs₁, hs₂, hs₁₂⟩ := List.pairwise_append.mp hsorted
    refine List.pairwise_append.mpr ⟨hs₁, List.pairwise_cons.mpr ⟨fun p hp => ?_, hs₂⟩, ?_⟩
    · rw [h.slotOf_new, hold p (List.mem_append_right _ hp)]
      exact below p hp
    · intro a ha b hb
      rcases List.mem_cons.mp hb with rfl | hb
      · rw [h.slotOf_new, hold a (List.mem_append_left _ ha)]
        exact above a ha
      · exact hs₁₂ a ha b hb
  · intro uv huv hopen
    rw [h.size, Nat.lt_succ_iff_lt_or_eq] at huv
    rcases huv with huv | rfl
    · obtain ⟨prev, hother⟩ := h.others uv huv
      rw [hother] at hopen
      have hmem := hl.complete uv huv hopen
      rw [hsplit] at hmem
      rcases List.mem_append.mp hmem with h₁ | h₂
      · exact List.mem_append_left _ h₁
      · exact List.mem_append_right _ (List.mem_cons_of_mem _ h₂)
    · simp

end Extends

/-- A new node in front of the list. -/
theorem insertFirst_created (hl : OpenList s s.upvalueList l) (below : ∀ p ∈ l, slotOf s p < dst) :
    let (s', newNode) := createUpvalueImpl s.upvalueList dst isImmutable s
    Created dst isImmutable s l { s' with upvalueList := some newNode } newNode := by
  have hext : Extends s { (createUpvalueImpl s.upvalueList dst isImmutable s).1 with
      upvalueList := some s.heap.size } dst isImmutable :=
    { size := rfl
      stack := rfl
      node := ⟨s.upvalueList, by simp [createUpvalueImpl]⟩
      others := fun p hp => ⟨(s.heap.get p).prev,
        by simp [createUpvalueImpl, Arena.get_push_of_lt, hp]⟩ }
  have hsplit : l = [] ++ l := rfl
  refine hext.created hl hsplit (by simp) below ⟨rfl, ?_⟩
  simp only [createUpvalueImpl, Arena.get_push_self]
  refine hl.chain.congr fun p hp => ?_
  rw [Arena.get_push_of_lt _ (hl.isOpen p hp).lt]

/-- A new node behind `cur`. -/
theorem insertBetween_created (hl : OpenList s s.upvalueList l) {l₁ l₂ : List ℕ} {cur : ℕ}
    (hsplit : l = l₁ ++ cur :: l₂) (above : ∀ p ∈ l₁, dst < slotOf s p) (hcur : dst < slotOf s cur)
    (below : ∀ p ∈ l₂, slotOf s p < dst) :
    Created dst isImmutable s l (insertBetween cur (s.heap.get cur).prev dst isImmutable s).1
      (insertBetween cur (s.heap.get cur).prev dst isImmutable s).2 := by
  have hlt : ∀ {p}, p ∈ l → p < s.heap.size := fun hp => (hl.isOpen _ hp).lt
  have hcurlt : cur < s.heap.size := hlt (by simp [hsplit])
  have hget : ∀ {p}, p < s.heap.size → p ≠ cur →
      (insertBetween cur (s.heap.get cur).prev dst isImmutable s).1.heap.get p = s.heap.get p := by
    intro p hp hne
    simp only [insertBetween, createUpvalueImpl]
    rw [Arena.get_modify_of_ne _ hne, Arena.get_push_of_lt _ hp]
  have hgetcur : (insertBetween cur (s.heap.get cur).prev dst isImmutable s).1.heap.get cur =
      { s.heap.get cur with prev := some s.heap.size } := by
    simp only [insertBetween, createUpvalueImpl, Arena.get_modify_self]
    rw [Arena.get_push_of_lt _ hcurlt]
  have hgetnew : (insertBetween cur (s.heap.get cur).prev dst isImmutable s).1.heap.get
      s.heap.size = ⟨.stack dst, false, isImmutable, none, (s.heap.get cur).prev⟩ := by
    simp only [insertBetween, createUpvalueImpl]
    rw [Arena.get_modify_of_ne _ (Nat.ne_of_gt hcurlt), Arena.get_push_self]
  have hext : Extends s (insertBetween cur (s.heap.get cur).prev dst isImmutable s).1 dst
      isImmutable :=
    { size := rfl
      stack := rfl
      node := ⟨_, hgetnew⟩
      others := fun p hp => by
        by_cases hpc : p = cur
        · exact ⟨some s.heap.size, by rw [hpc, hgetcur]⟩
        · exact ⟨(s.heap.get p).prev, by rw [hget hp hpc]⟩ }
  have hnodup := hl.nodup
  rw [hsplit] at hnodup
  have hne : ∀ p, p ∈ l₁ ∨ p ∈ l₂ → p ≠ cur := by
    rintro p hp rfl
    obtain ⟨-, hn₂, hdisj⟩ := List.nodup_append.mp hnodup
    rcases hp with hp | hp
    · exact hdisj p hp p List.mem_cons_self rfl
    · exact (List.nodup_cons.mp hn₂).1 hp
  have hsplit' : l = (l₁ ++ [cur]) ++ l₂ := by simp [hsplit]
  refine hext.created hl hsplit' ?_ below ?_
  · intro p hp
    rcases List.mem_append.mp hp with hp | hp
    · exact above p hp
    · rwa [List.mem_singleton.mp hp]
  · rw [List.append_assoc]
    have hchain := hl.chain
    rw [hsplit] at hchain
    refine IsLinked.insert (by rw [hgetcur]) (by rw [hgetnew]) (fun p hp => ?_)
      (fun p hp => ?_) hchain
    · rw [hget (hlt (by simp [hsplit, hp])) (hne p (Or.inr hp))]
    · rw [hget (hlt (by simp [hsplit, hp])) (hne p (Or.inl hp))]

/-- **The search** from `cur` on: by induction on the fuel, `l₂` being what is left of the list. -/
theorem createLoop_spec (hl : OpenList s s.upvalueList l) : ∀ {fuel cur : ℕ} {l₁ l₂ : List ℕ},
    l = l₁ ++ cur :: l₂ → l₂.length < fuel → (∀ p ∈ l₁, dst < slotOf s p) → dst ≤ slotOf s cur →
    ∃ s' uv, createLoop dst isImmutable s fuel cur = some (s', uv) ∧
      Created dst isImmutable s l s' uv
  | 0, _, _, _, _, hfuel, _, _ => absurd hfuel (Nat.not_lt_zero _)
  | fuel + 1, cur, l₁, l₂, hsplit, hfuel, above, hcur => by
    have hopen := hl.isOpen cur (by simp [hsplit])
    have hchain := hl.chain
    rw [hsplit] at hchain
    have htail := hchain.tail_of_append
    have hsorted := hl.sorted
    rw [hsplit] at hsorted
    have hbelow : ∀ p ∈ l₂, slotOf s p < slotOf s cur :=
      (List.pairwise_cons.mp (List.pairwise_append.mp hsorted).2.1).1
    have hassert : (s.heap.get cur).isClosed = false ∧
        (s.heap.get cur).ptr.lt (.stack dst) = false := by
      rw [hopen.ptr]
      exact ⟨hopen.isClosed, by simpa using hcur⟩
    rw [createLoop, testAssert, if_pos hassert]
    by_cases hfound : (s.heap.get cur).ptr = .stack dst
    · rw [if_pos hfound]
      refine ⟨s, cur, rfl, .found (by simp [hsplit]) ?_ rfl⟩
      rw [hopen.ptr] at hfound
      exact TValuePtr.stack.inj hfound
    have hlt : dst < slotOf s cur := by
      refine Nat.lt_of_le_of_ne hcur fun heq => hfound ?_
      rw [hopen.ptr, heq]
    rw [if_neg hfound]
    split
    · next hprev =>
      rw [hprev] at htail
      obtain rfl := isLinked_none htail
      have hins : Created dst isImmutable s l _ _ :=
        insertBetween_created hl hsplit above hlt (by simp)
      rw [hprev] at hins
      exact ⟨_, _, rfl, hins⟩
    · next prev hprev =>
      rw [hprev] at htail
      obtain ⟨rest, rfl, hrest⟩ := isLinked_some htail
      have hprevOpen := hl.isOpen prev (by simp [hsplit])
      have hprevLt := hbelow prev List.mem_cons_self
      have hassert' : (s.heap.get prev).isClosed = false ∧
          (s.heap.get prev).ptr.lt (s.heap.get cur).ptr = true := by
        rw [hprevOpen.ptr, hopen.ptr]
        exact ⟨hprevOpen.isClosed, by simpa using hprevLt⟩
      rw [testAssert, if_pos hassert', hprevOpen.ptr, TValuePtr.lt_stack]
      by_cases hins : slotOf s prev < dst
      · rw [if_pos (by simpa using hins)]
        have hprevs := (List.pairwise_cons.mp (List.pairwise_append.mp hsorted).2.1).2
        have hcreated : Created dst isImmutable s l _ _ :=
          insertBetween_created hl hsplit above hlt (fun p hp => by
            rcases List.mem_cons.mp hp with rfl | hp
            · exact hins
            · exact Nat.lt_trans ((List.pairwise_cons.mp hprevs).1 p hp) hins)
        rw [hprev] at hcreated
        exact ⟨_, _, rfl, hcreated⟩
      · rw [if_neg (by simpa using hins)]
        have hsplit' : l = (l₁ ++ [cur]) ++ prev :: rest := by simp [hsplit]
        refine createLoop_spec hl hsplit' (Nat.lt_of_succ_lt_succ hfuel) (fun p hp => ?_)
          (Nat.le_of_not_lt hins)
        rcases List.mem_append.mp hp with hp | hp
        · exact above p hp
        · rwa [List.mem_singleton.mp hp]

/-- **`Create`** returns the upvalue of the slot, or inserts one. -/
theorem create_spec (hl : OpenList s s.upvalueList l) (dst : ℕ) (isImmutable : Bool) :
    ∃ s' uv, create dst isImmutable s = some (s', uv) ∧ Created dst isImmutable s l s' uv := by
  unfold create
  dsimp only
  split
  · next hnone =>
    have hnil : l = [] := isLinked_none (hnone ▸ hl.chain)
    exact ⟨_, _, rfl, insertFirst_created hl (by simp [hnil])⟩
  · next head hhead =>
    obtain ⟨rest, rfl, -⟩ := isLinked_some (hhead ▸ hl.chain)
    rw [(hl.isOpen head List.mem_cons_self).ptr, TValuePtr.lt_stack]
    by_cases hlt : slotOf s head < dst
    · rw [if_pos (by simpa using hlt)]
      refine ⟨_, _, rfl, insertFirst_created hl fun p hp => ?_⟩
      rcases List.mem_cons.mp hp with rfl | hp
      · exact hlt
      · exact Nat.lt_trans ((List.pairwise_cons.mp hl.sorted).1 p hp) hlt
    · rw [if_neg (by simpa using hlt)]
      have hsplit : head :: rest = [] ++ head :: rest := rfl
      exact createLoop_spec hl hsplit hl.length_le (by simp) (Nat.le_of_not_lt hlt)

/-! ## Closing

Upvalues are closed from the head on, down to a slot. -/

/-- The upvalue holds the value its slot had. -/
def ClosedFrom (s s' : Context V) (uv : ℕ) : Prop :=
  s'.heap.get uv = { s.heap.get uv with
    tv := some (s.stack (slotOf s uv)), ptr := .tv uv, isClosed := true }

/-- **What `CloseUpvalues` does**: a front part of the list is closed, the rest is the new list. -/
structure Closed (base : ℕ) (s : Context V) (l : List ℕ) (s' : Context V)
    (l₁ l₂ : List ℕ) : Prop where
  split : l = l₁ ++ l₂
  above : ∀ uv ∈ l₁, base ≤ slotOf s uv
  below : ∀ uv ∈ l₂, slotOf s uv < base
  size : s'.heap.size = s.heap.size
  stack : s'.stack = s.stack
  closed : ∀ uv ∈ l₁, ClosedFrom s s' uv
  others : ∀ uv, uv ∉ l₁ → s'.heap.get uv = s.heap.get uv
  list : OpenList s' s'.upvalueList l₂

/-- One upvalue is closed: the one at the head. -/
theorem close_head {head : Option ℕ} {cur : ℕ} (hl : OpenList s head (cur :: l)) :
    ∃ s', close cur s = some s' ∧ ClosedFrom s s' cur ∧ s'.heap.size = s.heap.size ∧
      s'.stack = s.stack ∧ ∀ uv, uv ≠ cur → s'.heap.get uv = s.heap.get uv := by
  have hopen := hl.isOpen cur List.mem_cons_self
  refine ⟨{ s with heap := s.heap.modify cur fun node =>
    { node with tv := load s node.ptr, ptr := .tv cur, isClosed := true } }, ?_, ?_, rfl, rfl, ?_⟩
  · rw [close, testAssert, if_pos ⟨hopen.isClosed, by rw [hopen.ptr]; simp⟩]
  · rw [ClosedFrom, Arena.get_modify_self, hopen.ptr]
    rfl
  · intro uv hne
    dsimp only
    rw [Arena.get_modify_of_ne _ hne]

/-- The rest of the list does not see it. -/
theorem openList_tail {head : Option ℕ} {cur : ℕ} {s' : Context V} (hl : OpenList s head (cur :: l))
    (hclosed : ClosedFrom s s' cur) (hsize : s'.heap.size = s.heap.size)
    (hothers : ∀ uv, uv ≠ cur → s'.heap.get uv = s.heap.get uv) :
    OpenList s' (s.heap.get cur).prev l := by
  have hcur : cur ∉ l := (List.nodup_cons.mp hl.nodup).1
  have hget : ∀ {uv}, uv ∈ l → s'.heap.get uv = s.heap.get uv :=
    fun huv => hothers _ fun h => hcur (h ▸ huv)
  have hslot : ∀ {uv}, uv ∈ l → slotOf s' uv = slotOf s uv := fun huv => by
    unfold slotOf
    rw [hget huv]
  refine ⟨hl.chain.2.congr fun uv huv => by rw [hget huv], fun uv huv => ?_, ?_, ?_⟩
  · have hopen := hl.isOpen uv (List.mem_cons_of_mem _ huv)
    refine ⟨hsize ▸ hopen.lt, hget huv ▸ hopen.isClosed, ?_⟩
    rw [hslot huv, hget huv]
    exact hopen.ptr
  · refine (List.pairwise_cons.mp hl.sorted).2.imp_of_mem fun ha hb hlt => ?_
    rwa [hslot ha, hslot hb]
  · intro uv huv hopen
    by_cases hne : uv = cur
    · subst hne
      rw [hclosed] at hopen
      cases hopen
    · have hmem := hl.complete uv (hsize ▸ huv) (hothers uv hne ▸ hopen)
      exact (List.mem_cons.mp hmem).resolve_left hne

/-- **The loop** of `CloseUpvalues` from `cur` on, by induction on the list. -/
theorem closeLoop_spec (base : ℕ) : ∀ {l : List ℕ} {fuel : ℕ} {cur : Option ℕ} {s : Context V},
    OpenList s cur l → l.length ≤ fuel →
    ∃ s' l₁ l₂, closeLoop base fuel cur s = some s' ∧ Closed base s l s' l₁ l₂
  | [], fuel, cur, s, hl, _ => by
    obtain rfl : cur = none := hl.chain
    refine ⟨{ s with upvalueList := none }, [], [], by cases fuel <;> rfl, rfl, by simp,
      by simp, rfl,
      rfl, by simp, fun _ _ => rfl, ?_⟩
    exact ⟨rfl, by simp, .nil, hl.complete⟩
  | cur :: l, fuel, head, s, hl, hfuel => by
    obtain ⟨rfl, htail⟩ := hl.chain
    have hopen := hl.isOpen cur List.mem_cons_self
    have hbelow := (List.pairwise_cons.mp hl.sorted).1
    cases fuel with
    | zero => simp at hfuel
    | succ fuel =>
      rw [closeLoop, hopen.ptr, TValuePtr.lt_stack]
      by_cases hlt : slotOf s cur < base
      · rw [if_pos (by simpa using hlt)]
        refine ⟨_, [], cur :: l, rfl, rfl, by simp, fun uv huv => ?_, rfl, rfl, by simp,
          fun _ _ => rfl, ⟨hl.chain, fun uv huv => ?_, hl.sorted, hl.complete⟩⟩
        · rcases List.mem_cons.mp huv with rfl | huv
          · exact hlt
          · exact Nat.lt_trans (hbelow uv huv) hlt
        · obtain ⟨h₁, h₂, h₃⟩ := hl.isOpen uv huv
          exact ⟨h₁, h₂, h₃⟩
      · have hassert : (s.heap.get cur).isClosed = false ∧ ∀ prev ∈ (s.heap.get cur).prev,
            (s.heap.get prev).ptr.lt (.stack (slotOf s cur)) = true := by
          refine ⟨hopen.isClosed, fun prev hprev => ?_⟩
          dsimp only at htail
          rw [Option.mem_def.mp hprev] at htail
          obtain ⟨rest, rfl, -⟩ := isLinked_some htail
          rw [(hl.isOpen prev (by simp)).ptr, TValuePtr.lt_stack]
          simpa using hbelow prev List.mem_cons_self
        rw [if_neg (by simpa using hlt), testAssert, if_pos hassert]
        obtain ⟨s₁, hclose, hclosed, hsize, hstack, hothers⟩ := close_head hl
        obtain ⟨s', l₁, l₂, hrun, hspec⟩ := closeLoop_spec base
          (openList_tail hl hclosed hsize hothers) (Nat.le_of_succ_le_succ hfuel)
        have hcur : cur ∉ l := (List.nodup_cons.mp hl.nodup).1
        have hne : ∀ {uv}, uv ∈ l → uv ≠ cur := fun huv h => hcur (h ▸ huv)
        have hslot : ∀ {uv}, uv ∈ l → slotOf s₁ uv = slotOf s uv := fun huv => by
          unfold slotOf
          rw [hothers _ (hne huv)]
        have hl₁ : ∀ {uv}, uv ∈ l₁ → uv ∈ l := fun huv => hspec.split ▸ List.mem_append_left _ huv
        have hl₂ : ∀ {uv}, uv ∈ l₂ → uv ∈ l := fun huv => hspec.split ▸ List.mem_append_right _ huv
        refine ⟨s', cur :: l₁, l₂, by rw [hclose]; exact hrun, ?_⟩
        exact {
          split := by rw [hspec.split]; rfl
          above := fun uv huv => by
            rcases List.mem_cons.mp huv with rfl | huv
            · exact Nat.le_of_not_lt hlt
            · exact hslot (hl₁ huv) ▸ hspec.above uv huv
          below := fun uv huv => hslot (hl₂ huv) ▸ hspec.below uv huv
          size := hspec.size.trans hsize
          stack := hspec.stack.trans hstack
          closed := fun uv huv => by
            rcases List.mem_cons.mp huv with rfl | huv
            · rw [ClosedFrom, hspec.others uv fun h => hcur (hl₁ h)]
              exact hclosed
            · have h := hspec.closed uv huv
              rwa [ClosedFrom, hothers uv (hne (hl₁ huv)), hstack, hslot (hl₁ huv)] at h
          others := fun uv huv => by
            rw [hspec.others uv fun h => huv (List.mem_cons_of_mem _ h)]
            exact hothers uv fun h => huv (h ▸ List.mem_cons_self)
          list := hspec.list }

/-- **`CloseUpvalues`** closes the upvalues from `base` up, and no other. -/
theorem closeUpvalues_spec (hl : OpenList s s.upvalueList l) (base : ℕ) :
    ∃ s' l₁ l₂, closeUpvalues base s = some s' ∧ Closed base s l s' l₁ l₂ :=
  closeLoop_spec base hl hl.length_le

/-! ## Runs -/

/-- A call of one of the two operations, or a write to the stack by the running code. -/
inductive Op (V : Type) where
  | create (dst : ℕ) (isImmutable : Bool)
  | closeUpvalues (base : ℕ)
  | store (slot : ℕ) (v : V)

/-- One operation. -/
def Op.run (s : Context V) : Op V → Option (Context V)
  | .create dst isImmutable => (UpvalueList.create dst isImmutable s).map Prod.fst
  | .closeUpvalues base => UpvalueList.closeUpvalues base s
  | .store slot v => some { s with stack := fun a => if a = slot then v else s.stack a }

/-- A coroutine that has not captured anything. -/
def Context.init (stack : ℕ → V) (dead : Upvalue V) : Context V := ⟨none, ⟨0, fun _ => dead⟩, stack⟩

/-- The state after a sequence of operations, or none if an assertion fails. -/
def runOps (s : Context V) (ops : List (Op V)) : Option (Context V) := ops.foldlM Op.run s

/-- Writes to the stack do not matter to the list. -/
theorem OpenList.store (hl : OpenList s s.upvalueList l) (stack : ℕ → V) :
    OpenList { s with stack := stack } s.upvalueList l :=
  ⟨hl.chain, fun uv huv => by
    obtain ⟨h₁, h₂, h₃⟩ := hl.isOpen uv huv
    exact ⟨h₁, h₂, h₃⟩, hl.sorted, hl.complete⟩

/-- **One operation keeps the list.** -/
theorem Op.run_openList (hl : OpenList s s.upvalueList l) (op : Op V) :
    ∃ s' l', op.run s = some s' ∧ OpenList s' s'.upvalueList l' := by
  cases op with
  | create dst isImmutable =>
    obtain ⟨s', uv, hcreate, hspec⟩ := create_spec hl dst isImmutable
    refine ⟨s', ?_⟩
    rw [Op.run, hcreate]
    cases hspec with
    | found _ _ same => exact ⟨l, rfl, same ▸ hl⟩
    | new l₁ l₂ _ _ _ _ _ _ _ _ list => exact ⟨_, rfl, list⟩
  | closeUpvalues base =>
    obtain ⟨s', l₁, l₂, hclose, hspec⟩ := closeUpvalues_spec hl base
    exact ⟨s', l₂, hclose, hspec.list⟩
  | store slot v => exact ⟨_, l, rfl, hl.store _⟩

/-- A run keeps it, by induction on the operations. -/
theorem runOps_openList : ∀ (ops : List (Op V)) {s : Context V} {l : List ℕ},
    OpenList s s.upvalueList l → ∃ s' l', runOps s ops = some s' ∧ OpenList s' s'.upvalueList l'
  | [], s, l, hl => ⟨s, l, rfl, hl⟩
  | op :: ops, s, l, hl => by
    obtain ⟨s₁, l₁, hop, hl₁⟩ := op.run_openList hl
    obtain ⟨s', l', hrun, hl'⟩ := runOps_openList ops hl₁
    refine ⟨s', l', ?_, hl'⟩
    rw [runOps, List.foldlM_cons, hop]
    exact hrun

/-- **The open upvalues of every run.**  After any sequence of captures, closes and writes no
assertion has failed and the list is that of the open upvalues, from the highest slot down (so
there is one for a slot); the next capture returns the upvalue of the slot or inserts one, and the
next close closes exactly those from its base up, each with the value of its slot. -/
theorem openUpvalues_run (stack : ℕ → V) (dead : Upvalue V) (ops : List (Op V)) :
    ∃ s l, runOps (.init stack dead) ops = some s ∧ OpenList s s.upvalueList l ∧
      (∀ dst isImmutable, ∃ s' uv, create dst isImmutable s = some (s', uv) ∧
        Created dst isImmutable s l s' uv) ∧
      ∀ base, ∃ s' l₁ l₂, closeUpvalues base s = some s' ∧ Closed base s l s' l₁ l₂ := by
  have hinit : OpenList (Context.init stack dead) none [] :=
    ⟨rfl, by simp, .nil, fun uv huv => absurd huv (Nat.not_lt_zero uv)⟩
  obtain ⟨s, l, hrun, hl⟩ := runOps_openList ops hinit
  exact ⟨s, l, hrun, hl, create_spec hl, closeUpvalues_spec hl⟩

end UpvalueList

end Dsom
