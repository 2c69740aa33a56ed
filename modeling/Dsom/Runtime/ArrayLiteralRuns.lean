import Dsom.Runtime.ArrayLiteral

/-!
# Runtime/ArrayLiteralRuns — array literals are fresh

A program that evaluates array literals and reads and writes arrays never gets hold of an array of a
constant (`Separated`).  So the constants stay what the compiler made them, whatever is put into the
copies, and each evaluation yields new arrays.
-/

namespace Dsom

namespace ArrayLiteral

/-! ## Programs

A program evaluates literals and writes to the arrays it can reach. -/

/-- The array literals that are compiled, with their constants; what their evaluations gave; and all
values that the program has come by. -/
structure Program where
  world : World
  literals : List (List AstLiteral × TValue)
  results : List TValue
  held : List TValue

namespace Program

/-- Before anything is allocated. -/
def start : Program where
  world :=
    { heap :=
        { entities := ⟨0, fun _ => .object⟩
          upvalues := fun _ => .nil
          singleCharStrings := fun _ => none
          singleCharStrings_spec := nofun }
      internedObjects := fun _ _ => none }
  literals := []
  results := []
  held := []

/-- What a program does with arrays. -/
inductive Step (s : Program) : Program → Prop where
  | compile (elements : List AstLiteral) :
    Step s { s with
      world := (createConstantArray elements s.world).2
      literals := (elements, (createConstantArray elements s.world).1) :: s.literals }
  | evaluate {elements : List AstLiteral} {constant tv : TValue} {h : Heap}
    (hmem : (elements, constant) ∈ s.literals)
    (hclone : DeepClones s.world.heap constant tv h) :
    Step s { s with
      world := { s.world with heap := h }
      results := tv :: s.results
      held := tv :: s.held }
  | immediate (tv : TValue) (himm : ∀ a, tv ≠ .heapEntity a) :
    Step s { s with held := tv :: s.held }
  | literal (l : AstLiteral) (hl : ∀ elements, l ≠ .array elements) :
    Step s { s with
      world := (s.world.createConstantNonArray l).2
      held := (s.world.createConstantNonArray l).1 :: s.held }
  | arrayNew (length : ℕ) :
    Step s { s with
      world := { s.world with heap := s.world.heap.allocateArray length }
      held := .heapEntity s.world.heap.entities.size :: s.held }
  | arrayAt {tv index x : TValue} {h : Heap} (htv : tv ∈ s.held)
    (hat : Primitives.arrayAt tv index s.world.heap = .ok (x, h)) :
    Step s { s with
      world := { s.world with heap := h }
      held := x :: s.held }
  | arrayAtPut {tv index x r : TValue} {h : Heap} (htv : tv ∈ s.held) (hx : x ∈ s.held)
    (hput : Primitives.arrayAtPut tv index x s.world.heap = .ok (r, h)) :
    Step s { s with world := { s.world with heap := h } }
  | atPutImpl {tv index x : TValue} {r : Option TValue} {h : Heap} (htv : tv ∈ s.held)
    (hx : x ∈ s.held) (hput : Operator.atPutImpl tv index x s.world.heap = .ok (r, h)) :
    Step s { s with world := { s.world with heap := h } }

end Program

/-! ## What the operations on arrays do -/

section Operations

variable {h h' h'' : Heap} {tv index x : TValue}

/-- A run that ends has ended after each of its parts. -/
theorem of_bind {α β : Type} {m : Run α} {f : α → Run β} {b : β}
    (hbind : (m >>= f) h = .ok (b, h'')) :
    ∃ a h', m h = .ok (a, h') ∧ f a h' = .ok (b, h'') := by
  change (m h).bind (fun result => f result.1 result.2) = _ at hbind
  cases hm : m h with
  | error e => simp [hm, Except.bind] at hbind
  | ok result =>
    rw [hm] at hbind
    exact ⟨result.1, result.2, rfl, hbind⟩

theorem of_wellDefined {α : Type} {o : Option α} {a : α} (hrun : wellDefined o h = .ok (a, h')) :
    o = some a ∧ h' = h := by
  cases o with
  | none => cases hrun
  | some b => cases hrun; exact ⟨rfl, rfl⟩

theorem of_asInt32 {i : BitVec 32} (hrun : index.asInt32 h = .ok (i, h')) : h' = h := by
  cases index <;> cases hrun
  rfl

theorem of_asArray {result : ℕ × List TValue} (hrun : Primitives.asArray tv h = .ok (result, h')) :
    h' = h ∧ tv = .heapEntity result.1 ∧ h.entities.get result.1 = .array result.2 := by
  cases tv with
  | nil | bool | int32 | double => cases hrun
  | heapEntity a =>
    rw [Primitives.asArray, Operator.entity_bind] at hrun
    cases hget : h.entities.get a with
    | object | string | block => rw [hget] at hrun; cases hrun
    | array data => rw [hget] at hrun; cases hrun; exact ⟨rfl, rfl, hget⟩

/-- A check that has not aborted. -/
theorem of_check {α β : Type} {c : Prop} [Decidable c] {e : Stop} {f : β → Run α} {m : Run α}
    {a : α} (hrun : (if c then throw e >>= f else m) h = .ok (a, h')) : m h = .ok (a, h') := by
  by_cases hc : c
  · rw [if_pos hc] at hrun
    cases hrun
  · rwa [if_neg hc] at hrun

/-- An element that is found is in the array. -/
theorem mem_of_element {α : Type} {data : List α} {idx : BitVec 32} {a : α}
    (ha : Primitives.element data idx = some a) : a ∈ data := by
  rw [Primitives.element] at ha
  split_ifs at ha with hidx
  exact List.mem_of_getElem? ha

/-- What `arrayAt` gives. -/
theorem of_arrayAt (hat : Primitives.arrayAt tv index h = .ok (x, h')) :
    h' = h ∧ ∃ a data, tv = .heapEntity a ∧ h.entities.get a = .array data ∧ x ∈ data := by
  obtain ⟨idx, h₁, hidx, hat₁⟩ := of_bind hat
  obtain ⟨result, h₂, harray, hat₂⟩ := of_bind hat₁
  obtain ⟨hx, rfl⟩ := of_wellDefined (of_check hat₂)
  obtain rfl := of_asInt32 hidx
  obtain ⟨rfl, htv, hget⟩ := of_asArray harray
  exact ⟨rfl, _, _, htv, hget, mem_of_element hx⟩

/-- What `arrayAtPut` does. -/
theorem of_arrayAtPut {r : TValue} (hput : Primitives.arrayAtPut tv index x h = .ok (r, h')) :
    ∃ a data i, tv = .heapEntity a ∧ h.entities.get a = .array data ∧ h' = h.setElement a i x := by
  obtain ⟨idx, h₁, hidx, hput₁⟩ := of_bind hput
  obtain ⟨result, h₂, harray, hput₂⟩ := of_bind hput₁
  obtain ⟨y, h₃, hy, hput₃⟩ := of_bind (of_check hput₂)
  cases hput₃
  obtain rfl := of_asInt32 hidx
  obtain ⟨rfl, htv, hget⟩ := of_asArray harray
  obtain ⟨-, rfl⟩ := of_wellDefined hy
  exact ⟨_, _, _, htv, hget, rfl⟩

/-- The operator does the same, or leaves it to the method. -/
theorem of_atPutImpl {r : Option TValue} (hput : Operator.atPutImpl tv index x h = .ok (r, h')) :
    h' = h ∨ ∃ a data i, tv = .heapEntity a ∧ h.entities.get a = .array data
      ∧ h' = h.setElement a i x := by
  cases tv with
  | nil | bool | int32 | double => cases hput; exact .inl rfl
  | heapEntity a =>
    rw [Operator.atPutImpl, Operator.entity_bind] at hput
    cases hget : h.entities.get a with
    | object | string | block => rw [hget] at hput; cases hput; exact .inl rfl
    | array data =>
      rw [hget] at hput
      obtain ⟨idx, h₁, hidx, hput₁⟩ := of_bind hput
      obtain ⟨y, h₂, hy, hput₂⟩ := of_bind (of_check hput₁)
      cases hput₂
      obtain rfl := of_asInt32 hidx
      obtain ⟨-, rfl⟩ := of_wellDefined hy
      exact .inr ⟨a, data, _, rfl, hget, rfl⟩

end Operations

/-! ## The arrays that a value holds

The array itself, and those of its elements. -/

/-- The array objects at any depth of a value. -/
inductive Holds (h : Heap) : TValue → ℕ → Prop where
  | self {a : ℕ} {data : List TValue} (hget : h.entities.get a = .array data) :
    Holds h (.heapEntity a) a
  | element {a p : ℕ} {data : List TValue} {tv : TValue} (hget : h.entities.get a = .array data)
    (hmem : tv ∈ data) (hp : Holds h tv p) : Holds h (.heapEntity a) p

/-- What is not an array holds none. -/
theorem Holds.exists_array {h : Heap} {tv : TValue} {p : ℕ} (hp : Holds h tv p) :
    ∃ a data, tv = .heapEntity a ∧ h.entities.get a = .array data := by
  cases hp with
  | self hget => exact ⟨_, _, rfl, hget⟩
  | element hget _ _ => exact ⟨_, _, rfl, hget⟩

/-- What a value holds is an array. -/
theorem Holds.exists_data {h : Heap} {tv : TValue} {p : ℕ} (hp : Holds h tv p) :
    ∃ data, h.entities.get p = .array data := by
  induction hp with
  | self hget => exact ⟨_, hget⟩
  | element _ _ _ ih => exact ih

mutual

/-- The arrays that are listed are the arrays there are. -/
theorem Represents.holds {h : Heap} {l : AstLiteral} {tv : TValue} {ps : List ℕ}
    (hr : Represents h l tv ps) (p : ℕ) : Holds h tv p ↔ p ∈ ps := by
  cases hr with
  | integer | double =>
    refine ⟨fun hp => ?_, nofun⟩
    obtain ⟨a, data, ha, -⟩ := hp.exists_array
    cases ha
  | string _ hget | symbol _ hget =>
    refine ⟨fun hp => ?_, nofun⟩
    obtain ⟨a, data, ha, hdata⟩ := hp.exists_array
    cases ha
    rw [hget] at hdata
    cases hdata
  | @array elements data qs a hlt hget helements =>
    rw [List.mem_cons, ← RepresentsAll.holds helements p]
    refine ⟨fun hp => ?_, ?_⟩
    · cases hp with
      | self _ => exact .inl rfl
      | element hget' hmem hp =>
        obtain rfl := HeapEntity.array.inj (hget.symm.trans hget')
        exact .inr ⟨_, hmem, hp⟩
    · rintro (rfl | ⟨x, hx, hp⟩)
      · exact .self hget
      · exact .element hget hx hp

/-- The elements hold the arrays listed. -/
theorem RepresentsAll.holds {h : Heap} {es : List AstLiteral} {tvs : List TValue} {ps : List ℕ}
    (hr : RepresentsAll h es tvs ps) (p : ℕ) : (∃ tv ∈ tvs, Holds h tv p) ↔ p ∈ ps := by
  cases hr with
  | nil => simp
  | cons head tail =>
    rw [List.exists_mem_cons_iff, Represents.holds head p, RepresentsAll.holds tail p,
      List.mem_append]

end

/-- A value is in the heap, and if it is an array, it is among those that are listed. -/
def Within (h : Heap) (ps : List ℕ) (tv : TValue) : Prop :=
  ∀ a, tv = .heapEntity a → a < h.entities.size ∧ ∀ data, h.entities.get a = .array data → a ∈ ps

theorem Within.mono {h : Heap} {ps qs : List ℕ} {tv : TValue} (hw : Within h ps tv)
    (hsub : ps ⊆ qs) : Within h qs tv :=
  fun a ha => ⟨(hw a ha).1, fun data hget => hsub ((hw a ha).2 data hget)⟩

theorem Represents.within {h : Heap} {l : AstLiteral} {tv : TValue} {ps : List ℕ}
    (hr : Represents h l tv ps) : Within h ps tv := by
  intro a ha
  cases hr with
  | integer | double => cases ha
  | string hlt hget | symbol hlt hget =>
    cases ha
    exact ⟨hlt, fun data hdata => by simp [hget] at hdata⟩
  | array hlt hget _ =>
    cases ha
    exact ⟨hlt, fun _ _ => List.mem_cons_self⟩

mutual

/-- So do the elements of those arrays. -/
theorem Represents.elements_within {h : Heap} {l : AstLiteral} {tv : TValue} {ps : List ℕ}
    (hr : Represents h l tv ps) :
    ∀ p ∈ ps, ∀ data, h.entities.get p = .array data → ∀ x ∈ data, Within h ps x := by
  cases hr with
  | integer | double | string | symbol => nofun
  | @array elements data qs a hlt hget helements =>
    obtain ⟨htop, hall⟩ := RepresentsAll.elements_within helements
    intro p hp data' hdata x hx
    rcases List.mem_cons.mp hp with rfl | hp
    · obtain rfl := HeapEntity.array.inj (hget.symm.trans hdata)
      exact (htop x hx).mono (List.subset_cons_self _ _)
    · exact (hall p hp data' hdata x hx).mono (List.subset_cons_self _ _)

theorem RepresentsAll.elements_within {h : Heap} {es : List AstLiteral} {tvs : List TValue}
    {ps : List ℕ} (hr : RepresentsAll h es tvs ps) :
    (∀ x ∈ tvs, Within h ps x)
      ∧ ∀ p ∈ ps, ∀ data, h.entities.get p = .array data → ∀ x ∈ data, Within h ps x := by
  cases hr with
  | nil => exact ⟨nofun, nofun⟩
  | @cons e es tv tvs ps qs head tail =>
    obtain ⟨htop, hall⟩ := RepresentsAll.elements_within tail
    have hhead := Represents.elements_within head
    refine ⟨fun x hx => ?_, fun p hp data hdata x hx => ?_⟩
    · rcases List.mem_cons.mp hx with rfl | hx
      · exact head.within.mono (List.subset_append_left _ _)
      · exact (htop x hx).mono (List.subset_append_right _ _)
    · rcases List.mem_append.mp hp with hp | hp
      · exact (hhead p hp data hdata x hx).mono (List.subset_append_left _ _)
      · exact (hall p hp data hdata x hx).mono (List.subset_append_right _ _)

end

/-! ## The program never holds an array of a constant

What it holds was copied, and copies share nothing with the constant. -/

/-- A value that a program may have when the arrays in `P` are those of the constants. -/
def Public (h : Heap) (P : ℕ → Prop) (tv : TValue) : Prop :=
  ∀ a, tv = .heapEntity a → a < h.entities.size ∧ ¬ P a

/-- **The invariant**: the arrays in `P` represent the literals, and neither the program nor any
other array has one of them. -/
structure Separated (P : ℕ → Prop) (s : Program) : Prop where
  valid : s.world.Valid
  array : ∀ p, P p → p < s.world.heap.entities.size
    ∧ ∃ data, s.world.heap.entities.get p = .array data
  literals : ∀ c ∈ s.literals, ∃ ps, Represents s.world.heap (.array c.1) c.2 ps ∧ ∀ p ∈ ps, P p
  held : ∀ tv ∈ s.held, Public s.world.heap P tv
  results : ∀ tv ∈ s.results, Public s.world.heap P tv
  elements : ∀ a data, a < s.world.heap.entities.size → ¬ P a →
    s.world.heap.entities.get a = .array data → ∀ tv ∈ data, Public s.world.heap P tv

namespace Separated

variable {P P' : ℕ → Prop} {s : Program} {h : Heap} {tv : TValue}

/-- New entities: each is an array of a constant, or has only public elements. -/
theorem extend (hs : Separated P s) {w : World} (he : Extends s.world.heap w.heap)
    (hv : w.Valid) (hold : ∀ a, a < s.world.heap.entities.size → (P' a ↔ P a))
    (hnew : ∀ p, P' p → s.world.heap.entities.size ≤ p →
      p < w.heap.entities.size ∧ ∃ data, w.heap.entities.get p = .array data)
    (helements : ∀ a data, s.world.heap.entities.size ≤ a → a < w.heap.entities.size → ¬ P' a →
      w.heap.entities.get a = .array data → ∀ x ∈ data, Public w.heap P' x) :
    Separated P' { s with world := w } := by
  have hpublic (x : TValue) (hx : Public s.world.heap P x) : Public w.heap P' x := fun a ha =>
    ⟨(hx a ha).1.trans_le he.size_le, fun hp => (hx a ha).2 ((hold a (hx a ha).1).mp hp)⟩
  refine ⟨hv, fun p hp => ?_, fun c hc => ?_, fun x hx => hpublic x (hs.held x hx),
    fun x hx => hpublic x (hs.results x hx), fun a data hlt hp hget x hx => ?_⟩
  · rcases Nat.lt_or_ge p s.world.heap.entities.size with hlt | hle
    · obtain ⟨-, data, hdata⟩ := hs.array p ((hold p hlt).mp hp)
      exact ⟨hlt.trans_le he.size_le, data, (he.get_eq p hlt).trans hdata⟩
    · exact hnew p hp hle
  · obtain ⟨ps, hr, hps⟩ := hs.literals c hc
    exact ⟨ps, hr.extends he, fun p hp => (hold p (hr.lt_size p hp)).mpr (hps p hp)⟩
  · rcases Nat.lt_or_ge a s.world.heap.entities.size with ha | ha
    · rw [he.get_eq a ha] at hget
      exact hpublic x (hs.elements a data ha (mt (hold a ha).mpr hp) hget x hx)
    · exact helements a data ha hlt hp hget x hx

/-- The program holds one value more. -/
theorem hold (hs : Separated P s) (htv : Public s.world.heap P tv) :
    Separated P { s with held := tv :: s.held } :=
  { hs with held := List.forall_mem_cons.mpr ⟨htv, hs.held⟩ }

/-- The arrays of a tree that has just been built are not those of a constant. -/
theorem public_of_within (hs : Separated P s) (he : Extends s.world.heap h) {ps : List ℕ}
    (hps : ∀ p ∈ ps, s.world.heap.entities.size ≤ p) (hw : Within h ps tv) : Public h P tv := by
  refine fun a ha => ⟨(hw a ha).1, fun hp => ?_⟩
  obtain ⟨hlt, data, hdata⟩ := hs.array a hp
  have hle := hps a ((hw a ha).2 data ((he.get_eq a hlt).trans hdata))
  omega

/-- A tree is built for the program. -/
theorem builds (hs : Separated P s) {w : World} {l : AstLiteral} {ps : List ℕ}
    (hb : Builds s.world.heap w.heap l tv ps) (hv : w.Valid) :
    Separated P { s with world := w } ∧ Public w.heap P tv := by
  refine ⟨hs.extend hb.extends' hv (fun _ _ => Iff.rfl) (fun p hp hle => ?_)
    fun a data hle hlt hp hget x hx => ?_, ?_⟩
  · have hlt := (hs.array p hp).1
    omega
  · exact hs.public_of_within hb.extends' hb.fresh
      (hb.represents.elements_within a (hb.mem a data hle hlt hget) data hget x hx)
  · exact hs.public_of_within hb.extends' hb.fresh hb.represents.within

/-- A tree is built for a constant. -/
theorem hide (hs : Separated P s) {w : World} {elements : List AstLiteral} {ps : List ℕ}
    (hb : Builds s.world.heap w.heap (.array elements) tv ps) (hv : w.Valid) :
    Separated (fun a => P a ∨ a ∈ ps)
      { s with world := w, literals := (elements, tv) :: s.literals } := by
  have hs' : Separated (fun a => P a ∨ a ∈ ps) { s with world := w } := by
    refine hs.extend hb.extends' hv (fun a ha => or_iff_left fun hp => ?_) (fun p hp hle => ?_)
      fun a data hle hlt hp hget => absurd (.inr (hb.mem a data hle hlt hget)) hp
    · have hle := hb.fresh a hp
      omega
    · rcases hp with hp | hp
      · have hlt := (hs.array p hp).1
        omega
      · exact ⟨hb.represents.lt_size p hp, ((hb.represents.holds p).mpr hp).exists_data⟩
  exact { hs' with
    literals := List.forall_mem_cons.mpr ⟨⟨ps, hb.represents, fun _ => .inr⟩, hs'.literals⟩ }

/-- The program makes a new array. -/
theorem arrayNew (hs : Separated P s) (length : ℕ) :
    Separated P { s with
      world := { s.world with heap := s.world.heap.allocateArray length }
      held := .heapEntity s.world.heap.entities.size :: s.held } := by
  have he : Extends s.world.heap (s.world.heap.allocateArray length) := extends_push _
  refine (hs.extend (w := { s.world with heap := s.world.heap.allocateArray length }) he
    (hs.valid.grows he.grows) (fun _ _ => Iff.rfl) (fun p hp hle => ?_)
    fun a data hle hlt hp hget x hx => ?_).hold fun a ha => ?_
  · have hlt := (hs.array p hp).1
    omega
  · obtain rfl : a = s.world.heap.entities.size := Nat.le_antisymm (Nat.le_of_lt_succ hlt) hle
    obtain rfl := HeapEntity.array.inj
      ((s.world.heap.entities.get_push_self _).symm.trans hget)
    obtain rfl := List.eq_of_mem_replicate hx
    nofun
  · cases ha
    exact ⟨Nat.lt_succ_self _, fun hp => (hs.array _ hp).1.false⟩

/-- `at:put:` on an array that the program has. -/
theorem setElement (hs : Separated P s) {a i : ℕ} {data : List TValue} {x : TValue}
    (htv : Public s.world.heap P (.heapEntity a)) (hx : Public s.world.heap P x)
    (hget : s.world.heap.entities.get a = .array data) :
    Separated P { s with world := { s.world with heap := s.world.heap.setElement a i x } } := by
  have hne (p : ℕ) (hp : P p) :
      (s.world.heap.setElement a i x).entities.get p = s.world.heap.entities.get p :=
    Heap.get_setElement_of_ne fun heq => (htv a rfl).2 (heq ▸ hp)
  have hgrows := grows_setElement hget i x
  refine ⟨hs.valid.grows hgrows, fun p hp => ?_, fun c hc => ?_, hs.held, hs.results,
    fun b data' hlt hb hdata y hy => ?_⟩
  · obtain ⟨hlt, data', hdata⟩ := hs.array p hp
    exact ⟨hlt, data', (hne p hp).trans hdata⟩
  · obtain ⟨ps, hr, hps⟩ := hs.literals c hc
    exact ⟨ps, hr.congr hgrows fun p hp => hne p (hps p hp), hps⟩
  · by_cases hba : b = a
    · subst hba
      obtain rfl := HeapEntity.array.inj ((Heap.get_setElement hget).symm.trans hdata)
      rcases List.mem_or_eq_of_mem_set hy with hy | rfl
      · exact hs.elements b data hlt hb hget y hy
      · exact hx
    · have hdata' := (Heap.get_setElement_of_ne hba).symm.trans hdata
      exact hs.elements b data' hlt hb hdata' y hy

/-- What a program reads from an array that it has. -/
theorem public_element (hs : Separated P s) {a : ℕ} {data : List TValue} {x : TValue}
    (htv : Public s.world.heap P (.heapEntity a))
    (hget : s.world.heap.entities.get a = .array data) (hx : x ∈ data) :
    Public s.world.heap P x :=
  hs.elements a data (htv a rfl).1 (htv a rfl).2 hget x hx

/-- At the start the program holds nothing. -/
theorem start : Separated (fun _ => False) Program.start where
  valid := nofun
  array := nofun
  literals := nofun
  held := nofun
  results := nofun
  elements := nofun

/-- **The step lemma.** -/
theorem step (hs : Separated P s) {s' : Program} (hstep : Program.Step s s') :
    ∃ P', Separated P' s' := by
  cases hstep with
  | compile elements =>
    obtain ⟨⟨ps, hb⟩, hv⟩ := creates_createConstant (.array elements) hs.valid
    exact ⟨_, hs.hide hb hv⟩
  | @evaluate elements constant tv h hmem hclone =>
    obtain ⟨ps, hr, -⟩ := hs.literals _ hmem
    obtain ⟨tv', h', ps', hclone', hb⟩ :=
      builds_deepCloneConstantArray hr (.refl s.world.heap) rfl
    obtain ⟨rfl, rfl⟩ := hclone.unique hclone'
    obtain ⟨hs', htv⟩ := hs.builds (w := { s.world with heap := h }) hb
      (hs.valid.grows hb.extends'.grows)
    exact ⟨P, { hs'.hold htv with results := List.forall_mem_cons.mpr ⟨htv, hs'.results⟩ }⟩
  | immediate tv himm => exact ⟨P, hs.hold fun a ha => absurd ha (himm a)⟩
  | literal l hl =>
    have hcreate : createConstant l s.world = s.world.createConstantNonArray l := by
      cases l with
      | array elements => exact absurd rfl (hl elements)
      | string | symbol | integer | double => rfl
    obtain ⟨⟨ps, hb⟩, hv⟩ := hcreate ▸ creates_createConstant l hs.valid
    obtain ⟨hs', htv⟩ := hs.builds hb hv
    exact ⟨P, hs'.hold htv⟩
  | arrayNew length => exact ⟨P, hs.arrayNew length⟩
  | arrayAt htv hat =>
    obtain ⟨rfl, a, data, rfl, hget, hx⟩ := of_arrayAt hat
    exact ⟨P, hs.hold (hs.public_element (hs.held _ htv) hget hx)⟩
  | arrayAtPut htv hx hput =>
    obtain ⟨a, data, i, rfl, hget, rfl⟩ := of_arrayAtPut hput
    exact ⟨P, hs.setElement (hs.held _ htv) (hs.held _ hx) hget⟩
  | atPutImpl htv hx hput =>
    rcases of_atPutImpl hput with rfl | ⟨a, data, i, rfl, hget, rfl⟩
    · exact ⟨P, hs⟩
    · exact ⟨P, hs.setElement (hs.held _ htv) (hs.held _ hx) hget⟩

end Separated

/-- **The run lemma.** -/
theorem separated_of_run {s : Program} (hrun : Relation.ReflTransGen Program.Step .start s) :
    ∃ P, Separated P s := by
  induction hrun with
  | refl => exact ⟨_, .start⟩
  | tail _ hstep ih =>
    obtain ⟨P, hs⟩ := ih
    exact hs.step hstep

/-- What a public value holds was there before entities were added. -/
theorem Separated.lt_of_holds {P : ℕ → Prop} {s : Program} (hs : Separated P s) {h : Heap}
    (he : Extends s.world.heap h) {tv : TValue} {p : ℕ} (hp : Holds h tv p)
    (htv : Public s.world.heap P tv) : p < s.world.heap.entities.size := by
  induction hp with
  | self _ => exact (htv _ rfl).1
  | @element a p data x hget hmem _ ih =>
    obtain ⟨hlt, hpriv⟩ := htv a rfl
    exact ih (hs.elements a data hlt hpriv ((he.get_eq a hlt).symm.trans hget) x hmem)

/-- **Array literals are fresh.**  Whatever a program has done before, the evaluation of an array
literal ends with a tree of new arrays, all different, that represents the literal; none of them is
an array of a constant or of an earlier result. -/
theorem evaluate_fresh {s : Program} (hrun : Relation.ReflTransGen Program.Step .start s)
    {elements : List AstLiteral} {constant : TValue} (hmem : (elements, constant) ∈ s.literals) :
    ∃ tv h ps, DeepClones s.world.heap constant tv h
      ∧ Represents h (.array elements) tv ps ∧ ps.Nodup ∧ (∀ p, Holds h tv p ↔ p ∈ ps)
      ∧ (∀ p ∈ ps, s.world.heap.entities.size ≤ p)
      ∧ (∀ c ∈ s.literals, ∀ p ∈ ps, ¬ Holds h c.2 p)
      ∧ ∀ r ∈ s.results, ∀ p ∈ ps, ¬ Holds h r p := by
  obtain ⟨P, hs⟩ := separated_of_run hrun
  obtain ⟨qs, hr, -⟩ := hs.literals _ hmem
  obtain ⟨tv, h, ps, hclone, hb⟩ := builds_deepCloneConstantArray hr (.refl s.world.heap) rfl
  refine ⟨tv, h, ps, hclone, hb.represents, hb.nodup, hb.represents.holds, hb.fresh,
    fun c hc p hp hheld => ?_, fun r hr' p hp hheld => ?_⟩
  · obtain ⟨rs, hc', -⟩ := hs.literals c hc
    have hlt := hc'.lt_size p (((hc'.extends hb.extends').holds p).mp hheld)
    have hle := hb.fresh p hp
    omega
  · have hlt := hs.lt_of_holds hb.extends' hheld (hs.results r hr')
    have hle := hb.fresh p hp
    omega

/-- The literal `#(7 #(8))` again, after the inner array of its first copy was made to hold the
outer one. -/
theorem evaluate_fresh_again :
    ∃ (s : Program) (constant tv : TValue) (h : Heap) (ps : List ℕ),
      s.results = [TValue.heapEntity 2]
      ∧ s.world.heap.entities.get 3 = .array [.heapEntity 2]
      ∧ DeepClones s.world.heap constant tv h
      ∧ Represents h (.array [.integer 7, .array [.integer 8]]) tv ps
      ∧ ∀ r ∈ s.results, ∀ p ∈ ps, ¬ Holds h r p := by
  have hcompile := Relation.ReflTransGen.single
    (Program.Step.compile (s := .start) [.integer 7, .array [.integer 8]])
  have hevaluate := hcompile.tail
    (.evaluate List.mem_cons_self ⟨2, fun | fuel + 2, _ => rfl⟩)
  have hat := hevaluate.tail (.arrayAt List.mem_cons_self
    (rfl : Primitives.arrayAt _ (.int32 2) _ = _))
  have hput := hat.tail (.arrayAtPut List.mem_cons_self (List.mem_cons_of_mem _ List.mem_cons_self)
    (rfl : Primitives.arrayAtPut _ (.int32 1) _ _ = _))
  obtain ⟨tv, h, ps, hclone, hr, -, -, -, -, hresults⟩ := evaluate_fresh hput List.mem_cons_self
  exact ⟨_, _, tv, h, ps, rfl, rfl, hclone, hr, hresults⟩

end ArrayLiteral

end Dsom
