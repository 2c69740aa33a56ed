import Dsom.Operators.Agreement
import Dsom.Syntax.Ast

/-!
# Runtime/ArrayLiteral — the constant of an array literal, and its copies

The compiler builds the array of a literal once (`CreateConstantArray`); the bytecode that evaluates
the literal copies it (`DeepCloneConstantArray`).  Both build a tree of new arrays that represents
the literal (`Builds`).

`AllocateArray` sets `m_arrayType` and `m_hiddenClass` together, so that an entity is an array for
both or for neither.
-/

namespace Dsom

/-! ## Allocation -/

namespace Heap

variable (h : Heap)

/-- An entity that nothing refers to yet; it is at the old size. -/
def push (e : HeapEntity) : Heap where
  entities := h.entities.push e
  upvalues := h.upvalues
  singleCharStrings := h.singleCharStrings
  singleCharStrings_spec ch a ha := by
    obtain ⟨hlt, hget⟩ := h.singleCharStrings_spec ch a ha
    exact ⟨hlt.trans (Nat.lt_succ_self _), (h.entities.get_push_of_lt hlt _).trans hget⟩

/-- `AllocateArray`. -/
def allocateArray (length : ℕ) : Heap := h.push (.array (List.replicate length .nil))

/-- `memcpy` to all elements of an array. -/
def copyElements (address : ℕ) (data : List TValue) : Heap where
  entities := h.entities.modify address fun e =>
    match e with
    | .array _ => .array data
    | e => e
  upvalues := h.upvalues
  singleCharStrings := h.singleCharStrings
  singleCharStrings_spec ch a ha := by
    obtain ⟨hlt, hget⟩ := h.singleCharStrings_spec ch a ha
    refine ⟨hlt, ?_⟩
    rcases h.entities.get_modify_or address a _ with hm | hm
    · rw [hm, hget]
    · rw [hm, hget]

variable {h} {address i : ℕ} {tv : TValue} {data : List TValue}

@[simp] theorem size_push (e : HeapEntity) : (h.push e).entities.size = h.entities.size + 1 := rfl

@[simp] theorem size_setElement : (h.setElement address i tv).entities.size = h.entities.size := rfl

@[simp] theorem size_copyElements :
    (h.copyElements address data).entities.size = h.entities.size := rfl

theorem get_setElement_of_ne {a : ℕ} (ha : a ≠ address) :
    (h.setElement address i tv).entities.get a = h.entities.get a := by
  rw [setElement, Arena.get_modify_of_ne _ ha]

/-- The array after one element is written. -/
theorem get_setElement (hget : h.entities.get address = .array data) :
    (h.setElement address i tv).entities.get address = .array (data.set i tv) := by
  rw [setElement, Arena.get_modify_self, hget]

end Heap

namespace ArrayLiteral

/-! ## The constant

One array for every level of the literal, made once for the method. -/

/-- The bytes of a text. -/
def bytesOf (text : String) : List (BitVec 8) := text.toUTF8.toList.map UInt8.toBitVec

/-- What the functions below read and write of the `VM`: the heap and the objects of the interned
texts, `m_internedSymbolObjects` and `m_internedStringObjects`. -/
structure World where
  heap : Heap
  internedObjects : Bool → String → Option ℕ

namespace World

variable (w : World)

/-- The object of a text, allocated by `AllocateString` when there is none; a symbol then gets its
own hidden class. -/
def getInterned (isSymbol : Bool) (text : String) : ℕ × World :=
  match w.internedObjects isSymbol text with
  | some a => (a, w)
  | none =>
    (w.heap.entities.size, {
      heap := w.heap.push (.string isSymbol (bytesOf text))
      internedObjects := fun s t =>
        if s = isSymbol ∧ t = text then some w.heap.entities.size else w.internedObjects s t })

/-- `GetInternedString`. -/
def getInternedString (text : String) : ℕ × World := w.getInterned false text

/-- `GetInternedSymbol`. -/
def getInternedSymbol (text : String) : ℕ × World := w.getInterned true text

/-- `CreateConstantNonArray`; an array literal is not given to it. -/
def createConstantNonArray : AstLiteral → TValue × World
  | .double value => (.double value, w)
  | .integer value => (.int32 value, w)
  | .string text => ((w.getInternedString text).map .heapEntity id)
  | .symbol text => ((w.getInternedSymbol text).map .heapEntity id)
  | .array _ => (.nil, w)

end World

mutual

/-- `CreateConstantArray` of an array literal, `CreateConstantNonArray` of any other. -/
def createConstant : AstLiteral → World → TValue × World
  | .array elements, w =>
    let r := w.heap.entities.size
    (.heapEntity r,
      createElements r 0 elements { w with heap := w.heap.allocateArray elements.length })
  | element, w => w.createConstantNonArray element

/-- The loop of `CreateConstantArray`, from index `i` on. -/
def createElements (r i : ℕ) : List AstLiteral → World → World
  | [], w => w
  | element :: elements, w =>
    let (tv, w) := createConstant element w
    createElements r (i + 1) elements { w with heap := w.heap.setElement r i tv }

end

/-- `CreateConstantArray`. -/
def createConstantArray (elements : List AstLiteral) (w : World) : TValue × World :=
  createConstant (.array elements) w

/-! ## The copies

The elements are copied as they are, and then every array among them is cloned. -/

/-- `r->m_data[i + 1]`. -/
def readElement (r i : ℕ) : Run TValue := do
  match ← entity r with
  | .array data => wellDefined data[i]?
  | _ => throw .assertion

/-- `Is<tObject>()`, and the hidden class is that of arrays. -/
def isArray : TValue → Run Bool
  | .heapEntity a => do
    match ← entity a with
    | .array _ => return true
    | _ => return false
  | _ => return false

/-- One round of the loop of `DeepCloneConstantArray`. -/
def cloneElement (clone : TValue → Run TValue) (r i : ℕ) : Run Unit := do
  let x ← readElement r i
  if ← isArray x then
    let copy ← clone x
    modify fun h => h.setElement r i copy

/-- `DeepCloneConstantArray`, with `fuel` for the recursion. -/
def deepCloneConstantArray : ℕ → TValue → Run TValue
  | 0, _ => throw .running
  | fuel + 1, tv => do
    let (_, data) ← Primitives.asArray tv
    let r := (← get).entities.size
    modify fun h => (h.allocateArray data.length).copyElements r data
    (List.range' 0 data.length).forM (cloneElement (deepCloneConstantArray fuel) r)
    return .heapEntity r

/-- A copy: with enough fuel, this is what comes out. -/
def DeepClones (h : Heap) (tv tv' : TValue) (h' : Heap) : Prop :=
  ∃ n, ∀ fuel, n ≤ fuel → deepCloneConstantArray fuel tv h = .ok (tv', h')

/-- Fuel does not matter. -/
theorem DeepClones.unique {h h₁ h₂ : Heap} {tv tv₁ tv₂ : TValue} (hc₁ : DeepClones h tv tv₁ h₁)
    (hc₂ : DeepClones h tv tv₂ h₂) : tv₁ = tv₂ ∧ h₁ = h₂ := by
  obtain ⟨n, hn⟩ := hc₁
  obtain ⟨m, hm⟩ := hc₂
  have heq := (hn (max n m) (le_max_left _ _)).symm.trans (hm (max n m) (le_max_right _ _))
  exact Prod.mk.inj (Except.ok.inj heq)

/-! ## What a value represents -/

mutual

/-- A literal is represented by a value; the arrays of its tree are listed. -/
inductive Represents (h : Heap) : AstLiteral → TValue → List ℕ → Prop where
  | integer (value : BitVec 32) : Represents h (.integer value) (.int32 value) []
  | double (value : BitVec 64) : Represents h (.double value) (.double value) []
  | string {text : String} {a : ℕ} (hlt : a < h.entities.size)
    (hget : h.entities.get a = .string false (bytesOf text)) :
    Represents h (.string text) (.heapEntity a) []
  | symbol {text : String} {a : ℕ} (hlt : a < h.entities.size)
    (hget : h.entities.get a = .string true (bytesOf text)) :
    Represents h (.symbol text) (.heapEntity a) []
  | array {elements : List AstLiteral} {data : List TValue} {ps : List ℕ} {a : ℕ}
    (hlt : a < h.entities.size) (hget : h.entities.get a = .array data)
    (helements : RepresentsAll h elements data ps) :
    Represents h (.array elements) (.heapEntity a) (a :: ps)

/-- The elements of an array. -/
inductive RepresentsAll (h : Heap) : List AstLiteral → List TValue → List ℕ → Prop where
  | nil : RepresentsAll h [] [] []
  | cons {e : AstLiteral} {es : List AstLiteral} {tv : TValue} {tvs : List TValue}
    {ps qs : List ℕ} (head : Represents h e tv ps) (tail : RepresentsAll h es tvs qs) :
    RepresentsAll h (e :: es) (tv :: tvs) (ps ++ qs)

end

/-- Entities are only added, and those that are not arrays stay what they are. -/
structure Grows (h h' : Heap) : Prop where
  size_le : h.entities.size ≤ h'.entities.size
  get_eq : ∀ a, a < h.entities.size → (∀ data, h.entities.get a ≠ .array data) →
    h'.entities.get a = h.entities.get a

/-- Entities are only added. -/
structure Extends (h h' : Heap) : Prop where
  size_le : h.entities.size ≤ h'.entities.size
  get_eq : ∀ a, a < h.entities.size → h'.entities.get a = h.entities.get a

section Heaps

variable {h h' h'' : Heap}

theorem Extends.refl (h : Heap) : Extends h h := ⟨le_rfl, fun _ _ => rfl⟩

/-- One growth after another. -/
theorem Extends.trans (he : Extends h h') (he' : Extends h' h'') : Extends h h'' :=
  ⟨he.size_le.trans he'.size_le, fun a ha =>
    (he'.get_eq a (ha.trans_le he.size_le)).trans (he.get_eq a ha)⟩

theorem Extends.grows (he : Extends h h') : Grows h h' := ⟨he.size_le, fun a ha _ => he.get_eq a ha⟩

theorem extends_push (e : HeapEntity) : Extends h (h.push e) :=
  ⟨Nat.le_succ _, fun _ ha => h.entities.get_push_of_lt ha e⟩

/-- Writing an element changes no other entity. -/
theorem grows_setElement {address : ℕ} {data : List TValue}
    (hget : h.entities.get address = .array data) (i : ℕ) (tv : TValue) :
    Grows h (h.setElement address i tv) :=
  ⟨le_rfl, fun _ _ hne => Heap.get_setElement_of_ne fun heq => hne data (heq ▸ hget)⟩

mutual

/-- Only the arrays of a tree matter. -/
theorem Represents.congr {l : AstLiteral} {tv : TValue} {ps : List ℕ} (hg : Grows h h')
    (hr : Represents h l tv ps) (hps : ∀ p ∈ ps, h'.entities.get p = h.entities.get p) :
    Represents h' l tv ps := by
  cases hr with
  | integer value => exact .integer value
  | double value => exact .double value
  | string hlt hget =>
    exact .string (hlt.trans_le hg.size_le) ((hg.get_eq _ hlt (by simp [hget])).trans hget)
  | symbol hlt hget =>
    exact .symbol (hlt.trans_le hg.size_le) ((hg.get_eq _ hlt (by simp [hget])).trans hget)
  | array hlt hget helements =>
    exact .array (hlt.trans_le hg.size_le) ((hps _ List.mem_cons_self).trans hget)
      (RepresentsAll.congr hg helements fun p hp => hps p (List.mem_cons_of_mem _ hp))

/-- Only the arrays of the values matter. -/
theorem RepresentsAll.congr {es : List AstLiteral} {tvs : List TValue} {ps : List ℕ}
    (hg : Grows h h') (hr : RepresentsAll h es tvs ps)
    (hps : ∀ p ∈ ps, h'.entities.get p = h.entities.get p) : RepresentsAll h' es tvs ps := by
  cases hr with
  | nil => exact .nil
  | cons head tail =>
    exact .cons (Represents.congr hg head fun p hp => hps p (List.mem_append_left _ hp))
      (RepresentsAll.congr hg tail fun p hp => hps p (List.mem_append_right _ hp))

end

mutual

/-- The arrays of a value are in the heap. -/
theorem Represents.lt_size {l : AstLiteral} {tv : TValue} {ps : List ℕ}
    (hr : Represents h l tv ps) : ∀ p ∈ ps, p < h.entities.size := by
  cases hr with
  | integer | double | string | symbol => nofun
  | array hlt _ helements =>
    intro p hp
    rcases List.mem_cons.mp hp with rfl | hp
    · exact hlt
    · exact RepresentsAll.lt_size helements p hp

theorem RepresentsAll.lt_size {es : List AstLiteral} {tvs : List TValue} {ps : List ℕ}
    (hr : RepresentsAll h es tvs ps) : ∀ p ∈ ps, p < h.entities.size := by
  cases hr with
  | nil => nofun
  | cons head tail =>
    intro p hp
    rcases List.mem_append.mp hp with hp | hp
    · exact Represents.lt_size head p hp
    · exact RepresentsAll.lt_size tail p hp

end

variable {l : AstLiteral} {tv : TValue} {ps qs : List ℕ} {es : List AstLiteral}
  {tvs : List TValue}

/-- A value represents the same in a larger heap. -/
theorem Represents.extends (he : Extends h h') (hr : Represents h l tv ps) :
    Represents h' l tv ps :=
  hr.congr he.grows fun p hp => he.get_eq p (hr.lt_size p hp)

/-- An array literal is represented by an array. -/
theorem Represents.exists_array (hr : Represents h l tv ps) (hl : l = .array es) :
    ∃ a data, tv = .heapEntity a ∧ h.entities.get a = .array data := by
  cases hr with
  | integer | double | string | symbol => cases hl
  | array _ hget _ => exact ⟨_, _, rfl, hget⟩

/-- Any other literal is not. -/
theorem Represents.not_array (hr : Represents h l tv ps) (hl : ¬ ∃ es, l = .array es) :
    ps = [] ∧ ∀ a, tv = .heapEntity a → ∀ data, h.entities.get a ≠ .array data := by
  cases hr with
  | integer | double => exact ⟨rfl, nofun⟩
  | string _ hget | symbol _ hget =>
    refine ⟨rfl, fun a ha data => ?_⟩
    cases ha
    simp [hget]
  | array => exact absurd ⟨_, rfl⟩ hl

theorem RepresentsAll.concat (hr : RepresentsAll h es tvs ps) (hlast : Represents h l tv qs) :
    RepresentsAll h (es ++ [l]) (tvs ++ [tv]) (ps ++ qs) := by
  induction es generalizing tvs ps with
  | nil =>
    cases hr
    simpa using RepresentsAll.cons hlast .nil
  | cons e es ih =>
    cases hr with
    | cons head tail =>
      rw [List.append_assoc]
      exact .cons head (ih tail)

end Heaps

/-! ## Trees of new arrays

What is built is made of new arrays only, each of which is used once. -/

/-- **A tree is built**: of new arrays, all of them different and none outside the tree. -/
structure Builds (h h' : Heap) (l : AstLiteral) (tv : TValue) (ps : List ℕ) : Prop where
  extends' : Extends h h'
  represents : Represents h' l tv ps
  nodup : ps.Nodup
  fresh : ∀ p ∈ ps, h.entities.size ≤ p
  mem : ∀ a data, h.entities.size ≤ a → a < h'.entities.size →
    h'.entities.get a = .array data → a ∈ ps

/-- Between two rounds of a loop over the elements of the new array, which is the first new entity:
`tvs` are the elements that are there, and `rest` is what the others are still. -/
structure Building (h₀ h : Heap) (es : List AstLiteral) (tvs rest : List TValue)
    (ps : List ℕ) : Prop where
  extends' : Extends h₀ h
  lt_size : h₀.entities.size < h.entities.size
  get_eq : h.entities.get h₀.entities.size = .array (tvs ++ rest)
  represents : RepresentsAll h es tvs ps
  nodup : ps.Nodup
  fresh : ∀ p ∈ ps, h₀.entities.size < p
  mem : ∀ a data, h₀.entities.size < a → a < h.entities.size →
    h.entities.get a = .array data → a ∈ ps

section Build

variable {h₀ h h' : Heap} {l : AstLiteral} {tv x : TValue} {ps qs : List ℕ} {es : List AstLiteral}
  {tvs rest : List TValue}

/-- What is not an array takes no building. -/
theorem Builds.refl (hr : Represents h l tv []) : Builds h h l tv [] where
  extends' := .refl h
  represents := hr
  nodup := List.nodup_nil
  fresh := nofun
  mem a data hle hlt := by omega

/-- A new entity that is not an array. -/
theorem Builds.push {e : HeapEntity} (hne : ∀ data, e ≠ .array data)
    (hr : Represents (h.push e) l tv []) : Builds h (h.push e) l tv [] where
  extends' := extends_push e
  represents := hr
  nodup := List.nodup_nil
  fresh := nofun
  mem a data hle hlt hget := by
    rw [Heap.size_push] at hlt
    obtain rfl : a = h.entities.size := by omega
    exact absurd ((h.entities.get_push_self e).symm.trans hget) (hne data)

/-- At first nothing is built. -/
theorem Building.start (data : List TValue) :
    Building h (h.push (.array data)) [] [] data [] where
  extends' := extends_push _
  lt_size := Nat.lt_succ_self _
  get_eq := h.entities.get_push_self _
  represents := .nil
  nodup := List.nodup_nil
  fresh := nofun
  mem a data hlt hlt' := by rw [Heap.size_push] at hlt'; omega

/-- One round: an element is built and stored. -/
theorem Building.step (hb : Building h₀ h es tvs (x :: rest) ps) (he : Builds h h' l tv qs) :
    Building h₀ (h'.setElement h₀.entities.size tvs.length tv) (es ++ [l]) (tvs ++ [tv]) rest
      (ps ++ qs) := by
  set r := h₀.entities.size with hr
  have hget : h'.entities.get r = .array (tvs ++ x :: rest) :=
    (he.extends'.get_eq r hb.lt_size).trans hb.get_eq
  have hold (p : ℕ) (hp : p ≠ r) :
      (h'.setElement r tvs.length tv).entities.get p = h'.entities.get p :=
    Heap.get_setElement_of_ne hp
  have hgrows := grows_setElement hget tvs.length tv
  have hnew (q : ℕ) (hq : q ∈ qs) : r < q := hb.lt_size.trans_le (he.fresh q hq)
  refine ⟨⟨hb.extends'.size_le.trans he.extends'.size_le, fun a ha => ?_⟩, ?_, ?_, ?_, ?_, ?_, ?_⟩
  · rw [hold a (Nat.ne_of_lt ha)]
    exact (hb.extends'.trans he.extends').get_eq a ha
  · exact hb.lt_size.trans_le he.extends'.size_le
  · rw [Heap.get_setElement hget]
    simp
  · refine RepresentsAll.concat ?_ ?_
    · refine (hb.represents.congr he.extends'.grows fun p hp => ?_).congr hgrows fun p hp => ?_
      · exact he.extends'.get_eq p (RepresentsAll.lt_size hb.represents p hp)
      · exact hold p (hb.fresh p hp).ne'
    · exact he.represents.congr hgrows fun p hp => hold p (hnew p hp).ne'
  · refine List.nodup_append.mpr ⟨hb.nodup, he.nodup, ?_⟩
    rintro p hp _ hq rfl
    have hlt := RepresentsAll.lt_size hb.represents p hp
    have hle := he.fresh p hq
    omega
  · intro p hp
    rcases List.mem_append.mp hp with hp | hp
    · exact hb.fresh p hp
    · exact hnew p hp
  · intro a data hlt hlt' hget'
    rw [hold a hlt.ne'] at hget'
    rcases Nat.lt_or_ge a h.entities.size with ha | ha
    · rw [he.extends'.get_eq a ha] at hget'
      exact List.mem_append_left _ (hb.mem a data hlt ha hget')
    · exact List.mem_append_right _ (he.mem a data ha hlt' hget')

/-- An element that is right already. -/
theorem Building.skip (hb : Building h₀ h es tvs (x :: rest) ps) (hx : Represents h l x []) :
    Building h₀ h (es ++ [l]) (tvs ++ [x]) rest ps where
  extends' := hb.extends'
  lt_size := hb.lt_size
  get_eq := by rw [hb.get_eq, List.append_assoc]; rfl
  represents := by simpa using hb.represents.concat hx
  nodup := hb.nodup
  fresh := hb.fresh
  mem := hb.mem

/-- With every element built, the array is. -/
theorem Building.finish (hb : Building h₀ h es tvs [] ps) :
    Builds h₀ h (.array es) (.heapEntity h₀.entities.size) (h₀.entities.size :: ps) where
  extends' := hb.extends'
  represents := .array hb.lt_size hb.get_eq (by simpa using hb.represents)
  nodup := List.nodup_cons.mpr ⟨fun hp => (hb.fresh _ hp).false, hb.nodup⟩
  fresh p hp := by
    rcases List.mem_cons.mp hp with rfl | hp
    · exact le_rfl
    · exact (hb.fresh p hp).le
  mem a data hle hlt hget := by
    rcases hle.eq_or_lt with rfl | hlt'
    · exact List.mem_cons_self
    · exact List.mem_cons_of_mem _ (hb.mem a data hlt' hlt hget)

end Build

/-! ## The constant represents the literal -/

/-- The interned objects are strings and symbols with their texts. -/
def World.Valid (w : World) : Prop := ∀ isSymbol text a, w.internedObjects isSymbol text = some a →
  a < w.heap.entities.size ∧ w.heap.entities.get a = .string isSymbol (bytesOf text)

theorem World.Valid.grows {w : World} {h : Heap} (hv : w.Valid) (hg : Grows w.heap h) :
    World.Valid { w with heap := h } := by
  intro isSymbol text a ha
  obtain ⟨hlt, hget⟩ := hv isSymbol text a ha
  exact ⟨hlt.trans_le hg.size_le, (hg.get_eq a hlt (by simp [hget])).trans hget⟩

/-- What creating a constant has done. -/
def Creates (l : AstLiteral) (w : World) (result : TValue × World) : Prop :=
  (∃ ps, Builds w.heap result.2.heap l result.1 ps) ∧ result.2.Valid

/-- Interned strings and symbols. -/
theorem creates_interned {w : World} (hv : w.Valid) {l : AstLiteral} (isSymbol : Bool)
    (text : String) (hl : ∀ h a, a < h.entities.size →
      h.entities.get a = .string isSymbol (bytesOf text) → Represents h l (.heapEntity a) []) :
    Creates l w ((w.getInterned isSymbol text).map .heapEntity id) := by
  rw [World.getInterned]
  cases hs : w.internedObjects isSymbol text with
  | some a =>
    obtain ⟨hlt, hget⟩ := hv isSymbol text a hs
    exact ⟨⟨[], .refl (hl _ a hlt hget)⟩, hv⟩
  | none =>
    have hget := w.heap.entities.get_push_self (.string isSymbol (bytesOf text))
    have hlt := Nat.lt_succ_self w.heap.entities.size
    refine ⟨⟨[], .push (e := .string isSymbol (bytesOf text)) nofun (hl _ _ hlt hget)⟩, ?_⟩
    intro s t a ha
    simp only [Prod.map_snd, id_eq] at ha
    split_ifs at ha with heq
    · obtain ⟨rfl, rfl⟩ := heq
      obtain rfl := Option.some.inj ha
      exact ⟨hlt, hget⟩
    · exact hv.grows (extends_push (.string isSymbol (bytesOf text))).grows s t a ha

mutual

theorem creates_createConstant (l : AstLiteral) {w : World} (hv : w.Valid) :
    Creates l w (createConstant l w) :=
  match l with
  | .integer value => ⟨⟨[], .refl (.integer value)⟩, hv⟩
  | .double value => ⟨⟨[], .refl (.double value)⟩, hv⟩
  | .string text => creates_interned hv false text fun _ _ => .string
  | .symbol text => creates_interned hv true text fun _ _ => .symbol
  | .array elements => by
    obtain ⟨tvs, ps, hb, hv'⟩ := building_createElements elements
      (w := { w with heap := w.heap.allocateArray elements.length })
      (hv.grows (extends_push _).grows) (Building.start _) List.length_replicate
    exact ⟨⟨_, hb.finish⟩, hv'⟩

/-- The loop goes on to the end of the literal. -/
theorem building_createElements (elements : List AstLiteral) {w : World} (hv : w.Valid)
    {h₀ : Heap} {es : List AstLiteral} {tvs rest : List TValue} {ps : List ℕ}
    (hb : Building h₀ w.heap es tvs rest ps) (hlen : rest.length = elements.length) :
    ∃ tvs' ps', Building h₀ (createElements h₀.entities.size tvs.length elements w).heap
        (es ++ elements) tvs' [] ps'
      ∧ (createElements h₀.entities.size tvs.length elements w).Valid :=
  match elements, rest with
  | [], [] => ⟨tvs, ps, by simpa [createElements] using hb, by simpa [createElements] using hv⟩
  | l :: ls, x :: xs => by
    obtain ⟨⟨qs, hl⟩, hv'⟩ := creates_createConstant l hv
    have hstep := hb.step hl
    obtain ⟨tvs', ps', hb', hv''⟩ := building_createElements ls
      (w := { (createConstant l w).2 with
        heap := (createConstant l w).2.heap.setElement h₀.entities.size tvs.length
          (createConstant l w).1 })
      (hv'.grows (grows_setElement ((hl.extends'.get_eq _ hb.lt_size).trans hb.get_eq) _ _)) hstep
      (Nat.succ.inj hlen)
    rw [List.length_append, List.length_singleton] at hb' hv''
    rw [List.append_assoc] at hb'
    exact ⟨tvs', ps', hb', hv''⟩

end

/-! ## A copy represents the literal -/

section Clone

variable {h h₀ h' : Heap} {r i : ℕ} {x copy : TValue} {data : List TValue}

/-- Reading an element of an array. -/
theorem readElement_eq (hget : h.entities.get r = .array data) (hx : data[i]? = some x) :
    readElement r i h = .ok (x, h) := by
  change (match h.entities.get r with
    | .array data => wellDefined data[i]?
    | _ => throw .assertion : Run TValue) h = _
  rw [hget]
  change wellDefined data[i]? h = _
  rw [hx]
  rfl

theorem isArray_eq_true {a : ℕ} (hget : h.entities.get a = .array data) :
    isArray (.heapEntity a) h = .ok (true, h) := by
  change (match h.entities.get a with
    | .array _ => return true
    | _ => return false : Run Bool) h = _
  rw [hget]
  rfl

theorem isArray_eq_false (hx : ∀ a, x = .heapEntity a → ∀ data, h.entities.get a ≠ .array data) :
    isArray x h = .ok (false, h) := by
  cases x with
  | nil | bool | int32 | double => rfl
  | heapEntity a =>
    change (match h.entities.get a with
      | .array _ => return true
      | _ => return false : Run Bool) h = _
    cases hget : h.entities.get a with
    | array data => exact absurd hget (hx a rfl data)
    | object | string | block => rfl

variable {clone : TValue → Run TValue}

/-- An element that is an array is cloned. -/
theorem cloneElement_array {a : ℕ} {data' : List TValue} (hget : h.entities.get r = .array data)
    (hx : data[i]? = some (.heapEntity a)) (ha : h.entities.get a = .array data')
    (hclone : clone (.heapEntity a) h = .ok (copy, h')) :
    cloneElement clone r i h = .ok ((), h'.setElement r i copy) := by
  have hread := readElement_eq hget hx
  have harray := isArray_eq_true ha
  simp only [cloneElement, bind, StateT.bind, Except.bind, hread, harray, if_true, hclone]
  rfl

/-- Any other element is left. -/
theorem cloneElement_other (hget : h.entities.get r = .array data) (hx : data[i]? = some x)
    (hne : ∀ a, x = .heapEntity a → ∀ data, h.entities.get a ≠ .array data) :
    cloneElement clone r i h = .ok ((), h) := by
  have hread := readElement_eq hget hx
  have harray := isArray_eq_false hne
  simp only [cloneElement, bind, StateT.bind, Except.bind, hread, harray]
  rfl

/-- The elements are copied over those that `AllocateArray` has put there. -/
theorem copyElements_allocateArray (h : Heap) (data : List TValue) :
    (h.allocateArray data.length).copyElements h.entities.size data = h.push (.array data) := by
  refine (Heap.mk.injEq ..).mpr ⟨?_, rfl, rfl⟩
  refine congrArg (Arena.mk _) (funext fun a => ?_)
  by_cases ha : a = h.entities.size <;> simp [Heap.allocateArray, Heap.push, Arena.push, ha]

/-- The clone of an array, by the loop over its elements. -/
theorem deepCloneConstantArray_of_loop {fuel a : ℕ} (hget : h.entities.get a = .array data)
    (hloop : (List.range' 0 data.length).forM
      (cloneElement (deepCloneConstantArray fuel) h.entities.size) (h.push (.array data))
        = .ok ((), h')) :
    deepCloneConstantArray (fuel + 1) (.heapEntity a) h
      = .ok (.heapEntity h.entities.size, h') := by
  rw [deepCloneConstantArray, Operator.asArray_bind hget]
  change ((List.range' 0 data.length).forM
      (cloneElement (deepCloneConstantArray fuel) h.entities.size) >>= fun _ =>
        pure (.heapEntity h.entities.size) : Run TValue)
    ((h.allocateArray data.length).copyElements h.entities.size data) = _
  rw [copyElements_allocateArray]
  simp only [bind, StateT.bind, Except.bind, hloop]
  rfl

/-- The first round of the loop and the others. -/
theorem forM_range'_succ {f : ℕ → Run Unit} {n : ℕ} (hf : f i h = .ok ((), h₀)) :
    (List.range' i (n + 1)).forM f h = (List.range' (i + 1) n).forM f h₀ := by
  simp only [List.range'_succ, List.forM, bind, StateT.bind, Except.bind, hf]

end Clone

mutual

/-- **A copy of what represents a literal is built and represents the literal.** -/
theorem builds_deepCloneConstantArray {hs h : Heap} {l : AstLiteral} {elements : List AstLiteral}
    {tv : TValue} {ps : List ℕ} (hr : Represents hs l tv ps) (he : Extends hs h)
    (hl : l = .array elements) :
    ∃ tv' h' ps', DeepClones h tv tv' h' ∧ Builds h h' l tv' ps' := by
  cases hr with
  | integer | double | string | symbol => cases hl
  | @array _ data qs a hlt hget helements =>
    obtain ⟨h', tvs, ps', ⟨n, hloop⟩, hb⟩ :=
      building_cloneElements helements he (Building.start data)
    refine ⟨.heapEntity h.entities.size, h', _, ⟨n + 1, fun fuel hfuel => ?_⟩, hb.finish⟩
    obtain ⟨m, rfl⟩ : ∃ m, fuel = m + 1 := ⟨fuel - 1, by omega⟩
    exact deepCloneConstantArray_of_loop ((he.get_eq a hlt).trans hget) (hloop m (by omega))

/-- The loop goes on to the end of the array. -/
theorem building_cloneElements {hs h₀ h : Heap} {elements es : List AstLiteral}
    {tvs xs : List TValue} {ps qs : List ℕ} (hr : RepresentsAll hs elements xs qs)
    (he : Extends hs h₀) (hb : Building h₀ h es tvs xs ps) :
    ∃ h' tvs' ps', (∃ n, ∀ fuel, n ≤ fuel → (List.range' tvs.length xs.length).forM
        (cloneElement (deepCloneConstantArray fuel) h₀.entities.size) h = .ok ((), h'))
      ∧ Building h₀ h' (es ++ elements) tvs' [] ps' := by
  cases hr with
  | nil => exact ⟨h, tvs, ps, ⟨0, fun _ _ => rfl⟩, by simpa using hb⟩
  | @cons l ls x xs ps₁ qs₁ head tail =>
    have hx : (tvs ++ x :: xs)[tvs.length]? = some x := by simp
    have hrepr : Represents h l x ps₁ := head.extends (he.trans hb.extends')
    -- one round leads to a heap from which the others go on
    have hround : ∃ h₁ y rs, (∃ n, ∀ fuel, n ≤ fuel → cloneElement (deepCloneConstantArray fuel)
          h₀.entities.size tvs.length h = .ok ((), h₁))
        ∧ Building h₀ h₁ (es ++ [l]) (tvs ++ [y]) xs rs := by
      by_cases hl : ∃ elements, l = .array elements
      · obtain ⟨elements, hl⟩ := hl
        obtain ⟨y, h₁, rs, ⟨n, hclone⟩, hbuilds⟩ :=
          builds_deepCloneConstantArray head (he.trans hb.extends') hl
        obtain ⟨a, data, rfl, hdata⟩ := hrepr.exists_array hl
        exact ⟨_, y, _, ⟨n, fun fuel hfuel => cloneElement_array hb.get_eq hx hdata
          (hclone fuel hfuel)⟩, hb.step hbuilds⟩
      · obtain ⟨rfl, hne⟩ := hrepr.not_array hl
        exact ⟨h, x, ps, ⟨0, fun fuel _ => cloneElement_other hb.get_eq hx hne⟩, hb.skip hrepr⟩
    obtain ⟨h₁, y, rs, ⟨n, hone⟩, hb₁⟩ := hround
    obtain ⟨h', tvs', ps', ⟨m, hloop⟩, hb'⟩ := building_cloneElements tail he hb₁
    refine ⟨h', tvs', ps', ⟨max n m, fun fuel hfuel => ?_⟩, by simpa using hb'⟩
    rw [List.length_cons, forM_range'_succ (hone fuel (le_of_max_le_left hfuel))]
    rw [List.length_append, List.length_singleton] at hloop
    exact hloop fuel (le_of_max_le_right hfuel)

end

end ArrayLiteral

end Dsom
