import Dsom.Compiler.Compile
import Dsom.Foundations.Ensures
import Dsom.Syntax.ParseClass
import Mathlib.Data.List.Nodup
import Mathlib.Logic.Function.Basic

/-!
# Runtime/FieldLayout — the slots of fields

`SOMCompileFile` computes where a field is twice: in the map that `CompileMethod` looks names up in,
and in the `m_fields` of the class that `SOMClass::Create` makes.  Both go over the inherited fields
first.  So the fields in scope in a class are the first fields of every class below it, and a slot
means the same everywhere (`fieldLayout_stable`), on the class side as well.

Numbers of fields are natural numbers.
-/

namespace Dsom

/-- The part of `SOMClass` that is about fields; `fields` are the names in `m_fields`. -/
structure SomClass where
  numFields : ℕ
  fields : List String
  length_fields : fields.length = numFields

/-- `SOMClass::Create`. -/
def SomClass.create : Option SomClass → List String → SomClass
  | none, fields => ⟨fields.length, fields, rfl⟩
  | some superClass, fields =>
      { numFields := fields.length + superClass.numFields
        fields := superClass.fields ++ fields
        length_fields := by rw [List.length_append, superClass.length_fields, Nat.add_comm] }

/-- `TempUnorderedMap<std::string_view, uint32_t>`. -/
abbrev FieldMap := String → Option ℕ

/-- `fieldMap[name] = curFieldOrd; curFieldOrd++`. -/
def addField (m : FieldMap × ℕ) (name : String) : FieldMap × ℕ :=
  (Function.update m.1 name (some m.2), m.2 + 1)

/-- The field map that the methods of a class are compiled with. -/
def fieldMap (superClass : Option SomClass) (declared : List String) : FieldMap :=
  let inherited := match superClass with
    | some c => c.fields.foldl addField (fun _ => none, 0)
    | none => (fun _ => none, 0)
  (declared.foldl addField inherited).1

/-! ## Classes -/

/-- The field that class objects have for their class. -/
def classOfClassObject : String := "(classOfClassObject)"

/-- `Object`, `Class` and `Metaclass`, which are loaded first. -/
inductive RootChain where
  | object (cl : AstClass)
  | sub (superClass : RootChain) (className : String) (cl : AstClass)

/-- A class with the classes above it. -/
inductive ClassChain where
  | root (r : RootChain)
  | sub (superClass : ClassChain) (cl : AstClass)

namespace RootChain

/-- The class the compiler builds for the instance side. -/
def instanceSide : RootChain → SomClass
  | object cl => .create none cl.instanceFields
  | sub superClass className cl =>
      .create (some superClass.instanceSide)
        (if className = "Class" then cl.instanceFields ++ [classOfClassObject]
          else cl.instanceFields)

/-- The field map that the methods of the instance side are compiled with. -/
def instanceFieldMap : RootChain → FieldMap
  | object cl => fieldMap none cl.instanceFields
  | sub superClass _ cl => fieldMap (some superClass.instanceSide) cl.instanceFields

/-- The names of the fields down a chain, `Object` first. -/
def instanceNames : RootChain → List String
  | object cl => cl.instanceFields
  | sub superClass className cl =>
      superClass.instanceNames ++ cl.instanceFields ++
        if className = "Class" then [classOfClassObject] else []

end RootChain

namespace ClassChain

/-- The class the compiler builds for the instance side of the last class. -/
def instanceSide : ClassChain → SomClass
  | root r => r.instanceSide
  | sub superClass cl => .create (some superClass.instanceSide) cl.instanceFields

/-- The field map that the methods of the last class are compiled with. -/
def instanceFieldMap : ClassChain → FieldMap
  | root r => r.instanceFieldMap
  | sub superClass cl => fieldMap (some superClass.instanceSide) cl.instanceFields

/-- The class of the class object; `classClass` is the class `Class`. -/
def classSide (classClass : SomClass) : ClassChain → SomClass
  | root _ => .create (some classClass) []
  | sub superClass cl => .create (some (superClass.classSide classClass)) cl.classFields

/-- The field map of the class methods; the root classes have none. -/
def classFieldMap (classClass : SomClass) : ClassChain → FieldMap
  | root _ => fun _ => none
  | sub superClass cl => fieldMap (some (superClass.classSide classClass)) cl.classFields

/-- The names of the fields down a chain, `Object` first. -/
def instanceNames : ClassChain → List String
  | root r => r.instanceNames
  | sub superClass cl => superClass.instanceNames ++ cl.instanceFields

/-- The same for the class objects: what `Class` has comes first. -/
def classNames (classClass : SomClass) : ClassChain → List String
  | root _ => classClass.fields
  | sub superClass cl => superClass.classNames classClass ++ cl.classFields

/-- `D` is `C` or a class below it. -/
inductive Inherits : ClassChain → ClassChain → Prop
  | refl (C : ClassChain) : Inherits C C
  | rootSub {superClass : RootChain} {C : ClassChain} (className : String) (cl : AstClass)
      (h : Inherits (.root superClass) C) : Inherits (.root (.sub superClass className cl)) C
  | sub {superClass C : ClassChain} (cl : AstClass) (h : Inherits superClass C) :
      Inherits (.sub superClass cl) C

end ClassChain

/-! ## What a slot means

A field of a class has the same slot in every class below. -/

/-- Somewhere in a method compiled with this map, `ResolveVariable` answers slot `i` for `f`. -/
def FieldMap.Resolves (m : FieldMap) (f : String) (i : ℕ) : Prop :=
  ∃ (isSelfObject : Bool) (globals : String → ℕ) (ctx bctx : ℕ) (mode : VarResolveMode)
    (s s' : TranslationState),
    resolveVariable ⟨m, isSelfObject, globals⟩ ctx bctx f mode s = .ok (.field i, s')

/-- The slots of the methods of a class, compiled with `m`, in a receiver whose own methods are
compiled with `m'`. -/
structure SlotsStable (m m' : FieldMap) (receiver : SomClass) : Prop where
  /-- a slot is in the object -/
  lt_numFields {f : String} {i : ℕ} : m.Resolves f i → i < receiver.numFields
  /-- it holds the field of this name -/
  denotes {f : String} {i : ℕ} : m.Resolves f i → receiver.fields[i]? = some f
  /-- it is the slot that the methods of the receiver's class use -/
  same {f : String} {i : ℕ} : m.Resolves f i → m'.Resolves f i
  /-- no other field has it -/
  distinct {f g : String} {i j : ℕ} : m.Resolves f i → m'.Resolves g j → f ≠ g → i ≠ j

/-! ## The map is the list of names

A name is mapped to its place in the list of names in scope. -/

section Map

variable {f : String} {i : ℕ}

/-- A variable of the method is no field. -/
theorem resolveLocal_ne_field (ctx bctx : ℕ) (name : String) (mode : VarResolveMode) (var : ℕ)
    (s : TranslationState) :
    Ensures (resolveLocal ctx bctx name mode var) s fun r _ => r ≠ .field i := by
  have htrue {α : Type} (m : CompileM α) (s : TranslationState) : Ensures m s fun _ _ => True :=
    fun _ _ _ => trivial
  refine Ensures.bind (htrue _ s) fun v s _ => Ensures.bind (htrue _ s) fun _ s _ => ?_
  refine Ensures.bind (htrue _ s) fun _ s _ => Ensures.bind (htrue _ s) fun _ s _ => ?_
  split
  · refine Ensures.bind (htrue _ s) fun _ s _ => Ensures.bind (htrue _ s) fun _ s _ => ?_
    exact Ensures.of_pure (by simp)
  · exact Ensures.of_pure (by simp)

/-- What a name is resolved to is in the map. -/
theorem FieldMap.Resolves.eq_some {m : FieldMap} (h : m.Resolves f i) : m f = some i := by
  obtain ⟨isSelfObject, globals, ctx, bctx, mode, s, s', h⟩ := h
  suffices hfield : Ensures (resolveVariable ⟨m, isSelfObject, globals⟩ ctx bctx f mode) s
      fun r _ => r = .field i → m f = some i from hfield _ _ h rfl
  rw [resolveVariable]
  split
  · split
    · exact Ensures.of_error
    · exact Ensures.of_pure (by simp)
  · refine Ensures.get_bind ?_
    cases s.localVarMap f with
    | cons var vars =>
        exact (resolveLocal_ne_field ctx bctx f mode var s).mono fun _ _ hne he => absurd he hne
    | nil =>
        dsimp only
        cases m f with
        | some ord => exact Ensures.of_pure fun he => congrArg some (VarResolveResult.field.inj he)
        | none =>
            dsimp only
            split_ifs <;> first | exact Ensures.of_error | exact Ensures.of_pure (by simp)

theorem addField_self (m : FieldMap × ℕ) (name : String) : (addField m name).1 name = some m.2 :=
  Function.update_self ..

theorem addField_of_ne {name : String} (h : f ≠ name) (m : FieldMap × ℕ) :
    (addField m name).1 f = m.1 f := Function.update_of_ne h ..

/-- Other names keep their slots. -/
theorem foldl_addField_of_notMem {l : List String} (h : f ∉ l) (m : FieldMap × ℕ) :
    (l.foldl addField m).1 f = m.1 f := by
  induction l generalizing m with
  | nil => rfl
  | cons name l ih =>
      rw [List.mem_cons, not_or] at h
      rw [List.foldl_cons, ih h.2, addField_of_ne h.1]

/-- The loop gives the names of a list consecutive slots. -/
theorem foldl_addField {l : List String} (hl : l.Nodup) {k : ℕ} (h : l[k]? = some f)
    (m : FieldMap × ℕ) : (l.foldl addField m).1 f = some (m.2 + k) := by
  induction l generalizing m k with
  | nil => exact nomatch h
  | cons name l ih =>
      obtain ⟨hname, hl⟩ := List.nodup_cons.1 hl
      rw [List.foldl_cons]
      cases k with
      | zero =>
          obtain rfl : name = f := Option.some.inj h
          exact (foldl_addField_of_notMem hname _).trans (addField_self m name)
      | succ k =>
          rw [ih hl h, addField]
          exact congrArg some (by omega)

/-- The fields in scope: those of the superclass, then the declared ones. -/
def scopeNames (superClass : Option SomClass) (declared : List String) : List String :=
  superClass.elim [] SomClass.fields ++ declared

/-- The map is made by adding the names in scope. -/
theorem fieldMap_eq (superClass : Option SomClass) (declared : List String) :
    fieldMap superClass declared =
      ((scopeNames superClass declared).foldl addField (fun _ => none, 0)).1 := by
  cases superClass with
  | none => rfl
  | some c => rw [scopeNames, Option.elim_some, List.foldl_append, fieldMap]

/-- **The map of a class**: the slot of a name is its place among the fields in scope. -/
theorem fieldMap_eq_some_iff {superClass : Option SomClass} {declared : List String}
    (h : (scopeNames superClass declared).Nodup) :
    fieldMap superClass declared f = some i ↔ (scopeNames superClass declared)[i]? = some f := by
  rw [fieldMap_eq]
  refine ⟨fun hf => ?_, fun hi => (foldl_addField h hi _).trans (congrArg some (Nat.zero_add i))⟩
  have hmem : f ∈ scopeNames superClass declared := by
    by_contra hno
    rw [foldl_addField_of_notMem hno] at hf
    exact nomatch hf
  obtain ⟨k, hk⟩ := List.mem_iff_getElem?.1 hmem
  rw [foldl_addField h hk, Nat.zero_add] at hf
  exact Option.some.inj hf ▸ hk

end Map

/-! ## Down the chain

The names in scope of a class come first in every class below. -/

namespace ClassChain

/-- The fields in scope in the instance methods of a class. -/
def instanceScope : ClassChain → List String
  | root (.object cl) => scopeNames none cl.instanceFields
  | root (.sub superClass _ cl) => scopeNames (some superClass.instanceSide) cl.instanceFields
  | sub superClass cl => scopeNames (some superClass.instanceSide) cl.instanceFields

/-- The fields in scope in the class methods of a class. -/
def classScope (classClass : SomClass) : ClassChain → List String
  | root _ => []
  | sub superClass cl => scopeNames (some (superClass.classSide classClass)) cl.classFields

/-- The fields of a root class. -/
theorem fields_instanceSide_root (r : RootChain) : r.instanceSide.fields = r.instanceNames := by
  induction r with
  | object cl => rfl
  | sub superClass className cl ih =>
      rw [RootChain.instanceSide, RootChain.instanceNames, ← ih, List.append_assoc]
      split
      · rfl
      · rw [List.append_nil]
        rfl

/-- **The class object has the fields of the chain**, in its order. -/
theorem fields_instanceSide (C : ClassChain) : C.instanceSide.fields = C.instanceNames := by
  induction C with
  | root r => exact fields_instanceSide_root r
  | sub superClass cl ih => rw [instanceNames, ← ih]; rfl

/-- The fields of a class side. -/
theorem fields_classSide (classClass : SomClass) (C : ClassChain) :
    (C.classSide classClass).fields = C.classNames classClass := by
  induction C with
  | root r => exact List.append_nil _
  | sub superClass cl ih => rw [classNames, ← ih]; rfl

/-- The names in scope come first among the fields. -/
theorem instanceScope_isPrefix (C : ClassChain) : C.instanceScope <+: C.instanceSide.fields := by
  cases C with
  | sub superClass cl => exact List.prefix_rfl
  | root r =>
      cases r with
      | object cl => exact List.prefix_rfl
      | sub superClass className cl =>
          rw [fields_instanceSide, instanceScope, scopeNames, Option.elim_some,
            fields_instanceSide_root]
          exact List.prefix_append _ _

/-- So it is on the class side. -/
theorem classScope_isPrefix (classClass : SomClass) (C : ClassChain) :
    C.classScope classClass <+: (C.classSide classClass).fields := by
  cases C with
  | root r => exact List.nil_prefix
  | sub superClass cl => exact List.prefix_rfl

/-- **What is in scope in a class is in scope in the classes below it**, at the same places. -/
theorem Inherits.instanceScope_isPrefix {C D : ClassChain} (h : D.Inherits C) :
    C.instanceScope <+: D.instanceScope := by
  induction h with
  | refl C => exact List.prefix_rfl
  | rootSub className cl h ih =>
      exact (ih.trans (ClassChain.instanceScope_isPrefix _)).trans (List.prefix_append _ _)
  | sub cl h ih =>
      exact (ih.trans (ClassChain.instanceScope_isPrefix _)).trans (List.prefix_append _ _)

/-- Down the chain the scope grows at its end. -/
theorem Inherits.classScope_isPrefix {C D : ClassChain} (classClass : SomClass) (h : D.Inherits C) :
    C.classScope classClass <+: D.classScope classClass := by
  induction h with
  | refl C => exact List.prefix_rfl
  | rootSub className cl h ih => exact ih
  | sub cl h ih =>
      exact (ih.trans (ClassChain.classScope_isPrefix classClass _)).trans (List.prefix_append _ _)

/-- A slot is a place in the scope, if no name stands there twice. -/
theorem instanceFieldMap_eq_some_iff {C : ClassChain} (h : C.instanceScope.Nodup) {f : String}
    {i : ℕ} : C.instanceFieldMap f = some i ↔ C.instanceScope[i]? = some f := by
  cases C with
  | sub superClass cl => exact fieldMap_eq_some_iff h
  | root r => cases r with
    | object cl => exact fieldMap_eq_some_iff h
    | sub superClass className cl => exact fieldMap_eq_some_iff h

/-- So it is on the class side. -/
theorem classFieldMap_eq_some_iff {classClass : SomClass} {C : ClassChain}
    (h : (C.classScope classClass).Nodup) {f : String} {i : ℕ} :
    C.classFieldMap classClass f = some i ↔ (C.classScope classClass)[i]? = some f := by
  cases C with
  | root r => exact iff_of_false (fun hf => nomatch hf) (fun hf => nomatch hf)
  | sub superClass cl => exact fieldMap_eq_some_iff h

end ClassChain

theorem getElem?_of_isPrefix {l l' : List String} (h : l <+: l') {f : String} {i : ℕ}
    (hi : l[i]? = some f) : l'[i]? = some f := by
  obtain ⟨t, rfl⟩ := h
  rw [List.getElem?_append_left (List.getElem?_eq_some_iff.1 hi).1, hi]

/-- A name in the map is resolved where no variable hides it. -/
theorem FieldMap.resolves_of_eq_some {m : FieldMap} {f : String} {i : ℕ} (h : m f = some i)
    (hself : ¬ (f = "self" ∨ f = "super")) : m.Resolves f i := by
  refine ⟨true, fun _ => 0, 0, 0, .dryRun, initialState, initialState, ?_⟩
  rw [resolveVariable, if_neg hself]
  simp only [h]
  rfl

/-- A map that agrees on a name resolves it in the same way. -/
theorem FieldMap.Resolves.of_eq {m m' : FieldMap} {f : String} {i : ℕ} (h : m.Resolves f i)
    (heq : m' f = some i) : m'.Resolves f i := by
  have hm := h.eq_some
  obtain ⟨isSelfObject, globals, ctx, bctx, mode, s, s', h⟩ := h
  refine ⟨isSelfObject, globals, ctx, bctx, mode, s, s', ?_⟩
  rw [← h]
  simp only [resolveVariable, heq, hm]

/-- **Two maps that read one list**: the scope of one is the beginning of the scope of the other,
and that is the beginning of the fields of the receiver. -/
theorem slotsStable_of_isPrefix {m m' : FieldMap} {receiver : SomClass} {scope scope' : List String}
    (hscope : scope <+: scope') (hscope' : scope' <+: receiver.fields)
    (hm : ∀ {f i}, m f = some i ↔ scope[i]? = some f)
    (hm' : ∀ {f i}, m' f = some i ↔ scope'[i]? = some f) : SlotsStable m m' receiver := by
  have hsame {f : String} {i : ℕ} (h : m.Resolves f i) : m' f = some i :=
    hm'.2 (getElem?_of_isPrefix hscope (hm.1 h.eq_some))
  have hfield {f : String} {i : ℕ} (h : m' f = some i) : receiver.fields[i]? = some f :=
    getElem?_of_isPrefix hscope' (hm'.1 h)
  refine ⟨fun h => ?_, fun h => hfield (hsame h), fun h => h.of_eq (hsame h), ?_⟩
  · rw [← receiver.length_fields]
    exact (List.getElem?_eq_some_iff.1 (hfield (hsame h))).1
  · rintro f g i j hf hg hne rfl
    exact hne (Option.some.inj ((hfield (hsame hf)).symm.trans (hfield hg.eq_some)))

/-- **Field layout is stable under subclassing**: where the names of the fields down to `D` are
different, what a method of `C` takes for the slot of a field is the slot of that field in the
instances of every subclass `D`, of that field only; and the same for class methods and the class
objects. -/
theorem fieldLayout_stable (classClass : SomClass) {C D : ClassChain} (h : D.Inherits C) :
    (D.instanceNames.Nodup →
      SlotsStable C.instanceFieldMap D.instanceFieldMap D.instanceSide) ∧
    ((D.classNames classClass).Nodup →
      SlotsStable (C.classFieldMap classClass) (D.classFieldMap classClass)
        (D.classSide classClass)) := by
  refine ⟨fun hnodup => ?_, fun hnodup => ?_⟩
  · rw [← ClassChain.fields_instanceSide] at hnodup
    have hscope : D.instanceScope.Nodup := hnodup.sublist D.instanceScope_isPrefix.sublist
    exact slotsStable_of_isPrefix h.instanceScope_isPrefix D.instanceScope_isPrefix
      (ClassChain.instanceFieldMap_eq_some_iff (hscope.sublist h.instanceScope_isPrefix.sublist))
      (ClassChain.instanceFieldMap_eq_some_iff hscope)
  · rw [← ClassChain.fields_classSide] at hnodup
    have hscope := hnodup.sublist (D.classScope_isPrefix classClass).sublist
    have hscopes := h.classScope_isPrefix classClass
    exact slotsStable_of_isPrefix hscopes (D.classScope_isPrefix classClass)
      (ClassChain.classFieldMap_eq_some_iff (hscope.sublist hscopes.sublist))
      (ClassChain.classFieldMap_eq_some_iff hscope)

/-- `Class`, a class and a subclass of it. -/
def classOnly : SomClass := .create none [classOfClassObject]

/-- A class with two fields below `Object`. -/
def point : ClassChain :=
  .sub (.root (.object ⟨"Object", none, [], [], [], []⟩))
    ⟨"Point", some "Object", ["x", "y"], [], ["origin"], []⟩

/-- A class with one more field below it. -/
def point3D : ClassChain := .sub point ⟨"Point3D", some "Point", ["z"], [], ["up"], []⟩

theorem fieldLayout_stable_point :
    point.instanceFieldMap.Resolves "y" 1 ∧ point3D.instanceSide.fields[1]? = some "y" ∧
      (point.classFieldMap classOnly).Resolves "origin" 1 ∧
        (point3D.classSide classOnly).fields[1]? = some "origin" := by
  have h := fieldLayout_stable classOnly (.sub _ (.refl point) : point3D.Inherits point)
  have hy : point.instanceFieldMap.Resolves "y" 1 :=
    FieldMap.resolves_of_eq_some (by decide) (by decide)
  have horigin : (point.classFieldMap classOnly).Resolves "origin" 1 :=
    FieldMap.resolves_of_eq_some (by decide) (by decide)
  exact ⟨hy, (h.1 (by decide)).denotes hy, horigin, (h.2 (by decide)).denotes horigin⟩

end Dsom
