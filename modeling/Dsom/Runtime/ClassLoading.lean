import Dsom.Foundations.Ensures
import Dsom.Foundations.Orbit
import Dsom.Syntax.FrontEnd

/-!
# Runtime/ClassLoading — loading a class and its superclasses

`SOMCompileFile` of `som_compile_file.cpp`.  A class is recorded as loaded at the very end; its
superclass is loaded before that, from the middle of the parse.  So loading goes up the declared
superclasses without remembering where it came from, and ends exactly when they do
(`somCompileFile_iff`).

Files are a finite list of class names and texts.  Compiling the methods of a class does not load
classes, and reports an error or not; it is a parameter.
-/

namespace Dsom

/-- How loading a class ends early. -/
inductive LoadError where
  | fileNotFound
  | parse (e : ParseError)
  | wrongName
  | compile
  | nullSuperClass
  | outOfFuel

/-- The classes whose class objects are set up by the caller. -/
def rootClasses : List String := ["Object", "Class", "Metaclass"]

/-- The tokens of a file, enough of them for the parser. -/
def fileTokens (text : List Char) : List Token :=
  delivered (text.length + 3) (.replicate (text.length + 2) .getSym) (.ofText text)

/-- Fuel that is enough to parse a text. -/
def parseFuel (text : List Char) : ℕ := 8 * text.length + 10

/-- A parse error ends the loading. -/
def parseStep {α : Type} (r : Except ParseError α) : Except LoadError α := r.mapError .parse

/-- The files, and what is done with a class that was parsed: `CompileMethod` on its instance
methods and on its class methods. -/
structure Loader where
  files : List (String × List Char)
  strtod : String → Option (BitVec 64)
  compileInstance : AstClass → Bool
  compileClass : AstClass → Bool

namespace Loader

variable (ld : Loader)

/-- The part of `SOMCompileFile` after the parse. -/
def finishClass (className : String) (cl : AstClass) (parsedClasses : List String) :
    Except LoadError (List String) :=
  if className ≠ cl.name then .error .wrongName
  else if ld.compileInstance cl = false then .error .compile
  else if className ∈ rootClasses then .ok (className :: parsedClasses)
  else if cl.superClass = none then .error .nullSuperClass
  else if ld.compileClass cl = false then .error .compile
  else .ok (className :: parsedClasses)

/-- **`SOMCompileFile`**, with fuel for the depth of the recursion: the classes that are loaded
then. -/
def somCompileFile : ℕ → String → List String → Except LoadError (List String)
  | 0, _, _ => .error .outOfFuel
  | fuel + 1, className, parsedClasses =>
      if className ∈ parsedClasses then .ok parsedClasses
      else
        match ld.files.lookup className with
        | none => .error .fileNotFound
        | some text => do
            let ((name, superClass), s) ← parseStep (parseClassHeader (fileTokens text))
            let parsedClasses ← match superClass with
              | some c => somCompileFile fuel c parsedClasses
              | none => .ok parsedClasses
            let (cl, _) ← parseStep (parseClassBody ld.strtod (parseFuel text) name superClass s)
            ld.finishClass className cl parsedClasses

/-! ## The way up

Loading a class loads its superclass first, by the name in its file. -/

/-- The superclass that loading a class goes on to. -/
def declaredSuper (parsedClasses : List String) (className : String) : Option String :=
  if className ∈ parsedClasses then none
  else
    match ld.files.lookup className with
    | none => none
    | some text =>
        match parseClassHeader (fileTokens text) with
        | .ok ((_, superClass), _) => superClass
        | .error _ => none

/-- The class is well-formed, and it has no superclass where one is needed. -/
def NullSuperClassAt (parsedClasses : List String) (className : String) : Prop :=
  className ∉ parsedClasses ∧ className ∉ rootClasses ∧ ∃ text cl s,
    ld.files.lookup className = some text ∧
    parseClass ld.strtod (parseFuel text) (fileTokens text) = .ok (cl, s) ∧
    cl.superClass = none ∧ cl.name = className ∧ ld.compileInstance cl = true

end Loader

/-- The loading returns, or it reports an error. -/
def Finishes : Except LoadError (List String) → Prop
  | .ok _ => True
  | .error .outOfFuel => False
  | .error .nullSuperClass => False
  | .error (.parse .outOfFuel) => False
  | .error _ => True

/-! ## Parsing a file -/

section Parsing

variable {text : List Char}

/-- The tokens of a file. -/
theorem fileTokens_eq (text : List Char) :
    fileTokens text = tokensOf (text.length + 2) (newline :: text) :=
  delivered_getSym (reads_ofText text) rfl (Nat.le_refl _)

theorem sameTokens_fileTokens (text : List Char) : SameTokens (fileTokens text)
    (fileTokens text) := by
  rw [fileTokens_eq]
  exact sameTokens_tokensOf (Nat.le_refl _) (Nat.le_refl _)

/-- There are at most as many as characters, and one. -/
theorem size_fileTokens (text : List Char) : parsing.size (fileTokens text) ≤ text.length + 1 := by
  rw [fileTokens_eq]
  exact length_beforeNone_tokensOf

/-- The header is parsed, or there is an error to report. -/
theorem parseClassHeader_fileTokens (text : List Char) :
    (∃ name superClass s, parseClassHeader (fileTokens text) = .ok ((name, superClass), s) ∧
      SameTokens s s ∧ parsing.size s ≤ text.length + 1) ∨
    ∃ e, parseClassHeader (fileTokens text) = .error e ∧ e ≠ .outOfFuel := by
  have hsize := size_fileTokens text
  have hagree : ParsersAgree (fun _ => True)
    (text.length + 1) 0 parseClassHeader parseClassHeader :=
    agree_parseClassHeader
  rcases (hagree _ _ (sameTokens_fileTokens text) trivial hsize).cases with
    ⟨header, s, s', hok, hok', hsame, hle⟩ | ⟨e, herr, -, hbad⟩
  · obtain rfl : s = s' := (Prod.mk.inj (Except.ok.inj (hok.symm.trans hok'))).2
    exact .inl ⟨header.1, header.2, s, hok, hsame, Nat.le_trans hle hsize⟩
  · exact .inr ⟨e, herr, hbad⟩

/-- The class that is parsed has the name and the superclass of its header. -/
theorem parseClassBody_header (strtod : String → Option (BitVec 64)) (fuel : ℕ) (s : List Token)
    (name : String) (superClass : Option String) :
    Ensures (parseClassBody strtod fuel name superClass) s fun cl _ =>
      cl.superClass = superClass ∧ cl.name = name := by
  have hany {α : Type} (m : Parser α) (s : List Token) : Ensures m s fun _ _ => True :=
    fun _ _ _ => trivial
  have hsides (s : List Token) : Ensures (parseClassSides strtod fuel name superClass) s fun cl _ =>
      cl.superClass = superClass ∧ cl.name = name := by
    refine (hany _ s).bind fun _ s _ => (hany _ s).bind fun side s _ =>
      (hany _ s).bind fun b s _ => ?_
    cases b with
    | true =>
        refine (hany (parseSide strtod fuel) s).bind fun side' s _ =>
          (hany _ s).bind fun _ s _ => ?_
        exact Ensures.of_pure ⟨rfl, rfl⟩
    | false =>
        change Ensures (expect .endTerm >>= fun _ =>
          pure (AstClass.mk name superClass side.1 side.2 [] [])) s _
        exact (hany _ s).bind fun _ s _ => Ensures.of_pure ⟨rfl, rfl⟩
  refine (hany curSym s).bind fun sym s _ => ?_
  by_cases hsym : sym = .identifier
  · rw [if_pos hsym]
    exact (hany _ s).bind fun _ s _ => hsides s
  · rw [if_neg hsym]
    exact hsides s

/-- The rest of the class is parsed, or there is an error to report. -/
theorem parseClassBody_tokens (strtod : String → Option (BitVec 64)) {s : List Token}
    (name : String)
    (superClass : Option String) (hs : SameTokens s s) (hsize : parsing.size s ≤ text.length + 1) :
    (∃ cl s', parseClassBody strtod (parseFuel text) name superClass s = .ok (cl, s') ∧
      cl.superClass = superClass ∧ cl.name = name) ∨
    ∃ e, parseClassBody strtod (parseFuel text) name superClass s = .error e ∧ e ≠ .outOfFuel := by
  have hfuel : 8 * (text.length + 1) + 2 ≤ parseFuel text := Nat.le_refl _
  have hagree := agree_parseClassBody strtod _ _ name superClass _ (fun _ => True) hfuel hfuel
  rcases (hagree s s hs trivial hsize).cases with ⟨cl, s', -, hok, -⟩ | ⟨e, herr, -, hbad⟩
  · exact .inl ⟨cl, s', hok, parseClassBody_header strtod _ s name superClass cl s' hok⟩
  · exact .inr ⟨e, herr, hbad⟩

/-- The whole class is its header and its body. -/
theorem parseClass_eq (strtod : String → Option (BitVec 64)) (fuel : ℕ) (s : List Token) :
    parseClass strtod fuel s = (parseClassHeader s).bind fun r =>
      parseClassBody strtod fuel r.1.1 r.1.2 r.2 := rfl

/-- A file that does not parse ends the load. -/
theorem finishes_parse {e : ParseError} (he : e ≠ .outOfFuel) : Finishes (.error (.parse e)) := by
  cases e <;> trivial

end Parsing

/-! ## One class

The header is parsed, then the superclass is loaded, then the rest is parsed. -/

namespace Loader

variable {ld : Loader} {parsedClasses : List String} {c d : String}

/-- The class is not loaded yet, and its file has a header. -/
structure HeaderOf (ld : Loader) (parsedClasses : List String) (c : String)
    (text : List Char) (name : String) (superClass : Option String) (s : List Token) : Prop where
  notLoaded : c ∉ parsedClasses
  file : ld.files.lookup c = some text
  header : parseClassHeader (fileTokens text) = .ok ((name, superClass), s)
  same : SameTokens s s
  size : parsing.size s ≤ text.length + 1

section Header

variable {text : List Char} {name : String} {superClass : Option String} {s : List Token}

/-- The superclass that the header names. -/
theorem HeaderOf.declaredSuper (h : ld.HeaderOf parsedClasses c text name superClass s) :
    ld.declaredSuper parsedClasses c = superClass := by
  rw [Loader.declaredSuper, if_neg h.notLoaded]
  simp only [h.file, h.header]

/-- Loading a file whose header was parsed. -/
theorem HeaderOf.somCompileFile (h : ld.HeaderOf parsedClasses c text name superClass s)
    (fuel : ℕ) :
    ld.somCompileFile (fuel + 1) c parsedClasses =
      (match superClass with
        | some d => ld.somCompileFile fuel d parsedClasses
        | none => .ok parsedClasses).bind fun parsedClasses =>
      (parseStep (parseClassBody ld.strtod (parseFuel text) name superClass s)).bind fun r =>
        ld.finishClass c r.1 parsedClasses := by
  rw [Loader.somCompileFile, if_neg h.notLoaded]
  simp only [h.file, h.header]
  cases superClass <;> rfl

/-- The whole file is the header and the rest. -/
theorem HeaderOf.parseClass (h : ld.HeaderOf parsedClasses c text name superClass s) :
    Dsom.parseClass ld.strtod (parseFuel text) (fileTokens text) =
      parseClassBody ld.strtod (parseFuel text) name superClass s := by
  rw [parseClass_eq, h.header]
  rfl

/-- When a file that parses has no superclass. -/
theorem HeaderOf.nullSuperClassAt (h : ld.HeaderOf parsedClasses c text name superClass s)
    {cl : AstClass} {s' : List Token}
    (hbody : parseClassBody ld.strtod (parseFuel text) name superClass s = .ok (cl, s')) :
    ld.NullSuperClassAt parsedClasses c ↔
      superClass = none ∧ c ∉ rootClasses ∧ cl.name = c ∧ ld.compileInstance cl = true := by
  have hsuper := (parseClassBody_header ld.strtod _ s name superClass cl s' hbody).1
  have hparse := h.parseClass.trans hbody
  constructor
  · rintro ⟨-, hroot, text', cl', s'', htext', hok, hnone, hname, hcompile⟩
    obtain rfl := Option.some.inj (h.file.symm.trans htext')
    obtain rfl := (Prod.mk.inj (Except.ok.inj (hparse.symm.trans hok))).1
    exact ⟨hsuper.symm.trans hnone, hroot, hname, hcompile⟩
  · rintro ⟨hnone, hroot, hname, hcompile⟩
    exact ⟨h.notLoaded, hroot, text, cl, s', h.file, hparse, hsuper.trans hnone, hname, hcompile⟩

theorem HeaderOf.not_nullSuperClassAt (h : ld.HeaderOf parsedClasses c text name superClass s)
    {e : ParseError} (herr : parseClassBody ld.strtod
    (parseFuel text) name superClass s = .error e) :
    ¬ ld.NullSuperClassAt parsedClasses c := by
  rintro ⟨-, -, text', cl, s', htext', hok, -⟩
  obtain rfl := Option.some.inj (h.file.symm.trans htext')
  rw [h.parseClass, herr] at hok
  cases hok

end Header

/-- **What a class can be**: loaded already, in error before its superclass is known, or with a
header. -/
theorem headerOf_cases (ld : Loader) (parsedClasses : List String) (c : String) :
    (ld.declaredSuper parsedClasses c = none ∧ ¬ ld.NullSuperClassAt parsedClasses c ∧
      ∀ fuel, Finishes (ld.somCompileFile (fuel + 1) c parsedClasses)) ∨
    ∃ text name superClass s, ld.HeaderOf parsedClasses c text name superClass s := by
  by_cases hmem : c ∈ parsedClasses
  · refine .inl ⟨if_pos hmem, fun h => h.1 hmem, fun fuel => ?_⟩
    rw [Loader.somCompileFile, if_pos hmem]
    trivial
  · cases hfile : ld.files.lookup c with
    | none =>
        refine .inl ⟨?_, ?_, fun fuel => ?_⟩
        · rw [Loader.declaredSuper, if_neg hmem, hfile]
        · rintro ⟨-, -, text, cl, s, htext, -⟩
          rw [hfile] at htext
          cases htext
        · rw [Loader.somCompileFile, if_neg hmem, hfile]
          trivial
    | some text =>
        rcases parseClassHeader_fileTokens text with ⟨name, superClass, s, hheader, hs, hsize⟩ |
          ⟨e, herr, he⟩
        · exact .inr ⟨text, name, superClass, s, hmem, hfile, hheader, hs, hsize⟩
        · refine .inl ⟨?_, ?_, fun fuel => ?_⟩
          · rw [Loader.declaredSuper, if_neg hmem]
            simp only [hfile, herr]
          · rintro ⟨-, -, text', cl, s, htext', hparse, -⟩
            obtain rfl := Option.some.inj (hfile.symm.trans htext')
            rw [parseClass_eq, herr] at hparse
            cases hparse
          · rw [Loader.somCompileFile, if_neg hmem]
            simp only [hfile, herr]
            exact finishes_parse he

/-- The end of loading a class with a superclass. -/
theorem finishes_finishClass {cl : AstClass} {className : String}
    (hsuper : cl.superClass = some c) :
    Finishes (ld.finishClass className cl parsedClasses) := by
  unfold Loader.finishClass
  rw [hsuper]
  refine iteInduction (motive := Finishes) (fun _ => trivial) fun _ => ?_
  refine iteInduction (motive := Finishes) (fun _ => trivial) fun _ => ?_
  refine iteInduction (motive := Finishes) (fun _ => trivial) fun _ => ?_
  refine iteInduction (motive := Finishes) (fun h => nomatch h) fun _ => ?_
  exact iteInduction (motive := Finishes) (fun _ => trivial) fun _ => trivial

/-- The end of loading a class without one. -/
theorem finishClass_none {cl : AstClass} (hsuper : cl.superClass = none) :
    (Finishes (ld.finishClass c cl parsedClasses) ∧
      ¬ (c ∉ rootClasses ∧ cl.name = c ∧ ld.compileInstance cl = true)) ∨
    (ld.finishClass c cl parsedClasses = .error .nullSuperClass ∧
      (c ∉ rootClasses ∧ cl.name = c ∧ ld.compileInstance cl = true)) := by
  unfold Loader.finishClass
  by_cases hname : c = cl.name
  · rw [if_neg (by simpa using hname)]
    cases hcompile : ld.compileInstance cl with
    | false => exact .inl ⟨trivial, fun h => (nomatch h.2.2)⟩
    | true =>
        rw [if_neg (by decide)]
        by_cases hroot : c ∈ rootClasses
        · rw [if_pos hroot]
          exact .inl ⟨trivial, fun h => h.1 hroot⟩
        · rw [if_neg hroot, if_pos hsuper]
          exact .inr ⟨rfl, hroot, hname.symm, rfl⟩
  · rw [if_pos hname]
    exact .inl ⟨trivial, fun h => hname h.2.1.symm⟩

/-- **A class whose superclass is to be loaded**: an error there is passed on. -/
theorem somCompileFile_some (h : ld.declaredSuper parsedClasses c = some d) (fuel : ℕ) :
    ¬ ld.NullSuperClassAt parsedClasses c ∧
    ((∃ e, ld.somCompileFile fuel d parsedClasses = .error e ∧
      ld.somCompileFile (fuel + 1) c parsedClasses = .error e) ∨
    ((∃ p, ld.somCompileFile fuel d parsedClasses = .ok p) ∧
      Finishes (ld.somCompileFile (fuel + 1) c parsedClasses))) := by
  rcases headerOf_cases ld parsedClasses c with ⟨hnone, -⟩ | ⟨text, name, superClass, s, hh⟩
  · rw [h] at hnone
    cases hnone
  · obtain rfl := hh.declaredSuper.symm.trans h
    rw [hh.somCompileFile]
    change _ ∧ ((∃ e, _ ∧ (ld.somCompileFile fuel d parsedClasses).bind _ = _) ∨
      (_ ∧ Finishes ((ld.somCompileFile fuel d parsedClasses).bind _)))
    rcases parseClassBody_tokens ld.strtod name (some d) hh.same hh.size with
      ⟨cl, s', hbody, hsuper, -⟩ | ⟨e, herr, he⟩
    · rw [hh.nullSuperClassAt hbody, hbody]
      refine ⟨fun hnull => (nomatch hnull.1), ?_⟩
      cases ld.somCompileFile fuel d parsedClasses with
      | error e => exact .inl ⟨e, rfl, rfl⟩
      | ok p => exact .inr ⟨⟨p, rfl⟩, finishes_finishClass hsuper⟩
    · rw [herr]
      refine ⟨hh.not_nullSuperClassAt herr, ?_⟩
      cases ld.somCompileFile fuel d parsedClasses with
      | error e => exact .inl ⟨e, rfl, rfl⟩
      | ok p => exact .inr ⟨⟨p, rfl⟩, finishes_parse he⟩

/-- **A class without a superclass to load.** -/
theorem somCompileFile_none (h : ld.declaredSuper parsedClasses c = none) (fuel : ℕ) :
    (Finishes (ld.somCompileFile (fuel + 1) c parsedClasses) ∧
    ¬ ld.NullSuperClassAt parsedClasses c) ∨
    (ld.somCompileFile (fuel + 1) c parsedClasses = .error .nullSuperClass ∧
      ld.NullSuperClassAt parsedClasses c) := by
  rcases headerOf_cases ld parsedClasses c with ⟨-, hnull, hall⟩ | ⟨text, name, superClass, s, hh⟩
  · exact .inl ⟨hall fuel, hnull⟩
  · obtain rfl := hh.declaredSuper.symm.trans h
    rw [hh.somCompileFile]
    change (Finishes ((parseStep _).bind _) ∧ _) ∨ ((parseStep _).bind _ = _ ∧ _)
    rcases parseClassBody_tokens ld.strtod name none hh.same hh.size with
      ⟨cl, s', hbody, hsuper, -⟩ | ⟨e, herr, he⟩
    · rw [hh.nullSuperClassAt hbody, hbody, eq_self_iff_true, true_and]
      exact finishClass_none hsuper
    · rw [herr]
      exact .inl ⟨finishes_parse he, hh.not_nullSuperClassAt herr⟩

/-- No superclass is met on the way up where one is needed. -/
def NullSuperClassAhead (ld : Loader) (parsedClasses : List String) (className : String) : Prop :=
  ∃ n, ∃ c ∈ orbit (ld.declaredSuper parsedClasses) n className, ld.NullSuperClassAt parsedClasses c

/-- At the end of the chain. -/
theorem nullSuperClassAhead_none (h : ld.declaredSuper parsedClasses c = none) :
    ld.NullSuperClassAhead parsedClasses c ↔ ld.NullSuperClassAt parsedClasses c := by
  constructor
  · rintro ⟨n, x, hx, hnull⟩
    cases n with
    | zero => cases hx
    | succ n =>
        rw [orbit_none h, List.mem_singleton] at hx
        rwa [← hx]
  · intro hnull
    exact ⟨1, c, by rw [orbit_none h]; simp, hnull⟩

/-- One class further up. -/
theorem nullSuperClassAhead_some (h : ld.declaredSuper parsedClasses c = some d) :
    ld.NullSuperClassAhead parsedClasses c ↔
      ld.NullSuperClassAt parsedClasses c ∨ ld.NullSuperClassAhead parsedClasses d := by
  constructor
  · rintro ⟨n, x, hx, hnull⟩
    cases n with
    | zero => cases hx
    | succ n =>
        rw [orbit_some h] at hx
        rcases List.mem_cons.1 hx with rfl | hx
        · exact .inl hnull
        · exact .inr ⟨n, x, hx, hnull⟩
  · rintro (hnull | ⟨n, x, hx, hnull⟩)
    · exact ⟨1, c, by rw [orbit_some h]; simp, hnull⟩
    · exact ⟨n + 1, x, by rw [orbit_some h]; exact List.mem_cons_of_mem _ hx, hnull⟩

/-- **Where the superclasses end**, loading ends. -/
theorem somCompileFile_of_endsWithin {k : ℕ} (h : EndsWithin (ld.declaredSuper parsedClasses) k c)
    {fuel : ℕ} (hfuel : k ≤ fuel) :
    (Finishes (ld.somCompileFile fuel c parsedClasses) ∧ ¬ ld.NullSuperClassAhead parsedClasses c) ∨
    (ld.somCompileFile fuel c parsedClasses = .error .nullSuperClass ∧
      ld.NullSuperClassAhead parsedClasses c) := by
  induction k generalizing c fuel with
  | zero => exact absurd h not_endsWithin_zero
  | succ k ih =>
      obtain ⟨fuel, rfl⟩ : ∃ j, fuel = j + 1 := ⟨fuel - 1, by omega⟩
      cases hs : ld.declaredSuper parsedClasses c with
      | none =>
          rw [nullSuperClassAhead_none hs]
          exact somCompileFile_none hs fuel
      | some d =>
          obtain ⟨hnull, hstep⟩ := somCompileFile_some hs fuel
          rw [nullSuperClassAhead_some hs, or_iff_right hnull]
          rcases ih ((endsWithin_some hs).1 h) (Nat.le_of_succ_le_succ hfuel) with
            ⟨hd, hno⟩ | ⟨hd, hyes⟩
          · rcases hstep with ⟨e, he, hc⟩ | ⟨-, hc⟩
            · rw [hc, ← he]
              exact .inl ⟨hd, hno⟩
            · exact .inl ⟨hc, hno⟩
          · rcases hstep with ⟨e, he, hc⟩ | ⟨⟨p, hp⟩, -⟩
            · rw [hc, ← he]
              exact .inr ⟨hd, hyes⟩
            · rw [hd] at hp
              cases hp

/-- **Where they do not end**, neither does loading. -/
theorem somCompileFile_of_not_endsWithin
    (h : ∀ k, ¬ EndsWithin (ld.declaredSuper parsedClasses) k c)
    (fuel : ℕ) : ld.somCompileFile fuel c parsedClasses = .error .outOfFuel := by
  induction fuel generalizing c with
  | zero => rfl
  | succ fuel ih =>
      cases hs : ld.declaredSuper parsedClasses c with
      | none => exact absurd (endsWithin_none hs) (h 1)
      | some d =>
          have hd := ih fun k hk => h (k + 1) ((endsWithin_some hs).2 hk)
          rcases (somCompileFile_some hs fuel).2 with ⟨e, he, hc⟩ | ⟨⟨p, hp⟩, -⟩
          · rw [hc, ← he, hd]
          · rw [hd] at hp
            cases hp

/-- **When loading completes**: exactly when no class is met twice on the way up the declared
superclasses, and the way does not end in a class that lacks a superclass. -/
theorem somCompileFile_iff (ld : Loader) (parsedClasses : List String) (className : String) :
    (∃ N, ∀ fuel, N ≤ fuel → Finishes (ld.somCompileFile fuel className parsedClasses)) ↔
      (∀ n, (orbit (ld.declaredSuper parsedClasses) n className).Nodup) ∧
      ¬ ld.NullSuperClassAhead parsedClasses className := by
  constructor
  · rintro ⟨N, hN⟩
    by_cases hends : ∃ k, EndsWithin (ld.declaredSuper parsedClasses) k className
    · obtain ⟨k, hk⟩ := hends
      refine ⟨fun n => hk.nodup, ?_⟩
      rcases somCompileFile_of_endsWithin hk (Nat.le_max_right N k) with ⟨-, hno⟩ | ⟨hnull, -⟩
      · exact hno
      · have := hN (max N k) (Nat.le_max_left _ _)
        rw [hnull] at this
        exact this.elim
    · have := hN N (Nat.le_refl _)
      rw [somCompileFile_of_not_endsWithin (fun k hk => hends ⟨k, hk⟩)] at this
      exact this.elim
  · rintro ⟨hnodup, hnull⟩
    have hkeys : ∀ c d, ld.declaredSuper parsedClasses c = some d → c ∈ ld.files.map Prod.fst := by
      intro c d h
      rcases headerOf_cases ld parsedClasses c with ⟨hnone, -⟩ | ⟨text, name, superClass, s, hh⟩
      · rw [h] at hnone
        cases hnone
      · obtain ⟨l₁, l₂, hfiles, -⟩ := List.lookup_eq_some_iff.1 hh.file
        rw [hfiles]
        simp
    have hends := endsWithin_of_nodup hkeys hnodup
    refine ⟨(ld.files.map Prod.fst).length + 1, fun fuel hfuel => ?_⟩
    rcases somCompileFile_of_endsWithin hends hfuel with ⟨hok, -⟩ | ⟨-, hyes⟩
    · exact hok
    · exact absurd hyes hnull

/-- Two classes, each declared as the superclass of the other. -/
def cyclicFiles : Loader where
  files := [("A", "A = B ( )".toList), ("B", "B = A ( )".toList)]
  strtod _ := none
  compileInstance _ := true
  compileClass _ := true

/-- **Loading does not end** on a cycle of superclasses. -/
theorem not_finishes_cyclicFiles :
    ¬ ∃ N, ∀ fuel, N ≤ fuel → Finishes (cyclicFiles.somCompileFile fuel "A" ["Object"]) := by
  rintro ⟨N, hN⟩
  have hcycle : ∀ k, ¬ EndsWithin (cyclicFiles.declaredSuper ["Object"]) k "A" := fun k =>
    not_endsWithin_of_mem (b := "B") (n := 2) (by decide +kernel) (by decide +kernel)
  have := hN N (Nat.le_refl _)
  rw [somCompileFile_of_not_endsWithin hcycle] at this
  exact this

end Loader

end Dsom
