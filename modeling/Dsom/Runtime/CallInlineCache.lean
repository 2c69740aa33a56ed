import Dsom.Foundations.BitMask
import Dsom.Foundations.Ensures

/-!
# Runtime/CallInlineCache — the inline caches of one call site

`JitCallInlineCacheSite` of `runtime/runtime_utils.{h,cpp}` and the miss handler that calls it.  In
direct-call mode an entry caches a function object; when a second function with the same
`ExecutableCode` is seen all entries are dropped and the site caches `ExecutableCode`s from then on.
A bloom filter saves most of the searches for the same `ExecutableCode`.

`SiteInv s inserted` says what the site knows about the functions inserted so far.  It gives the
bookkeeping of the site (`Bookkeeping`), which so holds after every sequence of calls
(`bookkeeping_run`).
-/

namespace Dsom

namespace CallInlineCache

open BitMask

variable {Fn Ec : Type}

/-- `m_entity` of an entry: the function of a direct call, or the `ExecutableCode` of a closure
call. -/
inductive Entity (Fn Ec : Type) where
  | function (fn : Fn)
  | executableCode (ec : Ec)
  deriving DecidableEq

/-- `JitCallInlineCacheEntry`. -/
structure Entry (Fn Ec : Type) where
  entity : Entity Fn Ec
  icTraitKind : ℕ

/-- `JitCallInlineCacheSite::Mode`. -/
inductive Mode where
  | directCall
  | closureCall
  | closureCallWithMoreThanOneTargetObserved
  deriving DecidableEq

/-- `JitCallInlineCacheSite`; the entries are linked from `m_linkedListHead` on. -/
structure Site (Fn Ec : Type) where
  linkedList : List (Entry Fn Ec)
  numEntries : ℕ
  mode : Mode
  bloomFilter : BitVec 16

/-- A call site that has not run. -/
def Site.init : Site Fn Ec := ⟨[], 0, .directCall, 0⟩

/-- `x_maxEntries`. -/
def maxEntries : ℕ := 3

/-- What the site reads of a function object and of the pointer to its code. -/
structure Functions (Fn Ec : Type) where
  executable : Fn → Ec
  hash : Ec → BitVec 64

variable (F : Functions Fn Ec)

/-- `GetTargetExecutableCode`. -/
def Entry.targetExecutableCode (e : Entry Fn Ec) : Ec :=
  match e.entity with
  | .function fn => F.executable fn
  | .executableCode ec => ec

/-- The two bits of an `ExecutableCode`. -/
def bloomFilterMask (ec : Ec) : BitVec 16 :=
  (1#16 <<< ((F.hash ec) &&& 15).toNat) ||| (1#16 <<< ((F.hash ec >>> 8) &&& 15).toNat)

section Insert

variable [DecidableEq Ec]

/-- The search for the same `ExecutableCode`, if the filter does not rule it out. -/
def shouldTransitToCCMode (ec : Ec) (s : Site Fn Ec) : Bool :=
  if s.bloomFilter &&& bloomFilterMask F ec = bloomFilterMask F ec then
    s.linkedList.any fun e => e.targetExecutableCode F = ec
  else false

/-- `InsertInDirectCallMode`, with the out-parameter `transitedToCCMode`; `none` is a failed
assertion. -/
def insertInDirectCallMode (dcIcTraitKind : ℕ) (fn : Fn) (s : Site Fn Ec) :
    Option (Site Fn Ec × Bool) :=
  let targetEc := F.executable fn
  testAssert (s.numEntries < maxEntries ∧ s.mode = .directCall) <|
  testAssert (s.bloomFilter &&& bloomFilterMask F targetEc = bloomFilterMask F targetEc →
    s.linkedList ≠ []) <|
  testAssert (∀ e ∈ s.linkedList, e.icTraitKind = dcIcTraitKind) <|
  if shouldTransitToCCMode F targetEc s then
    some ({
      linkedList := [⟨.executableCode targetEc, dcIcTraitKind + 1⟩]
      mode := if 1 < s.numEntries then .closureCallWithMoreThanOneTargetObserved else .closureCall
      numEntries := 1
      bloomFilter := 0 }, true)
  else
    some ({ s with
      linkedList := ⟨.function fn, dcIcTraitKind⟩ :: s.linkedList
      numEntries := s.numEntries + 1
      bloomFilter := s.bloomFilter ||| bloomFilterMask F targetEc }, false)

/-- `InsertInClosureCallMode`. -/
def insertInClosureCallMode (dcIcTraitKind : ℕ) (fn : Fn) (s : Site Fn Ec) : Option (Site Fn Ec) :=
  let targetEc := F.executable fn
  testAssert (s.numEntries < maxEntries ∧ s.mode ≠ .directCall) <|
  testAssert (∀ e ∈ s.linkedList, e.icTraitKind = dcIcTraitKind + 1 ∧
    e.targetExecutableCode F ≠ targetEc) <|
  some { s with
    linkedList := ⟨.executableCode targetEc, dcIcTraitKind + 1⟩ :: s.linkedList
    numEntries := s.numEntries + 1 }

/-- `ObservedExactlyOneTarget`. -/
def Site.observedExactlyOneTarget (s : Site Fn Ec) : Bool :=
  s.numEntries = 1 ∧ s.mode ≠ .closureCallWithMoreThanOneTargetObserved

/-! ## Calls

A call hits if the site has an entry for its target. -/

/-- What a call to the function is cached by in a mode. -/
def target (mode : Mode) (fn : Fn) : Entity Fn Ec :=
  if mode = .directCall then .function fn else .executableCode (F.executable fn)

variable [DecidableEq Fn]

/-- The call hits a cache. -/
def Hits (fn : Fn) (s : Site Fn Ec) : Prop := ∃ e ∈ s.linkedList, e.entity = target F s.mode fn

instance (fn : Fn) (s : Site Fn Ec) : Decidable (Hits F fn s) :=
  inferInstanceAs (Decidable (∃ e ∈ s.linkedList, _))

/-- One call: a hit changes nothing, a miss creates an entry unless the site is full.  The second
part is the functions inserted so far, newest first. -/
def call (dcIcTraitKind : ℕ) (st : Site Fn Ec × List Fn) (fn : Fn) : Option
    (Site Fn Ec × List Fn) :=
  let (s, inserted) := st
  if Hits F fn s ∨ maxEntries ≤ s.numEntries then some (s, inserted)
  else if s.mode = .directCall then
    (insertInDirectCallMode F dcIcTraitKind fn s).map fun r => (r.1, fn :: inserted)
  else (insertInClosureCallMode F dcIcTraitKind fn s).map fun s => (s, fn :: inserted)

/-- A sequence of calls from an empty site. -/
def run (dcIcTraitKind : ℕ) (fns : List Fn) : Option (Site Fn Ec × List Fn) :=
  fns.foldlM (call F dcIcTraitKind) (.init, [])

end Insert

/-! ## The bookkeeping -/

/-- **What a site records**, of the functions inserted so far. -/
structure Bookkeeping [DecidableEq Ec] (s : Site Fn Ec) (inserted : List Fn) :
    Prop where
  /-- the cached targets are of the kind of the mode, and distinct -/
  kind : ∀ e ∈ s.linkedList, ∃ fn ∈ inserted, e.entity = target F s.mode fn
  distinct : (s.linkedList.map Entry.entity).Nodup
  numEntries : s.numEntries = s.linkedList.length
  le_max : s.numEntries ≤ maxEntries
  /-- the filter never rules out a cached `ExecutableCode` -/
  filter : s.mode = .directCall → ∀ e ∈ s.linkedList,
    s.bloomFilter &&& bloomFilterMask F (e.targetExecutableCode F) =
      bloomFilterMask F (e.targetExecutableCode F)
  transits : s.mode = .directCall → ∀ ec, shouldTransitToCCMode F ec s = true ↔
    ∃ e ∈ s.linkedList, e.targetExecutableCode F = ec
  one_target : s.observedExactlyOneTarget = true ↔ ∃! t, ∃ fn ∈ inserted, target F s.mode fn = t
  one_code : s.observedExactlyOneTarget = true ↔ ∃! ec, ∃ fn ∈ inserted, F.executable fn = ec

/-! ## The invariant -/

/-- The entries of direct calls. -/
def directEntries (dcIcTraitKind : ℕ) (fns : List Fn) : List (Entry Fn Ec) :=
  fns.map fun fn => ⟨.function fn, dcIcTraitKind⟩

/-- The entries of closure calls. -/
def closureEntries (dcIcTraitKind : ℕ) (ecs : List Ec) : List (Entry Fn Ec) :=
  ecs.map fun ec => ⟨.executableCode ec, dcIcTraitKind + 1⟩

/-- **The invariant.**  In direct-call mode there is one entry for each function inserted, and no
two have the same code.  After a transition the entries are codes of inserted functions: all of
them, or there have been two. -/
inductive SiteInv (dcIcTraitKind : ℕ) : Site Fn Ec → List Fn → Prop
  | directCall {inserted : List Fn} {bloomFilter : BitVec 16}
      (distinct : (inserted.map F.executable).Nodup) (le_max : inserted.length ≤ maxEntries)
      (bits : ∀ fn ∈ inserted, Covers bloomFilter (bloomFilterMask F (F.executable fn)))
      (zero : inserted = [] → bloomFilter = 0) :
      SiteInv dcIcTraitKind
        ⟨directEntries dcIcTraitKind inserted, inserted.length, .directCall, bloomFilter⟩ inserted
  | closureCall {ecs : List Ec} {inserted : List Fn} (distinct : ecs.Nodup)
      (le_max : ecs.length ≤ maxEntries)
      (mem : ∀ ec, ec ∈ ecs ↔ ∃ fn ∈ inserted, F.executable fn = ec) :
      SiteInv dcIcTraitKind ⟨closureEntries dcIcTraitKind ecs, ecs.length, .closureCall, 0⟩ inserted
  | moreThanOne {ecs : List Ec} {inserted : List Fn} (distinct : ecs.Nodup)
      (le_max : ecs.length ≤ maxEntries) (mem : ∀ ec ∈ ecs, ∃ fn ∈ inserted, F.executable fn = ec)
      (two : ∃ fn ∈ inserted, ∃ fn' ∈ inserted, F.executable fn ≠ F.executable fn') :
      SiteInv dcIcTraitKind
        ⟨closureEntries dcIcTraitKind ecs, ecs.length, .closureCallWithMoreThanOneTargetObserved, 0⟩
        inserted

variable {F} {kind : ℕ} {s : Site Fn Ec} {inserted : List Fn}

/-- A new site has seen nothing. -/
theorem siteInv_init : SiteInv F kind .init [] := by
  have h : SiteInv F kind ⟨directEntries kind [], 0, .directCall, 0⟩ [] :=
    .directCall (by simp) (Nat.zero_le _) (by simp) fun _ => rfl
  exact h

theorem bloomFilterMask_ne_zero (ec : Ec) : bloomFilterMask F ec ≠ 0 := by
  have hbit : ∀ n < 16, (1#16 <<< n) ≠ 0#16 := by decide
  have hlt : ((F.hash ec) &&& 15).toNat < 16 := by
    rw [BitVec.toNat_and]
    exact Nat.lt_of_le_of_lt Nat.and_le_right (by decide)
  intro h
  exact hbit _ hlt (BitVec.or_eq_zero_iff.mp h).1

/-- A list without repetition has just one element. -/
theorem length_eq_one_iff {α : Type} {l : List α} (h : l.Nodup) : l.length = 1 ↔ ∃! a, a ∈ l := by
  rw [List.length_eq_one_iff]
  constructor
  · rintro ⟨a, rfl⟩
    exact ⟨a, List.mem_singleton_self a, fun b hb => List.mem_singleton.mp hb⟩
  · rintro ⟨a, ha, huniq⟩
    cases l with
    | nil => exact absurd ha List.not_mem_nil
    | cons b l =>
      obtain rfl := huniq b List.mem_cons_self
      cases l with
      | nil => exact ⟨b, rfl⟩
      | cons c l =>
        obtain rfl := huniq c (by simp)
        exact absurd List.mem_cons_self (List.nodup_cons.mp h).1

/-- Counting functions by the code they have, where no two have the same. -/
theorem existsUnique_executable (h : (inserted.map F.executable).Nodup) :
    inserted.length = 1 ↔ ∃! ec, ∃ fn ∈ inserted, F.executable fn = ec := by
  rw [← List.length_map (f := F.executable), length_eq_one_iff h]
  simp only [List.mem_map]

/-- In closure mode a target is an executable. -/
theorem existsUnique_target_closure {mode : Mode} (hmode : mode ≠ .directCall) :
    (∃! t : Entity Fn Ec, ∃ fn ∈ inserted, target F mode fn = t) ↔
      ∃! ec, ∃ fn ∈ inserted, F.executable fn = ec := by
  simp only [target, if_neg hmode]
  constructor
  · rintro ⟨t, ⟨fn, hfn, rfl⟩, huniq⟩
    refine ⟨F.executable fn, ⟨fn, hfn, rfl⟩, ?_⟩
    rintro ec ⟨fn', hfn', rfl⟩
    exact Entity.executableCode.inj (huniq _ ⟨fn', hfn', rfl⟩)
  · rintro ⟨ec, ⟨fn, hfn, rfl⟩, huniq⟩
    refine ⟨.executableCode (F.executable fn), ⟨fn, hfn, rfl⟩, ?_⟩
    rintro t ⟨fn', hfn', rfl⟩
    rw [huniq _ ⟨fn', hfn', rfl⟩]

/-- In direct mode it is a function. -/
theorem existsUnique_target_direct (h : inserted.Nodup) :
    inserted.length = 1 ↔ ∃! t : Entity Fn Ec, ∃ fn ∈ inserted, target F .directCall fn = t := by
  rw [length_eq_one_iff h]
  simp only [target, if_pos]
  constructor
  · rintro ⟨fn, hfn, huniq⟩
    refine ⟨.function fn, ⟨fn, hfn, rfl⟩, ?_⟩
    rintro t ⟨fn', hfn', rfl⟩
    rw [huniq fn' hfn']
  · rintro ⟨t, ⟨fn, hfn, rfl⟩, huniq⟩
    exact ⟨fn, hfn, fun fn' hfn' => Entity.function.inj (huniq _ ⟨fn', hfn', rfl⟩)⟩

theorem entity_closureEntries (ecs : List Ec) :
    (closureEntries kind ecs : List (Entry Fn Ec)).map Entry.entity =
      ecs.map Entity.executableCode := by
  simp [closureEntries]

theorem entity_directEntries (fns : List Fn) :
    (directEntries kind fns : List (Entry Fn Ec)).map Entry.entity = fns.map Entity.function := by
  simp [directEntries]

/-- Two functions of a list without repetition of codes. -/
theorem exists_ne_executable (h : (inserted.map F.executable).Nodup) (hlen : 1 < inserted.length) :
    ∃ fn ∈ inserted, ∃ fn' ∈ inserted, F.executable fn ≠ F.executable fn' := by
  match inserted, hlen with
  | fn :: fn' :: rest, _ =>
    refine ⟨fn, by simp, fn', by simp, fun heq => ?_⟩
    rw [List.map_cons, List.map_cons, heq] at h
    exact (List.nodup_cons.mp h).1 List.mem_cons_self

/-- The transition, when a function of the same code was inserted before. -/
theorem siteInv_transit {fn fn' : Fn} (distinct : (inserted.map F.executable).Nodup)
    (hfn' : fn' ∈ inserted) (heq : F.executable fn' = F.executable fn) :
    SiteInv F kind
      { linkedList := closureEntries kind [F.executable fn]
        mode := if 1 < inserted.length then .closureCallWithMoreThanOneTargetObserved
          else .closureCall
        numEntries := 1
        bloomFilter := 0 } (fn :: inserted) := by
  by_cases htwo : 1 < inserted.length
  · rw [if_pos htwo]
    refine .moreThanOne (List.nodup_singleton (F.executable fn)) (by simp [maxEntries])
      (fun ec hec => ?_) ?_
    · exact ⟨fn, List.mem_cons_self, (List.mem_singleton.mp hec).symm⟩
    · obtain ⟨a, ha, b, hb, hne⟩ := exists_ne_executable distinct htwo
      exact ⟨a, List.mem_cons_of_mem _ ha, b, List.mem_cons_of_mem _ hb, hne⟩
  · rw [if_neg htwo]
    obtain ⟨a, rfl⟩ : ∃ a, inserted = [a] := by
      have hpos := List.length_pos_of_mem hfn'
      exact List.length_eq_one_iff.mp (by omega)
    obtain rfl := List.mem_singleton.mp hfn'
    refine .closureCall (List.nodup_singleton (F.executable fn)) (by simp [maxEntries]) fun ec => ?_
    simp [heq, eq_comm]

section Bookkeeping

variable [DecidableEq Ec]

/-- In direct-call mode the search is exact. -/
theorem shouldTransitToCCMode_iff {filter : BitVec 16} {n : ℕ}
    (bits : ∀ fn ∈ inserted, Covers filter (bloomFilterMask F (F.executable fn))) (ec : Ec) :
    shouldTransitToCCMode F ec ⟨directEntries kind inserted, n, .directCall, filter⟩ = true ↔
      ∃ fn ∈ inserted, F.executable fn = ec := by
  have hany : (directEntries kind inserted).any (fun e => e.targetExecutableCode F = ec) = true ↔
      ∃ fn ∈ inserted, F.executable fn = ec := by
    simp only [directEntries, List.any_map, List.any_eq_true, Function.comp_apply,
      Entry.targetExecutableCode]
    exact exists_congr fun fn => and_congr_right fun _ => decide_eq_true_iff
  unfold shouldTransitToCCMode
  split_ifs with hfilter
  · exact hany
  · refine iff_of_false (by simp) ?_
    rintro ⟨fn, hfn, rfl⟩
    rw [BitVec.and_comm] at hfilter
    exact hfilter (bits fn hfn)

/-- **The invariant gives the bookkeeping.** -/
theorem SiteInv.bookkeeping (h : SiteInv F kind s inserted) : Bookkeeping F s inserted := by
  cases h with
  | @directCall _ filter distinct le_max bits zero =>
    have hnodup : inserted.Nodup := distinct.of_map _
    refine ⟨fun e he => ?_, ?_, by simp [directEntries], le_max, fun _ e he => ?_, fun _ ec => ?_,
      ?_, ?_⟩
    · obtain ⟨fn, hfn, rfl⟩ := List.mem_map.mp he
      exact ⟨fn, hfn, rfl⟩
    · rw [entity_directEntries]
      exact hnodup.map fun _ _ => Entity.function.inj
    · obtain ⟨fn, hfn, rfl⟩ := List.mem_map.mp he
      rw [BitVec.and_comm]
      exact bits fn hfn
    · rw [shouldTransitToCCMode_iff bits]
      simp [directEntries, Entry.targetExecutableCode]
    · rw [← existsUnique_target_direct hnodup]
      simp [Site.observedExactlyOneTarget]
    · rw [← existsUnique_executable distinct]
      simp [Site.observedExactlyOneTarget]
  | @closureCall ecs _ distinct le_max mem =>
    have hone : (⟨closureEntries kind ecs, ecs.length, .closureCall, 0⟩ :
        Site Fn Ec).observedExactlyOneTarget = true ↔
          ∃! ec, ∃ fn ∈ inserted, F.executable fn = ec := by
      simp only [← mem]
      rw [← length_eq_one_iff distinct]
      simp [Site.observedExactlyOneTarget]
    refine ⟨fun e he => ?_, ?_, by simp [closureEntries], le_max, by simp, by simp, ?_, hone⟩
    · obtain ⟨ec, hec, rfl⟩ := List.mem_map.mp he
      obtain ⟨fn, hfn, rfl⟩ := (mem ec).mp hec
      exact ⟨fn, hfn, rfl⟩
    · rw [entity_closureEntries]
      exact distinct.map fun _ _ => Entity.executableCode.inj
    · rw [existsUnique_target_closure (by simp)]
      exact hone
  | @moreThanOne ecs _ distinct le_max mem two =>
    have hone : (⟨closureEntries kind ecs, ecs.length,
      .closureCallWithMoreThanOneTargetObserved, 0⟩ :
        Site Fn Ec).observedExactlyOneTarget = true ↔
          ∃! ec, ∃ fn ∈ inserted, F.executable fn = ec := by
      refine iff_of_false (by simp [Site.observedExactlyOneTarget]) ?_
      rintro ⟨ec, -, huniq⟩
      obtain ⟨fn, hfn, fn', hfn', hne⟩ := two
      exact hne ((huniq _ ⟨fn, hfn, rfl⟩).trans (huniq _ ⟨fn', hfn', rfl⟩).symm)
    refine ⟨fun e he => ?_, ?_, by simp [closureEntries], le_max, by simp, by simp, ?_, hone⟩
    · obtain ⟨ec, hec, rfl⟩ := List.mem_map.mp he
      obtain ⟨fn, hfn, rfl⟩ := mem ec hec
      exact ⟨fn, hfn, rfl⟩
    · rw [entity_closureEntries]
      exact distinct.map fun _ _ => Entity.executableCode.inj
    · rw [existsUnique_target_closure (by simp)]
      exact hone

/-! ## Misses

A miss inserts an entry, or turns to closure mode first. -/

/-- **A miss in direct-call mode**: a new entry, or the transition. -/
theorem SiteInv.insertInDirectCallMode (h : SiteInv F kind s inserted) (fn : Fn)
    (hroom : s.numEntries < maxEntries) (hmode : s.mode = .directCall) :
    ∃ s' b, insertInDirectCallMode F kind fn s = some (s', b) ∧
      SiteInv F kind s' (fn :: inserted) := by
  cases h with
  | @directCall _ filter distinct le_max bits zero =>
    have hne : filter &&& bloomFilterMask F (F.executable fn) =
      bloomFilterMask F (F.executable fn) →
        (directEntries kind inserted : List (Entry Fn Ec)) ≠ [] := by
      intro hfilter hnil
      rw [zero (List.map_eq_nil_iff.mp hnil)] at hfilter
      exact bloomFilterMask_ne_zero _ (hfilter.symm.trans BitVec.zero_and)
    have hkind : ∀ e ∈ (directEntries kind inserted : List (Entry Fn Ec)),
      e.icTraitKind = kind := by
      intro e he
      obtain ⟨fn', -, rfl⟩ := List.mem_map.mp he
      rfl
    have htransit : shouldTransitToCCMode F (F.executable fn)
        ⟨directEntries kind inserted, inserted.length, .directCall, filter⟩ = true ↔ _ :=
      shouldTransitToCCMode_iff bits _
    unfold CallInlineCache.insertInDirectCallMode
    dsimp only at hroom ⊢
    rw [testAssert, if_pos ⟨hroom, rfl⟩, testAssert, if_pos hne, testAssert, if_pos hkind]
    by_cases hshould : ∃ fn' ∈ inserted, F.executable fn' = F.executable fn
    · obtain ⟨fn', hfn', heq⟩ := hshould
      rw [if_pos (htransit.mpr ⟨fn', hfn', heq⟩)]
      exact ⟨_, _, rfl, siteInv_transit distinct hfn' heq⟩
    · rw [if_neg (fun h => hshould (htransit.mp h))]
      have hnew : SiteInv F kind ⟨directEntries kind (fn :: inserted), (fn :: inserted).length,
          .directCall, filter ||| bloomFilterMask F (F.executable fn)⟩ (fn :: inserted) := by
        refine .directCall ?_ hroom ?_ (by simp)
        · rw [List.map_cons]
          refine List.nodup_cons.mpr ⟨fun hmem => hshould ?_, distinct⟩
          exact List.mem_map.mp hmem
        · intro fn' hfn'
          refine covers_iff.mpr fun i hi hbit => ?_
          rw [BitVec.getLsbD_or]
          rcases List.mem_cons.mp hfn' with rfl | hfn'
          · rw [hbit, Bool.or_true]
          · rw [covers_iff.mp (bits fn' hfn') i hi hbit, Bool.true_or]
      exact ⟨_, _, rfl, hnew⟩
  | closureCall => cases hmode
  | moreThanOne => cases hmode

/-- The codes of the entries, and a new one. -/
theorem closure_step {ecs : List Ec} {fn : Fn} {n : ℕ} {mode : Mode}
    (hroom : n < maxEntries) (hmode : mode ≠ .directCall) (hmiss : F.executable fn ∉ ecs) :
    insertInClosureCallMode F kind fn ⟨closureEntries kind ecs, n, mode, 0⟩ =
      some ⟨closureEntries kind (F.executable fn :: ecs), n + 1, mode, 0⟩ := by
  unfold insertInClosureCallMode
  dsimp only
  rw [testAssert, if_pos ⟨hroom, hmode⟩, testAssert, if_pos]
  · rfl
  · intro e he
    obtain ⟨ec, hec, rfl⟩ := List.mem_map.mp he
    refine ⟨rfl, ?_⟩
    rintro rfl
    exact hmiss hec

/-- **A miss in closure-call mode.** -/
theorem SiteInv.insertInClosureCallMode (h : SiteInv F kind s inserted) (fn : Fn)
    (hroom : s.numEntries < maxEntries) (hmode : s.mode ≠ .directCall)
    (hmiss : ∀ e ∈ s.linkedList, e.entity ≠ target F s.mode fn) :
    ∃ s', insertInClosureCallMode F kind fn s = some s' ∧ SiteInv F kind s' (fn :: inserted) := by
  cases h with
  | directCall => exact absurd rfl hmode
  | @closureCall ecs _ distinct le_max mem =>
    have hnew : F.executable fn ∉ ecs := fun hec =>
      hmiss ⟨.executableCode (F.executable fn), kind + 1⟩ (List.mem_map_of_mem hec) rfl
    refine ⟨_, closure_step hroom hmode hnew,
      .closureCall (List.nodup_cons.mpr ⟨hnew, distinct⟩) hroom fun ec => ?_⟩
    simp only [List.mem_cons, mem]
    constructor
    · rintro (rfl | ⟨fn', hfn', rfl⟩)
      · exact ⟨fn, Or.inl rfl, rfl⟩
      · exact ⟨fn', Or.inr hfn', rfl⟩
    · rintro ⟨fn', rfl | hfn', rfl⟩
      · exact Or.inl rfl
      · exact Or.inr ⟨fn', hfn', rfl⟩
  | @moreThanOne ecs _ distinct le_max mem two =>
    have hnew : F.executable fn ∉ ecs := fun hec =>
      hmiss ⟨.executableCode (F.executable fn), kind + 1⟩ (List.mem_map_of_mem hec) rfl
    refine ⟨_, closure_step hroom hmode hnew,
      .moreThanOne (List.nodup_cons.mpr ⟨hnew, distinct⟩) hroom (fun ec hec => ?_) ?_⟩
    · rcases List.mem_cons.mp hec with rfl | hec
      · exact ⟨fn, List.mem_cons_self, rfl⟩
      · obtain ⟨fn', hfn', heq⟩ := mem ec hec
        exact ⟨fn', List.mem_cons_of_mem _ hfn', heq⟩
    · obtain ⟨a, ha, b, hb, hne⟩ := two
      exact ⟨a, List.mem_cons_of_mem _ ha, b, List.mem_cons_of_mem _ hb, hne⟩

/-! ## Runs -/

variable [DecidableEq Fn]

/-- **One call keeps the invariant.** -/
theorem SiteInv.call (h : SiteInv F kind s inserted) (fn : Fn) :
    ∃ st, call F kind (s, inserted) fn = some st ∧ SiteInv F kind st.1 st.2 := by
  unfold CallInlineCache.call
  dsimp only
  split_ifs with hskip hmode
  · exact ⟨_, rfl, h⟩
  · obtain ⟨s', b, hins, hinv⟩ :=
      h.insertInDirectCallMode fn (Nat.lt_of_not_le fun hle => hskip (Or.inr hle)) hmode
    rw [hins]
    exact ⟨_, rfl, hinv⟩
  · obtain ⟨s', hins, hinv⟩ := h.insertInClosureCallMode fn
      (Nat.lt_of_not_le fun hle => hskip (Or.inr hle)) hmode
      fun e he heq => hskip (Or.inl ⟨e, he, heq⟩)
    rw [hins]
    exact ⟨_, rfl, hinv⟩

/-- By induction on the calls. -/
theorem SiteInv.calls : ∀ {s : Site Fn Ec} {inserted : List Fn}, SiteInv F kind s inserted →
    ∀ fns : List Fn, ∃ st, fns.foldlM (CallInlineCache.call F kind) (s, inserted) = some st ∧
      SiteInv F kind st.1 st.2
  | s, inserted, h, [] => ⟨(s, inserted), rfl, h⟩
  | s, inserted, h, fn :: fns => by
    obtain ⟨⟨s₁, inserted₁⟩, hcall, hinv⟩ := h.call fn
    obtain ⟨st, hrun, hst⟩ := hinv.calls fns
    refine ⟨st, ?_, hst⟩
    rw [List.foldlM_cons, hcall]
    exact hrun

variable (F kind)

/-- **The bookkeeping of every run.**  After any sequence of calls no assertion has failed, and the
site has its list, counter, filter and mode in step with the functions inserted. -/
theorem bookkeeping_run (fns : List Fn) :
    ∃ s inserted, run F kind fns = some (s, inserted) ∧ Bookkeeping F s inserted := by
  have hinit : SiteInv F kind .init [] := siteInv_init
  obtain ⟨⟨s, inserted⟩, hrun, hinv⟩ := hinit.calls fns
  exact ⟨s, inserted, hrun, hinv.bookkeeping⟩

end Bookkeeping

end CallInlineCache

end Dsom
