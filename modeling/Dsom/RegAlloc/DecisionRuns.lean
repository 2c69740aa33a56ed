import Dsom.RegAlloc.BirthsAndDeaths
import Dsom.RegAlloc.CheckOperand

/-!
# RegAlloc/DecisionRuns — the decision maker from request to request

In every run from the start of a block no request fails and the state is consistent.  A test build
also checks the order of `m_data`: three kinds of requests can leave `m_isSorted` set over another
order, and exactly then a check fails.
-/

namespace Dsom

open RegAlloc ValueNextUseInfo

namespace RegAllocDecisionMaker

variable {bank : RegBank} {s s' : RegAllocDecisionMaker bank}

/-- What the decision maker is asked for. -/
inductive Request where
  | evictUntil (desiredNumScratchRegs : ℕ) (shouldAlsoRelocateAllGroup1Gprs : Bool)
  | codegenCheck (use : ValueUseRAInfo) (requiredNumScratchRegs : ℕ)
      (shouldAlsoRelocateAllGroup1Gprs : Bool)
  | birth (regIdx v : ℕ)
  | death (regIdx v : ℕ)
  | spillEverything

namespace Request

/-- What the comments and assertions at the entry ask of the caller. -/
def Valid (s : RegAllocDecisionMaker bank) : Request → Prop
  | .evictUntil desired should =>
    desired ≤ bank.numRegs ∧ (bank = .gpr → should = true → numGroup1Gprs ≤ desired)
  | .codegenCheck use required should =>
    use.isDuplicateEdge = false ∧ required < bank.numRegs ∧
      (bank = .gpr → should = true → numGroup1Gprs ≤ required)
  | .birth regIdx v => regIdx ∈ s.scratchRegMask ∧ ¬ s.IsValAvailableInReg v
  | .death regIdx v =>
    regIdx < bank.numRegs ∧ s.regValues regIdx = some v ∧
      (s.nextUse v).nextUseIndex = noNextUse
  | .spillEverything => True

/-- The registers in use stay in order wherever `m_isSorted` stays set.  Nothing in the source
provides for that. -/
def KeepsOrdered (s : RegAllocDecisionMaker bank) : Request → Prop
  | .death regIdx _ => s.isSorted = true → s.LastUsed regIdx
  | _ => True

/-- What a request does where `AssertConsistency` is not compiled. -/
def run (s : RegAllocDecisionMaker bank) : Request → Option (RegAllocDecisionMaker bank)
  | .evictUntil desired should => (s.evictUntil desired should).map Prod.snd
  | .codegenCheck use required should => (s.workForCodegenCheck use required should).map Prod.snd
  | .birth regIdx v => (s.processHackyBorn regIdx v).bind outputsBorn
  | .death regIdx v => s.processDeathEvent regIdx v
  | .spillEverything => s.spillEverything

/-- The value that may come into a register. -/
def Brings : Request → ℕ → Prop
  | .codegenCheck use _ _, v => v = use.ssaValue
  | .birth _ v', v => v = v'
  | _, _ => False

/-- **A request** does not fail, and leaves the state as it should be exactly if it keeps the
order. -/
theorem run_spec (h : s.AtRest) {q : Request} (hq : q.Valid s) :
    ∃ s', q.run s = some s' ∧ s'.Consistent ∧ s'.Idle ∧ (s'.AtRest ↔ q.KeepsOrdered s) ∧
      ∀ v, s'.IsValAvailableInReg v → q.Brings v ∨ s.IsValAvailableInReg v := by
  cases q with
  | evictUntil desired should =>
    obtain ⟨s', hs', hmakes, -⟩ :=
      exists_evictUntil h.consistent h.ordered h.idle hq.1 hq.2
    exact ⟨s', by rw [run, hs']; rfl, hmakes.consistent, hmakes.idle,
      iff_of_true ⟨hmakes.consistent, hmakes.ordered, hmakes.idle⟩ trivial,
      fun v hv => .inr (hmakes.available v hv)⟩
  | codegenCheck use required should =>
    obtain ⟨r, s', hs', hmakes, -⟩ :=
      exists_workForCodegenCheck h.consistent h.ordered h.idle hq.1 hq.2.1 hq.2.2
    refine ⟨s', by rw [run, hs']; rfl, hmakes.consistent, hmakes.idle,
      iff_of_true ⟨hmakes.consistent, fun hsorted => ?_, hmakes.idle⟩ trivial,
      fun v hv => hmakes.available v hv⟩
    rw [hmakes.isSorted] at hsorted
    cases hsorted
  | birth regIdx v =>
    obtain ⟨s', hs', hrest, -, -, havailable, -⟩ := processHackyBorn_spec h hq.1 hq.2
    exact ⟨s', hs', hrest.consistent, hrest.idle, iff_of_true hrest trivial,
      fun w hw => (havailable w).mp hw⟩
  | death regIdx v =>
    obtain ⟨hlt, hv, hdead⟩ := hq
    obtain ⟨s', hs', hconsistent, hidle, havailable, -, hrest⟩ :=
      processDeathEvent_spec h hlt hv hdead
    exact ⟨s', hs', hconsistent, hidle, hrest, fun w hw => .inr ((havailable w).mp hw).2⟩
  | spillEverything =>
    obtain ⟨s', hs', hconsistent, hordered, hidle, hnone, -⟩ :=
      spillEverything_spec h.consistent h.idle
    refine ⟨s', hs', hconsistent, hidle,
      iff_of_true ⟨hconsistent, fun _ => hordered, hidle⟩ trivial, fun v hv => ?_⟩
    rw [IsValAvailableInReg, hnone v] at hv
    cases hv

end Request

/-- The start is at rest. -/
theorem atRest_reset (nextUse : ℕ → ValueNextUseInfo) :
    (reset nextUse : RegAllocDecisionMaker bank).AtRest :=
  ⟨consistent_reset nextUse, fun _ => (ascending_reset nextUse).ordered (consistent_reset nextUse),
    rfl, rfl⟩

/-- The states in the runs of a block, with the requests so far. -/
inductive Reached (nextUse : ℕ → ValueNextUseInfo) :
    List Request → RegAllocDecisionMaker bank → Prop
  | reset : Reached nextUse [] (reset nextUse)
  | request {done : List Request} {s s' : RegAllocDecisionMaker bank} {q : Request}
      (before : Reached nextUse done s) (valid : q.Valid s) (keeps : q.KeepsOrdered s)
      (run : q.run s = some s') :
      Reached nextUse (done ++ [q]) s'

/-- **Runs**: the state is consistent in every state reached, no request fails there, and a value
is in a register only if some request brought it. -/
theorem Reached.atRest {nextUse : ℕ → ValueNextUseInfo} {done : List Request}
    (h : Reached nextUse done s) :
    s.AtRest ∧
      (∀ q : Request, q.Valid s → ∃ s', q.run s = some s' ∧ (s'.AtRest ↔ q.KeepsOrdered s)) ∧
      ∀ v, s.IsValAvailableInReg v → ∃ q ∈ done, q.Brings v := by
  suffices hrest : s.AtRest ∧ ∀ v, s.IsValAvailableInReg v → ∃ q ∈ done, q.Brings v by
    refine ⟨hrest.1, fun q hq => ?_, hrest.2⟩
    obtain ⟨s', hs', -, -, hnext, -⟩ := Request.run_spec hrest.1 hq
    exact ⟨s', hs', hnext⟩
  induction h with
  | reset => exact ⟨atRest_reset nextUse, fun v hv => by cases hv⟩
  | @request done s s' q _ valid keeps hrun ih =>
    obtain ⟨hrest, hbrought⟩ := ih
    obtain ⟨s'', hs'', -, -, hnext, hbrings⟩ := Request.run_spec hrest valid
    obtain rfl := Option.some_inj.mp (hrun.symm.trans hs'')
    refine ⟨hnext.mpr keeps, fun v hv => ?_⟩
    rcases hbrings v hv with hq | hv
    · exact ⟨q, List.mem_append_right _ (List.mem_singleton_self q), hq⟩
    · obtain ⟨q', hq', hbrings'⟩ := hbrought v hv
      exact ⟨q', List.mem_append_left _ hq', hbrings'⟩

/-- A value is born in group 1, is checked where group 1 has to be free, and is spilled. -/
def threeRequests : List Request :=
  [.birth 5 4, .codegenCheck ⟨4, false, noMoreUse⟩ 2 true, .spillEverything]

theorem exists_reached_threeRequests :
    ∃ s : RegAllocDecisionMaker .gpr, Reached (fun _ => noMoreUse) threeRequests s := by
  have hbirth : (Request.birth 5 4).Valid noneLoaded := ⟨by decide, Bool.false_ne_true⟩
  have hcheck : ∀ s : RegAllocDecisionMaker .gpr,
      (Request.codegenCheck ⟨4, false, noMoreUse⟩ 2 true).Valid s :=
    fun s => ⟨rfl, by decide, fun _ _ => by decide⟩
  obtain ⟨s₁, hs₁, -, -, hrest₁, -⟩ := Request.run_spec (atRest_reset fun _ => noMoreUse) hbirth
  obtain ⟨s₂, hs₂, -, -, hrest₂, -⟩ := Request.run_spec (hrest₁.mpr trivial) (hcheck s₁)
  obtain ⟨s₃, hs₃, -⟩ :=
    Request.run_spec (hrest₂.mpr trivial) (q := .spillEverything) trivial
  exact ⟨s₃, ((Reached.reset.request hbirth trivial hs₁).request (hcheck s₁) trivial hs₂).request
    trivial trivial hs₃⟩

theorem atRest_threeRequests : ∃ s : RegAllocDecisionMaker .gpr,
    Reached (fun _ => noMoreUse) threeRequests s ∧
    s.AtRest ∧
      (∀ q : Request, q.Valid s → ∃ s', q.run s = some s' ∧ (s'.AtRest ↔ q.KeepsOrdered s)) ∧
      ∀ v, s.IsValAvailableInReg v → ∃ q ∈ threeRequests, q.Brings v := by
  obtain ⟨s, hs⟩ := exists_reached_threeRequests
  exact ⟨s, hs, hs.atRest⟩

/-! ## In a test build

The checks do not change the state.  Those before a request pass if the state does, and the one at
its end is where a wrong order shows. -/

namespace Request

/-- `m_data` ascends wherever `m_isSorted` stays set. -/
def KeepsAscending (s : RegAllocDecisionMaker bank) : Request → Prop
  | .evictUntil desired should => s.numScratchRegs = 0 → s.EvictsInOrder desired should
  | .codegenCheck _ _ _ | .birth _ _ => True
  | .death regIdx _ => s.isSorted = true → s.LastInOrder regIdx
  | .spillEverything => s.isSorted = true → s.InIndexOrder

/-- The calls of `AssertConsistency` before the request does something, those of `SortRegisters`
among them. -/
def AssertsBefore (s : RegAllocDecisionMaker bank) : Request → Prop
  | .evictUntil desired _ => 0 < desired →
    (s.isSorted = false → s.AssertConsistency) ∧ s.sortRegisters.AssertConsistency
  | .codegenCheck _ _ _ =>
    (s.isSorted = false → s.AssertConsistency) ∧ s.sortRegisters.AssertConsistency
  | .birth _ _ | .death _ _ | .spillEverything => s.AssertConsistency

/-- The call at the end of the request; a death has none.  The calls after the moves out of group 1
add nothing: a move clears `m_isSorted`, and the last of them checks the state of the end. -/
def AssertsAfter (s' : RegAllocDecisionMaker bank) : Request → Prop
  | .death _ _ => True
  | _ => s'.AssertConsistency

instance (q : Request) : Decidable (q.AssertsBefore s) := by
  cases q <;> unfold AssertsBefore <;> infer_instance

instance (q : Request) : Decidable (q.AssertsAfter s) := by
  cases q <;> unfold AssertsAfter <;> infer_instance

/-- What a request does in a test build. -/
def runInTestBuild (s : RegAllocDecisionMaker bank) (q : Request) :
    Option (RegAllocDecisionMaker bank) :=
  testAssert (q.AssertsBefore s) <|
  (q.run s).bind fun s' => testAssert (q.AssertsAfter s') <| some s'

/-- What an operation checks first holds at rest. -/
theorem assertsBefore (h : s.AtRest) (hassert : s.AssertConsistency) (q : Request) :
    q.AssertsBefore s := by
  have hascending := h.assertConsistency_iff.mp hassert
  have hsort : s.sortRegisters.AssertConsistency :=
    (assertConsistency_iff (h.consistent.sortRegisters h.ordered).1
      ((sameRegisters_sortRegisters s).idle h.idle).1).mpr
      fun _ => h.consistent.ascending_sortRegisters hascending
  cases q with
  | evictUntil desired should => exact fun _ => ⟨fun _ => hassert, hsort⟩
  | codegenCheck use required should => exact ⟨fun _ => hassert, hsort⟩
  | _ => exact hassert

/-- A request that keeps the whole order keeps that of the registers in use. -/
theorem KeepsAscending.keepsOrdered {q : Request} (hq : q.KeepsAscending s) : q.KeepsOrdered s := by
  cases q with
  | death regIdx v => exact fun hsorted => (hq hsorted).1
  | _ => trivial

/-- When the check passes after a request. -/
theorem run_assertConsistency_iff (h : s.AtRest) (hassert : s.AssertConsistency) {q : Request}
    (hq : q.Valid s) (hs' : q.run s = some s') :
    s'.AssertConsistency ↔ q.KeepsAscending s := by
  have hascending := h.assertConsistency_iff.mp hassert
  cases q with
  | evictUntil desired should =>
    obtain ⟨⟨info, t⟩, hevict, rfl⟩ := Option.map_eq_some_iff.mp hs'
    exact evictUntil_assertConsistency_iff h.consistent hascending h.idle hq.1 hq.2 hevict
  | codegenCheck use required should =>
    obtain ⟨r, t, ht, hmakes, -⟩ :=
      exists_workForCodegenCheck h.consistent h.ordered h.idle hq.1 hq.2.1 hq.2.2
    rw [run, ht] at hs'
    obtain rfl := Option.some_inj.mp hs'
    refine iff_of_true ?_ trivial
    refine (assertConsistency_iff hmakes.consistent hmakes.idle.1).mpr fun hsorted => ?_
    rw [hmakes.isSorted] at hsorted
    cases hsorted
  | birth regIdx v =>
    obtain ⟨t, ht, hrest, hunsorted, -⟩ := processHackyBorn_spec h hq.1 hq.2
    obtain rfl := Option.some_inj.mp (ht.symm.trans hs')
    refine iff_of_true (hrest.assertConsistency_iff.mpr fun hsorted => ?_) trivial
    rw [hunsorted] at hsorted
    cases hsorted
  | death regIdx v =>
    exact processDeathEvent_assertConsistency_iff h hassert hq.1 hq.2.1 hs'
  | spillEverything => exact spillEverything_assertConsistency_iff h.consistent h.idle hs'

/-- **A request in a test build** fails exactly if its last check does. -/
theorem runInTestBuild_eq (h : s.AtRest) (hassert : s.AssertConsistency) {q : Request}
    (hs' : q.run s = some s') :
    q.runInTestBuild s = testAssert (q.AssertsAfter s') (some s') := by
  rw [runInTestBuild, testAssert, if_pos (assertsBefore h hassert q), hs', Option.bind_some]

/-- A request that keeps the order passes its checks, and so does the state after it. -/
theorem runInTestBuild_spec (h : s.AtRest) (hassert : s.AssertConsistency) {q : Request}
    (hq : q.Valid s) (hkeeps : q.KeepsAscending s) :
    ∃ s', q.runInTestBuild s = some s' ∧ s'.AtRest ∧ s'.AssertConsistency := by
  obtain ⟨s', hs', -, -, hnext, -⟩ := run_spec h hq
  have hassert' := (run_assertConsistency_iff h hassert hq hs').mpr hkeeps
  have hafter : q.AssertsAfter s' := by
    cases q with
    | death regIdx v => trivial
    | _ => exact hassert'
  exact ⟨s', by rw [runInTestBuild_eq h hassert hs', testAssert, if_pos hafter],
    hnext.mpr hkeeps.keepsOrdered, hassert'⟩

end Request

/-- The states in the runs of a block in a test build, as long as the order is kept. -/
inductive ReachedInTestBuild (nextUse : ℕ → ValueNextUseInfo) :
    List Request → RegAllocDecisionMaker bank → Prop
  | reset : ReachedInTestBuild nextUse [] (reset nextUse)
  | request {done : List Request} {s s' : RegAllocDecisionMaker bank} {q : Request}
      (before : ReachedInTestBuild nextUse done s) (valid : q.Valid s) (keeps : q.KeepsAscending s)
      (run : q.runInTestBuild s = some s') :
      ReachedInTestBuild nextUse (done ++ [q]) s'

/-- **Runs in a test build**: every state reached passes the check.  A request from there passes its
last check exactly if it keeps the order, and does not fail otherwise. -/
theorem ReachedInTestBuild.assertConsistency {nextUse : ℕ → ValueNextUseInfo}
    {done : List Request} (h : ReachedInTestBuild nextUse done s) :
    s.AtRest ∧ s.AssertConsistency ∧
      ∀ q : Request, q.Valid s → ∃ s', q.run s = some s' ∧
        (s'.AssertConsistency ↔ q.KeepsAscending s) ∧
        q.runInTestBuild s = testAssert (q.AssertsAfter s') (some s') := by
  suffices hrest : s.AtRest ∧ s.AssertConsistency by
    refine ⟨hrest.1, hrest.2, fun q hq => ?_⟩
    obtain ⟨s', hs', -⟩ := Request.run_spec hrest.1 hq
    exact ⟨s', hs', Request.run_assertConsistency_iff hrest.1 hrest.2 hq hs',
      Request.runInTestBuild_eq hrest.1 hrest.2 hs'⟩
  induction h with
  | reset =>
    have hrest : (RegAllocDecisionMaker.reset nextUse : RegAllocDecisionMaker bank).AtRest :=
      atRest_reset nextUse
    exact ⟨hrest, hrest.assertConsistency_iff.mpr fun _ => ascending_reset nextUse⟩
  | @request done s s' q _ valid keeps hrun ih =>
    obtain ⟨hrest, hassert⟩ := ih
    obtain ⟨s'', hs'', hnext⟩ := Request.runInTestBuild_spec hrest hassert valid keeps
    obtain rfl := Option.some_inj.mp (hrun.symm.trans hs'')
    exact hnext

/-- A birth and a check of an operand, in a test build. -/
theorem exists_reachedInTestBuild_twoRequests : ∃ s : RegAllocDecisionMaker .gpr,
    ReachedInTestBuild (fun _ => noMoreUse)
      [.birth 5 4, .codegenCheck ⟨4, false, noMoreUse⟩ 2 true] s := by
  have hbirth : (Request.birth 5 4).Valid noneLoaded := ⟨by decide, Bool.false_ne_true⟩
  have hcheck : ∀ s : RegAllocDecisionMaker .gpr,
      (Request.codegenCheck ⟨4, false, noMoreUse⟩ 2 true).Valid s :=
    fun s => ⟨rfl, by decide, fun _ _ => by decide⟩
  have hreset : (noneLoaded : RegAllocDecisionMaker .gpr).AtRest := atRest_reset _
  obtain ⟨s₁, hs₁, hrest, hassert⟩ :=
    Request.runInTestBuild_spec hreset
      (hreset.assertConsistency_iff.mpr fun _ => ascending_reset _) hbirth trivial
  obtain ⟨s₂, hs₂, -⟩ := Request.runInTestBuild_spec hrest hassert (hcheck s₁) trivial
  exact ⟨s₂, (ReachedInTestBuild.reset.request hbirth trivial hs₁).request (hcheck s₁) trivial hs₂⟩

theorem assertConsistency_twoRequests : ∃ s : RegAllocDecisionMaker .gpr,
    ReachedInTestBuild (fun _ => noMoreUse)
      [.birth 5 4, .codegenCheck ⟨4, false, noMoreUse⟩ 2 true] s ∧
    s.AtRest ∧ s.AssertConsistency ∧
      ∀ q : Request, q.Valid s → ∃ s', q.run s = some s' ∧
        (s'.AssertConsistency ↔ q.KeepsAscending s) ∧
        q.runInTestBuild s = testAssert (q.AssertsAfter s') (some s') := by
  obtain ⟨s, hs⟩ := exists_reachedInTestBuild_twoRequests
  exact ⟨s, hs, hs.assertConsistency⟩

end RegAllocDecisionMaker

end Dsom
