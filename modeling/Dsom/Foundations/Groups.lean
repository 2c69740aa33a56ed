import Dsom.Foundations.Rules
import Mathlib.Logic.Relation

/-!
# Foundations/Groups — rules run in groups, skipped while their guards are quiet

A group of rules keeps a copy of every shared cell it reads.  The copies are brought up to date
first; when none changed, and the group has been run before, its rules are skipped.  Groups are run
in components, each until a sweep over it changes nothing, or just once where nothing a group
writes can reach its own guards.

Skipping is sound because a group that was run is *settled*: as long as its copies are up to date
all its rules hold (`Settled`), whatever the other groups write.  `Layout.runPlan_done` is the
result: the plan ends, and in the store it ends with every rule of every group holds.
-/

namespace Dsom

namespace Rules

/-- A shared cell and the copy of it that a group keeps. -/
structure Guard (κ : Type*) where
  var : κ
  copy : κ

/-- The rule that a guard stands for: the copy takes in the variable. -/
def Guard.rule {κ α : Type*} (g : Guard κ) : Rule κ α where
  dst := g.copy
  val σ := σ g.var

/-- The rules that are run together, and the guards that say whether they have to be. -/
structure Group (κ α : Type*) where
  guards : List (Guard κ)
  rules : List (Rule κ α)

/-- The cells a group writes. -/
def Group.writes {κ α : Type*} (G : Group κ α) : List κ :=
  G.guards.map Guard.copy ++ G.rules.map Rule.dst

variable {ι κ α : Type*} [DecidableEq κ] [SemilatticeSup α] [DecidableEq α]

/-- Update the copies, and run the rules unless none changed and this is not the first time. -/
def Group.run (isFirst : Bool) (G : Group κ α) (σ : κ → α) : (κ → α) × Bool :=
  let guards := steps (G.guards.map Guard.rule) σ
  if !guards.2 && !isFirst then (guards.1, false)
  else
    let rules := steps G.rules guards.1
    (rules.1, guards.2 || rules.2)

/-- One round over some groups. -/
def sweep (G : ι → Group κ α) (isFirst : Bool) : List ι → (κ → α) → (κ → α) × Bool
  | [], σ => (σ, false)
  | b :: bs, σ =>
      let r := (G b).run isFirst σ
      let s := sweep G isFirst bs r.1
      (s.1, r.2 || s.2)

/-- Rounds until nothing changes. -/
def sweeps (G : ι → Group κ α) : ℕ → Bool → List ι → (κ → α) → Option (κ → α)
  | 0, _, _, _ => none
  | fuel + 1, isFirst, bs, σ =>
      let r := sweep G isFirst bs σ
      if r.2 then sweeps G fuel false bs r.1 else some r.1

/-- Some groups to run together, and whether one run is enough. -/
structure Item (ι : Type*) where
  range : List ι
  runOnceIsEnough : Bool

/-- One item of the plan: its one group once, or its groups until nothing changes. -/
def runItem (G : ι → Group κ α) (fuel : ℕ) (item : Item ι) (σ : κ → α) : Option (κ → α) :=
  match item.runOnceIsEnough, item.range with
  | true, b :: _ => some ((G b).run true σ).1
  | _, bs => sweeps G fuel true bs σ

/-- The items one after the other. -/
def runPlan (G : ι → Group κ α) (fuel : ℕ) : List (Item ι) → (κ → α) → Option (κ → α)
  | [], σ => some σ
  | item :: plan, σ => (runItem G fuel item σ).bind (runPlan G fuel plan)

/-! ## One run of a group

Its store only grows, and stays below every solution. -/

section Run

variable {G : Group κ α} {σ τ : κ → α} {isFirst : Bool}

/-- A run is the guards, or the guards and the rules. -/
theorem Group.run_cases (isFirst : Bool) (G : Group κ α) (σ : κ → α) :
    ((∀ g ∈ G.guards, (Guard.rule g : Rule κ α).Holds σ) ∧ isFirst = false ∧
      G.run isFirst σ = (σ, false)) ∨
    (G.run isFirst σ).1 = runAll G.rules (runAll (G.guards.map Guard.rule) σ) := by
  rw [Group.run]
  split_ifs with h
  · rw [Bool.and_eq_true, Bool.not_eq_true', Bool.not_eq_true'] at h
    have hholds := steps_snd.mp h.1
    left
    refine ⟨List.forall_mem_map.mp hholds, h.2, ?_⟩
    rw [steps_of_holds hholds]
  · right
    rw [steps_fst, steps_fst]

theorem Group.le_run : σ ≤ (G.run isFirst σ).1 := by
  rcases G.run_cases isFirst σ with ⟨-, -, h⟩ | h
  · rw [h]
  · rw [h]
    exact le_runAll.trans le_runAll

theorem Group.run_of_notMem {k : κ} (h : k ∉ G.writes) : (G.run isFirst σ).1 k = σ k := by
  rw [Group.writes, List.mem_append, not_or] at h
  rcases G.run_cases isFirst σ with ⟨-, -, hrun⟩ | hrun
  · rw [hrun]
  · rw [hrun, runAll_of_notMem, runAll_of_notMem]
    · simp only [List.forall_mem_map]
      exact fun g hg hk => h.1 (hk ▸ List.mem_map_of_mem hg)
    · exact fun r hr hk => h.2 (hk ▸ List.mem_map_of_mem hr)

/-- A run stays below every solution. -/
theorem Group.run_le (hm : ∀ r ∈ G.rules, Monotone r.val) (hr : ∀ r ∈ G.rules, r.Holds τ)
    (hg : ∀ g ∈ G.guards, τ g.var ≤ τ g.copy) (h : σ ≤ τ) : (G.run isFirst σ).1 ≤ τ := by
  have hguards : runAll (G.guards.map Guard.rule) σ ≤ τ := by
    refine runAll_le ?_ ?_ h
    · exact List.forall_mem_map.mpr fun g _ _ _ hle => hle g.var
    · exact List.forall_mem_map.mpr hg
  rcases G.run_cases isFirst σ with ⟨-, -, hrun⟩ | hrun
  · rw [hrun]
    exact h
  · rw [hrun]
    exact runAll_le hm hr hguards

/-- A run reports whether it changed anything. -/
theorem Group.run_snd_iff : (G.run isFirst σ).2 = false ↔ (G.run isFirst σ).1 = σ := by
  rw [Group.run]
  split_ifs with h
  · rw [Bool.and_eq_true, Bool.not_eq_true'] at h
    simp only [true_iff]
    exact steps_fst.trans (steps_snd_iff.mp h.1)
  · simp only [Bool.or_eq_false_iff, steps_snd_iff, steps_fst]
    constructor
    · rintro ⟨hg, hr⟩
      rw [hr, hg]
    · intro heq
      have hg : runAll (G.guards.map Guard.rule) σ = σ :=
        le_antisymm (le_runAll.trans heq.le) le_runAll
      refine ⟨hg, ?_⟩
      rw [hg] at heq ⊢
      exact heq

/-- After an idle run the copies are up to date. -/
theorem Group.guards_of_idle (h : (G.run isFirst σ).1 = σ) : ∀ g ∈ G.guards,
    σ g.var ≤ σ g.copy := by
  rcases G.run_cases isFirst σ with ⟨hg, -, -⟩ | hrun
  · exact hg
  · have hguards : runAll (G.guards.map Guard.rule) σ = σ :=
      le_antisymm (le_runAll.trans (hrun.symm.trans h).le) le_runAll
    exact List.forall_mem_map.mp (runAll_eq_self_iff.mp hguards)

end Run

/-! ## Groups that do not disturb each other

A group reads the shared cells it has guards for, and otherwise cells that no other group writes. -/

/-- Which cells belong to which group.  A rule reads guarded cells, and otherwise cells that no
other group writes and that neither it nor a later rule of its group writes. -/
structure Layout (G : ι → Group κ α) : Prop where
  var_ne_copy : ∀ b b', ∀ g ∈ (G b).guards, ∀ g' ∈ (G b').guards, g.var ≠ g'.copy
  copy_fresh : ∀ b b', ∀ g ∈ (G b).guards, ∀ r ∈ (G b').rules, r.dst ≠ g.copy
  copy_own : ∀ b b', b ≠ b' → ∀ g ∈ (G b).guards, ∀ g' ∈ (G b').guards, g'.copy ≠ g.copy
  copy_inj : ∀ b, ∀ g ∈ (G b).guards, ∀ g' ∈ (G b).guards, g.copy = g'.copy → g.var = g'.var
  reads : ∀ b before r after, (G b).rules = before ++ r :: after → ∃ s : Set κ, r.ReadsOnly s ∧
    ∀ k ∈ s, (∃ g ∈ (G b).guards, g.var = k) ∨
      (∀ r' ∈ r :: after, k ≠ r'.dst) ∧ ∀ b', b' ≠ b → k ∉ (G b').writes

section Invariant

variable {G : ι → Group κ α} {σ τ : κ → α} {b b' : ι} {isFirst : Bool}

/-- The copies are not ahead of what they copy. -/
def Tracks (G : ι → Group κ α) (b : ι) (σ : κ → α) : Prop :=
  ∀ g ∈ (G b).guards, σ g.copy ≤ σ g.var

/-- …nor behind. -/
def UpToDate (G : ι → Group κ α) (b : ι) (σ : κ → α) : Prop :=
  ∀ g ∈ (G b).guards, σ g.var ≤ σ g.copy

/-- **A group need not be run again until a copy is out of date.** -/
def Settled (G : ι → Group κ α) (b : ι) (σ : κ → α) : Prop :=
  UpToDate G b σ → ∀ r ∈ (G b).rules, r.Holds σ

omit [DecidableEq κ] [SemilatticeSup α] [DecidableEq α] in
/-- A copy is written by its own group only. -/
theorem Layout.copy_notMem_writes (h : Layout G) (hb : b ≠ b') {g : Guard κ}
    (hg : g ∈ (G b).guards) : g.copy ∉ (G b').writes := by
  rw [Group.writes, List.mem_append, List.mem_map, List.mem_map]
  rintro (⟨g', hg', heq⟩ | ⟨r, hr, heq⟩)
  · exact h.copy_own b b' hb g hg g' hg' heq
  · exact h.copy_fresh b b' g hg r hr heq

omit [DecidableEq α] in
/-- The guards do not touch what is guarded, and only catch up. -/
theorem Layout.tracks_guards (h : Layout G) (ht : Tracks G b σ) :
    ∀ g ∈ (G b).guards, runAll ((G b).guards.map Guard.rule) σ g.copy
      ≤ runAll ((G b).guards.map Guard.rule) σ g.var := by
  refine runAll_ind (P := Tracks G b) ?_ ht
  simp only [List.forall_mem_map]
  intro g₀ hg₀ ρ hρ g hg
  have hvar : (Guard.rule g₀).run ρ g.var = ρ g.var :=
    Rule.run_of_ne (h.var_ne_copy b b g hg g₀ hg₀)
  rw [hvar]
  by_cases hc : g.copy = g₀.copy
  · have hsup : (Guard.rule g₀).run ρ g.copy = ρ g.copy ⊔ ρ g.var := by
      rw [hc, h.copy_inj b g hg g₀ hg₀ hc]
      exact Rule.run_dst
    rw [hsup]
    exact sup_le (hρ g hg) le_rfl
  · rw [Rule.run_of_ne hc]
    exact hρ g hg

omit [DecidableEq α] in
/-- The rules of the group leave its copies alone. -/
theorem Layout.copy_rules (h : Layout G) {g : Guard κ} (hg : g ∈ (G b).guards) :
    runAll (G b).rules σ g.copy = σ g.copy :=
  runAll_of_notMem fun r hr heq => h.copy_fresh b b g hg r hr heq.symm

/-- **Copies are never ahead**, whichever group is run. -/
theorem Layout.tracks_run (h : Layout G) (ht : Tracks G b σ) :
    Tracks G b ((G b').run isFirst σ).1 := by
  intro g hg
  by_cases hb : b = b'
  · subst hb
    rcases (G b).run_cases isFirst σ with ⟨-, -, hrun⟩ | hrun
    · rw [hrun]
      exact ht g hg
    · rw [hrun, h.copy_rules hg]
      exact (h.tracks_guards ht g hg).trans (le_runAll _)
  · rw [Group.run_of_notMem (h.copy_notMem_writes hb hg)]
    exact (ht g hg).trans (Group.le_run _)

/-- A run settles its group, unless it was skipped. -/
theorem Layout.settled_run_self (h : Layout G) (ht : Tracks G b σ)
    (hs : isFirst = true ∨ Settled G b σ) : Settled G b ((G b).run isFirst σ).1 := by
  rcases (G b).run_cases isFirst σ with ⟨-, hfirst, hrun⟩ | hrun
  · rw [hrun]
    exact hs.resolve_left (by simp [hfirst])
  · rw [hrun]
    generalize hσ₁ : runAll ((G b).guards.map Guard.rule) σ = σ₁
    have ht₁ : Tracks G b σ₁ := hσ₁ ▸ h.tracks_guards ht
    intro hup r hr
    -- the rules have not changed what is guarded
    have hvar : ∀ g ∈ (G b).guards, runAll (G b).rules σ₁ g.var = σ₁ g.var := fun g hg =>
      le_antisymm (((hup g hg).trans (h.copy_rules hg).le).trans (ht₁ g hg)) (le_runAll _)
    obtain ⟨before, after, heq⟩ := List.append_of_mem hr
    obtain ⟨s, hreads, hs⟩ := h.reads b before r after heq
    have hsplit : runAll (G b).rules σ₁ = runAll (r :: after) (runAll before σ₁) := by
      rw [heq, runAll_append]
    have hsame : ∀ k ∈ s, runAll before σ₁ k = runAll (G b).rules σ₁ k := by
      intro k hk
      rcases hs k hk with ⟨g, hg, rfl⟩ | ⟨hlater, -⟩
      · refine le_antisymm ?_ ?_
        · rw [hsplit]
          exact le_runAll _
        · rw [hvar g hg]
          exact le_runAll _
      · rw [hsplit]
        exact (runAll_of_notMem hlater).symm
    refine Rule.holds_of_run_le hreads hsame ?_
    rw [hsplit, runAll_cons]
    exact le_runAll

/-- A settled group stays settled when another one is run. -/
theorem Layout.settled_run_other (h : Layout G) (hb : b ≠ b') (ht : Tracks G b σ)
    (hs : Settled G b σ) : Settled G b ((G b').run isFirst σ).1 := by
  intro hup r hr
  have hcopy : ∀ g ∈ (G b).guards, ((G b').run isFirst σ).1 g.copy = σ g.copy :=
    fun g hg => Group.run_of_notMem (h.copy_notMem_writes hb hg)
  have hvar : ∀ g ∈ (G b).guards, ((G b').run isFirst σ).1 g.var = σ g.var := fun g hg =>
    le_antisymm (((hup g hg).trans (hcopy g hg).le).trans (ht g hg)) (Group.le_run _)
  have hholds := hs (fun g hg => ((hvar g hg).ge.trans (hup g hg)).trans (hcopy g hg).le) r hr
  obtain ⟨before, after, heq⟩ := List.append_of_mem hr
  obtain ⟨s, hreads, hs⟩ := h.reads b before r after heq
  refine hholds.of_le hreads (fun k hk => ?_) Group.le_run
  rcases hs k hk with ⟨g, hg, rfl⟩ | ⟨-, hother⟩
  · exact (hvar g hg).symm
  · exact (Group.run_of_notMem (hother b' (Ne.symm hb))).symm

end Invariant

/-! ## Sequences of runs

Any order of runs, as long as a solution is approached from below. -/

section Runs

variable {G : ι → Group κ α} {σ τ ρ : κ → α} {b b' : ι} {bs : List ι} {isFirst : Bool}

/-- The store was reached by runs of the groups `bs`. -/
def Runs (G : ι → Group κ α) (bs : List ι) : (κ → α) → (κ → α) → Prop :=
  Relation.ReflTransGen fun σ τ => ∃ b ∈ bs, ∃ isFirst, τ = ((G b).run isFirst σ).1

theorem Runs.single (hb : b ∈ bs) (isFirst : Bool) (σ : κ → α) :
    Runs G bs σ ((G b).run isFirst σ).1 := Relation.ReflTransGen.single ⟨b, hb, isFirst, rfl⟩

/-- Runs of more groups. -/
theorem Runs.mono {bs' : List ι} (h : Runs G bs σ τ) (hsub : ∀ b ∈ bs, b ∈ bs') :
    Runs G bs' σ τ :=
  Relation.ReflTransGen.mono (fun _ _ ⟨b, hb, hrun⟩ => ⟨b, hsub b hb, hrun⟩) _ _ h

/-- What every run of the groups preserves. -/
theorem Runs.ind {P : (κ → α) → Prop} (step : ∀ b ∈ bs, ∀ f σ, P σ → P ((G b).run f σ).1)
    (h : Runs G bs σ τ) (hσ : P σ) : P τ := by
  induction h with
  | refl => exact hσ
  | tail _ hstep ih =>
      obtain ⟨b, hb, f, rfl⟩ := hstep
      exact step b hb f _ ih

theorem Runs.le (h : Runs G bs σ τ) : σ ≤ τ :=
  h.ind (fun _ _ _ _ hle => hle.trans Group.le_run) le_rfl

/-- A cell that no group writes stays. -/
theorem Runs.of_notMem {k : κ} (hk : ∀ b ∈ bs, k ∉ (G b).writes) (h : Runs G bs σ τ) :
    τ k = σ k :=
  h.ind (P := fun ρ => ρ k = σ k) (fun b hb _ _ hρ => (Group.run_of_notMem (hk b hb)).trans hρ) rfl

/-- **Runs stay below every solution.** -/
theorem Runs.le_solution (hm : ∀ b ∈ bs, ∀ r ∈ (G b).rules, Monotone r.val)
    (hr : ∀ b ∈ bs, ∀ r ∈ (G b).rules, r.Holds ρ) (hg : ∀ b ∈ bs, UpToDate G b ρ)
    (h : Runs G bs σ τ) (hσ : σ ≤ ρ) : τ ≤ ρ :=
  h.ind (P := fun τ => τ ≤ ρ)
    (fun b hb _ _ hle => Group.run_le (hm b hb) (hr b hb) (hg b hb) hle) hσ

/-- The copies stay below their variables. -/
theorem Runs.tracks (hl : Layout G) (h : Runs G bs σ τ) (ht : Tracks G b σ) : Tracks G b τ :=
  h.ind (fun _ _ _ _ => hl.tracks_run) ht

/-- Everything the group demands holds. -/
def Done (G : ι → Group κ α) (b : ι) (σ : κ → α) : Prop :=
  UpToDate G b σ ∧ ∀ r ∈ (G b).rules, r.Holds σ

/-- A group that is done stays so while nothing it guards is written. -/
theorem Layout.done_run (hl : Layout G) (hb : b ≠ b')
    (hvar : ∀ g ∈ (G b).guards, ∀ r ∈ (G b').rules, g.var ≠ r.dst) (ht : Tracks G b σ)
    (hd : Done G b σ) : Done G b ((G b').run isFirst σ).1 := by
  have hup : UpToDate G b ((G b').run isFirst σ).1 := by
    intro g hg
    have hnot : g.var ∉ (G b').writes := by
      rw [Group.writes, List.mem_append, List.mem_map, List.mem_map]
      rintro (⟨g', hg', heq⟩ | ⟨r, hr, heq⟩)
      · exact hl.var_ne_copy b b' g hg g' hg' heq.symm
      · exact hvar g hg r hr heq.symm
    rw [Group.run_of_notMem hnot, Group.run_of_notMem (hl.copy_notMem_writes hb hg)]
    exact hd.1 g hg
  exact ⟨hup, hl.settled_run_other hb ht (fun _ => hd.2) hup⟩

/-- What is done stays done while its variables are not written. -/
theorem Runs.done (hl : Layout G) (h : Runs G bs σ τ) (hb : b ∉ bs)
    (hvar : ∀ b' ∈ bs, ∀ g ∈ (G b).guards, ∀ r ∈ (G b').rules, g.var ≠ r.dst)
    (ht : Tracks G b σ) (hd : Done G b σ) : Done G b τ := by
  refine (h.ind (P := fun σ => Tracks G b σ ∧ Done G b σ) (fun b' hb' f σ hσ => ?_) ⟨ht, hd⟩).2
  have hne : b ≠ b' := fun heq => hb (heq ▸ hb')
  exact ⟨hl.tracks_run hσ.1, hl.done_run hne (hvar b' hb') hσ.1 hσ.2⟩

/-! ## Sweeps

Run every group of a list, and again until a sweep changes nothing. -/

/-- A sweep is a sequence of runs. -/
theorem runs_sweep (isFirst : Bool) (bs : List ι) (σ : κ → α) :
    Runs G bs σ (sweep G isFirst bs σ).1 := by
  induction bs generalizing σ with
  | nil => exact .refl
  | cons b bs ih =>
      exact (Runs.single (.head _) isFirst σ).trans
        ((ih _).mono fun _ hb => .tail _ hb)

/-- A sweep reports whether it changed anything. -/
theorem sweep_snd_iff : (sweep G isFirst bs σ).2 = false ↔ (sweep G isFirst bs σ).1 = σ := by
  induction bs generalizing σ with
  | nil => simp [sweep]
  | cons b bs ih =>
      rw [sweep, Bool.or_eq_false_iff, Group.run_snd_iff, ih]
      constructor
      · rintro ⟨hb, hbs⟩
        rw [hbs, hb]
      · intro heq
        have hb : ((G b).run isFirst σ).1 = σ :=
          le_antisymm ((runs_sweep isFirst bs _).le.trans heq.le) Group.le_run
        refine ⟨hb, ?_⟩
        rw [hb] at heq ⊢
        exact heq

/-- After an idle sweep all copies are up to date. -/
theorem upToDate_of_idle (h : (sweep G isFirst bs σ).1 = σ) : ∀ b ∈ bs, UpToDate G b σ := by
  induction bs generalizing σ with
  | nil => simp
  | cons b bs ih =>
      have hb : ((G b).run isFirst σ).1 = σ :=
        le_antisymm ((runs_sweep isFirst bs _).le.trans h.le) Group.le_run
      refine List.forall_mem_cons.mpr ⟨Group.guards_of_idle hb, ih ?_⟩
      rw [sweep, hb] at h
      exact h

/-- After the first sweep every group of it is settled, and stays so. -/
theorem Layout.settled_sweep (hl : Layout G) (ht : ∀ b, Tracks G b σ)
    (hs : (isFirst = true ∧ b ∈ bs) ∨ Settled G b σ) :
    Settled G b (sweep G isFirst bs σ).1 := by
  classical
  induction bs generalizing σ with
  | nil => exact hs.resolve_left (by simp)
  | cons b₀ bs ih =>
      refine ih (fun b' => hl.tracks_run (ht b')) ?_
      by_cases hb : b = b₀
      · subst hb
        exact .inr (hl.settled_run_self (ht b) (hs.imp_left And.left))
      · rcases hs with ⟨hfirst, hmem⟩ | hs
        · exact .inl ⟨hfirst, (List.mem_cons.mp hmem).resolve_left hb⟩
        · exact .inr (hl.settled_run_other hb (ht b) hs)

/-- Later sweeps are a loop until nothing changes. -/
theorem sweeps_false (fuel : ℕ) : sweeps G fuel false bs σ = untilStable
    (sweep G false bs) fuel σ := by
  induction fuel generalizing σ with
  | zero => rfl
  | succ fuel ih =>
      rw [sweeps, untilStable]
      split_ifs
      · exact ih
      · rfl

/-- A group is done after an idle sweep, if it was settled. -/
theorem done_of_idle (h : (sweep G isFirst bs σ).1 = σ) (hb : b ∈ bs) (hs : Settled G b σ) :
    Done G b σ :=
  ⟨upToDate_of_idle h b hb, hs (upToDate_of_idle h b hb)⟩

theorem exists_sweeps_false [Finite α] (G : ι → Group κ α) (bs : List ι) (σ : κ → α) :
    ∃ n τ, untilStable (sweep G false bs) n σ = some τ := by
  refine exists_untilStable_of_grows (bs.flatMap fun b => (G b).writes)
    (fun σ => (runs_sweep false bs σ).le) (fun σ k hk => ?_) (fun σ h => sweep_snd_iff.mpr h) σ
  refine Runs.of_notMem (fun b hb hkb => hk ?_) (runs_sweep false bs σ)
  exact List.mem_flatMap.mpr ⟨b, hb, hkb⟩

/-- **The sweeps over a component end**, with all its groups done. -/
theorem Layout.sweeps_done [Finite α] (hl : Layout G) (ht : ∀ b, Tracks G b σ) (bs : List ι) :
    ∃ n τ, (∀ fuel, n ≤ fuel → sweeps G fuel true bs σ = some τ) ∧ Runs G bs σ τ ∧
      ∀ b ∈ bs, Done G b τ := by
  have hsettled : ∀ b ∈ bs, Settled G b (sweep G true bs σ).1 := fun b hb =>
    hl.settled_sweep ht (.inl ⟨rfl, hb⟩)
  have hfirst : Runs G bs σ (sweep G true bs σ).1 := runs_sweep true bs σ
  cases hflag : (sweep G true bs σ).2 with
  | false =>
      have hidle := sweep_snd_iff.mp hflag
      refine ⟨1, (sweep G true bs σ).1, fun fuel hfuel => ?_, hfirst, fun b hb => ?_⟩
      · obtain ⟨fuel, rfl⟩ : ∃ k, fuel = k + 1 := ⟨fuel - 1, by omega⟩
        rw [sweeps, if_neg (by simp [hflag])]
      · rw [hidle] at hsettled ⊢
        exact done_of_idle hidle hb (hsettled b hb)
  | true =>
      obtain ⟨n, τ, hn⟩ := exists_sweeps_false G bs (sweep G true bs σ).1
      -- sweeps after the first one keep the groups settled
      have hkeep : ∀ ρ, (Runs G bs σ ρ ∧ ∀ b ∈ bs, Settled G b ρ) →
          Runs G bs σ (sweep G false bs ρ).1 ∧ ∀ b ∈ bs, Settled G b (sweep G false bs ρ).1 :=
        fun ρ hρ => ⟨hρ.1.trans (runs_sweep false bs ρ), fun b hb =>
          hl.settled_sweep (fun b => hρ.1.tracks hl (ht b)) (.inr (hρ.2 b hb))⟩
      obtain ⟨ρ, ⟨hruns, hset⟩, hstop⟩ := untilStable_ind hkeep hn ⟨hfirst, hsettled⟩
      have hidle := sweep_snd_iff.mp (congrArg Prod.snd hstop)
      obtain rfl : ρ = τ := hidle.symm.trans (congrArg Prod.fst hstop)
      refine ⟨n + 1, ρ, fun fuel hfuel => ?_, hruns, fun b hb => done_of_idle hidle hb (hset b hb)⟩
      obtain ⟨fuel, rfl⟩ : ∃ k, fuel = k + 1 := ⟨fuel - 1, by omega⟩
      rw [sweeps, if_pos hflag, sweeps_false]
      exact untilStable_mono hn (by omega)

end Runs

/-! ## The plan

After an item is done, no later one disturbs it. -/

section Plan

variable {G : ι → Group κ α} {σ τ : κ → α} {b : ι}

/-- Nothing the groups of `bs` write is guarded by `b`. -/
def Quiet (G : ι → Group κ α) (b : ι) (bs : List ι) : Prop :=
  ∀ b' ∈ bs, ∀ g ∈ (G b).guards, ∀ r ∈ (G b').rules, g.var ≠ r.dst

/-- One run is enough for a group that writes nothing it guards. -/
theorem Layout.done_once (hl : Layout G) (ht : Tracks G b σ) (hq : Quiet G b [b]) :
    Done G b ((G b).run true σ).1 := by
  have hrun : ((G b).run true σ).1 = runAll (G b).rules (runAll ((G b).guards.map Guard.rule) σ) :=
    ((G b).run_cases true σ).resolve_left (by simp)
  have hup : UpToDate G b ((G b).run true σ).1 := by
    intro g hg
    have hvar : runAll ((G b).guards.map Guard.rule) σ g.var = σ g.var :=
      runAll_of_notMem (List.forall_mem_map.mpr fun g' hg' => hl.var_ne_copy b b g hg g' hg')
    rw [hrun, hl.copy_rules hg, runAll_of_notMem (hq b (.head _) g hg), hvar]
    obtain ⟨before, after, heq⟩ := List.append_of_mem hg
    rw [heq, List.map_append, runAll_append, List.map_cons, runAll_cons]
    have hval : runAll (before.map Guard.rule) σ g.var
        ≤ (Guard.rule g).run (runAll (before.map Guard.rule) σ) g.copy :=
      Rule.val_le_run (r := Guard.rule g)
    exact (le_runAll g.var).trans (hval.trans (le_runAll g.copy))
  exact ⟨hup, hl.settled_run_self ht (.inl rfl) hup⟩

/-- One run is enough only where it says so rightly. -/
def Item.Ok (G : ι → Group κ α) (item : Item ι) : Prop :=
  item.runOnceIsEnough = true → ∃ b, item.range = [b] ∧ Quiet G b [b]

/-- An item of the plan ends, and is done. -/
theorem Layout.runItem_done [Finite α] (hl : Layout G) {item : Item ι} (hok : item.Ok G)
    (ht : ∀ b, Tracks G b σ) :
    ∃ n τ, (∀ fuel, n ≤ fuel → runItem G fuel item σ = some τ) ∧ Runs G item.range σ τ ∧
      ∀ b ∈ item.range, Done G b τ := by
  cases honce : item.runOnceIsEnough with
  | true =>
      obtain ⟨b, hb, hq⟩ := hok honce
      refine ⟨0, ((G b).run true σ).1, fun fuel _ => ?_, ?_, ?_⟩
      · rw [runItem, honce, hb]
      · rw [hb]
        exact Runs.single (.head _) true σ
      · rw [hb, List.forall_mem_singleton]
        exact hl.done_once (ht b) hq
  | false =>
      obtain ⟨n, τ, hn, hruns, hdone⟩ := hl.sweeps_done ht item.range
      refine ⟨n, τ, fun fuel hfuel => ?_, hruns, hdone⟩
      rw [runItem, honce]
      exact hn fuel hfuel

/-- The groups of a plan, in order. -/
def groupsOf (plan : List (Item ι)) : List ι := plan.flatMap Item.range

/-- **A plan in which no component writes what an earlier one guards ends with every group done.**
-/
theorem Layout.runPlan_done [Finite α] (hl : Layout G) {plan : List (Item ι)}
    (hok : ∀ item ∈ plan, item.Ok G) (hnd : (groupsOf plan).Nodup)
    (hquiet : plan.Pairwise fun i j => ∀ b ∈ i.range, Quiet G b j.range)
    (ht : ∀ b, Tracks G b σ) :
    ∃ n τ, (∀ fuel, n ≤ fuel → runPlan G fuel plan σ = some τ) ∧ Runs G (groupsOf plan) σ τ ∧
      ∀ b ∈ groupsOf plan, Done G b τ := by
  induction plan generalizing σ with
  | nil => exact ⟨0, σ, fun _ _ => rfl, .refl, by simp [groupsOf]⟩
  | cons item plan ih =>
      obtain ⟨hok, hoks⟩ := List.forall_mem_cons.mp hok
      obtain ⟨hq, hquiet⟩ := List.pairwise_cons.mp hquiet
      have hgroups : groupsOf (item :: plan) = item.range ++ groupsOf plan := rfl
      rw [hgroups, List.nodup_append] at hnd
      obtain ⟨n, σ₁, hn, hruns, hdone⟩ := hl.runItem_done hok ht
      obtain ⟨m, τ, hm, hruns', hdone'⟩ := ih hoks hnd.2.1 hquiet fun b => hruns.tracks hl (ht b)
      refine ⟨max n m, τ, fun fuel hfuel => ?_, ?_, ?_⟩
      · rw [runPlan, hn fuel (le_trans (le_max_left ..) hfuel), Option.bind_some]
        exact hm fuel (le_trans (le_max_right ..) hfuel)
      · rw [hgroups]
        exact (hruns.mono fun b hb => List.mem_append_left _ hb).trans
          (hruns'.mono fun b hb => List.mem_append_right _ hb)
      · rw [hgroups]
        intro b hb
        rcases List.mem_append.mp hb with hb | hb
        · refine hruns'.done hl (fun hb' => hnd.2.2 b hb b hb' rfl) (fun b' hb' => ?_)
            (hruns.tracks hl (ht b)) (hdone b hb)
          obtain ⟨j, hj, hb'⟩ := List.mem_flatMap.mp hb'
          exact hq j hj b hb b' hb'
        · exact hdone' b hb

end Plan

end Rules

end Dsom
