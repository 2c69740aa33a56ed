import Dsom.RegAlloc.RegisterBank
import Mathlib.Data.List.Nodup
import Mathlib.Data.List.Pairwise

/-!
# RegAlloc/RegisterBankLegal — the banks are allowed, and one value keeps one bank

Within an epoch the pass knows of every value which banks were demanded of it and, while none was,
which slots wait (`EpochInv`).  A demand fills the slots that wait, and so does the flush at the end
of the epoch, with the bank that more of them prefer.

A slot that is written and waits for nothing is never written again (`Settled`), as no slot has two
requests.  So the result: every slot holds a bank that its variant allows, and all the slots of a
value whose bank is open hold the bank demanded in the same epoch, if there is one bank that can
serve them all (`registerBanks_legal`).
-/

namespace Dsom

namespace RegBank

/-! ## What is asked in an epoch

An epoch ends where the pass flushes what it knows. -/

section Epoch

variable (E : List Request) (v : Value)

/-- A bank is demanded of a value: by a use, by its output or by a type check. -/
def Mandatory (useGPR : Bool) : Prop := ∃ slot, Request.mandatory v slot useGPR ∈ E

/-- A request leaves the bank of a slot open. -/
inductive Request.IsFlexible : Request → Value → Slot → Prop
  | use {v : Value} {slot : Slot} {prefersGPR : Bool} :
    IsFlexible (.flexible v slot prefersGPR) v slot
  | output {n : ℕ} {prefersGPR : Bool} : IsFlexible (.output n prefersGPR) (n, 0) (.output n)

/-- Some request for this value leaves the register open. -/
def Flexible (slot : Slot) : Prop := ∃ r ∈ E, r.IsFlexible v slot

/-- Some request names this value. -/
def Touched : Prop := ∃ r ∈ E, r.value? = some v

/-- The requests between two flushes; the pass begins like after a flush. -/
def IsEpoch (requests : List Request) : Prop :=
  ∃ before after, requests = before ++ E ++ .flush :: after
    ∧ (before = [] ∨ ∃ first, before = first ++ [.flush]) ∧ Request.flush ∉ E

variable {E v}

theorem Request.IsFlexible.value {r : Request} {slot : Slot} (h : r.IsFlexible v slot) :
    r.value? = some v ∧ r.slot? = some slot := by
  cases h <;> exact ⟨rfl, rfl⟩

theorem Flexible.touched {slot : Slot} (h : Flexible E v slot) : Touched E v :=
  h.imp fun _ h => ⟨h.1, h.2.value.1⟩

theorem Mandatory.touched {useGPR : Bool} (h : Mandatory E v useGPR) : Touched E v :=
  h.elim fun _ h => ⟨_, h, rfl⟩

theorem mandatory_append {r : Request} {useGPR : Bool} :
    Mandatory (E ++ [r]) v useGPR
      ↔ Mandatory E v useGPR ∨ ∃ slot, r = .mandatory v slot useGPR := by
  simp only [Mandatory, List.mem_append, List.mem_singleton, exists_or, eq_comm]

theorem flexible_append {r : Request} {slot : Slot} :
    Flexible (E ++ [r]) v slot ↔ Flexible E v slot ∨ r.IsFlexible v slot := by
  simp only [Flexible, List.mem_append, List.mem_singleton, or_and_right, exists_or,
    exists_eq_left]

theorem touched_append {r : Request} :
    Touched (E ++ [r]) v ↔ Touched E v ∨ r.value? = some v := by
  simp only [Touched, List.mem_append, List.mem_singleton, or_and_right, exists_or, exists_eq_left]

/-- A slot belongs to one value. -/
theorem Flexible.unique {v' : Value} {slot : Slot} (hE : E.Pairwise Request.Before)
    (h : Flexible E v slot) (h' : Flexible E v' slot) : v = v' := by
  obtain ⟨r, hr, hv⟩ := h
  obtain ⟨r', hr', hv'⟩ := h'
  by_cases heq : r = r'
  · exact Option.some.inj (hv.value.1.symm.trans ((congrArg _ heq).trans hv'.value.1))
  · -- the later of the two requests may not decide the slot again
    exfalso
    have hapart : E.Pairwise fun r r' => ∀ slot ∈ r.slot?, slot ∉ r'.slot? := hE.imp And.left
    have : Std.Symm fun r r' : Request => ∀ slot ∈ r.slot?, slot ∉ r'.slot? :=
      ⟨fun r r' h slot hr hr' => h slot hr' hr⟩
    exact hapart.forall hr hr' heq slot hv.value.2 hv'.value.2

/-- A slot of a request that comes is none of the slots that were asked for. -/
theorem Flexible.slot_ne {r : Request} {slot slot' : Slot} (hr : ∀ r' ∈ E, r'.Before r)
    (h : Flexible E v slot) (hslot : slot' ∈ r.slot?) : slot ≠ slot' := by
  rintro rfl
  obtain ⟨r', hr', hv⟩ := h
  exact (hr r' hr').1 slot hv.value.2 hslot

end Epoch

/-! ## The steps of the pass -/

namespace State

/-- The value is available in a bank. -/
def has : State → Bool → Bool
  | .undecided, _ => false
  | .inFPR, useGPR => !useGPR
  | .inGPR, useGPR => useGPR
  | .inGPRAndFPR, _ => true

@[simp] theorem has_undecided (b : Bool) : undecided.has b = false := rfl

@[simp] theorem has_one (b b' : Bool) : (one b).has b' = (b == b') := by
  cases b <;> cases b' <;> rfl

@[simp] theorem has_join (s : State) (b b' : Bool) : (s.join b).has b' = (s.has b' || b == b') := by
  cases s <;> cases b <;> cases b' <;> rfl

@[simp] theorem one_ne_undecided (b : Bool) : one b ≠ .undecided := by cases b <;> decide

@[simp] theorem join_ne_undecided (s : State) (b : Bool) : s.join b ≠ .undecided := by
  cases s <;> cases b <;> decide

/-- A decided state has some bank. -/
theorem exists_has {s : State} (h : s ≠ .undecided) : ∃ b, s.has b = true := by
  cases s with
  | undecided => exact absurd rfl h
  | inFPR => exact ⟨false, rfl⟩
  | inGPR => exact ⟨true, rfl⟩
  | inGPRAndFPR => exact ⟨true, rfl⟩

/-- What an open use gets when the value is available in one bank only. -/
theorem use_eq {s : State} {b : Bool} (h : ∀ b', s.has b' = true ↔ b' = b) (prefersGPR : Bool) :
    (decide (s = .inGPR) || (decide (s = .inGPRAndFPR) && prefersGPR)) = b := by
  have ht := h true
  have hf := h false
  cases s <;> cases b <;> simp_all [has]

end State

namespace Pass

variable (s : Pass) (v : Value)

/-- What `UpdateAllPendingChoices` does. -/
theorem updateAllPendingChoices_eq (useGPR : Bool) :
    s.updateAllPendingChoices v useGPR = { s with useGPR := fun slot =>
      if slot ∈ (s.info v).pendingChoices then useGPR else s.useGPR slot } := by
  rw [updateAllPendingChoices]
  generalize (s.info v).pendingChoices = slots
  induction slots generalizing s with
  | nil => rfl
  | cons first slots ih =>
    rw [List.foldl_cons, ih]
    simp only [setUseGPR, mk.injEq, true_and, List.mem_cons]
    funext slot
    by_cases hslots : slot ∈ slots
    · simp [hslots]
    · by_cases heq : slot = first <;> simp [hslots, heq]

/-- The slot waits for the bank of a value. -/
def Waits (slot : Slot) : Prop :=
  (s.info v).state = .undecided ∧ slot ∈ (s.info v).pendingChoices

instance (slot : Slot) : Decidable (s.Waits v slot) := inferInstanceAs (Decidable (_ ∧ _))

/-- What `Finalize` makes of a slot. -/
def finalized (slot : Slot) : Bool :=
  if s.Waits v slot then decide (0 ≤ (s.info v).preferenceCount.toInt) else s.useGPR slot

/-- Finalising writes the slots that wait. -/
theorem finalize_eq : s.finalize v = { s with useGPR := s.finalized v } := by
  rw [finalize]
  split
  case isTrue h =>
    rw [updateAllPendingChoices_eq]
    simp only [mk.injEq, true_and]
    funext slot
    simp only [finalized, Waits, h, true_and]
  case isFalse h =>
    have hstay : s.finalized v = s.useGPR := funext fun slot => if_neg fun hw => h hw.1
    rw [hstay]

/-- The slots that wait for none of the values stay. -/
theorem foldl_finalize (values : List Value) :
    ∃ useGPR, values.foldl finalize s = { s with useGPR := useGPR } ∧
      (∀ slot, (∀ v ∈ values, ¬ s.Waits v slot) → useGPR slot = s.useGPR slot) ∧
      ∀ slot, ∀ v ∈ values, s.Waits v slot → (∀ v' ∈ values, s.Waits v' slot → v' = v) →
        useGPR slot = decide (0 ≤ (s.info v).preferenceCount.toInt) := by
  induction values generalizing s with
  | nil => exact ⟨s.useGPR, rfl, fun _ _ => rfl, fun _ _ h => absurd h List.not_mem_nil⟩
  | cons first values ih =>
    obtain ⟨useGPR, heq, hstay, hset⟩ := ih (s.finalize first)
    rw [finalize_eq] at heq hstay hset
    refine ⟨useGPR, by rw [List.foldl_cons, finalize_eq, heq], fun slot hslot => ?_,
      fun slot v hv hwaits honly => ?_⟩
    · rw [hstay slot fun v hv => hslot v (.tail _ hv)]
      exact if_neg (hslot first (.head _))
    · by_cases hin : v ∈ values
      · exact hset slot v hin hwaits fun v' hv' => honly v' (.tail _ hv')
      · -- the value is finalized now, and no other has the slot
        obtain rfl := (List.mem_cons.mp hv).resolve_right hin
        rw [hstay slot fun v' hv' hw => hin (honly v' (.tail _ hv') hw ▸ hv')]
        exact if_pos hwaits

end Pass

/-! ## A decided slot stays

A slot is written when it is asked for, or when its value is decided. -/

/-- No value that is known in this epoch makes the slot wait. -/
structure Pass.Settled (s : Pass) (slot : Slot) : Prop where
  le : ∀ v, (s.info v).epoch ≤ s.epoch
  idle : ∀ v, (s.info v).epoch = s.epoch ∨ v ∈ s.allPendingInfo → ¬ s.Waits v slot

namespace Pass.Settled

variable {s : Pass} {slot : Slot}

theorem setUseGPR (h : s.Settled slot) (slot' : Slot) (useGPR : Bool) :
    (s.setUseGPR slot' useGPR).Settled slot := ⟨h.le, h.idle⟩

/-- Learning about a value. -/
theorem setInfo (h : s.Settled slot) (v : Value) {info : RegBankAvailabilityInfo}
    (hle : info.epoch ≤ s.epoch) (hidle : info.state = .undecided → slot ∉ info.pendingChoices) :
    (s.setInfo v info).Settled slot := by
  constructor
  all_goals
    intro v'
    by_cases heq : v' = v
  · simpa [Pass.setInfo, heq] using hle
  · simpa [Pass.setInfo, heq] using h.le v'
  · simpa [Pass.setInfo, Pass.Waits, heq] using fun _ => hidle
  · simpa [Pass.setInfo, Pass.Waits, heq] using h.idle v'

/-- A value is put on the list of those to finalize. -/
theorem list (h : s.Settled slot) {v : Value} (hv : ¬ s.Waits v slot) :
    { s with allPendingInfo := s.allPendingInfo ++ [v] }.Settled slot := by
  refine ⟨h.le, fun v' hv' => ?_⟩
  by_cases heq : v' = v
  · exact heq ▸ hv
  · exact h.idle v' (hv'.imp_right fun hin =>
      (List.mem_append.mp hin).resolve_right fun hone => heq (List.mem_singleton.mp hone))

/-- A mandatory request for another slot. -/
theorem processMandetoryRegBankChoice (h : s.Settled slot) (v : Value) (useGPR : Bool) :
    (s.processMandetoryRegBankChoice v useGPR).Settled slot ∧
      (s.processMandetoryRegBankChoice v useGPR).useGPR slot = s.useGPR slot := by
  rw [Pass.processMandetoryRegBankChoice]
  split_ifs with hepoch hstate
  · exact ⟨h.setInfo v (Nat.le_refl _) (by simp), rfl⟩
  · have hset : (s.setInfo v { s.info v with state := .one useGPR }).Settled slot :=
      h.setInfo v (h.le v) (by simp)
    have hnot : slot ∉ (s.info v).pendingChoices := fun hmem =>
      h.idle v (.inl (not_not.mp hepoch).symm) ⟨hstate, hmem⟩
    rw [Pass.updateAllPendingChoices_eq]
    refine ⟨⟨hset.le, hset.idle⟩, if_neg ?_⟩
    simpa [Pass.setInfo] using hnot
  · exact ⟨h.setInfo v (h.le v) (by simp), rfl⟩

/-- A flexible use in another slot. -/
theorem processUndecidedUse (h : s.Settled slot) (v : Value) {slot' : Slot} (hne : slot ≠ slot')
    (prefersGPR : Bool) :
    (s.processUndecidedUse v slot' prefersGPR).Settled slot ∧
      (s.processUndecidedUse v slot' prefersGPR).useGPR slot = s.useGPR slot := by
  rw [Pass.processUndecidedUse]
  split_ifs with hepoch hstate
  · refine ⟨(h.setInfo v ?_ ?_).list ?_, rfl⟩
    · exact Nat.le_refl _
    · simpa using hne
    · simpa [Pass.Waits, Pass.setInfo] using hne
  · refine ⟨h.setInfo v (h.le v) fun _ => ?_, rfl⟩
    have hnot : slot ∉ (s.info v).pendingChoices := fun hmem =>
      h.idle v (.inl (not_not.mp hepoch).symm) ⟨hstate, hmem⟩
    simpa using ⟨hne, hnot⟩
  · exact ⟨h.setUseGPR _ _, Function.update_of_ne hne ..⟩

/-- A flexible output in another slot. -/
theorem processUndecidedOutput (h : s.Settled slot) {n : ℕ} (hne : slot ≠ .output n)
    (prefersGPR : Bool) : (s.processUndecidedOutput n prefersGPR).Settled slot := by
  refine (h.setInfo (n, 0) ?_ ?_).list ?_
  · exact Nat.le_refl _
  · simpa using hne
  · simpa [Pass.Waits, Pass.setInfo] using hne

/-- After a flush every slot is settled. -/
theorem of_flush (hle : ∀ v, (s.info v).epoch ≤ s.epoch) :
    s.finishUpAndAdvanceToNextEpoch.Settled slot := by
  obtain ⟨useGPR, heq, -⟩ := foldl_finalize s s.allPendingInfo
  rw [finishUpAndAdvanceToNextEpoch, heq]
  refine ⟨fun v => Nat.le_succ_of_le (hle v), fun v hv => ?_⟩
  have := hle v
  rcases hv with hv | hv
  · simp only at hv
    omega
  · exact absurd hv List.not_mem_nil

/-- **A settled slot stays** as long as no request decides it. -/
theorem step (g : Graph) (h : s.Settled slot) {r : Request} (hslot : slot ∉ r.slot?) :
    (step g s r).Settled slot ∧ (step g s r).useGPR slot = s.useGPR slot := by
  cases r with
  | allocate n =>
    refine ⟨⟨fun v => ?_, fun v hv => ?_⟩, rfl⟩
    all_goals simp only [RegBank.step, allocateInfo, Pass.Waits] at *
    · split_ifs
      · exact Nat.zero_le _
      · exact h.le v
    · split_ifs with hn
      · simp [RegBankAvailabilityInfo.fresh]
      · exact h.idle v (by simpa [hn] using hv)
  | mandatory v slot' useGPR =>
    cases slot' with
    | none => exact h.processMandetoryRegBankChoice v useGPR
    | some slot' =>
      have hne : slot ≠ slot' := by simpa [Request.slot?, eq_comm] using hslot
      obtain ⟨hset, hbit⟩ := (h.setUseGPR slot' useGPR).processMandetoryRegBankChoice v useGPR
      exact ⟨hset, hbit.trans (Function.update_of_ne hne ..)⟩
  | flexible v slot' prefersGPR =>
    exact h.processUndecidedUse v (by simpa [Request.slot?, eq_comm] using hslot) prefersGPR
  | output n prefersGPR =>
    exact ⟨h.processUndecidedOutput (by simpa [Request.slot?, eq_comm] using hslot) prefersGPR, rfl⟩
  | flush =>
    refine ⟨of_flush h.le, ?_⟩
    obtain ⟨useGPR, heq, hstay, -⟩ := foldl_finalize s s.allPendingInfo
    rw [RegBank.step, finishUpAndAdvanceToNextEpoch, heq]
    exact hstay slot fun v hv => h.idle v (.inr hv)

/-- **Run lemma**: the slots that no request decides. -/
theorem run (g : Graph) (h : s.Settled slot) {requests : List Request}
    (hslot : ∀ r ∈ requests, slot ∉ r.slot?) :
    (requests.foldl (RegBank.step g) s).Settled slot ∧
      (requests.foldl (RegBank.step g) s).useGPR slot = s.useGPR slot := by
  induction requests generalizing s with
  | nil => exact ⟨h, rfl⟩
  | cons r requests ih =>
    obtain ⟨hset, hbit⟩ := h.step g (hslot r (.head _))
    obtain ⟨hset', hbit'⟩ := ih hset fun r' hr' => hslot r' (.tail _ hr')
    exact ⟨hset', hbit'.trans hbit⟩

end Pass.Settled

theorem start_settled (useGPR : Slot → Bool) (slot : Slot) : (start useGPR).Settled slot :=
  ⟨fun _ => Nat.zero_le _, fun _ _ h => absurd h.2 List.not_mem_nil⟩

/-- **A demand is met**: the slot of a mandatory request holds its bank in the end. -/
theorem useGPR_of_mandatory (g : Graph) {requests : List Request} (useGPR : Slot → Bool)
    (hbefore : requests.Pairwise Request.Before) {v : Value} {slot : Slot} {mustUseGPR : Bool}
    (hr : .mandatory v (some slot) mustUseGPR ∈ requests) :
    (requests.foldl (step g) (start useGPR)).useGPR slot = mustUseGPR := by
  obtain ⟨first, last, rfl⟩ := List.append_of_mem hr
  obtain ⟨-, hlast, hfirst⟩ := List.pairwise_append.mp hbefore
  have hs : ∀ r ∈ first, slot ∉ r.slot? := fun r hr hslot =>
    (hfirst r hr _ (.head _)).1 slot hslot rfl
  have hs' : ∀ r ∈ last, slot ∉ r.slot? := fun r hr hslot =>
    (List.rel_of_pairwise_cons hlast hr).1 slot rfl hslot
  rw [List.foldl_append, List.foldl_cons]
  obtain ⟨hset, -⟩ := (start_settled useGPR slot).run g hs
  obtain ⟨hset, hbit⟩ := (hset.setUseGPR slot mustUseGPR).processMandetoryRegBankChoice v mustUseGPR
  exact (hset.run g hs').2.trans (hbit.trans (Function.update_self ..))

/-! ## What is known in an epoch

The banks a value has been asked to be in, and the slots that wait. -/

/-- What the pass knows of a value after the requests of an epoch so far. -/
structure Known (E : List Request) (s : Pass) (v : Value) : Prop where
  new : ¬ Touched E v → (s.info v).epoch < s.epoch
  live : Touched E v → (s.info v).epoch = s.epoch
  has : Touched E v → ∀ b, (s.info v).state.has b = true ↔ Mandatory E v b
  pending : Touched E v → (s.info v).state = .undecided →
    v ∈ s.allPendingInfo ∧ ∀ slot, slot ∈ (s.info v).pendingChoices ↔ Flexible E v slot
  decided : ∀ b, (∀ b', Mandatory E v b' ↔ b' = b) → ∀ slot, Flexible E v slot →
    s.useGPR slot = b

/-- **The invariant** within an epoch. -/
structure EpochInv (E : List Request) (s : Pass) : Prop where
  pos : 0 < s.epoch
  listed : ∀ v ∈ s.allPendingInfo, Touched E v
  known : ∀ v, Known E s v

section Known

variable {E : List Request} {s s' : Pass} {v : Value} {r : Request}

/-- A request about another value changes nothing that is known. -/
theorem Known.frame (h : Known E s v) (hr : r.value? ≠ some v) (hinfo : s'.info v = s.info v)
    (hepoch : s'.epoch = s.epoch) (hlist : ∀ v ∈ s.allPendingInfo, v ∈ s'.allPendingInfo)
    (hbit : ∀ slot, Flexible E v slot → s'.useGPR slot = s.useGPR slot) :
    Known (E ++ [r]) s' v := by
  have ht : Touched (E ++ [r]) v ↔ Touched E v := touched_append.trans (or_iff_left hr)
  have hm (b : Bool) : Mandatory (E ++ [r]) v b ↔ Mandatory E v b := by
    refine mandatory_append.trans (or_iff_left ?_)
    rintro ⟨slot, rfl⟩
    exact hr rfl
  have hf (slot : Slot) : Flexible (E ++ [r]) v slot ↔ Flexible E v slot :=
    flexible_append.trans (or_iff_left fun h => hr h.value.1)
  constructor
  case new => simpa only [ht, hinfo, hepoch] using h.new
  case live => simpa only [ht, hinfo, hepoch] using h.live
  case has => simpa only [ht, hm, hinfo] using h.has
  case pending =>
    simp only [ht, hf, hinfo]
    exact fun ht hstate => (h.pending ht hstate).imp_left (hlist v)
  case decided =>
    simp only [hm, hf]
    exact fun b hb slot hslot => (hbit slot hslot).trans (h.decided b hb slot hslot)

theorem Known.touched (h : Known E s v) (hepoch : s.epoch = (s.info v).epoch) : Touched E v :=
  by_contra fun ht => Nat.ne_of_lt (h.new ht) hepoch.symm

theorem Known.not_touched (h : Known E s v) (hepoch : s.epoch ≠ (s.info v).epoch) :
    ¬ Touched E v := fun ht => hepoch (h.live ht).symm

/-- Deciding a slot that does not wait. -/
theorem EpochInv.setUseGPR (h : EpochInv E s) {slot : Slot} (useGPR : Bool)
    (hslot : ∀ v slot', Flexible E v slot' → slot' ≠ slot) :
    EpochInv E (s.setUseGPR slot useGPR) := by
  refine ⟨h.pos, h.listed, fun v => { h.known v with decided := fun b hb slot' hs => ?_ }⟩
  exact (Function.update_of_ne (hslot v slot' hs) ..).trans ((h.known v).decided b hb slot' hs)

theorem EpochInv.mandatory (h : EpochInv E s) (hE : E.Pairwise Request.Before)
    (slot : Option Slot) (b : Bool) :
    EpochInv (E ++ [.mandatory v slot b]) (s.processMandetoryRegBankChoice v b) := by
  have hlisted : ∀ v' ∈ s.allPendingInfo, Touched (E ++ [.mandatory v slot b]) v' := fun v' hv' =>
    touched_append.mpr (.inl (h.listed v' hv'))
  have htouched : Touched (E ++ [.mandatory v slot b]) v := touched_append.mpr (.inr rfl)
  have hm (b' : Bool) :
      Mandatory (E ++ [.mandatory v slot b]) v b' ↔ Mandatory E v b' ∨ b = b' := by
    simp [mandatory_append]
  have hf (slot' : Slot) : Flexible (E ++ [.mandatory v slot b]) v slot' ↔ Flexible E v slot' :=
    flexible_append.trans (or_iff_left nofun)
  have hother : ∀ v' ≠ v, (Request.mandatory v slot b).value? ≠ some v' := fun v' hne heq =>
    hne (Option.some.inj heq).symm
  have hv := h.known v
  rw [Pass.processMandetoryRegBankChoice]
  split_ifs with hepoch hstate
  case pos =>
    -- the value is met for the first time in the epoch
    have hnew := hv.not_touched hepoch
    refine ⟨h.pos, hlisted, fun v' => ?_⟩
    by_cases heq : v' = v
    · subst heq
      have hnone (b' : Bool) : ¬ Mandatory E v' b' := fun hb => hnew hb.touched
      refine ⟨fun h => absurd htouched h, fun _ => ?_, fun _ b' => ?_, fun _ hst => ?_,
        fun b' _ slot' hs => absurd ((hf slot').mp hs).touched hnew⟩
      · simp [Pass.setInfo]
      · simp [Pass.setInfo, hm, hnone]
      · simp [Pass.setInfo] at hst
    · exact (h.known v').frame (hother v' heq) (Function.update_of_ne heq ..) rfl (fun _ h => h)
        fun _ _ => rfl
  case pos =>
    -- the slots that wait for the value are filled
    have ht := hv.touched (not_not.mp hepoch)
    have hpending := (hv.pending ht hstate).2
    rw [Pass.updateAllPendingChoices_eq]
    refine ⟨h.pos, hlisted, fun v' => ?_⟩
    by_cases heq : v' = v
    · subst heq
      have hnone (b' : Bool) : ¬ Mandatory E v' b' := fun hb => by
        simpa [hstate] using (hv.has ht b').mpr hb
      refine ⟨fun h => absurd htouched h, fun _ => ?_, fun _ b' => ?_, fun _ hst => ?_,
        fun b' hb slot' hs => ?_⟩
      · simpa [Pass.setInfo] using hv.live ht
      · simp [Pass.setInfo, hm, hnone]
      · simp [Pass.setInfo] at hst
      · have hbb : b = b' := (hb b).mp ((hm b).mpr (.inr rfl))
        exact hbb ▸ if_pos (by simpa [Pass.setInfo] using (hpending slot').mpr ((hf slot').mp hs))
    · refine (h.known v').frame (hother v' heq) (Function.update_of_ne heq ..) rfl (fun _ h => h)
        fun slot' hs => if_neg ?_
      simpa [Pass.setInfo, hpending] using fun hs' => heq (hs.unique hE hs')
  case neg =>
    -- one more bank is demanded of a value whose slots are filled
    have ht := hv.touched (not_not.mp hepoch)
    refine ⟨h.pos, hlisted, fun v' => ?_⟩
    by_cases heq : v' = v
    · subst heq
      refine ⟨fun h => absurd htouched h, fun _ => ?_, fun _ b' => ?_, fun _ hst => ?_,
        fun b' hb slot' hs => ?_⟩
      · simpa [Pass.setInfo] using hv.live ht
      · simp [Pass.setInfo, hm, hv.has ht]
      · simp [Pass.setInfo] at hst
      · -- some bank was demanded before, and it can only be this one
        obtain ⟨b₀, hb₀⟩ := State.exists_has hstate
        have hold : ∀ b₁, Mandatory E v' b₁ → b₁ = b' := fun b₁ h =>
          (hb b₁).mp ((hm b₁).mpr (.inl h))
        have hmand := (hv.has ht b₀).mp hb₀
        refine hv.decided b' (fun b₁ => ⟨hold b₁, ?_⟩) slot' ((hf slot').mp hs)
        rintro rfl
        exact hold b₀ hmand ▸ hmand
    · exact (h.known v').frame (hother v' heq) (Function.update_of_ne heq ..) rfl (fun _ h => h)
        fun _ _ => rfl

/-- The first request about a value in an epoch leaves its bank open. -/
theorem EpochInv.openBank (h : EpochInv E s) {slot : Slot} (hr : r.IsFlexible v slot)
    (hnew : ¬ Touched E v) (hm : ∀ v b, Mandatory (E ++ [r]) v b ↔ Mandatory E v b)
    (preferenceCount : BitVec 16) :
    EpochInv (E ++ [r]) { s.setInfo v ⟨s.epoch, .undecided, preferenceCount, [slot]⟩ with
      allPendingInfo := s.allPendingInfo ++ [v] } := by
  have htouched : Touched (E ++ [r]) v := touched_append.mpr (.inr hr.value.1)
  refine ⟨h.pos, fun v' hv' => ?_, fun v' => ?_⟩
  · rcases List.mem_append.mp hv' with hv' | hv'
    · exact touched_append.mpr (.inl (h.listed v' hv'))
    · exact List.mem_singleton.mp hv' ▸ htouched
  by_cases heq : v' = v
  · subst heq
    have hnone (b : Bool) : ¬ Mandatory (E ++ [r]) v' b := fun hb =>
      hnew ((hm v' b).mp hb).touched
    have hf (slot' : Slot) : Flexible (E ++ [r]) v' slot' ↔ slot' = slot := by
      refine flexible_append.trans ⟨fun hs => ?_, fun hs => .inr (hs ▸ hr)⟩
      rcases hs with hs | hs
      · exact absurd hs.touched hnew
      · exact Option.some.inj (hs.value.2.symm.trans hr.value.2)
    refine ⟨fun h => absurd htouched h, fun _ => ?_, fun _ b => ?_,
      fun _ _ => ⟨?_, fun slot' => ?_⟩, fun b hb => absurd ((hb b).mpr rfl) (hnone b)⟩
    · simp [Pass.setInfo]
    · simp [Pass.setInfo, hnone]
    · simp
    · simp [Pass.setInfo, hf]
  · refine (h.known v').frame ?_ (Function.update_of_ne heq ..) rfl
      (fun _ h => List.mem_append_left _ h) fun _ _ => rfl
    exact fun hv' => heq (Option.some.inj (hv'.symm.trans hr.value.1))

theorem EpochInv.flexible (h : EpochInv E s) {slot : Slot} {prefersGPR : Bool}
    (hbefore : ∀ r ∈ E, r.Before (.flexible v slot prefersGPR)) :
    EpochInv (E ++ [.flexible v slot prefersGPR]) (s.processUndecidedUse v slot prefersGPR) := by
  have hr : (Request.flexible v slot prefersGPR).IsFlexible v slot := .use
  have hm (v' : Value) (b : Bool) :
      Mandatory (E ++ [.flexible v slot prefersGPR]) v' b ↔ Mandatory E v' b :=
    mandatory_append.trans (or_iff_left nofun)
  have hother : ∀ v' ≠ v, (Request.flexible v slot prefersGPR).value? ≠ some v' := fun v' hne heq =>
    hne (Option.some.inj heq).symm
  have hlisted : ∀ v' ∈ s.allPendingInfo, Touched (E ++ [.flexible v slot prefersGPR]) v' :=
    fun v' hv' => touched_append.mpr (.inl (h.listed v' hv'))
  have hv := h.known v
  rw [Pass.processUndecidedUse]
  split_ifs with hepoch hstate
  case pos => exact h.openBank hr (hv.not_touched hepoch) hm _
  case pos =>
    have ht := hv.touched (not_not.mp hepoch)
    obtain ⟨hin, hpending⟩ := hv.pending ht hstate
    refine ⟨h.pos, hlisted, fun v' => ?_⟩
    by_cases heq : v' = v
    · subst heq
      have hnone (b : Bool) : ¬ Mandatory E v' b := fun hb => by
        simpa [hstate] using (hv.has ht b).mpr hb
      have htouched : Touched (E ++ [.flexible v' slot prefersGPR]) v' :=
        touched_append.mpr (.inl ht)
      refine ⟨fun h => absurd htouched h, fun _ => ?_, fun _ b => ?_,
        fun _ _ => ⟨hin, fun slot' => ?_⟩,
        fun b hb => absurd ((hm v' b).mp ((hb b).mpr rfl)) (hnone b)⟩
      · simpa [Pass.setInfo] using hv.live ht
      · simp [Pass.setInfo, hm, hnone, hstate]
      · have hs : (Request.flexible v' slot prefersGPR).IsFlexible v' slot' ↔ slot' = slot :=
          ⟨fun hs => (Option.some.inj hs.value.2).symm, fun hs => hs ▸ hr⟩
        simp [Pass.setInfo, flexible_append, hpending, hs, or_comm]
    · exact (h.known v').frame (hother v' heq) (Function.update_of_ne heq ..) rfl (fun _ h => h)
        fun _ _ => rfl
  case neg =>
    -- the value is in a register already
    have ht := hv.touched (not_not.mp hepoch)
    have hslot (v' : Value) (slot' : Slot) (hs : Flexible E v' slot') : slot' ≠ slot :=
      hs.slot_ne hbefore rfl
    refine ⟨h.pos, hlisted, fun v' => ?_⟩
    by_cases heq : v' = v
    · subst heq
      refine ⟨fun h => absurd (touched_append.mpr (.inl ht)) h, fun _ => hv.live ht, fun _ b => ?_,
        fun _ hst => absurd hst hstate, fun b hb slot' hs => ?_⟩
      · exact (hv.has ht b).trans (hm v' b).symm
      · have hb' : ∀ b', Mandatory E v' b' ↔ b' = b := fun b' => (hm v' b').symm.trans (hb b')
        rcases flexible_append.mp hs with hs | hs
        · exact (Function.update_of_ne (hslot v' slot' hs) ..).trans (hv.decided b hb' slot' hs)
        · obtain rfl := Option.some.inj hs.value.2
          refine (Function.update_self ..).trans (State.use_eq (fun b' => ?_) prefersGPR)
          exact (hv.has ht b').trans (hb' b')
    · exact (h.known v').frame (hother v' heq) rfl rfl (fun _ h => h)
        fun slot' hs => Function.update_of_ne (hslot v' slot' hs) ..

theorem EpochInv.output (h : EpochInv E s) {n : ℕ} {prefersGPR : Bool}
    (hbefore : ∀ r ∈ E, r.Before (.output n prefersGPR)) :
    EpochInv (E ++ [.output n prefersGPR]) (s.processUndecidedOutput n prefersGPR) := by
  refine h.openBank .output ?_ (fun _ _ => mandatory_append.trans (or_iff_left nofun)) _
  rintro ⟨r, hr, hv⟩
  exact (hbefore r hr).2 n rfl (n, 0) hv rfl

theorem EpochInv.allocate (h : EpochInv E s) (g : Graph) {n : ℕ}
    (hbefore : ∀ r ∈ E, r.Before (.allocate n)) :
    EpochInv (E ++ [.allocate n]) (allocateInfo g s n) := by
  refine ⟨h.pos, fun v hv => touched_append.mpr (.inl (h.listed v hv)), fun v => ?_⟩
  have hinfo : v.1 ≠ n → (allocateInfo g s n).info v = s.info v := fun hne =>
    if_neg fun h => hne h.1
  by_cases ht : Touched E v
  · refine (h.known v).frame nofun (hinfo ?_) rfl (fun _ h => h) fun _ _ => rfl
    obtain ⟨r, hr, hv⟩ := ht
    exact (hbefore r hr).2 n rfl v hv
  · have ht' : ¬ Touched (E ++ [.allocate n]) v := fun h =>
      ht ((touched_append.mp h).resolve_right nofun)
    refine ⟨fun _ => ?_, fun h => absurd h ht', fun h => absurd h ht', fun h => absurd h ht',
      fun _ _ _ h => absurd h.touched ht'⟩
    simp only [allocateInfo]
    split_ifs
    · exact h.pos
    · exact (h.known v).new ht

/-- **Step lemma**: within an epoch. -/
theorem EpochInv.step (h : EpochInv E s) (g : Graph) (hE : (E ++ [r]).Pairwise Request.Before)
    (hr : r ≠ .flush) : EpochInv (E ++ [r]) (step g s r) := by
  obtain ⟨hpair, -, hbefore⟩ := List.pairwise_append.mp hE
  replace hbefore : ∀ r' ∈ E, r'.Before r := fun r' hr' => hbefore r' hr' r (.head _)
  cases r with
  | allocate n => exact h.allocate g hbefore
  | mandatory v slot b =>
    cases slot with
    | none => exact h.mandatory hpair none b
    | some slot =>
      exact (h.setUseGPR b fun v slot' hs => hs.slot_ne hbefore rfl).mandatory hpair (some slot) b
  | flexible v slot prefersGPR => exact h.flexible hbefore
  | output n prefersGPR => exact h.output hbefore
  | flush => exact absurd rfl hr

/-- **Run lemma**: within an epoch. -/
theorem EpochInv.run (g : Graph) {requests : List Request} (h : EpochInv E s)
    (hE : (E ++ requests).Pairwise Request.Before) (hflush : Request.flush ∉ requests) :
    EpochInv (E ++ requests) (requests.foldl (RegBank.step g) s) := by
  induction requests generalizing E s with
  | nil => simpa using h
  | cons r requests ih =>
    rw [← List.singleton_append, ← List.append_assoc] at hE ⊢
    have hstep := h.step g (List.pairwise_append.mp hE).1 fun heq => hflush (heq ▸ .head _)
    exact ih hstep hE fun hin => hflush (.tail _ hin)

/-- **The flush** decides the values of which no bank was demanded. -/
theorem EpochInv.flush (h : EpochInv E s) (hE : E.Pairwise Request.Before)
    (hone : ∀ b b', Mandatory E v b → Mandatory E v b' → b = b') :
    ∃ b, (∀ b', Mandatory E v b' → b' = b) ∧
      ∀ slot, Flexible E v slot → s.finishUpAndAdvanceToNextEpoch.useGPR slot = b := by
  obtain ⟨useGPR, heq, hstay, hset⟩ := Pass.foldl_finalize s s.allPendingInfo
  rw [Pass.finishUpAndAdvanceToNextEpoch, heq]
  -- what waits in an info waits for the value of the info
  have hwaits : ∀ v ∈ s.allPendingInfo, ∀ slot, s.Waits v slot → Flexible E v slot :=
    fun v hv slot hw => (((h.known v).pending (h.listed v hv) hw.1).2 slot).mp hw.2
  by_cases hmand : ∃ b, Mandatory E v b
  · obtain ⟨b, hb⟩ := hmand
    have hb' : ∀ b', Mandatory E v b' ↔ b' = b := fun b' =>
      ⟨fun h => hone b' b h hb, fun h => h ▸ hb⟩
    refine ⟨b, fun b' => (hb' b').mp, fun slot hs => ?_⟩
    refine (hstay slot fun v' hv' hw => ?_).trans ((h.known v).decided b hb' slot hs)
    obtain rfl := (hwaits v' hv' slot hw).unique hE hs
    simpa [hw.1] using ((h.known v').has hs.touched b).mpr hb
  · refine ⟨decide (0 ≤ (s.info v).preferenceCount.toInt), fun b hb => absurd ⟨b, hb⟩ hmand,
      fun slot hs => ?_⟩
    have hstate : (s.info v).state = .undecided := by
      by_contra hne
      obtain ⟨b, hb⟩ := State.exists_has hne
      exact hmand ⟨b, ((h.known v).has hs.touched b).mp hb⟩
    obtain ⟨hin, hpending⟩ := (h.known v).pending hs.touched hstate
    exact hset slot v hin ⟨hstate, (hpending slot).mpr hs⟩ fun v' hv' hw =>
      (hwaits v' hv' slot hw).unique hE hs

/-- After a flush nothing is known. -/
theorem EpochInv.next_epoch (h : EpochInv E s) : EpochInv [] s.finishUpAndAdvanceToNextEpoch := by
  obtain ⟨useGPR, heq, -⟩ := Pass.foldl_finalize s s.allPendingInfo
  rw [Pass.finishUpAndAdvanceToNextEpoch, heq]
  have hnone (v : Value) : ¬ Touched [] v := fun ⟨_, hr, _⟩ => absurd hr List.not_mem_nil
  refine ⟨Nat.succ_pos _, fun _ h => absurd h List.not_mem_nil, fun v =>
    ⟨fun _ => ?_, fun h => absurd h (hnone v), fun h => absurd h (hnone v),
      fun h => absurd h (hnone v), fun _ _ _ h => absurd h.touched (hnone v)⟩⟩
  by_cases ht : Touched E v
  · exact Nat.lt_succ_of_le (Nat.le_of_eq ((h.known v).live ht))
  · exact Nat.lt_succ_of_lt ((h.known v).new ht)

/-- **Run lemma**: through any number of epochs. -/
theorem EpochInv.run_epochs (g : Graph) {requests : List Request} (h : EpochInv E s)
    (hE : (E ++ requests).Pairwise Request.Before) :
    ∃ E', EpochInv E' (requests.foldl (RegBank.step g) s) := by
  induction requests generalizing E s with
  | nil => exact ⟨E, h⟩
  | cons r requests ih =>
    by_cases hr : r = .flush
    · subst hr
      exact ih h.next_epoch (List.pairwise_append.mp hE).2.1.of_cons
    · rw [← List.singleton_append, ← List.append_assoc] at hE
      exact ih (h.step g (List.pairwise_append.mp hE).1 hr) hE

end Known

/-- Nothing is known at the start. -/
theorem start_epochInv (useGPR : Slot → Bool) : EpochInv [] (start useGPR) := by
  have hnone (v : Value) : ¬ Touched [] v := fun ⟨_, hr, _⟩ => absurd hr List.not_mem_nil
  exact ⟨Nat.one_pos, fun _ h => absurd h List.not_mem_nil, fun v =>
    ⟨fun _ => Nat.one_pos, fun h => absurd h (hnone v), fun h => absurd h (hnone v),
      fun h => absurd h (hnone v), fun _ _ _ h => absurd h.touched (hnone v)⟩⟩

/-- **One bank in an epoch**: if one bank can serve all demands of an epoch, all slots of the value
that are open in the epoch hold it in the end. -/
theorem useGPR_of_epoch (g : Graph) {requests E : List Request} (useGPR : Slot → Bool)
    (hbefore : requests.Pairwise Request.Before) (hepoch : IsEpoch E requests) {v : Value}
    (hone : ∀ b b', Mandatory E v b → Mandatory E v b' → b = b') :
    ∃ b, (∀ b', Mandatory E v b' → b' = b) ∧
      ∀ slot, Flexible E v slot →
        (requests.foldl (step g) (start useGPR)).useGPR slot = b := by
  obtain ⟨first, last, rfl, hfirst, hflush⟩ := hepoch
  obtain ⟨hpair, hlast, hcross⟩ := List.pairwise_append.mp hbefore
  have hbegin : EpochInv [] (first.foldl (step g) (start useGPR)) := by
    rcases hfirst with rfl | ⟨first, rfl⟩
    · exact start_epochInv useGPR
    · have hpair' := (List.pairwise_append.mp (List.pairwise_append.mp hpair).1).1
      obtain ⟨E', h⟩ := (start_epochInv useGPR).run_epochs g hpair'
      rw [List.foldl_append]
      exact h.next_epoch
  have hpairE := (List.pairwise_append.mp hpair).2.1
  have hend := hbegin.run g hpairE hflush
  obtain ⟨b, hb, hbits⟩ := hend.flush hpairE hone
  refine ⟨b, hb, fun slot hs => ?_⟩
  rw [List.foldl_append, List.foldl_append, List.foldl_cons]
  refine Eq.trans ?_ (hbits slot hs)
  -- the requests after the flush decide other slots
  refine ((Pass.Settled.of_flush fun v => ?_).run g fun r hr hslot => ?_).2
  · by_cases ht : Touched ([] ++ E) v
    · exact Nat.le_of_eq ((hend.known v).live ht)
    · exact Nat.le_of_lt ((hend.known v).new ht)
  · obtain ⟨r', hr', hv⟩ := hs
    exact (hcross r' (List.mem_append_right _ hr') r (.tail _ hr)).1 slot hv.value.2 hslot

/-! ## The requests of a graph

In a well-formed graph no slot is asked for twice. -/

/-- What the pass asserts of the number of the inputs of a node. -/
def Node.Fits (tables : Tables) (node : Node) : Prop :=
  match node.kind with
  | .standard kind =>
    (tables.codegenInfoForBuiltinNodeKind kind).numOperandsForRA = node.numInputs
  | .guest bcKind dfgVariantOrd =>
    tables.bytecodeNumFixedSSAOperands bcKind ≤ node.numInputs ∧
      ∀ info ∈ tables.codegenInfoForDfgVariant bcKind dfgVariantOrd,
        info.numOperandsForRA = tables.bytecodeNumFixedSSAOperands bcKind
  | _ => True

/-- What the validator of the graph checks: a node is in the graph once, and its operands are
constants or come before it in its block. -/
structure Graph.WellFormed (tables : Tables) (g : Graph) : Prop where
  nodup : g.blocks.flatten.Nodup
  apart : ∀ n ∈ g.blocks.flatten, n ∉ g.constantLikeNodes
  defined : ∀ block ∈ g.blocks, ∀ before n after, block = before ++ n :: after →
    ∀ i < (g.node n).numInputs, ((g.node n).inputEdge i).operand ∈ before ∨
      ((g.node n).inputEdge i).operand ∈ g.constantLikeNodes
  fits : ∀ n ∈ g.blocks.flatten, (g.node n).Fits tables

/-- The traits of a node with register allocation that one generated function implements. -/
def variantOf (tables : Tables) (g : Graph) (n : ℕ) : Option VariantTraits :=
  match (g.node n).kind with
  | .standard kind => some (tables.codegenInfoForBuiltinNodeKind kind)
  | .guest bcKind dfgVariantOrd => tables.codegenInfoForDfgVariant bcKind dfgVariantOrd
  | _ => none

section Requests

variable {tables : Tables} {g : Graph} {n : ℕ} {r r' : Request}

/-- The requests of a node after the first. -/
inductive Concerns (g : Graph) (n : ℕ) : Request → Prop
  | flush : Concerns g n .flush
  | input {r : Request} (i : ℕ) (hi : i < (g.node n).numInputs)
    (hvalue : r.value? = some ((g.node n).inputEdge i).value)
    (hslot : ∀ slot ∈ r.slot?, slot = .edge n i) (hdefines : r.defines? = none) : Concerns g n r
  | output {r : Request} (hvalue : r.value? = some (n, 0)) (hslot : r.slot? = some (.output n))
    (hdefines : ∀ m ∈ r.defines?, m = n) : Concerns g n r

theorem Concerns.mustUse {i : ℕ} (hi : i < (g.node n).numInputs) (useGPR : Bool) :
    Concerns g n (mustUse g n useGPR i) :=
  .input i hi rfl (fun _ h => (Option.some.inj h).symm) rfl

theorem Concerns.mayUse {i : ℕ} (hi : i < (g.node n).numInputs) : Concerns g n (mayUse g n i) :=
  .input i hi rfl (fun _ h => (Option.some.inj h).symm) rfl

theorem Concerns.operandRequest {i : ℕ} (hi : i < (g.node n).numInputs)
    (pref : OperandRegBankPref) : Concerns g n (operandRequest g n pref i) := by
  rw [RegBank.operandRequest]
  split
  · exact .input i hi rfl (fun _ h => (Option.some.inj h).symm) rfl
  · exact .mustUse hi _

theorem Concerns.outputRequest (pref : OperandRegBankPref) :
    Concerns g n (outputRequest n pref) := by
  rw [RegBank.outputRequest]
  split
  · exact .output rfl rfl fun _ h => (Option.some.inj h).symm
  · exact .output rfl rfl (by rintro _ ⟨⟩)

theorem slot?_operandRequest (pref : OperandRegBankPref) (i : ℕ) :
    (operandRequest g n pref i).slot? = some (.edge n i) := by
  rw [operandRequest]
  split <;> rfl

theorem slot?_outputRequest (pref : OperandRegBankPref) :
    (outputRequest n pref).slot? = some (.output n) := by
  rw [outputRequest]
  split <;> rfl

/-- The inputs from some index on. -/
theorem mem_inputsFrom {first i : ℕ} :
    i ∈ inputsFrom g n first ↔ first ≤ i ∧ i < (g.node n).numInputs := by
  rw [inputsFrom, List.mem_range'_1]
  omega

/-- The requests of a variant that uses inputs of the node. -/
theorem concerns_variantRequests {info : VariantTraits} {numOperands : ℕ}
    (hle : numOperands ≤ (g.node n).numInputs) :
    ∀ r ∈ variantRequests g n info numOperands, Concerns g n r := by
  intro r hr
  rcases List.mem_append.mp hr with hr | hr
  · obtain ⟨pref, -, rfl⟩ := List.mem_map.mp hr
    exact .outputRequest pref
  · obtain ⟨i, hi, rfl⟩ := List.mem_map.mp hr
    exact .operandRequest (Nat.lt_of_lt_of_le (List.mem_range.mp hi) hle) _

theorem concerns_uses {first : ℕ} (p : ℕ → Prop) [DecidablePred p] :
    ∀ r ∈ (inputsFrom g n first).map (fun i => if p i then mustUse g n true i else mayUse g n i),
      Concerns g n r := by
  intro r hr
  obtain ⟨i, hi, rfl⟩ := List.mem_map.mp hr
  split_ifs
  · exact .mustUse (mem_inputsFrom.mp hi).2 true
  · exact .mayUse (mem_inputsFrom.mp hi).2

theorem concerns_mayUse {first : ℕ} :
    ∀ r ∈ (inputsFrom g n first).map (mayUse g n), Concerns g n r := by
  intro r hr
  obtain ⟨i, hi, rfl⟩ := List.mem_map.mp hr
  exact .mayUse (mem_inputsFrom.mp hi).2

/-- The requests of a node concern its inputs and its output. -/
theorem concerns_bodyRequests (hfits : (g.node n).Fits tables) :
    ∀ r ∈ bodyRequests tables g n, Concerns g n r := by
  intro r hr
  rw [Node.Fits] at hfits
  rw [bodyRequests] at hr
  cases hkind : (g.node n).kind <;> simp only [hkind] at hr hfits
  case standard kind => exact concerns_variantRequests (Nat.le_of_eq hfits) r hr
  case nop | shadowStore | shadowStoreUndefToRange | phantom => exact absurd hr List.not_mem_nil
  case createVariadicRes => exact concerns_uses _ r hr
  case prependVariadicRes => exact concerns_mayUse r hr
  case createFunctionObject =>
    rcases List.mem_append.mp hr with hr | hr
    · rcases List.mem_cons.mp hr with rfl | hr
      · exact .flush
      · exact concerns_uses _ r hr
    · exact List.mem_singleton.mp hr ▸ .output rfl rfl (by rintro _ ⟨⟩)
  case ret =>
    rcases List.mem_append.mp hr with hr | hr
    · exact concerns_mayUse r hr
    · exact List.mem_singleton.mp hr ▸ .flush
  case guest bcKind dfgVariantOrd =>
    rcases List.mem_append.mp hr with hr | hr
    · exact concerns_mayUse r hr
    · cases hinfo : tables.codegenInfoForDfgVariant bcKind dfgVariantOrd <;>
        simp only [hinfo] at hr
      · exact List.mem_singleton.mp hr ▸ .flush
      · exact concerns_variantRequests hfits.1 r hr

/-- The requests of a node after its infos are there. -/
theorem concerns_checks_body (hfits : (g.node n).Fits tables) :
    ∀ r ∈ (inputsFrom g n 0).filterMap (checkRequest tables g n) ++ bodyRequests tables g n,
      Concerns g n r := by
  intro r hr
  rcases List.mem_append.mp hr with hr | hr
  · obtain ⟨i, hi, hcheck⟩ := List.mem_filterMap.mp hr
    simp only [checkRequest] at hcheck
    split_ifs at hcheck
    obtain rfl := Option.some.inj hcheck
    exact .input i (mem_inputsFrom.mp hi).2 rfl (by rintro _ ⟨⟩) rfl
  · exact concerns_bodyRequests hfits r hr

/-! ### The slots of a node -/

theorem slots_map {f : ℕ → Request} (hf : ∀ i, (f i).slot? = some (.edge n i)) (is : List ℕ) :
    (is.map f).filterMap Request.slot? = is.map (.edge n) := by
  rw [List.filterMap_map, ← List.filterMap_eq_map]
  exact congrArg (List.filterMap · is) (funext hf)

/-- The slots that a variant asks for. -/
theorem slots_variantRequests (info : VariantTraits) (numOperands : ℕ) :
    (variantRequests g n info numOperands).filterMap Request.slot?
      = (info.output.toList.map fun _ => .output n) ++ (List.range numOperands).map (.edge n) := by
  rw [variantRequests, List.filterMap_append, slots_map fun i => slot?_operandRequest _ i]
  cases info.output with
  | none => rfl
  | some pref => simp [slot?_outputRequest]

theorem nodup_edges {is : List ℕ} (his : is.Nodup) : (is.map (Slot.edge n)).Nodup :=
  his.map fun _ _ h => (Slot.edge.inj h).2

theorem nodup_inputsFrom {first : ℕ} : (inputsFrom g n first).Nodup := List.nodup_range'

/-- An output, if there is one, and inputs. -/
theorem nodup_output_edges {α : Type} (output : Option α) {is : List ℕ} (his : is.Nodup) :
    ((output.toList.map fun _ => Slot.output n) ++ is.map (Slot.edge n)).Nodup := by
  cases output with
  | none => exact nodup_edges his
  | some _ => simpa using nodup_edges his

/-- No slot of a node has two requests. -/
theorem slots_bodyRequests : ((bodyRequests tables g n).filterMap Request.slot?).Nodup := by
  have huses (p : ℕ → Prop) [DecidablePred p] (first : ℕ) :
      ((inputsFrom g n first).map
        (fun i => if p i then mustUse g n true i else mayUse g n i)).filterMap Request.slot?
        = (inputsFrom g n first).map (.edge n) :=
    slots_map (fun i => by split_ifs <;> rfl) _
  have hmay (first : ℕ) : ((inputsFrom g n first).map (mayUse g n)).filterMap Request.slot?
      = (inputsFrom g n first).map (.edge n) := slots_map (fun i => rfl) _
  have hflush : [Request.flush].filterMap Request.slot? = [] := rfl
  have hedges (first : ℕ) : ((inputsFrom g n first).map (Slot.edge n)).Nodup :=
    nodup_edges nodup_inputsFrom
  rw [bodyRequests]
  cases (g.node n).kind <;> dsimp only
  case standard kind =>
    rw [slots_variantRequests]
    exact nodup_output_edges _ List.nodup_range
  case nop | shadowStore | shadowStoreUndefToRange | phantom => exact List.nodup_nil
  case createVariadicRes => exact huses (· = 0) 0 ▸ hedges 0
  case prependVariadicRes => exact hmay 0 ▸ hedges 0
  case createFunctionObject =>
    rw [List.cons_append, List.filterMap_cons, List.filterMap_append, huses]
    simpa [Request.slot?, List.nodup_append] using hedges 0
  case ret =>
    rw [List.filterMap_append, hmay, hflush, List.append_nil]
    exact hedges 0
  case guest bcKind dfgVariantOrd =>
    rw [List.filterMap_append, hmay]
    cases tables.codegenInfoForDfgVariant bcKind dfgVariantOrd with
    | none => exact (List.append_nil _).symm ▸ hedges _
    | some info =>
      rw [slots_variantRequests]
      -- the range operands are the inputs that the variant does not use
      refine List.nodup_append.mpr ⟨hedges _, nodup_output_edges _ List.nodup_range, ?_⟩
      rintro slot hslot slot' hslot' rfl
      obtain ⟨i, hi, rfl⟩ := List.mem_map.mp hslot
      have := (mem_inputsFrom.mp hi).1
      rcases List.mem_append.mp hslot' with h | h
      · obtain ⟨_, -, h⟩ := List.mem_map.mp h
        exact Slot.noConfusion h
      · obtain ⟨j, hj, h⟩ := List.mem_map.mp h
        have := List.mem_range.mp hj
        have := (Slot.edge.inj h).2
        omega

/-! ### What comes before what -/

/-- The node that a slot belongs to. -/
def Slot.node : Slot → ℕ
  | .edge n _ => n
  | .output n => n

/-- What a request of a node decides, starts anew and asks about. -/
theorem nodeRequests_spec (hfits : (g.node n).Fits tables) (hr : r ∈ nodeRequests tables g n) :
    (∀ slot ∈ r.slot?, slot.node = n) ∧ (∀ m ∈ r.defines?, m = n) ∧
      ∀ v ∈ r.value?, v.1 = n ∨
        ∃ i < (g.node n).numInputs, v.1 = ((g.node n).inputEdge i).operand := by
  rcases List.mem_cons.mp hr with rfl | hr
  · exact ⟨nofun, fun _ h => (Option.some.inj h).symm, nofun⟩
  cases concerns_checks_body hfits r hr with
  | flush => exact ⟨nofun, nofun, nofun⟩
  | input i hi hvalue hslot hdefines =>
    refine ⟨fun slot hs => hslot slot hs ▸ rfl, fun m hm => ?_, fun v hv => .inr ⟨i, hi, ?_⟩⟩
    · simp [hdefines] at hm
    · exact congrArg Prod.fst (Option.some.inj (hv.symm.trans hvalue))
  | output hvalue hslot hdefines =>
    refine ⟨fun slot hs => ?_, hdefines, fun v hv => .inl ?_⟩
    · exact congrArg Slot.node (Option.some.inj (hs.symm.trans hslot))
    · exact congrArg Prod.fst (Option.some.inj (hv.symm.trans hvalue))

/-- The requests of two nodes, of which the first does not use the second. -/
theorem before_of_apart {n' : ℕ} (hfits : (g.node n).Fits tables)
    (hfits' : (g.node n').Fits tables) (hne : n ≠ n')
    (hop : ∀ i < (g.node n).numInputs, ((g.node n).inputEdge i).operand ≠ n')
    (hr : r ∈ nodeRequests tables g n) (hr' : r' ∈ nodeRequests tables g n') : r.Before r' := by
  obtain ⟨hslot, -, hvalue⟩ := nodeRequests_spec hfits hr
  obtain ⟨hslot', hdefines, -⟩ := nodeRequests_spec hfits' hr'
  refine ⟨fun slot hs hs' => ?_, fun m hm v hv => ?_⟩
  · exact hne ((hslot slot hs).symm.trans (hslot' slot hs'))
  rw [hdefines m hm]
  rcases hvalue v hv with h | ⟨i, hi, h⟩
  · exact h ▸ hne
  · exact h ▸ hop i hi

/-- The requests of one node. -/
theorem pairwise_nodeRequests (hfits : (g.node n).Fits tables)
    (hop : ∀ i < (g.node n).numInputs, ((g.node n).inputEdge i).operand ≠ n) :
    (nodeRequests tables g n).Pairwise Request.Before := by
  refine List.Pairwise.cons (fun _ _ => ⟨by rintro _ ⟨⟩, by rintro _ _ _ ⟨⟩⟩) ?_
  have hchecks : ((inputsFrom g n 0).filterMap (checkRequest tables g n)).filterMap Request.slot?
      = [] := by
    refine List.filterMap_eq_nil_iff.mpr fun r hr => ?_
    obtain ⟨i, -, hcheck⟩ := List.mem_filterMap.mp hr
    simp only [checkRequest] at hcheck
    split_ifs at hcheck
    exact (Option.some.inj hcheck) ▸ rfl
  have hnodup : (((inputsFrom g n 0).filterMap (checkRequest tables g n)
      ++ bodyRequests tables g n).filterMap Request.slot?).Nodup := by
    rw [List.filterMap_append, hchecks]
    exact slots_bodyRequests
  refine (List.pairwise_filterMap.mp hnodup).imp_of_mem fun {r r'} hr hr' hapart => ?_
  refine ⟨fun slot hs hs' => hapart slot hs slot hs' rfl, fun m hm v hv heq => ?_⟩
  -- what starts the infos of the node anew is its output, and that is decided once
  cases concerns_checks_body hfits r' hr' with
  | flush => cases hm
  | input _ _ _ _ hdefines => simp [hdefines] at hm
  | output _ hslot' hdefines =>
    obtain rfl := hdefines m hm
    cases concerns_checks_body hfits r hr with
    | flush => cases hv
    | input i hi hvalue _ _ =>
      exact hop i hi ((congrArg Prod.fst (Option.some.inj (hv.symm.trans hvalue))).symm.trans heq)
    | output _ hslot _ => exact hapart _ hslot _ hslot' rfl

/-- What holds behind every element holds of all pairs. -/
theorem pairwise_of_split {R : ℕ → ℕ → Prop} {l : List ℕ}
    (h : ∀ before n after, l = before ++ n :: after → ∀ n' ∈ after, R n n') : l.Pairwise R := by
  induction l with
  | nil => exact .nil
  | cons n l ih =>
    refine .cons (h [] n l rfl) (ih fun before m after heq => h (n :: before) m after ?_)
    rw [heq, List.cons_append]

theorem before_flush : r.Before .flush := ⟨fun _ _ => nofun, nofun⟩

theorem flush_before : Request.flush.Before r := ⟨nofun, fun _ _ => nofun⟩

variable (h : g.WellFormed tables)

include h in
/-- A node of a block does not use itself nor what comes after it. -/
theorem Graph.WellFormed.operand_ne {block before after : List ℕ} (hblock : block ∈ g.blocks)
    (heq : block = before ++ n :: after) {n' : ℕ} (hn' : n' ∈ n :: after) :
    ∀ i < (g.node n).numInputs, ((g.node n).inputEdge i).operand ≠ n' := by
  rintro i hi rfl
  have hnodup := (List.nodup_flatten.mp h.nodup).1 block hblock
  rw [heq] at hnodup
  rcases h.defined block hblock before n after heq i hi with hbefore | hconstant
  · exact (List.nodup_append.mp hnodup).2.2 _ hbefore _ hn' rfl
  · refine h.apart _ (List.mem_flatten_of_mem hblock ?_) hconstant
    exact heq ▸ List.mem_append_right _ hn'

include h in
/-- In a block no request disturbs an earlier one. -/
theorem pairwise_blockRequests {block : List ℕ} (hblock : block ∈ g.blocks) :
    (blockRequests tables g block).Pairwise Request.Before := by
  have hfits : ∀ n ∈ block, (g.node n).Fits tables := fun n hn =>
    h.fits n (List.mem_flatten_of_mem hblock hn)
  refine List.pairwise_append.mpr ⟨List.pairwise_flatMap.mpr ⟨fun n hn => ?_, ?_⟩,
    List.pairwise_singleton _ _, fun r _ r' hr' => List.mem_singleton.mp hr' ▸ before_flush⟩
  · obtain ⟨before, after, heq⟩ := List.append_of_mem hn
    exact pairwise_nodeRequests (hfits n hn) (h.operand_ne hblock heq (.head _))
  · have hnodup := (List.nodup_flatten.mp h.nodup).1 block hblock
    refine pairwise_of_split fun before n after heq n' hn' r hr r' hr' => ?_
    have hn : n ∈ block := heq ▸ List.mem_append_right _ (.head _)
    have hn'' : n' ∈ block := heq ▸ List.mem_append_right _ (.tail _ hn')
    have hne : n ≠ n' := by
      rintro rfl
      rw [heq] at hnodup
      exact (List.nodup_cons.mp (List.nodup_append.mp hnodup).2.1).1 hn'
    exact before_of_apart (hfits n hn) (hfits n' hn'') hne
      (h.operand_ne hblock heq (.tail _ hn')) hr hr'

include h in
/-- The requests of a well-formed graph come in order. -/
theorem pairwise_requests : (requests tables g).Pairwise Request.Before := by
  refine List.pairwise_flatMap.mpr ⟨fun block => pairwise_blockRequests h, ?_⟩
  refine (List.nodup_flatten.mp h.nodup).2.imp_of_mem fun {block block'} hb hb' hdisj => ?_
  intro r hr r' hr'
  rcases List.mem_append.mp hr with hr | hr
  swap
  · exact List.mem_singleton.mp hr ▸ flush_before
  rcases List.mem_append.mp hr' with hr' | hr'
  swap
  · exact List.mem_singleton.mp hr' ▸ before_flush
  obtain ⟨n, hn, hr⟩ := List.mem_flatMap.mp hr
  obtain ⟨n', hn', hr'⟩ := List.mem_flatMap.mp hr'
  have hin := List.mem_flatten_of_mem hb hn
  have hin' := List.mem_flatten_of_mem hb' hn'
  have hne : n ≠ n' := by
    rintro rfl
    exact hdisj hn hn'
  refine before_of_apart (h.fits n hin) (h.fits n' hin') hne ?_ hr hr'
  rintro i hi rfl
  obtain ⟨before, after, heq⟩ := List.append_of_mem hn
  rcases h.defined block hb before n after heq i hi with hbefore | hconstant
  · exact hdisj (heq ▸ List.mem_append_left _ hbefore) hn'
  · exact h.apart _ hin' hconstant

end Requests

/-! ## The banks that the pass chooses

Every mandatory bank is respected, and a flexible slot follows the others of its value. -/

section Legal

variable {tables : Tables} {g : Graph} {n : ℕ}

theorem mem_requests {r : Request} (hn : n ∈ g.blocks.flatten)
    (hr : r ∈ bodyRequests tables g n) : r ∈ requests tables g := by
  obtain ⟨block, hblock, hn⟩ := List.mem_flatten.mp hn
  refine List.mem_flatMap.mpr ⟨block, hblock, List.mem_append_left _ ?_⟩
  exact List.mem_flatMap.mpr ⟨n, hn, .tail _ (List.mem_append_right _ hr)⟩

/-- The operands and the output of a variant are asked for. -/
theorem variantRequests_subset {info : VariantTraits} (hfits : (g.node n).Fits tables)
    (hinfo : info ∈ variantOf tables g n) :
    variantRequests g n info info.numOperandsForRA ⊆ bodyRequests tables g n := by
  rw [variantOf] at hinfo
  rw [Node.Fits] at hfits
  rw [bodyRequests]
  cases hkind : (g.node n).kind <;> simp only [hkind] at hinfo hfits
  case standard kind =>
    obtain rfl := Option.some.inj hinfo
    exact List.Subset.refl _
  case guest bcKind dfgVariantOrd =>
    intro r hr
    simp only [Option.mem_def.mp hinfo]
    exact List.mem_append_right _ (hfits.2 info hinfo ▸ hr)
  all_goals cases hinfo

/-- A slot that is asked for with a preference of the generated code holds a bank that it allows. -/
theorem allows_of_mem {pref : OperandRegBankPref} {useGPR : Slot → Bool} {r : Request} {v : Value}
    {slot : Slot} (h : g.WellFormed tables) (hr : r ∈ requests tables g)
    (hmust : ¬ pref.hasChoices = true → r = .mandatory v (some slot) pref.gprAllowed) :
    pref.Allows ((run tables g useGPR).useGPR slot) := by
  by_cases hchoices : pref.hasChoices = true
  · exact OperandRegBankPref.allows_of_hasChoices hchoices _
  · rw [run_eq, useGPR_of_mandatory g useGPR (pairwise_requests h) (hmust hchoices ▸ hr)]
    exact OperandRegBankPref.allows_gprAllowed

/-- **The banks are legal.**  The operands and the output of a node have a bank that its variant
allows, and a use that needs a bank has it.  In an epoch, if one bank can serve all that is demanded
of a value, then all uses of the value that can take either bank, and its output, have that bank. -/
theorem registerBanks_legal (h : g.WellFormed tables) (useGPR : Slot → Bool) :
    (∀ n ∈ g.blocks.flatten, ∀ info ∈ variantOf tables g n,
      (∀ pref ∈ info.output, pref.Allows ((run tables g useGPR).useGPR (.output n))) ∧
        ∀ i < info.numOperandsForRA,
          (info.operand i).Allows ((run tables g useGPR).useGPR (.edge n i))) ∧
    (∀ v slot mustUseGPR, .mandatory v (some slot) mustUseGPR ∈ requests tables g →
      (run tables g useGPR).useGPR slot = mustUseGPR) ∧
    ∀ E, IsEpoch E (requests tables g) → ∀ v,
      (∀ b b', Mandatory E v b → Mandatory E v b' → b = b') →
        ∃ b, (∀ b', Mandatory E v b' → b' = b) ∧
          ∀ slot, Flexible E v slot → (run tables g useGPR).useGPR slot = b := by
  have hbefore := pairwise_requests h
  refine ⟨fun n hn info hinfo => ⟨fun pref hpref => ?_, fun i hi => ?_⟩,
    fun v slot mustUseGPR hr => ?_, fun E hE v hone => ?_⟩
  · have hsub := variantRequests_subset (h.fits n hn) hinfo
    refine allows_of_mem (v := (n, 0)) h (r := outputRequest n pref) (mem_requests hn (hsub ?_))
      fun hno => if_neg hno
    exact List.mem_append_left _ (List.mem_map.mpr ⟨pref, Option.mem_toList.mpr hpref, rfl⟩)
  · have hsub := variantRequests_subset (h.fits n hn) hinfo
    refine allows_of_mem (v := ((g.node n).inputEdge i).value) h
      (r := operandRequest g n (info.operand i) i) (mem_requests hn (hsub ?_)) fun hno => if_neg hno
    exact List.mem_append_right _ (List.mem_map.mpr ⟨i, List.mem_range.mpr hi, rfl⟩)
  · rw [run_eq]
    exact useGPR_of_mandatory g useGPR hbefore hr
  · rw [run_eq]
    exact useGPR_of_epoch g useGPR hbefore hE hone

end Legal

/-- A load and a store may use either bank and prefer a general register; the only bytecode takes
its operand in a floating-point register. -/
def doubleTables : Tables where
  firstUnprovenUseKind := 4
  typeCheckOperand _ := ⟨true, false, false, rfl⟩
  codegenInfoForBuiltinNodeKind
    | .getLocal => ⟨0, fun _ => ⟨true, true, true, rfl⟩, some ⟨true, true, true, rfl⟩⟩
    | _ => ⟨1, fun _ => ⟨true, true, true, rfl⟩, none⟩
  bytecodeNumFixedSSAOperands _ := 1
  codegenInfoForDfgVariant _ _ := some ⟨1, fun _ => ⟨false, true, false, rfl⟩, none⟩

/-- A local is loaded and stored, and then the bytecode uses it. -/
def loadStoreUse : Graph where
  node
    | 0 => ⟨.standard .getLocal, 0, fun _ => ⟨0, 0, 0, true⟩, true, 0⟩
    | 1 => ⟨.standard .setLocal, 1, fun _ => ⟨0, 0, 0, true⟩, false, 0⟩
    | _ => ⟨.guest 0 0, 1, fun _ => ⟨0, 0, 0, true⟩, false, 0⟩
  blocks := [[0, 1, 2]]
  constantLikeNodes := []

example : (run doubleTables loadStoreUse fun _ => true).useGPR (.output 0) = false := by decide

theorem loadStoreUse_wellFormed : loadStoreUse.WellFormed doubleTables where
  nodup := by decide
  apart := by decide
  defined block hblock before n after heq i hi := by
    rw [List.mem_singleton.mp hblock] at heq
    -- every operand is the load, which comes first
    have hoperand : ((loadStoreUse.node n).inputEdge i).operand = 0 := by
      match n with
      | 0 | 1 | _ + 2 => rfl
    rw [hoperand]
    cases before with
    | nil =>
      obtain ⟨rfl, -⟩ := List.cons_eq_cons.mp heq
      exact absurd hi (Nat.not_lt_zero i)
    | cons first before =>
      obtain ⟨rfl, -⟩ := List.cons_eq_cons.mp heq
      exact .inl (.head _)
  fits n _ := by
    match n with
    | 0 | 1 => exact rfl
    | _ + 2 =>
      refine ⟨Nat.le_refl _, fun info hinfo => ?_⟩
      obtain rfl := Option.some.inj hinfo
      rfl

theorem registerBanks_legal_loadStoreUse :
    (run doubleTables loadStoreUse fun _ => true).useGPR (.output 0) = false ∧
      (run doubleTables loadStoreUse fun _ => true).useGPR (.edge 1 0) = false := by
  obtain ⟨-, -, hepoch⟩ := registerBanks_legal loadStoreUse_wellFormed fun _ => true
  let load : Request := .output 0 true
  let store : Request := .flexible (0, 0) (.edge 1 0) true
  let use : Request := .mandatory (0, 0) (some (.edge 2 0)) false
  have hE : IsEpoch [.allocate 0, load, .allocate 1, store, .allocate 2, use]
      (requests doubleTables loadStoreUse) :=
    ⟨[], [], rfl, .inl rfl, by simp [load, store, use]⟩
  obtain ⟨b, hb, hslots⟩ := hepoch _ hE (0, 0) (by simp [Mandatory, load, store, use])
  obtain rfl := hb false ⟨some (.edge 2 0), by simp [use]⟩
  exact ⟨hslots _ ⟨load, by simp, .output⟩, hslots _ ⟨store, by simp, .use⟩⟩

end RegBank

end Dsom
