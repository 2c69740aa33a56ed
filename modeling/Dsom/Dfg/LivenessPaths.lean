import Dsom.Dfg.Liveness
import Mathlib.Algebra.BigOperators.Group.Finset.Basic
import Mathlib.Algebra.Order.BigOperators.Group.Finset
import Mathlib.Data.Fintype.BigOperators
import Mathlib.Data.Fintype.Card

/-!
# Dfg/LivenessPaths — bytecode liveness is its path definition

The path definition knows bytecodes only (`LiveBefore`, `LiveAfter`).  The propagation is followed
through `Reached`, every state its loops pass through, and carries one invariant (`Inv`): the bits
set so far have a path that justifies them, and a block whose epochs are up to date has the tail its
successors ask for.  Heads only grow, which bounds the number of iterations.
-/

namespace Dsom

open Dataflow

variable {numLocals : ℕ}

namespace LivenessCfg

variable {g : LivenessCfg numLocals}

/-! ## The path definition

A local is live where a path leads to a use of it with no definition before. -/

/-- A bytecode of the graph. -/
@[ext]
structure Point (g : LivenessCfg numLocals) where
  bb : Fin g.numBBs
  idx : ℕ
  idx_lt : idx < (g.info bb).length

namespace Point

/-- Its bytecode index. -/
def index (p : Point g) : ℕ := g.firstBytecodeIndex p.bb + p.idx

/-- The locals it uses. -/
def uses (p : Point g) : List (Fin numLocals) := ((g.info p.bb).get ⟨p.idx, p.idx_lt⟩).1

/-- The locals it defines. -/
def defs (p : Point g) : List (Fin numLocals) := ((g.info p.bb).get ⟨p.idx, p.idx_lt⟩).2

/-- The first bytecode of a block. -/
def head (bb : Fin g.numBBs) : Point g := ⟨bb, 0, List.length_pos_iff.mpr (g.info_ne_nil bb)⟩

end Point

/-- Control flow between bytecodes: on inside a block, or from its last bytecode to a successor. -/
inductive Next : Point g → Point g → Prop
  | inside {p q : Point g} : q.bb = p.bb → q.idx = p.idx + 1 → Next p q
  | leave {p : Point g} {succ : Fin g.numBBs} :
      p.idx + 1 = (g.info p.bb).length → succ ∈ g.successors p.bb → Next p (.head succ)

/-- **Live before a bytecode**: a path from before it reaches a use of `l`, with no definition of
`l` on the way. -/
def LiveBefore (l : Fin numLocals) : Point g → Prop :=
  Reaches Next (fun p => l ∈ p.uses) (fun p => l ∈ p.defs)

/-- **Live after the uses of a bytecode**: the same for paths that start behind its uses. -/
def LiveAfter (l : Fin numLocals) : Point g → Prop :=
  ReachesAfter Next (fun p => l ∈ p.uses) (fun p => l ∈ p.defs)

/-! ## A block as a line of bytecodes -/

/-- The bits before the bytecode `p`, given those at the tail of its block. -/
theorem mem_transfer_drop (p : Point g) {t : Finset (Fin numLocals)} {l : Fin numLocals} :
    l ∈ transfer ((g.info p.bb).drop p.idx) t
      ↔ l ∈ p.uses ∨ l ∉ p.defs ∧ l ∈ transfer ((g.info p.bb).drop (p.idx + 1)) t := by
  rw [List.drop_eq_getElem_cons p.idx_lt, mem_transfer_cons]
  rfl

/-- A tail whose bits are live at some successor's head. -/
def TailLive (bb : Fin g.numBBs) (t : Finset (Fin numLocals)) : Prop :=
  ∀ l ∈ t, ∃ succ ∈ g.successors bb, LiveBefore l (Point.head succ)

/-- **The bits of a block have a path** if those of its tail have one. -/
theorem liveBefore_of_mem_transfer {t : Finset (Fin numLocals)} {l : Fin numLocals} :
    ∀ (p : Point g), TailLive p.bb t → l ∈ transfer ((g.info p.bb).drop p.idx) t →
      LiveBefore l p := by
  -- backwards over the bytecodes of the block: induction on how many follow `p`
  suffices H : ∀ n (p : Point g), (g.info p.bb).length - p.idx = n → TailLive p.bb t →
      l ∈ transfer ((g.info p.bb).drop p.idx) t → LiveBefore l p from
    fun p => H _ p rfl
  intro n
  induction n with
  | zero =>
    intro p hn
    have := p.idx_lt
    omega
  | succ n ih =>
    intro p hn ht hl
    rcases (mem_transfer_drop p).mp hl with hu | ⟨hd, hl⟩
    · exact reaches_of_gen hu
    · by_cases hlast : p.idx + 1 = (g.info p.bb).length
      · rw [hlast, List.drop_length, transfer_nil] at hl
        obtain ⟨succ, hs, hlive⟩ := ht l hl
        exact reaches_of_step hd (.leave hlast hs) hlive
      · have hlt : p.idx + 1 < (g.info p.bb).length := by have := p.idx_lt; omega
        refine reaches_of_step hd (q := ⟨p.bb, p.idx + 1, hlt⟩) (.inside rfl rfl) ?_
        refine ih ⟨p.bb, p.idx + 1, hlt⟩ ?_ ht hl
        change (g.info p.bb).length - (p.idx + 1) = n
        omega

/-- What a block computes for its head is live there. -/
theorem liveBefore_head {bb : Fin g.numBBs} {t : Finset (Fin numLocals)} {l : Fin numLocals}
    (ht : TailLive bb t) (hl : l ∈ g.computeHeadBasedOnTail bb t) :
    LiveBefore l (Point.head bb) :=
  liveBefore_of_mem_transfer (Point.head bb) ht hl

/-- **The two transfer functions agree.** -/
theorem computeHeadBasedOnTailFast_eq (bb : Fin g.numBBs) (t : Finset (Fin numLocals)) :
    g.computeHeadBasedOnTailFast bb t = g.computeHeadBasedOnTail bb t :=
  (transfer_eq_masks (g.info bb) t).symm

/-- More at the tail gives more at the head. -/
theorem computeHeadBasedOnTailFast_mono {bb : Fin g.numBBs} {s t : Finset (Fin numLocals)}
    (h : s ⊆ t) : g.computeHeadBasedOnTailFast bb s ⊆ g.computeHeadBasedOnTailFast bb t := by
  rw [computeHeadBasedOnTailFast_eq, computeHeadBasedOnTailFast_eq]
  exact transfer_mono h

/-- **At a fixpoint nothing live is missing.** -/
theorem mem_transfer_of_liveBefore (tail : Fin g.numBBs → Finset (Fin numLocals))
    (hfix : ∀ bb, ∀ succ ∈ g.successors bb, g.computeHeadBasedOnTail succ (tail succ) ⊆ tail bb)
    {l : Fin numLocals} {p : Point g} (h : LiveBefore l p) :
    l ∈ transfer ((g.info p.bb).drop p.idx) (tail p.bb) := by
  refine Reaches.mem_of_closed
    (S := fun p => l ∈ transfer ((g.info p.bb).drop p.idx) (tail p.bb)) ?_ ?_ h
  · exact fun p hu => (mem_transfer_drop p).mpr (.inl hu)
  · intro p q hd hn hq
    refine (mem_transfer_drop p).mpr (.inr ⟨hd, ?_⟩)
    cases hn with
    | inside hbb hidx => rwa [hbb, hidx] at hq
    | leave hlast hs =>
      rw [hlast, List.drop_length, transfer_nil]
      exact hfix p.bb _ hs hq

/-! ## One look at a block

Three outcomes: nothing to do, a head that is as it was, or a head that has grown. -/

namespace Propagation

variable {s : Propagation g} {bb : Fin g.numBBs} {first : Bool}

/-- What is at the head of some successor. -/
theorem mem_succHeads {l : Fin numLocals} :
    l ∈ s.succHeads bb ↔ ∃ succ ∈ g.successors bb, l ∈ (s.bbs succ).atHead := by
  have H : ∀ xs : List (Fin g.numBBs),
      l ∈ xs.foldr (fun succ tmpBv => (s.bbs succ).atHead ∪ tmpBv) ∅
        ↔ ∃ succ ∈ xs, l ∈ (s.bbs succ).atHead := by
    intro xs
    induction xs with
    | nil => simp
    | cons x xs ih => simp [ih]
  exact H _

/-- No successor has changed since the block was last looked at. -/
def UpToDate (s : Propagation g) (bb : Fin g.numBBs) : Prop :=
  ∀ succ ∈ g.successors bb, (s.bbs succ).lastChangedEpoch ≤ (s.bbs bb).lastCheckedEpoch

/-- A block is skipped only if it is up to date. -/
theorem shouldCheck_eq_false : s.shouldCheck bb = false ↔ s.UpToDate bb := by
  simp [shouldCheck, UpToDate]

/-- The block as a look at it leaves it. -/
structure Looked (first : Bool) (s : Propagation g) (bb : Fin g.numBBs) (b : BBState numLocals) :
    Prop where
  atTail : b.atTail = s.succHeads bb
  lastChecked : b.lastCheckedEpoch = s.currentEpoch + 1
  atHead : b.atHead = g.computeHeadBasedOnTailFast bb (s.succHeads bb) ∨
    first = false ∧ (s.bbs bb).atTail = s.succHeads bb ∧ b.atHead = (s.bbs bb).atHead

/-- **Everything one look can do**: nothing, as the block is up to date; a look that leaves its head
alone; or one that changes it. -/
theorem visit_cases (first : Bool) (s : Propagation g) (bb : Fin g.numBBs) :
    (first = false ∧ s.UpToDate bb ∧ s.visit first bb = s) ∨
    (∃ b, Looked first s bb b ∧ b.atHead = (s.bbs bb).atHead ∧
      b.lastChangedEpoch = (s.bbs bb).lastChangedEpoch ∧
      s.visit first bb = { s with
        bbs := Function.update s.bbs bb b, currentEpoch := s.currentEpoch + 1 }) ∨
    (∃ b, Looked first s bb b ∧ b.atHead ≠ (s.bbs bb).atHead ∧
      b.lastChangedEpoch = s.currentEpoch + 2 ∧
      s.visit first bb = {
        bbs := Function.update s.bbs bb b, currentEpoch := s.currentEpoch + 2,
        needMoreIterations := s.needMoreIterations || g.hasPredecessor bb }) := by
  let b : BBState numLocals :=
    { s.bbs bb with atTail := s.succHeads bb, lastCheckedEpoch := s.currentEpoch + 1 }
  by_cases hc : s.shouldCheck bb || first
  · right
    by_cases ht : (s.bbs bb).atTail ≠ s.succHeads bb || first
    · by_cases hh : (s.bbs bb).atHead ≠ g.computeHeadBasedOnTailFast bb (s.succHeads bb)
      · refine .inr ⟨{ b with
          atHead := g.computeHeadBasedOnTailFast bb (s.succHeads bb)
          lastChangedEpoch := s.currentEpoch + 2 }, ⟨rfl, rfl, .inl rfl⟩, hh.symm, rfl, ?_⟩
        rw [visit, if_pos hc, if_pos ht, if_pos hh]
      · refine .inl ⟨b, ⟨rfl, rfl, .inl ?_⟩, rfl, rfl, ?_⟩
        · exact not_not.mp hh
        · rw [visit, if_pos hc, if_pos ht, if_neg hh]
    · refine .inl ⟨b, ⟨rfl, rfl, .inr ⟨?_, ?_, rfl⟩⟩, rfl, rfl, ?_⟩
      · simp_all
      · simp_all
      · rw [visit, if_pos hc, if_neg ht]
  · refine .inl ⟨?_, shouldCheck_eq_false.mp ?_, ?_⟩
    · simp_all
    · simp_all
    · rw [visit, if_neg hc]

/-! ## The states of the loops -/

/-- **The states the two loops pass through**, with the blocks still to be looked at in the current
iteration. -/
inductive Reached : Bool → List (Fin g.numBBs) → Propagation g → Prop
  | start : Reached true g.bbInReverseOrder g.start
  | visit {first : Bool} {bb : Fin g.numBBs} {rest : List (Fin g.numBBs)} {s : Propagation g} :
      Reached first (bb :: rest) s → Reached first rest (s.visit first bb)
  | again {first : Bool} {s : Propagation g} : Reached first [] s → s.needMoreIterations = true →
      Reached false g.bbInReverseOrder { s with needMoreIterations := false }

/-- The invariant of the loops.  Before the first iteration is over, only the blocks it has already
looked at have the head of their tail. -/
structure Inv (first : Bool) (rest : List (Fin g.numBBs)) (s : Propagation g) : Prop where
  head_live : ∀ bb, ∀ l ∈ (s.bbs bb).atHead, LiveBefore l (Point.head bb)
  tail_le : ∀ bb, (s.bbs bb).atTail ⊆ s.succHeads bb
  head_le : ∀ bb, (s.bbs bb).atHead ⊆ g.computeHeadBasedOnTailFast bb (s.bbs bb).atTail
  head_eq : ∀ bb, first = false ∨ bb ∉ rest →
    (s.bbs bb).atHead = g.computeHeadBasedOnTailFast bb (s.bbs bb).atTail
  changed_le : ∀ bb, (s.bbs bb).lastChangedEpoch ≤ s.currentEpoch
  checked_le : ∀ bb, (s.bbs bb).lastCheckedEpoch ≤ s.currentEpoch
  upToDate : ∀ bb, first = false ∨ bb ∉ rest → s.UpToDate bb →
    (s.bbs bb).atTail = s.succHeads bb

theorem succHeads_mono {s s' : Propagation g} (bb : Fin g.numBBs)
    (h : ∀ bb, (s.bbs bb).atHead ⊆ (s'.bbs bb).atHead) : s.succHeads bb ⊆ s'.succHeads bb := by
  intro l hl
  obtain ⟨succ, hs, hl⟩ := mem_succHeads.mp hl
  exact mem_succHeads.mpr ⟨succ, hs, h succ hl⟩

theorem succHeads_congr {s s' : Propagation g} {bb : Fin g.numBBs}
    (h : ∀ succ ∈ g.successors bb, (s'.bbs succ).atHead = (s.bbs succ).atHead) :
    s'.succHeads bb = s.succHeads bb := by
  ext l
  rw [mem_succHeads, mem_succHeads]
  constructor
  · rintro ⟨succ, hs, hl⟩
    exact ⟨succ, hs, h succ hs ▸ hl⟩
  · rintro ⟨succ, hs, hl⟩
    exact ⟨succ, hs, (h succ hs).symm ▸ hl⟩

section Look

variable {rest : List (Fin g.numBBs)} {b : BBState numLocals}

/-- Whether it was recomputed or not, the head is the one of the new tail. -/
theorem Looked.head_eq (hI : Inv first rest s) (hb : Looked first s bb b) :
    b.atHead = g.computeHeadBasedOnTailFast bb (s.succHeads bb) := by
  rcases hb.atHead with h | ⟨hf, ht, hh⟩
  · exact h
  · rw [hh, hI.head_eq bb (.inl hf), ht]

/-- A look only adds to the head. -/
theorem Looked.head_grows (hI : Inv first rest s) (hb : Looked first s bb b) :
    (s.bbs bb).atHead ⊆ b.atHead := by
  rw [hb.head_eq hI]
  exact (hI.head_le bb).trans (computeHeadBasedOnTailFast_mono (hI.tail_le bb))

/-- What it adds is live. -/
theorem Looked.head_live (hI : Inv first rest s) (hb : Looked first s bb b) :
    ∀ l ∈ b.atHead, LiveBefore l (Point.head bb) := by
  intro l hl
  rw [hb.head_eq hI, computeHeadBasedOnTailFast_eq] at hl
  refine liveBefore_head (fun l hl => ?_) hl
  obtain ⟨succ, hs, hl⟩ := mem_succHeads.mp hl
  exact ⟨succ, hs, hI.head_live succ l hl⟩

/-- After a look a block that still counts as up to date has not lost a successor's change. -/
theorem Looked.upToDate (hI : Inv first (bb :: rest) s) (hb : Looked first s bb b)
    {s' : Propagation g} (hbbs : s'.bbs = Function.update s.bbs bb b)
    (hch : b.atHead = (s.bbs bb).atHead ∧ b.lastChangedEpoch = (s.bbs bb).lastChangedEpoch ∨
      b.lastChangedEpoch = s.currentEpoch + 2) {c : Fin g.numBBs} (hc : s'.UpToDate c) :
    s'.succHeads c = s.succHeads c ∧ (c ≠ bb → s.UpToDate c) := by
  have hself : s'.bbs bb = b := by rw [hbbs, Function.update_self]
  have hother : ∀ c, c ≠ bb → s'.bbs c = s.bbs c := fun c hc => by
    rw [hbbs, Function.update_of_ne hc]
  have hchecked : (s'.bbs c).lastCheckedEpoch ≤ s.currentEpoch + 1 := by
    by_cases h : c = bb
    · subst h; rw [hself, hb.lastChecked]
    · rw [hother c h]; exact (hI.checked_le c).trans (Nat.le_succ _)
  rcases hch with ⟨hh, hl⟩ | hl
  · have hsame : ∀ d, (s'.bbs d).atHead = (s.bbs d).atHead ∧
        (s'.bbs d).lastChangedEpoch = (s.bbs d).lastChangedEpoch := by
      intro d
      by_cases hd : d = bb
      · subst hd; rw [hself]; exact ⟨hh, hl⟩
      · rw [hother d hd]; exact ⟨rfl, rfl⟩
    refine ⟨succHeads_congr fun d _ => (hsame d).1, fun hne d hd => ?_⟩
    rw [← (hsame d).2, ← hother c hne]
    exact hc d hd
  · have hne : ∀ d ∈ g.successors c, d ≠ bb := by
      rintro d hd rfl
      have := hc d hd
      rw [hself] at this
      omega
    refine ⟨succHeads_congr fun d hd => by rw [hother d (hne d hd)], fun hcb d hd => ?_⟩
    rw [← hother d (hne d hd), ← hother c hcb]
    exact hc d hd

/-- A look keeps the invariant, and its block joins those with the head of their tail. -/
theorem Inv.look (hI : Inv first (bb :: rest) s) (hb : Looked first s bb b) {s' : Propagation g}
    (hbbs : s'.bbs = Function.update s.bbs bb b) (hep : s.currentEpoch + 1 ≤ s'.currentEpoch)
    (hch : b.atHead = (s.bbs bb).atHead ∧ b.lastChangedEpoch = (s.bbs bb).lastChangedEpoch ∨
      b.lastChangedEpoch = s.currentEpoch + 2 ∧ s.currentEpoch + 2 ≤ s'.currentEpoch) :
    Inv first rest s' := by
  have hself : s'.bbs bb = b := by rw [hbbs, Function.update_self]
  have hother : ∀ c, c ≠ bb → s'.bbs c = s.bbs c := fun c hc => by
    rw [hbbs, Function.update_of_ne hc]
  have hgrow : ∀ c, (s.bbs c).atHead ⊆ (s'.bbs c).atHead := by
    intro c
    by_cases hc : c = bb
    · subst hc; rw [hself]; exact hb.head_grows hI
    · rw [hother c hc]
  have hrest : ∀ c, c ≠ bb → first = false ∨ c ∉ rest → first = false ∨ c ∉ bb :: rest :=
    fun c hc => Or.imp_right fun h hm => (List.mem_cons.mp hm).elim hc h
  constructor
  · intro c l hl
    by_cases hc : c = bb
    · subst hc; rw [hself] at hl; exact hb.head_live hI l hl
    · rw [hother c hc] at hl; exact hI.head_live c l hl
  · intro c
    by_cases hc : c = bb
    · subst hc; rw [hself, hb.atTail]; exact succHeads_mono _ hgrow
    · rw [hother c hc]; exact (hI.tail_le c).trans (succHeads_mono c hgrow)
  · intro c
    by_cases hc : c = bb
    · subst hc; rw [hself, hb.atTail, hb.head_eq hI]
    · rw [hother c hc]; exact hI.head_le c
  · intro c hfr
    by_cases hc : c = bb
    · subst hc; rw [hself, hb.atTail, hb.head_eq hI]
    · rw [hother c hc]; exact hI.head_eq c (hrest c hc hfr)
  · intro c
    have := hI.changed_le c
    by_cases hc : c = bb
    · subst hc; rw [hself]; omega
    · rw [hother c hc]; omega
  · intro c
    have := hI.checked_le c
    by_cases hc : c = bb
    · subst hc; rw [hself, hb.lastChecked]; omega
    · rw [hother c hc]; omega
  · intro c hfr hup
    obtain ⟨hheads, hold⟩ := hb.upToDate hI hbbs (hch.imp_right And.left) hup
    rw [hheads]
    by_cases hc : c = bb
    · subst hc; rw [hself, hb.atTail]
    · rw [hother c hc]; exact hI.upToDate c (hrest c hc hfr) (hold hc)

/-- Step lemma of the inner loop. -/
theorem Inv.visit (hI : Inv first (bb :: rest) s) : Inv first rest (s.visit first bb) := by
  rcases visit_cases first s bb with ⟨hf, -, hs⟩ | ⟨b, hb, hh, hl, hs⟩ | ⟨b, hb, -, hl, hs⟩
  · rw [hs]
    exact { hI with
      head_eq := fun c _ => hI.head_eq c (.inl hf)
      upToDate := fun c _ => hI.upToDate c (.inl hf) }
  · rw [hs]
    exact hI.look hb rfl le_rfl (.inl ⟨hh, hl⟩)
  · rw [hs]
    exact hI.look hb rfl (Nat.le_succ _) (.inr ⟨hl, le_rfl⟩)

end Look

/-- The order has every block. -/
theorem mem_bbInReverseOrder (bb : Fin g.numBBs) : bb ∈ g.bbInReverseOrder := by
  simp [bbInReverseOrder]

/-- The invariant holds of the start. -/
theorem Inv.start : Inv true g.bbInReverseOrder g.start where
  head_live bb l hl := absurd hl (Finset.notMem_empty l)
  tail_le bb := Finset.empty_subset _
  head_le bb := Finset.empty_subset _
  head_eq bb h := absurd (mem_bbInReverseOrder bb) (h.resolve_left (by decide))
  changed_le bb := Nat.zero_le _
  checked_le bb := Nat.zero_le _
  upToDate bb h := absurd (mem_bbInReverseOrder bb) (h.resolve_left (by decide))

/-- **Run lemma of the loops.** -/
theorem Reached.inv {rest : List (Fin g.numBBs)} (h : Reached first rest s) : Inv first rest s := by
  induction h with
  | start => exact .start
  | visit _ ih => exact ih.visit
  | again _ _ ih =>
    exact { ih with
      head_eq := fun bb _ => ih.head_eq bb (.inr List.not_mem_nil)
      upToDate := fun bb _ => ih.upToDate bb (.inr List.not_mem_nil) }

/-! ## When no iteration is asked for, every block is up to date -/

theorem hasPredecessor_of_mem {c : Fin g.numBBs} (h : bb ∈ g.successors c) :
    g.hasPredecessor bb = true := by
  simp only [hasPredecessor, List.any_eq_true, decide_eq_true_eq]
  exact ⟨c, List.mem_finRange c, h⟩

/-- A look that asks for no further iteration leaves its block up to date, and the others too. -/
theorem Inv.visit_upToDate {rest : List (Fin g.numBBs)} (hI : Inv first (bb :: rest) s)
    (hm : (s.visit first bb).needMoreIterations = false) :
    ∀ c, c = bb ∨ s.UpToDate c → (s.visit first bb).UpToDate c := by
  intro c hc
  rcases visit_cases first s bb with ⟨-, hup, hs⟩ | ⟨b, hb, -, hl, hs⟩ | ⟨b, hb, -, hl, hs⟩
  · rw [hs]
    rcases hc with rfl | hc
    · exact hup
    · exact hc
  · rw [hs]
    intro d hd
    have hchanged : (Function.update s.bbs bb b d).lastChangedEpoch =
      (s.bbs d).lastChangedEpoch := by
      by_cases h : d = bb
      · subst h; rw [Function.update_self, hl]
      · rw [Function.update_of_ne h]
    change (Function.update s.bbs bb b d).lastChangedEpoch
      ≤ (Function.update s.bbs bb b c).lastCheckedEpoch
    rw [hchanged]
    have := hI.changed_le d
    by_cases h : c = bb
    · subst h; rw [Function.update_self, hb.lastChecked]; omega
    · rw [Function.update_of_ne h]; exact hc.resolve_left h d hd
  · rw [hs] at hm ⊢
    -- the head changed, so the block has no predecessor and is nobody's successor
    have hnone : ∀ e, bb ∉ g.successors e := by
      intro e he
      have hpred := hasPredecessor_of_mem he
      simp [hpred] at hm
    intro d hd
    have hdb : d ≠ bb := fun h => hnone c (h ▸ hd)
    change (Function.update s.bbs bb b d).lastChangedEpoch
      ≤ (Function.update s.bbs bb b c).lastCheckedEpoch
    rw [Function.update_of_ne hdb]
    have := hI.changed_le d
    by_cases h : c = bb
    · subst h; rw [Function.update_self, hb.lastChecked]; omega
    · rw [Function.update_of_ne h]; exact hc.resolve_left h d hd

theorem visit_needMore_of_needMore (h : s.needMoreIterations = true) :
    (s.visit first bb).needMoreIterations = true := by
  rcases visit_cases first s bb with ⟨-, -, hs⟩ | ⟨b, -, -, -, hs⟩ | ⟨b, -, -, -, hs⟩
  · rw [hs, h]
  · rw [hs]; exact h
  · rw [hs]; simp [h]

/-- While no iteration is asked for, what was looked at is up to date. -/
theorem Reached.upToDate {rest : List (Fin g.numBBs)} (h : Reached first rest s) :
    s.needMoreIterations = false → ∀ bb, bb ∉ rest → s.UpToDate bb := by
  induction h with
  | start => exact fun _ bb hbb => absurd (mem_bbInReverseOrder bb) hbb
  | again _ _ _ => exact fun _ bb hbb => absurd (mem_bbInReverseOrder bb) hbb
  | @visit first bb rest s hr ih =>
    intro hm c hc
    have hs : s.needMoreIterations = false := by
      by_contra hs
      rw [visit_needMore_of_needMore (eq_true_of_ne_false hs)] at hm
      exact absurd hm (by decide)
    refine hr.inv.visit_upToDate hm c ?_
    by_cases hcb : c = bb
    · exact .inl hcb
    · exact .inr (ih hs c fun h => (List.mem_cons.mp h).elim hcb hc)

/-- **The state the loops end in is a fixpoint.** -/
theorem Reached.fixpoint (h : Reached first [] s) (hm : s.needMoreIterations = false)
    (bb : Fin g.numBBs) : (s.bbs bb).atTail = s.succHeads bb ∧
      (s.bbs bb).atHead = g.computeHeadBasedOnTail bb (s.bbs bb).atTail := by
  refine ⟨h.inv.upToDate bb (.inr List.not_mem_nil) (h.upToDate hm bb List.not_mem_nil), ?_⟩
  rw [h.inv.head_eq bb (.inr List.not_mem_nil), computeHeadBasedOnTailFast_eq]

/-! ## Heads only grow

There are finitely many bits, so the loop ends. -/

/-- The number of bits set in the heads. -/
def numHeadBits (s : Propagation g) : ℕ := ∑ bb, (s.bbs bb).atHead.card

theorem numHeadBits_le (s : Propagation g) : s.numHeadBits ≤ g.numBBs * numLocals := by
  calc s.numHeadBits ≤ ∑ _bb : Fin g.numBBs, numLocals := by
        refine Finset.sum_le_sum fun bb _ => ?_
        simpa using Finset.card_le_univ (s.bbs bb).atHead
    _ = g.numBBs * numLocals := by simp

/-- A head that has grown has at least as many bits. -/
theorem numHeadBits_update {b : BBState numLocals} (e : ℕ) (m : Bool)
    (h : (s.bbs bb).atHead ⊆ b.atHead) :
    s.numHeadBits ≤ numHeadBits ⟨Function.update s.bbs bb b, e, m⟩ := by
  refine Finset.sum_le_sum fun c _ => Finset.card_le_card ?_
  change (s.bbs c).atHead ⊆ (Function.update s.bbs bb b c).atHead
  by_cases hc : c = bb
  · subst hc; rwa [Function.update_self]
  · rw [Function.update_of_ne hc]

/-- A head that has really grown has more. -/
theorem numHeadBits_update_lt {b : BBState numLocals} (e : ℕ) (m : Bool)
    (h : (s.bbs bb).atHead ⊂ b.atHead) :
    s.numHeadBits < numHeadBits ⟨Function.update s.bbs bb b, e, m⟩ := by
  refine Finset.sum_lt_sum (fun c _ => Finset.card_le_card ?_) ⟨bb, Finset.mem_univ bb, ?_⟩
  · change (s.bbs c).atHead ⊆ (Function.update s.bbs bb b c).atHead
    by_cases hc : c = bb
    · subst hc; rw [Function.update_self]; exact h.1
    · rw [Function.update_of_ne hc]
  · change (s.bbs bb).atHead.card < (Function.update s.bbs bb b bb).atHead.card
    rw [Function.update_self]
    exact Finset.card_lt_card h

/-- A look never clears a bit, and asks for another iteration only if it sets one. -/
theorem Inv.numHeadBits_visit {rest : List (Fin g.numBBs)} (hI : Inv first (bb :: rest) s) :
    s.numHeadBits ≤ (s.visit first bb).numHeadBits ∧
      ((s.visit first bb).needMoreIterations = true → s.needMoreIterations = true ∨
        s.numHeadBits < (s.visit first bb).numHeadBits) := by
  rcases visit_cases first s bb with ⟨-, -, hs⟩ | ⟨b, hb, -, -, hs⟩ | ⟨b, hb, hne, -, hs⟩
  · rw [hs]; exact ⟨le_rfl, .inl⟩
  · rw [hs]; exact ⟨numHeadBits_update _ _ (hb.head_grows hI), .inl⟩
  · rw [hs]
    have hlt := numHeadBits_update_lt (s.currentEpoch + 2)
      (s.needMoreIterations || g.hasPredecessor bb)
      (Finset.ssubset_iff_subset_ne.mpr ⟨hb.head_grows hI, hne.symm⟩)
    exact ⟨hlt.le, fun _ => .inr hlt⟩

/-- …and so does the rest of an iteration. -/
theorem Reached.foldl_visit : ∀ (rest : List (Fin g.numBBs)) (s : Propagation g),
    Reached first rest s →
      Reached first [] (rest.foldl (Propagation.visit first) s) ∧
      s.numHeadBits ≤ (rest.foldl (Propagation.visit first) s).numHeadBits ∧
      ((rest.foldl (Propagation.visit first) s).needMoreIterations = true →
        s.needMoreIterations = true ∨
          s.numHeadBits < (rest.foldl (Propagation.visit first) s).numHeadBits)
  | [], s, h => ⟨h, le_rfl, .inl⟩
  | bb :: rest, s, h => by
      obtain ⟨hr, hle, hlt⟩ := Reached.foldl_visit rest _ h.visit
      obtain ⟨hle', hlt'⟩ := h.inv.numHeadBits_visit
      refine ⟨hr, hle'.trans hle, fun hm => ?_⟩
      rcases hlt hm with hm | hm
      · exact (hlt' hm).imp_right fun h => h.trans_le hle
      · exact .inr (hle'.trans_lt hm)

/-- **The propagation terminates**, in a state its loops reach and in which no iteration is asked
for. -/
theorem propagate_isSome : ∀ (fuel : ℕ) (first : Bool) (s : Propagation g),
    Reached first g.bbInReverseOrder { s with needMoreIterations := false } →
    g.numBBs * numLocals < fuel + s.numHeadBits →
    ∃ s', propagate fuel first s = some s' ∧ s'.needMoreIterations = false ∧
      ∃ first', Reached first' [] s'
  | 0, _, s, _, hf => absurd (numHeadBits_le s) (by omega)
  | fuel + 1, first, s, hr, hf => by
      obtain ⟨hr', -, hlt⟩ := Reached.foldl_visit _ _ hr
      by_cases hm : (s.iteration first).needMoreIterations = true
      · have hgrow : s.numHeadBits < (s.iteration first).numHeadBits :=
          (hlt hm).resolve_left (by simp)
        obtain ⟨s', hs', hend⟩ :=
          propagate_isSome fuel false (s.iteration first) (.again hr' hm) (by omega)
        exact ⟨s', by rw [propagate]; simp only [hm, if_true, hs'], hend⟩
      · refine ⟨s.iteration first, ?_, eq_false_of_ne_true hm, first, hr'⟩
        rw [propagate]
        simp only [hm, if_false, Bool.false_eq_true]

end Propagation

/-! ## From the tails to the bytecodes -/

section PerBytecode

variable {t : Finset (Fin numLocals)} {ps : List (List (Fin numLocals) × List (Fin numLocals))}

/-- The walk writes the bits before, and after the uses of, each bytecode of the block… -/
theorem perBytecode_inside : ∀ (ps : List (List (Fin numLocals) × List (Fin numLocals)))
    (index : ℕ) (r : Result numLocals) (i : ℕ) (hi : i < ps.length),
    (perBytecode t index ps r).beforeUse (index + i) = transfer (ps.drop i) t ∧
      (perBytecode t index ps r).afterUse (index + i) =
        transfer (ps.drop (i + 1)) t \ (ps.get ⟨i, hi⟩).2.toFinset
  | (uses, defs) :: rest, index, r, 0, _ => by
      have htail : (if rest = [] then t else (perBytecode t (index + 1) rest r).beforeUse
        (index + 1))
          = transfer rest t := by
        by_cases hrest : rest = []
        · rw [if_pos hrest, hrest, transfer_nil]
        · rw [if_neg hrest]
          exact (perBytecode_inside rest (index + 1) r 0 (List.length_pos_iff.mpr hrest)).1
      simp only [perBytecode, htail, Nat.add_zero, Function.update_self]
      exact ⟨rfl, rfl⟩
  | (uses, defs) :: rest, index, r, i + 1, hi => by
      have hne : index + (i + 1) ≠ index := by omega
      have hidx : index + (i + 1) = index + 1 + i := by omega
      simp only [perBytecode, Function.update_of_ne hne]
      rw [hidx]
      exact perBytecode_inside rest (index + 1) r i (Nat.lt_of_succ_lt_succ hi)

/-- …and nothing else. -/
theorem perBytecode_outside : ∀ (ps : List (List (Fin numLocals) × List (Fin numLocals)))
    (index : ℕ) (r : Result numLocals) (j : ℕ), (∀ i < ps.length, j ≠ index + i) →
    (perBytecode t index ps r).beforeUse j = r.beforeUse j ∧
      (perBytecode t index ps r).afterUse j = r.afterUse j
  | [], _, _, _, _ => ⟨rfl, rfl⟩
  | (uses, defs) :: rest, index, r, j, h => by
      have hj : j ≠ index := h 0 (Nat.succ_pos _)
      simp only [perBytecode, Function.update_of_ne hj]
      refine perBytecode_outside rest (index + 1) r j fun i hi hji => ?_
      exact h (i + 1) (Nat.succ_lt_succ hi) (by omega)

/-- What the loop over the blocks leaves at the bytecodes of a block it has gone over. -/
theorem foldl_computePerBytecodeLiveness (s : Propagation g) (p : Point g) :
    ∀ (bbs : List (Fin g.numBBs)) (r : Result numLocals), p.bb ∈ bbs →
      (bbs.foldl (computePerBytecodeLiveness s) r).beforeUse p.index =
        transfer ((g.info p.bb).drop p.idx) (s.bbs p.bb).atTail ∧
      (bbs.foldl (computePerBytecodeLiveness s) r).afterUse p.index =
        transfer ((g.info p.bb).drop (p.idx + 1)) (s.bbs p.bb).atTail \ p.defs.toFinset := by
  -- blocks that do not overlap with `p`'s do not touch its sets
  have hkeep : ∀ (bbs : List (Fin g.numBBs)) (r : Result numLocals), p.bb ∉ bbs →
      (bbs.foldl (computePerBytecodeLiveness s) r).beforeUse p.index = r.beforeUse p.index ∧
      (bbs.foldl (computePerBytecodeLiveness s) r).afterUse p.index = r.afterUse p.index := by
    intro bbs
    induction bbs with
    | nil => exact fun _ _ => ⟨rfl, rfl⟩
    | cons c bbs ih =>
      intro r hp
      have hout := perBytecode_outside (t := (s.bbs c).atTail) (g.info c) (g.firstBytecodeIndex c) r
        p.index fun i hi => g.range_disjoint p.bb c (fun h => hp (h ▸ List.mem_cons_self)) p.idx
          p.idx_lt i hi
      obtain ⟨hb, ha⟩ := ih (computePerBytecodeLiveness s r c) fun h =>
        hp (List.mem_cons_of_mem c h)
      exact ⟨hb.trans hout.1, ha.trans hout.2⟩
  intro bbs
  induction bbs with
  | nil => exact fun _ h => absurd h List.not_mem_nil
  | cons c bbs ih =>
    intro r hp
    by_cases hmem : p.bb ∈ bbs
    · exact ih _ hmem
    · obtain rfl : p.bb = c := (List.mem_cons.mp hp).resolve_right hmem
      obtain ⟨hb, ha⟩ := hkeep bbs (computePerBytecodeLiveness s r p.bb) hmem
      obtain ⟨hb', ha'⟩ := perBytecode_inside (t := (s.bbs p.bb).atTail) (g.info p.bb)
        (g.firstBytecodeIndex p.bb) r p.idx p.idx_lt
      exact ⟨hb.trans hb', ha.trans ha'⟩

/-- A bytecode in no block keeps its sets. -/
theorem foldl_computePerBytecodeLiveness_outside (s : Propagation g) {j : ℕ}
    (hj : ∀ p : Point g, p.index ≠ j) : ∀ (bbs : List (Fin g.numBBs)) (r : Result numLocals),
      (bbs.foldl (computePerBytecodeLiveness s) r).beforeUse j = r.beforeUse j ∧
      (bbs.foldl (computePerBytecodeLiveness s) r).afterUse j = r.afterUse j
  | [], _ => ⟨rfl, rfl⟩
  | c :: bbs, r => by
      obtain ⟨hb, ha⟩ :=
        foldl_computePerBytecodeLiveness_outside s hj bbs (computePerBytecodeLiveness s r c)
      obtain ⟨hb', ha'⟩ := perBytecode_outside (t := (s.bbs c).atTail) (g.info c)
        (g.firstBytecodeIndex c) r j fun i hi h => hj ⟨c, i, hi⟩ h.symm
      exact ⟨hb.trans hb', ha.trans ha'⟩

end PerBytecode

/-! ## The main result -/

/-- Two points have two indices. -/
theorem Point.index_injective {p q : Point g} (h : p.index = q.index) : p = q := by
  obtain ⟨bb, i, hi⟩ := p
  obtain ⟨bb', j, hj⟩ := q
  obtain rfl : bb = bb' := by
    by_contra hne
    exact g.range_disjoint bb bb' hne i hi j hj h
  obtain rfl : i = j := Nat.add_left_cancel h
  rfl

section Fixpoint

variable {s : Propagation g} (hfix : ∀ bb, (s.bbs bb).atTail = s.succHeads bb ∧
  (s.bbs bb).atHead = g.computeHeadBasedOnTail bb (s.bbs bb).atTail)
include hfix

/-- In a fixpoint that only has live bits, the bits before a bytecode are the live ones. -/
theorem liveBefore_iff_of_fixpoint
    (hlive : ∀ bb, ∀ l ∈ (s.bbs bb).atHead, LiveBefore l (Point.head bb))
    (l : Fin numLocals) (p : Point g) :
    l ∈ transfer ((g.info p.bb).drop p.idx) (s.bbs p.bb).atTail ↔ LiveBefore l p := by
  constructor
  · refine liveBefore_of_mem_transfer p fun l hl => ?_
    rw [(hfix p.bb).1] at hl
    obtain ⟨succ, hs, hl⟩ := Propagation.mem_succHeads.mp hl
    exact ⟨succ, hs, hlive succ l hl⟩
  · refine mem_transfer_of_liveBefore (fun bb => (s.bbs bb).atTail) fun bb succ hs l hl => ?_
    rw [(hfix bb).1]
    exact Propagation.mem_succHeads.mpr ⟨succ, hs, (hfix succ).2 ▸ hl⟩

/-- The set behind a bytecode, from the fixpoint. -/
theorem liveAfter_iff_of_fixpoint
    (hlive : ∀ bb, ∀ l ∈ (s.bbs bb).atHead, LiveBefore l (Point.head bb))
    (l : Fin numLocals) (p : Point g) :
    l ∈ transfer ((g.info p.bb).drop (p.idx + 1)) (s.bbs p.bb).atTail \ p.defs.toFinset
      ↔ LiveAfter l p := by
  rw [Finset.mem_sdiff, List.mem_toFinset, LiveAfter, reachesAfter_iff, and_comm]
  refine and_congr_right fun _ => ?_
  by_cases hlast : p.idx + 1 = (g.info p.bb).length
  · rw [hlast, List.drop_length, transfer_nil, (hfix p.bb).1, Propagation.mem_succHeads]
    constructor
    · rintro ⟨succ, hs, hl⟩
      exact ⟨.head succ, .leave hlast hs, hlive succ l hl⟩
    · rintro ⟨q, hn, hq⟩
      cases hn with
      | @inside q hbb hidx =>
        have := q.idx_lt
        rw [hbb, hidx, hlast] at this
        exact absurd this (lt_irrefl _)
      | @leave succ _ hs =>
        refine ⟨succ, hs, ?_⟩
        rw [(hfix succ).2]
        exact (liveBefore_iff_of_fixpoint hfix hlive l (.head succ)).mpr hq
  · have hlt : p.idx + 1 < (g.info p.bb).length := by have := p.idx_lt; omega
    rw [show l ∈ transfer ((g.info p.bb).drop (p.idx + 1)) (s.bbs p.bb).atTail ↔
      LiveBefore l ⟨p.bb, p.idx + 1, hlt⟩ from
        liveBefore_iff_of_fixpoint hfix hlive l ⟨p.bb, p.idx + 1, hlt⟩]
    constructor
    · exact fun h => ⟨⟨p.bb, p.idx + 1, hlt⟩, .inside rfl rfl, h⟩
    · rintro ⟨q, hn, hq⟩
      cases hn with
      | inside hbb hidx =>
        obtain ⟨bb, idx, hq'⟩ := q
        subst hbb hidx
        exact hq
      | leave h => exact absurd h hlast

end Fixpoint

/-- The pass ends, with the path definition in the set of every bytecode. -/
theorem computeBytecodeLiveness_spec (g : LivenessCfg numLocals) {fuel : ℕ}
    (hfuel : g.numBBs * numLocals < fuel) : ∃ r, g.computeBytecodeLiveness fuel = some r ∧
      ∀ (i : ℕ) (l : Fin numLocals),
        (l ∈ r.beforeUse i ↔ ∃ p : Point g, p.index = i ∧ LiveBefore l p) ∧
        (l ∈ r.afterUse i ↔ ∃ p : Point g, p.index = i ∧ LiveAfter l p) := by
  obtain ⟨s, hs, hm, first, hr⟩ :=
    Propagation.propagate_isSome fuel true g.start .start (by omega)
  refine ⟨_, by rw [computeBytecodeLiveness, hs]; rfl, fun i l => ?_⟩
  have hfix := hr.fixpoint hm
  have hlive := hr.inv.head_live
  by_cases hi : ∃ p : Point g, p.index = i
  · obtain ⟨p, rfl⟩ := hi
    obtain ⟨hb, ha⟩ := foldl_computePerBytecodeLiveness s p g.bbInReverseOrder
      ⟨fun _ => ∅, fun _ => ∅⟩ (Propagation.mem_bbInReverseOrder p.bb)
    rw [hb, ha, liveBefore_iff_of_fixpoint hfix hlive, liveAfter_iff_of_fixpoint hfix hlive]
    constructor
    · exact ⟨fun h => ⟨p, rfl, h⟩, fun ⟨q, hq, h⟩ => Point.index_injective hq ▸ h⟩
    · exact ⟨fun h => ⟨p, rfl, h⟩, fun ⟨q, hq, h⟩ => Point.index_injective hq ▸ h⟩
  · obtain ⟨hb, ha⟩ := foldl_computePerBytecodeLiveness_outside s (fun p hp => hi ⟨p, hp⟩)
      g.bbInReverseOrder ⟨fun _ => ∅, fun _ => ∅⟩
    rw [hb, ha]
    constructor
    · exact ⟨fun h => absurd h (Finset.notMem_empty l), fun ⟨p, hp, _⟩ => (hi ⟨p, hp⟩).elim⟩
    · exact ⟨fun h => absurd h (Finset.notMem_empty l), fun ⟨p, hp, _⟩ => (hi ⟨p, hp⟩).elim⟩

/-- **Bytecode liveness is its path definition.**  `ComputeBytecodeLiveness` ends after at most
`numBBs * numLocals + 1` iterations; its sets are the path definition at every bytecode, and empty
at a bytecode of no block; the masks are the per-bytecode transfer; and a block that the epochs let
it skip has exactly the bits of its successors' heads at its tail. -/
theorem computeBytecodeLiveness_eq_paths (g : LivenessCfg numLocals) :
    (∀ fuel, g.numBBs * numLocals < fuel → ∃ r, g.computeBytecodeLiveness fuel = some r ∧
      ∀ (i : ℕ) (l : Fin numLocals),
        (l ∈ r.beforeUse i ↔ ∃ p : Point g, p.index = i ∧ LiveBefore l p) ∧
        (l ∈ r.afterUse i ↔ ∃ p : Point g, p.index = i ∧ LiveAfter l p)) ∧
    (∀ bb t, g.computeHeadBasedOnTailFast bb t = g.computeHeadBasedOnTail bb t) ∧
    (∀ (s : Propagation g) (bb : Fin g.numBBs) (rest : List (Fin g.numBBs)),
      Propagation.Reached false (bb :: rest) s → s.shouldCheck bb = false →
        (s.bbs bb).atTail = s.succHeads bb) :=
  ⟨fun _ => g.computeBytecodeLiveness_spec, computeHeadBasedOnTailFast_eq, fun _ bb _ hr hc =>
    hr.inv.upToDate bb (.inl rfl) (Propagation.shouldCheck_eq_false.mp hc)⟩

/-- A loop: local `0` is set in front of it, read at its head and again behind the definition of
local `1`. -/
def loopCfg : LivenessCfg 2 where
  numBBs := 2
  firstBytecodeIndex bb := bb
  info bb :=
    if bb = ⟨0, Nat.zero_lt_two⟩ then [([], [⟨0, Nat.zero_lt_two⟩])]
    else [([⟨0, Nat.zero_lt_two⟩], [⟨1, Nat.one_lt_two⟩]), ([⟨1, Nat.one_lt_two⟩], [])]
  successors _ := [⟨1, Nat.one_lt_two⟩]
  info_ne_nil := by decide
  range_disjoint := by decide

theorem computeBytecodeLiveness_eq_paths_loopCfg :
    ∃ r, loopCfg.computeBytecodeLiveness 5 = some r ∧
      ∀ (i : ℕ) (l : Fin 2), (l ∈ r.beforeUse i ↔ ∃ p : Point loopCfg,
        p.index = i ∧ LiveBefore l p) ∧
        (l ∈ r.afterUse i ↔ ∃ p : Point loopCfg, p.index = i ∧ LiveAfter l p) :=
  (computeBytecodeLiveness_eq_paths loopCfg).1 5 (by decide)

end LivenessCfg

end Dsom
