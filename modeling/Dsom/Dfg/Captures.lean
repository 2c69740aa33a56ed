import Dsom.Foundations.Dataflow
import Dsom.Dfg.Blocks
import Mathlib.Algebra.BigOperators.Group.Finset.Basic
import Mathlib.Algebra.Order.BigOperators.Group.Finset
import Mathlib.Data.Fintype.Card

/-!
# Dfg/Captures — what `AnalyzeLocalCaptures` computes

A fact that bytecodes set and clear along the control flow is `After gen kill`; `Before` is the same
one step earlier.  Over a block it is decided bytecode by bytecode, and between blocks by the
terminal bytecodes (`before_start_iff`).

The propagation computes such a fact exactly (`analyzeLocalCaptures_spec`): `SeenAfter`, in which a
capture counts only if it is not made by the last bytecode of its block, and an `UpvalueClose` only
if it is the last one.
-/

namespace Dsom

namespace BytecodeFunction

open Dataflow

variable {numLocals : ℕ} {f : BytecodeFunction numLocals}

/-! ## Facts along the control flow -/

section Facts

variable (f) in
/-- Some path from a setting bytecode to `i`, executed, meets no clearing one after it. -/
def After (gen kill : ℕ → Prop) : ℕ → Prop := Reaches (fun a b => f.Next b a) gen kill

variable (f) in
/-- …the same when `i` is about to be executed. -/
def Before (gen kill : ℕ → Prop) (i : ℕ) : Prop := ∃ j, f.Next j i ∧ f.After gen kill j

variable {gen kill : ℕ → Prop} {i j : ℕ}

theorem after_iff : f.After gen kill i ↔ gen i ∨ ¬ kill i ∧ f.Before gen kill i := by
  rw [After, reaches_iff, reachesAfter_iff]
  rfl

variable (hgen : ∀ i, gen i → f.Reachable i)
include hgen

/-- A fact holds only behind what is reached. -/
theorem After.reachable (h : f.After gen kill i) : f.Reachable i :=
  Reaches.mem_of_closed (S := f.Reachable) hgen (fun _ _ _ hn hq => hq.tail hn) h

/-- A fact holds only before what is reached. -/
theorem Before.reachable (h : f.Before gen kill i) : f.Reachable i := by
  obtain ⟨j, hn, hj⟩ := h
  exact (hj.reachable hgen).tail hn

/-- Inside a straight line the only way in is from the previous bytecode. -/
theorem before_succ_iff (hi : ¬ f.IsLast i) : f.Before gen kill (i + 1) ↔ f.After gen kill i := by
  constructor
  · rintro ⟨j, hn, hj⟩
    rcases hn with ⟨-, hij⟩ | ht
    · obtain rfl : i = j := by omega
      exact hj
    · exact absurd (.inr (.inr ⟨j, (hj.reachable hgen).lt, ht⟩)) hi
  · exact fun h => ⟨i, (next_iff_of_not_isLast hi).mpr rfl, h⟩

end Facts

/-! ## Blocks and bytecodes -/

namespace IsCfg

variable {bbs : List (BasicBlockUpvalueInfo numLocals)} {i : ℕ}
variable {ord ord' : ℕ} {bb bb' : BasicBlockUpvalueInfo numLocals}

theorem startAt_eq (hb : bbs[ord]? = some bb) : startAt bbs ord = some bb.bytecodeIndex := by
  rw [startAt, hb]; rfl

theorem getElem?_of_startAt {p : ℕ} (h : startAt bbs ord = some p) :
    ∃ bb, bbs[ord]? = some bb ∧ bb.bytecodeIndex = p := Option.map_eq_some_iff.mp h

/-- Every reachable bytecode lies in a block. -/
theorem exists_block (h : IsCfg f bbs) (hr : f.Reachable i) :
    ∃ (ord : ℕ) (bb : _), bbs[ord]? = some bb ∧ bb.bytecodeIndex ≤ i ∧ i ≤ bb.terminalNode := by
  induction hr with
  | refl =>
    obtain ⟨bb, hb, hp⟩ := getElem?_of_startAt h.entry
    exact ⟨0, bb, hb, hp.le, Nat.zero_le _⟩
  | @tail i j _ hn ih =>
    obtain ⟨ord, bb, hb, hle, hge⟩ := ih
    by_cases hterm : i = bb.terminalNode
    · subst hterm
      obtain ⟨succ, -, hs⟩ := (h.next_iff ord bb hb j).mp hn
      obtain ⟨bb', hb', rfl⟩ := getElem?_of_startAt hs
      exact ⟨succ, bb', hb', le_rfl, (h.isBlock succ bb' hb').start_le⟩
    · have hlast := (h.isBlock ord bb hb).inner_not_isLast i hle (by omega)
      obtain rfl := (next_iff_of_not_isLast hlast).mp hn
      exact ⟨ord, bb, hb, by omega, by omega⟩

/-- …and in one only. -/
theorem block_unique (h : IsCfg f bbs) (hb : bbs[ord]? = some bb) (hb' : bbs[ord']? = some bb')
    (hi : bb.bytecodeIndex ≤ i) (hi' : i ≤ bb.terminalNode) (hj : bb'.bytecodeIndex ≤ i)
    (hj' : i ≤ bb'.terminalNode) : ord = ord' := by
  -- a block that starts inside another one would cut it
  have hno : ∀ (o o' : ℕ) (c c' : BasicBlockUpvalueInfo numLocals), bbs[o]? = some c →
      bbs[o']? = some c' → c.bytecodeIndex < c'.bytecodeIndex →
      c'.bytecodeIndex ≤ c.terminalNode → False := by
    intro o o' c c' hc hc' hlt hle
    exact (h.isBlock o c hc).inner_not_isLast (c'.bytecodeIndex - 1) (by omega) (by omega)
      ((h.isBlock o' c' hc').start_first _ (by omega))
  have hstart : bb.bytecodeIndex = bb'.bytecodeIndex := by
    rcases Nat.lt_trichotomy bb.bytecodeIndex bb'.bytecodeIndex with hlt | heq | hgt
    · exact (hno ord ord' bb bb' hb hb' hlt (by omega)).elim
    · exact heq
    · exact (hno ord' ord bb' bb hb' hb hgt (by omega)).elim
  exact h.start_injective ord ord' _ (startAt_eq hb) (hstart ▸ startAt_eq hb')

/-- The last bytecode of a straight line is the terminal one of its block. -/
theorem eq_terminalNode (h : IsCfg f bbs) (hb : bbs[ord]? = some bb) (hi : bb.bytecodeIndex ≤ i)
    (hi' : i ≤ bb.terminalNode) (hl : f.IsLast i) : i = bb.terminalNode := by
  by_contra hne
  exact (h.isBlock ord bb hb).inner_not_isLast i hi (by omega) hl

/-- At the head of a block, what holds comes from the tail of a predecessor. -/
theorem before_start_iff (h : IsCfg f bbs) {gen kill : ℕ → Prop}
    (hgen : ∀ i, gen i → f.Reachable i) (hb : bbs[ord]? = some bb) :
    f.Before gen kill bb.bytecodeIndex ↔
      ∃ (p : ℕ) (pb : _), bbs[p]? = some pb ∧ ord ∈ pb.successors ∧
        f.After gen kill pb.terminalNode := by
  constructor
  · rintro ⟨j, hn, hj⟩
    obtain ⟨p, pb, hpb, hle, hge⟩ := h.exists_block (hj.reachable hgen)
    have hlast : f.IsLast j := by
      by_contra hl
      have hj1 := (next_iff_of_not_isLast hl).mp hn
      exact hl ((h.isBlock ord bb hb).start_first j hj1.symm)
    obtain rfl := h.eq_terminalNode hpb hle hge hlast
    obtain ⟨succ, hs, hst⟩ := (h.next_iff p pb hpb _).mp hn
    obtain rfl := h.start_injective succ ord _ hst (startAt_eq hb)
    exact ⟨p, pb, hpb, hs, hj⟩
  · rintro ⟨p, pb, hpb, hs, hj⟩
    exact ⟨pb.terminalNode, (h.next_iff p pb hpb _).mpr ⟨ord, hs, startAt_eq hb⟩, hj⟩

end IsCfg

/-! ## What the propagation sees

It looks for captures inside the blocks and for closes at their ends only. -/

variable (f) in
/-- A bytecode captures a local mutably. -/
def Captures (l : Fin numLocals) (i : ℕ) : Prop := l ∈ (f.bytecode i).kind.captures

variable (f) in
/-- A bytecode closes a local. -/
def Closes (l : Fin numLocals) (i : ℕ) : Prop := (f.bytecode i).kind.Closes l

variable (f) in
/-- A reachable capture by a bytecode that is not the last of its block. -/
def InnerCapture (l : Fin numLocals) (i : ℕ) : Prop :=
  f.Reachable i ∧ ¬ f.IsLast i ∧ f.Captures l i

variable (f) in
/-- A close by the last bytecode of a block. -/
def LastClose (l : Fin numLocals) (i : ℕ) : Prop := f.IsLast i ∧ f.Closes l i

variable (f) in
/-- **What `AnalyzeLocalCaptures` takes for captured**: captures by the last bytecode of a block and
closes by any other bytecode are not seen. -/
def SeenAfter (l : Fin numLocals) : ℕ → Prop := f.After (f.InnerCapture l) (f.LastClose l)

variable (f) in
/-- …when a bytecode is about to be executed. -/
def SeenBefore (l : Fin numLocals) : ℕ → Prop := f.Before (f.InnerCapture l) (f.LastClose l)

theorem InnerCapture.reachable {l : Fin numLocals} :
    ∀ i, f.InnerCapture l i → f.Reachable i := fun _ h => h.1

section Block

variable {bb : BasicBlockUpvalueInfo numLocals} {l : Fin numLocals}

/-- Inside a block nothing that has been seen is lost. -/
theorem seenBefore_iff (h : IsBlock f bb) (hr : f.Reachable bb.bytecodeIndex) {i : ℕ}
    (hi : bb.bytecodeIndex ≤ i) : i ≤ bb.terminalNode →
      (f.SeenBefore l i ↔ f.SeenBefore l bb.bytecodeIndex ∨
        ∃ c, bb.bytecodeIndex ≤ c ∧ c < i ∧ f.Captures l c) := by
  induction i, hi using Nat.le_induction with
  | base =>
    intro _
    constructor
    · exact .inl
    · rintro (h | ⟨c, hc, hc', -⟩)
      · exact h
      · omega
  | succ i hi ih =>
    intro hlt
    have hlast := h.inner_not_isLast i hi hlt
    have hri := reachable_of_start_le h hr hi (by omega)
    rw [SeenBefore, before_succ_iff InnerCapture.reachable hlast, after_iff]
    constructor
    · rintro (hg | ⟨-, hb⟩)
      · exact .inr ⟨i, hi, Nat.lt_succ_self i, hg.2.2⟩
      · refine ((ih (by omega)).mp hb).imp_right ?_
        rintro ⟨c, hc, hci, hcap⟩
        exact ⟨c, hc, by omega, hcap⟩
    · intro hs
      by_cases hcap : f.Captures l i
      · exact .inl ⟨hri, hlast, hcap⟩
      · refine .inr ⟨fun hk => hlast hk.1, (ih (by omega)).mpr (hs.imp_right ?_)⟩
        rintro ⟨c, hc, hci, hcc⟩
        have hne : c ≠ i := fun hne => hcap (hne ▸ hcc)
        exact ⟨c, hc, by omega, hcc⟩

/-- Behind a block is seen what is before its end, unless it is closed there. -/
theorem seenAfter_terminal_iff (h : IsBlock f bb) :
    f.SeenAfter l bb.terminalNode ↔
      ¬ f.Closes l bb.terminalNode ∧ f.SeenBefore l bb.terminalNode := by
  rw [SeenAfter, after_iff]
  constructor
  · rintro (hg | ⟨hk, hb⟩)
    · exact absurd h.terminal_isLast hg.2.1
    · exact ⟨fun hc => hk ⟨h.terminal_isLast, hc⟩, hb⟩
  · exact fun ⟨hk, hb⟩ => .inr ⟨fun hc => hk hc.2, hb⟩

/-- The captures inside a block, but for its last bytecode. -/
theorem mem_capturesInBB :
    l ∈ f.capturesInBB bb ↔
      ∃ c, bb.bytecodeIndex ≤ c ∧ c < bb.terminalNode ∧ f.Captures l c := by
  simp only [capturesInBB, List.mem_flatMap, List.mem_range'_1, Captures]
  constructor
  · rintro ⟨c, ⟨h1, h2⟩, hc⟩
    exact ⟨c, h1, by omega, hc⟩
  · rintro ⟨c, h1, h2, hc⟩
    exact ⟨c, ⟨h1, by omega⟩, hc⟩

/-- A local below the limit is not closed at the end. -/
theorem belowUcloseLimit_iff : f.belowUcloseLimit bb l = true ↔ ¬ f.Closes l bb.terminalNode := by
  unfold belowUcloseLimit Closes
  cases (f.bytecode bb.terminalNode).kind <;> simp [BytecodeKind.Closes]

/-- The tail of a block, read off its bytecodes. -/
theorem mem_tailOfHead {bbs : List (BasicBlockUpvalueInfo numLocals)} {ord : ℕ}
    (hb : bbs[ord]? = some bb) {head : Finset (Fin numLocals)} :
    l ∈ f.tailOfHead bbs ord head ↔ ¬ f.Closes l bb.terminalNode ∧
      (l ∈ head ∨ ∃ c, bb.bytecodeIndex ≤ c ∧ c < bb.terminalNode ∧ f.Captures l c) := by
  have hget : bbs.getD ord default = bb := by rw [List.getD_eq_getElem?_getD, hb]; rfl
  rw [tailOfHead, hget, Finset.mem_filter, belowUcloseLimit_iff, Finset.mem_union,
    List.mem_toFinset, mem_capturesInBB, and_comm]

/-- More at the head gives more at the tail. -/
theorem tailOfHead_mono {bbs : List (BasicBlockUpvalueInfo numLocals)} {ord : ℕ}
    {head head' : Finset (Fin numLocals)} (h : head ⊆ head') :
    f.tailOfHead bbs ord head ⊆ f.tailOfHead bbs ord head' :=
  Finset.filter_subset_filter _ (Finset.union_subset_union_left h)

end Block

/-! ## The queue

The blocks whose head has changed; each is in the queue once. -/

namespace Worklist

variable {s : Worklist numLocals} {tail : Finset (Fin numLocals)} {n : ℕ}

/-- The queue holds each waiting block once. -/
structure QueueOk (n : ℕ) (s : Worklist numLocals) : Prop where
  nodup : s.queue.Nodup
  isInQueue : ∀ o, s.isInQueue o = true ↔ o ∈ s.queue
  lt : ∀ o ∈ s.queue, o < n

/-- Pushing a block keeps the queue in order. -/
theorem QueueOk.pushQueue (h : QueueOk n s) {value : ℕ} (hv : value < n) :
    QueueOk n (s.pushQueue value) := by
  unfold Worklist.pushQueue
  split_ifs with hin
  · exact h
  · have hnot : value ∉ s.queue := fun hm => hin ((h.isInQueue value).mpr hm)
    constructor
    · exact List.nodup_append.mpr ⟨h.nodup, List.nodup_singleton value, fun a ha b hb =>
        fun hab => hnot (List.mem_singleton.mp hb ▸ hab ▸ ha)⟩
    · intro o
      by_cases ho : o = value
      · subst ho; simp
      · simp [ho, h.isInQueue o]
    · intro o ho
      rcases List.mem_append.mp ho with ho | ho
      · exact h.lt o ho
      · rw [List.mem_singleton.mp ho]; exact hv

theorem pushQueue_atHead (s : Worklist numLocals) (value : ℕ) :
    (s.pushQueue value).atHead = s.atHead := by
  unfold pushQueue; split_ifs <;> rfl

theorem pushQueue_atTail (s : Worklist numLocals) (value : ℕ) :
    (s.pushQueue value).atTail = s.atTail := by
  unfold pushQueue; split_ifs <;> rfl

theorem pushQueue_isInQueue (s : Worklist numLocals) (value : ℕ) :
    (s.pushQueue value).isInQueue = Function.update s.isInQueue value true := by
  unfold pushQueue
  split_ifs with h
  · rw [← h, Function.update_eq_self]
  · rfl

/-- A push adds at most one entry. -/
theorem length_pushQueue_le (s : Worklist numLocals) (value : ℕ) :
    (s.pushQueue value).queue.length ≤ s.queue.length + 1 := by
  unfold pushQueue; split_ifs <;> simp

/-- The number of bits set in the heads of the first `n` blocks. -/
def numHeadBits (n : ℕ) (s : Worklist numLocals) : ℕ := ∑ o ∈ Finset.range n, (s.atHead o).card

theorem numHeadBits_le (s : Worklist numLocals) : s.numHeadBits n ≤ n * numLocals := by
  calc s.numHeadBits n ≤ ∑ _o ∈ Finset.range n, numLocals :=
        Finset.sum_le_sum fun o _ => by simpa using Finset.card_le_univ (s.atHead o)
    _ = n * numLocals := by simp

/-- **What merging a tail into heads does**: they take the tail's bits, and a block whose head has
changed waits in the queue. -/
structure Merged (n : ℕ) (tail : Finset (Fin numLocals)) (succs : List ℕ)
    (s s' : Worklist numLocals) : Prop where
  ok : QueueOk n s'
  atTail : s'.atTail = s.atTail
  atHead : ∀ o, s'.atHead o = if o ∈ succs then s.atHead o ∪ tail else s.atHead o
  waits : ∀ o, s'.isInQueue o = false → s.isInQueue o = false ∧ s'.atHead o = s.atHead o
  size : s'.queue.length + s.numHeadBits n ≤ s.queue.length + s'.numHeadBits n

/-- One successor takes in the tail. -/
theorem merged_mergeInto (tail : Finset (Fin numLocals)) (h : QueueOk n s) {succ : ℕ}
    (hs : succ < n) :
    Merged n tail [succ] s (s.mergeInto tail succ) := by
  unfold Worklist.mergeInto
  split_ifs with hsame
  · refine ⟨h, rfl, fun o => ?_, fun o ho => ⟨ho, rfl⟩, le_rfl⟩
    split_ifs with ho
    · rw [List.mem_singleton.mp ho, hsame]
    · rfl
  · obtain ⟨s₁, hs₁⟩ : ∃ s₁ : Worklist numLocals, s₁ = { s with
      atHead := Function.update s.atHead succ (s.atHead succ ∪ tail) } := ⟨_, rfl⟩
    rw [← hs₁]
    have hself : s₁.atHead succ = s.atHead succ ∪ tail := by
      rw [hs₁]; exact Function.update_self ..
    have hother : ∀ o, o ≠ succ → s₁.atHead o = s.atHead o := fun o ho => by
      rw [hs₁]; exact Function.update_of_ne ho ..
    have hok : QueueOk n s₁ := by rw [hs₁]; exact ⟨h.nodup, h.isInQueue, h.lt⟩
    refine ⟨hok.pushQueue hs, ?_, fun o => ?_, fun o ho => ?_, ?_⟩
    · rw [pushQueue_atTail, hs₁]
    · rw [pushQueue_atHead]
      by_cases ho : o = succ
      · subst ho; simp [hself]
      · simp [hother o ho, ho]
    · rw [pushQueue_isInQueue, hs₁] at ho
      have hne : o ≠ succ := by
        rintro rfl
        rw [Function.update_self] at ho
        exact absurd ho (by decide)
      rw [Function.update_of_ne hne] at ho
      exact ⟨ho, by rw [pushQueue_atHead, hother o hne]⟩
    · -- the head of `succ` has grown by at least one bit
      have hlt : s.numHeadBits n < s₁.numHeadBits n := by
        refine Finset.sum_lt_sum (fun o _ => Finset.card_le_card ?_)
          ⟨succ, Finset.mem_range.mpr hs, Finset.card_lt_card ?_⟩
        · by_cases ho : o = succ
          · subst ho; rw [hself]; exact Finset.subset_union_left
          · rw [hother o ho]
        · rw [hself]
          exact Finset.ssubset_iff_subset_ne.mpr ⟨Finset.subset_union_left, Ne.symm hsame⟩
      have hlen := length_pushQueue_le s₁ succ
      have hqueue : s₁.queue = s.queue := by rw [hs₁]
      have hbits : (s₁.pushQueue succ).numHeadBits n = s₁.numHeadBits n := by
        simp only [numHeadBits, pushQueue_atHead]
      rw [hqueue] at hlen
      rw [hbits]
      omega

/-- One successor after another. -/
theorem Merged.cons {succ : ℕ} {succs : List ℕ} {s' s'' : Worklist numLocals}
    (h : Merged n tail [succ] s s') (h' : Merged n tail succs s' s'') :
    Merged n tail (succ :: succs) s s'' := by
  refine ⟨h'.ok, h'.atTail.trans h.atTail, fun o => ?_, fun o ho => ?_, ?_⟩
  · rw [h'.atHead, h.atHead]
    by_cases h1 : o = succ <;> by_cases h2 : o ∈ succs <;> simp [h1, h2]
  · obtain ⟨h1, h2⟩ := h'.waits o ho
    obtain ⟨h3, h4⟩ := h.waits o h1
    exact ⟨h3, h2.trans h4⟩
  · have := h.size
    have := h'.size
    omega

/-- The loop over the successors. -/
theorem merged_foldl (tail : Finset (Fin numLocals)) : ∀ (succs : List ℕ) (s : Worklist numLocals),
    QueueOk n s →
    (∀ o ∈ succs, o < n) → Merged n tail succs s (succs.foldl (Worklist.mergeInto tail) s)
  | [], s, h, _ => ⟨h, rfl, fun o => by simp, fun o ho => ⟨ho, rfl⟩, le_rfl⟩
  | succ :: succs, s, h, hlt => by
      have hfirst := merged_mergeInto tail h (hlt succ List.mem_cons_self)
      exact hfirst.cons (merged_foldl tail succs _ hfirst.ok fun o ho =>
        hlt o (List.mem_cons_of_mem succ ho))

end Worklist

/-! ## The propagation

The heads only grow, and there are finitely many bits in them. -/

open Worklist

section Propagation

variable {bbs : List (BasicBlockUpvalueInfo numLocals)} {s : Worklist numLocals}

/-- The invariant of the propagation.  `busy` is the block that has just been taken from the queue,
if there is one. -/
structure CaptureInv (f : BytecodeFunction numLocals) (bbs : List (BasicBlockUpvalueInfo numLocals))
    (busy : Option ℕ) (s : Worklist numLocals) : Prop where
  ok : QueueOk bbs.length s
  head_seen : ∀ (ord : ℕ) bb, bbs[ord]? = some bb → ∀ l ∈ s.atHead ord,
    f.SeenBefore l bb.bytecodeIndex
  tail_le : ∀ ord, s.atTail ord ⊆ f.tailOfHead bbs ord (s.atHead ord)
  tail_eq : ∀ ord < bbs.length, s.isInQueue ord = false → busy ≠ some ord →
    s.atTail ord = f.tailOfHead bbs ord (s.atHead ord)
  flows : ∀ (ord : ℕ) bb, bbs[ord]? = some bb → ∀ succ ∈ bb.successors,
    s.atTail ord ⊆ s.atHead succ

/-- What is in a tail so far is seen there. -/
theorem CaptureInv.tail_seen {busy : Option ℕ} (h : IsCfg f bbs) (hI : CaptureInv f bbs busy s)
    {ord : ℕ} {bb : BasicBlockUpvalueInfo numLocals} (hb : bbs[ord]? = some bb)
    {l : Fin numLocals} (hl : l ∈ f.tailOfHead bbs ord (s.atHead ord)) :
    f.SeenAfter l bb.terminalNode := by
  have hblock := h.isBlock ord bb hb
  obtain ⟨hk, hl⟩ := (mem_tailOfHead hb).mp hl
  refine (seenAfter_terminal_iff hblock).mpr ⟨hk, ?_⟩
  refine (seenBefore_iff hblock (h.reachable ord bb hb) hblock.start_le le_rfl).mpr ?_
  exact hl.imp_left (hI.head_seen ord bb hb l)

/-- Taking a block from the queue. -/
theorem CaptureInv.pop {ord : ℕ} {q : List ℕ} (hI : CaptureInv f bbs none s)
    (hq : s.queue = ord :: q) : CaptureInv f bbs (some ord) { s with
      queue := q, isInQueue := Function.update s.isInQueue ord false } := by
  have hnodup := hI.ok.nodup
  rw [hq] at hnodup
  obtain ⟨hnot, hnd⟩ := List.nodup_cons.mp hnodup
  refine ⟨⟨hnd, fun o => ?_, fun o ho => ?_⟩, hI.head_seen, hI.tail_le, ?_, hI.flows⟩
  · by_cases ho : o = ord
    · subst ho; simp [hnot]
    · have := hI.ok.isInQueue o
      rw [hq] at this
      simp [ho, this]
  · exact hI.ok.lt o (by rw [hq]; exact List.mem_cons_of_mem ord ho)
  · intro o ho hin hne
    have hoo : o ≠ ord := fun h => hne (by rw [h])
    refine hI.tail_eq o ho ?_ (by simp)
    exact (Function.update_of_ne hoo _ _).symm.trans hin

/-- The bits at the tail of a block have gone to the heads behind it. -/
theorem CaptureInv.spread {ord : ℕ} (h : IsCfg f bbs) (hI : CaptureInv f bbs (some ord) s)
    {bb : BasicBlockUpvalueInfo numLocals} (hb : bbs[ord]? = some bb)
    {tail : Finset (Fin numLocals)} (htail : tail = f.tailOfHead bbs ord (s.atHead ord))
    {s₁ s' : Worklist numLocals}
    (hs₁ : s₁ = { s with atTail := Function.update s.atTail ord tail })
    (hm : Merged bbs.length tail bb.successors s₁ s') : CaptureInv f bbs none s' := by
  have hhead₁ : s₁.atHead = s.atHead := by rw [hs₁]
  have hself : s₁.atTail ord = tail := by rw [hs₁]; exact Function.update_self ..
  have hother : ∀ o, o ≠ ord → s₁.atTail o = s.atTail o := fun o ho => by
    rw [hs₁]; exact Function.update_of_ne ho ..
  have hgrow : ∀ o, s.atHead o ⊆ s'.atHead o := by
    intro o
    rw [hm.atHead, hhead₁]
    split_ifs
    · exact Finset.subset_union_left
    · exact subset_rfl
  refine ⟨hm.ok, ?_, ?_, ?_, ?_⟩
  · -- a bit that a head has taken over has come along a path through `ord`
    intro o ob hob l hl
    rw [hm.atHead, hhead₁] at hl
    split_ifs at hl with ho
    · rcases Finset.mem_union.mp hl with hl | hl
      · exact hI.head_seen o ob hob l hl
      · refine (h.before_start_iff InnerCapture.reachable hob).mpr ⟨ord, bb, hb, ho, ?_⟩
        exact hI.tail_seen h hb (htail ▸ hl)
    · exact hI.head_seen o ob hob l hl
  · intro o
    rw [hm.atTail]
    by_cases ho : o = ord
    · subst ho; rw [hself, htail]; exact tailOfHead_mono (hgrow o)
    · rw [hother o ho]; exact (hI.tail_le o).trans (tailOfHead_mono (hgrow o))
  · intro o ho hin _
    obtain ⟨hin₁, hh⟩ := hm.waits o hin
    rw [hm.atTail, hh, hhead₁]
    by_cases hoo : o = ord
    · subst hoo; rw [hself, htail]
    · rw [hother o hoo]
      refine hI.tail_eq o ho ?_ fun h => hoo (Option.some.inj h).symm
      rwa [hs₁] at hin₁
  · intro o ob hob succ hsucc
    rw [hm.atTail, hm.atHead, hhead₁]
    by_cases hoo : o = ord
    · subst hoo
      obtain rfl := Option.some.inj (hob.symm.trans hb)
      rw [hself, if_pos hsucc]
      exact Finset.subset_union_right
    · rw [hother o hoo]
      split_ifs
      · exact (hI.flows o ob hob succ hsucc).trans Finset.subset_union_left
      · exact hI.flows o ob hob succ hsucc

/-- Step lemma of the propagation, with the measure that bounds it. -/
theorem CaptureInv.worklistStep {ord : ℕ} (h : IsCfg f bbs) (hI : CaptureInv f bbs (some ord) s)
    (hord : ord < bbs.length) : CaptureInv f bbs none (f.worklistStep bbs s ord) ∧
      (f.worklistStep bbs s ord).queue.length + s.numHeadBits bbs.length
        ≤ s.queue.length + (f.worklistStep bbs s ord).numHeadBits bbs.length := by
  obtain ⟨bb, hb⟩ : ∃ bb, bbs[ord]? = some bb := ⟨_, List.getElem?_eq_getElem hord⟩
  have hget : bbs.getD ord default = bb := by rw [List.getD_eq_getElem?_getD, hb]; rfl
  unfold BytecodeFunction.worklistStep
  simp only [hget]
  split_ifs with hsame
  · refine ⟨⟨hI.ok, hI.head_seen, hI.tail_le, fun o ho hin _ => ?_, hI.flows⟩, le_rfl⟩
    by_cases hoo : o = ord
    · subst hoo; exact hsame.symm
    · exact hI.tail_eq o ho hin fun h => hoo (Option.some.inj h).symm
  · obtain ⟨tail, htail⟩ : ∃ tail, tail = f.tailOfHead bbs ord (s.atHead ord) := ⟨_, rfl⟩
    rw [← htail]
    obtain ⟨s₁, hs₁⟩ : ∃ s₁ : Worklist numLocals, s₁ = { s with
      atTail := Function.update s.atTail ord tail } := ⟨_, rfl⟩
    rw [← hs₁]
    have hok₁ : QueueOk bbs.length s₁ := by
      rw [hs₁]; exact ⟨hI.ok.nodup, hI.ok.isInQueue, hI.ok.lt⟩
    have hlt : ∀ o ∈ bb.successors, o < bbs.length := by
      intro o ho
      by_contra hge
      have := h.succ_isSome ord bb hb o ho
      simp [startAt, List.getElem?_eq_none (not_lt.mp hge)] at this
    have hm := merged_foldl tail bb.successors s₁ hok₁ hlt
    have hsize := hm.size
    have hq : s₁.queue = s.queue := by rw [hs₁]
    have hn : s₁.numHeadBits bbs.length = s.numHeadBits bbs.length := by
      simp only [numHeadBits, hs₁]
    rw [hq, hn] at hsize
    exact ⟨hI.spread h hb htail hs₁ hm, hsize⟩

/-- **Run lemma of the propagation**: it ends, with the queue empty. -/
theorem runWorklist_isSome (h : IsCfg f bbs) : ∀ (fuel : ℕ) (s : Worklist numLocals),
    CaptureInv f bbs none s →
    s.queue.length + bbs.length * numLocals ≤ fuel + s.numHeadBits bbs.length →
    ∃ s', f.runWorklist bbs fuel s = some s' ∧ s'.queue = [] ∧ CaptureInv f bbs none s' := by
  intro fuel
  induction fuel with
  | zero =>
    intro s hI hf
    have := s.numHeadBits_le (n := bbs.length)
    have hq : s.queue = [] := List.length_eq_zero_iff.mp (by omega)
    exact ⟨s, by rw [runWorklist, if_pos hq], hq, hI⟩
  | succ fuel ih =>
    intro s hI hf
    cases hq : s.queue with
    | nil => exact ⟨s, by simp only [runWorklist, hq], hq, hI⟩
    | cons ord q =>
      have hord : ord < bbs.length := hI.ok.lt ord (by rw [hq]; exact List.mem_cons_self)
      obtain ⟨hI', hsize⟩ := (hI.pop hq).worklistStep h hord
      change _ + s.numHeadBits bbs.length ≤ q.length + _ at hsize
      rw [hq, List.length_cons] at hf
      obtain ⟨s', hs', hend⟩ := ih _ hI' (by omega)
      exact ⟨s', by simp only [runWorklist, hq]; exact hs', hend⟩

/-- The blocks with a capture wait in the queue at the beginning. -/
theorem worklistStart_inv (f : BytecodeFunction numLocals)
    (bbs : List (BasicBlockUpvalueInfo numLocals)) : CaptureInv f bbs none (f.worklistStart bbs) ∧
    (f.worklistStart bbs).queue.length ≤ bbs.length := by
  obtain ⟨hhead, htail, hok, hin, hlen⟩ : (∀ o, (f.worklistStart bbs).atHead o = ∅) ∧
      (∀ o, (f.worklistStart bbs).atTail o = ∅) ∧ QueueOk bbs.length (f.worklistStart bbs) ∧
      (∀ o < bbs.length, (f.worklistStart bbs).isInQueue o = false →
        f.capturesInBB (bbs.getD o default) = []) ∧
      (f.worklistStart bbs).queue.length ≤ bbs.length := by
    unfold worklistStart
    generalize hn : bbs.length = n
    -- the ordinals below `k` have been looked at
    suffices H : ∀ k ≤ n, ∃ s : Worklist numLocals, s = (List.range k).foldl
        (fun s ord => if f.capturesInBB (bbs.getD ord default) = [] then s else s.pushQueue ord)
        { atHead := fun _ => ∅, atTail := fun _ => ∅, queue := [], isInQueue := fun _ => false } ∧
        (∀ o, s.atHead o = ∅) ∧ (∀ o, s.atTail o = ∅) ∧ QueueOk n s ∧
        (∀ o < k, s.isInQueue o = false → f.capturesInBB (bbs.getD o default) = []) ∧
        s.queue.length ≤ k by
      obtain ⟨s, rfl, h⟩ := H n le_rfl
      exact h
    intro k
    induction k with
    | zero =>
      intro _
      refine ⟨_, rfl, fun _ => rfl, fun _ => rfl, ⟨List.nodup_nil, ?_, ?_⟩, ?_, le_rfl⟩
      · simp
      · simp
      · exact fun o ho => absurd ho (Nat.not_lt_zero o)
    | succ k ih =>
      intro hk
      obtain ⟨s, hs, hhead, htail, hok, hin, hlen⟩ := ih (by omega)
      rw [List.range_succ, List.foldl_append, ← hs, List.foldl_cons, List.foldl_nil]
      by_cases hcap : f.capturesInBB (bbs.getD k default) = []
      · refine ⟨s, by rw [if_pos hcap], hhead, htail, hok, fun o ho hoin => ?_, by omega⟩
        by_cases hok : o = k
        · rw [hok]; exact hcap
        · exact hin o (by omega) hoin
      · refine ⟨s.pushQueue k, by rw [if_neg hcap], ?_, ?_, hok.pushQueue hk, ?_, ?_⟩
        · rw [pushQueue_atHead]; exact hhead
        · rw [pushQueue_atTail]; exact htail
        · intro o ho hoin
          rw [pushQueue_isInQueue] at hoin
          have hok : o ≠ k := by
            rintro rfl
            rw [Function.update_self] at hoin
            exact absurd hoin (by decide)
          rw [Function.update_of_ne hok] at hoin
          exact hin o (by omega) hoin
        · exact (length_pushQueue_le s k).trans (by omega)
  refine ⟨⟨hok, ?_, ?_, ?_, ?_⟩, hlen⟩
  · intro ord bb _ l hl
    rw [hhead] at hl
    exact absurd hl (Finset.notMem_empty l)
  · intro ord
    rw [htail]
    exact Finset.empty_subset _
  · intro ord hord hoin _
    rw [htail, hhead, tailOfHead, hin ord hord hoin]
    simp
  · intro ord bb _ succ _
    rw [htail]
    exact Finset.empty_subset _

/-- **At the end nothing that is seen is missing.** -/
theorem CaptureInv.mem_tail_of_seenAfter (h : IsCfg f bbs) (hI : CaptureInv f bbs none s)
    (hq : s.queue = []) {ord : ℕ} {bb : BasicBlockUpvalueInfo numLocals}
    (hb : bbs[ord]? = some bb) {l : Fin numLocals} (hl : f.SeenAfter l bb.terminalNode) :
    l ∈ s.atTail ord := by
  have htail : ∀ (o : ℕ) ob, bbs[o]? = some ob → s.atTail o = f.tailOfHead bbs o (s.atHead o) := by
    intro o ob hob
    obtain ⟨hlt, -⟩ := List.getElem?_eq_some_iff.mp hob
    refine hI.tail_eq o hlt ?_ (by simp)
    have := hI.ok.isInQueue o
    rw [hq] at this
    simpa using this
  -- the bits the block of a bytecode knows of when the bytecode has been executed
  have hclosed : ∃ (o : ℕ) (ob : _), bbs[o]? = some ob ∧ ob.bytecodeIndex ≤ bb.terminalNode ∧
      bb.terminalNode ≤ ob.terminalNode ∧
      (bb.terminalNode < ob.terminalNode → l ∈ s.atHead o ∨
        ∃ c, ob.bytecodeIndex ≤ c ∧ c ≤ bb.terminalNode ∧ f.Captures l c) ∧
      (bb.terminalNode = ob.terminalNode → l ∈ s.atTail o) := by
    refine Reaches.mem_of_closed (S := fun i => ∃ (o : ℕ) (ob : _), bbs[o]? = some ob ∧
      ob.bytecodeIndex ≤ i ∧ i ≤ ob.terminalNode ∧
      (i < ob.terminalNode → l ∈ s.atHead o ∨
        ∃ c, ob.bytecodeIndex ≤ c ∧ c ≤ i ∧ f.Captures l c) ∧
      (i = ob.terminalNode → l ∈ s.atTail o)) ?_ ?_ hl
    · rintro i ⟨hr, hnl, hcap⟩
      obtain ⟨o, ob, hob, hle, hge⟩ := h.exists_block hr
      refine ⟨o, ob, hob, hle, hge, fun _ => .inr ⟨i, hle, le_rfl, hcap⟩, ?_⟩
      rintro rfl
      exact absurd (h.isBlock o ob hob).terminal_isLast hnl
    · rintro i j hk hn ⟨o, ob, hob, hle, hge, hin, hend⟩
      by_cases hj : j = ob.terminalNode
      · -- from the tail of `ob` to the head of a successor
        subst hj
        obtain ⟨succ, hs, hst⟩ := (h.next_iff o ob hob i).mp hn
        obtain ⟨sb, hsb, rfl⟩ := IsCfg.getElem?_of_startAt hst
        have hhead : l ∈ s.atHead succ := hI.flows o ob hob succ hs (hend rfl)
        have hblock := h.isBlock succ sb hsb
        refine ⟨succ, sb, hsb, le_rfl, hblock.start_le, fun _ => .inl hhead, fun heq => ?_⟩
        rw [htail succ sb hsb]
        refine (mem_tailOfHead hsb).mpr ⟨fun hc => hk ⟨?_, ?_⟩, .inl hhead⟩
        · rw [heq]; exact hblock.terminal_isLast
        · rw [heq]; exact hc
      · have hblock := h.isBlock o ob hob
        obtain rfl := (next_iff_of_not_isLast (hblock.inner_not_isLast j hle (by omega))).mp hn
        have hknown := hin (by omega)
        refine ⟨o, ob, hob, by omega, by omega, fun _ => ?_, fun heq => ?_⟩
        · refine hknown.imp_right ?_
          rintro ⟨c, hc, hcj, hcap⟩
          exact ⟨c, hc, by omega, hcap⟩
        · rw [htail o ob hob]
          refine (mem_tailOfHead hob).mpr ⟨fun hc => hk ⟨?_, ?_⟩, hknown.imp_right ?_⟩
          · rw [heq]; exact hblock.terminal_isLast
          · rw [heq]; exact hc
          · rintro ⟨c, hc, hcj, hcap⟩
            exact ⟨c, hc, by omega, hcap⟩
  obtain ⟨o, ob, hob, hle, hge, -, hend⟩ := hclosed
  obtain rfl := h.block_unique hob hb hle hge (h.isBlock ord bb hb).start_le le_rfl
  obtain rfl := Option.some.inj (hob.symm.trans hb)
  exact hend rfl

/-- **The propagation computes what it sees.** -/
theorem analyzeLocalCaptures_spec (h : IsCfg f bbs) (fuel : ℕ)
    (hfuel : bbs.length + bbs.length * numLocals ≤ fuel) :
    ∃ res, f.analyzeLocalCaptures bbs fuel = some res ∧ res.length = bbs.length ∧
      ∀ (ord : ℕ) bb, bbs[ord]? = some bb → ∃ rb, res[ord]? = some rb ∧
        rb.bytecodeIndex = bb.bytecodeIndex ∧ rb.terminalNode = bb.terminalNode ∧
        rb.successors = bb.successors ∧
        (∀ l, l ∈ rb.isLocalCapturedAtHead ↔ f.SeenBefore l bb.bytecodeIndex) ∧
        (∀ l, l ∈ rb.isLocalCapturedAtTail ↔ f.SeenAfter l bb.terminalNode) := by
  obtain ⟨hI, hlen⟩ := worklistStart_inv f bbs
  obtain ⟨s, hs, hq, hI⟩ := runWorklist_isSome h fuel _ hI (by omega)
  refine ⟨_, by rw [analyzeLocalCaptures, hs]; rfl, by simp, fun ord bb hb => ?_⟩
  refine ⟨{ bb with
      isLocalCapturedAtHead := s.atHead ord
      isLocalCapturedAtTail := s.atTail ord
      isLocalCapturedInBB := (f.capturesInBB bb).toFinset },
    by rw [List.getElem?_mapIdx, hb]; rfl, rfl, rfl, rfl, fun l => ⟨?_, ?_⟩, fun l => ⟨?_, ?_⟩⟩
  · exact hI.head_seen ord bb hb l
  · intro hl
    obtain ⟨p, pb, hpb, hmem, hp⟩ := (h.before_start_iff InnerCapture.reachable hb).mp hl
    exact hI.flows p pb hpb ord hmem (hI.mem_tail_of_seenAfter h hq hpb hp)
  · exact fun hl => hI.tail_seen h hb (hI.tail_le ord hl)
  · exact hI.mem_tail_of_seenAfter h hq hb

end Propagation

end BytecodeFunction

end Dsom
