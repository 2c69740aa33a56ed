import Dsom.Dfg.CfgCleanup
import Dsom.Foundations.Follow
import Mathlib.Data.List.Nodup

/-!
# Dfg/CfgBypass — the successors that replace empty blocks

Of a trivially empty block `Graph.next` is its successor, of every other block the block itself.
Path compression shortens the way to where `next` ends and nothing else (`Compressed`), so a block
that stays gets as successors the ends of its successors (`Bypassed`), and the runs of the graph are
the same but for the empty blocks (`Bypassed.sameRuns`).
-/

namespace Dsom

namespace CfgCleanup

namespace Graph

open Follow Traces

/-- The block that replaces a block in the first place. -/
def next (g : Graph) (b : ℕ) : ℕ :=
  if b ∈ g.blocks.tail ∧ g.isTriviallyEmptyBlock b then (g.successors b).headD b else b

/-! ## The marks

`m_replacement` marks every empty block with its successor, and every other block with itself. -/

/-- At first every block is marked with itself. -/
theorem foldl_setReplacement (g : Graph) (l : List ℕ) :
    l.foldl (fun g bb => g.setReplacement bb (some bb)) g
      = { g with replacement := fun b => if b ∈ l then some b else g.replacement b } := by
  induction l generalizing g with
  | nil => simp
  | cons first l ih =>
    rw [List.foldl_cons, ih]
    congr 1
    funext b
    by_cases hl : b ∈ l
    · simp [hl]
    · by_cases heq : b = first <;> simp [hl, heq, setReplacement]

/-- The block that replaces one which is looked at. -/
def jump (g : Graph) (b : ℕ) : ℕ :=
  if g.isTriviallyEmptyBlock b then (g.successors b).headD b else b

/-- An empty block is marked with its successor. -/
theorem markEmptyBlock_eq (g : Graph) (flag : Bool) (b : ℕ) :
    markEmptyBlock (g, flag) b
      = if g.jump b ≠ b then (g.setReplacement b (some (g.jump b)), true) else (g, flag) := by
  rw [markEmptyBlock, jump]
  dsimp only
  by_cases hempty : g.isTriviallyEmptyBlock b
  · simp only [if_pos hempty]
    cases g.successors b with
    | nil => simp
    | cons succ succs => rfl
  · simp only [if_neg hempty, ne_eq, not_true_eq_false, if_false]

/-- The marks after the loop. -/
theorem foldl_markEmptyBlock (g : Graph) (flag : Bool) (l : List ℕ) :
    l.foldl markEmptyBlock (g, flag)
      = ({ g with replacement := fun b =>
            if b ∈ l ∧ g.jump b ≠ b then some (g.jump b) else g.replacement b },
          flag || l.any fun b => decide (g.jump b ≠ b)) := by
  induction l generalizing g flag with
  | nil => simp
  | cons first l ih =>
    rw [List.foldl_cons, markEmptyBlock_eq]
    by_cases hne : g.jump first ≠ first
    · have hjump : (g.setReplacement first (some (g.jump first))).jump = g.jump := rfl
      rw [if_pos hne, ih, hjump, List.any_cons, decide_eq_true hne]
      refine Prod.ext (congrArg (fun r => { g with replacement := r }) (funext fun b => ?_))
        (by simp)
      by_cases heq : b = first
      · simp [heq, hne, setReplacement]
      · simp [heq, setReplacement]
    · rw [if_neg hne, ih, List.any_cons, decide_eq_false hne, Bool.false_or]
      refine Prod.ext (congrArg (fun r => { g with replacement := r }) (funext fun b => ?_)) rfl
      by_cases heq : b = first
      · simp [heq, not_not.mp hne]
      · simp [heq]

/-- **The marks** of the first loop: every block is replaced by the next. -/
theorem markEmptyBlocks_spec (g : Graph) (hr : ∀ b ∈ g.blocks, g.replacement b = some b) :
    ∃ r, (g.markEmptyBlocks).1 = { g with replacement := r } ∧
      (∀ b ∈ g.blocks, r b = some (g.next b)) ∧
      (g.markEmptyBlocks.2 = false → ∀ b, g.next b = b) := by
  rw [markEmptyBlocks, foldl_markEmptyBlock]
  refine ⟨_, rfl, fun b hb => ?_, fun hflag b => ?_⟩
  · by_cases htail : b ∈ g.blocks.tail
    · have hnext : g.next b = g.jump b := by simp [next, jump, htail]
      by_cases hne : g.jump b = b
      · simp [hnext, hne, hr b hb]
      · simp [hnext, hne, htail]
    · simp [next, htail, hr b hb]
  · by_cases htail : b ∈ g.blocks.tail
    · have hnext : g.next b = g.jump b := by simp [next, jump, htail]
      simp only [Bool.false_or, List.any_eq_false, decide_eq_true_eq, not_not] at hflag
      exact hnext.trans (hflag b htail)
    · simp [next, htail]

/-! ## Path compression

A mark may be moved further along the same chain at any time. -/

/-- A replacement is the next block or the one where the next blocks end. -/
def Compressed (g : Graph) (r : ℕ → Option ℕ) : Prop :=
  ∀ b ∈ g.blocks, r b = some (g.next b) ∨ ∃ m f, Ends g.next m b f ∧ r b = some f

/-- Only the end of a chain is marked with itself. -/
theorem Compressed.fixed {g : Graph} {r : ℕ → Option ℕ} (h : g.Compressed r) {b : ℕ}
    (hb : b ∈ g.blocks) : r b = some b ↔ g.next b = b := by
  rcases h b hb with h | ⟨m, f, hends, h⟩
  · rw [h, Option.some_inj]
  · rw [h, Option.some_inj]
    exact ⟨fun heq => heq ▸ hends.fixed, fun heq => hends.eq_of_fixed heq⟩

section Replace

variable {g : Graph} {r : ℕ → Option ℕ}

/-- A mark may be moved to the end of its chain. -/
theorem Compressed.update (h : g.Compressed r) {m b f : ℕ} (hends : Ends g.next m b f) :
    g.Compressed (Function.update r b (some f)) := by
  intro b' hb'
  by_cases heq : b' = b
  · subst heq
    exact .inr ⟨m, f, hends, Function.update_self ..⟩
  · rw [Function.update_of_ne heq]
    exact h b' hb'

/-- The end of a chain is its own replacement. -/
theorem getReplacement_fixed {g : Graph} {fuel b : ℕ} (hr : g.replacement b = some b) :
    getReplacement (fuel + 1) g b = some (b, g) := by
  rw [getReplacement, hr]
  exact if_pos rfl

/-- Elsewhere the replacement is that of the mark, and the mark is moved there. -/
theorem getReplacement_moves {g g' : Graph} {fuel b b' f : ℕ} (hr : g.replacement b = some b')
    (hne : b' ≠ b) (hrest : getReplacement fuel g b' = some (f, g')) :
    getReplacement (fuel + 1) g b = some (f, g'.setReplacement b (some f)) := by
  rw [getReplacement, hr]
  simp only [if_neg hne, hrest]

/-- **`GetReplacement`** finds the end, and compresses the way to it. -/
theorem getReplacement_spec (hmaps : ∀ b ∈ g.blocks, g.next b ∈ g.blocks) {m b f fuel : ℕ}
    {g' : Graph} (h : g.Compressed g'.replacement) (hb : b ∈ g.blocks) (hends : Ends g.next m b f)
    (hfuel : m < fuel) :
    ∃ r, getReplacement fuel g' b = some (f, { g' with replacement := r }) ∧ g.Compressed r := by
  induction hends generalizing fuel with
  | stay hstay =>
    obtain ⟨fuel, rfl⟩ := Nat.exists_eq_add_of_lt hfuel
    rw [Nat.zero_add]
    exact ⟨g'.replacement, getReplacement_fixed ((h.fixed hb).mpr hstay), h⟩
  | @go m b f hgo rest ih =>
    obtain ⟨fuel, rfl⟩ : ∃ k, fuel = k + 1 + 1 := ⟨fuel - 2, by omega⟩
    rcases h b hb with hr | ⟨m', f', hends', hr⟩
    · obtain ⟨r, hrest, h'⟩ := ih (hmaps b hb) (show m < fuel + 1 by omega)
      have hfound := getReplacement_moves hr hgo hrest
      exact ⟨Function.update r b (some f), hfound, h'.update (.go hgo rest)⟩
    · -- the way was compressed before
      obtain rfl := hends'.unique (.go hgo rest)
      have hne : f' ≠ b := fun heq => hgo (heq ▸ hends'.fixed)
      have hf : g'.replacement f' = some f' := (h.fixed (hends'.mem hmaps hb)).mpr hends'.fixed
      have hstays : getReplacement (fuel + 1) g' f' = some (f', g') := getReplacement_fixed hf
      have hfound := getReplacement_moves hr hne hstays
      exact ⟨Function.update g'.replacement b (some f'), hfound, h.update hends'⟩

end Replace

/-! ## The new successors -/

/-- The graph after some blocks were looked at: the successors of those that stay gave way to the
ends. -/
structure Bypassed (g : Graph) (seen : List ℕ) (g' : Graph) : Prop where
  rest : ∃ r succ, g' = { g with replacement := r, successors := succ }
  compressed : g.Compressed g'.replacement
  successors : ∀ b ∈ seen, g.next b = b →
    List.Forall₂ (fun s s' => ∃ m, Ends g.next m s s') (g.successors b) (g'.successors b)
  others : ∀ b, b ∉ seen ∨ g.next b ≠ b → g'.successors b = g.successors b

section Redirect

variable {g g' : Graph} {fuel bb : ℕ}

/-- One successor of a block. -/
theorem redirectSuccessor_spec (hmaps : ∀ b ∈ g.blocks, g.next b ∈ g.blocks)
    (hclosed : ∀ b' ∈ g.successors bb, b' ∈ g.blocks)
    (hends : ∀ s ∈ g.successors bb, ∃ m f, Ends g.next m s f ∧ m < fuel)
    (h : g.Compressed g'.replacement) {i : ℕ} {s : ℕ} (hs : (g'.successors bb)[i]? = some s)
    (hin : s ∈ g.successors bb) :
    ∃ r m f, Ends g.next m s f ∧ g.Compressed r ∧
      redirectSuccessor fuel bb g' i = some { g' with
        replacement := r
        successors := Function.update g'.successors bb ((g'.successors bb).set i f) } := by
  obtain ⟨m, f, hf, hm⟩ := hends s hin
  obtain ⟨r, hget, hr⟩ := getReplacement_spec hmaps h (hclosed s hin) hf hm
  refine ⟨r, m, f, hf, hr, ?_⟩
  rw [redirectSuccessor, hs]
  simp only [hget]
  by_cases heq : f = s
  · subst heq
    have hset : (g'.successors bb).set i f = g'.successors bb := by
      obtain ⟨hi, hget⟩ := List.getElem?_eq_some_iff.mp hs
      rw [← hget, List.set_getElem_self]
    rw [if_neg (not_not.mpr rfl), hset, Function.update_eq_self]
  · rw [if_pos heq]
    rfl

/-- All successors of a block that stays. -/
theorem redirectSuccessors_spec (hmaps : ∀ b ∈ g.blocks, g.next b ∈ g.blocks)
    (hclosed : ∀ b' ∈ g.successors bb, b' ∈ g.blocks)
    (hends : ∀ s ∈ g.successors bb, ∃ m f, Ends g.next m s f ∧ m < fuel)
    (h : g.Compressed g'.replacement) (hsucc : g'.successors bb = g.successors bb) (n : ℕ)
    (hn : n ≤ (g.successors bb).length) :
    ∃ r done, done.length = n ∧
      List.Forall₂ (fun s s' => ∃ m, Ends g.next m s s') ((g.successors bb).take n) done ∧
      g.Compressed r ∧
      (List.range n).foldlM (redirectSuccessor fuel bb) g' = some { g' with
        replacement := r
        successors := Function.update g'.successors bb (done ++ (g.successors bb).drop n) } := by
  induction n with
  | zero => exact ⟨g'.replacement, [], rfl, .nil, h, by simp [← hsucc]⟩
  | succ n ih =>
    obtain ⟨r, done, hlen, hall, hr, hfold⟩ := ih (by omega)
    have hget : (g.successors bb)[n]? = some (g.successors bb)[n] := List.getElem?_eq_getElem hn
    have hat : (done ++ (g.successors bb).drop n)[n]? = some (g.successors bb)[n] := by
      rw [List.getElem?_append_right hlen.le, hlen, Nat.sub_self, List.getElem?_drop]
      exact hget
    let g₁ : Graph := { g' with
      replacement := r
      successors := Function.update g'.successors bb (done ++ (g.successors bb).drop n) }
    have hat₁ : (g₁.successors bb)[n]? = some (g.successors bb)[n] := by
      simpa [g₁] using hat
    obtain ⟨r', m, f, hf, hr', hstep⟩ := redirectSuccessor_spec hmaps hclosed hends
      (show g.Compressed g₁.replacement from hr) hat₁ (List.getElem_mem hn)
    refine ⟨r', done ++ [f], by simp [hlen], ?_, hr', ?_⟩
    · rw [List.take_add_one, hget]
      exact List.rel_append hall (.cons ⟨m, hf⟩ .nil)
    · rw [List.range_succ, List.foldlM_append, hfold]
      simp only [Option.bind_eq_bind, Option.bind_some, List.foldlM_cons, List.foldlM_nil]
      rw [show redirectSuccessor fuel bb _ n = _ from hstep]
      simp only [g₁, Option.bind_some, Option.pure_def, Option.some_inj, Function.update_self,
        Function.update_idem]
      congr 2
      rw [List.set_append_right _ _ hlen.le, hlen, Nat.sub_self, List.drop_eq_getElem_cons hn,
        List.set_cons_zero, List.append_assoc, List.singleton_append]

/-- **The second loop**, for one more block. -/
theorem Bypassed.step (hmaps : ∀ b ∈ g.blocks, g.next b ∈ g.blocks) {seen : List ℕ}
    (hb : bb ∈ g.blocks) (hnew : bb ∉ seen) (hclosed : ∀ b' ∈ g.successors bb, b' ∈ g.blocks)
    (hends : g.next bb = bb → ∀ s ∈ g.successors bb, ∃ m f, Ends g.next m s f ∧ m < fuel)
    (h : Bypassed g seen g') :
    ∃ g'', redirectSuccessors fuel g' bb = some g'' ∧ Bypassed g (seen ++ [bb]) g'' := by
  have hfixed := h.compressed.fixed hb
  have hsucc := h.others bb (.inl hnew)
  obtain ⟨r, succ, rfl⟩ := h.rest
  rw [redirectSuccessors]
  by_cases hstay : g.next bb = bb
  · rw [if_neg (not_not.mpr (hfixed.mpr hstay)), hsucc]
    obtain ⟨r', done, hlen, hall, hr', hfold⟩ := redirectSuccessors_spec hmaps hclosed
      (hends hstay) h.compressed hsucc _ (Nat.le_refl _)
    rw [List.take_length] at hall
    rw [List.drop_length, List.append_nil] at hfold
    refine ⟨_, hfold, ⟨r', Function.update succ bb done, rfl⟩, hr', fun b hseen hb => ?_,
      fun b hb => ?_⟩
    · by_cases heq : b = bb
      · subst heq
        simpa using hall
      · have hin : b ∈ seen := (List.mem_append.mp hseen).resolve_right (by simpa using heq)
        simpa [heq] using h.successors b hin hb
    · have heq : b ≠ bb := by
        rintro rfl
        exact hb.elim (fun hb => hb (by simp)) (fun hb => hb hstay)
      have hrest : b ∉ seen ∨ g.next b ≠ b := hb.imp_left fun hb hin => hb (by simp [hin])
      simpa [heq] using h.others b hrest
  · rw [if_pos (hfixed.not.mpr hstay)]
    refine ⟨_, rfl, ⟨r, succ, rfl⟩, h.compressed, fun b hseen hb => ?_, fun b hb => ?_⟩
    · refine h.successors b ((List.mem_append.mp hseen).resolve_right fun hone => ?_) hb
      exact hstay (List.mem_singleton.mp hone ▸ hb)
    · exact h.others b (hb.imp_left fun hb hin => hb (by simp [hin]))

/-- The loop over the blocks redirects the successors of all of them. -/
theorem foldlM_redirectSuccessors (hmaps : ∀ b ∈ g.blocks, g.next b ∈ g.blocks)
    (hclosed : ∀ b ∈ g.blocks, ∀ b' ∈ g.successors b, b' ∈ g.blocks)
    (hends : ∀ b ∈ g.blocks, g.next b = b → ∀ s ∈ g.successors b,
      ∃ m f, Ends g.next m s f ∧ m < fuel)
    {seen rest : List ℕ} (hnodup : (seen ++ rest).Nodup) (hsub : rest ⊆ g.blocks)
    (h : Bypassed g seen g') :
    ∃ g'', rest.foldlM (redirectSuccessors fuel) g' = some g'' ∧ Bypassed g (seen ++ rest) g'' := by
  induction rest generalizing seen g' with
  | nil => exact ⟨g', rfl, by simpa using h⟩
  | cons b rest ih =>
    have hb : b ∈ g.blocks := hsub (.head _)
    have hnew : b ∉ seen := fun hin => (List.nodup_append.mp hnodup).2.2 b hin b (.head _) rfl
    obtain ⟨g₁, hstep, h₁⟩ := h.step hmaps hb hnew (hclosed b hb) (hends b hb)
    rw [← List.singleton_append, ← List.append_assoc] at hnodup ⊢
    obtain ⟨g₂, hrest, h₂⟩ := ih hnodup (fun _ hx => hsub (.tail _ hx)) h₁
    exact ⟨g₂, by simp [hstep, hrest], h₂⟩

end Redirect

/-! ## The empty blocks end

In a graph without a circle of empty blocks every chain of them ends at another block. -/

section Ends

variable {g : Graph}

/-- No cycle of two or more trivially empty blocks is reached from the entry or from a block that is
not trivially empty. -/
def NoEmptyCycle (g : Graph) : Prop :=
  ∀ b ∈ g.blocks, b = g.getEntryBB ∨ ¬ g.isTriviallyEmptyBlock b → ∀ c, g.Reach b c →
    ¬ Relation.TransGen g.EmptyStep c c

/-- The chains stay in the graph. -/
theorem next_mem (hwf : g.WellFormed) : ∀ b ∈ g.blocks, g.next b ∈ g.blocks := by
  intro b hb
  rw [next]
  split_ifs
  · cases hsucc : g.successors b with
    | nil => exact hb
    | cons s succs => exact hwf.closed b hb s (hsucc ▸ .head _)
  · exact hb

/-- The entry is no block after the first. -/
theorem WellFormed.entry_notMem (hwf : g.WellFormed) : g.getEntryBB ∉ g.blocks.tail := by
  have hnodup := hwf.nodup
  have hne := hwf.nonempty
  rw [getEntryBB]
  cases hblocks : g.blocks with
  | nil => exact absurd hblocks hne
  | cons b blocks => exact (List.nodup_cons.mp (hblocks ▸ hnodup)).1

theorem WellFormed.entry_mem (hwf : g.WellFormed) : g.getEntryBB ∈ g.blocks := by
  have hne := hwf.nonempty
  rw [getEntryBB]
  cases hblocks : g.blocks with
  | nil => exact absurd hblocks hne
  | cons b blocks => exact .head _

theorem mem_tail_blocks {b : ℕ} (hb : b ∈ g.blocks) (hne : b ≠ g.getEntryBB) :
    b ∈ g.blocks.tail := by
  rw [getEntryBB] at hne
  cases hblocks : g.blocks with
  | nil => exact absurd (hblocks ▸ hb) List.not_mem_nil
  | cons first blocks =>
    rw [hblocks] at hb hne
    exact (List.mem_cons.mp hb).resolve_left hne

/-- A block that is replaced holds one `Nop` and has one successor. -/
theorem WellFormed.replaced (hwf : g.WellFormed) {b : ℕ} (hne : g.next b ≠ b) :
    b ∈ g.blocks ∧ g.isTriviallyEmptyBlock b ∧ g.successors b = [g.next b] := by
  rw [next] at hne
  split_ifs at hne with h
  swap
  · exact absurd rfl hne
  have hb := List.mem_of_mem_tail h.1
  have hentry : b ≠ g.getEntryBB := fun heq => hwf.entry_notMem (heq ▸ h.1)
  obtain ⟨s, hs⟩ := List.length_eq_one_iff.mp (hwf.empty b hb hentry h.2)
  refine ⟨hb, h.2, ?_⟩
  rw [next, if_pos h, hs]
  rfl

/-- One move along a chain is a step through an empty block. -/
theorem WellFormed.emptyStep (hwf : g.WellFormed) {b b' : ℕ} (h : Moves g.next b b') :
    g.EmptyStep b b' := by
  obtain ⟨rfl, hne⟩ := h
  obtain ⟨hb, hempty, hsucc⟩ := hwf.replaced (Ne.symm hne)
  exact ⟨hb, hempty, by rw [Succ, hsucc]; exact .head _, hne⟩

/-- **The replacements of the successors of a block that stays end.** -/
theorem WellFormed.exists_ends (hwf : g.WellFormed) (hcycle : g.NoEmptyCycle) {b s : ℕ}
    (hb : b ∈ g.blocks) (hstay : g.next b = b) (hs : s ∈ g.successors b) :
    ∃ m f, Ends g.next m s f := by
  by_cases hkind : b = g.getEntryBB ∨ ¬ g.isTriviallyEmptyBlock b
  · refine Follow.exists_ends (next_mem hwf) (hwf.closed b hb s hs) fun c hc htrans => ?_
    have hreach : g.Reach b c :=
      .head hs (hc.lift id fun _ _ h => (hwf.emptyStep h).2.2.1)
    exact hcycle b hb hkind c hreach (htrans.lift id fun _ _ => hwf.emptyStep)
  · -- an empty block stays if it is its own successor
    obtain ⟨hentry, hempty⟩ := not_or.mp hkind
    rw [not_not] at hempty
    obtain ⟨s', hs'⟩ := List.length_eq_one_iff.mp (hwf.empty b hb hentry hempty)
    rw [next, if_pos ⟨mem_tail_blocks hb hentry, hempty⟩, hs', List.headD_cons] at hstay
    rw [hs', List.mem_singleton] at hs
    rw [hs, hstay]
    refine ⟨0, b, .stay ?_⟩
    rw [next, if_pos ⟨mem_tail_blocks hb hentry, hempty⟩, hs', List.headD_cons, hstay]

/-- One bound for the whole list. -/
theorem exists_bound {P : ℕ → ℕ → Prop} {l : List ℕ} (h : ∀ x ∈ l, ∃ m, P m x) :
    ∃ N, ∀ x ∈ l, ∃ m < N, P m x := by
  induction l with
  | nil => exact ⟨0, nofun⟩
  | cons first l ih =>
    obtain ⟨m, hm⟩ := h first (.head _)
    obtain ⟨N, hN⟩ := ih fun x hx => h x (.tail _ hx)
    refine ⟨max N (m + 1), fun x hx => ?_⟩
    rcases List.mem_cons.mp hx with rfl | hx
    · exact ⟨m, by omega, hm⟩
    · obtain ⟨m', hlt, hm'⟩ := hN x hx
      exact ⟨m', by omega, hm'⟩

/-- **The first half of the pass ends**, with the empty blocks bypassed. -/
theorem WellFormed.bypassEmptyBlocks (hwf : g.WellFormed) (hcycle : g.NoEmptyCycle) :
    ∃ N, ∀ fuel ≥ N, ∃ g', g.bypassEmptyBlocks fuel = some g' ∧ Bypassed g g.blocks g' := by
  have hclosed : ∀ b ∈ g.blocks, ∀ s ∈ g.successors b, s ∈ g.blocks := hwf.closed
  obtain ⟨N, hN⟩ := exists_bound (P := fun m s => ∃ f, Ends g.next m s f)
    (l := (g.blocks.filter fun b => g.next b = b).flatMap g.successors) fun s hs => by
      obtain ⟨b, hb, hs⟩ := List.mem_flatMap.mp hs
      obtain ⟨hb, hstay⟩ := List.mem_filter.mp hb
      exact hwf.exists_ends hcycle hb (of_decide_eq_true hstay) hs
  refine ⟨N, fun fuel hfuel => ?_⟩
  rw [Graph.bypassEmptyBlocks, foldl_setReplacement]
  obtain ⟨r, hmark, hr, hflag⟩ := markEmptyBlocks_spec
    { g with replacement := fun b => if b ∈ g.blocks then some b else g.replacement b }
    fun b hb => if_pos hb
  dsimp only
  rw [hmark]
  have hbegin : Bypassed g [] { g with replacement := r } :=
    ⟨⟨r, g.successors, rfl⟩, fun b hb => .inl (hr b hb), nofun, fun _ _ => rfl⟩
  split_ifs with hempty
  · have hends : ∀ b ∈ g.blocks, g.next b = b → ∀ s ∈ g.successors b,
        ∃ m f, Ends g.next m s f ∧ m < fuel := by
      intro b hb hstay s hs
      obtain ⟨m, hm, f, hf⟩ := hN s (List.mem_flatMap.mpr
        ⟨b, List.mem_filter.mpr ⟨hb, decide_eq_true hstay⟩, hs⟩)
      exact ⟨m, f, hf, by omega⟩
    obtain ⟨g', hfold, h⟩ := foldlM_redirectSuccessors (next_mem hwf) hclosed hends
      (by simpa using hwf.nodup) (List.Subset.refl _) hbegin
    exact ⟨g', hfold, by simpa using h⟩
  · -- no block is empty, and every block stays
    have hnext : ∀ b, g.next b = b := hflag (by simpa using hempty)
    refine ⟨_, rfl, hbegin.rest, hbegin.compressed, fun b _ _ => ?_, fun _ _ => rfl⟩
    exact List.forall₂_same.mpr fun s _ => ⟨0, .stay (hnext s)⟩

end Ends

/-! ## The runs -/

section Runs

variable {g g' : Graph} {keep : ℕ → Bool}

/-- The way to the end of the replacements shows nothing. -/
theorem WellFormed.runFor_ends (hwf : g.WellFormed)
    (hkeep : ∀ n, keep n = true → (g.node n).isEmptyNop = false) (decisions : ℕ → Bool)
    {m s f : ℕ} (h : Ends g.next m s f) (k : ℕ) :
    runFor (g.execBlock keep decisions) m (s, k) = ([], some (f, k)) := by
  induction h with
  | stay => rfl
  | @go m s f hgo _ ih =>
    obtain ⟨-, hempty, hsucc⟩ := hwf.replaced hgo
    have hnodes : (g.nodes s).filter keep = [] := by
      rw [isTriviallyEmptyBlock] at hempty
      split at hempty
      · rename_i n hn
        have : keep n = false := by
          by_contra hk
          simpa [hempty] using hkeep n (by simpa using hk)
        simp [hn, this]
      · exact absurd hempty Bool.false_ne_true
    have hstep : g.execBlock keep decisions (s, k) = ([], some (g.next s, k)) := by
      simp only [execBlock, hsucc, hnodes, List.map_nil]
    rw [Nat.add_comm]
    exact runFor_append (runFor_one hstep) ih

/-- **Bypassing the empty blocks** leaves the runs the same. -/
theorem Bypassed.sameRuns (hwf : g.WellFormed) (h : Bypassed g g.blocks g')
    (hkeep : ∀ n, keep n = true → (g.node n).isEmptyNop = false) :
    g.SameRuns keep g' keep := by
  intro decisions
  have hblocks : g'.getEntryBB = g.getEntryBB := by
    obtain ⟨r, succ, rfl⟩ := h.rest
    rfl
  have hnodes : g'.nodes = g.nodes := by
    obtain ⟨r, succ, rfl⟩ := h.rest
    rfl
  have hentry : g.next g.getEntryBB = g.getEntryBB :=
    if_neg fun hin => hwf.entry_notMem hin.1
  rw [hblocks]
  refine agree_of_matches (R := fun s t => s = t ∧ s.1 ∈ g.blocks ∧ g.next s.1 = s.1) ?_
    ⟨rfl, hwf.entry_mem, hentry⟩
  rintro ⟨b, k⟩ _ ⟨rfl, hb, hstay⟩
  -- a step of the new graph is a step of the old one and the way to the end
  have hgo {s f : ℕ} (hs : ∃ m, Ends g.next m s f) (hin : s ∈ g.successors b) (k' : ℕ)
      {events : List Event} (hold : g.execBlock keep decisions (b, k) = (events, some (s, k')))
      (hnew : g'.execBlock keep decisions (b, k) = (events, some (f, k'))) :
      Matches (fun s t : ℕ × ℕ => s = t ∧ s.1 ∈ g.blocks ∧ g.next s.1 = s.1)
        (g.execBlock keep decisions) (b, k) (g'.execBlock keep decisions) (b, k) := by
    obtain ⟨m, hm⟩ := hs
    have hway := hwf.runFor_ends hkeep decisions hm k'
    refine ⟨m, 0, events, some (f, k'), some (f, k'), ?_, runFor_one hnew,
      .some ⟨rfl, ?_, hm.fixed⟩⟩
    · have := runFor_append (runFor_one hold) hway
      rwa [List.append_nil, Nat.add_comm] at this
    · exact hm.mem (next_mem hwf) (hwf.closed b hb s hin)
  have hall := h.successors b hb hstay
  let shown : List Event := ((g.nodes b).filter keep).map .node
  cases hsucc : g.successors b with
  | nil =>
    rw [hsucc, List.forall₂_nil_left_iff] at hall
    refine ⟨0, 0, shown ++ [.exit], none, none, runFor_one ?_, runFor_one ?_, .none⟩
    · simp only [execBlock, hsucc, shown]
    · simp only [execBlock, hall, hnodes, shown]
  | cons s₀ succs =>
    rw [hsucc, List.forall₂_cons_left_iff] at hall
    obtain ⟨f₀, fs, h₀, hall, heq⟩ := hall
    cases succs with
    | nil =>
      obtain rfl := List.forall₂_nil_left_iff.mp hall
      have hold : g.execBlock keep decisions (b, k) = (shown, some (s₀, k)) := by
        simp only [execBlock, hsucc, shown]
      have hnew : g'.execBlock keep decisions (b, k) = (shown, some (f₀, k)) := by
        simp only [execBlock, heq, hnodes, shown]
      exact hgo h₀ (hsucc ▸ .head _) k hold hnew
    | cons s₁ succs =>
      obtain ⟨f₁, fs, h₁, hall, rfl⟩ := List.forall₂_cons_left_iff.mp hall
      have hold : g.execBlock keep decisions (b, k)
          = (shown ++ [.branch (decisions k)], some (if decisions k then s₁ else s₀, k + 1)) := by
        simp only [execBlock, hsucc, shown]
      have hnew : g'.execBlock keep decisions (b, k)
          = (shown ++ [.branch (decisions k)], some (if decisions k then f₁ else f₀, k + 1)) := by
        simp only [execBlock, heq, hnodes, shown]
      refine hgo ?_ ?_ (k + 1) hold hnew
      all_goals cases decisions k
      · exact h₀
      · exact h₁
      · exact hsucc ▸ .head _
      · exact hsucc ▸ .tail _ (.head _)

end Runs

end Graph

end CfgCleanup

end Dsom
