import Mathlib.Data.Nat.Notation
import Mathlib.Logic.Function.Basic
import Mathlib.Logic.Relation
import Mathlib.Tactic.Common

/-!
# Foundations/Marking — marking what is reached

A worklist of marked nodes: one is taken off, those of its successors that have no mark yet get one
and go on the list.  In the end exactly the nodes that are reached from those marked at the start
have a mark (`run_spec`), whatever order the successors come in.
-/

namespace Dsom

namespace Marking

variable {α : Type*} [DecidableEq α]

/-- A node is marked and put on the list, if it was not marked before. -/
def visit (s : (α → Bool) × List α) (a : α) : (α → Bool) × List α :=
  if s.1 a then s else (Function.update s.1 a true, a :: s.2)

/-- Take vertices from the queue until it is empty. -/
def run (succ : α → List α) : ℕ → (α → Bool) → List α → Option (α → Bool)
  | _, marked, [] => some marked
  | 0, _, _ :: _ => none
  | fuel + 1, marked, a :: q =>
    let s := (succ a).foldl visit (marked, q)
    run succ fuel s.1 s.2

/-- How many nodes have no mark. -/
def unmarked (all : List α) (marked : α → Bool) : ℕ := (all.filter fun a => !marked a).length

variable {all q l : List α} {succ : α → List α} {marked start : α → Bool} {a b : α}

/-- Marking leaves fewer unmarked. -/
theorem unmarked_update_lt (ha : a ∈ all) (hnot : marked a = false) :
    unmarked all (Function.update marked a true) < unmarked all marked := by
  have hfilter : all.filter (fun b => !(Function.update marked a true) b) =
      (all.filter fun b => !marked b).filter fun b => decide (b ≠ a) := by
    rw [List.filter_filter]
    refine List.filter_congr fun b _ => ?_
    by_cases heq : b = a <;> simp [heq]
  rw [unmarked, unmarked, hfilter]
  exact List.length_filter_lt_length_iff_exists.mpr
    ⟨a, List.mem_filter.mpr ⟨ha, by simp [hnot]⟩, by simp⟩

/-- What the loop over the successors does. -/
structure Visited (all l : List α) (s s' : (α → Bool) × List α) : Prop where
  marked : ∀ b, s'.1 b = true ↔ s.1 b = true ∨ b ∈ l
  list : ∀ b, b ∈ s'.2 ↔ b ∈ s.2 ∨ s.1 b = false ∧ b ∈ l
  measure : unmarked all s'.1 + s'.2.length ≤ unmarked all s.1 + s.2.length

/-- The loop over the successors visits them. -/
theorem visited_foldl (hl : ∀ b ∈ l, b ∈ all) (s : (α → Bool) × List α) :
    Visited all l s (l.foldl visit s) := by
  induction l generalizing s with
  | nil => exact ⟨by simp, by simp, Nat.le_refl _⟩
  | cons a l ih =>
    obtain ⟨ha, hl⟩ := List.forall_mem_cons.mp hl
    obtain ⟨hmarked, hlist, hmeasure⟩ := ih hl (visit s a)
    cases hs : s.1 a with
    | true =>
      rw [visit, if_pos hs] at hmarked hlist hmeasure
      refine ⟨fun b => ?_, fun b => ?_, ?_⟩
      · rw [List.foldl_cons, visit, if_pos hs, hmarked, List.mem_cons]
        by_cases hb : b = a
        · simp [hb, hs]
        · simp [hb]
      · rw [List.foldl_cons, visit, if_pos hs, hlist, List.mem_cons]
        by_cases hb : b = a
        · simp [hb, hs]
        · simp [hb]
      · rw [List.foldl_cons, visit, if_pos hs]
        exact hmeasure
    | false =>
      have hnot : ¬ s.1 a = true := by simp [hs]
      rw [visit, if_neg hnot] at hmarked hlist hmeasure
      have hlt := unmarked_update_lt ha hs
      refine ⟨fun b => ?_, fun b => ?_, ?_⟩
      · rw [List.foldl_cons, visit, if_neg hnot, hmarked, List.mem_cons]
        by_cases hb : b = a <;> simp [hb]
      · rw [List.foldl_cons, visit, if_neg hnot, hlist, List.mem_cons, List.mem_cons]
        by_cases hb : b = a
        · simp [hb, hs]
        · simp [hb]
      · rw [List.foldl_cons, visit, if_neg hnot]
        dsimp only at hmeasure
        rw [List.length_cons] at hmeasure
        omega

/-- **The invariant** of the worklist. -/
structure Inv (all : List α) (succ : α → List α) (start : α → Bool) (marked : α → Bool)
    (q : List α) : Prop where
  mono : ∀ a, start a = true → marked a = true
  sound : ∀ a ∈ all, marked a = true →
    ∃ b ∈ all, start b = true ∧ Relation.ReflTransGen (fun x y => y ∈ succ x) b a
  listed : ∀ a ∈ q, a ∈ all ∧ marked a = true
  closed : ∀ a ∈ all, marked a = true → a ∉ q → ∀ b ∈ succ a, marked b = true

/-- Taking one vertex from the queue. -/
theorem Inv.step (hclosed : ∀ a ∈ all, ∀ b ∈ succ a, b ∈ all)
    (h : Inv all succ start marked (a :: q)) :
    Inv all succ start ((succ a).foldl visit (marked, q)).1 ((succ a).foldl visit (marked, q)).2 ∧
      unmarked all ((succ a).foldl visit (marked, q)).1 +
        ((succ a).foldl visit (marked, q)).2.length ≤ unmarked all marked + q.length := by
  obtain ⟨ha, hmark⟩ := h.listed a (.head _)
  obtain ⟨hmarked, hlist, hmeasure⟩ := visited_foldl (hclosed a ha) (marked, q)
  refine ⟨⟨fun b hb => (hmarked b).mpr (.inl (h.mono b hb)), fun b hb hm => ?_, fun b hb => ?_,
    fun b hb hm hoff c hc => ?_⟩, hmeasure⟩
  · rcases (hmarked b).mp hm with hm | hin
    · exact h.sound b hb hm
    · obtain ⟨x, hx, hstart, hreach⟩ := h.sound a ha hmark
      exact ⟨x, hx, hstart, hreach.tail hin⟩
  · rcases (hlist b).mp hb with hb | ⟨-, hb⟩
    · obtain ⟨hin, hm⟩ := h.listed b (.tail _ hb)
      exact ⟨hin, (hmarked b).mpr (.inl hm)⟩
    · exact ⟨hclosed a ha b hb, (hmarked b).mpr (.inr hb)⟩
  · by_cases heq : b = a
    · exact (hmarked c).mpr (.inr (heq ▸ hc))
    · obtain ⟨hq, hnew⟩ := not_or.mp ((hlist b).not.mp hoff)
      refine (hmarked c).mpr (.inl (h.closed b hb ?_ (fun hin => ?_) c hc))
      · refine ((hmarked b).mp hm).elim id fun hin => ?_
        by_contra hfalse
        exact hnew ⟨by simpa using hfalse, hin⟩
      · exact (List.mem_cons.mp hin).elim heq hq

/-- The loop ends with an empty queue. -/
theorem Inv.run {fuel : ℕ} (hclosed : ∀ a ∈ all, ∀ b ∈ succ a, b ∈ all)
    (h : Inv all succ start marked q) (hfuel : unmarked all marked + q.length ≤ fuel) :
    ∃ marked', run succ fuel marked q = some marked' ∧ Inv all succ start marked' [] := by
  induction fuel generalizing marked q with
  | zero =>
    obtain rfl := List.eq_nil_of_length_eq_zero (show q.length = 0 by omega)
    exact ⟨marked, rfl, h⟩
  | succ fuel ih =>
    cases q with
    | nil => exact ⟨marked, rfl, h⟩
    | cons a q =>
      obtain ⟨hstep, hmeasure⟩ := h.step hclosed
      rw [List.length_cons] at hfuel
      exact ih hstep (by omega)

/-- **The worklist** ends, and marks what is reached. -/
theorem run_spec {fuel : ℕ} (hclosed : ∀ a ∈ all, ∀ b ∈ succ a, b ∈ all)
    (hlisted : ∀ a ∈ q, a ∈ all ∧ start a = true) (hall : ∀ a ∈ all, start a = true → a ∈ q)
    (hfuel : unmarked all start + q.length ≤ fuel) :
    ∃ marked, run succ fuel start q = some marked ∧ ∀ a ∈ all, marked a = true ↔
      ∃ b ∈ all, start b = true ∧ Relation.ReflTransGen (fun x y => y ∈ succ x) b a := by
  have hstart : Inv all succ start start q := ⟨fun _ ha => ha, fun a ha hm => ⟨a, ha, hm, .refl⟩,
    hlisted, fun a ha hm hoff => absurd (hall a ha hm) hoff⟩
  obtain ⟨marked, hrun, h⟩ := hstart.run hclosed hfuel
  refine ⟨marked, hrun, fun a ha => ⟨h.sound a ha, ?_⟩⟩
  rintro ⟨b, hb, hm, hreach⟩
  clear ha
  suffices hboth : a ∈ all ∧ marked a = true from hboth.2
  induction hreach with
  | refl => exact ⟨hb, h.mono b hm⟩
  | tail _ hstep ih =>
    exact ⟨hclosed _ ih.1 _ hstep, h.closed _ ih.1 ih.2 List.not_mem_nil _ hstep⟩

end Marking

end Dsom
