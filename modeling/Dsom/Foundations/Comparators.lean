import Mathlib.Algebra.Group.Nat.Defs
import Mathlib.Data.Nat.Init
import Mathlib.Logic.Equiv.Basic
import Mathlib.Order.MinMax
import Mathlib.Tactic.Common

/-!
# Foundations/Comparators — networks of comparators

A comparator works on two wires; a network is a list of them.  `run lo hi` runs a network with `lo`
and `hi` for the two outputs of a comparator: the minimum and the maximum on a linear order, *and*
and *or* on booleans.  Two outputs are in order for all inputs once they are for all boolean ones
(`le_run_of_bool`), and those can be run all at once, on the bits of numbers (`le_run_of_tables`).
-/

namespace Dsom

namespace Comparators

variable {ι α β : Type*} [DecidableEq ι] {net : List (ι × ι)} {i j : ι}

/-- One comparator. -/
def exchange (lo hi : α → α → α) (a : ι → α) (c : ι × ι) : ι → α :=
  Function.update (Function.update a c.1 (lo (a c.1) (a c.2))) c.2 (hi (a c.1) (a c.2))

/-- Run a network over an array. -/
def run (lo hi : α → α → α) (net : List (ι × ι)) (a : ι → α) : ι → α :=
  net.foldl (exchange lo hi) a

theorem run_cons (lo hi : α → α → α) (c : ι × ι) (net : List (ι × ι)) (a : ι → α) :
    run lo hi (c :: net) a = run lo hi net (exchange lo hi a c) := rfl

/-! ## Networks and maps

A network commutes with every map that respects its comparators. -/

variable {lo hi : α → α → α} {lo' hi' : β → β → β}

/-- One comparator commutes with such a map. -/
theorem exchange_comp {g : α → β} (hlo : ∀ x y, g (lo x y) = lo' (g x) (g y))
    (hhi : ∀ x y, g (hi x y) = hi' (g x) (g y)) (a : ι → α) (c : ι × ι) :
    g ∘ exchange lo hi a c = exchange lo' hi' (g ∘ a) c := by
  funext k
  simp only [exchange, Function.comp_apply, Function.update_apply]
  split_ifs
  · exact hhi ..
  · exact hlo ..
  · rfl

/-- **A network commutes with what its comparators commute with.** -/
theorem run_comp {g : α → β} (hlo : ∀ x y, g (lo x y) = lo' (g x) (g y))
    (hhi : ∀ x y, g (hi x y) = hi' (g x) (g y)) (net : List (ι × ι)) (a : ι → α) :
    g ∘ run lo hi net a = run lo' hi' net (g ∘ a) := by
  induction net generalizing a with
  | nil => rfl
  | cons c net ih => rw [run_cons, run_cons, ih, exchange_comp hlo hhi]

/-- A network only looks at its wires. -/
theorem run_congr {s : ι → Prop} (hnet : ∀ c ∈ net, s c.1 ∧ s c.2) {a a' : ι → α}
    (h : ∀ k, s k → a k = a' k) (hi' : s i) : run lo hi net a i = run lo hi net a' i := by
  induction net generalizing a a' with
  | nil => exact h i hi'
  | cons c net ih =>
    obtain ⟨h₁, h₂⟩ := hnet c List.mem_cons_self
    rw [run_cons, run_cons]
    refine ih (fun c hc => hnet c (List.mem_cons_of_mem _ hc)) fun k hk => ?_
    simp only [exchange, Function.update_apply, h _ h₁, h _ h₂, h k hk]

/-! ## Sorting

If a network sorts all boolean inputs, it sorts every input. -/

section LinearOrder

variable [LinearOrder α]

/-- **The zero-one principle.** -/
theorem le_run_of_bool
    (h : ∀ b : ι → Bool,
      run (· && ·) (· || ·) net b i = true → run (· && ·) (· || ·) net b j = true)
    (a : ι → α) : run min max net a i ≤ run min max net a j := by
  by_contra hlt
  let g : α → Bool := fun x => decide (run min max net a i ≤ x)
  have hcomp : g ∘ run min max net a = run (· && ·) (· || ·) net (g ∘ a) := by
    refine run_comp (fun x y => ?_) (fun x y => ?_) net a
    · exact (decide_eq_decide.mpr le_min_iff).trans (Bool.decide_and ..)
    · exact (decide_eq_decide.mpr le_max_iff).trans (Bool.decide_or ..)
  have hi : g (run min max net a i) = true := decide_eq_true le_rfl
  have hj : g (run min max net a j) = true := by
    refine (congrFun hcomp j).trans (h _ ?_)
    exact (congrFun hcomp i).symm.trans hi
  exact hlt (of_decide_eq_true hj)

/-- A comparator leaves the array or swaps two elements. -/
theorem exchange_eq_comp (a : ι → α) {c : ι × ι} (hc : c.1 ≠ c.2) :
    exchange min max a c = a ∨ exchange min max a c = a ∘ Equiv.swap c.1 c.2 := by
  rcases le_total (a c.1) (a c.2) with h | h
  · left
    rw [exchange, min_eq_left h, max_eq_right h, Function.update_eq_self, Function.update_eq_self]
  · right
    funext k
    rw [exchange, min_eq_right h, max_eq_left h, Function.comp_apply, Equiv.swap_apply_def]
    simp only [Function.update_apply]
    by_cases h₂ : k = c.2
    · rw [if_pos h₂, if_neg (h₂.trans_ne hc.symm), if_pos h₂]
    · rw [if_neg h₂, if_neg h₂]
      split_ifs <;> rfl

/-- **The outputs are the inputs in another order**, wires outside the network apart. -/
theorem exists_perm_run {s : ι → Prop} (hnet : ∀ c ∈ net, s c.1 ∧ s c.2 ∧ c.1 ≠ c.2) (a : ι → α) :
    ∃ σ : Equiv.Perm ι, (∀ k, ¬ s k → σ k = k) ∧ run min max net a = a ∘ σ := by
  induction net generalizing a with
  | nil => exact ⟨Equiv.refl ι, fun _ _ => rfl, rfl⟩
  | cons c net ih =>
    obtain ⟨h₁, h₂, hc⟩ := hnet c List.mem_cons_self
    obtain ⟨σ, hσ, hrun⟩ :=
      ih (fun c hc => hnet c (List.mem_cons_of_mem _ hc)) (exchange min max a c)
    rw [run_cons, hrun]
    rcases exchange_eq_comp a hc with heq | heq
    · exact ⟨σ, hσ, by rw [heq]⟩
    · refine ⟨σ.trans (Equiv.swap c.1 c.2), fun k hk => ?_, by rw [heq]; rfl⟩
      rw [Equiv.trans_apply, hσ k hk]
      exact Equiv.swap_apply_of_ne_of_ne (by rintro rfl; exact hk h₁) (by rintro rfl; exact hk h₂)

end LinearOrder

/-! ## All boolean inputs at once

Word `i` holds the `i`th bit of every input; a comparator works on whole words. -/

/-- Bit `k` is the `i`-th bit of `k`, for all `k` of `n` bits. -/
def table : ℕ → ℕ → ℕ
  | 0, _ => 0
  | n + 1, i =>
    if i = n then (2 ^ 2 ^ n - 1) <<< 2 ^ n else table n i ||| table n i <<< 2 ^ n

/-- A table has a bit for every input. -/
theorem table_lt (n i : ℕ) : table n i < 2 ^ 2 ^ n := by
  induction n with
  | zero => exact Nat.two_pow_pos _
  | succ n ih =>
    refine Nat.lt_pow_two_of_testBit _ fun k hk => ?_
    have hn : 2 ^ (n + 1) = 2 ^ n + 2 ^ n := by rw [Nat.pow_succ, Nat.mul_two]
    have hk' : 2 ^ n ≤ k - 2 ^ n := by omega
    rw [table]
    split_ifs
    · rw [Nat.testBit_shiftLeft, Nat.testBit_two_pow_sub_one,
        decide_eq_false (Nat.not_lt.mpr hk'), Bool.and_false]
    · rw [Nat.testBit_or, Nat.testBit_shiftLeft,
        Nat.testBit_lt_two_pow (ih.trans_le (Nat.pow_le_pow_right Nat.zero_lt_two (by omega))),
        Nat.testBit_lt_two_pow (ih.trans_le (Nat.pow_le_pow_right Nat.zero_lt_two hk')),
        Bool.and_false]
      rfl

/-- The table of an index holds that bit of the input. -/
theorem testBit_table {n : ℕ} : ∀ {i k : ℕ}, i < n → k < 2 ^ n →
    (table n i).testBit k = k.testBit i := by
  induction n with
  | zero => exact fun hi _ => absurd hi (Nat.not_lt_zero _)
  | succ n ih =>
    intro i k hi hk
    have hn : 2 ^ (n + 1) = 2 ^ n + 2 ^ n := by rw [Nat.pow_succ, Nat.mul_two]
    rw [table]
    rcases Nat.lt_or_ge k (2 ^ n) with hlow | hhigh
    · have hshift : ∀ x, (x <<< 2 ^ n).testBit k = false := fun x => by
        rw [Nat.testBit_shiftLeft, decide_eq_false (by omega), Bool.false_and]
      split_ifs with heq
      · rw [hshift, heq, Nat.testBit_lt_two_pow hlow]
      · rw [Nat.testBit_or, hshift, Bool.or_false, ih (by omega) hlow]
    · obtain ⟨m, rfl⟩ := Nat.exists_eq_add_of_le hhigh
      have hm : m < 2 ^ n := by omega
      have hshift : ∀ x, (x <<< 2 ^ n).testBit (2 ^ n + m) = x.testBit m := fun x => by
        rw [Nat.testBit_shiftLeft, decide_eq_true (by omega), Bool.true_and,
          Nat.add_sub_cancel_left]
      split_ifs with heq
      · rw [hshift, Nat.testBit_two_pow_sub_one, heq, Nat.testBit_two_pow_add_eq,
          Nat.testBit_lt_two_pow hm]
        exact decide_eq_true hm
      · have hlt : i < n := by omega
        rw [Nat.testBit_or, hshift, ih hlt hm, Nat.testBit_two_pow_add_gt hlt,
          Nat.testBit_lt_two_pow
            ((table_lt n i).trans_le (Nat.pow_le_pow_right Nat.zero_lt_two (Nat.le_add_right ..))),
          Bool.false_or]

/-- The network on a list of numbers, bit by bit. -/
def runWords (net : List (ℕ × ℕ)) (ws : List ℕ) : List ℕ :=
  net.foldl (fun ws c =>
    (ws.set c.1 (ws.getD c.1 0 &&& ws.getD c.2 0)).set c.2 (ws.getD c.1 0 ||| ws.getD c.2 0)) ws

theorem getD_set {ws : List ℕ} {i : ℕ} (hi : i < ws.length) (x : ℕ) :
    (fun k => (ws.set i x).getD k 0) = Function.update (fun k => ws.getD k 0) i x := by
  funext k
  rw [Function.update_apply, List.getD_eq_getElem?_getD, List.getElem?_set]
  split_ifs with h₁ h₂ h₂
  · rfl
  · exact absurd h₁.symm h₂
  · exact absurd h₂.symm h₁
  · rfl

/-- Running the network on words. -/
theorem getD_runWords {net : List (ℕ × ℕ)} {ws : List ℕ}
    (hnet : ∀ c ∈ net, c.1 < ws.length ∧ c.2 < ws.length) :
    (fun k => (runWords net ws).getD k 0) =
      run (· &&& ·) (· ||| ·) net (fun k => ws.getD k 0) := by
  induction net generalizing ws with
  | nil => rfl
  | cons c net ih =>
    obtain ⟨h₁, h₂⟩ := hnet c List.mem_cons_self
    rw [runWords, List.foldl_cons, ← runWords, ih fun c hc => ?_, run_cons, exchange,
      getD_set (by rwa [List.length_set]), getD_set h₁]
    rw [List.length_set, List.length_set]
    exact hnet c (List.mem_cons_of_mem _ hc)

/-- The tables of all `n` wires, run through the network. -/
def outputTables (n : ℕ) (net : List (ℕ × ℕ)) : List ℕ :=
  runWords net ((List.range n).map (table n))

theorem getD_tables {n k : ℕ} (hk : k < n) :
    ((List.range n).map (table n)).getD k 0 = table n k := by
  rw [List.getD_eq_getElem?_getD, List.getElem?_map, List.getElem?_range hk]
  rfl

/-- One bit of the words is the output for one input. -/
theorem testBit_outputTables {n : ℕ} {net : List (ℕ × ℕ)} (hnet : ∀ c ∈ net, c.1 < n ∧ c.2 < n)
    (b : ℕ → Bool) {i : ℕ} (hi : i < n) :
    ((outputTables n net).getD i 0).testBit (Nat.ofBits fun k : Fin n => b k) =
      run (· && ·) (· || ·) net b i := by
  let ws := (List.range n).map (table n)
  let g : ℕ → Bool := fun x => x.testBit (Nat.ofBits fun k : Fin n => b k)
  have hlen : ws.length = n := by rw [List.length_map, List.length_range]
  have hrun : (fun k => (runWords net ws).getD k 0) = _ := getD_runWords (by rwa [hlen])
  have hcomp : g ∘ run (· &&& ·) (· ||| ·) net (fun k => ws.getD k 0) =
      run (· && ·) (· || ·) net (g ∘ fun k => ws.getD k 0) :=
    run_comp (fun x y => Nat.testBit_and ..) (fun x y => Nat.testBit_or ..) net _
  calc g ((runWords net ws).getD i 0)
      = g (run (· &&& ·) (· ||| ·) net (fun k => ws.getD k 0) i) := congrArg g (congrFun hrun i)
    _ = run (· && ·) (· || ·) net (g ∘ fun k => ws.getD k 0) i := congrFun hcomp i
    _ = run (· && ·) (· || ·) net b i :=
      run_congr (s := (· < n)) hnet (fun k hk => by
        rw [Function.comp_apply, getD_tables hk]
        exact (testBit_table hk (Nat.ofBits_lt_two_pow _)).trans (Nat.testBit_ofBits_lt _ _ hk)) hi

/-- **Two outputs are in order** if their tables are. -/
theorem le_run_of_tables [LinearOrder α] {n : ℕ} {net : List (ℕ × ℕ)}
    (hnet : ∀ c ∈ net, c.1 < n ∧ c.2 < n) {i j : ℕ} (hi : i < n) (hj : j < n)
    (h : (outputTables n net).getD i 0 &&& (outputTables n net).getD j 0 =
      (outputTables n net).getD i 0) (a : ℕ → α) :
    run min max net a i ≤ run min max net a j := by
  refine le_run_of_bool (fun b hb => ?_) a
  rw [← testBit_outputTables hnet b hi, ← h, Nat.testBit_and, Bool.and_eq_true] at hb
  rw [← testBit_outputTables hnet b hj]
  exact hb.2

end Comparators

end Dsom
