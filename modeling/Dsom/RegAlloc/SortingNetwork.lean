import Dsom.Foundations.Comparators

/-!
# RegAlloc/SortingNetwork — sorting a few numbers

`SortingNetwork` of `drt/sorting_network.h`, which the register allocator sorts its registers with.
A network is an array of indices, taken two at a time, and there is one for every length up to
`maxLength`.  An array is a function of the index.
-/

namespace Dsom

namespace SortingNetwork

variable {α : Type*}

/-! ## The networks

One for every length from two to sixteen; the table says which elements to compare. -/

/-- `x_data`: the networks for two numbers, for three, and so on. -/
def data : List (List ℕ) :=
  [[0, 1],
   [0, 2,
    0, 1,
    1, 2],
   [0, 2, 1, 3,
    0, 1, 2, 3,
    1, 2],
   [0, 3, 1, 4,
    0, 2, 1, 3,
    0, 1, 2, 4,
    1, 2, 3, 4,
    2, 3],
   [0, 5, 1, 3, 2, 4,
    1, 2, 3, 4,
    0, 3, 2, 5,
    0, 1, 2, 3, 4, 5,
    1, 2, 3, 4],
   [0, 6, 2, 3, 4, 5,
    0, 2, 1, 4, 3, 6,
    0, 1, 2, 5, 3, 4,
    1, 2, 4, 6,
    2, 3, 4, 5,
    1, 2, 3, 4, 5, 6],
   [0, 2, 1, 3, 4, 6, 5, 7,
    0, 4, 1, 5, 2, 6, 3, 7,
    0, 1, 2, 3, 4, 5, 6, 7,
    2, 4, 3, 5,
    1, 4, 3, 6,
    1, 2, 3, 4, 5, 6],
   [0, 3, 1, 7, 2, 5, 4, 8,
    0, 7, 2, 4, 3, 8, 5, 6,
    0, 2, 1, 3, 4, 5, 7, 8,
    1, 4, 3, 6, 5, 7,
    0, 1, 2, 4, 3, 5, 6, 8,
    2, 3, 4, 5, 6, 7,
    1, 2, 3, 4, 5, 6],
   [0, 8, 1, 9, 2, 7, 3, 5, 4, 6,
    0, 2, 1, 4, 5, 8, 7, 9,
    0, 3, 2, 4, 5, 7, 6, 9,
    0, 1, 3, 6, 8, 9,
    1, 5, 2, 3, 4, 8, 6, 7,
    1, 2, 3, 5, 4, 6, 7, 8,
    2, 3, 4, 5, 6, 7,
    3, 4, 5, 6],
   [0, 9, 1, 6, 2, 4, 3, 7, 5, 8,
    0, 1, 3, 5, 4, 10, 6, 9, 7, 8,
    1, 3, 2, 5, 4, 7, 8, 10,
    0, 4, 1, 2, 3, 7, 5, 9, 6, 8,
    0, 1, 2, 6, 4, 5, 7, 8, 9, 10,
    2, 4, 3, 6, 5, 7, 8, 9,
    1, 2, 3, 4, 5, 6, 7, 8,
    2, 3, 4, 5, 6, 7],
   [0, 8, 1, 7, 2, 6, 3, 11, 4, 10, 5, 9,
    0, 1, 2, 5, 3, 4, 6, 9, 7, 8, 10, 11,
    0, 2, 1, 6, 5, 10, 9, 11,
    0, 3, 1, 2, 4, 6, 5, 7, 8, 11, 9, 10,
    1, 4, 3, 5, 6, 8, 7, 10,
    1, 3, 2, 5, 6, 9, 8, 10,
    2, 3, 4, 5, 6, 7, 8, 9,
    4, 6, 5, 7,
    3, 4, 5, 6, 7, 8],
   [0, 12, 1, 10, 2, 9, 3, 7, 5, 11, 6, 8,
    1, 6, 2, 3, 4, 11, 7, 9, 8, 10,
    0, 4, 1, 2, 3, 6, 7, 8, 9, 10, 11, 12,
    4, 6, 5, 9, 8, 11, 10, 12,
    0, 5, 3, 8, 4, 7, 6, 11, 9, 10,
    0, 1, 2, 5, 6, 9, 7, 8, 10, 11,
    1, 3, 2, 4, 5, 6, 9, 10,
    1, 2, 3, 4, 5, 7, 6, 8,
    2, 3, 4, 5, 6, 7, 8, 9,
    3, 4, 5, 6],
   [0, 1, 2, 3, 4, 5, 6, 7, 8, 9, 10, 11, 12, 13,
    0, 2, 1, 3, 4, 8, 5, 9, 10, 12, 11, 13,
    0, 4, 1, 2, 3, 7, 5, 8, 6, 10, 9, 13, 11, 12,
    0, 6, 1, 5, 3, 9, 4, 10, 7, 13, 8, 12,
    2, 10, 3, 11, 4, 6, 7, 9,
    1, 3, 2, 8, 5, 11, 6, 7, 10, 12,
    1, 4, 2, 6, 3, 5, 7, 11, 8, 10, 9, 12,
    2, 4, 3, 6, 5, 8, 7, 10, 9, 11,
    3, 4, 5, 6, 7, 8, 9, 10,
    6, 7],
   [1, 2, 3, 10, 4, 14, 5, 8, 6, 13, 7, 12, 9, 11,
    0, 14, 1, 5, 2, 8, 3, 7, 6, 9, 10, 12, 11, 13,
    0, 7, 1, 6, 2, 9, 4, 10, 5, 11, 8, 13, 12, 14,
    0, 6, 2, 4, 3, 5, 7, 11, 8, 10, 9, 12, 13, 14,
    0, 3, 1, 2, 4, 7, 5, 9, 6, 8, 10, 11, 12, 13,
    0, 1, 2, 3, 4, 6, 7, 9, 10, 12, 11, 13,
    1, 2, 3, 5, 8, 10, 11, 12,
    3, 4, 5, 6, 7, 8, 9, 10,
    2, 3, 4, 5, 6, 7, 8, 9, 10, 11,
    5, 6, 7, 8],
   [0, 13, 1, 12, 2, 15, 3, 14, 4, 8, 5, 6, 7, 11, 9, 10,
    0, 5, 1, 7, 2, 9, 3, 4, 6, 13, 8, 14, 10, 15, 11, 12,
    0, 1, 2, 3, 4, 5, 6, 8, 7, 9, 10, 11, 12, 13, 14, 15,
    0, 2, 1, 3, 4, 10, 5, 11, 6, 7, 8, 9, 12, 14, 13, 15,
    1, 2, 3, 12, 4, 6, 5, 7, 8, 10, 9, 11, 13, 14,
    1, 4, 2, 6, 5, 8, 7, 10, 9, 13, 11, 14,
    2, 4, 3, 6, 9, 12, 11, 13,
    3, 5, 6, 8, 7, 9, 10, 12,
    3, 4, 5, 6, 7, 8, 9, 10, 11, 12,
    6, 7, 8, 9]]

/-- The longest array that the table has a network for. -/
def maxLength : ℕ := data.length + 1

section Ordered

variable [LE α] [DecidableLE α]

/-- `DoCmp`: the two elements in the order asked for. -/
def doCmp (forAscend : Bool) (a b : α) : α × α :=
  let c : Bool := if forAscend then decide (a ≤ b) else decide (b ≤ a)
  (if c then a else b, if c then b else a)

/-- `RunImpl`: one comparison for every two entries of the table's row. -/
def runImpl (forAscend : Bool) : List ℕ → (ℕ → α) → ℕ → α
  | i :: j :: v, a =>
    let r := doCmp forAscend (a i) (a j)
    runImpl forAscend v (Function.update (Function.update a i r.1) j r.2)
  | _, a => a

/-- `RunWrapper`: an array of fewer than two elements has no row. -/
def runWrapper (forAscend : Bool) (n : ℕ) (a : ℕ → α) : ℕ → α :=
  if 2 ≤ n then runImpl forAscend (data.getD (n - 2) []) a else a

/-- The first `n` elements are sorted in a copy. -/
def sortImpl (forAscend : Bool) (n : ℕ) (a : ℕ → α) : ℕ → α := fun i =>
  if i < n then runWrapper forAscend n a i else a i

/-- `SortAscend`. -/
def sortAscend (n : ℕ) (a : ℕ → α) : ℕ → α := sortImpl true n a

/-- `SortDescend`. -/
def sortDescend (n : ℕ) (a : ℕ → α) : ℕ → α := sortImpl false n a

end Ordered

/-! ## The networks sort

It is enough that they sort bits, which is checked for all inputs at once. -/

/-- The comparators of a network. -/
def comparators : List ℕ → List (ℕ × ℕ)
  | i :: j :: v => (i, j) :: comparators v
  | _ => []

/-- A network for `n` numbers whose outputs are in order on all boolean inputs. -/
def SortsBits (n : ℕ) (net : List (ℕ × ℕ)) : Prop :=
  (∀ c ∈ net, c.1 < n ∧ c.2 < n ∧ c.1 ≠ c.2) ∧
    ∀ i < n - 1, (Comparators.outputTables n net).getD i 0 &&&
        (Comparators.outputTables n net).getD (i + 1) 0 =
      (Comparators.outputTables n net).getD i 0

instance instDecidableSortsBits (n : ℕ) (net : List (ℕ × ℕ)) : Decidable (SortsBits n net) :=
  inferInstanceAs (Decidable (_ ∧ _))

/-- Every network of the table sorts bits. -/
theorem sortsBits_data : ∀ k < data.length, SortsBits (k + 2) (comparators (data.getD k [])) := by
  decide +kernel

section LinearOrder

variable [LinearOrder α]

theorem runImpl_true (v : List ℕ) (a : ℕ → α) :
    runImpl true v a = Comparators.run min max (comparators v) a := by
  fun_induction comparators v generalizing a with
  | case1 i j v ih =>
    rw [runImpl, ih, Comparators.run_cons, Comparators.exchange, min_def, max_def]
    simp only [doCmp, if_true, decide_eq_true_eq]
  | case2 v hv =>
    rw [runImpl]
    · rfl
    · exact hv

/-- Downwards is upwards in the opposite order. -/
theorem runImpl_false (v : List ℕ) (a : ℕ → α) :
    runImpl false v a = runImpl (α := αᵒᵈ) true v a := by
  fun_induction comparators v generalizing a with
  | case1 i j v ih => exact ih _
  | case2 v hv =>
    rw [runImpl]
    · exact (runImpl.eq_2 (α := αᵒᵈ) true v a hv).symm
    · exact hv

/-- `b` is `a` with the first `n` elements sorted by `r` and the others left where they are. -/
def IsSorted (r : α → α → Prop) (n : ℕ) (a b : ℕ → α) : Prop :=
  (∀ i j, i ≤ j → j < n → r (b i) (b j)) ∧
    ∃ σ : Equiv.Perm ℕ, (∀ i, n ≤ i → σ i = i) ∧ b = a ∘ σ

/-- A network that sorts bits sorts. -/
theorem SortsBits.isSorted {n : ℕ} {net : List (ℕ × ℕ)} (h : SortsBits n net) (a : ℕ → α) :
    IsSorted (· ≤ ·) n a (Comparators.run min max net a) := by
  obtain ⟨hnet, htables⟩ := h
  constructor
  · intro i j hij
    induction j, hij using Nat.le_induction with
    | base => exact fun _ => le_rfl
    | succ j _ ih =>
      intro hj
      exact (ih (by omega)).trans (Comparators.le_run_of_tables
        (fun c hc => ⟨(hnet c hc).1, (hnet c hc).2.1⟩) (by omega) hj (htables j (by omega)) a)
  · obtain ⟨σ, hσ, hrun⟩ := Comparators.exists_perm_run (s := (· < n)) hnet a
    exact ⟨σ, fun i hi => hσ i (Nat.not_lt.mpr hi), hrun⟩

/-- The result is sorted. -/
theorem isSorted_sortAscend {n : ℕ} (hn : n ≤ maxLength) (a : ℕ → α) :
    IsSorted (· ≤ ·) n a (sortAscend n a) := by
  have hwrapper : IsSorted (· ≤ ·) n a (runWrapper true n a) := by
    rw [runWrapper]
    split_ifs with h
    · obtain ⟨k, rfl⟩ := Nat.exists_eq_add_of_le' h
      rw [runImpl_true]
      exact (sortsBits_data k (by rw [maxLength] at hn; omega)).isSorted a
    · refine ⟨fun i j hij hj => ?_, Equiv.refl ℕ, fun _ _ => rfl, rfl⟩
      rw [show i = j by omega]
  obtain ⟨hle, σ, hσ, hrun⟩ := hwrapper
  have hcopy : sortAscend n a = runWrapper true n a := by
    funext i
    rw [sortAscend, sortImpl]
    split_ifs with hi
    · rfl
    · rw [hrun, Function.comp_apply, hσ i (Nat.not_lt.mp hi)]
  rw [hcopy]
  exact ⟨hle, σ, hσ, hrun⟩

/-- Descending is ascending in the opposite order. -/
theorem sortDescend_eq (n : ℕ) (a : ℕ → α) :
    sortDescend n a = sortAscend (α := αᵒᵈ) n a := by
  funext i
  simp only [sortDescend, sortAscend, sortImpl, runWrapper, runImpl_false]
  rfl

/-- **The networks sort**: for every length up to the largest and every array of a linear order,
both ways, and nothing behind the sorted elements is touched. -/
theorem sort_spec {n : ℕ} (hn : n ≤ maxLength) (a : ℕ → α) :
    IsSorted (· ≤ ·) n a (sortAscend n a) ∧ IsSorted (· ≥ ·) n a (sortDescend n a) := by
  refine ⟨isSorted_sortAscend hn a, ?_⟩
  rw [sortDescend_eq]
  exact isSorted_sortAscend (α := αᵒᵈ) hn a

/-- An array of eight with a repetition, for the examples. -/
def eightNumbers (i : ℕ) : ℕ := [5, 1, 4, 1, 3, 9, 2, 6].getD i 0

/-- The first seven of them. -/
theorem sort_spec_seven : 7 ≤ maxLength ∧
    IsSorted (· ≤ ·) 7 eightNumbers (sortAscend 7 eightNumbers) ∧
    IsSorted (· ≥ ·) 7 eightNumbers (sortDescend 7 eightNumbers) :=
  ⟨by decide, sort_spec (by decide) _⟩

example : (List.range 8).map (sortAscend 7 eightNumbers) =
    [1, 1, 2, 3, 4, 5, 9, 6] := by decide

end LinearOrder

end SortingNetwork

end Dsom
