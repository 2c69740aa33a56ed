import Mathlib.Data.Set.Function
import Mathlib.Data.Set.Monotone
import Mathlib.Order.Interval.Set.Basic
import Mathlib.Tactic.Common

/-!
# Foundations/BinarySearch — two ways to halve an interval

`findLoop` looks for a key that is there and stops at the first hit; `lowerBoundLoop` keeps the last
index as an answer and looks for the first one that is.  Both run on `fuel`; an interval of `fuel`
steps is enough.
-/

namespace Dsom

namespace BinarySearch

variable {α : Type} [LinearOrder α] {value : ℕ → α} {target : α}

/-- `while (left < right)`, to the index of the key.  `none` is an index below 0, or no fuel. -/
def findLoop (value : ℕ → α) (target : α) : ℕ → ℕ → ℕ → Option ℕ
  | fuel, left, right =>
    if left < right then
      match fuel with
      | 0 => none
      | fuel + 1 =>
        let mid := (left + right) / 2
        if target = value mid then some mid
        else if target < value mid then
          if mid = 0 then none else findLoop value target fuel left (mid - 1)
        else findLoop value target fuel (mid + 1) right
    else some left

/-- `while (left != right)`, to the first index that is large enough. -/
def lowerBoundLoop (value : ℕ → α) (target : α) : ℕ → ℕ → ℕ → Option ℕ
  | fuel, left, right =>
    if left ≠ right then
      match fuel with
      | 0 => none
      | fuel + 1 =>
        let mid := (left + right) / 2
        if target ≤ value mid then lowerBoundLoop value target fuel left mid
        else lowerBoundLoop value target fuel (mid + 1) right
    else some right

/-- One round of the first loop. -/
theorem findLoop_succ (fuel left right : ℕ) :
    findLoop value target (fuel + 1) left right =
      if left < right then
        if target = value ((left + right) / 2) then some ((left + right) / 2)
        else if target < value ((left + right) / 2) then
          if (left + right) / 2 = 0 then none
          else findLoop value target fuel left ((left + right) / 2 - 1)
        else findLoop value target fuel ((left + right) / 2 + 1) right
      else some left := rfl

/-- One round of the second. -/
theorem lowerBoundLoop_succ (fuel left right : ℕ) :
    lowerBoundLoop value target (fuel + 1) left right =
      if left ≠ right then
        if target ≤ value ((left + right) / 2) then
          lowerBoundLoop value target fuel left ((left + right) / 2)
        else lowerBoundLoop value target fuel ((left + right) / 2 + 1) right
      else some right := rfl

/-- **A key in the interval is found**, when the values ascend on it. -/
theorem findLoop_eq {fuel left right k : ℕ} (hmono : StrictMonoOn value (Set.Icc left right))
    (hleft : left ≤ k) (hright : k ≤ right) (hfuel : right - left ≤ fuel) :
    findLoop value (value k) fuel left right = some k := by
  induction fuel generalizing left right with
  | zero =>
    obtain rfl : left = k := by omega
    unfold findLoop
    rw [if_neg (by omega)]
  | succ fuel ih =>
    rw [findLoop_succ]
    by_cases hlt : left < right
    · have hk : k ∈ Set.Icc left right := ⟨hleft, hright⟩
      have hmid : (left + right) / 2 ∈ Set.Icc left right := ⟨by omega, by omega⟩
      rw [if_pos hlt]
      simp only [hmono.injOn.eq_iff hk hmid, hmono.lt_iff_lt hk hmid]
      split_ifs with heq hbelow hzero
      · rw [heq]
      · omega
      · exact ih (hmono.mono (Set.Icc_subset_Icc_right (by omega))) hleft (by omega) (by omega)
      · have : (left + right) / 2 < k := lt_of_le_of_ne (not_lt.mp hbelow) (Ne.symm heq)
        exact ih (hmono.mono (Set.Icc_subset_Icc_left (by omega))) (by omega) hright (by omega)
    · rw [if_neg hlt, show left = k by omega]

/-- **The first index that is large enough is found**, when the last one is. -/
theorem lowerBoundLoop_spec {fuel left right : ℕ} (hmono : MonotoneOn value (Set.Icc left right))
    (hle : left ≤ right) (hright : target ≤ value right) (hfuel : right - left ≤ fuel) :
    ∃ k, lowerBoundLoop value target fuel left right = some k ∧ left ≤ k ∧ k ≤ right
      ∧ target ≤ value k ∧ ∀ j, left ≤ j → j < k → value j < target := by
  induction fuel generalizing left right with
  | zero =>
    obtain rfl : left = right := by omega
    refine ⟨left, ?_, le_rfl, le_rfl, hright, fun j h h' => absurd h' (by omega)⟩
    unfold lowerBoundLoop
    simp
  | succ fuel ih =>
    rw [lowerBoundLoop_succ]
    by_cases hne : left ≠ right
    · rw [if_pos hne]
      split_ifs with hmid
      · obtain ⟨k, hk, h1, h2, h3, h4⟩ := @ih left ((left + right) / 2)
          (hmono.mono (Set.Icc_subset_Icc_right (by omega))) (by omega) hmid (by omega)
        exact ⟨k, hk, h1, by omega, h3, h4⟩
      · obtain ⟨k, hk, h1, h2, h3, h4⟩ := @ih ((left + right) / 2 + 1) right
          (hmono.mono (Set.Icc_subset_Icc_left (by omega))) (by omega) hright (by omega)
        refine ⟨k, hk, by omega, h2, h3, fun j hj hjk => ?_⟩
        rcases Nat.lt_or_ge ((left + right) / 2) j with hmidj | hjmid
        · exact h4 j hmidj hjk
        · have hle := hmono ⟨hj, by omega⟩ ⟨by omega, by omega⟩ hjmid
          exact hle.trans_lt (not_le.mp hmid)
    · obtain rfl : left = right := not_ne_iff.mp hne
      rw [if_neg hne]
      exact ⟨left, rfl, le_rfl, le_rfl, hright, fun j h h' => absurd h' (by omega)⟩

end BinarySearch

end Dsom
