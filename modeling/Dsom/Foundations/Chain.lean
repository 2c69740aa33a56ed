import Mathlib.Data.List.Basic
import Mathlib.Data.List.Nodup
import Mathlib.Data.List.Perm.Subperm
import Mathlib.Tactic.Common

/-!
# Foundations/Chain — singly linked lists

Nodes are numbered, and `next` is the link of each.  `IsLinked next head l`: following the links
from `head` visits the nodes `l` and ends.  A chain only depends on the links of its own nodes.
-/

namespace Chain

variable {next next' : ℕ → Option ℕ}

/-- Following the links from `head` visits `l`. -/
def IsLinked (next : ℕ → Option ℕ) : Option ℕ → List ℕ → Prop
  | head, [] => head = none
  | head, p :: l => head = some p ∧ IsLinked next (next p) l

@[simp] theorem isLinked_nil {head : Option ℕ} : IsLinked next head [] ↔ head = none := Iff.rfl

/-- A linked list is its head, then what is linked behind it. -/
@[simp] theorem isLinked_cons {head : Option ℕ} {p : ℕ} {l : List ℕ} :
    IsLinked next head (p :: l) ↔ head = some p ∧ IsLinked next (next p) l := Iff.rfl

theorem isLinked_none {l : List ℕ} (h : IsLinked next none l) : l = [] := by
  cases l with
  | nil => rfl
  | cons p l => cases h.1

theorem isLinked_some {p : ℕ} {l : List ℕ} (h : IsLinked next (some p) l) :
    ∃ rest, l = p :: rest ∧ IsLinked next (next p) rest := by
  cases l with
  | nil => cases h
  | cons q rest =>
    obtain ⟨hq, hrest⟩ := h
    obtain rfl := Option.some.inj hq
    exact ⟨rest, rfl, hrest⟩

/-- **The frame rule**: only the links of the chain's nodes matter. -/
theorem IsLinked.congr {l : List ℕ} (heq : ∀ p ∈ l, next' p = next p) :
    ∀ {head : Option ℕ}, IsLinked next head l → IsLinked next' head l := by
  induction l with
  | nil => exact id
  | cons p l ih =>
    rintro head ⟨hp, hl⟩
    refine ⟨hp, ih (fun q hq => heq q (List.mem_cons_of_mem _ hq)) ?_⟩
    rwa [heq p List.mem_cons_self]

/-- Behind every element a linked list goes on. -/
theorem IsLinked.tail_of_append {l₂ : List ℕ} {cur : ℕ} : ∀ {l₁ : List ℕ} {head : Option ℕ},
    IsLinked next head (l₁ ++ cur :: l₂) → IsLinked next (next cur) l₂
  | [], _, h => h.2
  | _ :: _, _, h => tail_of_append h.2

/-- **Insertion** of a new node behind `cur`. -/
theorem IsLinked.insert {l₂ : List ℕ} {cur new : ℕ} (hcur : next' cur = some new)
    (hnew : next' new = next cur) (h₂ : ∀ p ∈ l₂, next' p = next p) :
    ∀ {l₁ : List ℕ} {head : Option ℕ}, (∀ p ∈ l₁, next' p = next p) →
      IsLinked next head (l₁ ++ cur :: l₂) → IsLinked next' head (l₁ ++ cur :: new :: l₂)
  | [], _, _, h => ⟨h.1, hcur, hnew ▸ h.2.congr h₂⟩
  | p :: l₁, _, h₁, h => by
    refine ⟨h.1, ?_⟩
    rw [h₁ p List.mem_cons_self]
    exact insert hcur hnew h₂ (fun q hq => h₁ q (List.mem_cons_of_mem _ hq)) h.2

/-- Distinct nodes below a bound are at most that many. -/
theorem length_le_of_lt {l : List ℕ} {n : ℕ} (hnodup : l.Nodup) (hlt : ∀ p ∈ l, p < n) :
    l.length ≤ n := by
  have hsub : l ⊆ List.range n := fun p hp => List.mem_range.mpr (hlt p hp)
  simpa using (List.subperm_of_subset hnodup hsub).length_le

end Chain
