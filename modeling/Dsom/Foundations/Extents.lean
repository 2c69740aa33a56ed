import Mathlib.Algebra.GroupWithZero.Nat
import Mathlib.Data.List.Perm.Basic
import Mathlib.Order.Interval.Finset.Nat

/-!
# Foundations/Extents — stretches of addresses that do not meet

An extent is a start and a length.  Extents that are pairwise apart have no more addresses together
than there are (`sum_length_le`).
-/

namespace Extent

variable {x y z : ℕ × ℕ} {l : List (ℕ × ℕ)}

/-- One extent ends before the other begins. -/
def Apart (x y : ℕ × ℕ) : Prop := x.1 + x.2 ≤ y.1 ∨ y.1 + y.2 ≤ x.1

instance : DecidableRel Apart := fun _ _ => inferInstanceAs (Decidable (_ ∨ _))

/-- Being apart is symmetric. -/
theorem Apart.symm (h : Apart x y) : Apart y x := Or.symm h

instance : Std.Symm Apart := ⟨fun _ _ => Apart.symm⟩

/-- An extent is a part of another one. -/
def Within (x y : ℕ × ℕ) : Prop := y.1 ≤ x.1 ∧ x.1 + x.2 ≤ y.1 + y.2

/-- Within what is within. -/
theorem Within.trans (h : Within x y) (h' : Within y z) : Within x z :=
  ⟨h'.1.trans h.1, h.2.trans h'.2⟩

/-- Parts of extents that are apart. -/
theorem Apart.within {x' y' : ℕ × ℕ} (h : Apart x y) (hx : Within x' x) (hy : Within y' y) :
    Apart x' y' :=
  h.imp (fun h => (hx.2.trans h).trans hy.1) fun h => (hy.2.trans h).trans hx.1

/-- The addresses of extents that are pairwise apart. -/
theorem exists_finset (hl : l.Pairwise Apart) :
    ∃ U : Finset ℕ, U.card = (l.map Prod.snd).sum
      ∧ ∀ a, a ∈ U ↔ ∃ x ∈ l, x.1 ≤ a ∧ a < x.1 + x.2 := by
  induction l with
  | nil => exact ⟨∅, rfl, by simp⟩
  | cons x l ih =>
    obtain ⟨hx, hl⟩ := List.pairwise_cons.mp hl
    obtain ⟨U, hcard, hmem⟩ := ih hl
    have hdisj : Disjoint (Finset.Ico x.1 (x.1 + x.2)) U := by
      refine Finset.disjoint_left.mpr fun a ha hU => ?_
      obtain ⟨y, hy, hle, hlt⟩ := (hmem a).mp hU
      rw [Finset.mem_Ico] at ha
      rcases hx y hy with h | h <;> omega
    refine ⟨Finset.Ico x.1 (x.1 + x.2) ∪ U, ?_, fun a => ?_⟩
    · rw [Finset.card_union_of_disjoint hdisj, hcard, Nat.card_Ico, Nat.add_sub_cancel_left,
        List.map_cons, List.sum_cons]
    · rw [Finset.mem_union, hmem, Finset.mem_Ico, List.exists_mem_cons_iff]

/-- Stretches apart from each other take no more room than there is. -/
theorem sum_length_le {n : ℕ} (hl : l.Pairwise Apart) (hle : ∀ x ∈ l, x.1 + x.2 ≤ n) :
    (l.map Prod.snd).sum ≤ n := by
  obtain ⟨U, hcard, hmem⟩ := exists_finset hl
  have hsub : U ⊆ Finset.range n := fun a ha => by
    obtain ⟨x, hx, -, hlt⟩ := (hmem a).mp ha
    exact Finset.mem_range.mpr (hlt.trans_le (hle x hx))
  simpa [hcard] using Finset.card_le_card hsub

end Extent
