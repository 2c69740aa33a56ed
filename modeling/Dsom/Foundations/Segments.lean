import Mathlib.Data.List.Basic
import Mathlib.Data.List.Nodup

/-!
# Foundations/Segments — stretches of a linked list

`Linked link stop head l`: following the links from `head` visits `l` and then stands at `stop`.  A
stretch only depends on the links of its own nodes, and ends where the link of its last node leads
(`Linked.splice`).
-/

namespace Segment

variable {α : Type*} {link link' : α → α} {stop stop' head p : α} {l rest : List α}

/-- Following the links from `head` visits `l` and ends at `stop`. -/
def Linked (link : α → α) (stop : α) : α → List α → Prop
  | head, [] => head = stop
  | head, p :: l => head = p ∧ Linked link stop (link p) l

@[simp] theorem linked_nil : Linked link stop head [] ↔ head = stop := Iff.rfl

/-- A linked stretch is its first element, then the rest. -/
@[simp] theorem linked_cons :
    Linked link stop head (p :: l) ↔ head = p ∧ Linked link stop (link p) l := Iff.rfl

/-- **The frame rule**: only the links of the nodes themselves matter. -/
theorem Linked.congr (heq : ∀ p ∈ l, link' p = link p) (h : Linked link stop head l) :
    Linked link' stop head l := by
  induction l generalizing head with
  | nil => exact h
  | cons p l ih =>
      obtain ⟨rfl, hl⟩ := h
      refine ⟨rfl, ih (fun q hq => heq q (.tail _ hq)) ?_⟩
      rwa [heq _ (.head _)]

/-- **Redirecting the last link** joins a stretch to what starts there. -/
theorem Linked.splice (heq : ∀ q ∈ l, link' q = link q) (h : Linked link stop head (l ++ [p]))
    (hrest : Linked link' stop' (link' p) rest) : Linked link' stop' head (l ++ p :: rest) := by
  induction l generalizing head with
  | nil => exact ⟨h.1, hrest⟩
  | cons q l ih =>
      obtain ⟨rfl, hl⟩ := h
      refine ⟨rfl, ih (fun r hr => heq r (.tail _ hr)) ?_⟩
      rwa [heq _ (.head _)]

/-- A stretch that does not start at its end has a first node. -/
theorem Linked.exists_cons (h : Linked link stop head l) (hne : head ≠ stop) :
    ∃ rest, l = head :: rest ∧ Linked link stop (link head) rest := by
  cases l with
  | nil => exact absurd h hne
  | cons p l =>
      obtain ⟨rfl, hl⟩ := h
      exact ⟨l, rfl, hl⟩

end Segment
