import Mathlib.Data.Finset.Lattice.Fold
import Mathlib.Data.Fintype.Basic
import Mathlib.Logic.Relation

/-!
# Foundations/Dataflow — one bit of a gen/kill analysis

A program point either generates the bit, kills it, or passes it on.  `Reaches` is the meaning over
paths, read in the direction of the analysis: following `next`, a generating point is met before any
killing one.  A point that does both generates first.

`transfer` is the same over a straight line of points and for all bits at once; being a gen/kill
function it is determined by its value at the two ends of the lattice (`transfer_eq_masks`).
-/

namespace Dsom

namespace Dataflow

section Paths

variable {P : Type*} (next : P → P → Prop) (gen kill : P → Prop)

/-- A step that does not lose the bit. -/
def Passes (p q : P) : Prop := ¬ kill p ∧ next p q

/-- **The path definition**: some path from `p` meets `gen` with no `kill` before it. -/
def Reaches (p : P) : Prop :=
  ∃ q, Relation.ReflTransGen (Passes next kill) p q ∧ gen q

/-- …and the same on a path that has already left `p`'s own `gen` behind. -/
def ReachesAfter (p : P) : Prop :=
  ∃ q, Relation.TransGen (Passes next kill) p q ∧ gen q

variable {next gen kill} {p q : P}

theorem reaches_of_gen (h : gen p) : Reaches next gen kill p := ⟨p, .refl, h⟩

/-- A fact is carried along where it is not killed. -/
theorem reaches_of_step (hk : ¬ kill p) (hn : next p q) (h : Reaches next gen kill q) :
    Reaches next gen kill p := by
  obtain ⟨r, hr, hg⟩ := h
  exact ⟨r, .head ⟨hk, hn⟩ hr, hg⟩

/-- The fact behind a point, from the points that follow. -/
theorem reachesAfter_iff :
    ReachesAfter next gen kill p ↔ ¬ kill p ∧ ∃ q, next p q ∧ Reaches next gen kill q := by
  constructor
  · rintro ⟨r, hr, hg⟩
    obtain ⟨q, ⟨hk, hn⟩, hq⟩ := Relation.TransGen.head'_iff.mp hr
    exact ⟨hk, q, hn, r, hq, hg⟩
  · rintro ⟨hk, q, hn, r, hq, hg⟩
    exact ⟨r, Relation.TransGen.head'_iff.mpr ⟨q, ⟨hk, hn⟩, hq⟩, hg⟩

/-- One step unfolded. -/
theorem reaches_iff : Reaches next gen kill p ↔ gen p ∨ ReachesAfter next gen kill p := by
  constructor
  · rintro ⟨r, hr, hg⟩
    rcases Relation.reflTransGen_iff_eq_or_transGen.mp hr with rfl | hr
    · exact .inl hg
    · exact .inr ⟨r, hr, hg⟩
  · rintro (hg | ⟨r, hr, hg⟩)
    · exact reaches_of_gen hg
    · exact ⟨r, hr.to_reflTransGen, hg⟩

/-- **`Reaches` is the least solution**: it lies inside every set closed under the two rules. -/
theorem Reaches.mem_of_closed {S : P → Prop} (hgen : ∀ p, gen p → S p)
    (hstep : ∀ p q, ¬ kill p → next p q → S q → S p) (h : Reaches next gen kill p) : S p := by
  obtain ⟨r, hr, hg⟩ := h
  induction hr using Relation.ReflTransGen.head_induction_on with
  | refl => exact hgen r hg
  | head hpq _ ih => exact hstep _ _ hpq.1 hpq.2 ih

/-- **The meaning only depends on the graph**: a map that keeps the marks of a point and its
successors keeps what it reaches. -/
theorem reaches_iff_of_map {Q : Type*} {next' : Q → Q → Prop} {gen' kill' : Q → Prop} (φ : P → Q)
    (hgen : ∀ p, gen' (φ p) ↔ gen p) (hkill : ∀ p, kill' (φ p) ↔ kill p)
    (hnext : ∀ p q', next' (φ p) q' ↔ ∃ q, next p q ∧ φ q = q') (p : P) :
    Reaches next' gen' kill' (φ p) ↔ Reaches next gen kill p := by
  constructor
  · intro h
    refine Reaches.mem_of_closed (S := fun q' => ∀ p, φ p = q' → Reaches next gen kill p)
      ?_ ?_ h p rfl
    · rintro q' hg p rfl
      exact reaches_of_gen ((hgen p).mp hg)
    · rintro q' r' hk hn ih p rfl
      obtain ⟨q, hpq, hq⟩ := (hnext p r').mp hn
      exact reaches_of_step (fun hkp => hk ((hkill p).mpr hkp)) hpq (ih q hq)
  · refine Reaches.mem_of_closed (fun p hg => reaches_of_gen ((hgen p).mpr hg)) ?_
    intro p q hk hn hq
    exact reaches_of_step (fun hkp => hk ((hkill p).mp hkp)) ((hnext p _).mpr ⟨q, hn, rfl⟩) hq

/-- The same behind a point. -/
theorem reachesAfter_iff_of_map {Q : Type*} {next' : Q → Q → Prop} {gen' kill' : Q → Prop}
    (φ : P → Q) (hgen : ∀ p, gen' (φ p) ↔ gen p) (hkill : ∀ p, kill' (φ p) ↔ kill p)
    (hnext : ∀ p q', next' (φ p) q' ↔ ∃ q, next p q ∧ φ q = q') (p : P) :
    ReachesAfter next' gen' kill' (φ p) ↔ ReachesAfter next gen kill p := by
  rw [reachesAfter_iff, reachesAfter_iff, hkill]
  refine and_congr_right fun _ => ⟨?_, ?_⟩
  · rintro ⟨q', hn, hq⟩
    obtain ⟨q, hpq, rfl⟩ := (hnext p q').mp hn
    exact ⟨q, hpq, (reaches_iff_of_map φ hgen hkill hnext q).mp hq⟩
  · rintro ⟨q, hpq, hq⟩
    exact ⟨φ q, (hnext p _).mpr ⟨q, hpq, rfl⟩, (reaches_iff_of_map φ hgen hkill hnext q).mpr hq⟩

end Paths

/-! ## A straight line of points -/

section Line

variable {α : Type*} [DecidableEq α]

/-- The bits before a line of `(gen, kill)` points, from the bits `t` after it. -/
def transfer : List (List α × List α) → Finset α → Finset α
  | [], t => t
  | p :: ps, t => (transfer ps t \ p.2.toFinset) ∪ p.1.toFinset

variable {p : List α × List α} {ps : List (List α × List α)} {s t : Finset α} {a : α}

@[simp] theorem transfer_nil : transfer [] t = t := rfl

/-- One more point in front. -/
theorem mem_transfer_cons :
    a ∈ transfer (p :: ps) t ↔ a ∈ p.1 ∨ a ∉ p.2 ∧ a ∈ transfer ps t := by
  simp only [transfer, Finset.mem_union, Finset.mem_sdiff, List.mem_toFinset]
  tauto

/-- More at the end gives more at the start. -/
theorem transfer_mono (h : s ⊆ t) : transfer ps s ⊆ transfer ps t := by
  induction ps with
  | nil => exact h
  | cons p ps ih => exact Finset.union_subset_union_left (Finset.sdiff_subset_sdiff ih subset_rfl)

/-- Either the line decides the bit by itself, or it hands on the bit it is given. -/
theorem mem_transfer_iff [Fintype α] :
    a ∈ transfer ps t ↔ (a ∈ t ∧ a ∈ transfer ps Finset.univ) ∨ a ∈ transfer ps ∅ := by
  induction ps with
  | nil => simp
  | cons p ps ih => rw [mem_transfer_cons, mem_transfer_cons, mem_transfer_cons, ih]; tauto

/-- **A line is two masks**: what it keeps of everything, and what it makes of nothing. -/
theorem transfer_eq_masks [Fintype α] (ps : List (List α × List α)) (t : Finset α) :
    transfer ps t = (t ∩ transfer ps Finset.univ) ∪ transfer ps ∅ := by
  ext a
  rw [mem_transfer_iff, Finset.mem_union, Finset.mem_inter]

end Line

end Dataflow

end Dsom
