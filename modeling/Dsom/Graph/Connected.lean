import Dsom.Graph.SearchSteps
import Mathlib.Logic.Relation

/-!
# Graph/Connected — components are strongly connected

A node of the search path reaches every node entered after it.  The mark of a node that is no root
is the index of a node it reaches and that is still on a stack, plus one; so a node that a root
takes with it reaches the root by nodes of lower and lower index (`Takes.reach_root`).
-/

namespace Dsom

namespace Scc

open Finder

/-- There is a path from one node to another. -/
def Reach (edges : ℕ → List ℕ) : ℕ → ℕ → Prop := Relation.ReflTransGen fun u w => w ∈ edges u

/-- What is known of the paths between nodes, and that no component is empty. -/
structure Connected (n : ℕ) (edges : ℕ → List ℕ) (num : ℕ → ℕ) (s : Finder) : Prop where
  down : ∀ a ∈ s.path, ∀ x, s.Live x → num a ≤ num x → Reach edges a x
  back : ∀ x, s.Live x → s.rindexComposite x % 2 = 1 →
    ∃ y, s.Live y ∧ Reach edges x y ∧ s.rindexComposite x = num y + 1
  same : ∀ x y, 2 * n < s.rindexComposite x → s.rindexComposite y = s.rindexComposite x →
    Reach edges x y
  used : ∀ c, c % 2 = 1 → s.componentIndex < c → c < 4 * n → ∃ v, s.rindexComposite v = c

variable {n base : ℕ} {edges : ℕ → List ℕ} {num : ℕ → ℕ} {s t : Finder} {u v w : ℕ}
  {rest : List ℕ} {vf : List (ℕ × List ℕ)} {taken left : List ℕ}

/-- Components that are in use lie above all indexes. -/
theorem Marks.lt_of_comp_lt (h : Marks n s) {c : ℕ} (hc : s.componentIndex < c) (hodd : c % 2 = 1) :
    2 * n < c := by
  have hcard : (s.assigned n).card ≤ (Finset.range n).card := Finset.card_filter_le _ _
  rw [Finset.card_range] at hcard
  have := h.comp_le
  omega

/-- A node is entered from the top of the stack. -/
theorem Connected.enter (h : Connected n edges num s) (hm : Marks n s) (ho : Order base num s)
    (he : Edges n edges num s) (hv : v < n) (h0 : s.rindexComposite v = 0)
    (htop : ∀ f ∈ s.vf.head?, f.2.head? = some v) :
    Connected n edges (Function.update num v s.index) (s.enter edges v) := by
  have hnl := hm.not_live h0
  have hne : ∀ {u}, s.Live u → u ≠ v := fun hu huv => hnl (huv ▸ hu)
  have hnum : ∀ {u}, s.Live u → Function.update num v s.index u = num u :=
    fun hu => Function.update_of_ne (hne hu) ..
  have hindex : s.index ≤ 2 * n := hm.index_le hv h0
  have heven : s.index % 2 = 0 := by rw [hm.index_eq]; omega
  -- the node on top has an edge to `v`
  have hreach : ∀ a ∈ s.path, Reach edges a v := by
    intro a ha
    cases hvf : s.vf with
    | nil => simp [path, hvf] at ha
    | cons f vf =>
        have hf : f.1 ∈ s.path := by simp [path, hvf]
        have hedge : v ∈ edges f.1 :=
          (he.rest_suffix f (by simp [hvf])).mem (List.mem_of_head? (htop f (by simp [hvf])))
        have hle : num a ≤ num f.1 := by
          have hsorted := ho.path_sorted
          rw [path, hvf, List.map_cons] at hsorted ha
          rcases List.mem_cons.mp ha with rfl | ha
          · exact le_rfl
          · exact ((List.pairwise_cons.mp hsorted).1 a ha).le
        exact (h.down a ha f.1 (.inl hf) hle).tail hedge
  constructor
  case down =>
    intro a ha x hx hle
    rcases live_enter.mp hx with rfl | hlive
    · rcases List.mem_cons.mp ha with rfl | ha
      · exact .refl
      · exact hreach a ha
    · rw [hnum hlive] at hle
      rcases List.mem_cons.mp ha with rfl | ha
      · rw [Function.update_self] at hle
        exact absurd (ho.lt x hlive) hle.not_gt
      · rw [hnum (.inl ha)] at hle
        exact h.down a ha x hlive hle
  case back =>
    intro x hx hodd
    rcases live_enter.mp hx with rfl | hx
    · rw [enter_mark_self] at hodd
      omega
    · rw [enter_mark_of_ne (hne hx)] at hodd ⊢
      obtain ⟨y, hy, hxy, hmark⟩ := h.back x hx hodd
      exact ⟨y, live_enter.mpr (.inr hy), hxy, (hnum hy).symm ▸ hmark⟩
  case same =>
    intro x y hx hxy
    have hxv : x ≠ v := by
      rintro rfl
      rw [enter_mark_self] at hx
      omega
    have hyv : y ≠ v := by
      rintro rfl
      rw [← hxy, enter_mark_self] at hx
      omega
    rw [enter_mark_of_ne hxv] at hx
    rw [enter_mark_of_ne hxv, enter_mark_of_ne hyv] at hxy
    exact h.same x y hx hxy
  case used =>
    intro c hodd hlt hc
    obtain ⟨x, rfl⟩ := h.used c hodd hlt hc
    have hxv : x ≠ v := by
      rintro rfl
      omega
    exact ⟨x, enter_mark_of_ne hxv⟩

/-- An edge to a node that has been seen. -/
theorem Connected.examine (h : Connected n edges num s) (hm : Marks n s) (ho : Order base num s)
    (he : Edges n edges num s) (hvf : s.vf = (u, w :: rest) :: vf) (hw : s.rindexComposite w ≠ 0) :
    Connected n edges num (s.examine u w rest vf) := by
  have hu : s.Live u := live_top hvf
  have hedge : w ∈ edges u := (he.rest_suffix (u, w :: rest) (by simp [hvf])).mem (.head _)
  have hmark : (s.examine u w rest vf).rindexComposite u =
      min (s.rindexComposite u) (2 * (s.rindexComposite w / 2) + 1) := examine_mark_self
  constructor
  case down =>
    intro a ha x hx hle
    rw [path_examine hvf] at ha
    exact h.down a ha x ((live_examine hvf).mp hx) hle
  case back =>
    intro x hx hodd
    simp only [live_examine hvf] at hx ⊢
    by_cases hxu : x = u
    · subst hxu
      by_cases hsame : (s.examine x w rest vf).rindexComposite x = s.rindexComposite x
      · rw [hsame] at hodd ⊢
        exact h.back x hx hodd
      · -- the mark is that of `w`, which is on a stack
        have hmarkx := hm.mark_le hx
        have hwlive : s.Live w := (hm.live_iff w).mpr ⟨hw, by omega⟩
        by_cases hwodd : s.rindexComposite w % 2 = 1
        · obtain ⟨y, hy, hwy, hyw⟩ := h.back w hwlive hwodd
          exact ⟨y, hy, hwy.head hedge, by omega⟩
        · have hwnum : s.rindexComposite w = num w := by
            rcases hwlive with hpath | hvb
            · exact (ho.path_mark w hpath).resolve_right hwodd
            · exact absurd (ho.vb_odd w hvb) hwodd
          exact ⟨w, hwlive, .single hedge, by omega⟩
    · rw [examine_mark_of_ne hxu] at hodd ⊢
      exact h.back x hx hodd
  all_goals
    have hself : (s.examine u w rest vf).rindexComposite u ≤ 2 * n :=
      examine_mark_le.trans (hm.mark_le hu)
  case same =>
    intro x y hx hxy
    have hxu : x ≠ u := by
      rintro rfl
      omega
    have hyu : y ≠ u := by
      rintro rfl
      omega
    rw [examine_mark_of_ne hxu] at hx
    rw [examine_mark_of_ne hxu, examine_mark_of_ne hyu] at hxy
    exact h.same x y hx hxy
  case used =>
    intro c hodd hlt hc
    obtain ⟨x, rfl⟩ := h.used c hodd hlt hc
    have hbig := hm.lt_of_comp_lt hlt hodd
    have hxu : x ≠ u := by
      rintro rfl
      have := hm.mark_le hu
      omega
    exact ⟨x, examine_mark_of_ne hxu⟩

/-- A node is left whose component is still open. -/
theorem Connected.postpone (h : Connected n edges num s) (hvf : s.vf = (u, []) :: vf) :
    Connected n edges num { s with vf := vf, vb := u :: s.vb } where
  down a ha x hx hle :=
    h.down a (by rw [path_eq_cons hvf]; exact .tail _ ha) x ((live_postpone hvf).mp hx) hle
  back x hx hodd := by
    obtain ⟨y, hy, hxy⟩ := h.back x ((live_postpone hvf).mp hx) hodd
    exact ⟨y, (live_postpone hvf).mpr hy, hxy⟩
  same := h.same
  used := h.used

/-! ## Closing a component -/

section Takes

variable (hvf : s.vf = (u, []) :: vf) (ht : Takes num s t u vf taken left)

include hvf ht

/-- **What a root takes with it reaches the root.** -/
theorem Takes.reach_root (h : Connected n edges num s) (ho : Order base num s) {x : ℕ}
    (hx : x ∈ taken) : Reach edges x u := by
  -- by induction on the index: the mark of `x` names a node between `u` and `x`
  induction hk : num x using Nat.strong_induction_on generalizing x with
  | _ k ih =>
      subst hk
      have hu := ht.live_of_closed hvf (.inl rfl)
      have hxlive := ht.live_of_closed hvf (.inr hx)
      have hodd := ho.vb_odd x (ht.vb_eq ▸ List.mem_append_left _ hx)
      obtain ⟨y, hy, hxy, hmark⟩ := h.back x hxlive hodd
      have hle := ho.le x hxlive
      have hge := (ht.taken_gt x hx).2
      have hueven := ho.even u hu
      have hyeven := ho.even y hy
      rcases hy with hpath | hvb
      · rw [path_eq_cons hvf] at hpath
        rcases List.mem_cons.mp hpath with rfl | hpath
        · exact hxy
        · have := ho.lt_top hvf hpath
          omega
      · rw [ht.vb_eq, List.mem_append] at hvb
        rcases hvb with hytaken | hyleft
        · exact hxy.trans (ih (num y) (by omega) hytaken rfl)
        · have := ht.left_lt y hyleft
          omega

/-- **A closed component is strongly connected.** -/
theorem Takes.reach (h : Connected n edges num s) (ho : Order base num s) {x y : ℕ}
    (hx : x = u ∨ x ∈ taken) (hy : y = u ∨ y ∈ taken) : Reach edges x y := by
  have hto : Reach edges x u := by
    rcases hx with rfl | hx
    · exact .refl
    · exact ht.reach_root hvf h ho hx
  have hfrom : Reach edges u y := by
    refine h.down u (by simp [path_eq_cons hvf]) y (ht.live_of_closed hvf hy) ?_
    rcases hy with rfl | hy
    · exact le_rfl
    · exact (ht.taken_gt y hy).1.le
  exact hto.trans hfrom

/-- A component is closed. -/
theorem Connected.close (h : Connected n edges num s) (hm : Marks n s) (ho : Order base num s) :
    Connected n edges num t := by
  have hu := ht.live_of_closed hvf (.inl rfl)
  have hcomp := hm.lt_comp hu
  have hpath : t.path = vf.map Prod.fst := by rw [path, ht.vf_left]
  have hlive {x : ℕ} (hx : t.Live x) : s.Live x := ((ht.live_iff hvf ho).mp hx).1
  constructor
  case down =>
    intro a ha x hx hle
    rw [hpath] at ha
    exact h.down a (by rw [path_eq_cons hvf]; exact .tail _ ha) x (hlive hx) hle
  case back =>
    intro x hx hodd
    rw [ht.mark_eq_of_live hvf ho hx] at hodd ⊢
    obtain ⟨y, hy, hxy, hmark⟩ := h.back x (hlive hx) hodd
    -- `x` stays, so it was entered before `u`, and `y` before `x`
    refine ⟨y, (ht.live_iff hvf ho).mpr ⟨hy, ?_⟩, hxy, hmark⟩
    have hxu : num x < num u := by
      rcases hx with hx | hx
      · exact ho.lt_top hvf (hpath ▸ hx)
      · exact ht.left_lt x (ht.vb_left ▸ hx)
    have hle := ho.le x (hlive hx)
    rintro (rfl | hytaken)
    · omega
    · have := (ht.taken_gt y hytaken).1
      omega
  case same =>
    intro x y hx hxy
    have hnew {z : ℕ} : t.rindexComposite z = s.componentIndex ↔ z = u ∨ z ∈ taken := by
      refine ⟨fun hz => ?_, ht.mark_in z⟩
      by_contra hno
      rw [ht.mark_out z hno] at hz
      have := (hm.assigned z (by omega)).1
      omega
    by_cases hxt : x = u ∨ x ∈ taken
    · exact ht.reach hvf h ho hxt (hnew.mp (hxy.trans (ht.mark_in x hxt)))
    · have hyt : ¬ (y = u ∨ y ∈ taken) := fun hyt =>
        hxt (hnew.mp (hxy.symm.trans (ht.mark_in y hyt)))
      rw [ht.mark_out x hxt] at hx hxy
      rw [ht.mark_out y hyt] at hxy
      exact h.same x y hx hxy
  case used =>
    intro c hodd hlt hc
    rw [ht.comp_eq] at hlt
    by_cases hceq : c = s.componentIndex
    · exact ⟨u, (ht.mark_in u (.inl rfl)).trans hceq.symm⟩
    · have hn : n ≠ 0 := by
        have := hm.node_lt u (hm.mark_ne_zero hu)
        omega
      have := hm.comp_odd hn
      obtain ⟨x, rfl⟩ := h.used c hodd (by omega) hc
      refine ⟨x, ht.mark_out x fun hx => ?_⟩
      have := hm.mark_le (ht.live_of_closed hvf hx)
      omega

end Takes

end Scc

end Dsom
