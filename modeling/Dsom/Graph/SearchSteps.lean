import Dsom.Graph.Components
import Mathlib.Algebra.BigOperators.Group.Finset.Basic
import Mathlib.Algebra.Order.BigOperators.Group.Finset
import Mathlib.Data.List.Chain
import Mathlib.Data.Nat.Bitwise

/-!
# Graph/SearchSteps — what a step of the search keeps

The nodes on the two stacks are numbered in the order they were entered; the number is a ghost,
since the mark of a node is lowered as the search learns what it reaches.  `Marks`, `Order` and
`Edges` are what holds at every label, and `Low` says that a node on the search path has the least
mark of the finished nodes entered since, which for the node on top may still be owed by its
current edge.

A root then takes with it exactly the finished nodes entered after it, and no edge leads from those
to a node that stays on a stack (`Takes.no_way_back`).
-/

namespace Dsom

namespace Scc

theorem or_one_eq (x : ℕ) : x ||| 1 = 2 * (x / 2) + 1 := by
  have hmod : (x ||| 1) % 2 = 1 := by simp
  have hdiv : (x ||| 1) / 2 = x / 2 := by simp [Nat.or_div_two]
  omega

/-! ## The invariant

In four parts: the marks, the order of the two stacks, the edges that have been examined, and how
low the marks are. -/

namespace Finder

/-- The nodes on the search path, the last one first. -/
def path (s : Finder) : List ℕ := s.vf.map Prod.fst

/-- Entered and not in a component yet. -/
def Live (s : Finder) (v : ℕ) : Prop := v ∈ s.path ∨ v ∈ s.vb

/-- The edge from `u` to `w` has been examined. -/
def Passed (edges : ℕ → List ℕ) (s : Finder) (u w : ℕ) : Prop :=
  (u ∈ s.vb ∧ w ∈ edges u) ∨ ∃ done rest, (u, rest) ∈ s.vf ∧ edges u = done ++ rest ∧ w ∈ done

/-- The nodes that have been entered. -/
def visited (n : ℕ) (s : Finder) : Finset ℕ :=
  (Finset.range n).filter fun v => s.rindexComposite v ≠ 0

/-- The nodes that are in a component. -/
def assigned (n : ℕ) (s : Finder) : Finset ℕ :=
  (Finset.range n).filter fun v => 2 * n < s.rindexComposite v

end Finder

open Finder

/-- What the marks say, and how many there are. -/
structure Marks (n : ℕ) (s : Finder) : Prop where
  node_lt : ∀ v, s.rindexComposite v ≠ 0 → v < n
  live_iff : ∀ v, s.Live v ↔ s.rindexComposite v ≠ 0 ∧ s.rindexComposite v ≤ 2 * n
  index_eq : s.index = 2 * (s.visited n).card + 2
  comp_odd : n ≠ 0 → s.componentIndex % 2 = 1
  comp_lt : n ≠ 0 → s.componentIndex < 4 * n
  comp_le : 4 * n ≤ s.componentIndex + 1 + 2 * (s.assigned n).card
  assigned : ∀ v, 2 * n < s.rindexComposite v →
    s.componentIndex < s.rindexComposite v ∧ s.rindexComposite v % 2 = 1 ∧
      s.rindexComposite v < 4 * n

/-- The stacks in the order of entry; `base` is the number of the first node of the path. -/
structure Order (base : ℕ) (num : ℕ → ℕ) (s : Finder) : Prop where
  nodup : (s.path ++ s.vb).Nodup
  even : ∀ v, s.Live v → num v % 2 = 0
  lt : ∀ v, s.Live v → num v < s.index
  inj : ∀ u v, s.Live u → s.Live v → num u = num v → u = v
  le : ∀ v, s.Live v → s.rindexComposite v ≤ num v
  base_le : ∀ v, s.Live v → base ≤ s.rindexComposite v
  base_le_index : base ≤ s.index
  base_even : base % 2 = 0
  path_mark : ∀ v ∈ s.path, s.rindexComposite v = num v ∨ s.rindexComposite v % 2 = 1
  vb_odd : ∀ v ∈ s.vb, s.rindexComposite v % 2 = 1
  path_sorted : s.path.Pairwise fun u v => num v < num u
  vb_sorted : s.vb.Pairwise fun x y => ∀ a ∈ s.path, num a < num y → num a < num x
  bottom : ∀ f, s.vf.getLast? = some f → num f.1 = base

/-- The iterators, and what examined edges lead to. -/
structure Edges (n : ℕ) (edges : ℕ → List ℕ) (num : ℕ → ℕ) (s : Finder) : Prop where
  rest_suffix : ∀ f ∈ s.vf, f.2 <:+ edges f.1
  linked : s.vf.IsChain fun f g => g.2.head? = some f.1
  visited : ∀ u w, s.Passed edges u w → s.rindexComposite w ≠ 0
  low : ∀ u w, s.Passed edges u w → s.Live w → s.rindexComposite u ≤ num w + 1
  closed : ∀ u, 2 * n < s.rindexComposite u → ∀ w ∈ edges u,
    s.rindexComposite u ≤ s.rindexComposite w

/-- A node of the path has a mark as low as the finished nodes for which it is the last node of the
path entered before them; the one on top may owe this to its current edge, to `pending`. -/
def Low (num : ℕ → ℕ) (s : Finder) (pending : Option ℕ) : Prop :=
  ∀ a ∈ s.path, ∀ x ∈ s.vb, num a < num x → (∀ b ∈ s.path, num a < num b → num x < num b) →
    s.rindexComposite a ≤ s.rindexComposite x ∨
    ∃ w ∈ pending, w ∈ s.vb ∧ s.rindexComposite w ≤ s.rindexComposite x ∧ s.path.head? = some a

variable {n base : ℕ} {edges : ℕ → List ℕ} {num : ℕ → ℕ} {s : Finder} {u v w : ℕ}
  {rest : List ℕ} {vf : List (ℕ × List ℕ)}

theorem Finder.Passed.live (h : s.Passed edges u w) : s.Live u := by
  rcases h with ⟨hu, -⟩ | ⟨_, _, hf, -⟩
  · exact .inr hu
  · exact .inl (List.mem_map.mpr ⟨_, hf, rfl⟩)

/-- Nothing is owed to an edge. -/
theorem Low.none_le (h : Low num s none) {a x : ℕ} (ha : a ∈ s.path) (hx : x ∈ s.vb)
    (hax : num a < num x) (hb : ∀ b ∈ s.path, num a < num b → num x < num b) :
    s.rindexComposite a ≤ s.rindexComposite x := by
  rcases h a ha x hx hax hb with h | ⟨w, hw, -⟩
  · exact h
  · cases hw

theorem Marks.mark_ne_zero (h : Marks n s) (hv : s.Live v) : s.rindexComposite v ≠ 0 :=
  ((h.live_iff v).mp hv).1

/-- Nodes on the stacks have small marks. -/
theorem Marks.mark_le (h : Marks n s) (hv : s.Live v) : s.rindexComposite v ≤ 2 * n :=
  ((h.live_iff v).mp hv).2

/-- A node without a mark is on no stack. -/
theorem Marks.not_live (h : Marks n s) (hv : s.rindexComposite v = 0) : ¬ s.Live v :=
  fun hl => h.mark_ne_zero hl hv

/-- A node that is seen is on a stack or in a component. -/
theorem Marks.live_or_assigned (h : Marks n s) (hv : s.rindexComposite v ≠ 0) :
    s.Live v ∨ 2 * n < s.rindexComposite v := by
  by_cases hle : s.rindexComposite v ≤ 2 * n
  · exact .inl ((h.live_iff v).mpr ⟨hv, hle⟩)
  · exact .inr (by omega)

/-- While a node is not seen there is room for its index. -/
theorem Marks.index_le (h : Marks n s) (hv : v < n) (h0 : s.rindexComposite v = 0) :
    s.index ≤ 2 * n := by
  have hcard : (s.visited n).card < (Finset.range n).card :=
    Finset.card_lt_card (Finset.filter_ssubset.mpr ⟨v, Finset.mem_range.mpr hv, by simpa using h0⟩)
  rw [Finset.card_range] at hcard
  have := h.index_eq
  omega

/-- While a node is on a stack there is room for another component. -/
theorem Marks.lt_comp (h : Marks n s) (hv : s.Live v) : 2 * n < s.componentIndex := by
  have hcard : (s.assigned n).card < (Finset.range n).card :=
    Finset.card_lt_card (Finset.filter_ssubset.mpr ⟨v,
      Finset.mem_range.mpr (h.node_lt v (h.mark_ne_zero hv)), by simpa using h.mark_le hv⟩)
  rw [Finset.card_range] at hcard
  have := h.comp_le
  omega

/-! ## Entering a node

The node is put on top of the path with the next number. -/

section Enter

theorem live_enter : (s.enter edges v).Live u ↔ u = v ∨ s.Live u := by
  simp [Live, enter, path, or_assoc]

theorem enter_mark_self : (s.enter edges v).rindexComposite v = s.index := Function.update_self ..

theorem enter_mark_of_ne (h : u ≠ v) : (s.enter edges v).rindexComposite u = s.rindexComposite u :=
  Function.update_of_ne h ..

theorem passed_enter (hv : ¬ s.Live v) :
    (s.enter edges v).Passed edges u w → s.Passed edges u w := by
  rintro (⟨hu, hw⟩ | ⟨done, rest, hf, he, hw⟩)
  · exact .inl ⟨hu, hw⟩
  · rcases List.mem_cons.mp hf with hf | hf
    · obtain ⟨rfl, rfl⟩ := Prod.mk.inj hf
      have : done = [] := by simpa using he
      simp [this] at hw
    · exact .inr ⟨done, rest, hf, he, hw⟩

/-- The new node has the next number as its mark. -/
theorem Marks.enter (h : Marks n s) (hv : v < n) (h0 : s.rindexComposite v = 0) :
    Marks n (s.enter edges v) := by
  have hi := h.index_le hv h0
  have hpos : 2 ≤ s.index := by rw [h.index_eq]; omega
  constructor
  case node_lt =>
    intro u hu
    by_cases huv : u = v
    · exact huv ▸ hv
    · exact h.node_lt u (enter_mark_of_ne huv ▸ hu)
  case live_iff =>
    intro u
    rw [live_enter]
    by_cases huv : u = v
    · subst huv
      rw [enter_mark_self]
      exact ⟨fun _ => ⟨by omega, hi⟩, fun _ => .inl rfl⟩
    · rw [enter_mark_of_ne huv, ← h.live_iff]
      simp [huv]
  case index_eq =>
    have hins : (s.enter edges v).visited n = insert v (s.visited n) := by
      ext u
      by_cases huv : u = v
      · subst huv
        simp only [visited, Finset.mem_filter, enter_mark_self, Finset.mem_insert,
          true_or, iff_true,
          Finset.mem_range]
        exact ⟨hv, by omega⟩
      · simp [visited, enter_mark_of_ne huv, huv]
    rw [hins, Finset.card_insert_of_notMem (by simp [visited, h0])]
    have := h.index_eq
    show s.index + 2 = _
    omega
  case comp_odd => exact h.comp_odd
  case comp_lt => exact h.comp_lt
  case comp_le =>
    have hass : (s.enter edges v).assigned n = s.assigned n := by
      refine Finset.filter_congr fun u _ => ?_
      by_cases huv : u = v
      · subst huv
        rw [enter_mark_self]
        omega
      · rw [enter_mark_of_ne huv]
    rw [hass]
    exact h.comp_le
  case assigned =>
    intro u hu
    by_cases huv : u = v
    · subst huv
      rw [enter_mark_self] at hu
      omega
    · rw [enter_mark_of_ne huv] at hu ⊢
      exact h.assigned u hu

/-- It is above every other node. -/
theorem Order.enter (h : Order base num s) (hm : Marks n s) (h0 : s.rindexComposite v = 0)
    (hbase : s.vf = [] → base = s.index) :
    Order base (Function.update num v s.index) (s.enter edges v) := by
  have hv := hm.not_live h0
  have hne : ∀ {u}, s.Live u → u ≠ v := fun hu huv => hv (huv ▸ hu)
  have hnum : ∀ {u}, s.Live u → Function.update num v s.index u = num u :=
    fun hu => Function.update_of_ne (hne hu) ..
  have hmark : ∀ {u}, s.Live u → (s.enter edges v).rindexComposite u = s.rindexComposite u :=
    fun hu => enter_mark_of_ne (hne hu)
  have hieven : s.index % 2 = 0 := by rw [hm.index_eq]; omega
  constructor
  case nodup => exact List.nodup_cons.mpr ⟨fun hmem => hv (List.mem_append.mp hmem), h.nodup⟩
  case even =>
    intro u hu
    rcases live_enter.mp hu with rfl | hu
    · simpa using hieven
    · exact hnum hu ▸ h.even u hu
  case lt =>
    intro u hu
    show _ < s.index + 2
    rcases live_enter.mp hu with rfl | hu
    · simp
    · have := h.lt u hu
      rw [hnum hu]
      omega
  case inj =>
    intro a b ha hb hab
    rcases live_enter.mp ha with hav | ha' <;> rcases live_enter.mp hb with hbv | hb'
    · exact hav.trans hbv.symm
    · rw [hav, Function.update_self, hnum hb'] at hab
      exact absurd hab (h.lt b hb').ne'
    · rw [hbv, Function.update_self, hnum ha'] at hab
      exact absurd hab (h.lt a ha').ne
    · rw [hnum ha', hnum hb'] at hab
      exact h.inj a b ha' hb' hab
  case le =>
    intro u hu
    rcases live_enter.mp hu with rfl | hu
    · rw [enter_mark_self, Function.update_self]
    · rw [hmark hu, hnum hu]
      exact h.le u hu
  case base_le =>
    intro u hu
    rcases live_enter.mp hu with rfl | hu
    · rw [enter_mark_self]
      exact h.base_le_index
    · rw [hmark hu]
      exact h.base_le u hu
  case base_le_index => exact h.base_le_index.trans (Nat.le_add_right ..)
  case base_even => exact h.base_even
  case path_mark =>
    intro u hu
    rcases List.mem_cons.mp hu with rfl | hu
    · exact .inl (by rw [enter_mark_self, Function.update_self])
    · rw [hmark (.inl hu), hnum (.inl hu)]
      exact h.path_mark u hu
  case vb_odd =>
    intro u hu
    rw [hmark (.inr hu)]
    exact h.vb_odd u hu
  case path_sorted =>
    refine List.pairwise_cons.mpr ⟨fun a ha => ?_, h.path_sorted.imp_of_mem fun ha hb hab => ?_⟩
    · rw [Function.update_self, hnum (.inl ha)]
      exact h.lt a (.inl ha)
    · rw [hnum (.inl ha), hnum (.inl hb)]
      exact hab
  case vb_sorted =>
    refine h.vb_sorted.imp_of_mem fun hx hy hxy a ha hlt => ?_
    rw [hnum (.inr hx)]
    rw [hnum (.inr hy)] at hlt
    rcases List.mem_cons.mp ha with rfl | ha
    · rw [Function.update_self] at hlt
      exact absurd hlt (h.lt _ (.inr hy)).not_gt
    · rw [hnum (.inl ha)] at hlt ⊢
      exact hxy a ha hlt
  case bottom =>
    intro f hf
    rw [Finder.enter, List.getLast?_cons] at hf
    cases hl : s.vf.getLast? with
    | none =>
        obtain rfl : (v, edges v) = f := by simpa [hl] using hf
        rw [Function.update_self, hbase (List.getLast?_eq_none_iff.mp hl)]
    | some g =>
        obtain rfl : g = f := by simpa [hl] using hf
        have hg : g.1 ∈ s.path := List.mem_map_of_mem (List.mem_of_getLast? hl)
        rw [hnum (.inl hg)]
        exact h.bottom g hl

/-- None of its edges has been examined. -/
theorem Edges.enter (h : Edges n edges num s) (hm : Marks n s) (hv : v < n)
    (h0 : s.rindexComposite v = 0) (htop : ∀ f ∈ s.vf.head?, f.2.head? = some v) :
    Edges n edges (Function.update num v s.index) (s.enter edges v) := by
  have hnl := hm.not_live h0
  constructor
  case rest_suffix =>
    intro f hf
    rcases List.mem_cons.mp hf with rfl | hf
    · exact List.suffix_refl _
    · exact h.rest_suffix f hf
  case linked => exact List.isChain_cons.mpr ⟨htop, h.linked⟩
  case visited =>
    intro u w hp
    have hw := h.visited u w (passed_enter hnl hp)
    have hwv : w ≠ v := fun hwv => hw (hwv ▸ h0)
    rwa [enter_mark_of_ne hwv]
  case low =>
    intro u w hp hw
    have hp' := passed_enter hnl hp
    have hwv : w ≠ v := fun hwv => h.visited u w hp' (hwv ▸ h0)
    have huv : u ≠ v := fun huv => hnl (huv ▸ hp'.live)
    rw [enter_mark_of_ne huv, Function.update_of_ne hwv]
    exact h.low u w hp' ((live_enter.mp hw).resolve_left hwv)
  case closed =>
    intro u hu w hw
    have huv : u ≠ v := by
      rintro rfl
      have := hm.index_le hv h0
      rw [enter_mark_self] at hu
      omega
    rw [enter_mark_of_ne huv] at hu ⊢
    have hle := h.closed u hu w hw
    have hwv : w ≠ v := by
      rintro rfl
      rw [h0] at hle
      omega
    rwa [enter_mark_of_ne hwv]

/-- Its mark is as low as needed. -/
theorem Low.enter (h : Low num s none) (ho : Order base num s) (hnl : ¬ s.Live v) :
    Low (Function.update num v s.index) (s.enter edges v) none := by
  have hne : ∀ {u}, s.Live u → u ≠ v := fun hu huv => hnl (huv ▸ hu)
  have hnum : ∀ {u}, s.Live u → Function.update num v s.index u = num u :=
    fun hu => Function.update_of_ne (hne hu) ..
  have hmark : ∀ {u}, s.Live u → (s.enter edges v).rindexComposite u = s.rindexComposite u :=
    fun hu => enter_mark_of_ne (hne hu)
  intro a ha x hx hax hb
  have hx' : s.Live x := .inr hx
  rw [hnum hx'] at hax hb
  rcases List.mem_cons.mp ha with rfl | ha
  · rw [Function.update_self] at hax
    exact absurd hax (ho.lt x hx').not_gt
  · rw [hnum (.inl ha)] at hax hb
    left
    rw [hmark (.inl ha), hmark hx']
    refine h.none_le ha hx hax fun b hb' hab => ?_
    have := hb b (.tail _ hb')
    rw [hnum (.inl hb')] at this
    exact this hab

end Enter

/-! ## Examining an edge

The mark of the top node is lowered to that of the edge's end. -/

section Examine

variable (hvf : s.vf = (u, w :: rest) :: vf)

include hvf in
theorem path_examine : (s.examine u w rest vf).path = s.path := by
  simp [path, examine, hvf]

include hvf in
theorem live_examine : (s.examine u w rest vf).Live v ↔ s.Live v := by
  rw [Live, path_examine hvf]
  rfl

theorem examine_mark_of_ne (h : v ≠ u) :
    (s.examine u w rest vf).rindexComposite v = s.rindexComposite v := by
  rw [examine]
  split_ifs
  · exact Function.update_of_ne h ..
  · rfl

/-- The mark of the top node after the edge. -/
theorem examine_mark_self : (s.examine u w rest vf).rindexComposite u
    = min (s.rindexComposite u) (2 * (s.rindexComposite w / 2) + 1) := by
  rw [examine, ← or_one_eq]
  split_ifs with hlt
  · rw [min_eq_right hlt.le]
    exact Function.update_self ..
  · rw [min_eq_left (Nat.le_of_not_lt hlt)]

theorem examine_mark_le : (s.examine u w rest vf).rindexComposite v ≤ s.rindexComposite v := by
  by_cases h : v = u
  · subst h
    rw [examine_mark_self]
    exact min_le_left ..
  · rw [examine_mark_of_ne h]

include hvf in
/-- One more edge has been examined. -/
theorem passed_examine (h : Edges n edges num s) {a b : ℕ}
    (hp : (s.examine u w rest vf).Passed edges a b) :
    s.Passed edges a b ∨ (a = u ∧ b = w) := by
  rcases hp with ⟨ha, hb⟩ | ⟨done, rem, hf, he, hb⟩
  · exact .inl (.inl ⟨ha, hb⟩)
  · rcases List.mem_cons.mp hf with hf | hf
    · obtain ⟨rfl, rfl⟩ := Prod.mk.inj hf
      obtain ⟨before, hbefore⟩ := h.rest_suffix (a, w :: rem) (by simp [hvf])
      have hdone : done = before ++ [w] :=
        List.append_cancel_right (he.symm.trans (by simpa using hbefore.symm))
      rw [hdone, List.mem_append, List.mem_singleton] at hb
      rcases hb with hb | rfl
      · exact .inl (.inr ⟨before, w :: rem, by simp [hvf], hbefore.symm, hb⟩)
      · exact .inr ⟨rfl, rfl⟩
    · exact .inl (.inr ⟨done, rem, by rw [hvf]; exact .tail _ hf, he, hb⟩)

include hvf in
theorem live_top : s.Live u := .inl (by simp [path, hvf])

/-- An edge to a node that is in a component lowers no mark. -/
theorem Marks.examine_mark_eq (h : Marks n s) (hu : s.Live u) (hw : 2 * n < s.rindexComposite w) :
    (s.examine u w rest vf).rindexComposite u = s.rindexComposite u := by
  have := h.mark_le hu
  rw [examine_mark_self]
  omega

include hvf in
/-- The marks are still right. -/
theorem Marks.examine (h : Marks n s) : Marks n (s.examine u w rest vf) := by
  have hu := live_top hvf
  have hu0 := h.mark_ne_zero hu
  have hule := h.mark_le hu
  have hself : (s.examine u w rest vf).rindexComposite u ≠ 0 ∧
      (s.examine u w rest vf).rindexComposite u ≤ 2 * n := by
    rw [examine_mark_self]
    omega
  have hzero : ∀ v, (s.examine u w rest vf).rindexComposite v ≠ 0 ↔ s.rindexComposite v ≠ 0 := by
    intro v
    by_cases hv : v = u
    · subst hv
      exact iff_of_true hself.1 hu0
    · rw [examine_mark_of_ne hv]
  have hass : ∀ v, 2 * n < (s.examine u w rest vf).rindexComposite v ↔
      2 * n < s.rindexComposite v := by
    intro v
    by_cases hv : v = u
    · subst hv
      exact iff_of_false (by omega) (by omega)
    · rw [examine_mark_of_ne hv]
  constructor
  case node_lt => exact fun v hv => h.node_lt v ((hzero v).mp hv)
  case live_iff =>
    intro v
    rw [live_examine hvf, h.live_iff, hzero, ← not_lt, ← not_lt, hass]
  case index_eq =>
    have : (s.examine u w rest vf).visited n = s.visited n := Finset.filter_congr fun v _ => hzero v
    rw [this]
    exact h.index_eq
  case comp_odd => exact h.comp_odd
  case comp_lt => exact h.comp_lt
  case comp_le =>
    have : (s.examine u w rest vf).assigned n = s.assigned n :=
      Finset.filter_congr fun v _ => hass v
    rw [this]
    exact h.comp_le
  case assigned =>
    intro v hv
    have hv' := (hass v).mp hv
    have hne : v ≠ u := by
      rintro rfl
      omega
    rw [examine_mark_of_ne hne]
    exact h.assigned v hv'

include hvf in
/-- The order is as it was. -/
theorem Order.examine (h : Order base num s) (hm : Marks n s) (hw : s.rindexComposite w ≠ 0) :
    Order base num (s.examine u w rest vf) := by
  have hu := live_top hvf
  have hvb : ∀ v ∈ s.vb, v ≠ u := by
    rintro v hv rfl
    have hnd := h.nodup
    rw [path, hvf] at hnd
    exact (List.nodup_cons.mp hnd).1 (List.mem_append_right _ hv)
  constructor
  case nodup =>
    rw [path_examine hvf]
    exact h.nodup
  case even => exact fun v hv => h.even v ((live_examine hvf).mp hv)
  case lt => exact fun v hv => h.lt v ((live_examine hvf).mp hv)
  case inj => exact fun a b ha hb => h.inj a b ((live_examine hvf).mp ha) ((live_examine hvf).mp hb)
  case le => exact fun v hv => examine_mark_le.trans (h.le v ((live_examine hvf).mp hv))
  case base_le =>
    intro v hv
    have hv' := h.base_le v ((live_examine hvf).mp hv)
    by_cases hvu : v = u
    · subst hvu
      rcases hm.live_or_assigned hw with hwl | hwa
      · have := h.base_le w hwl
        rw [examine_mark_self]
        omega
      · rwa [hm.examine_mark_eq hu hwa]
    · rwa [examine_mark_of_ne hvu]
  case base_le_index => exact h.base_le_index
  case base_even => exact h.base_even
  case path_mark =>
    intro v hv
    rw [path_examine hvf] at hv
    by_cases hvu : v = u
    · subst hvu
      have := h.path_mark v hv
      rw [examine_mark_self]
      omega
    · rw [examine_mark_of_ne hvu]
      exact h.path_mark v hv
  case vb_odd =>
    intro v hv
    rw [examine_mark_of_ne (hvb v hv)]
    exact h.vb_odd v hv
  case path_sorted =>
    rw [path_examine hvf]
    exact h.path_sorted
  case vb_sorted =>
    rw [path_examine hvf]
    exact h.vb_sorted
  case bottom =>
    intro f hf
    rw [Finder.examine, List.getLast?_cons] at hf
    have hbot := h.bottom
    rw [hvf, List.getLast?_cons] at hbot
    cases hl : vf.getLast? with
    | none =>
        obtain rfl : (u, rest) = f := by simpa [hl] using hf
        exact hbot (u, w :: rest) (by simp [hl])
    | some g =>
        obtain rfl : g = f := by simpa [hl] using hf
        exact hbot g (by simp [hl])

include hvf in
/-- The examined edge leads to a marked node. -/
theorem Edges.examine (h : Edges n edges num s) (hm : Marks n s) (ho : Order base num s)
    (hw : s.rindexComposite w ≠ 0) : Edges n edges num (s.examine u w rest vf) := by
  have hu := live_top hvf
  constructor
  case rest_suffix =>
    intro f hf
    rcases List.mem_cons.mp hf with rfl | hf
    · exact (List.suffix_cons w rest).trans (h.rest_suffix (u, w :: rest) (by simp [hvf]))
    · exact h.rest_suffix f (by rw [hvf]; exact .tail _ hf)
  case linked =>
    have hlinked := h.linked
    rw [hvf, List.isChain_cons] at hlinked
    exact List.isChain_cons.mpr hlinked
  case visited =>
    intro a b hp
    have hb : s.rindexComposite b ≠ 0 := by
      rcases passed_examine hvf h hp with hp | ⟨-, rfl⟩
      · exact h.visited a b hp
      · exact hw
    by_cases hbu : b = u
    · subst hbu
      rw [examine_mark_self]
      omega
    · rwa [examine_mark_of_ne hbu]
  case low =>
    intro a b hp hb
    have hb' := (live_examine hvf).mp hb
    rcases passed_examine hvf h hp with hp | ⟨rfl, rfl⟩
    · exact examine_mark_le.trans (h.low a b hp hb')
    · have := ho.le b hb'
      have := ho.even b hb'
      rw [examine_mark_self]
      omega
  case closed =>
    intro a ha b hb
    have hau : a ≠ u := by
      rintro rfl
      have := hm.mark_le hu
      rw [examine_mark_self] at ha
      omega
    rw [examine_mark_of_ne hau] at ha ⊢
    have hle := h.closed a ha b hb
    have hbu : b ≠ u := by
      rintro rfl
      have := hm.mark_le hu
      omega
    rwa [examine_mark_of_ne hbu]

include hvf in
/-- The current edge pays what the node on top still owed. -/
theorem Low.examine (h : Low num s (some w)) (ho : Order base num s) :
    Low num (s.examine u w rest vf) none := by
  intro a ha x hx hax hb
  rw [path_examine hvf] at ha hb
  left
  have hxu : x ≠ u := by
    rintro rfl
    have hnd := ho.nodup
    rw [path, hvf] at hnd
    exact (List.nodup_cons.mp hnd).1 (List.mem_append_right _ hx)
  rw [examine_mark_of_ne hxu]
  rcases h a ha x hx hax hb with hle | ⟨w', hw', hwvb, hle, htop⟩
  · exact examine_mark_le.trans hle
  · obtain rfl : w = w' := by simpa using hw'
    obtain rfl : u = a := by simpa [path, hvf] using htop
    have := ho.vb_odd w hwvb
    rw [examine_mark_self]
    omega

end Examine

/-! ## Leaving a node that is no root

It goes over to the second stack. -/

section Postpone

variable (hvf : s.vf = (u, []) :: vf)

include hvf in
theorem path_eq_cons : s.path = u :: vf.map Prod.fst := by simp [path, hvf]

include hvf in
theorem top_passed (hw : w ∈ edges u) : s.Passed edges u w :=
  .inr ⟨edges u, [], by simp [hvf], by simp, hw⟩

include hvf in
/-- The node on top was entered after every other node of the path. -/
theorem Order.lt_top (h : Order base num s) {a : ℕ} (ha : a ∈ vf.map Prod.fst) : num a < num u := by
  have hsorted := h.path_sorted
  rw [path_eq_cons hvf] at hsorted
  exact (List.pairwise_cons.mp hsorted).1 a ha

include hvf in
theorem Order.ne_top (h : Order base num s) {x : ℕ} (hx : x ∈ s.vb) : x ≠ u := by
  rintro rfl
  have hnd := h.nodup
  rw [path_eq_cons hvf] at hnd
  exact (List.nodup_cons.mp hnd).1 (List.mem_append_right _ hx)

include hvf in
theorem Order.num_ne_top (h : Order base num s) {x : ℕ} (hx : x ∈ s.vb) : num x ≠ num u :=
  fun heq => h.ne_top hvf hx
    (h.inj x u (.inr hx) (.inl (by simp [path_eq_cons hvf])) heq)

include hvf in
/-- Every mark that is even is the index of its node. -/
theorem Order.mark_eq_of_root (h : Order base num s) (hr : s.isRoot u = true) :
    s.rindexComposite u = num u := by
  have hmark := h.path_mark u (by simp [path_eq_cons hvf])
  simp only [isRoot, decide_eq_true_eq] at hr
  omega

include hvf in
/-- The first node of the path is a root. -/
theorem Order.isRoot_bottom (h : Order base num s) (hnil : vf = []) : s.isRoot u = true := by
  subst hnil
  have hu : s.Live u := .inl (by simp [path_eq_cons hvf])
  have hbot : num u = base := h.bottom (u, []) (by simp [hvf])
  have := h.base_le u hu
  have := h.le u hu
  have := h.base_even
  simp only [isRoot, decide_eq_true_eq]
  omega

/-- What leaving does to a node that is no root. -/
theorem leave_of_not_root (hr : ¬ s.isRoot u = true) :
    s.leave u vf = { s with vf := vf, vb := u :: s.vb } := if_neg hr

include hvf in
theorem live_postpone : Live { s with vf := vf, vb := u :: s.vb } v ↔ s.Live v := by
  rw [Live, Live, path_eq_cons hvf]
  simp only [path, List.mem_cons]
  tauto

include hvf in
/-- The marks do not change. -/
theorem Marks.postpone (h : Marks n s) : Marks n { s with vf := vf, vb := u :: s.vb } where
  node_lt := h.node_lt
  live_iff v := (live_postpone hvf).trans (h.live_iff v)
  index_eq := h.index_eq
  comp_odd := h.comp_odd
  comp_lt := h.comp_lt
  comp_le := h.comp_le
  assigned := h.assigned

include hvf in
/-- The node is the highest on the second stack. -/
theorem Order.postpone (h : Order base num s) (hr : ¬ s.isRoot u = true) :
    Order base num { s with vf := vf, vb := u :: s.vb } where
  nodup := by
    have hnd := h.nodup
    rw [path_eq_cons hvf] at hnd
    exact (List.perm_middle.nodup_iff).mpr hnd
  even v hv := h.even v ((live_postpone hvf).mp hv)
  lt v hv := h.lt v ((live_postpone hvf).mp hv)
  inj a b ha hb := h.inj a b ((live_postpone hvf).mp ha) ((live_postpone hvf).mp hb)
  le v hv := h.le v ((live_postpone hvf).mp hv)
  base_le v hv := h.base_le v ((live_postpone hvf).mp hv)
  base_le_index := h.base_le_index
  base_even := h.base_even
  path_mark v hv := h.path_mark v (by rw [path_eq_cons hvf]; exact .tail _ hv)
  vb_odd v hv := by
    rcases List.mem_cons.mp hv with rfl | hv
    · simp only [isRoot, decide_eq_true_eq] at hr
      show s.rindexComposite v % 2 = 1
      omega
    · exact h.vb_odd v hv
  path_sorted := by
    have hsorted := h.path_sorted
    rw [path_eq_cons hvf] at hsorted
    exact (List.pairwise_cons.mp hsorted).2
  vb_sorted := by
    refine List.pairwise_cons.mpr ⟨fun y _ a ha _ => h.lt_top hvf ha, ?_⟩
    refine h.vb_sorted.imp fun hxy a ha => hxy a ?_
    rw [path_eq_cons hvf]
    exact .tail _ ha
  bottom f hf := h.bottom f (by rw [hvf, List.getLast?_cons,
    show vf.getLast? = some f from hf]; rfl)

include hvf in
theorem passed_postpone {a b : ℕ} :
    Passed edges { s with vf := vf, vb := u :: s.vb } a b → s.Passed edges a b := by
  rintro (⟨ha, hb⟩ | ⟨done, rem, hf, he, hb⟩)
  · rcases List.mem_cons.mp ha with rfl | ha
    · exact top_passed hvf hb
    · exact .inl ⟨ha, hb⟩
  · exact .inr ⟨done, rem, by rw [hvf]; exact .tail _ hf, he, hb⟩

include hvf in
/-- All its edges have been examined. -/
theorem Edges.postpone (h : Edges n edges num s) :
    Edges n edges num { s with vf := vf, vb := u :: s.vb } where
  rest_suffix f hf := h.rest_suffix f (by rw [hvf]; exact .tail _ hf)
  linked := by
    have hlinked := h.linked
    rw [hvf, List.isChain_cons] at hlinked
    exact hlinked.2
  visited a b hp := h.visited a b (passed_postpone hvf hp)
  low a b hp hb := h.low a b (passed_postpone hvf hp) ((live_postpone hvf).mp hb)
  closed := h.closed

/-- The last node of the path that was entered before a given one is the node on top. -/
theorem Order.eq_top (h : Order base num s) {a x : ℕ} (hx : ∀ b ∈ s.path, num b < num x)
    (ha : a ∈ s.path) (hb : ∀ b ∈ s.path, num a < num b → num x < num b) :
    s.path.head? = some a := by
  cases hp : s.path with
  | nil => simp [hp] at ha
  | cons b rest =>
      have hsorted := h.path_sorted
      rw [hp] at ha hb hx hsorted
      rcases List.mem_cons.mp ha with rfl | ha
      · rfl
      · have hlt := (List.pairwise_cons.mp hsorted).1 a ha
        have := hb b (.head _) hlt
        have := hx b (.head _)
        omega

include hvf in
/-- What the finished node reaches is owed to the node below it. -/
theorem Low.postpone (h : Low num s none) (ho : Order base num s) (hr : ¬ s.isRoot u = true) :
    Low num { s with vf := vf, vb := u :: s.vb } (some u) := by
  have ho' := ho.postpone hvf hr
  intro a ha x hx hax hb
  have hau := ho.lt_top hvf ha
  have hupath : u ∈ s.path := by simp [path_eq_cons hvf]
  -- `x` is the node that was just finished, or was finished while it was on top
  have owed : num u ≤ num x → s.rindexComposite u ≤ s.rindexComposite x →
      ∃ w ∈ some u, w ∈ u :: s.vb ∧ s.rindexComposite w ≤ s.rindexComposite x ∧
        (vf.map Prod.fst).head? = some a := by
    intro hux hle
    refine ⟨u, rfl, .head _, hle, ho'.eq_top (fun b hb' => ?_) ha hb⟩
    exact (ho.lt_top hvf hb').trans_le hux
  rcases List.mem_cons.mp hx with rfl | hx
  · exact .inr (owed le_rfl le_rfl)
  · by_cases hux : num u < num x
    · refine .inr (owed hux.le (h.none_le hupath hx hux fun b hb' hlt => ?_))
      rw [path_eq_cons hvf] at hb'
      rcases List.mem_cons.mp hb' with rfl | hb'
      · omega
      · have := ho.lt_top hvf hb'
        omega
    · have hne := ho.num_ne_top hvf hx
      have hapath : a ∈ s.path := by
        rw [path_eq_cons hvf]
        exact .tail _ ha
      refine .inl (h.none_le hapath hx hax fun b hb' hlt => ?_)
      rw [path_eq_cons hvf] at hb'
      rcases List.mem_cons.mp hb' with rfl | hb'
      · omega
      · exact hb b hb' hlt

end Postpone

/-! ## Leaving a root

Everything above it on the second stack is its component. -/

/-- The loop over the `vb` stack takes a first part of it. -/
theorem popComponent_spec (i c : ℕ) {vb : List ℕ} (hnd : vb.Nodup) (r : ℕ → ℕ) :
    ∃ taken, vb = taken ++ (popComponent i c vb r).1 ∧ (∀ x ∈ taken, i < r x) ∧
      (∀ y ∈ (popComponent i c vb r).1.head?, r y ≤ i) ∧
      (∀ x ∈ taken, (popComponent i c vb r).2 x = c) ∧
      ∀ x, x ∉ taken → (popComponent i c vb r).2 x = r x := by
  induction vb generalizing r with
  | nil => exact ⟨[], rfl, by simp, by simp [popComponent], by simp, fun _ _ => rfl⟩
  | cons w vb ih =>
      obtain ⟨hw, hnd⟩ := List.nodup_cons.mp hnd
      by_cases hle : r w ≤ i
      · rw [popComponent, if_pos hle]
        exact ⟨[], rfl, by simp, by simpa using hle, by simp, fun _ _ => rfl⟩
      · rw [popComponent, if_neg hle]
        obtain ⟨taken, heq, htaken, hhead, hin, hout⟩ := ih hnd (Function.update r w c)
        have hne : ∀ x ∈ vb, x ≠ w := fun x hx hxw => hw (hxw ▸ hx)
        have hsub : ∀ x ∈ taken, x ∈ vb := fun x hx => heq ▸ List.mem_append_left _ hx
        refine ⟨w :: taken, congrArg (w :: ·) heq, fun x hx => ?_, fun y hy => ?_, fun x hx => ?_,
          fun x hx => ?_⟩
        · rcases List.mem_cons.mp hx with rfl | hx
          · omega
          · have := htaken x hx
            rwa [Function.update_of_ne (hne x (hsub x hx))] at this
        · have hyvb : y ∈ vb := heq ▸ List.mem_append_right _ (List.mem_of_head? hy)
          have := hhead y hy
          rwa [Function.update_of_ne (hne y hyvb)] at this
        · by_cases hxt : x ∈ taken
          · exact hin x hxt
          · obtain rfl := (List.mem_cons.mp hx).resolve_right hxt
            rw [hout x hxt, Function.update_self]
        · rw [List.mem_cons, not_or] at hx
          rw [hout x hx.2, Function.update_of_ne hx.1]

/-- A root `u` is closed with the finished nodes `taken` that were entered after it. -/
structure Takes (num : ℕ → ℕ) (s t : Finder) (u : ℕ) (vf : List (ℕ × List ℕ))
    (taken left : List ℕ) : Prop where
  vb_eq : s.vb = taken ++ left
  vb_left : t.vb = left
  vf_left : t.vf = vf
  index_eq : t.index = s.index
  comp_eq : t.componentIndex = s.componentIndex - 2
  mark_in : ∀ x, x = u ∨ x ∈ taken → t.rindexComposite x = s.componentIndex
  mark_out : ∀ x, ¬ (x = u ∨ x ∈ taken) → t.rindexComposite x = s.rindexComposite x
  taken_gt : ∀ x ∈ taken, num u < num x ∧ num u ≤ s.rindexComposite x
  left_lt : ∀ x ∈ left, num x < num u

section Close

variable (hvf : s.vf = (u, []) :: vf)

include hvf in
/-- **A root takes the finished nodes entered after it**, and no others. -/
theorem leave_of_root (h : Order base num s) (hlow : Low num s none) (hr : s.isRoot u = true) :
    ∃ taken left, Takes num s (s.leave u vf) u vf taken left := by
  have hu : u ∈ s.path := by simp [path_eq_cons hvf]
  have hmark := h.mark_eq_of_root hvf hr
  obtain ⟨taken, heq, htaken, hhead, hin, hout⟩ := popComponent_spec (s.rindexComposite u)
    s.componentIndex (List.nodup_append.mp h.nodup).2.1 s.rindexComposite
  have hsplit : s.leave u vf = { s with
      rindexComposite := Function.update
        (popComponent (s.rindexComposite u) s.componentIndex s.vb s.rindexComposite).2 u
        s.componentIndex
      componentIndex := s.componentIndex - 2
      vf := vf
      vb := (popComponent (s.rindexComposite u) s.componentIndex s.vb s.rindexComposite).1 } :=
    if_pos hr
  generalize popComponent (s.rindexComposite u) s.componentIndex s.vb s.rindexComposite = r at *
  have htakenvb : ∀ x ∈ taken, x ∈ s.vb := fun x hx => heq ▸ List.mem_append_left _ hx
  have hleftvb : ∀ x ∈ r.1, x ∈ s.vb := fun x hx => heq ▸ List.mem_append_right _ hx
  refine ⟨taken, r.1, ?_⟩
  rw [hsplit]
  constructor
  case vb_eq => exact heq
  case vb_left => rfl
  case vf_left => rfl
  case index_eq => rfl
  case comp_eq => rfl
  case mark_in =>
    rintro x hx
    by_cases hxu : x = u
    · subst hxu
      exact Function.update_self ..
    · exact (Function.update_of_ne hxu ..).trans (hin x (hx.resolve_left hxu))
  case mark_out =>
    intro x hx
    rw [not_or] at hx
    exact (Function.update_of_ne hx.1 ..).trans (hout x hx.2)
  case taken_gt =>
    intro x hx
    have := htaken x hx
    have := h.le x (.inr (htakenvb x hx))
    omega
  case left_lt =>
    -- the first node left was entered before `u`, for else it would be marked above `u`
    cases hr1 : r.1 with
    | nil => simp
    | cons y left =>
        have hyvb : y ∈ s.vb := hleftvb y (by simp [hr1])
        have hy : num y < num u := by
          by_contra hnot
          have hne := h.num_ne_top hvf hyvb
          have hyle := hhead y (by simp [hr1])
          have hule : s.rindexComposite u ≤ s.rindexComposite y := by
            refine hlow.none_le hu hyvb (by omega) fun b hb hlt => ?_
            rw [path_eq_cons hvf] at hb
            rcases List.mem_cons.mp hb with rfl | hb
            · omega
            · have := h.lt_top hvf hb
              omega
          have := h.vb_odd y hyvb
          have := h.even u (.inl hu)
          omega
        intro x hx
        rcases List.mem_cons.mp hx with rfl | hx
        · exact hy
        · have hsorted := h.vb_sorted
          rw [heq, hr1, List.pairwise_append] at hsorted
          have hyx := (List.pairwise_cons.mp hsorted.2.1).1 x hx u hu
          have hne := h.num_ne_top hvf (hleftvb x (by simp [hr1, hx]))
          omega

end Close

section Takes

variable {t : Finder} {taken left : List ℕ} (hvf : s.vf = (u, []) :: vf)
  (ht : Takes num s t u vf taken left)

include hvf ht

/-- The nodes of the component leave the stacks. -/
theorem Takes.live_iff (ho : Order base num s) :
    t.Live v ↔ s.Live v ∧ ¬ (v = u ∨ v ∈ taken) := by
  have hnd := ho.nodup
  rw [path_eq_cons hvf, ht.vb_eq] at hnd
  have hpath : t.path = vf.map Prod.fst := by rw [path, ht.vf_left]
  rw [Live, Live, hpath, ht.vb_left, path_eq_cons hvf, ht.vb_eq]
  simp only [List.cons_append, List.nodup_cons, List.nodup_append, List.mem_append,
    List.mem_cons] at hnd ⊢
  constructor
  · rintro (hv | hv)
    · refine ⟨.inl (.inr hv), ?_⟩
      rintro (rfl | hvt)
      · exact hnd.1 (.inl hv)
      · exact hnd.2.2.2 v hv v (.inl hvt) rfl
    · refine ⟨.inr (.inr hv), ?_⟩
      rintro (rfl | hvt)
      · exact hnd.1 (.inr (.inr hv))
      · exact hnd.2.2.1.2.2 v hvt v hv rfl
  · tauto

/-- What is closed was on a stack. -/
theorem Takes.live_of_closed (hv : v = u ∨ v ∈ taken) : s.Live v := by
  rcases hv with rfl | hv
  · exact .inl (by simp [path_eq_cons hvf])
  · exact .inr (ht.vb_eq ▸ List.mem_append_left _ hv)

/-- The others keep their marks. -/
theorem Takes.mark_eq_of_live (ho : Order base num s) (hv : t.Live v) :
    t.rindexComposite v = s.rindexComposite v :=
  ht.mark_out v ((ht.live_iff hvf ho).mp hv).2

/-- The component has the next mark from above. -/
theorem Marks.close (h : Marks n s) (ho : Order base num s) : Marks n t := by
  have hu := ht.live_of_closed hvf (.inl rfl)
  have hc := h.lt_comp hu
  have hn : n ≠ 0 := by
    have := h.node_lt u (h.mark_ne_zero hu)
    omega
  have hodd := h.comp_odd hn
  have hlt := h.comp_lt hn
  have hclosed : ∀ v, v = u ∨ v ∈ taken →
      t.rindexComposite v = s.componentIndex ∧ s.rindexComposite v ≠ 0 ∧
        s.rindexComposite v ≤ 2 * n := fun v hv =>
    ⟨ht.mark_in v hv, (h.live_iff v).mp (ht.live_of_closed hvf hv)⟩
  have hzero : ∀ v, t.rindexComposite v ≠ 0 ↔ s.rindexComposite v ≠ 0 := by
    intro v
    by_cases hv : v = u ∨ v ∈ taken
    · have := hclosed v hv
      exact iff_of_true (by omega) this.2.1
    · rw [ht.mark_out v hv]
  constructor
  case node_lt => exact fun v hv => h.node_lt v ((hzero v).mp hv)
  case live_iff =>
    intro v
    rw [ht.live_iff hvf ho]
    by_cases hv : v = u ∨ v ∈ taken
    · have := hclosed v hv
      exact iff_of_false (fun h => h.2 hv) (by omega)
    · rw [ht.mark_out v hv, h.live_iff]
      simp only [hv, not_false_eq_true, and_true]
  case index_eq =>
    have : t.visited n = s.visited n := Finset.filter_congr fun v _ => hzero v
    rw [this, ht.index_eq]
    exact h.index_eq
  case comp_odd =>
    intro _
    rw [ht.comp_eq]
    omega
  case comp_lt =>
    intro _
    rw [ht.comp_eq]
    omega
  case comp_le =>
    have hsub : insert u (s.assigned n) ⊆ t.assigned n := by
      intro v hv
      simp only [Finset.mem_insert, Finder.assigned, Finset.mem_filter, Finset.mem_range] at hv ⊢
      rcases hv with rfl | ⟨hvn, hva⟩
      · rw [ht.mark_in v (.inl rfl)]
        exact ⟨h.node_lt v (h.mark_ne_zero hu), hc⟩
      · have hnot : ¬ (v = u ∨ v ∈ taken) := fun hv => by
          have := hclosed v hv
          omega
        rw [ht.mark_out v hnot]
        exact ⟨hvn, hva⟩
    have hule := h.mark_le hu
    have hcard := Finset.card_le_card hsub
    rw [Finset.card_insert_of_notMem (by simp [Finder.assigned, hule])] at hcard
    have := h.comp_le
    rw [ht.comp_eq]
    omega
  case assigned =>
    intro v hva
    rw [ht.comp_eq]
    by_cases hv : v = u ∨ v ∈ taken
    · rw [ht.mark_in v hv]
      omega
    · rw [ht.mark_out v hv] at hva ⊢
      have := h.assigned v hva
      omega

/-- What is left keeps its order. -/
theorem Order.close (h : Order base num s) : Order base num t := by
  have hlive : ∀ {v}, t.Live v → s.Live v := fun hv => ((ht.live_iff hvf h).mp hv).1
  have hpath : t.path = vf.map Prod.fst := by rw [path, ht.vf_left]
  have hleft : ∀ x ∈ t.vb, x ∈ s.vb := by
    intro x hx
    rw [ht.vb_left] at hx
    exact ht.vb_eq ▸ List.mem_append_right _ hx
  constructor
  case nodup =>
    have hnd := h.nodup
    rw [path_eq_cons hvf, ht.vb_eq] at hnd
    rw [hpath, ht.vb_left]
    refine (List.nodup_cons.mp hnd).2.sublist ?_
    exact (List.Sublist.refl _).append (List.sublist_append_right ..)
  case even => exact fun v hv => h.even v (hlive hv)
  case lt => exact fun v hv => ht.index_eq ▸ h.lt v (hlive hv)
  case inj => exact fun a b ha hb => h.inj a b (hlive ha) (hlive hb)
  case le => exact fun v hv => ht.mark_eq_of_live hvf h hv ▸ h.le v (hlive hv)
  case base_le => exact fun v hv => ht.mark_eq_of_live hvf h hv ▸ h.base_le v (hlive hv)
  case base_le_index => exact ht.index_eq ▸ h.base_le_index
  case base_even => exact h.base_even
  case path_mark =>
    intro v hv
    rw [ht.mark_eq_of_live hvf h (.inl hv)]
    refine h.path_mark v ?_
    rw [hpath] at hv
    rw [path_eq_cons hvf]
    exact .tail _ hv
  case vb_odd =>
    intro v hv
    rw [ht.mark_eq_of_live hvf h (.inr hv)]
    exact h.vb_odd v (hleft v hv)
  case path_sorted =>
    have hsorted := h.path_sorted
    rw [path_eq_cons hvf] at hsorted
    rw [hpath]
    exact (List.pairwise_cons.mp hsorted).2
  case vb_sorted =>
    have hsorted := h.vb_sorted
    rw [ht.vb_eq, List.pairwise_append] at hsorted
    rw [ht.vb_left, hpath]
    refine hsorted.2.1.imp fun hxy a ha => hxy a ?_
    rw [path_eq_cons hvf]
    exact .tail _ ha
  case bottom =>
    intro f hf
    rw [ht.vf_left] at hf
    exact h.bottom f (by rw [hvf, List.getLast?_cons, hf]; rfl)

theorem Takes.passed {a b : ℕ} (hp : t.Passed edges a b) : s.Passed edges a b := by
  rcases hp with ⟨ha, hb⟩ | ⟨done, rem, hf, he, hb⟩
  · rw [ht.vb_left] at ha
    exact .inl ⟨ht.vb_eq ▸ List.mem_append_right _ ha, hb⟩
  · rw [ht.vf_left] at hf
    exact .inr ⟨done, rem, by rw [hvf]; exact .tail _ hf, he, hb⟩

/-- **No edge leads from a closed component to a node that stays on a stack.** -/
theorem Takes.no_way_back (h : Edges n edges num s) (ho : Order base num s)
    (hr : s.isRoot u = true) (hv : v = u ∨ v ∈ taken) (hw : w ∈ edges v) (hlive : s.Live w) :
    w = u ∨ w ∈ taken := by
  have hu : s.Live u := ht.live_of_closed hvf (.inl rfl)
  have hmark := ho.mark_eq_of_root hvf hr
  have hpassed : s.Passed edges v w := by
    rcases hv with rfl | hv
    · exact top_passed hvf hw
    · exact .inl ⟨ht.vb_eq ▸ List.mem_append_left _ hv, hw⟩
  have hge : num u ≤ s.rindexComposite v := by
    rcases hv with rfl | hv
    · exact hmark.ge
    · exact (ht.taken_gt v hv).2
  have hlow := h.low v w hpassed hlive
  have heu := ho.even u hu
  have hew := ho.even w hlive
  rcases hlive with hpath | hvb
  · rw [path_eq_cons hvf] at hpath
    rcases List.mem_cons.mp hpath with hwu | hpath
    · exact .inl hwu
    · have := ho.lt_top hvf hpath
      omega
  · rw [ht.vb_eq, List.mem_append] at hvb
    refine .inr (hvb.resolve_right fun hleft => ?_)
    have := ht.left_lt w hleft
    omega

/-- No edge leaves the component for a node on the stacks. -/
theorem Edges.close (h : Edges n edges num s) (hm : Marks n s) (ho : Order base num s)
    (hr : s.isRoot u = true) : Edges n edges num t := by
  have hu : s.Live u := ht.live_of_closed hvf (.inl rfl)
  have hc := hm.lt_comp hu
  have hstay : ∀ {v}, 2 * n < s.rindexComposite v → ¬ (v = u ∨ v ∈ taken) := by
    intro v hva hv
    have := hm.mark_le (ht.live_of_closed hvf hv)
    omega
  constructor
  case rest_suffix =>
    intro f hf
    rw [ht.vf_left] at hf
    exact h.rest_suffix f (by rw [hvf]; exact .tail _ hf)
  case linked =>
    have hlinked := h.linked
    rw [hvf, List.isChain_cons] at hlinked
    rw [ht.vf_left]
    exact hlinked.2
  case visited =>
    intro a b hp
    by_cases hb : b = u ∨ b ∈ taken
    · rw [ht.mark_in b hb]
      omega
    · rw [ht.mark_out b hb]
      exact h.visited a b (ht.passed hvf hp)
  case low =>
    intro a b hp hb
    rw [ht.mark_eq_of_live hvf ho (hp.live)]
    exact h.low a b (ht.passed hvf hp) ((ht.live_iff hvf ho).mp hb).1
  case closed =>
    intro a ha b hb
    by_cases hat : a = u ∨ a ∈ taken
    · rw [ht.mark_in a hat]
      by_cases hbt : b = u ∨ b ∈ taken
      · rw [ht.mark_in b hbt]
      · rw [ht.mark_out b hbt]
        have hpassed : s.Passed edges a b := by
          rcases hat with rfl | hat
          · exact top_passed hvf hb
          · exact .inl ⟨ht.vb_eq ▸ List.mem_append_left _ hat, hb⟩
        rcases hm.live_or_assigned (h.visited a b hpassed) with hlive | hass
        · exact absurd (ht.no_way_back hvf h ho hr hat hb hlive) hbt
        · exact (hm.assigned b hass).1.le
    · rw [ht.mark_out a hat] at ha ⊢
      have hle := h.closed a ha b hb
      rwa [ht.mark_out b (hstay (by omega))]

/-- The marks that are left are as low as needed. -/
theorem Low.close (h : Low num s none) (ho : Order base num s) : Low num t none := by
  intro a ha x hx hax hb
  have hpath : t.path = vf.map Prod.fst := by rw [path, ht.vf_left]
  left
  rw [ht.mark_eq_of_live hvf ho (.inl ha), ht.mark_eq_of_live hvf ho (.inr hx)]
  rw [hpath] at ha hb
  rw [ht.vb_left] at hx
  refine h.none_le (by rw [path_eq_cons hvf]; exact .tail _ ha)
    (ht.vb_eq ▸ List.mem_append_right _ hx) hax fun b hb' hlt => ?_
  rw [path_eq_cons hvf] at hb'
  rcases List.mem_cons.mp hb' with rfl | hb'
  · exact ht.left_lt x hx
  · exact hb b hb' hlt

/-- With the first node of the path, everything is closed. -/
theorem Takes.vb_eq_nil (ho : Order base num s) (hnil : vf = []) : t.vb = [] := by
  subst hnil
  have hbot : num u = base := ho.bottom (u, []) (by simp [hvf])
  refine List.eq_nil_iff_forall_not_mem.mpr fun x hx => ?_
  rw [ht.vb_left] at hx
  have hlive : s.Live x := .inr (ht.vb_eq ▸ List.mem_append_right _ hx)
  have := ht.left_lt x hx
  have := ho.base_le x hlive
  have := ho.le x hlive
  omega

end Takes

end Scc

end Dsom
