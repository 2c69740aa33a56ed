import Mathlib.Data.List.Basic
import Mathlib.Data.List.Nodup
import Mathlib.Logic.Function.Basic
import Mathlib.Tactic.Common

/-!
# Foundations/Ring — circular doubly-linked lists as two pointer maps

A family of rings is given by its `next` and `prev` maps.  `Path next prev a l b` says that
following `next` from `a` visits `l` and arrives at `b`, with `prev` leading back.  A ring with head
`h` and members `l` is a path from `h` to itself; a node outside every ring points to itself.

`unlink` takes a node out of its ring, `linkAfter` puts a node behind a head.  Both touch a handful
of pointers, and `Path.congr` carries every other ring over.
-/

namespace Ring

variable {N : Type*}

/-- `next` leads from `a` through `l` to `b`, and `prev` leads back. -/
def Path (next prev : N → N) : N → List N → N → Prop
  | a, [], b => next a = b ∧ prev b = a
  | a, x :: l, b => next a = x ∧ prev x = a ∧ Path next prev x l b

/-- A path only depends on the pointers of its own nodes. -/
theorem Path.congr {next prev next' prev' : N → N} :
    ∀ {l : List N} {a b : N}, Path next prev a l b →
      (∀ x, x = a ∨ x ∈ l → next' x = next x) → (∀ x, x ∈ l ∨ x = b → prev' x = prev x) →
      Path next' prev' a l b
  | [], a, b, h, hn, hp =>
    ⟨(hn a (Or.inl rfl)).trans h.1, (hp b (Or.inr rfl)).trans h.2⟩
  | x :: l, a, b, h, hn, hp =>
    ⟨(hn a (Or.inl rfl)).trans h.1, (hp x (by simp)).trans h.2.1,
      h.2.2.congr (fun y hy => hn y (by simp only [List.mem_cons]; tauto))
        fun y hy => hp y (by simp only [List.mem_cons]; tauto)⟩

/-- A path through an element is two paths. -/
theorem Path.append {next prev : N → N} :
    ∀ {l : List N} {a x b : N} {l' : List N}, Path next prev a (l ++ x :: l') b →
      Path next prev a l x ∧ Path next prev x l' b
  | [], _, _, _, _, h => ⟨⟨h.1, h.2.1⟩, h.2.2⟩
  | _ :: _, _, _, _, _, h => ⟨⟨h.1, h.2.1, (h.2.2.append).1⟩, (h.2.2.append).2⟩

/-- One path after another. -/
theorem Path.trans {next prev : N → N} :
    ∀ {l : List N} {a x b : N} {l' : List N}, Path next prev a l x → Path next prev x l' b →
      Path next prev a (l ++ x :: l') b
  | [], _, _, _, _, h, h' => ⟨h.1, h.2, h'⟩
  | _ :: _, _, _, _, _, h, h' => ⟨h.1, h.2.1, h.2.2.trans h'⟩

/-- The predecessor of the end of a path is on it. -/
theorem Path.prev_mem {next prev : N → N} : ∀ {l : List N} {a b : N}, Path next prev a l b →
    prev b ∈ a :: l
  | [], _, _, h => by simp [h.2]
  | x :: l, _, _, h => List.mem_cons_of_mem _ h.2.2.prev_mem

/-- Redirecting the last pointer of a path to another end. -/
theorem Path.redirect {next prev next' prev' : N → N} {y : N} :
    ∀ {l : List N} {a b : N}, Path next prev a l b → (a :: l).Nodup →
      (∀ u ∈ a :: l, u ≠ prev b → next' u = next u) → next' (prev b) = y →
      (∀ u ∈ l, prev' u = prev u) → prev' y = prev b → Path next' prev' a l y
  | [], a, b, h, _, _, hy, _, hpy => by
    rw [h.2] at hy hpy
    exact ⟨hy, hpy⟩
  | x :: l, a, b, h, hnd, hn, hy, hp, hpy => by
    obtain ⟨hax, hnd'⟩ := List.nodup_cons.mp hnd
    have hab : a ≠ prev b := fun hab => hax (hab ▸ h.2.2.prev_mem)
    exact ⟨(hn a (by simp) hab).trans h.1, (hp x (by simp)).trans h.2.1,
      h.2.2.redirect hnd' (fun u hu => hn u (List.mem_cons_of_mem _ hu)) hy
        (fun u hu => hp u (List.mem_cons_of_mem _ hu)) hpy⟩

section Moves

variable [DecidableEq N]

/-- The pointer maps after `prev->SetNext(next); next->SetPrev(prev)` around `x`. -/
def unlinkNext (next prev : N → N) (x : N) : N → N := Function.update next (prev x) (next x)

/-- The backward pointers once `x` is taken out. -/
def unlinkPrev (next prev : N → N) (x : N) : N → N := Function.update prev (next x) (prev x)

/-- The pointer maps after inserting `x` between `h` and its successor. -/
def linkNext (next : N → N) (h x : N) : N → N :=
  Function.update (Function.update next h x) x (next h)

/-- The backward pointers once `x` is put behind `h`. -/
def linkPrev (next prev : N → N) (h x : N) : N → N :=
  Function.update (Function.update prev (next h) x) x h

/-- **Taking a member out of a ring.** -/
theorem Path.unlink {next prev : N → N} {h x : N} {l l' : List N}
    (hr : Path next prev h (l ++ x :: l') h) (hnd : (h :: (l ++ x :: l')).Nodup) :
    Path (unlinkNext next prev x) (unlinkPrev next prev x) h (l ++ l') h := by
  obtain ⟨h1, h2⟩ := hr.append
  have hp := h1.prev_mem
  rw [← List.cons_append, List.nodup_append] at hnd
  obtain ⟨hndl, hndx, hdis⟩ := hnd
  obtain ⟨hx, hndl'⟩ := List.nodup_cons.mp hndx
  have hnext : ∀ u, u ≠ prev x → unlinkNext next prev x u = next u := fun u hu =>
    Function.update_of_ne hu _ _
  have hprev : ∀ u, u ≠ next x → unlinkPrev next prev x u = prev u := fun u hu =>
    Function.update_of_ne hu _ _
  have hnext' : unlinkNext next prev x (prev x) = next x := Function.update_self _ _ _
  have hprev' : unlinkPrev next prev x (next x) = prev x := Function.update_self _ _ _
  cases l' with
  | nil =>
    obtain ⟨hnx, -⟩ := h2
    rw [List.append_nil]
    refine h1.redirect hndl (fun u _ hu => hnext u hu) (hnext'.trans hnx) (fun u hu => hprev u ?_)
      (hnx ▸ hprev')
    rw [hnx]
    exact fun hu' => (List.nodup_cons.mp hndl).1 (hu' ▸ hu)
  | cons y l' =>
    obtain ⟨hnx, -, h3⟩ := h2
    obtain ⟨hy, hndl''⟩ := List.nodup_cons.mp hndl'
    refine Path.trans (h1.redirect hndl (fun u _ hu => hnext u hu) (hnext'.trans hnx)
      (fun u hu => hprev u ?_) (hnx ▸ hprev')) (h3.congr (fun u hu => hnext u ?_)
        fun u hu => hprev u ?_)
    · rw [hnx]
      exact hdis u (List.mem_cons_of_mem _ hu) y (by simp)
    · have : u ∈ x :: y :: l' := by rcases hu with rfl | hu <;> simp [*]
      exact fun hu' => hdis _ hp u this hu'.symm
    · rw [hnx]
      rcases hu with hu | rfl
      · exact fun hu' => hy (hu' ▸ hu)
      · exact hdis u (by simp) y (by simp)

/-- **Putting a fresh node behind the head of a ring.** -/
theorem Path.linkAfter {next prev : N → N} {h x : N} {l : List N} (hr : Path next prev h l h)
    (hnd : (x :: h :: l).Nodup) :
    Path (linkNext next h x) (linkPrev next prev h x) h (x :: l) h := by
  obtain ⟨hx, hndl⟩ := List.nodup_cons.mp hnd
  obtain ⟨hxh, hxl⟩ := not_or.mp (List.mem_cons.not.mp hx)
  obtain ⟨hhl, hndl'⟩ := List.nodup_cons.mp hndl
  have hnx : linkNext next h x x = next h := Function.update_self _ _ _
  have hpx : linkPrev next prev h x x = h := Function.update_self _ _ _
  have hn : ∀ u, u ≠ x → u ≠ h → linkNext next h x u = next u := fun u hux huh => by
    rw [linkNext, Function.update_of_ne hux, Function.update_of_ne huh]
  have hp : ∀ u, u ≠ x → u ≠ next h → linkPrev next prev h x u = prev u := fun u hux huh => by
    rw [linkPrev, Function.update_of_ne hux, Function.update_of_ne huh]
  refine ⟨?_, hpx, ?_⟩
  · rw [linkNext, Function.update_of_ne (Ne.symm hxh), Function.update_self]
  · cases l with
    | nil =>
      refine ⟨hnx.trans hr.1, ?_⟩
      rw [linkPrev, Function.update_of_ne (Ne.symm hxh), hr.1, Function.update_self]
    | cons y l =>
      obtain ⟨hny, -, hrest⟩ := hr
      have hyx : y ≠ x := fun hyx => hxl (by simp [hyx])
      obtain ⟨hyl, -⟩ := List.nodup_cons.mp hndl'
      refine ⟨hnx.trans hny, ?_, hrest.congr (fun u hu => hn u ?_ ?_) fun u hu => hp u ?_ ?_⟩
      · rw [linkPrev, Function.update_of_ne hyx, hny, Function.update_self]
      · rintro rfl
        exact hxl (List.mem_cons.mpr hu)
      · rintro rfl
        exact hhl (List.mem_cons.mpr hu)
      · rintro rfl
        rcases hu with hu | rfl
        · exact hxl (List.mem_cons_of_mem _ hu)
        · exact hxh rfl
      · rw [hny]
        rintro rfl
        rcases hu with hu | rfl
        · exact hyl hu
        · exact hhl (by simp)

end Moves

/-! ## A family of disjoint rings

Each ring has a head of its own, and no element is on two of them. -/

section Family

variable {J : Type*}

/-- **Disjoint rings**: for every index a ring with its head and its members. -/
structure Rings (head : J → N) (L : J → List N) (next prev : N → N) : Prop where
  ring : ∀ j, Path next prev (head j) (L j) (head j)
  nodup : ∀ j, (head j :: L j).Nodup
  disj : ∀ {i j x}, x ∈ head i :: L i → x ∈ head j :: L j → i = j

/-- The rings only depend on the pointers of their own nodes. -/
theorem Rings.congr {head : J → N} {L : J → List N} {next prev next' prev' : N → N}
    (h : Rings head L next prev) (hn : ∀ j x, x ∈ head j :: L j → next' x = next x)
    (hp : ∀ j x, x ∈ head j :: L j → prev' x = prev x) : Rings head L next' prev' where
  ring j := (h.ring j).congr (fun x hx => hn j x (List.mem_cons.mpr hx)) fun x hx =>
    hp j x (List.mem_cons.mpr hx.symm)
  nodup := h.nodup
  disj := h.disj

/-- Moves that touch only one ring keep the others. -/
theorem Rings.of_frame [DecidableEq J] {head : J → N} {L : J → List N}
    {next prev next' prev' : N → N} (h : Rings head L next prev) {j : J} {l : List N}
    (hl : Path next' prev' (head j) l (head j)) (hnd : (head j :: l).Nodup)
    (hfresh : ∀ x ∈ l, ∀ i, i ≠ j → x ∉ head i :: L i)
    (hn : ∀ i x, i ≠ j → x ∈ head i :: L i → next' x = next x)
    (hp : ∀ i x, i ≠ j → x ∈ head i :: L i → prev' x = prev x) :
    Rings head (Function.update L j l) next' prev' where
  ring i := by
    by_cases hij : i = j
    · subst hij
      rw [Function.update_self]
      exact hl
    · rw [Function.update_of_ne hij]
      refine (h.ring i).congr (fun x hx => hn i x hij (List.mem_cons.mpr hx)) fun x hx =>
        hp i x hij ?_
      exact List.mem_cons.mpr hx.symm
  nodup i := by
    by_cases hij : i = j
    · subst hij
      rwa [Function.update_self]
    · rw [Function.update_of_ne hij]
      exact h.nodup i
  disj {i i' x} hi hi' := by
    have key : ∀ {i₁ i₂}, i₁ = j → i₂ ≠ j → x ∈ head i₁ :: Function.update L j l i₁ →
        x ∉ head i₂ :: L i₂ := by
      rintro i₁ i₂ rfl hne hx₁ hx₂
      rw [Function.update_self] at hx₁
      rcases List.mem_cons.mp hx₁ with rfl | hx₁
      · exact hne (h.disj hx₂ (by simp))
      · exact hfresh x hx₁ i₂ hne hx₂
    by_cases hij : i = j <;> by_cases hij' : i' = j
    · exact hij.trans hij'.symm
    · exact absurd (by rwa [Function.update_of_ne hij'] at hi') (key hij hij' hi)
    · exact absurd (by rwa [Function.update_of_ne hij] at hi) (key hij' hij hi')
    · rw [Function.update_of_ne hij] at hi
      rw [Function.update_of_ne hij'] at hi'
      exact h.disj hi hi'

/-- The neighbours of a member are on its ring. -/
theorem Rings.neighbours_mem {head : J → N} {L : J → List N} {next prev : N → N}
    (h : Rings head L next prev) {j : J} {x : N} (hx : x ∈ L j) :
    next x ∈ head j :: L j ∧ prev x ∈ head j :: L j := by
  obtain ⟨l, l', hL⟩ := List.append_of_mem hx
  have hr := h.ring j
  rw [hL] at hr
  obtain ⟨h1, h2⟩ := hr.append
  rw [hL]
  refine ⟨?_, ?_⟩
  · cases l' with
    | nil => simp [h2.1]
    | cons y l' => simp [h2.1]
  · have := h1.prev_mem
    simp only [List.mem_cons, List.mem_append] at this ⊢
    tauto

/-- The successor of a head is on its ring. -/
theorem Rings.next_head_mem {head : J → N} {L : J → List N} {next prev : N → N}
    (h : Rings head L next prev) (j : J) :
    next (head j) ∈ head j :: L j := by
  have hr := h.ring j
  cases hL : L j with
  | nil => rw [hL] at hr; simp [hr.1]
  | cons y l => rw [hL] at hr; simp [hr.1]

variable [DecidableEq N] [DecidableEq J] {head : J → N} {L : J → List N} {next prev : N → N}

/-- Taking an element out of its ring. -/
theorem Rings.unlink (h : Rings head L next prev) {j : J} {x : N} {l l' : List N}
    (hL : L j = l ++ x :: l') :
    Rings head (Function.update L j (l ++ l')) (unlinkNext next prev x)
      (unlinkPrev next prev x) := by
  have hr := h.ring j
  have hnd := h.nodup j
  rw [hL] at hr hnd
  obtain ⟨hnm, hpm⟩ := h.neighbours_mem (j := j) (x := x) (by simp [hL])
  have hsub : ∀ y ∈ l ++ l', y ∈ head j :: L j := fun y hy => by
    rw [hL]
    simp only [List.mem_cons, List.mem_append] at hy ⊢
    tauto
  refine h.of_frame (hr.unlink hnd) ?_ (fun y hy i hij hi => hij (h.disj hi (hsub y hy)))
    (fun i y hij hy => Function.update_of_ne ?_ _ _) fun i y hij hy => Function.update_of_ne ?_ _ _
  · exact hnd.sublist ((List.append_sublist_append_left l).mpr (List.sublist_cons_self x l')
      |>.cons_cons _)
  · rintro rfl
    exact hij (h.disj hy hpm)
  · rintro rfl
    exact hij (h.disj hy hnm)

/-- Putting a new element behind the head of a ring. -/
theorem Rings.linkAfter (h : Rings head L next prev) (j : J) {x : N}
    (hx : ∀ i, x ∉ head i :: L i) :
    Rings head (Function.update L j (x :: L j)) (linkNext next (head j) x)
      (linkPrev next prev (head j) x) := by
  have hnd : (x :: head j :: L j).Nodup := List.nodup_cons.mpr ⟨hx j, h.nodup j⟩
  have hnm := h.next_head_mem j
  refine h.of_frame ((h.ring j).linkAfter hnd) (by
      rw [List.nodup_cons] at hnd ⊢
      refine ⟨?_, List.nodup_cons.mpr ⟨fun hm => hnd.1 (List.mem_cons_of_mem _ hm),
        (List.nodup_cons.mp hnd.2).2⟩⟩
      rw [List.mem_cons, not_or]
      exact ⟨fun hm => hnd.1 (by simp [hm]), (List.nodup_cons.mp hnd.2).1⟩)
    (fun y hy i hij hi => ?_) (fun i y hij hy => ?_) fun i y hij hy => ?_
  · rcases List.mem_cons.mp hy with rfl | hy
    · exact hx i hi
    · exact hij (h.disj hi (List.mem_cons_of_mem _ hy))
  · have hyx : y ≠ x := fun hyx => hx i (hyx ▸ hy)
    have hyj : y ≠ head j := fun hyj => hij (h.disj hy (by simp [hyj]))
    rw [linkNext, Function.update_of_ne hyx, Function.update_of_ne hyj]
  · have hyx : y ≠ x := fun hyx => hx i (hyx ▸ hy)
    have hyn : y ≠ next (head j) := fun hyn => hij (h.disj hy (hyn ▸ hnm))
    rw [linkPrev, Function.update_of_ne hyx, Function.update_of_ne hyn]

end Family

end Ring
