import Dsom.Foundations.Follow
import Mathlib.Logic.Function.Basic

/-!
# Foundations/UnionFind — sets as trees of parents

Every element has a parent, and the root of a set is its own parent.  `findRoot` makes the root the
parent of all elements that it passes; `merge` links one root to another.

`Represents l parent R`: two elements of `l` have the same root just when they are related by `R`.
Merging pairs, starting with every element on its own, leads to the equivalence that the pairs
generate (`mergeAll_spec`).
-/

namespace Dsom

namespace UnionFind

open Follow Relation

variable {α : Type}

section Definitions

variable [DecidableEq α]

/-- The root of the set of an element, with path compression. -/
def findRoot : ℕ → (α → α) → α → Option (α × (α → α))
  | 0, _, _ => none
  | fuel + 1, parent, a =>
    if parent a = a then some (a, parent)
    else
      (findRoot fuel parent (parent a)).map fun found =>
        (found.1, Function.update found.2 a found.1)

/-- Two sets become one. -/
def merge (fuel : ℕ) (parent : α → α) (a b : α) : Option (α → α) :=
  (findRoot fuel parent a).bind fun p₁ =>
    (findRoot fuel p₁.2 b).map fun p₂ => Function.update p₂.2 p₁.1 p₂.1

/-- Pairs are merged one after the other. -/
def mergeAll (fuel : ℕ) (parent : α → α) (pairs : List (α × α)) : Option (α → α) :=
  pairs.foldlM (fun parent p => merge fuel parent p.1 p.2) parent

end Definitions

/-! ## Roots -/

/-- The parents lead from an element to a root. -/
def Root (parent : α → α) (a r : α) : Prop := ∃ m, Ends parent m a r

section Root

variable {parent : α → α} {a b r r' : α}

theorem Root.fixed (h : Root parent a r) : parent r = r := h.elim fun _ h => h.fixed

theorem Root.self (h : parent a = a) : Root parent a a := ⟨0, .stay h⟩

/-- There is one root. -/
theorem Root.unique (h : Root parent a r) (h' : Root parent a r') : r = r' := by
  obtain ⟨m, h⟩ := h
  obtain ⟨m', h'⟩ := h'
  exact h.unique h'

/-- The root of the parent is the root. -/
theorem Root.step (hne : parent a ≠ a) (h : Root parent (parent a) r) : Root parent a r :=
  h.elim fun m h => ⟨m + 1, .go hne h⟩

/-- An induction along the way to the root. -/
theorem Root.induct {motive : α → Prop} (h : Root parent a r) (stay : motive r)
    (go : ∀ a, parent a ≠ a → Root parent (parent a) r → motive (parent a) → motive a) :
    motive a := by
  obtain ⟨m, h⟩ := h
  induction h with
  | stay => exact stay
  | go hne rest ih => exact go _ hne ⟨_, rest⟩ (ih stay go)

variable [DecidableEq α]

/-- Path compression keeps roots. -/
theorem Root.compress (ha : Root parent a r) (hb : Root parent b r') :
    Root (Function.update parent a r) b r' := by
  have hstay (c : α) (hc : parent c = c) : Function.update parent a r c = c := by
    by_cases heq : c = a
    · subst heq
      rw [Function.update_self]
      exact ha.unique (Root.self hc)
    · rwa [Function.update_of_ne heq]
  refine hb.induct (motive := fun b => Root (Function.update parent a r) b r')
    (.self (hstay r' hb.fixed)) fun c hne hc ih => ?_
  by_cases heq : c = a
  · subst heq
    obtain rfl := ha.unique (hc.step hne)
    have hr : r ≠ c := fun heq => hne (heq ▸ ha.fixed)
    refine .step (by rwa [Function.update_self]) ?_
    rw [Function.update_self]
    exact .self (hstay r ha.fixed)
  · have hupdate : Function.update parent a r c = parent c := Function.update_of_ne heq _ _
    exact .step (hupdate ▸ hne) (hupdate ▸ ih)

/-- A root is linked to another: what had the one root now has the other. -/
theorem Root.link {p₁ p₂ : α} (h₁ : parent p₁ = p₁) (h₂ : parent p₂ = p₂)
    (h : Root parent a r) :
    Root (Function.update parent p₁ p₂) a (if r = p₁ then p₂ else r) := by
  have hstay (c : α) (hc : parent c = c) (hne : c ≠ p₁ ∨ c = p₂) :
      Function.update parent p₁ p₂ c = c := by
    by_cases heq : c = p₁
    · rw [heq, Function.update_self]
      exact ((heq ▸ hne).resolve_left (· rfl)).symm
    · rwa [Function.update_of_ne heq]
  refine h.induct (motive := fun a =>
    Root (Function.update parent p₁ p₂) a (if r = p₁ then p₂ else r)) ?_ fun c hne _ ih => ?_
  · have hp₂ := hstay p₂ h₂ (.inr rfl)
    split_ifs with heq
    · subst heq
      by_cases hsame : p₂ = r
      · subst hsame
        exact .self hp₂
      · refine .step (by rwa [Function.update_self]) ?_
        rw [Function.update_self]
        exact .self hp₂
    · exact .self (hstay r h.fixed (.inl heq))
  · have hupdate : Function.update parent p₁ p₂ c = parent c :=
      Function.update_of_ne (by rintro rfl; exact hne h₁) _ _
    exact .step (hupdate ▸ hne) (hupdate ▸ ih)

end Root

/-! ## The sets

Two elements are related exactly if their roots are the same. -/

/-- The elements of a list are kept in trees, and two of them are in the same tree just when they
are related. -/
structure Represents (l : List α) (parent : α → α) (R : α → α → Prop) : Prop where
  maps : ∀ a ∈ l, parent a ∈ l
  root : ∀ a ∈ l, ∃ r, Root parent a r
  same : ∀ a ∈ l, ∀ b ∈ l, (∃ r, Root parent a r ∧ Root parent b r) ↔ R a b

section Represents

variable {l : List α} {parent : α → α} {R R' : α → α → Prop} {a b r r' : α}

/-- Every element on its own. -/
theorem Represents.singletons (l : List α) :
    Represents l (fun a => a) (EqvGen fun _ _ => False) where
  maps _ ha := ha
  root a _ := ⟨a, .self rfl⟩
  same a ha b hb := by
    clear ha hb
    constructor
    · rintro ⟨r, ha, hb⟩
      obtain rfl := ha.unique (.self rfl)
      obtain rfl := hb.unique (.self rfl)
      exact .refl _
    · intro h
      have heq : a = b := by
        induction h with
        | rel _ _ h => exact h.elim
        | refl => rfl
        | symm _ _ _ ih => exact ih.symm
        | trans _ _ _ _ _ ih ih' => exact ih.trans ih'
      exact ⟨a, .self rfl, heq ▸ .self rfl⟩

/-- Only what is related in the list matters. -/
theorem Represents.congr (h : Represents l parent R)
    (hR : ∀ a ∈ l, ∀ b ∈ l, R a b ↔ R' a b) : Represents l parent R' where
  maps := h.maps
  root := h.root
  same a ha b hb := (h.same a ha b hb).trans (hR a ha b hb)

/-- Elements with known roots are related just when the roots are the same. -/
theorem Represents.related_iff (h : Represents l parent R) (ha : a ∈ l) (hb : b ∈ l)
    (har : Root parent a r) (hbr : Root parent b r') : R a b ↔ r = r' := by
  rw [← h.same a ha b hb]
  constructor
  · rintro ⟨s, has, hbs⟩
    exact (har.unique has).trans (hbr.unique hbs).symm
  · rintro rfl
    exact ⟨r, har, hbr⟩

/-- Roots are in the list. -/
theorem Represents.root_mem (h : Represents l parent R) (ha : a ∈ l) (hr : Root parent a r) :
    r ∈ l := hr.elim fun _ hends => hends.mem h.maps ha

/-- New parents that keep the roots. -/
theorem Represents.of_roots {parent' : α → α} (h : Represents l parent R)
    (hmaps : ∀ a ∈ l, parent' a ∈ l)
    (hroot : ∀ a ∈ l, ∀ r, Root parent a r → Root parent' a r) : Represents l parent' R where
  maps := hmaps
  root a ha := (h.root a ha).imp fun r hr => hroot a ha r hr
  same a ha b hb := by
    obtain ⟨r, har⟩ := h.root a ha
    obtain ⟨s, hbs⟩ := h.root b hb
    rw [h.related_iff ha hb har hbs]
    constructor
    · rintro ⟨t, hat, hbt⟩
      exact ((hroot a ha r har).unique hat).trans ((hroot b hb s hbs).unique hbt).symm
    · rintro rfl
      exact ⟨r, hroot a ha r har, hroot b hb r hbs⟩

/-- Enough fuel for every element. -/
theorem Represents.exists_ends (h : Represents l parent R) (ha : a ∈ l) :
    ∃ m r, Ends parent m a r ∧ m < l.length := by
  obtain ⟨r, m, hends⟩ := h.root a ha
  exact ⟨m, r, hends, hends.lt_length h.maps ha⟩

/-- The relation in which the sets of two elements became one. -/
def Joined (R : α → α → Prop) (a b x y : α) : Prop := R x y ∨ R x a ∧ R b y ∨ R x b ∧ R a y

/-- Joining the sets of two elements adds a pair to what generates an equivalence. -/
theorem joined_eqvGen {S : α → α → Prop} {x y : α} :
    Joined (EqvGen S) a b x y ↔ EqvGen (fun x y => S x y ∨ (x, y) = (a, b)) x y := by
  have hmono (x y : α) (h : EqvGen S x y) : EqvGen (fun x y => S x y ∨ (x, y) = (a, b)) x y :=
    h.mono fun _ _ => .inl
  have hab : EqvGen (fun x y => S x y ∨ (x, y) = (a, b)) a b := .rel _ _ (.inr rfl)
  constructor
  · rintro (h | ⟨hxa, hby⟩ | ⟨hxb, hay⟩)
    · exact hmono x y h
    · exact (hmono x a hxa).trans _ _ _ (hab.trans _ _ _ (hmono b y hby))
    · exact (hmono x b hxb).trans _ _ _ (hab.symm.trans _ _ _ (hmono a y hay))
  · intro h
    induction h with
    | rel x y h =>
      rcases h with h | h
      · exact .inl (.rel x y h)
      · obtain ⟨rfl, rfl⟩ := Prod.ext_iff.mp h
        exact .inr (.inl ⟨.refl _, .refl _⟩)
    | refl x => exact .inl (.refl x)
    | symm x y _ ih =>
      rcases ih with h | ⟨hxa, hby⟩ | ⟨hxb, hay⟩
      · exact .inl h.symm
      · exact .inr (.inr ⟨hby.symm, hxa.symm⟩)
      · exact .inr (.inl ⟨hay.symm, hxb.symm⟩)
    | trans x y z _ _ ih ih' =>
      rcases ih with h | ⟨hxa, hby⟩ | ⟨hxb, hay⟩ <;> rcases ih' with h' | ⟨hya, hbz⟩ | ⟨hyb, haz⟩
      · exact .inl (h.trans _ _ _ h')
      · exact .inr (.inl ⟨h.trans _ _ _ hya, hbz⟩)
      · exact .inr (.inr ⟨h.trans _ _ _ hyb, haz⟩)
      · exact .inr (.inl ⟨hxa, hby.trans _ _ _ h'⟩)
      · exact .inr (.inl ⟨hxa, hbz⟩)
      · exact .inl (hxa.trans _ _ _ haz)
      · exact .inr (.inr ⟨hxb, hay.trans _ _ _ h'⟩)
      · exact .inl (hxb.trans _ _ _ hbz)
      · exact .inr (.inr ⟨hxb, haz⟩)

variable [DecidableEq α]

/-- Moving a parent to the root changes no set. -/
theorem Represents.compress (h : Represents l parent R) (ha : a ∈ l) (hr : Root parent a r) :
    Represents l (Function.update parent a r) R := by
  refine h.of_roots (fun b hb => ?_) fun b _ r' hb => hr.compress hb
  by_cases heq : b = a
  · rw [heq, Function.update_self]
    exact h.root_mem ha hr
  · rw [Function.update_of_ne heq]
    exact h.maps b hb

/-- **`findRoot`** finds the root and keeps the sets. -/
theorem findRoot_spec {m fuel : ℕ} (h : Represents l parent R) (ha : a ∈ l)
    (hends : Ends parent m a r) (hfuel : m < fuel) :
    ∃ parent', findRoot fuel parent a = some (r, parent') ∧ Represents l parent' R ∧
      ∀ b r', Root parent b r' → Root parent' b r' := by
  induction hends generalizing fuel with
  | @stay a hstay =>
    obtain ⟨fuel, rfl⟩ := Nat.exists_eq_add_of_lt hfuel
    refine ⟨parent, ?_, h, fun _ _ hb => hb⟩
    rw [Nat.zero_add, findRoot, if_pos hstay]
  | @go m a r hne rest ih =>
    obtain ⟨fuel, rfl⟩ : ∃ k, fuel = k + 1 := ⟨fuel - 1, by omega⟩
    obtain ⟨parent', hfind, h', hroots⟩ := ih (h.maps a ha) (Nat.lt_of_succ_lt_succ hfuel)
    have hr : Root parent' a r := hroots a r ⟨m + 1, .go hne rest⟩
    refine ⟨Function.update parent' a r, ?_, h'.compress ha hr, fun b r' hb =>
      hr.compress (hroots b r' hb)⟩
    rw [findRoot, if_neg hne, hfind, Option.map_some]

/-- **`merge`** joins the sets of two elements. -/
theorem merge_spec {fuel : ℕ} (h : Represents l parent R) (ha : a ∈ l) (hb : b ∈ l)
    (hfuel : l.length ≤ fuel) :
    ∃ parent', merge fuel parent a b = some parent' ∧ Represents l parent' (Joined R a b) := by
  obtain ⟨m, p₁, hends, hm⟩ := h.exists_ends ha
  obtain ⟨parent₁, hfind₁, h₁, hroots₁⟩ := findRoot_spec h ha hends (Nat.lt_of_lt_of_le hm hfuel)
  obtain ⟨m', p₂, hends', hm'⟩ := h₁.exists_ends hb
  obtain ⟨parent₂, hfind₂, h₂, hroots₂⟩ := findRoot_spec h₁ hb hends' (Nat.lt_of_lt_of_le hm' hfuel)
  have hap : Root parent₂ a p₁ := hroots₂ a p₁ (hroots₁ a p₁ ⟨m, hends⟩)
  have hbp : Root parent₂ b p₂ := hroots₂ b p₂ ⟨m', hends'⟩
  have hlink (x r : α) (hr : Root parent₂ x r) := hr.link hap.fixed hbp.fixed
  refine ⟨Function.update parent₂ p₁ p₂, ?_, fun x hx => ?_, fun x hx => ?_, fun x hx y hy => ?_⟩
  · rw [merge, hfind₁, Option.bind_some, hfind₂, Option.map_some]
  · by_cases heq : x = p₁
    · rw [heq, Function.update_self]
      exact h₂.root_mem hb hbp
    · rw [Function.update_of_ne heq]
      exact h₂.maps x hx
  · obtain ⟨r, hr⟩ := h₂.root x hx
    exact ⟨_, hlink x r hr⟩
  · obtain ⟨r, hr⟩ := h₂.root x hx
    obtain ⟨s, hs⟩ := h₂.root y hy
    rw [Joined, h₂.related_iff hx hy hr hs, h₂.related_iff hx ha hr hap,
      h₂.related_iff hb hy hbp hs, h₂.related_iff hx hb hr hbp, h₂.related_iff ha hy hap hs]
    have hiff : (∃ t, Root (Function.update parent₂ p₁ p₂) x t ∧
        Root (Function.update parent₂ p₁ p₂) y t) ↔
        (if r = p₁ then p₂ else r) = if s = p₁ then p₂ else s := by
      constructor
      · rintro ⟨t, hxt, hyt⟩
        exact ((hlink x r hr).unique hxt).trans ((hlink y s hs).unique hyt).symm
      · intro heq
        exact ⟨_, hlink x r hr, heq ▸ hlink y s hs⟩
    rw [hiff]
    grind

/-- Pairs are merged on top of an equivalence. -/
theorem mergeAll_spec {S : α → α → Prop} {fuel : ℕ} {pairs : List (α × α)}
    (h : Represents l parent (EqvGen S)) (hpairs : ∀ p ∈ pairs, p.1 ∈ l ∧ p.2 ∈ l)
    (hfuel : l.length ≤ fuel) :
    ∃ parent', mergeAll fuel parent pairs = some parent' ∧
      Represents l parent' (EqvGen fun x y => S x y ∨ (x, y) ∈ pairs) := by
  induction pairs generalizing parent S with
  | nil => exact ⟨parent, rfl, by simpa using h⟩
  | cons p pairs ih =>
    obtain ⟨hp, hrest⟩ := List.forall_mem_cons.mp hpairs
    obtain ⟨parent₁, hmerge, h₁⟩ := merge_spec h hp.1 hp.2 hfuel
    obtain ⟨parent₂, hall, h₂⟩ := ih (h₁.congr fun _ _ _ _ => joined_eqvGen) hrest
    refine ⟨parent₂, ?_, ?_⟩
    · rw [mergeAll, List.foldlM_cons, hmerge]
      exact hall
    · simpa only [List.mem_cons, or_assoc] using h₂

end Represents

end UnionFind

end Dsom
