import Dsom.Foundations.BitMask
import Mathlib.Data.Set.Card

/-!
# Typemask/Closure — `MakeClosure`

The items of an over-approximation automaton, closed under bitwise-and.  A new mask takes the value
of the first of the two items it is the intersection of.  Since the items are in increasing order,
that value belongs to a *minimal* item among those that cover the new mask (`IsBest`): the invariant
(`Origin`) is that an item of value `a` is `a &&& w` for some `w`, and that `l &&& w` stands before
it for every item `l` strictly inside `a`.
-/

namespace Dsom

namespace Typemask

open BitMask

/-- `ItemTy`. -/
structure Item (N : ℕ) where
  mask : BitVec N
  value : BitVec 16
  deriving DecidableEq, Inhabited

/-- The two limits of the generator. -/
inductive GenerateError where
  | closureTooLarge
  | dfaTooLarge
  deriving DecidableEq

variable {N : ℕ}

/-- `std::sort` of items with distinct masks. -/
def sortItems (r : List (Item N)) : List (Item N) :=
  r.insertionSort fun a b => a.mask.toNat ≤ b.mask.toNat

/-- The intersection of two items is added if its mask is new. -/
def addIntersection (r : List (Item N)) (i : ℕ) (newItems : List (Item N)) (j : ℕ) :
    List (Item N) :=
  let mask := (r.getD i default).mask &&& (r.getD j default).mask
  if mask ∈ (r ++ newItems).map Item.mask then newItems
  else newItems ++ [{ mask, value := (r.getD i default).value }]

/-- One pass over the pairs of items, without those of the first `lastN`. -/
def newItems (lastN : ℕ) (r : List (Item N)) : List (Item N) :=
  (List.range r.length).foldl (fun newItems i =>
    let jstart := if i < lastN then lastN else 0
    (List.range' jstart (r.length - jstart)).foldl (addIntersection r i) newItems) []

/-- The loop to the fixpoint. -/
def closureLoop : ℕ → ℕ → List (Item N) → Except GenerateError (List (Item N))
  | 0, _, _ => .error .closureTooLarge
  | fuel + 1, lastN, r =>
      if 500 < r.length then .error .closureTooLarge
      else
        if newItems lastN r = [] then .ok r
        else closureLoop fuel r.length (r ++ newItems lastN r)

/-- `MakeClosure`.  Each pass adds an item, so the limit stops the loop within 502 passes. -/
def makeClosure (items : List (Item N)) : Except GenerateError (List (Item N)) :=
  (closureLoop 502 0 (sortItems items)).map sortItems

/-! ## What the closure is for

Among the items that cover a query there is then a least one. -/

/-- The intersection closure of the masks of a list of items. -/
inductive InClosure (items : List (Item N)) : BitVec N → Prop
  | item {a : Item N} : a ∈ items → InClosure items a.mask
  | and {a b : BitVec N} : InClosure items a → InClosure items b → InClosure items (a &&& b)

/-- `a` covers `x`, and no item that covers `x` lies strictly inside `a`. -/
structure IsBest (items : List (Item N)) (x : BitVec N) (a : Item N) : Prop where
  mem : a ∈ items
  covers : Covers a.mask x
  minimal : ∀ l ∈ items, Covers l.mask x → Covers a.mask l.mask → l.mask = a.mask

/-- Where an item at position `p` of the list comes from. -/
def Origin (items acc : List (Item N)) (p : ℕ) (e : Item N) : Prop :=
  ∃ a ∈ items, a.value = e.value ∧ ∃ w, e.mask = a.mask &&& w ∧
    ∀ l ∈ items, Covers a.mask l.mask → l.mask ≠ a.mask →
      ∃ q < p, ∃ e', acc[q]? = some e' ∧ e'.mask = l.mask &&& w

/-- The invariant of the loop. -/
structure ClosureInv (items acc : List (Item N)) : Prop where
  nodup : (acc.map Item.mask).Nodup
  origin : ∀ (p : ℕ) e, acc[p]? = some e → Origin items acc p e
  inClosure : ∀ e ∈ acc, InClosure items e.mask
  items_mem : ∀ a ∈ items, a ∈ acc

variable {items acc r : List (Item N)}

/-- **The value of a closed item is a best choice for its mask.** -/
theorem ClosureInv.exists_isBest (h : ClosureInv items acc) {e : Item N} (he : e ∈ acc) :
    ∃ a, a.value = e.value ∧ IsBest items e.mask a := by
  obtain ⟨p, hp⟩ := List.mem_iff_getElem?.mp he
  obtain ⟨a, ha, hv, w, hw, hl⟩ := h.origin p e hp
  refine ⟨a, hv, ha, ?_, fun l hlm hle hal => ?_⟩
  · rw [hw]
    exact (covers_and.mp (Covers.refl _)).1
  · by_contra hne
    obtain ⟨q, hqp, e', he', hmask⟩ := hl l hlm hal hne
    -- then `l &&& w` is the mask of `e` again, at an earlier position
    have hew : Covers w e.mask := by rw [hw]; exact (covers_and.mp (Covers.refl _)).2
    have hsame : e'.mask = e.mask := by
      rw [hmask]
      refine Covers.antisymm (covers_and.mpr ⟨hle, hew⟩) ?_
      rw [hw]
      refine covers_and.mpr ⟨hal.trans ?_, ?_⟩
      · exact (covers_and.mp (Covers.refl _)).1
      · exact (covers_and.mp (Covers.refl _)).2
    have hq : (acc.map Item.mask)[q]? = some e.mask := by rw [List.getElem?_map, he', ← hsame]; rfl
    have hp' : (acc.map Item.mask)[p]? = some e.mask := by rw [List.getElem?_map, hp]; rfl
    have := (List.nodup_iff_getElem?_ne_getElem?.mp h.nodup) q p hqp (by
      obtain ⟨hlt, -⟩ := List.getElem?_eq_some_iff.mp hp'
      exact hlt)
    exact this (hq.trans hp'.symm)

/-- Adding an item at the end. -/
theorem ClosureInv.append (h : ClosureInv items acc) {e : Item N}
    (hnew : e.mask ∉ acc.map Item.mask) (hor : Origin items acc acc.length e)
    (hin : InClosure items e.mask) : ClosureInv items (acc ++ [e]) := by
  refine ⟨?_, fun p e' hp => ?_, fun e' he' => ?_, fun a ha => ?_⟩
  · rw [List.map_append, List.nodup_append]
    refine ⟨h.nodup, List.nodup_singleton _, fun m hm m' hm' hmm => hnew ?_⟩
    rw [List.map_singleton, List.mem_singleton] at hm'
    rwa [← hm', ← hmm]
  · -- what stood before an item still stands before it
    have hgrow : ∀ q e'', acc[q]? = some e'' → (acc ++ [e])[q]? = some e'' := fun q e'' hq => by
      obtain ⟨hlt, -⟩ := List.getElem?_eq_some_iff.mp hq
      rw [List.getElem?_append_left hlt, hq]
    have hold : Origin items acc p e' := by
      by_cases hlt : p < acc.length
      · exact h.origin p e' (by rwa [List.getElem?_append_left hlt] at hp)
      · obtain ⟨hlt', -⟩ := List.getElem?_eq_some_iff.mp hp
        rw [List.length_append, List.length_singleton] at hlt'
        obtain rfl : p = acc.length := by omega
        simp only [List.getElem?_concat_length, Option.some.injEq] at hp
        rwa [← hp]
    obtain ⟨a, ha, hv, w, hw, hl⟩ := hold
    refine ⟨a, ha, hv, w, hw, fun l hlm hal hne => ?_⟩
    obtain ⟨q, hqp, e'', he'', hmask⟩ := hl l hlm hal hne
    exact ⟨q, hqp, e'', hgrow q e'' he'', hmask⟩
  · rcases List.mem_append.mp he' with he' | he'
    · exact h.inClosure e' he'
    · rwa [List.mem_singleton.mp he']
  · exact List.mem_append_left _ (h.items_mem a ha)

/-! ## One pass

It intersects an item with every one before. -/

section Pass

variable {lastN i : ℕ}

/-- A pass only adds to the list. -/
theorem addIntersection_cases (r : List (Item N)) (i : ℕ) (new : List (Item N)) (j : ℕ) :
    addIntersection r i new j = new ∧
        (r.getD i default).mask &&& (r.getD j default).mask ∈ (r ++ new).map Item.mask ∨
      (r.getD i default).mask &&& (r.getD j default).mask ∉ (r ++ new).map Item.mask ∧
        addIntersection r i new j = new ++ [⟨(r.getD i default).mask &&& (r.getD j default).mask,
          (r.getD i default).value⟩] := by
  unfold addIntersection
  by_cases h : (r.getD i default).mask &&& (r.getD j default).mask ∈ (r ++ new).map Item.mask
  · exact .inl ⟨if_pos h, h⟩
  · exact .inr ⟨h, if_neg h⟩

/-- The state of a pass: `new` has been found, and the intersections of the items before `i` with
all items are there. -/
structure PassInv (items r : List (Item N)) (i : ℕ) (new : List (Item N)) : Prop where
  inv : ClosureInv items (r ++ new)
  done : ∀ q < i, ∀ j < r.length,
    (r.getD q default).mask &&& (r.getD j default).mask ∈ (r ++ new).map Item.mask

/-- Step lemma: the intersection of the items `i` and `j`. -/
theorem PassInv.addIntersection {new : List (Item N)} (h : PassInv items r i new)
    (hi : i < r.length) {j : ℕ} (hj : j < r.length) :
    PassInv items r i (addIntersection r i new j) ∧
      (r.getD i default).mask &&& (r.getD j default).mask
        ∈ (r ++ Typemask.addIntersection r i new j).map Item.mask ∧
      ∀ m ∈ (r ++ new).map Item.mask,
        m ∈ (r ++ Typemask.addIntersection r i new j).map Item.mask := by
  have hget : ∀ q < r.length, (r ++ new)[q]? = some (r.getD q default) := fun q hq => by
    rw [List.getElem?_append_left hq, List.getD_eq_getElem?_getD, List.getElem?_eq_getElem hq]
    rfl
  rcases addIntersection_cases r i new j with ⟨heq, hmem⟩ | ⟨hnew, heq⟩
  · rw [heq]
    exact ⟨h, hmem, fun m hm => hm⟩
  · rw [heq, ← List.append_assoc]
    have hgrow : ∀ m ∈ (r ++ new).map Item.mask, m ∈ (r ++ new ++ [(⟨(r.getD i default).mask &&&
        (r.getD j default).mask, (r.getD i default).value⟩ : Item N)]).map Item.mask :=
      fun m hm => by rw [List.map_append]; exact List.mem_append_left _ hm
    refine ⟨⟨?_, ?_⟩, by simp, hgrow⟩
    · rw [← List.append_assoc]
      obtain ⟨a, ha, hv, w, hw, hl⟩ := h.inv.origin i _ (hget i hi)
      refine h.inv.append hnew ⟨a, ha, hv, w &&& (r.getD j default).mask, ?_, ?_⟩ ?_
      · change (r.getD i default).mask &&& (r.getD j default).mask = _
        rw [hw, BitVec.and_assoc]
      · -- `l &&& w` stands before item `i`, so its intersection with item `j` is already there
        intro l hlm hal hne
        obtain ⟨q, hqi, e', he', hmask⟩ := hl l hlm hal hne
        have hq := hget q (hqi.trans hi)
        rw [he'] at hq
        have hmem := h.done q hqi j hj
        rw [← Option.some.inj hq, hmask, BitVec.and_assoc, List.mem_map] at hmem
        obtain ⟨e'', he'', hmask''⟩ := hmem
        obtain ⟨p, hp⟩ := List.mem_iff_getElem?.mp he''
        obtain ⟨hlt, -⟩ := List.getElem?_eq_some_iff.mp hp
        exact ⟨p, hlt, e'', hp, hmask''⟩
      · exact .and (h.inv.inClosure _ (List.mem_of_getElem? (hget i hi)))
          (h.inv.inClosure _ (List.mem_of_getElem? (hget j hj)))
    · intro q hq j' hj'
      rw [← List.append_assoc]
      exact hgrow _ (h.done q hq j' hj')

/-- The inner loop. -/
theorem PassInv.inner (hi : i < r.length) : ∀ (js : List ℕ) (new : List (Item N)),
    PassInv items r i new → (∀ j ∈ js, j < r.length) →
    PassInv items r i (js.foldl (Typemask.addIntersection r i) new) ∧
      (∀ j ∈ js, (r.getD i default).mask &&& (r.getD j default).mask
        ∈ (r ++ js.foldl (Typemask.addIntersection r i) new).map Item.mask) ∧
      ∀ m ∈ (r ++ new).map Item.mask,
        m ∈ (r ++ js.foldl (Typemask.addIntersection r i) new).map Item.mask
  | [], new, h, _ => ⟨h, fun _ hj => absurd hj List.not_mem_nil, fun _ hm => hm⟩
  | j :: js, new, h, hlt => by
      obtain ⟨h', hmem, hgrow⟩ := h.addIntersection hi (hlt j List.mem_cons_self)
      obtain ⟨h'', hall, hgrow'⟩ :=
        PassInv.inner hi js _ h' fun j' hj' => hlt j' (List.mem_cons_of_mem j hj')
      refine ⟨h'', fun j' hj' => ?_, fun m hm => hgrow' m (hgrow m hm)⟩
      rcases List.mem_cons.mp hj' with rfl | hj'
      · exact hgrow' _ hmem
      · exact hall j' hj'

/-- The first `lastN` items have their intersections in the list. -/
def OldClosed (lastN : ℕ) (r : List (Item N)) : Prop :=
  ∀ i < lastN, ∀ j < lastN,
    (r.getD i default).mask &&& (r.getD j default).mask ∈ r.map Item.mask

/-- **One pass**: afterwards the intersections of all items of the list are there. -/
theorem newItems_inv (h : ClosureInv items r) (hold : OldClosed lastN r)
    (hlast : lastN ≤ r.length) : PassInv items r r.length (newItems lastN r) := by
  unfold newItems
  suffices H : ∀ n ≤ r.length, PassInv items r n ((List.range n).foldl (fun newItems i =>
      let jstart := if i < lastN then lastN else 0
      (List.range' jstart (r.length - jstart)).foldl (addIntersection r i) newItems) []) from
    H r.length le_rfl
  intro n
  induction n with
  | zero => exact fun _ => ⟨by simpa using h, fun q hq => absurd hq (Nat.not_lt_zero q)⟩
  | succ n ih =>
    intro hn
    have ih := ih (by omega)
    rw [List.range_succ, List.foldl_append, List.foldl_cons, List.foldl_nil]
    generalize (List.range n).foldl (fun newItems i =>
      let jstart := if i < lastN then lastN else 0
      (List.range' jstart (r.length - jstart)).foldl
      (addIntersection r i) newItems) [] = new at ih ⊢
    obtain ⟨hinv, hall, hgrow⟩ := PassInv.inner (i := n) (by omega)
      (List.range' (if n < lastN then lastN else 0)
        (r.length - if n < lastN then lastN else 0)) new ih (fun j hj => by
          rw [List.mem_range'_1] at hj
          split_ifs at hj <;> omega)
    refine ⟨hinv.inv, fun q hq j hj => ?_⟩
    by_cases hqn : q = n
    · subst hqn
      by_cases hskip : q < lastN ∧ j < lastN
      · refine hgrow _ ?_
        rw [List.map_append]
        exact List.mem_append_left _ (hold q hskip.1 j hskip.2)
      · refine hall j (List.mem_range'_1.mpr ?_)
        split_ifs with hql
        · have : ¬ j < lastN := fun hjl => hskip ⟨hql, hjl⟩
          omega
        · omega
    · exact hinv.done q (by omega) j hj

end Pass

/-! ## The loop -/

/-- **The loop ends in a closed list**, or in one above the limit. -/
theorem closureLoop_spec : ∀ (fuel lastN : ℕ) (r : List (Item N)), ClosureInv items r →
    OldClosed lastN r → lastN ≤ r.length → 501 < fuel + r.length →
    (∃ r', closureLoop fuel lastN r = .ok r' ∧ ClosureInv items r' ∧ OldClosed r'.length r' ∧
      r'.length ≤ 500) ∨
    closureLoop fuel lastN r = .error .closureTooLarge ∧
      ∃ r', ClosureInv items r' ∧ 500 < r'.length
  | 0, lastN, r, h, _, _, hf => .inr ⟨rfl, r, h, by omega⟩
  | fuel + 1, lastN, r, h, hold, hlast, hf => by
      rw [closureLoop]
      by_cases hlim : 500 < r.length
      · exact .inr ⟨if_pos hlim, r, h, hlim⟩
      · rw [if_neg hlim]
        obtain ⟨hinv, hdone⟩ := newItems_inv h hold hlast
        by_cases hnew : newItems lastN r = []
        · rw [if_pos hnew]
          rw [hnew, List.append_nil] at hdone
          exact .inl ⟨r, rfl, h, hdone, by omega⟩
        · rw [if_neg hnew]
          have hpos : 0 < (newItems lastN r).length := List.length_pos_iff.mpr hnew
          refine closureLoop_spec fuel r.length (r ++ newItems lastN r) hinv (fun i hi j hj => ?_)
            (by simp) (by rw [List.length_append]; omega)
          have hget : ∀ q < r.length, (r ++ newItems lastN r).getD q default = r.getD q default :=
            fun q hq => by
              rw [List.getD_eq_getElem?_getD, List.getElem?_append_left hq,
                List.getD_eq_getElem?_getD]
          rw [hget i hi, hget j hj]
          exact hdone i hi j hj

/-- The limit. -/
theorem length_of_closureLoop : ∀ {fuel lastN : ℕ} {r r' : List (Item N)},
    closureLoop fuel lastN r = .ok r' → r'.length ≤ 500
  | 0, _, _, _, h => by cases h
  | fuel + 1, lastN, r, r', h => by
      rw [closureLoop] at h
      split_ifs at h with hlim hnew
      · cases h
        omega
      · exact length_of_closureLoop h

/-- Sorting keeps the items. -/
@[simp] theorem mem_sortItems {e : Item N} : e ∈ sortItems r ↔ e ∈ r := by simp [sortItems]

/-- Distinct masks are sorted strictly. -/
theorem pairwise_sortItems (h : (r.map Item.mask).Nodup) :
    (sortItems r).Pairwise fun a b => a.mask.toNat < b.mask.toNat := by
  have hle : (sortItems r).Pairwise fun a b => a.mask.toNat ≤ b.mask.toNat := by
    have : IsTrans (Item N) fun a b => a.mask.toNat ≤ b.mask.toNat :=
      ⟨fun _ _ _ h h' => Nat.le_trans h h'⟩
    have : Std.Total fun a b : Item N => a.mask.toNat ≤ b.mask.toNat :=
      ⟨fun a b => Nat.le_total _ _⟩
    exact List.pairwise_insertionSort _ _
  have hperm : (sortItems r).Perm r := List.perm_insertionSort _ _
  have hne : (sortItems r).Pairwise fun a b => a.mask ≠ b.mask := by
    have := (hperm.map Item.mask).nodup_iff.mpr h
    exact List.pairwise_map.mp this
  refine (hle.and hne).imp fun ⟨h1, h2⟩ => lt_of_le_of_ne h1 fun heq =>
    h2 (BitVec.eq_of_toNat_eq heq)

theorem nodup_of_pairwise (h : r.Pairwise fun a b => a.mask.toNat < b.mask.toNat) :
    (r.map Item.mask).Nodup :=
  List.pairwise_map.mpr (h.imp fun hlt heq => by rw [heq] at hlt; exact lt_irrefl _ hlt)

/-- The sorted items satisfy the invariant: what lies strictly inside an item stands before it. -/
theorem closureInv_sortItems (h : (items.map Item.mask).Nodup) :
    ClosureInv items (sortItems items) := by
  have hsorted := pairwise_sortItems h
  refine ⟨nodup_of_pairwise hsorted, fun p e hp => ?_, fun e he => ?_, fun a ha => ?_⟩
  · have he : e ∈ items := mem_sortItems.mp (List.mem_of_getElem? hp)
    refine ⟨e, he, rfl, e.mask, BitVec.and_self.symm, fun l hl hel hne => ?_⟩
    obtain ⟨q, hq⟩ := List.mem_iff_getElem?.mp (mem_sortItems.mpr hl)
    refine ⟨q, ?_, l, hq, hel.symm⟩
    obtain ⟨hpl, hpe⟩ := List.getElem?_eq_some_iff.mp hp
    obtain ⟨hql, hqe⟩ := List.getElem?_eq_some_iff.mp hq
    have hle := hel.toNat_le
    by_contra hge
    rcases Nat.lt_or_eq_of_le (not_lt.mp hge) with hlt | heq
    · have := List.pairwise_iff_getElem.mp hsorted p q hpl hql hlt
      rw [hpe, hqe] at this
      omega
    · subst heq
      exact hne (by rw [← hpe, ← hqe])
  · exact .item (mem_sortItems.mp he)
  · exact mem_sortItems.mpr ha

/-- A closure has at most five hundred items. -/
theorem length_of_makeClosure (h : makeClosure items = .ok r) : r.length ≤ 500 := by
  unfold makeClosure at h
  cases hl : closureLoop 502 0 (sortItems items) with
  | error e =>
    rw [hl] at h
    cases h
  | ok r' =>
    rw [hl] at h
    obtain rfl : sortItems r' = r := Except.ok.inj h
    rw [sortItems, List.length_insertionSort]
    exact length_of_closureLoop hl

/-- What `MakeClosure` returns. -/
structure IsClosure (items r : List (Item N)) : Prop where
  sorted : r.Pairwise fun a b => a.mask.toNat < b.mask.toNat
  closed : ∀ a ∈ r, ∀ b ∈ r, a.mask &&& b.mask ∈ r.map Item.mask
  best : ∀ e ∈ r, ∃ a, a.value = e.value ∧ IsBest items e.mask a
  items_mem : ∀ a ∈ items, a ∈ r

/-- **`MakeClosure` closes the items** unless their closure is above the limit. -/
theorem makeClosure_spec (h : (items.map Item.mask).Nodup) :
    (∃ r, makeClosure items = .ok r ∧ IsClosure items r) ∨
      makeClosure items = .error .closureTooLarge ∧ 500 < {m | InClosure items m}.ncard := by
  rcases closureLoop_spec 502 0 (sortItems items) (closureInv_sortItems h)
    (fun i hi => absurd hi (Nat.not_lt_zero i)) (Nat.zero_le _) (by omega) with
    ⟨r, hr, hinv, hclosed, -⟩ | ⟨herr, r, hinv, hlen⟩
  · refine .inl ⟨sortItems r, by rw [makeClosure, hr]; rfl,
      pairwise_sortItems hinv.nodup, ?_, ?_, ?_⟩
    · intro a ha b hb
      obtain ⟨i, hi⟩ := List.mem_iff_getElem?.mp (mem_sortItems.mp ha)
      obtain ⟨j, hj⟩ := List.mem_iff_getElem?.mp (mem_sortItems.mp hb)
      obtain ⟨hil, -⟩ := List.getElem?_eq_some_iff.mp hi
      obtain ⟨hjl, -⟩ := List.getElem?_eq_some_iff.mp hj
      have hmem := hclosed i hil j hjl
      rw [List.getD_eq_getElem?_getD, List.getD_eq_getElem?_getD, hi, hj] at hmem
      obtain ⟨c, hc, hcm⟩ := List.mem_map.mp hmem
      exact List.mem_map.mpr ⟨c, mem_sortItems.mpr hc, hcm⟩
    · exact fun e he => hinv.exists_isBest (mem_sortItems.mp he)
    · exact fun a ha => mem_sortItems.mpr (hinv.items_mem a ha)
  · refine .inr ⟨by rw [makeClosure, herr]; rfl, ?_⟩
    have : Finite (BitVec N) := .of_injective BitVec.toFin fun _ _ => BitVec.eq_of_toFin_eq
    have hsub : (↑(r.map Item.mask).toFinset : Set (BitVec N)) ⊆ {m | InClosure items m} := by
      intro m hm
      obtain ⟨e, he, rfl⟩ := List.mem_map.mp (List.mem_toFinset.mp (Finset.mem_coe.mp hm))
      exact hinv.inClosure e he
    calc 500 < (r.map Item.mask).length := by rwa [List.length_map]
      _ = (r.map Item.mask).toFinset.card := (List.toFinset_card_of_nodup hinv.nodup).symm
      _ = (↑(r.map Item.mask).toFinset : Set (BitVec N)).ncard := (Set.ncard_coe_finset _).symm
      _ ≤ {m | InClosure items m}.ncard := Set.ncard_le_ncard hsub (Set.toFinite _)

end Typemask

end Dsom
