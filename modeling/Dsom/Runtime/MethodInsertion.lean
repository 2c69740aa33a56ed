import Dsom.Runtime.MethodTable
import Dsom.Foundations.Ensures
import Mathlib.Data.List.Perm.Basic

/-!
# Runtime/MethodInsertion — an insertion neither loses nor duplicates an entry

`TryInsert` again, with its assertion that the victim's other position is the one it was evicted
from. `content` is the list of entries in use; up to their order an insertion replaces the entry of
a key, adds the pair, or exchanges it for the pair it hands back (`tryInsert_conserves`).
-/

namespace Dsom

open TwoChoice

namespace SimpleCuckooHashTable

variable {F : Type}

/-- The displacement loop with `TestAssert(h2 == victimPosition)`; `none` if it fires. -/
def displaceAsserted (hash : ℕ → ℕ) : ℕ → Table F → ℕ → Option F → ℕ → Option (InsertionResult F)
  | 0, t, key, value, _ => some (.failed t key value)
  | rounds + 1, t, key, value, victimPosition =>
    let victim := cell t victimPosition
    let t := t.set victimPosition ⟨key, value⟩
    let slots := (slot1 hash t.length victim.id, slot2 hash t.length victim.id)
    let (h1, h2) := if slots.1 = victimPosition then slots.swap else slots
    testAssert (h2 = victimPosition) <|
    if (cell t h1).id = emptyId then some (.inserted (t.set h1 victim))
    else displaceAsserted hash rounds t victim.id victim.data h1

/-- `TryInsert` with its assertion. -/
def tryInsertAsserted (hash : ℕ → ℕ) (t : Table F) (key : ℕ) (value : Option F) :
    Option (InsertionResult F) :=
  let h1 := slot1 hash t.length key
  let h2 := slot2 hash t.length key
  if (cell t h1).id = key then some (.found (t.set h1 ⟨key, value⟩))
  else if (cell t h2).id = key then some (.found (t.set h2 ⟨key, value⟩))
  else if (cell t h1).id = emptyId then some (.inserted (t.set h1 ⟨key, value⟩))
  else if (cell t h2).id = emptyId then some (.inserted (t.set h2 ⟨key, value⟩))
  else displaceAsserted hash 30 t key value h1

/-- The entries in use. -/
def content (t : Table F) : List (MethodHtEntry F) := t.filter fun e => e.id ≠ emptyId

/-- **What an insertion does to the content**, for each result. -/
def Conserves (t : Table F) (k : ℕ) (v : Option F) : InsertionResult F → Prop
  | .found t' => ∃ v₀ rest, (content t).Perm (⟨k, v₀⟩ :: rest) ∧ (content t').Perm (⟨k, v⟩ :: rest)
  | .inserted t' => (content t').Perm (⟨k, v⟩ :: content t)
  | .failed t' k' v' => (⟨k', v'⟩ :: content t').Perm (⟨k, v⟩ :: content t)

variable {hash : ℕ → ℕ} {t : Table F} {k : ℕ} {v : Option F}

/-! ## The assertion

An entry that is put out of its place is at one of its two places, so the assertion holds. -/

/-- **The assertion never fires**: by induction on the rounds, the victim sits at one of its
positions, so the other one is where it goes. -/
theorem displaceAsserted_eq : ∀ (n : ℕ) {t : Table F} {k pos : ℕ} {v : Option F}, Wf hash t →
    k ≠ emptyId → Fresh MethodHtEntry.key t k → Cand hash t.length k pos →
    (cell t pos).id ≠ emptyId →
    displaceAsserted hash n t k v pos = some (displace hash n t k v pos)
  | 0, _, _, _, _, _, _, _, _, _ => rfl
  | n + 1, t, k, pos, v, ht, hk, hf, hc, he => by
    obtain ⟨hwf, hfv, -⟩ := ht.swap (v := v) hk hf hc he
    have hcv : Cand hash (t.set pos ⟨k, v⟩).length (cell t pos).id pos := by
      rw [List.length_set]
      exact ht.placed.at_cand (getElem?_cell (hc.lt ht.length_pos))
        (MethodHtEntry.key_eq_some.mpr ⟨rfl, he⟩)
    simp only [displaceAsserted, displace]
    by_cases h1 : slot1 hash (t.set pos ⟨k, v⟩).length (cell t pos).id = pos
    · simp only [if_pos h1, Prod.swap_prod_mk]
      rw [testAssert, if_pos h1]
      split_ifs with hempty
      · rfl
      · exact displaceAsserted_eq n hwf he hfv (Or.inr rfl) hempty
    · have h2 := hcv.resolve_left fun h => h1 h.symm
      simp only [if_neg h1]
      rw [testAssert, if_pos h2.symm]
      split_ifs with hempty
      · rfl
      · exact displaceAsserted_eq n hwf he hfv (Or.inl rfl) hempty

/-- With the assertion or without, an insertion does the same. -/
theorem tryInsertAsserted_eq (ht : Wf hash t) (hk : k ≠ emptyId) (v : Option F) :
    tryInsertAsserted hash t k v = some (tryInsert hash t k v) := by
  unfold tryInsertAsserted tryInsert
  dsimp only
  split_ifs with h1 h2 h3 h4
  · rfl
  · rfl
  · rfl
  · rfl
  · exact displaceAsserted_eq 30 ht hk (ht.fresh h1 h2) (Or.inl rfl) h3

/-! ## The content

What the table stores, with no order. -/

/-- What an entry of the table says. -/
theorem mem_content {e : MethodHtEntry F} : e ∈ content t ↔ Holds t e.id e.data := by
  simp [content, Holds, and_comm]

/-- Nothing is stored twice. -/
theorem Wf.content_nodup (ht : Wf hash t) : (content t).Nodup := by
  refine List.Pairwise.imp_of_mem (fun {a b} ha hb hne heq => ?_) (ht.distinctIds.filter _)
  exact hne (mem_content.mp ha).1 (congrArg MethodHtEntry.id heq)

/-- A displacement never finds its key. -/
theorem displace_ne_found : ∀ (n : ℕ) (t : Table F) (k pos : ℕ) (v : Option F) (t' : Table F),
    displace hash n t k v pos ≠ .found t'
  | 0, _, _, _, _, _ => by simp [displace]
  | n + 1, t, k, pos, v, t' => by
    simp only [displace]
    split_ifs
    · simp
    · exact displace_ne_found n _ _ _ _ _
    · simp
    · exact displace_ne_found n _ _ _ _ _

/-- An entry is found just when the key is in the table. -/
theorem tryInsert_found_iff (ht : Wf hash t) (hk : k ≠ emptyId) :
    (∃ t', tryInsert hash t k v = .found t') ↔ ∃ w, Holds t k w := by
  have h1 := slot1_lt hash k ht.length_pos
  have h2 := slot2_lt hash k ht.length_pos
  have hholds : ∀ {pos}, pos < t.length → (cell t pos).id = k → ∃ w, Holds t k w := by
    rintro pos hpos rfl
    exact ⟨(cell t pos).data, hk, List.mem_of_getElem? (getElem?_cell hpos)⟩
  unfold tryInsert
  dsimp only
  by_cases hf1 : (cell t (slot1 hash t.length k)).id = k
  · simp only [if_pos hf1]
    exact iff_of_true ⟨_, rfl⟩ (hholds h1 hf1)
  by_cases hf2 : (cell t (slot2 hash t.length k)).id = k
  · simp only [if_neg hf1, if_pos hf2]
    exact iff_of_true ⟨_, rfl⟩ (hholds h2 hf2)
  · simp only [if_neg hf1, if_neg hf2]
    refine iff_of_false ?_ fun ⟨w, hw⟩ => not_holds_of_fresh (ht.fresh hf1 hf2) w hw
    rintro ⟨t', h⟩
    split_ifs at h
    exact displace_ne_found _ _ _ _ _ _ h

/-- The entries of the other keys. -/
def otherContent (t : Table F) (k : ℕ) : List
    (MethodHtEntry F) := (content t).filter fun e => e.id ≠ k

/-- The content of a table that stores a pair, by what it stores. -/
theorem Wf.content_perm {t' : Table F} (ht : Wf hash t) (ht' : Wf hash t')
    (h : ∀ x w, Holds t' x w ↔ (x ≠ k ∧ Holds t x w) ∨ (x = k ∧ w = v)) :
    (content t').Perm (⟨k, v⟩ :: otherContent t k) := by
  have hnodup : (⟨k, v⟩ :: otherContent t k).Nodup := by
    refine List.nodup_cons.mpr ⟨fun hmem => ?_, ht.content_nodup.filter _⟩
    simpa using List.of_mem_filter hmem
  rw [List.perm_ext_iff_of_nodup ht'.content_nodup hnodup]
  intro e
  rw [mem_content, h, List.mem_cons, otherContent, List.mem_filter, mem_content, or_comm]
  refine or_congr ?_ (by simp [and_comm])
  obtain ⟨x, w⟩ := e
  simp

theorem otherContent_of_fresh (hf : Fresh MethodHtEntry.key t k) :
    otherContent t k = content t := by
  refine List.filter_eq_self.mpr fun e he => decide_eq_true fun hid => ?_
  exact not_holds_of_fresh hf e.data (hid ▸ mem_content.mp he)

/-- A table that stores a pair is the pair and the other entries. -/
theorem Wf.perm_otherContent (ht : Wf hash t) {v₀ : Option F} (hv₀ : Holds t k v₀) :
    (content t).Perm (⟨k, v₀⟩ :: otherContent t k) := by
  refine ht.content_perm ht fun x w => ?_
  constructor
  · intro hw
    by_cases hx : x = k
    · subst hx
      exact Or.inr ⟨rfl, hw.unique ht hv₀⟩
    · exact Or.inl ⟨hx, hw⟩
  · rintro (⟨-, hw⟩ | ⟨rfl, rfl⟩)
    · exact hw
    · exact hv₀

/-- **`TryInsert` conserves entries.**  On a table whose keys are unique and sit at their candidate
positions the assertion does not fire, the table stays such a table, and the content is the old one
with the entry of the key replaced, with the pair added, or with the pair exchanged for the one
handed back. -/
theorem tryInsert_conserves (ht : Wf hash t) (hk : k ≠ emptyId) (v : Option F) :
    tryInsertAsserted hash t k v = some (tryInsert hash t k v) ∧
      Wf hash (tryInsert hash t k v).table ∧ (tryInsert hash t k v).table.length = t.length ∧
      Conserves t k v (tryInsert hash t k v) := by
  refine ⟨tryInsertAsserted_eq ht hk v, ?_⟩
  have hspec := tryInsert_spec ht hk v
  have hfound := tryInsert_found_iff (v := v) ht hk
  generalize tryInsert hash t k v = r at hspec hfound
  cases r with
  | found t' =>
    obtain ⟨hwf, hlen, hholds⟩ := hspec
    obtain ⟨v₀, hv₀⟩ := hfound.mp ⟨t', rfl⟩
    exact ⟨hwf, hlen, v₀, otherContent t k, ht.perm_otherContent hv₀, ht.content_perm hwf hholds⟩
  | inserted t' =>
    obtain ⟨hwf, hlen, hholds⟩ := hspec
    have hfresh : Fresh MethodHtEntry.key t k := by
      refine fresh_of_not_holds fun w hw => ?_
      obtain ⟨t'', h⟩ := hfound.mpr ⟨w, hw⟩
      cases h
    have hperm := ht.content_perm hwf hholds
    rw [otherContent_of_fresh hfresh] at hperm
    exact ⟨hwf, hlen, hperm⟩
  | failed t' k' v' =>
    obtain ⟨hwf, hlen, hk', hfresh, hfresh', hholds⟩ := hspec
    refine ⟨hwf, hlen, ?_⟩
    have hnodup : ∀ {t : Table F} {k : ℕ} {v : Option F}, Wf hash t → Fresh MethodHtEntry.key t k →
        (⟨k, v⟩ :: content t).Nodup := fun ht hf =>
      List.nodup_cons.mpr ⟨fun hmem => not_holds_of_fresh hf _ (mem_content.mp hmem),
        ht.content_nodup⟩
    refine (List.perm_ext_iff_of_nodup (hnodup hwf hfresh') (hnodup ht hfresh)).mpr fun e => ?_
    obtain ⟨x, w⟩ := e
    simp only [List.mem_cons, mem_content, MethodHtEntry.mk.injEq]
    rw [or_comm, hholds, or_comm]

/-- Keys whose first position is 0 and whose second is their parity. -/
def parityHash (k : ℕ) : ℕ := k <<< 16

/-- Key 2 has only one position, and evicts key 1 from it. -/
theorem tryInsert_conserves_evicting :
    tryInsertAsserted parityHash [⟨1, some 10⟩, .empty] 2 (some 20) =
        some (.inserted [⟨2, some 20⟩, ⟨1, some 10⟩]) ∧
      Conserves [⟨1, some 10⟩, .empty] 2 (some 20) (.inserted [⟨2, some 20⟩, ⟨1, some 10⟩]) := by
  have hspec : InsertSpec parityHash (List.replicate (2 ^ 1) .empty) 1 (some 10)
      (.inserted [⟨1, some 10⟩, .empty]) :=
    tryInsert_spec (wf_replicate_empty parityHash 1) (by decide) (some 10)
  have hwf : Wf parityHash [⟨1, some 10⟩, .empty] := hspec.1
  obtain ⟨hassert, -, -, hcons⟩ := tryInsert_conserves hwf (k := 2) (by decide) (some 20)
  exact ⟨hassert, hcons⟩

end SimpleCuckooHashTable

end Dsom
