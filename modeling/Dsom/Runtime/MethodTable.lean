import Dsom.Foundations.TwoChoice
import Mathlib.Data.Nat.Bitwise
import Mathlib.Tactic.Linarith

/-!
# Runtime/MethodTable — the cuckoo table behind a class's methods

`SimpleCuckooHashTable` of `runtime/som_class.cpp`: an array of `(id, function)` entries of
power-of-two size, each id stored at one of the two positions its hash names.  `tryInsert` displaces
at most thirty entries; `resize` doubles the array and re-inserts what was in it **ignoring the
results**, which is where an entry can be lost (`resizeDrops`).

The interner enters as the function `hash` from string ids to 64-bit hashes.
-/

namespace Dsom

open TwoChoice

/-- `static_cast<uint32_t>(-1)`, the id of an empty entry. -/
def emptyId : ℕ := 2 ^ 32 - 1

/-- `SOMClass::MethodHtEntry`; `data = none` is the null heap pointer. -/
structure MethodHtEntry (F : Type*) where
  id : ℕ
  data : Option F
  deriving DecidableEq

namespace MethodHtEntry

variable {F : Type*}

/-- The entry every position starts with. -/
def empty : MethodHtEntry F := ⟨emptyId, none⟩

/-- The key an entry carries, if it is in use. -/
def key (e : MethodHtEntry F) : Option ℕ := if e.id = emptyId then none else some e.id

@[simp] theorem key_empty : (empty : MethodHtEntry F).key = none := if_pos rfl

/-- The key of an entry that is not empty. -/
theorem key_eq_some {e : MethodHtEntry F} {k : ℕ} : e.key = some k ↔ e.id = k ∧ k ≠ emptyId := by
  unfold key
  split
  · next h => exact ⟨fun h' => (by cases h'), fun h' => absurd (h'.1 ▸ h) h'.2⟩
  · next h => exact ⟨fun h' => Option.some.inj h' ▸ ⟨rfl, h⟩, fun h' => by rw [h'.1]⟩

theorem key_eq_none {e : MethodHtEntry F} : e.key = none ↔ e.id = emptyId := by
  unfold key; split <;> simp_all

end MethodHtEntry

namespace SimpleCuckooHashTable

variable {F : Type*}

/-- `m_data`. -/
abbrev Table (F : Type*) := List (MethodHtEntry F)

/-- The first position of `GetHash`: the low bits of the hash. -/
def slot1 (hash : ℕ → ℕ) (size k : ℕ) : ℕ := hash k &&& (size - 1)

/-- The second position of `GetHash`: the bits from 16 up. -/
def slot2 (hash : ℕ → ℕ) (size k : ℕ) : ℕ := (hash k >>> 16) &&& (size - 1)

/-- The entry at a position. -/
def cell (t : Table F) (i : ℕ) : MethodHtEntry F := t.getD i .empty

/-- `InsertionResult`, with the table it leaves; a failed insertion also hands back the pair that
ended up outside the table. -/
inductive InsertionResult (F : Type*) where
  | inserted (t : Table F)
  | found (t : Table F)
  | failed (t : Table F) (key : ℕ) (value : Option F)

/-- The table an insertion leaves behind, whatever its result. -/
def InsertionResult.table : InsertionResult F → Table F
  | inserted t => t
  | found t => t
  | failed t _ _ => t

/-- The displacement loop of `TryInsert`; the first argument counts the rounds left. -/
def displace (hash : ℕ → ℕ) : ℕ → Table F → ℕ → Option F → ℕ → InsertionResult F
  | 0, t, key, value, _ => .failed t key value
  | rounds + 1, t, key, value, victimPosition =>
    let victim := cell t victimPosition
    let t := t.set victimPosition ⟨key, value⟩
    let h1 := slot1 hash t.length victim.id
    let h2 := slot2 hash t.length victim.id
    -- `std::swap(h1, h2)`: the victim goes to the position it does not already hold
    let h1 := if h1 = victimPosition then h2 else h1
    if (cell t h1).id = emptyId then .inserted (t.set h1 victim)
    else displace hash rounds t victim.id victim.data h1

/-- `TryInsert`. -/
def tryInsert (hash : ℕ → ℕ) (t : Table F) (key : ℕ) (value : Option F) : InsertionResult F :=
  let h1 := slot1 hash t.length key
  let h2 := slot2 hash t.length key
  if (cell t h1).id = key then .found (t.set h1 ⟨key, value⟩)
  else if (cell t h2).id = key then .found (t.set h2 ⟨key, value⟩)
  else if (cell t h1).id = emptyId then .inserted (t.set h1 ⟨key, value⟩)
  else if (cell t h2).id = emptyId then .inserted (t.set h2 ⟨key, value⟩)
  else displace hash 30 t key value h1

/-- One re-insertion of `Resize`: empty entries are skipped, the result is ignored. -/
def reinsert (hash : ℕ → ℕ) (t : Table F) (e : MethodHtEntry F) : Table F :=
  if e.id = emptyId then t else (tryInsert hash t e.id e.data).table

/-- `Resize`; `none` is the `ReleaseAssert` on the size. -/
def resize (hash : ℕ → ℕ) (t : Table F) : Option (Table F) :=
  if t.length ≤ 32768 then
    some (t.foldl (reinsert hash) (List.replicate (t.length * 2) .empty))
  else none

/-- The loop of `Insert`.  Sizes double from a power of two up to 65536, where `Resize` asserts, so
the loop body runs at most 17 times. -/
def insertLoop (hash : ℕ → ℕ) : ℕ → Table F → ℕ → Option F → Option (Table F)
  | 0, _, _, _ => none
  | n + 1, t, key, value =>
    match tryInsert hash t key value with
    | .inserted t' => some t'
    | .found t' => some t'
    | .failed t' key' value' => (resize hash t').bind fun t'' => insertLoop hash n t'' key' value'

/-- `Insert`. -/
def insert (hash : ℕ → ℕ) (t : Table F) (key : ℕ) (value : Option F) : Option (Table F) :=
  insertLoop hash 17 t key value

/-! ## What `Resize` drops

It inserts every entry into the larger table and ignores the result: an entry that is left without a
place at the end is dropped. -/

/-- The key a re-insertion leaves outside the table: the one its displacement loop gave up on. -/
def reinsertDrops (hash : ℕ → ℕ) (t : Table F) (e : MethodHtEntry F) : List ℕ :=
  if e.id = emptyId then []
  else match tryInsert hash t e.id e.data with
    | .failed _ key _ => [key]
    | _ => []

/-- The keys the re-insertions of a list of entries leave outside the table. -/
def reinsertAllDrops (hash : ℕ → ℕ) : List (MethodHtEntry F) → Table F → List ℕ
  | [], _ => []
  | e :: es, t => reinsertDrops hash t e ++ reinsertAllDrops hash es (reinsert hash t e)

/-- The keys `Resize` drops. -/
def resizeDrops (hash : ℕ → ℕ) (t : Table F) : List ℕ :=
  reinsertAllDrops hash t (List.replicate (t.length * 2) .empty)

/-- The keys dropped by the resizes of one `Insert`. -/
def insertLoopDrops (hash : ℕ → ℕ) : ℕ → Table F → ℕ → Option F → List ℕ
  | 0, _, _, _ => []
  | n + 1, t, key, value =>
    match tryInsert hash t key value with
    | .inserted _ => []
    | .found _ => []
    | .failed t' key' value' =>
      match resize hash t' with
      | none => []
      | some t'' => resizeDrops hash t' ++ insertLoopDrops hash n t'' key' value'

/-- The keys dropped by one `Insert`. -/
def insertDrops (hash : ℕ → ℕ) (t : Table F) (key : ℕ) (value : Option F) : List ℕ :=
  insertLoopDrops hash 17 t key value

/-! ## The table invariant

Every key is at one of its two places. -/

/-- The candidate positions of a key in a table of the given size. -/
def Cand (hash : ℕ → ℕ) (size k i : ℕ) : Prop := i = slot1 hash size k ∨ i = slot2 hash size k

/-- **The table invariant**: the size is a power of two, every id sits at one of its two positions
and no id is stored twice. -/
structure Wf (hash : ℕ → ℕ) (t : Table F) : Prop where
  size : ∃ p, t.length = 2 ^ p
  placed : Placed MethodHtEntry.key (Cand hash t.length) t

/-- The table stores the pair. -/
def Holds (t : Table F) (k : ℕ) (v : Option F) : Prop := k ≠ emptyId ∧ ⟨k, v⟩ ∈ t

theorem Wf.length_pos {hash : ℕ → ℕ} {t : Table F} (ht : Wf hash t) : 0 < t.length := by
  obtain ⟨p, hp⟩ := ht.size
  rw [hp]
  exact Nat.two_pow_pos p

theorem slot1_lt (hash : ℕ → ℕ) {n : ℕ} (k : ℕ) (hn : 0 < n) : slot1 hash n k < n := by
  have := @Nat.and_le_right (hash k) (n - 1)
  unfold slot1
  omega

theorem slot2_lt (hash : ℕ → ℕ) {n : ℕ} (k : ℕ) (hn : 0 < n) : slot2 hash n k < n := by
  have := @Nat.and_le_right (hash k >>> 16) (n - 1)
  unfold slot2
  omega

theorem Cand.lt {hash : ℕ → ℕ} {n k i : ℕ} (hn : 0 < n) (h : Cand hash n k i) : i < n := by
  rcases h with rfl | rfl
  · exact slot1_lt hash k hn
  · exact slot2_lt hash k hn

theorem getElem?_cell {t : Table F} {i : ℕ} (hi : i < t.length) : t[i]? = some (cell t i) := by
  rw [cell, List.getD_eq_getElem?_getD, List.getElem?_eq_getElem hi, Option.getD_some]

/-- A key has one value. -/
theorem Holds.unique {hash : ℕ → ℕ} {t : Table F} (ht : Wf hash t) {k : ℕ} {v w : Option F}
    (hv : Holds t k v) (hw : Holds t k w) : v = w := by
  have := ht.placed.stores_unique hv.2 hw.2 (MethodHtEntry.key_eq_some.mpr ⟨rfl, hv.1⟩)
    (MethodHtEntry.key_eq_some.mpr ⟨rfl, hv.1⟩)
  exact (MethodHtEntry.mk.injEq .. ▸ this).2

theorem not_holds_of_fresh {t : Table F} {k : ℕ} (h : Fresh MethodHtEntry.key t k) (v : Option F) :
    ¬ Holds t k v := fun hv =>
  h _ hv.2 (MethodHtEntry.key_eq_some.mpr ⟨rfl, hv.1⟩)

theorem fresh_of_not_holds {t : Table F} {k : ℕ} (h : ∀ v, ¬ Holds t k v) :
    Fresh MethodHtEntry.key t k := by
  intro e he hk
  obtain ⟨rfl, hne⟩ := MethodHtEntry.key_eq_some.mp hk
  exact h e.data ⟨hne, he⟩

/-- A key found at neither of its positions is nowhere in the table. -/
theorem Wf.fresh {hash : ℕ → ℕ} {t : Table F} (ht : Wf hash t) {k : ℕ}
    (h1 : (cell t (slot1 hash t.length k)).id ≠ k) (h2 : (cell t (slot2 hash t.length k)).id ≠ k) :
    Fresh MethodHtEntry.key t k := by
  rw [fresh_iff]
  intro i e hi hk
  have hlt : i < t.length := (List.getElem?_eq_some_iff.mp hi).1
  obtain rfl : e = cell t i := Option.some.inj (hi.symm.trans (getElem?_cell hlt))
  obtain ⟨hid, -⟩ := MethodHtEntry.key_eq_some.mp hk
  rcases ht.placed.at_cand hi hk with rfl | rfl
  · exact h1 hid
  · exact h2 hid

/-! ## One insertion

An entry takes the place of another, which goes to its other place, and so on. -/

/-- Filling an empty candidate position with a fresh key. -/
theorem Wf.fill {hash : ℕ → ℕ} {t : Table F} (ht : Wf hash t) {k pos : ℕ} {v : Option F}
    (hk : k ≠ emptyId) (hf : Fresh MethodHtEntry.key t k) (hc : Cand hash t.length k pos)
    (he : (cell t pos).id = emptyId) :
    Wf hash (t.set pos ⟨k, v⟩) ∧
      ∀ x w, Holds (t.set pos ⟨k, v⟩) x w ↔ Holds t x w ∨ (x = k ∧ w = v) := by
  have hkey : MethodHtEntry.key (⟨k, v⟩ : MethodHtEntry F) = some k :=
    MethodHtEntry.key_eq_some.mpr ⟨rfl, hk⟩
  refine ⟨⟨by rw [List.length_set]; exact ht.size, ?_⟩, fun x w => ?_⟩
  · rw [List.length_set]
    exact ht.placed.exchange hkey hf hc
  · have hcell := getElem?_cell (hc.lt ht.length_pos)
    by_cases hx : x = emptyId
    · simp only [Holds, hx, ne_eq, not_true_eq_false, false_and, false_or, false_iff]
      exact fun h => hk h.1.symm
    · have hxs : (MethodHtEntry.key (⟨x, w⟩ : MethodHtEntry F)).isSome := by
        rw [MethodHtEntry.key_eq_some.mpr ⟨rfl, hx⟩]; rfl
      rw [Holds, Holds, mem_set_empty_iff hcell (MethodHtEntry.key_eq_none.mpr he) hxs]
      simp only [hx, ne_eq, not_false_eq_true, true_and, MethodHtEntry.mk.injEq, or_comm]

/-- Overwriting the entry of a stored key. -/
theorem Wf.overwrite {hash : ℕ → ℕ} {t : Table F} (ht : Wf hash t) {k pos : ℕ} {v : Option F}
    (hk : k ≠ emptyId) (hpos : pos < t.length) (he : (cell t pos).id = k) :
    Wf hash (t.set pos ⟨k, v⟩) ∧
      ∀ x w, Holds (t.set pos ⟨k, v⟩) x w ↔ (x ≠ k ∧ Holds t x w) ∨ (x = k ∧ w = v) := by
  have hcell := getElem?_cell hpos
  have hkc : (cell t pos).key = some k := MethodHtEntry.key_eq_some.mpr ⟨he, hk⟩
  refine ⟨⟨by rw [List.length_set]; exact ht.size, ?_⟩, fun x w => ?_⟩
  · rw [List.length_set]
    refine ht.placed.overwrite hcell ?_
    rw [hkc]
    exact MethodHtEntry.key_eq_some.mpr ⟨rfl, hk⟩
  · rw [Holds, mem_set_iff ht.placed hcell hkc]
    constructor
    · rintro ⟨hx, h | ⟨hm, hne⟩⟩
      · exact Or.inr (MethodHtEntry.mk.injEq .. ▸ h)
      · refine Or.inl ⟨?_, hx, hm⟩
        rintro rfl
        exact hne (ht.placed.stores_unique hm (List.mem_of_getElem? hcell)
          (MethodHtEntry.key_eq_some.mpr ⟨rfl, hx⟩) hkc)
    · rintro (⟨hxk, hx, hm⟩ | ⟨rfl, rfl⟩)
      · refine ⟨hx, Or.inr ⟨hm, ?_⟩⟩
        rintro h
        exact hxk ((congrArg MethodHtEntry.id h).trans he)
      · exact ⟨hk, Or.inl rfl⟩

/-- Swapping the pair in the hand with the entry at a candidate position. -/
theorem Wf.swap {hash : ℕ → ℕ} {t : Table F} (ht : Wf hash t) {k pos : ℕ} {v : Option F}
    (hk : k ≠ emptyId) (hf : Fresh MethodHtEntry.key t k) (hc : Cand hash t.length k pos)
    (he : (cell t pos).id ≠ emptyId) :
    Wf hash (t.set pos ⟨k, v⟩) ∧ Fresh MethodHtEntry.key (t.set pos ⟨k, v⟩) (cell t pos).id ∧
      ∀ x w, (Holds (t.set pos ⟨k, v⟩) x w ∨ (x = (cell t pos).id ∧ w = (cell t pos).data))
        ↔ (Holds t x w ∨ (x = k ∧ w = v)) := by
  have hkey : MethodHtEntry.key (⟨k, v⟩ : MethodHtEntry F) = some k :=
    MethodHtEntry.key_eq_some.mpr ⟨rfl, hk⟩
  have hcell := getElem?_cell (hc.lt ht.length_pos)
  have hkc : (cell t pos).key = some (cell t pos).id := MethodHtEntry.key_eq_some.mpr ⟨rfl, he⟩
  refine ⟨⟨by rw [List.length_set]; exact ht.size, ?_⟩, ?_, fun x w => ?_⟩
  · rw [List.length_set]
    exact ht.placed.exchange hkey hf hc
  · exact ht.placed.fresh_exchange hkey hf hcell hkc
  · rw [Holds, mem_set_iff ht.placed hcell hkc]
    constructor
    · rintro (⟨hx, h | ⟨hm, -⟩⟩ | ⟨rfl, rfl⟩)
      · exact Or.inr (MethodHtEntry.mk.injEq .. ▸ h)
      · exact Or.inl ⟨hx, hm⟩
      · exact Or.inl ⟨he, List.mem_of_getElem? hcell⟩
    · rintro (⟨hx, hm⟩ | ⟨rfl, rfl⟩)
      · by_cases h : (⟨x, w⟩ : MethodHtEntry F) = cell t pos
        · exact Or.inr ⟨congrArg MethodHtEntry.id h, congrArg MethodHtEntry.data h⟩
        · exact Or.inl ⟨hx, Or.inr ⟨hm, h⟩⟩
      · exact Or.inl ⟨hk, Or.inl rfl⟩

/-- What an insertion of `(k, v)` into `t` does to the stored pairs, for each result. -/
def InsertSpec (hash : ℕ → ℕ) (t : Table F) (k : ℕ) (v : Option F) : InsertionResult F → Prop
  | .inserted t' => Wf hash t' ∧ t'.length = t.length ∧
      ∀ x w, Holds t' x w ↔ (x ≠ k ∧ Holds t x w) ∨ (x = k ∧ w = v)
  | .found t' => Wf hash t' ∧ t'.length = t.length ∧
      ∀ x w, Holds t' x w ↔ (x ≠ k ∧ Holds t x w) ∨ (x = k ∧ w = v)
  | .failed t' k' v' => Wf hash t' ∧ t'.length = t.length ∧ k' ≠ emptyId ∧
      Fresh MethodHtEntry.key t k ∧ Fresh MethodHtEntry.key t' k' ∧
      ∀ x w, (Holds t' x w ∨ (x = k' ∧ w = v')) ↔ (Holds t x w ∨ (x = k ∧ w = v))

/-- For a fresh key, adding a pair and overriding by it are the same. -/
theorem holds_or_iff_of_fresh {t : Table F} {k : ℕ} (hf : Fresh MethodHtEntry.key t k)
    (v : Option F) (x : ℕ) (w : Option F) :
    (Holds t x w ∨ (x = k ∧ w = v)) ↔ ((x ≠ k ∧ Holds t x w) ∨ (x = k ∧ w = v)) := by
  have : Holds t x w → x ≠ k := by
    rintro h rfl
    exact not_holds_of_fresh hf w h
  tauto

/-- The rounds of displacement. -/
theorem displace_spec {hash : ℕ → ℕ} (n : ℕ) : ∀ {t : Table F} {k pos : ℕ} {v : Option F},
    Wf hash t → k ≠ emptyId → Fresh MethodHtEntry.key t k → Cand hash t.length k pos →
      (cell t pos).id ≠ emptyId → InsertSpec hash t k v (displace hash n t k v pos) := by
  induction n with
  | zero => exact fun ht hk hf _ _ => ⟨ht, rfl, hk, hf, hf, fun _ _ => Iff.rfl⟩
  | succ n ih =>
    intro t k pos v ht hk hf hc he
    obtain ⟨hwf, hfv, hst⟩ := ht.swap (v := v) hk hf hc he
    have hcv : Cand hash (t.set pos ⟨k, v⟩).length (cell t pos).id pos := by
      rw [List.length_set]
      exact ht.placed.at_cand (getElem?_cell (hc.lt ht.length_pos))
        (MethodHtEntry.key_eq_some.mpr ⟨rfl, he⟩)
    simp only [displace]
    generalize hp' : (if slot1 hash (t.set pos ⟨k, v⟩).length (cell t pos).id = pos then
      slot2 hash (t.set pos ⟨k, v⟩).length (cell t pos).id
      else slot1 hash (t.set pos ⟨k, v⟩).length (cell t pos).id) = pos'
    have hc' : Cand hash (t.set pos ⟨k, v⟩).length (cell t pos).id pos' := by
      rw [← hp']
      split
      · exact Or.inr rfl
      · exact Or.inl rfl
    split
    · next hempty =>
      obtain ⟨hwf', hst'⟩ := hwf.fill (v := (cell t pos).data) he hfv hc' hempty
      refine ⟨hwf', by simp, fun x w => ?_⟩
      rw [← holds_or_iff_of_fresh hf, ← hst]
      exact hst' x w
    · next hfull =>
      have hrec := ih (v := (cell t pos).data) hwf he hfv hc' hfull
      revert hrec
      generalize displace hash n (t.set pos ⟨k, v⟩) (cell t pos).id (cell t pos).data pos' = r
      intro hrec
      cases r with
      | inserted t' =>
        refine ⟨hrec.1, hrec.2.1.trans (List.length_set ..), fun x w => ?_⟩
        rw [← holds_or_iff_of_fresh hf, ← hst, holds_or_iff_of_fresh hfv]
        exact hrec.2.2 x w
      | found t' =>
        refine ⟨hrec.1, hrec.2.1.trans (List.length_set ..), fun x w => ?_⟩
        rw [← holds_or_iff_of_fresh hf, ← hst, holds_or_iff_of_fresh hfv]
        exact hrec.2.2 x w
      | failed t' k' v' =>
        obtain ⟨h1, h2, h3, -, h5, h6⟩ := hrec
        exact ⟨h1, h2.trans (List.length_set ..), h3, hf, h5, fun x w => (h6 x w).trans (hst x w)⟩

/-- **`TryInsert` conserves entries**: it overwrites, adds, or hands back exactly the pair left
out. -/
theorem tryInsert_spec {hash : ℕ → ℕ} {t : Table F} (ht : Wf hash t) {k : ℕ} (hk : k ≠ emptyId)
    (v : Option F) : InsertSpec hash t k v (tryInsert hash t k v) := by
  have h1 := slot1_lt hash k ht.length_pos
  have h2 := slot2_lt hash k ht.length_pos
  simp only [tryInsert]
  split
  · next h =>
    obtain ⟨hwf, hst⟩ := ht.overwrite (v := v) hk h1 h
    exact ⟨hwf, List.length_set .., hst⟩
  next hn1 =>
  split
  · next h =>
    obtain ⟨hwf, hst⟩ := ht.overwrite (v := v) hk h2 h
    exact ⟨hwf, List.length_set .., hst⟩
  next hn2 =>
  have hf := ht.fresh hn1 hn2
  split
  · next h =>
    obtain ⟨hwf, hst⟩ := ht.fill (v := v) hk hf (Or.inl rfl) h
    exact ⟨hwf, List.length_set .., fun x w => (hst x w).trans (holds_or_iff_of_fresh hf v x w)⟩
  next hf1 =>
  split
  · next h =>
    obtain ⟨hwf, hst⟩ := ht.fill (v := v) hk hf (Or.inr rfl) h
    exact ⟨hwf, List.length_set .., fun x w => (hst x w).trans (holds_or_iff_of_fresh hf v x w)⟩
  · exact displace_spec 30 ht hk hf (Or.inl rfl) hf1

/-! ## Resizing -/

/-- An empty table is well formed. -/
theorem wf_replicate_empty (hash : ℕ → ℕ) (p : ℕ) :
    Wf hash (List.replicate (2 ^ p) (.empty : MethodHtEntry F)) where
  size := ⟨p, List.length_replicate⟩
  placed := placed_replicate MethodHtEntry.key_empty _

/-- No id in use occurs twice in a list of entries. -/
def DistinctIds (es : List (MethodHtEntry F)) : Prop :=
  es.Pairwise fun a b => a.id ≠ emptyId → a.id ≠ b.id

/-- No key is stored twice. -/
theorem Wf.distinctIds {hash : ℕ → ℕ} {t : Table F} (ht : Wf hash t) : DistinctIds t := by
  refine List.pairwise_iff_getElem.mpr fun i j hi hj hij hne heq => ?_
  have := ht.placed.uniq (List.getElem?_eq_getElem hi) (List.getElem?_eq_getElem hj)
    (MethodHtEntry.key_eq_some.mpr ⟨rfl, hne⟩) (MethodHtEntry.key_eq_some.mpr ⟨heq.symm, hne⟩)
  omega

/-- What two lists of entries hold. -/
theorem holds_append {es es' : List (MethodHtEntry F)} {x : ℕ} {w : Option F} :
    Holds (es ++ es') x w ↔ Holds es x w ∨ Holds es' x w := by
  simp only [Holds, List.mem_append, and_or_left]

theorem holds_singleton {e : MethodHtEntry F} {x : ℕ} {w : Option F} :
    Holds [e] x w ↔ e.id ≠ emptyId ∧ x = e.id ∧ w = e.data := by
  obtain ⟨i, d⟩ := e
  simp only [Holds, List.mem_singleton, MethodHtEntry.mk.injEq]
  constructor
  · rintro ⟨hx, rfl, rfl⟩
    exact ⟨hx, rfl, rfl⟩
  · rintro ⟨hx, rfl, rfl⟩
    exact ⟨hx, rfl, rfl⟩

/-- The keys a run of re-insertions drops, and the pairs it keeps. -/
structure ReinsertSpec (hash : ℕ → ℕ) (t : Table F) (es : List (MethodHtEntry F)) (t' : Table F)
    (drops : List ℕ) : Prop where
  wf : Wf hash t'
  length : t'.length = t.length
  holds : ∀ x w, Holds t' x w ↔ x ∉ drops ∧ (Holds t x w ∨ Holds es x w)
  drops_stored : ∀ x ∈ drops, ∃ w, Holds t x w ∨ Holds es x w

/-- Re-insertions one after the other; what the first ones drop is not among the others. -/
theorem ReinsertSpec.append {hash : ℕ → ℕ} {t t₁ t₂ : Table F} {es es' : List (MethodHtEntry F)}
    {drops drops' : List ℕ} (h : ReinsertSpec hash t es t₁ drops)
    (h' : ReinsertSpec hash t₁ es' t₂ drops') (hnew : ∀ x w, Holds es' x w → x ∉ drops) :
    ReinsertSpec hash t (es ++ es') t₂ (drops ++ drops') where
  wf := h'.wf
  length := h'.length.trans h.length
  holds x w := by
    rw [h'.holds, h.holds, holds_append, List.mem_append, not_or]
    constructor
    · rintro ⟨hx, ⟨hx', ht | hes⟩ | hes'⟩
      · exact ⟨⟨hx', hx⟩, .inl ht⟩
      · exact ⟨⟨hx', hx⟩, .inr (.inl hes)⟩
      · exact ⟨⟨hnew x w hes', hx⟩, .inr (.inr hes')⟩
    · rintro ⟨⟨hx', hx⟩, ht | hes | hes'⟩
      · exact ⟨hx, .inl ⟨hx', .inl ht⟩⟩
      · exact ⟨hx, .inl ⟨hx', .inr hes⟩⟩
      · exact ⟨hx, .inr hes'⟩
  drops_stored x hx := by
    simp only [holds_append]
    rcases List.mem_append.mp hx with hx | hx
    · obtain ⟨w, ht | hes⟩ := h.drops_stored x hx
      · exact ⟨w, .inl ht⟩
      · exact ⟨w, .inr (.inl hes)⟩
    · obtain ⟨w, ht₁ | hes'⟩ := h'.drops_stored x hx
      · obtain ⟨-, ht | hes⟩ := (h.holds x w).mp ht₁
        · exact ⟨w, .inl ht⟩
        · exact ⟨w, .inr (.inl hes)⟩
      · exact ⟨w, .inr (.inr hes')⟩

/-- Putting one entry in again. -/
theorem reinsert_spec {hash : ℕ → ℕ} {e : MethodHtEntry F} {t : Table F} (ht : Wf hash t)
    (hdis : ∀ x w w', Holds [e] x w → ¬ Holds t x w') :
    ReinsertSpec hash t [e] (reinsert hash t e) (reinsertDrops hash t e) := by
  by_cases hne : e.id = emptyId
  · have hr : reinsert hash t e = t := if_pos hne
    have hdr : reinsertDrops hash t e = [] := if_pos hne
    rw [hr, hdr]
    exact ⟨ht, rfl, by simp [holds_singleton, hne], by simp⟩
  · have hfresh : Fresh MethodHtEntry.key t e.id := fresh_of_not_holds fun v =>
      hdis e.id e.data v (holds_singleton.mpr ⟨hne, rfl, rfl⟩)
    have he (x : ℕ) (w : Option F) : Holds [e] x w ↔ x = e.id ∧ w = e.data := by
      rw [holds_singleton, and_iff_right hne]
    have hspec := tryInsert_spec ht hne e.data
    have hr : reinsert hash t e = (tryInsert hash t e.id e.data).table := if_neg hne
    have hdr : reinsertDrops hash t e = match tryInsert hash t e.id e.data with
      | .failed _ key _ => [key]
      | _ => [] := if_neg hne
    rw [hr, hdr]
    generalize tryInsert hash t e.id e.data = r at hspec
    -- an entry that was placed overrides nothing
    have hplaced {t₁ : Table F} (h : Wf hash t₁ ∧ t₁.length = t.length ∧
        ∀ x w, Holds t₁ x w ↔ (x ≠ e.id ∧ Holds t x w) ∨ (x = e.id ∧ w = e.data)) :
        ReinsertSpec hash t [e] t₁ [] := by
      obtain ⟨hwf, hlen, hst⟩ := h
      refine ⟨hwf, hlen, fun x w => ?_, by simp⟩
      rw [hst, ← holds_or_iff_of_fresh hfresh, he]
      simp
    cases r with
    | inserted t₁ => exact hplaced hspec
    | found t₁ => exact hplaced hspec
    | failed t₁ k' v' =>
      obtain ⟨hwf, hlen, hk', -, hfk, hst⟩ := hspec
      have hout : ∀ w, ¬ Holds t₁ k' w := not_holds_of_fresh hfk
      refine ⟨hwf, hlen, fun x w => ?_, fun x hx => ?_⟩
      · rw [he, ← hst, List.mem_singleton]
        constructor
        · intro hw
          refine ⟨?_, .inl hw⟩
          rintro rfl
          exact hout w hw
        · rintro ⟨hx, hw | ⟨rfl, -⟩⟩
          · exact hw
          · exact absurd rfl hx
      · obtain rfl := List.mem_singleton.mp hx
        refine ⟨v', ?_⟩
        rw [he]
        exact (hst x v').mp (.inr ⟨rfl, rfl⟩)

/-- Putting them all in again. -/
theorem reinsertAll_spec {hash : ℕ → ℕ} : ∀ (es : List (MethodHtEntry F)) (t : Table F),
    Wf hash t → DistinctIds es → (∀ x w w', Holds es x w → ¬ Holds t x w') →
      ReinsertSpec hash t es (es.foldl (reinsert hash) t) (reinsertAllDrops hash es t)
  | [], t, ht, _, _ => ⟨ht, rfl, by simp [reinsertAllDrops, Holds], by simp [reinsertAllDrops]⟩
  | e :: es, t, ht, hd, hdis => by
    obtain ⟨he, hes⟩ := List.pairwise_cons.mp hd
    have hdis' (x : ℕ) (w w' : Option F) (hx : Holds ([e] ++ es) x w) : ¬ Holds t x w' :=
      hdis x w w' hx
    have hfirst := reinsert_spec ht fun x w w' hx => hdis' x w w' (holds_append.mpr (.inl hx))
    -- the entries to come are neither in the table nor the first one
    have hnew (x : ℕ) (w w' : Option F) (hx : Holds es x w) :
        ¬ (Holds t x w' ∨ Holds [e] x w') := by
      rintro (hw | hw)
      · exact hdis' x w w' (holds_append.mpr (.inr hx)) hw
      · obtain ⟨hne, rfl, -⟩ := holds_singleton.mp hw
        exact he _ hx.2 hne rfl
    have hrest := reinsertAll_spec es (reinsert hash t e) hfirst.wf hes fun x w w' hx hw =>
      hnew x w w' hx ((hfirst.holds x w').mp hw).2
    refine hfirst.append hrest fun x w hx hdrop => ?_
    obtain ⟨w', hw'⟩ := hfirst.drops_stored x hdrop
    exact hnew x w w' hx hw'

/-- **`Resize` keeps every pair whose key it does not drop.** -/
theorem resize_spec {hash : ℕ → ℕ} {t t' : Table F} (ht : Wf hash t) (h : resize hash t = some t') :
    Wf hash t' ∧ t'.length = t.length * 2 ∧ t.length ≤ 32768 ∧
      (∀ x w, Holds t' x w ↔ x ∉ resizeDrops hash t ∧ Holds t x w) ∧
      ∀ x ∈ resizeDrops hash t, ∃ w, Holds t x w := by
  unfold resize at h
  split at h
  · next hlen =>
    obtain rfl := Option.some.inj h
    obtain ⟨p, hp⟩ := ht.size
    have hwf : Wf hash (List.replicate (t.length * 2) (.empty : MethodHtEntry F)) := by
      rw [hp, ← pow_succ]
      exact wf_replicate_empty hash (p + 1)
    have hno : ∀ x w, ¬ Holds (List.replicate (t.length * 2) (.empty : MethodHtEntry F)) x w :=
      fun x w => not_holds_of_fresh (fresh_replicate MethodHtEntry.key_empty _ x) w
    obtain ⟨h1, h2, h3, h4⟩ := reinsertAll_spec t _ hwf ht.distinctIds fun x _ w' _ => hno x w'
    refine ⟨h1, h2.trans List.length_replicate, hlen, fun x w => ?_, fun x hx => ?_⟩
    · rw [h3]
      simp only [hno, false_or]
      rfl
    · obtain ⟨w, hw⟩ := h4 x hx
      exact ⟨w, hw.resolve_left (hno x w)⟩
  · cases h

/-! ## The whole insertion -/

/-- **`Insert` overrides the pair of `k`, and keeps every pair whose key its resizes do not
drop.** -/
theorem insertLoop_spec {hash : ℕ → ℕ} (n : ℕ) : ∀ {t t' : Table F} {k : ℕ} {v : Option F},
    Wf hash t → k ≠ emptyId → t.length ≤ 65536 → insertLoop hash n t k v = some t' →
      Wf hash t' ∧ t'.length ≤ 65536 ∧
      (∀ x w, Holds t' x w ↔ x ∉ insertLoopDrops hash n t k v ∧
        ((x ≠ k ∧ Holds t x w) ∨ (x = k ∧ w = v))) ∧
      ∀ x ∈ insertLoopDrops hash n t k v, x = k ∨ ∃ w, Holds t x w := by
  induction n with
  | zero => intro t t' k v _ _ _ h; cases h
  | succ n ih =>
    intro t t' k v ht hk hsz h
    have hspec := tryInsert_spec ht hk v
    unfold insertLoop at h
    rw [insertLoopDrops]
    generalize tryInsert hash t k v = r at hspec h
    cases r with
    | inserted t₁ =>
      obtain rfl := Option.some.inj h
      exact ⟨hspec.1, hspec.2.1.trans_le hsz, by simpa using hspec.2.2, by simp⟩
    | found t₁ =>
      obtain rfl := Option.some.inj h
      exact ⟨hspec.1, hspec.2.1.trans_le hsz, by simpa using hspec.2.2, by simp⟩
    | failed t₁ k' v' =>
      obtain ⟨hwf, hlen, hk', hfk, hfk', hst⟩ := hspec
      obtain ⟨t₂, hres, hrec⟩ := Option.bind_eq_some_iff.mp h
      obtain ⟨hwf₂, hlen₂, hsz₂, hst₂, hdrop₂⟩ := resize_spec hwf hres
      obtain ⟨h1, h2, h3, h4⟩ := ih hwf₂ hk' (by omega) hrec
      have hk₁ : ∀ w, ¬ Holds t₁ k' w := not_holds_of_fresh hfk'
      have hkd : k' ∉ resizeDrops hash t₁ := fun hd => by
        obtain ⟨w, hw⟩ := hdrop₂ k' hd
        exact hk₁ w hw
      refine ⟨h1, h2, fun x w => ?_, fun x hx => ?_⟩
      · simp only [hres, List.mem_append, not_or]
        rw [h3, hst₂, ← holds_or_iff_of_fresh hfk, ← hst]
        constructor
        · rintro ⟨hdrops, ⟨-, hresize, hw⟩ | ⟨rfl, rfl⟩⟩
          · exact ⟨⟨hresize, hdrops⟩, .inl hw⟩
          · exact ⟨⟨hkd, hdrops⟩, .inr ⟨rfl, rfl⟩⟩
        · rintro ⟨⟨hresize, hdrops⟩, hw | hw⟩
          · refine ⟨hdrops, .inl ⟨?_, hresize, hw⟩⟩
            rintro rfl
            exact hk₁ w hw
          · exact ⟨hdrops, .inr hw⟩
      · simp only [hres, List.mem_append] at hx
        have hin : ∀ w, Holds t₁ x w → x = k ∨ ∃ w, Holds t x w := fun w hw => by
          rcases (hst x w).mp (Or.inl hw) with h | ⟨rfl, -⟩
          · exact Or.inr ⟨w, h⟩
          · exact Or.inl rfl
        rcases hx with hx | hx
        · obtain ⟨w, hw⟩ := hdrop₂ x hx
          exact hin w hw
        · rcases h4 x hx with rfl | ⟨w, hw⟩
          · rcases (hst x v').mp (Or.inr ⟨rfl, rfl⟩) with h | ⟨rfl, -⟩
            · exact Or.inr ⟨v', h⟩
            · exact Or.inl rfl
          · exact hin w ((hst₂ x w).mp hw).2

/-- The bound on the loop of `Insert` is never what ends it: sizes reach 65536, where `Resize`
asserts, first. -/
theorem insertLoop_succ {hash : ℕ → ℕ} (n : ℕ) : ∀ {t : Table F} {k p : ℕ} {v : Option F},
    Wf hash t → k ≠ emptyId → t.length = 2 ^ p → p ≤ 16 → 17 ≤ p + n →
      insertLoop hash (n + 1) t k v = insertLoop hash n t k v := by
  induction n with
  | zero => intro t k p v _ _ _ hp hn; omega
  | succ n ih =>
    intro t k p v ht hk hlen hp hn
    have hspec := tryInsert_spec ht hk v
    rw [insertLoop, insertLoop]
    generalize tryInsert hash t k v = r at hspec
    cases r with
    | inserted t₁ => rfl
    | found t₁ => rfl
    | failed t₁ k' v' =>
      obtain ⟨hwf, hlen₁, hk', -⟩ := hspec
      cases hres : resize hash t₁ with
      | none => simp [hres]
      | some t₂ =>
        obtain ⟨hwf₂, hlen₂, hsz, -⟩ := resize_spec hwf hres
        have hp₂ : t₂.length = 2 ^ (p + 1) := by rw [hlen₂, hlen₁, hlen, pow_succ]
        have hp15 : p ≤ 15 := by
          by_contra hcon
          have : 2 ^ 16 ≤ 2 ^ p := Nat.pow_le_pow_right (by decide) (by omega)
          omega
        simp only [hres, Option.bind_some]
        exact ih hwf₂ hk' hp₂ (by omega) (by omega)

end SimpleCuckooHashTable

end Dsom
