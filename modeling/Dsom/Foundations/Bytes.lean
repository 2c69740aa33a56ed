import Mathlib.Data.List.Basic
import Mathlib.Data.Nat.Bits
import Mathlib.Tactic.Ring

/-!
# Foundations/Bytes — little-endian fields in a byte array

`leBytes k n` stores `n` in `k` bytes and `load k bytes addr` reads them back, `none` outside of the
array.  `At bytes addr seg`: the bytes from `addr` on are `seg`.  A field stored somewhere is loaded
from there (`At.load`), and a part of a concatenation stands at the sum of the lengths before it
(`At.flatten`).
-/

namespace Dsom

namespace Bytes

/-- A little-endian store of `k` bytes. -/
def leBytes (k n : ℕ) : List (BitVec 8) := (List.range k).map fun i => BitVec.ofNat 8
    (n >>> (8 * i))

/-- A little-endian load of `k` bytes; `none` outside of the array. -/
def load (k : ℕ) (bytes : List (BitVec 8)) (addr : ℕ) : Option ℕ :=
  if addr + k ≤ bytes.length then
    some ((List.range k).foldr (fun i n => (bytes.getD (addr + i) 0).toNat * 2 ^ (8 * i) + n) 0)
  else none

/-- The bytes from `addr` on are `seg`. -/
def At (bytes : List (BitVec 8)) (addr : ℕ) (seg : List (BitVec 8)) : Prop :=
  ∃ p q, bytes = p ++ seg ++ q ∧ p.length = addr

variable {bytes seg seg' : List (BitVec 8)} {addr k n : ℕ}

@[simp] theorem length_leBytes : (leBytes k n).length = k := by simp [leBytes]

/-- The length of parts of one length. -/
theorem length_flatten_const {segs : List (List (BitVec 8))} (hk : ∀ s ∈ segs, s.length = k) :
    segs.flatten.length = k * segs.length := by
  have hmap : segs.map List.length = List.replicate segs.length k := by
    refine List.eq_replicate_iff.mpr ⟨List.length_map _, fun m hm => ?_⟩
    obtain ⟨s, hs, rfl⟩ := List.mem_map.mp hm
    exact hk s hs
  rw [List.length_flatten, hmap, List.sum_replicate_nat, Nat.mul_comm]

/-! ## Parts

`At bytes addr seg` says that `seg` stands in the bytes at `addr`. -/

namespace At

theorem self (bytes : List (BitVec 8)) : At bytes 0 bytes := ⟨[], [], by simp, rfl⟩

/-- The first of two parts. -/
theorem left (h : At bytes addr (seg ++ seg')) : At bytes addr seg := by
  obtain ⟨p, q, rfl, hp⟩ := h
  exact ⟨p, seg' ++ q, by simp, hp⟩

/-- The second of two parts. -/
theorem right (h : At bytes addr (seg ++ seg')) : At bytes (addr + seg.length) seg' := by
  obtain ⟨p, q, rfl, hp⟩ := h
  exact ⟨p ++ seg, q, by simp, by simp [hp]⟩

/-- A part of a part. -/
theorem trans (h : At bytes addr seg) (h' : At seg k seg') : At bytes (addr + k) seg' := by
  obtain ⟨p, q, rfl, rfl⟩ := h
  obtain ⟨p', q', rfl, rfl⟩ := h'
  exact ⟨p ++ p', q' ++ q, by simp, by simp⟩

/-- A part lies inside. -/
theorem le_length (h : At bytes addr seg) : addr + seg.length ≤ bytes.length := by
  obtain ⟨p, q, rfl, rfl⟩ := h
  simp only [List.length_append]
  omega

/-- A byte of the part. -/
theorem getD_eq (h : At bytes addr seg) {i : ℕ} (hi : i < seg.length) :
    bytes.getD (addr + i) 0 = seg.getD i 0 := by
  obtain ⟨p, q, rfl, rfl⟩ := h
  rw [List.getD_eq_getElem?_getD, List.append_assoc, List.getElem?_append_right (by omega),
    Nat.add_sub_cancel_left, List.getElem?_append_left hi, List.getD_eq_getElem?_getD]

/-- **A part of a concatenation** stands at the sum of the lengths before it. -/
theorem flatten {segs : List (List (BitVec 8))} (h : At bytes addr segs.flatten) {i : ℕ}
    (hi : segs[i]? = some seg) : At bytes (addr + ((segs.take i).map List.length).sum) seg := by
  obtain ⟨hlt, hget⟩ := List.getElem?_eq_some_iff.mp hi
  have hsplit : segs.flatten = (segs.take i).flatten ++ (seg ++ (segs.drop (i + 1)).flatten) := by
    conv_lhs => rw [← List.take_append_drop i segs]
    rw [List.flatten_append, List.drop_eq_getElem_cons hlt, hget, List.flatten_cons]
  rw [hsplit] at h
  have := h.right.left
  rwa [List.length_flatten] at this

/-- Parts of one length. -/
theorem flatten_const {segs : List (List (BitVec 8))} (h : At bytes addr segs.flatten)
    (hk : ∀ s ∈ segs, s.length = k) {i : ℕ} (hi : segs[i]? = some seg) :
    At bytes (addr + k * i) seg := by
  have hlen : (segs.take i).length = i := by
    obtain ⟨hlt, -⟩ := List.getElem?_eq_some_iff.mp hi
    rw [List.length_take]
    omega
  have := h.flatten hi
  rwa [← List.length_flatten, length_flatten_const fun s hs => hk s (List.mem_of_mem_take hs),
    hlen] at this

end At

/-! ## A field is read back -/

/-- The bytes of a number, put together again. -/
theorem foldr_digits (n : ℕ) : ∀ k c : ℕ,
    (List.range k).foldr (fun i m => n / 2 ^ (8 * i) % 256 * 2 ^ (8 * i) + m) c =
    n % 2 ^ (8 * k) + c
  | 0, c => by simp [Nat.mod_one]
  | k + 1, c => by
      have hmod : n % 2 ^ (8 * (k + 1))
          = n % 2 ^ (8 * k) + 2 ^ (8 * k) * (n / 2 ^ (8 * k) % 256) := by
        rw [Nat.mul_succ, Nat.pow_add, Nat.mod_mul]
      rw [List.range_succ, List.foldr_append, List.foldr_cons, List.foldr_nil,
        foldr_digits n k, hmod]
      ring

/-- **What was stored is loaded.** -/
theorem At.load (h : At bytes addr (leBytes k n)) (hn : n < 2 ^ (8 * k)) :
    load k bytes addr = some n := by
  have hlen := h.le_length
  rw [length_leBytes] at hlen
  rw [Bytes.load, if_pos hlen]
  have hbyte : ∀ i ∈ List.range k, (bytes.getD (addr + i) 0).toNat = n / 2 ^ (8 * i) % 256 := by
    intro i hi
    have hik := List.mem_range.mp hi
    rw [h.getD_eq (by rwa [length_leBytes])]
    simp [leBytes, List.getD_eq_getElem?_getD, hik, Nat.shiftRight_eq_div_pow]
  have hfold : ∀ l : List ℕ, (∀ i ∈ l, i ∈ List.range k) →
      l.foldr (fun i m => (bytes.getD (addr + i) 0).toNat * 2 ^ (8 * i) + m) 0
        = l.foldr (fun i m => n / 2 ^ (8 * i) % 256 * 2 ^ (8 * i) + m) 0 := by
    intro l hl
    induction l with
    | nil => rfl
    | cons i l ih =>
      rw [List.foldr_cons, List.foldr_cons, hbyte i (hl i List.mem_cons_self),
        ih fun j hj => hl j (List.mem_cons_of_mem i hj)]
  rw [hfold _ fun i hi => hi, foldr_digits, Nat.mod_eq_of_lt hn, Nat.add_zero]

/-! ## A loop that stores one part after the other -/

/-- A successful `mapM` has a result for each element. -/
theorem mapM_ok {α β ε : Type} {f : α → Except ε β} : ∀ {l : List α} {r : List β},
    l.mapM f = .ok r → List.Forall₂ (fun a b => f a = .ok b) l r
  | [], r, h => by
      rw [List.mapM_nil] at h
      cases h
      exact .nil
  | a :: l, r, h => by
      rw [List.mapM_cons] at h
      cases ha : f a with
      | error e => simp [ha, Bind.bind, Except.bind] at h
      | ok b =>
        cases hl : l.mapM f with
        | error e => simp [ha, hl, Bind.bind, Except.bind] at h
        | ok bs =>
          simp only [ha, hl, Bind.bind, Except.bind, pure, Except.pure, Except.ok.injEq] at h
          rw [← h]
          exact .cons ha (mapM_ok hl)

/-- Each result comes from an element. -/
theorem mem_of_forall₂ {α β : Type} {R : α → β → Prop} {l : List α} {r : List β}
    (h : List.Forall₂ R l r) {b : β} (hb : b ∈ r) : ∃ a ∈ l, R a b := by
  induction h with
  | nil => exact absurd hb List.not_mem_nil
  | cons hab _ ih =>
    rcases List.mem_cons.mp hb with rfl | hb
    · exact ⟨_, List.mem_cons_self, hab⟩
    · obtain ⟨a, ha, hR⟩ := ih hb
      exact ⟨a, List.mem_cons_of_mem _ ha, hR⟩

/-- A failed `mapM` fails at an element. -/
theorem mapM_error {α β ε : Type} {f : α → Except ε β} {e : ε} : ∀ {l : List α},
    l.mapM f = .error e → ∃ a ∈ l, f a = .error e
  | [], h => by
      rw [List.mapM_nil] at h
      cases h
  | a :: l, h => by
      rw [List.mapM_cons] at h
      cases ha : f a with
      | error e' =>
        simp only [ha, Bind.bind, Except.bind, Except.error.injEq] at h
        exact ⟨a, List.mem_cons_self, h ▸ ha⟩
      | ok b =>
        cases hl : l.mapM f with
        | error e' =>
          simp only [ha, hl, Bind.bind, Except.bind, Except.error.injEq] at h
          obtain ⟨a', ha', hfa⟩ := mapM_error hl
          exact ⟨a', List.mem_cons_of_mem a ha', h ▸ hfa⟩
        | ok bs => simp [ha, hl, Bind.bind, Except.bind, pure, Except.pure] at h

end Bytes

end Dsom
