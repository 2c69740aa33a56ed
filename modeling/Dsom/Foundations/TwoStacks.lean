import Mathlib.Data.Nat.Notation
import Mathlib.Tactic.Common

/-!
# Foundations/TwoStacks — two stacks in one buffer

A byte of a buffer says which value it is part of, and which byte of it; a value that has been
written over in part cannot be read any more.  One stack grows up from the beginning of the buffer,
another down from `base`, with cells of different sizes.  `TwoStacks` says that the buffer holds
both: pushing keeps it as long as the cells fit below `base`, and the tops can then be read.
-/

namespace Dsom

variable {γ α β : Type}

/-- A block of bytes, each of which may be the part of a stored value at some offset. -/
structure Buffer (γ : Type) where
  size : ℕ
  byte : ℕ → Option (γ × ℕ)

namespace Buffer

variable {b b' : Buffer γ} {addr size i : ℕ} {c : γ}

/-- Store a value in the bytes from `addr` on. -/
def write (b : Buffer γ) (addr size : ℕ) (c : γ) : Option (Buffer γ) :=
  if addr + size ≤ b.size then
    some { b with byte := fun i =>
      if addr ≤ i ∧ i < addr + size then some (c, i - addr) else b.byte i }
  else none

/-- The value in the bytes from `addr` on is whole. -/
def Holds (b : Buffer γ) (addr size : ℕ) (c : γ) : Prop :=
  ∀ k < size, b.byte (addr + k) = some (c, k)

instance [DecidableEq γ] : Decidable (b.Holds addr size c) :=
  inferInstanceAs (Decidable (∀ k < size, _))

/-- Load a value. -/
def read [DecidableEq γ] (b : Buffer γ) (addr size : ℕ) : Option γ :=
  match b.byte addr with
  | some (c, _) => if b.Holds addr size c then some c else none
  | none => none

/-- What a place holds is read there. -/
theorem Holds.read [DecidableEq γ] (h : b.Holds addr size c) (hsize : 0 < size) :
    b.read addr size = some c := by
  have h0 : b.byte addr = some (c, 0) := h 0 hsize
  rw [Buffer.read, h0]
  exact if_pos h

/-- A write succeeds where there is room. -/
theorem write_eq_some (b : Buffer γ) (c : γ) (h : addr + size ≤ b.size) :
    ∃ b', b.write addr size c = some b' :=
  ⟨_, if_pos h⟩

section Write

variable (h : b.write addr size c = some b')

include h

theorem size_write : b'.size = b.size := by
  rw [write, Option.ite_none_right_eq_some] at h
  obtain ⟨-, h⟩ := h
  cases h
  rfl

/-- A write is held. -/
theorem holds_write : b'.Holds addr size c := by
  intro k hk
  rw [write, Option.ite_none_right_eq_some] at h
  obtain ⟨-, h⟩ := h
  cases h
  dsimp only
  rw [if_pos ⟨by omega, by omega⟩, Nat.add_sub_cancel_left]

/-- Other bytes are as before. -/
theorem byte_write (hi : i < addr ∨ addr + size ≤ i) : b'.byte i = b.byte i := by
  rw [write, Option.ite_none_right_eq_some] at h
  obtain ⟨-, h⟩ := h
  cases h
  exact if_neg (by omega)

end Write

/-! ## The stacks

One grows up from the start of the buffer, the other down from `base`. -/

/-- A stack that grows up, its top first. -/
def Up (b : Buffer γ) (size : ℕ) (f : α → γ) : List α → Prop
  | [] => True
  | x :: xs => b.Holds (size * xs.length) size (f x) ∧ b.Up size f xs

/-- A stack that grows down from `base`, its top first. -/
def Down (b : Buffer γ) (base size : ℕ) (f : α → γ) : List α → Prop
  | [] => True
  | x :: xs => b.Holds (base - size * (xs.length + 1)) size (f x) ∧ b.Down base size f xs

/-- A place holds what it held while its bytes stay. -/
theorem Holds.frame (h : b.Holds addr size c)
    (hbyte : ∀ i, addr ≤ i → i < addr + size → b'.byte i = b.byte i) : b'.Holds addr size c := by
  intro k hk
  rw [hbyte (addr + k) (by omega) (by omega)]
  exact h k hk

/-- So does the stack that grows up. -/
theorem Up.frame {f : α → γ} {xs : List α} (h : b.Up size f xs)
    (hbyte : ∀ i < size * xs.length, b'.byte i = b.byte i) : b'.Up size f xs := by
  induction xs with
  | nil => trivial
  | cons x xs ih =>
      rw [List.length_cons, Nat.mul_add_one] at hbyte
      exact ⟨h.1.frame fun i _ hi => hbyte i hi, ih h.2 fun i hi => hbyte i (by omega)⟩

/-- So does the stack that grows down. -/
theorem Down.frame {f : α → γ} {base : ℕ} {xs : List α} (h : b.Down base size f xs)
    (hfits : size * xs.length ≤ base)
    (hbyte : ∀ i, base - size * xs.length ≤ i → i < base → b'.byte i = b.byte i) :
    b'.Down base size f xs := by
  induction xs with
  | nil => trivial
  | cons x xs ih =>
      rw [List.length_cons] at hfits hbyte
      have hsucc := Nat.mul_add_one size xs.length
      exact ⟨h.1.frame fun i hlo hi => hbyte i hlo (by omega),
        ih h.2 (by omega) fun i hlo hi => hbyte i (by omega) hi⟩

end Buffer

/-- **The buffer holds both stacks.** -/
structure TwoStacks (b : Buffer (α ⊕ β)) (upSize downSize base : ℕ) (up : List α) (down : List β) :
    Prop where
  fits : upSize * up.length + downSize * down.length ≤ base
  holdsUp : b.Up upSize .inl up
  holdsDown : b.Down base downSize .inr down

namespace TwoStacks

variable {b b' : Buffer (α ⊕ β)} {upSize downSize base addr size : ℕ} {up : List α} {down : List β}
  {x x' : α} {y : β} {c : α ⊕ β}

theorem popUp (h : TwoStacks b upSize downSize base (x :: up) down) :
    TwoStacks b upSize downSize base up down where
  fits := by
    have := h.fits
    rw [List.length_cons, Nat.mul_add_one] at this
    omega
  holdsUp := h.holdsUp.2
  holdsDown := h.holdsDown

theorem popDown (h : TwoStacks b upSize downSize base up (y :: down)) :
    TwoStacks b upSize downSize base up down where
  fits := by
    have := h.fits
    rw [List.length_cons, Nat.mul_add_one] at this
    omega
  holdsUp := h.holdsUp
  holdsDown := h.holdsDown.2

theorem dropDown (down' : List β) (h : TwoStacks b upSize downSize base up (down' ++ down)) :
    TwoStacks b upSize downSize base up down := by
  induction down' with
  | nil => exact h
  | cons y down' ih => exact ih h.popDown

/-- Bytes between the stacks, or from `base` on, do not matter. -/
theorem frame (h : TwoStacks b upSize downSize base up down)
    (hw : b.write addr size c = some b')
    (haddr : base ≤ addr ∨
      (upSize * up.length ≤ addr ∧ addr + size + downSize * down.length ≤ base)) :
    TwoStacks b' upSize downSize base up down := by
  have hfits := h.fits
  refine ⟨hfits, h.holdsUp.frame fun i hi => ?_, h.holdsDown.frame (by omega) fun i hlo hi => ?_⟩
  · exact Buffer.byte_write hw (.inl (by omega))
  · refine Buffer.byte_write hw ?_
    rcases haddr with haddr | haddr
    · exact .inl (by omega)
    · exact .inr (by omega)

/-- A push where there is room. -/
theorem pushUp (h : TwoStacks b upSize downSize base up down)
    (hfits : upSize * (x :: up).length + downSize * down.length ≤ base)
    (hw : b.write (upSize * up.length) upSize (.inl x) = some b') :
    TwoStacks b' upSize downSize base (x :: up) down := by
  have hroom := hfits
  rw [List.length_cons, Nat.mul_add_one] at hroom
  have hkeep := h.frame hw (.inr ⟨Nat.le_refl _, hroom⟩)
  exact ⟨hfits, ⟨Buffer.holds_write hw, hkeep.holdsUp⟩, hkeep.holdsDown⟩

/-- A push on the other stack where there is room. -/
theorem pushDown (h : TwoStacks b upSize downSize base up down)
    (hfits : upSize * up.length + downSize * (y :: down).length ≤ base)
    (hw : b.write (base - downSize * (down.length + 1)) downSize (.inr y) = some b') :
    TwoStacks b' upSize downSize base up (y :: down) := by
  have hroom := hfits
  rw [List.length_cons] at hroom
  have hsucc := Nat.mul_add_one downSize down.length
  have hkeep := h.frame hw (.inr ⟨by omega, by omega⟩)
  exact ⟨hfits, hkeep.holdsUp, Buffer.holds_write hw, hkeep.holdsDown⟩

/-- The top of the stack that grows up is written in place. -/
theorem setUp (h : TwoStacks b upSize downSize base (x :: up) down)
    (hw : b.write (upSize * up.length) upSize (.inl x') = some b') :
    TwoStacks b' upSize downSize base (x' :: up) down :=
  h.popUp.pushUp h.fits hw

/-- The top is read back. -/
theorem read_up [DecidableEq α] [DecidableEq β]
    (h : TwoStacks b upSize downSize base (x :: up) down) (hsize : 0 < upSize) :
    b.read (upSize * up.length) upSize = some (.inl x) := h.holdsUp.1.read hsize

end TwoStacks

end Dsom
