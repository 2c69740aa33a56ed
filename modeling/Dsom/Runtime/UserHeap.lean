import Mathlib.Algebra.Group.Int.Defs
import Mathlib.Algebra.Group.Nat.Defs
import Mathlib.Data.Int.Notation
import Mathlib.Data.List.Forall2
import Mathlib.Order.Basic
import Mathlib.Tactic.Common

/-!
# Runtime/UserHeap — the bump allocator and the objects on it

The user heap grows downwards from the top of its region; `AllocFromUserHeap` moves its frontier and
asks for more pages when it has passed the limit.  The size of an object is computed as a `size_t`
and handed on as an `uint32_t`.

An object whose size, rounded up, does not fit `uint32_t` is given less room than its constructor
writes, and nothing is reported: `allocationSound_iff`.  As long as sizes do fit, the objects of a
run are disjoint: `allocateAll_separate`.
-/

namespace Dsom

/-- What keeps an operation of the VM from coming to an end: a failure that the VM reports, an
undefined operation, or a write outside of what was reserved. -/
inductive Fault where
  | vmFailure
  | undefined
  | outside
  deriving DecidableEq

/-! ## The allocator

A pointer goes down through a reserved range, and pages are asked for as it goes. -/

/-- `m_userHeapCurPtr` and `m_userHeapPtrLimit`, relative to the address of the VM. -/
structure UserHeap where
  curPtr : ℤ
  ptrLimit : ℤ

/-- `x_vmBaseOffset`. -/
def vmBaseOffset : ℤ := 16 * 2 ^ 30

/-- `x_vmUserHeapSize`. -/
def vmUserHeapSize : ℤ := 12 * 2 ^ 30

namespace UserHeap

/-- The user heap after the machine is made: empty. -/
def initial : UserHeap where
  curPtr := -(vmBaseOffset - vmUserHeapSize)
  ptrLimit := -(vmBaseOffset - vmUserHeapSize)

-- whether `mmap` gives pages at an address
variable (mmap : ℤ → Bool)

/-- `BumpUserHeap`. -/
def bump (h : UserHeap) : Except Fault UserHeap :=
  if h.curPtr < -vmBaseOffset then .error .vmFailure
  else
    let newHeapLimit := h.curPtr / 65536 * 65536
    if mmap newHeapLimit then .ok { h with ptrLimit := newHeapLimit } else .error .vmFailure

/-- `AllocFromUserHeap`: the new object is where the frontier is afterwards. -/
def alloc (length : ℕ) (h : UserHeap) : Except Fault UserHeap :=
  let h := { h with curPtr := h.curPtr - length }
  if h.curPtr < h.ptrLimit then h.bump mmap else .ok h

end UserHeap

/-! ## Objects

An object has a header and, if it is asked for, a trailing array. -/

/-- `RoundUpToMultipleOf<8>`. -/
def roundUp8 (n : ℕ) : ℕ := (n + 7) / 8 * 8

/-- The objects that are made while a program runs. -/
inductive Request where
  /-- `AllocateArray`, for `new:` and for ranges. -/
  | array (length : ℕ)
  /-- `DoStringConcat`. -/
  | stringConcat (llen rlen : ℕ)
  /-- `Instantiate`. -/
  | object (numFields : ℕ)

namespace Request

/-- What is passed to `AllocateUninitialized`; `8 * m_numFields` is an `uint32_t`. -/
def trailingArraySize : Request → ℕ
  | array length => 8 + length * 8
  | stringConcat llen rlen => 8 + llen + rlen + 1
  | object numFields => 8 * numFields % 2 ^ 32

/-- The bytes that the constructor writes, as offset and width: the header, and `m_data` from `8`
on. -/
def writes : Request → List (ℕ × ℕ)
  | array length => (0, 8) :: (8, 8) :: (List.range length).map fun i => (8 + 8 * (i + 1), 8)
  | stringConcat llen rlen =>
      [(0, 8), (8, 8), (16, llen), (16 + llen, rlen), (16 + llen + rlen, 1)]
  | object numFields => (0, 8) :: (List.range numFields).map fun i => (8 + 8 * i, 8)

/-- The bytes of the whole object. -/
def size : Request → ℕ
  | array length => 8 + 8 * (length + 1)
  | stringConcat llen rlen => 8 + 8 + (llen + rlen + 1)
  | object numFields => 8 + 8 * numFields

end Request

/-- A piece of the heap. -/
structure Reservation where
  address : ℤ
  bytes : ℕ

section Allocate

variable (mmap : ℤ → Bool)

/-- `AllocateUninitialized`: the size is cut to `uint32_t`. -/
def allocateUninitialized (trailingArraySize : ℕ) (h : UserHeap) :
    Except Fault (Reservation × UserHeap) := do
  let allocSize := roundUp8 (8 + trailingArraySize)
  let h' ← h.alloc mmap (allocSize % 2 ^ 32)
  return (⟨h'.curPtr, (h.curPtr - h'.curPtr).toNat⟩, h')

/-- `AllocateUninitialized` at the size of the request. -/
def allocate (request : Request) (h : UserHeap) : Except Fault (Reservation × UserHeap) :=
  allocateUninitialized mmap request.trailingArraySize h

/-- One object after the other. -/
def allocateAll : List Request → UserHeap → Except Fault (List Reservation × UserHeap)
  | [], h => .ok ([], h)
  | request :: requests, h => do
      let (r, h) ← allocate mmap request h
      let (rs, h) ← allocateAll requests h
      return (r :: rs, h)

end Allocate

/-! ## Sizes -/

theorem le_roundUp8 (n : ℕ) : n ≤ roundUp8 n := by
  rw [roundUp8]
  omega

namespace Request

/-- The constructor writes all of the object and nothing else. -/
theorem writes_inside_iff (request : Request) (n : ℕ) :
    (∀ w ∈ request.writes, w.1 + w.2 ≤ n) ↔ request.size ≤ n := by
  cases request with
  | array length =>
      simp only [writes, size, List.forall_mem_cons, List.forall_mem_map, List.mem_range]
      constructor
      · rintro ⟨-, h, hs⟩
        rcases Nat.eq_zero_or_pos length with rfl | hpos
        · exact h
        · have := hs (length - 1) (by omega)
          omega
      · intro h
        exact ⟨by omega, by omega, fun i hi => by omega⟩
  | stringConcat llen rlen =>
      simp only [writes, size, List.forall_mem_cons, List.not_mem_nil, false_implies, implies_true,
        and_true]
      omega
  | object numFields =>
      simp only [writes, size, List.forall_mem_cons, List.forall_mem_map, List.mem_range]
      constructor
      · rintro ⟨h, hs⟩
        rcases Nat.eq_zero_or_pos numFields with rfl | hpos
        · exact h
        · have := hs (numFields - 1) (by omega)
          omega
      · intro h
        exact ⟨by omega, fun i hi => by omega⟩

/-- What is reserved is the size of the object, rounded up and cut to `uint32_t`. -/
theorem allocSize_eq (request : Request) :
    roundUp8 (8 + request.trailingArraySize) % 2 ^ 32 = roundUp8 request.size % 2 ^ 32 := by
  cases request <;> simp only [trailingArraySize, size, roundUp8] <;> omega

end Request

/-! ## One allocation -/

section Sound

variable {mmap : ℤ → Bool} {h h' : UserHeap}

/-- The heap cannot give `n` bytes: its region is used up, or there are no pages. -/
def UserHeap.Refuses (mmap : ℤ → Bool) (h : UserHeap) (n : ℕ) : Prop :=
  h.curPtr - n < h.ptrLimit ∧
    (h.curPtr - n < -vmBaseOffset ∨ mmap ((h.curPtr - n) / 65536 * 65536) = false)

/-- When an allocation is refused. -/
theorem UserHeap.alloc_eq_error_iff {n : ℕ} {e : Fault} :
    h.alloc mmap n = .error e ↔ h.Refuses mmap n ∧ e = .vmFailure := by
  simp only [alloc, bump, Refuses]
  split_ifs with hlt hbase hmap
  · exact ⟨fun he => ⟨⟨hlt, .inl hbase⟩, (Except.error.inj he).symm⟩, fun he => by rw [he.2]⟩
  · simp [hbase, hmap]
  · have hfalse : mmap ((h.curPtr - n) / 65536 * 65536) = false := by simpa using hmap
    exact ⟨fun he => ⟨⟨hlt, .inr hfalse⟩, (Except.error.inj he).symm⟩, fun he => by rw [he.2]⟩
  · simp [hlt]

/-- Where the object is. -/
theorem UserHeap.curPtr_alloc {n : ℕ} (hok : h.alloc mmap n = .ok h') :
    h'.curPtr = h.curPtr - n := by
  simp only [alloc, bump] at hok
  split_ifs at hok <;> rw [← Except.ok.inj hok]

/-- An allocation is refused, or reserves the size cut to `uint32_t`. -/
theorem allocate_cases (mmap : ℤ → Bool) (request : Request) (h : UserHeap) :
    (h.Refuses mmap (roundUp8 request.size % 2 ^ 32) ∧
      allocate mmap request h = .error .vmFailure) ∨
    (¬ h.Refuses mmap (roundUp8 request.size % 2 ^ 32) ∧
      ∃ h', allocate mmap request h = .ok (⟨h'.curPtr, roundUp8 request.size % 2 ^ 32⟩, h') ∧
        h.alloc mmap (roundUp8 request.size % 2 ^ 32) = .ok h') := by
  rw [allocate, allocateUninitialized, request.allocSize_eq]
  cases halloc : h.alloc mmap (roundUp8 request.size % 2 ^ 32) with
  | error e =>
      obtain ⟨hrefuses, rfl⟩ := UserHeap.alloc_eq_error_iff.mp halloc
      exact .inl ⟨hrefuses, rfl⟩
  | ok h' =>
      have hcur := UserHeap.curPtr_alloc halloc
      refine .inr ⟨fun hrefuses => ?_, h', ?_, rfl⟩
      · have := UserHeap.alloc_eq_error_iff.mpr ⟨hrefuses, rfl⟩
        rw [halloc] at this
        cases this
      · have hbytes : (h.curPtr - h'.curPtr).toNat = roundUp8 request.size % 2 ^ 32 := by omega
        show Except.ok _ = _
        rw [hbytes]

/-- **An allocation is sound**: the VM reports a failure, or reserves all that the constructor then
writes. -/
def AllocationSound (mmap : ℤ → Bool) (request : Request) (h : UserHeap) : Prop :=
  allocate mmap request h = .error .vmFailure ∨
    ∃ r h', allocate mmap request h = .ok (r, h') ∧ r.address = h'.curPtr ∧
      h.curPtr = h'.curPtr + r.bytes ∧ ∀ w ∈ request.writes, w.1 + w.2 ≤ r.bytes

/-- The rounded size of the object fits an `uint32_t`. -/
def Request.Fits (request : Request) : Prop := roundUp8 request.size < 2 ^ 32

instance (request : Request) : Decidable request.Fits := inferInstanceAs (Decidable (_ < _))

/-- An allocation is sound if the size fits, and otherwise only if what is left of it is refused. -/
theorem allocationSound_iff (mmap : ℤ → Bool) (request : Request) (h : UserHeap) :
    AllocationSound mmap request h ↔
      request.Fits ∨ h.Refuses mmap (roundUp8 request.size % 2 ^ 32) := by
  rcases allocate_cases mmap request h with ⟨hrefuses, herr⟩ | ⟨hnot, h', hok, halloc⟩
  · exact ⟨fun _ => .inr hrefuses, fun _ => .inl herr⟩
  · constructor
    · rintro (herr | ⟨r, h'', hok', -, -, hw⟩)
      · rw [hok] at herr
        cases herr
      · rw [hok] at hok'
        obtain ⟨rfl, rfl⟩ := Prod.mk.inj (Except.ok.inj hok')
        rw [request.writes_inside_iff] at hw
        refine .inl ?_
        -- a size that does not fit is cut to less than itself
        by_contra hfit
        have hle := le_roundUp8 request.size
        simp only [Request.Fits, roundUp8] at hfit hw hle
        omega
    · rintro (hfit | hrefuses)
      · have hcur := UserHeap.curPtr_alloc halloc
        have hsum : h.curPtr = h'.curPtr + (roundUp8 request.size % 2 ^ 32 : ℕ) := by omega
        refine .inr ⟨_, h', hok, rfl, hsum, ?_⟩
        rw [request.writes_inside_iff, Nat.mod_eq_of_lt hfit]
        exact le_roundUp8 _
      · exact absurd hrefuses hnot

end Sound

/-! ## Runs -/

section Runs

variable {mmap : ℤ → Bool} {h h' : UserHeap}

/-- The frontier is in the region. -/
structure UserHeap.Valid (h : UserHeap) : Prop where
  limit_le : h.ptrLimit ≤ h.curPtr
  base_le : -vmBaseOffset ≤ h.ptrLimit

/-- The heap is valid at the start. -/
theorem UserHeap.initial_valid : UserHeap.initial.Valid := ⟨Int.le_refl _, by decide⟩

/-- An allocation keeps it valid. -/
theorem UserHeap.Valid.alloc (hv : h.Valid) {n : ℕ} (hok : h.alloc mmap n = .ok h') : h'.Valid := by
  obtain ⟨hlimit, hbase⟩ := hv
  have hmul : vmBaseOffset = 262144 * 65536 := by decide
  simp only [UserHeap.alloc, UserHeap.bump] at hok
  split_ifs at hok <;> obtain rfl := Except.ok.inj hok
  · constructor <;> dsimp only <;> omega
  · constructor <;> dsimp only <;> omega

/-- The objects of a run: each in its reservation, and each reservation below the earlier ones. -/
structure Separate (requests : List Request) (rs : List Reservation) (h : UserHeap) : Prop where
  inside : List.Forall₂ (fun request r => ∀ w ∈ request.writes, w.1 + w.2 ≤ r.bytes) requests rs
  disjoint : rs.Pairwise fun (r r' : Reservation) => r'.address + r'.bytes ≤ r.address
  region : ∀ r ∈ rs, -vmBaseOffset ≤ r.address ∧ r.address + r.bytes ≤ h.curPtr

/-- The objects do not meet. -/
theorem allocateAll_separate (hv : h.Valid) {requests : List Request}
    (hfits : ∀ request ∈ requests, request.Fits) {rs : List Reservation}
    (hok : allocateAll mmap requests h = .ok (rs, h')) : Separate requests rs h := by
  induction requests generalizing h rs with
  | nil =>
      obtain ⟨rfl, -⟩ := Prod.mk.inj (Except.ok.inj hok)
      exact ⟨.nil, .nil, by simp⟩
  | cons request requests ih =>
      obtain ⟨hfit, hfits⟩ := List.forall_mem_cons.mp hfits
      rcases allocate_cases mmap request h with ⟨-, herr⟩ | ⟨-, h₁, hone, halloc⟩
      · rw [allocateAll, herr] at hok
        cases hok
      have hcur := UserHeap.curPtr_alloc halloc
      have hv₁ := hv.alloc halloc
      rw [allocateAll, hone] at hok
      change (allocateAll mmap requests h₁ >>= _) = _ at hok
      cases hrest : allocateAll mmap requests h₁ with
      | error e =>
          rw [hrest] at hok
          cases hok
      | ok rest =>
          obtain ⟨rs', h''⟩ := rest
          rw [hrest] at hok
          obtain ⟨rfl, rfl⟩ := Prod.mk.inj (Except.ok.inj hok)
          obtain ⟨hin, hdis, hreg⟩ := ih hv₁ hfits hrest
          refine ⟨.cons ?_ hin, .cons (fun r hr => (hreg r hr).2) hdis, ?_⟩
          · rw [request.writes_inside_iff, Nat.mod_eq_of_lt hfit]
            exact le_roundUp8 _
          · refine List.forall_mem_cons.mpr
              ⟨⟨Int.le_trans hv₁.base_le hv₁.limit_le, ?_⟩, fun r hr => ?_⟩
            · dsimp only
              omega
            · have := hreg r hr
              omega

/-- **Allocations are sound exactly when** the rounded size of the object fits an `uint32_t`, or
what is left of it is refused; and the objects of a run in which all sizes fit are separate. -/
theorem userHeap_allocations (mmap : ℤ → Bool) :
    (∀ request h, AllocationSound mmap request h ↔
      request.Fits ∨ UserHeap.Refuses mmap h (roundUp8 request.size % 2 ^ 32)) ∧
    ∀ requests rs h', (∀ request ∈ requests, Request.Fits request) →
      allocateAll mmap requests .initial = .ok (rs, h') → Separate requests rs .initial :=
  ⟨allocationSound_iff mmap, fun _ _ _ hfits hok =>
    allocateAll_separate UserHeap.initial_valid hfits hok⟩

/-- Two small arrays. -/
theorem userHeap_allocations_two_arrays :
    Separate [.array 1, .array 2]
      [⟨-(vmBaseOffset - vmUserHeapSize) - 24, 24⟩, ⟨-(vmBaseOffset - vmUserHeapSize) - 56, 32⟩]
      .initial :=
  (userHeap_allocations fun _ => true).2 _ _
    ⟨-(vmBaseOffset - vmUserHeapSize) - 56, -(vmBaseOffset - vmUserHeapSize) - 65536⟩
    (by decide) rfl

/-- An array of `2 ^ 29 - 1` elements is given eight bytes. -/
theorem not_allocationSound_large_array :
    ¬ AllocationSound (fun _ => true) (.array 536870911) .initial := by
  rw [allocationSound_iff]
  rintro (hfit | ⟨-, hbase | hmap⟩)
  · exact absurd hfit (by decide)
  · exact absurd hbase (by decide)
  · cases hmap

end Runs

end Dsom
