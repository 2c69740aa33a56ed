import Dsom.Jit.MemorySteps
import Mathlib.Tactic.NormNum

/-!
# Jit/MemoryRuns — the allocator over whole runs

A run is a sequence of allocations, of calls of `Free` for what is live, and of writes by the owners
to their allocations (`Reachable`).  What a run keeps is stated without the invariant (`Correct`).

`DoLargeAllocation` adds the header to the size, and rounds up, in 64 bits.  A size that is too
close to `2 ^ 64` wraps around, and less memory is mapped than was asked for
(`not_correct_of_reachable`).
-/

namespace Dsom

namespace JitMemory

open Extent

namespace Allocator

/-- **The runs**, from a new allocator, and the allocations that are live at the end with the sizes
asked for.  The sizes that `AllocateGivenSize` is called with are those in `Fits`. -/
inductive Reachable (Fits : ℕ → Prop) : Allocator → List (ℕ × ℕ) → Prop
  | create (cellSize : ℕ → ℕ) (header : ℕ → PageHeader) (largeSize cellLink : ℕ → ℕ)
      (next prev : Option ℕ → Option ℕ) :
      Reachable Fits (create cellSize header largeSize cellLink next prev) []
  | allocateGivenSize {s s' : Allocator} {live : List (ℕ × ℕ)} {wantedSize addr a : ℕ} :
      Reachable Fits s live → Fits wantedSize →
      s.allocateGivenSize wantedSize addr = some (a, s') →
      Reachable Fits s' ((a, wantedSize) :: live)
  | allocateGivenStepping {s s' : Allocator} {live : List (ℕ × ℕ)} {wantedStepping addr a : ℕ} :
      Reachable Fits s live → wantedStepping < totalSteppings →
      s.allocateGivenStepping wantedStepping addr = some (a, s') →
      Reachable Fits s' ((a, cellSizeOf wantedStepping) :: live)
  | free {s : Allocator} {live : List (ℕ × ℕ)} {x : ℕ × ℕ} :
      Reachable Fits s live → x ∈ live → Reachable Fits (s.free x.1) (live.erase x)
  | write {s : Allocator} {live : List (ℕ × ℕ)} {link : ℕ → ℕ} :
      Reachable Fits s live →
      (∀ a, (∀ x ∈ live, Apart (a, 2) (s.block x.1)) → link a = s.cellLink a) →
      Reachable Fits { s with cellLink := link } live

/-- **What the allocator promises**, when `live` are the live allocations. -/
structure Correct (s : Allocator) (live : List (ℕ × ℕ)) : Prop where
  aligned : ∀ x ∈ live, x.1 % 16 = 0
  fits : ∀ x ∈ live, x.2 ≤ (s.block x.1).2
  mapped : ∀ x ∈ live, ∃ y ∈ s.mapped, Within (s.block x.1) y
  apart : (live.map fun x => s.block x.1).Pairwise Apart
  apart_page : ∀ x ∈ live, ∀ p, s.IsPage p → Apart (p, pageHeaderSize) (s.block x.1)
  apart_large : ∀ x ∈ live, ∀ y ∈ live, s.cellSize (headerOf y.1) = 0 →
    Apart (headerOf y.1, largeHeaderSize) (s.block x.1)
  lists : ∀ k < totalSteppings, ∃ Q,
    Chain.IsLinked (fun p => (s.header p).nextPage) (s.freeList k) Q ∧ Q.Nodup
      ∧ ∀ p, p ∈ Q ↔ s.IsPage p ∧ (s.header p).cellSizeStepping = k
        ∧ ∃ off ∈ cells (s.cellSize p), p + off ∉ live.map Prod.fst
  used : s.totalUsedMemory.toNat = (live.map fun x => (s.charge x.1).2).sum
  shutdown : ∀ fuel, live.length ≤ fuel →
    ∃ s', s.shutdown fuel = some s' ∧ s'.totalOsMemoryUsage = 0 ∧ s'.mapped = []

/-! ## Shutdown -/

section Shutdown

variable {s s' : Allocator} {live : List (ℕ × ℕ)} {large : List ℕ} {fuel : ℕ}

/-- **All large allocations are freed.** -/
theorem Inv.freeLargeAllocations (h : Inv s live large) (hfuel : large.length ≤ fuel) :
    ∃ s' live', freeLargeAllocations fuel s = some s' ∧ Inv s' live' [] := by
  induction large generalizing s live fuel with
  | nil =>
    refine ⟨s, live, ?_, h⟩
    unfold Allocator.freeLargeAllocations
    rw [h.larges.ring.1]
  | cons b rest ih =>
    obtain ⟨fuel, rfl⟩ : ∃ n, fuel = n + 1 := ⟨fuel - 1, by simp at hfuel; omega⟩
    obtain ⟨x, hx, heq⟩ := List.mem_map.mp (h.live_of_large b List.mem_cons_self)
    have hfree := h.freeLarge hx List.mem_cons_self heq
    rw [List.erase_cons_head, heq] at hfree
    unfold Allocator.freeLargeAllocations
    rw [h.larges.ring.1]
    exact ih hfree (Nat.le_of_succ_le_succ hfuel)

/-- The ranges are unmapped. -/
theorem unmap_ranges {l : List ℕ} (h : s.mapped.Perm (l.map fun r => (r, reserveRangeSize))) :
    let s' := l.foldl (fun s ptr => { s.munmap ptr reserveRangeSize with
      totalOsMemoryUsage := s.totalOsMemoryUsage - BitVec.ofNat 64 reserveRangeSize }) s
    s'.mapped = [] ∧ s'.totalOsMemoryUsage
      = s.totalOsMemoryUsage - BitVec.ofNat 64 (l.length * reserveRangeSize) := by
  induction l generalizing s with
  | nil => exact ⟨h.eq_nil, by simp⟩
  | cons r l ih =>
    have herase := h.erase (r, reserveRangeSize)
    rw [List.map_cons, List.erase_cons_head] at herase
    obtain ⟨hmapped, hos⟩ := @ih { s.munmap r reserveRangeSize with
      totalOsMemoryUsage := s.totalOsMemoryUsage - BitVec.ofNat 64 reserveRangeSize } herase
    refine ⟨hmapped, hos.trans ?_⟩
    rw [List.length_cons, Nat.add_mul, Nat.one_mul, Nat.add_comm, BitVec.ofNat_add, BitVec.sub_sub]

/-- **`Shutdown`** gives everything back. -/
theorem Inv.shutdown (h : Inv s live large) (hfuel : large.length ≤ fuel) :
    ∃ s', s.shutdown fuel = some s' ∧ s'.totalOsMemoryUsage = 0 ∧ s'.mapped = [] := by
  obtain ⟨t, live', ht, hinv⟩ := h.freeLargeAllocations hfuel
  have hperm : t.mapped.Perm (t.unmapList.map fun r => (r, reserveRangeSize)) := by
    simpa [extents] using hinv.ranges.perm
  have hos := hinv.ranges.os
  obtain ⟨hmapped, hos'⟩ := @unmap_ranges { t with
    totalOsMemoryUsage := t.totalOsMemoryUsage
      + (BitVec.ofNat 64 t.reservedRangeEnd - BitVec.ofNat 64 t.reservedRangeCur) } _ hperm
  refine ⟨_, ?_, hos'.trans ?_, hmapped⟩
  · rw [Allocator.shutdown, ht]
    rfl
  · rw [List.map_nil, List.sum_nil, Nat.add_zero] at hos
    change t.totalOsMemoryUsage
      + (BitVec.ofNat 64 t.reservedRangeEnd - BitVec.ofNat 64 t.reservedRangeCur) - _ = 0
    rw [hos, BitVec.sub_self]
    rfl

end Shutdown

/-! ## Runs -/

section Runs

variable {s : Allocator} {live : List (ℕ × ℕ)} {large : List ℕ}

/-- The invariant holds of a new allocator. -/
theorem inv_create (cellSize : ℕ → ℕ) (header : ℕ → PageHeader) (largeSize cellLink : ℕ → ℕ)
    (next prev : Option ℕ → Option ℕ) :
    Inv (create cellSize header largeSize cellLink next prev) [] [] where
  ranges := ⟨.refl _, .nil, by simp [create], rfl, .inl rfl, by simp [create]⟩
  larges := ⟨by simp [create, Ring.Path], .nil, by simp, by simp⟩
  pages := by
    have hpage : ∀ p, ¬ (create cellSize header largeSize cellLink next prev).IsPage p :=
      fun p hp => by simpa [create] using hp.2.1
    exact ⟨fun p hp => absurd hp (hpage p), fun k _ => ⟨[], rfl, .nil, fun p =>
      ⟨fun hp => absurd hp (by simp), fun hp => absurd hp.1 (hpage p)⟩⟩⟩
  nodup := .nil
  backed := by simp
  live_of_large := by simp
  used := rfl

/-- **The invariant holds along every run**, when no size wraps around. -/
theorem exists_inv (h : Reachable (fun size => size + 4128 ≤ 2 ^ 64) s live) :
    ∃ large, Inv s live large := by
  induction h with
  | create cellSize header largeSize cellLink next prev => exact ⟨[], inv_create ..⟩
  | allocateGivenSize _ hfits heq ih =>
    obtain ⟨large, hinv⟩ := ih
    exact hinv.allocateGivenSize hfits heq
  | allocateGivenStepping _ hk heq ih =>
    obtain ⟨large, hinv⟩ := ih
    exact ⟨large, hinv.allocateGivenStepping hk le_rfl heq⟩
  | free _ hx ih =>
    obtain ⟨large, hinv⟩ := ih
    exact hinv.free hx
  | write _ hlink ih =>
    obtain ⟨large, hinv⟩ := ih
    exact ⟨large, hinv.write hlink⟩

end Runs

/-! ## What the invariant says -/

section Promises

variable {s : Allocator} {live : List (ℕ × ℕ)} {large : List ℕ} {x y : ℕ × ℕ} {p : ℕ}

/-- What is handed out is aligned. -/
theorem Inv.aligned (h : Inv s live large) (hx : x ∈ live) : x.1 % 16 = 0 := by
  rcases h.backed x hx with ⟨p, off, hp, hoff, heq, -⟩ | ⟨b, hb, heq, -⟩
  · have hmod := hp.1
    have hoff16 := mod_of_mem_cells (h.pages.ok p hp).spec.2.2 hoff
    simp only [pageSize] at hmod
    omega
  · have hmod := h.mod_of_large hb
    simp only [pageSize, largeHeaderSize] at hmod heq
    omega

/-- What is handed out is as large as was asked for. -/
theorem Inv.fits (h : Inv s live large) (hx : x ∈ live) : x.2 ≤ (s.block x.1).2 := by
  rcases h.backed x hx with ⟨p, off, hp, hoff, heq, hle⟩ | ⟨b, hb, heq, hle⟩
  · rw [heq, h.block_cell hp hoff]
    exact hle
  · rw [heq, h.block_large hb]
    exact Nat.le_sub_of_add_le hle

/-- What is accounted for an allocation is mapped. -/
theorem Inv.charge_mapped (h : Inv s live large) (hx : x ∈ live) :
    ∃ y ∈ s.mapped, Within (s.charge x.1) y := by
  rcases h.backed x hx with ⟨p, off, hp, hoff, heq, -⟩ | ⟨b, hb, heq, -⟩
  · obtain ⟨r, hr, hw⟩ := h.ranges.exists_range hp
    rw [heq, h.charge_cell hp hoff]
    exact ⟨_, h.ranges.range_mem hr, (cell_within hoff).trans hw⟩
  · rw [heq, h.charge_large hb]
    exact ⟨_, h.ranges.large_mem hb, le_rfl, le_rfl⟩

/-- The allocations are apart, with all that is accounted for them. -/
theorem Inv.pairwise_charge (h : Inv s live large) :
    (live.map fun x => s.charge x.1).Pairwise Apart := by
  have hne : live.Pairwise fun x y => x.1 ≠ y.1 := List.pairwise_map.mp h.nodup
  exact List.pairwise_map.mpr <| hne.imp_of_mem fun {x y} hx hy hxy =>
    h.apart_charge (h.backed x hx) (h.backed y hy) hxy

/-- What is handed out does not meet. -/
theorem Inv.pairwise_block (h : Inv s live large) :
    (live.map fun x => s.block x.1).Pairwise Apart := by
  refine List.pairwise_map.mpr <| (List.pairwise_map.mp h.pairwise_charge).imp_of_mem
    fun {x y} hx hy hxy => ?_
  exact hxy.within (h.block_within (h.backed x hx)) (h.block_within (h.backed y hy))

/-- It does not meet the header of a page. -/
theorem Inv.apart_page (h : Inv s live large) (hx : x ∈ live) (hp : s.IsPage p) :
    Apart (p, pageHeaderSize) (s.block x.1) := by
  rcases h.backed x hx with ⟨q, off, hq, hoff, heq, -⟩ | ⟨b, hb, heq, -⟩
  · rw [heq, h.block_cell hq hoff]
    exact apart_header_cell hp hq hoff
  · have hw := h.block_within (h.backed x hx)
    rw [heq, h.charge_large hb, ← heq] at hw
    refine (h.ranges.apart_page_large hp hb).within ⟨le_rfl, ?_⟩ hw
    simp only [pageHeaderSize, pageSize]
    omega

/-- Nor the header of a large allocation. -/
theorem Inv.apart_large (h : Inv s live large) (hx : x ∈ live) (hy : y ∈ live)
    (hlarge : s.cellSize (headerOf y.1) = 0) :
    Apart (headerOf y.1, largeHeaderSize) (s.block x.1) := by
  rcases h.backed y hy with ⟨q, off, hq, hoff, heq, -⟩ | ⟨b, hb, heq, -⟩
  · rw [heq, h.headerOf_cell hq hoff] at hlarge
    exact absurd hlarge (h.pages.ok q hq).cellSize_ne_zero
  · rw [heq, h.headerOf_large hb]
    have hhdr : Within (b, largeHeaderSize) (b, s.largeSize b) :=
      ⟨le_rfl, Nat.add_le_add_left (h.larges.size b hb).le b⟩
    by_cases hxy : x.1 = y.1
    · rw [hxy, heq, h.block_large hb]
      exact .inl le_rfl
    · have hap := h.apart_charge (h.backed y hy) (h.backed x hx) (Ne.symm hxy)
      rw [heq, h.charge_large hb] at hap
      exact hap.within hhdr (h.block_within (h.backed x hx))

/-- What is accounted does not wrap around. -/
theorem Inv.toNat_used (h : Inv s live large) :
    s.totalUsedMemory.toNat = (live.map fun x => (s.charge x.1).2).sum := by
  have hbounds : ∀ c ∈ (live.map fun x => s.charge x.1), 0 < c.1 ∧ c.1 + c.2 ≤ 2 ^ 64 := by
    rw [List.forall_mem_map]
    intro x hx
    obtain ⟨y, hy, hle, hend⟩ := h.charge_mapped hx
    obtain ⟨-, hpos, hmax⟩ := h.ranges.bounds y hy
    exact ⟨hpos.trans_le hle, hend.trans hmax⟩
  have hpair : ((0, 1) :: live.map fun x => s.charge x.1).Pairwise Apart :=
    List.pairwise_cons.mpr ⟨fun c hc => .inl (hbounds c hc).1, h.pairwise_charge⟩
  have hsum := @sum_length_le _ (2 ^ 64) hpair
    (List.forall_mem_cons.mpr ⟨by simp, fun c hc => (hbounds c hc).2⟩)
  rw [List.map_cons, List.sum_cons, List.map_map, Nat.add_comm] at hsum
  rw [h.used, BitVec.toNat_ofNat, Nat.mod_eq_of_lt]
  exact Nat.lt_of_succ_le hsum

/-- Every large allocation is in use. -/
theorem Inv.length_le (h : Inv s live large) : large.length ≤ live.length := by
  have hsub : large.map (· + largeHeaderSize) ⊆ live.map Prod.fst := fun a ha => by
    obtain ⟨b, hb, rfl⟩ := List.mem_map.mp ha
    exact h.live_of_large b hb
  have hnd : (large.map (· + largeHeaderSize)).Nodup :=
    h.larges.nodup.map (add_left_injective largeHeaderSize)
  simpa using (List.subperm_of_subset hnd hsub).length_le

/-- **The invariant is what the allocator promises.** -/
theorem Inv.correct (h : Inv s live large) : Correct s live where
  aligned _ := h.aligned
  fits _ := h.fits
  mapped x hx := by
    obtain ⟨y, hy, hw⟩ := h.charge_mapped hx
    exact ⟨y, hy, (h.block_within (h.backed x hx)).trans hw⟩
  apart := h.pairwise_block
  apart_page _ hx _ := h.apart_page hx
  apart_large _ hx _ := h.apart_large hx
  lists k hk := by
    obtain ⟨Q, hQ⟩ := h.pages.list k hk
    refine ⟨Q, hQ.linked, hQ.nodup, fun p => ?_⟩
    rw [hQ.mem]
    exact and_congr_right fun hp => and_congr_right fun _ => (h.pages.ok p hp).head_ne_zero_iff
  used := h.toNat_used
  shutdown _ hfuel := h.shutdown (h.length_le.trans hfuel)

end Promises

/-- **The allocator is correct along every run** in which no size is above `2 ^ 64 - 4128`. -/
theorem correct_of_reachable {s : Allocator} {live : List (ℕ × ℕ)}
    (h : Reachable (fun size => size + 4128 ≤ 2 ^ 64) s live) : Correct s live := by
  obtain ⟨large, hinv⟩ := exists_inv h
  exact hinv.correct

/-- A large allocation succeeds where memory can be mapped, for what the size is rounded to. -/
theorem exists_allocateGivenSize {s : Allocator} {size addr n : ℕ}
    (hsize : cellSizeOf (totalSteppings - 1) < size)
    (hn : roundUpTo4096 ((size + largeHeaderSize) % 2 ^ 64) = n) (hmod : addr % pageSize = 0)
    (hpos : 0 < addr) (hend : addr + n ≤ 2 ^ 64) (hfree : ∀ x ∈ s.mapped, Apart (addr, n) x) :
    ∃ s', s.allocateGivenSize size addr = some (addr + largeHeaderSize, s')
      ∧ (s'.block (addr + largeHeaderSize)).2 = n - largeHeaderSize := by
  have hmmap : s.mmap addr n = some { s with mapped := (addr, n) :: s.mapped } :=
    if_pos ⟨hmod, hpos, hend, hfree⟩
  rw [allocateGivenSize, if_pos hsize, doLargeAllocation, hn, hmmap]
  refine ⟨_, rfl, ?_⟩
  simp only [block, headerOf_add hmod (show largeHeaderSize < pageSize by decide),
    Function.update_self, if_true]

/-- The allocator on memory that is all zero. -/
def ofZeros : Allocator :=
  create (fun _ => 0) (fun _ => ⟨0, 0, 0, none⟩) (fun _ => 0) (fun _ => 0) (fun _ => none)
    fun _ => none

/-- A large allocation, which is freed again. -/
theorem correct_of_reachable_free : ∃ a s, ofZeros.allocateGivenSize 10000 16384 = some (a, s)
    ∧ Correct s [(a, 10000)] ∧ Correct (s.free a) [] := by
  have hrun : Reachable (fun size => size + 4128 ≤ 2 ^ 64) ofZeros [] := .create ..
  obtain ⟨s, hs, -⟩ := @exists_allocateGivenSize ofZeros 10000 16384 12288 (by decide) (by decide)
    (by decide) (by decide) (by decide) (by simp [ofZeros, create])
  have hrun' := hrun.allocateGivenSize (by norm_num) hs
  have hrun'' := hrun'.free List.mem_cons_self
  rw [List.erase_cons_head] at hrun''
  exact ⟨_, s, hs, correct_of_reachable hrun', correct_of_reachable hrun''⟩

/-- **A size that wraps around**: 4096 bytes are mapped for a request of `2 ^ 64 - 1`. -/
theorem not_correct_of_reachable :
    ¬ ∀ s live, Reachable (fun size => size < 2 ^ 64) s live → Correct s live := by
  intro hall
  have hrun : Reachable (fun size => size < 2 ^ 64) ofZeros [] := .create ..
  obtain ⟨s, hs, hsize⟩ := @exists_allocateGivenSize ofZeros (2 ^ 64 - 1) 16384 4096 (by decide)
    (by decide) (by decide) (by decide) (by decide) (by simp [ofZeros, create])
  have hcorrect := hall _ _ (hrun.allocateGivenSize (by norm_num) hs)
  have hfits := hcorrect.fits (16384 + largeHeaderSize, 2 ^ 64 - 1) List.mem_cons_self
  rw [hsize] at hfits
  exact absurd hfits (by norm_num [largeHeaderSize])

end Allocator

end JitMemory

end Dsom
