import Dsom.Jit.MemoryPages

/-!
# Jit/MemoryRanges — the extents that come from the system

Pages are cut from ranges of 16MB that are reserved one after the other; a large allocation is
mapped on its own.  All of these are apart (`Ranges`), so that pages and large allocations never
meet.
-/

namespace Dsom

namespace JitMemory

open Extent

namespace Allocator

/-- The pages that are in use: the parts of the reserved ranges that are not still to be handed
out. -/
def IsPage (s : Allocator) (p : ℕ) : Prop :=
  p % pageSize = 0 ∧ (∃ r ∈ s.unmapList, r ≤ p ∧ p < r + reserveRangeSize)
    ∧ ¬ (s.reservedRangeCur ≤ p ∧ p < s.reservedRangeEnd)

/-- The extents of the reserved ranges and of the large allocations. -/
def extents (s : Allocator) (large : List ℕ) : List (ℕ × ℕ) :=
  s.unmapList.map (fun r => (r, reserveRangeSize)) ++ large.map fun b => (b, s.largeSize b)

/-- **What is mapped**: the reserved ranges and the large allocations `large`, all apart. -/
structure Ranges (s : Allocator) (large : List ℕ) : Prop where
  perm : s.mapped.Perm (s.extents large)
  apart : s.mapped.Pairwise Apart
  bounds : ∀ x ∈ s.mapped, x.1 % pageSize = 0 ∧ 0 < x.1 ∧ x.1 + x.2 ≤ 2 ^ 64
  cur_mod : s.reservedRangeCur % pageSize = 0
  cur : s.reservedRangeCur = s.reservedRangeEnd ∨ s.reservedRangeCur < s.reservedRangeEnd
    ∧ ∃ r ∈ s.unmapList, r ≤ s.reservedRangeCur ∧ s.reservedRangeEnd = r + reserveRangeSize
  os : s.totalOsMemoryUsage
      + (BitVec.ofNat 64 s.reservedRangeEnd - BitVec.ofNat 64 s.reservedRangeCur)
    = BitVec.ofNat 64 (s.unmapList.length * reserveRangeSize + (large.map s.largeSize).sum)

namespace Ranges

variable {s s' : Allocator} {large : List ℕ} {p p' r b b' : ℕ}

theorem mem_mapped (h : Ranges s large) {x : ℕ × ℕ} :
    x ∈ s.mapped ↔ (∃ r ∈ s.unmapList, (r, reserveRangeSize) = x)
      ∨ ∃ b ∈ large, (b, s.largeSize b) = x := by
  rw [h.perm.mem_iff, extents, List.mem_append, List.mem_map, List.mem_map]

theorem range_mem (h : Ranges s large) (hr : r ∈ s.unmapList) : (r, reserveRangeSize) ∈ s.mapped :=
  h.mem_mapped.mpr (.inl ⟨r, hr, rfl⟩)

theorem large_mem (h : Ranges s large) (hb : b ∈ large) : (b, s.largeSize b) ∈ s.mapped :=
  h.mem_mapped.mpr (.inr ⟨b, hb, rfl⟩)

/-- The extents do not meet. -/
theorem pairwise (h : Ranges s large) : (s.extents large).Pairwise Apart :=
  (h.perm.pairwise_iff fun hxy => hxy.symm).mp h.apart

/-- A range and a large allocation do not meet. -/
theorem apart_range_large (h : Ranges s large) (hr : r ∈ s.unmapList) (hb : b ∈ large) :
    Apart (r, reserveRangeSize) (b, s.largeSize b) :=
  (List.pairwise_append.mp h.pairwise).2.2 _ (List.mem_map_of_mem hr) _ (List.mem_map_of_mem hb)

/-- Nor do two large allocations. -/
theorem apart_large (h : Ranges s large) (hb : b ∈ large) (hb' : b' ∈ large) (hne : b ≠ b') :
    Apart (b, s.largeSize b) (b', s.largeSize b') :=
  h.apart.forall (h.large_mem hb) (h.large_mem hb') fun heq => hne (congrArg Prod.fst heq)

/-- A page is a part of a reserved range. -/
theorem exists_range (h : Ranges s large) (hp : s.IsPage p) :
    ∃ r ∈ s.unmapList, Within (p, pageSize) (r, reserveRangeSize) := by
  obtain ⟨hmod, ⟨r, hr, hle, hlt⟩, -⟩ := hp
  have hrmod := (h.bounds _ (h.range_mem hr)).1
  refine ⟨r, hr, hle, ?_⟩
  simp only [pageSize, reserveRangeSize] at hmod hlt hrmod ⊢
  omega

/-- Nor do a page and a large allocation. -/
theorem apart_page_large (h : Ranges s large) (hp : s.IsPage p) (hb : b ∈ large) :
    Apart (p, pageSize) (b, s.largeSize b) := by
  obtain ⟨r, hr, hw⟩ := h.exists_range hp
  exact (h.apart_range_large hr hb).within hw ⟨le_rfl, le_rfl⟩

end Ranges

/-- Pages that are not the same are apart. -/
theorem apart_pages {p p' : ℕ} (hp : p % pageSize = 0) (hp' : p' % pageSize = 0) (hne : p ≠ p') :
    Apart (p, pageSize) (p', pageSize) := by
  simp only [Apart, pageSize] at hp hp' ⊢
  omega

/-! ## Mapping

Every extent that is mapped is a reserved range or a large allocation. -/

section Mapping

variable {s s' : Allocator} {large : List ℕ} {p addr length size b : ℕ}

/-- What a successful `mmap` does. -/
theorem of_mmap (h : s.mmap addr length = some s') :
    s' = { s with mapped := (addr, length) :: s.mapped } ∧ addr % pageSize = 0 ∧ 0 < addr
      ∧ addr + length ≤ 2 ^ 64 ∧ ∀ x ∈ s.mapped, Apart (addr, length) x := by
  rw [mmap] at h
  split_ifs at h with hfree
  exact ⟨(Option.some.inj h).symm, hfree⟩

/-- What `AllocateUninitalizedPage` leaves alone. -/
structure SameMemory (s s' : Allocator) : Prop where
  freeList : s'.freeList = s.freeList
  totalUsedMemory : s'.totalUsedMemory = s.totalUsedMemory
  linkNext : s'.linkNext = s.linkNext
  linkPrev : s'.linkPrev = s.linkPrev
  cellSize : s'.cellSize = s.cellSize
  header : s'.header = s.header
  largeSize : s'.largeSize = s.largeSize
  cellLink : s'.cellLink = s.cellLink

/-- A reservation, when the last range has been used up. -/
theorem Ranges.reserve (h : Ranges s large) (hcur : s.reservedRangeCur = s.reservedRangeEnd)
    (hmod : addr % pageSize = 0) (hpos : 0 < addr) (hend : addr + reserveRangeSize ≤ 2 ^ 64)
    (hfree : ∀ x ∈ s.mapped, Apart (addr, reserveRangeSize) x) :
    let t := { s with
      mapped := (addr, reserveRangeSize) :: s.mapped
      reservedRangeCur := addr
      reservedRangeEnd := addr + reserveRangeSize
      unmapList := s.unmapList ++ [addr] }
    Ranges t large ∧ ∀ q, t.IsPage q ↔ s.IsPage q := by
  intro t
  refine ⟨⟨?_, List.pairwise_cons.mpr ⟨hfree, h.apart⟩,
    List.forall_mem_cons.mpr ⟨⟨hmod, hpos, hend⟩, h.bounds⟩, hmod, ?_, ?_⟩, fun q => ?_⟩
  · have hext : t.extents large = s.unmapList.map (fun r => (r, reserveRangeSize))
        ++ (addr, reserveRangeSize) :: large.map fun b => (b, s.largeSize b) := by
      simp [t, extents]
    rw [hext]
    exact (h.perm.cons _).trans List.perm_middle.symm
  · exact .inr ⟨Nat.lt_add_of_pos_right (by decide), addr, by simp [t], le_rfl, rfl⟩
  · have hos := h.os
    rw [hcur, BitVec.sub_self, BitVec.add_zero] at hos
    change s.totalOsMemoryUsage + (BitVec.ofNat 64 (addr + reserveRangeSize) - BitVec.ofNat 64 addr)
      = BitVec.ofNat 64 ((s.unmapList ++ [addr]).length * reserveRangeSize
        + (large.map s.largeSize).sum)
    rw [List.length_append, List.length_singleton, hos]
    generalize reserveRangeSize = n
    rw [Nat.add_mul, Nat.one_mul, Nat.add_right_comm, BitVec.ofNat_add addr,
      BitVec.add_comm (BitVec.ofNat 64 addr), BitVec.add_sub_cancel, ← BitVec.ofNat_add]
  · have hsub : ¬ (s.reservedRangeCur ≤ q ∧ q < s.reservedRangeEnd) := by omega
    refine and_congr_right fun _ => ⟨fun ⟨⟨r, hr, hle, hlt⟩, hnot⟩ => ⟨?_, hsub⟩,
      fun ⟨⟨r, hr, hle, hlt⟩, _⟩ => ⟨⟨r, List.mem_append_left _ hr, hle, hlt⟩, ?_⟩⟩
    · rcases List.mem_append.mp hr with hr | hr
      · exact ⟨r, hr, hle, hlt⟩
      · obtain rfl := List.mem_singleton.mp hr
        exact absurd ⟨hle, hlt⟩ hnot
    · rintro ⟨hle', hlt'⟩
      change addr ≤ q at hle'
      change q < addr + reserveRangeSize at hlt'
      rcases hfree _ (h.range_mem hr) with hap | hap <;> simp only at hap <;> omega

/-- A page is cut from the range. -/
theorem Ranges.cut (h : Ranges s large) (hlt : s.reservedRangeCur < s.reservedRangeEnd)
    (hs' : s' = { s with
      reservedRangeCur := s.reservedRangeCur + pageSize
      totalOsMemoryUsage := s.totalOsMemoryUsage + BitVec.ofNat 64 pageSize }) :
    Ranges s' large ∧ ¬ s.IsPage s.reservedRangeCur
      ∧ ∀ q, s'.IsPage q ↔ s.IsPage q ∨ q = s.reservedRangeCur := by
  have hmapped : s'.mapped = s.mapped := by rw [hs']
  have hunmap : s'.unmapList = s.unmapList := by rw [hs']
  have hsize : s'.largeSize = s.largeSize := by rw [hs']
  have hcur' : s'.reservedRangeCur = s.reservedRangeCur + pageSize := by rw [hs']
  have hend' : s'.reservedRangeEnd = s.reservedRangeEnd := by rw [hs']
  have hos : s'.totalOsMemoryUsage = s.totalOsMemoryUsage + BitVec.ofNat 64 pageSize := by rw [hs']
  obtain hcur | ⟨-, r, hr, hle, hend⟩ := h.cur
  · omega
  have hmod := h.cur_mod
  have hrmod := (h.bounds _ (h.range_mem hr)).1
  have hroom : s.reservedRangeCur + pageSize ≤ s.reservedRangeEnd := by
    simp only [pageSize, reserveRangeSize] at hmod hrmod hend ⊢
    omega
  refine ⟨⟨?_, ?_, ?_, ?_, ?_, ?_⟩, fun hp => hp.2.2 ⟨le_rfl, hlt⟩, fun q => ?_⟩
  · rw [extents, hmapped, hunmap, hsize]
    exact h.perm
  · rw [hmapped]
    exact h.apart
  · rw [hmapped]
    exact h.bounds
  · rw [hcur', Nat.add_mod_right, hmod]
  · rw [hcur', hend', hunmap]
    rcases hroom.eq_or_lt with heq | hlt'
    · exact .inl heq
    · exact .inr ⟨hlt', r, hr, hle.trans (Nat.le_add_right _ _), hend⟩
  · rw [hos, hcur', hend', hunmap, hsize, ← h.os, BitVec.ofNat_add s.reservedRangeCur]
    generalize BitVec.ofNat 64 pageSize = a
    generalize BitVec.ofNat 64 s.reservedRangeCur = b
    generalize BitVec.ofNat 64 s.reservedRangeEnd = c
    generalize s.totalOsMemoryUsage = d
    grind
  · rw [IsPage, IsPage, hunmap, hcur', hend']
    constructor
    · rintro ⟨hq, hin, hnot⟩
      by_cases heq : q = s.reservedRangeCur
      · exact .inr heq
      · refine .inl ⟨hq, hin, fun hcut => hnot ⟨?_, hcut.2⟩⟩
        have hle' := hcut.1
        simp only [pageSize] at hq hmod ⊢
        omega
    · rintro (⟨hq, hin, hnot⟩ | rfl)
      · exact ⟨hq, hin, fun hcut => hnot ⟨(Nat.le_add_right _ _).trans hcut.1, hcut.2⟩⟩
      · refine ⟨hmod, ⟨r, hr, hle, hlt.trans_eq hend⟩, fun hcut => ?_⟩
        have hle' := hcut.1
        simp only [pageSize] at hle'
        omega

/-- **`AllocateUninitalizedPage`** takes a page that was not in use. -/
theorem Ranges.allocateUninitalizedPage (h : Ranges s large)
    (heq : s.allocateUninitalizedPage addr = some (p, s')) :
    Ranges s' large ∧ SameMemory s s' ∧ ¬ s.IsPage p ∧ ∀ q, s'.IsPage q ↔ s.IsPage q ∨ q = p := by
  rw [Allocator.allocateUninitalizedPage] at heq
  by_cases hcur : s.reservedRangeCur = s.reservedRangeEnd
  · simp only [if_pos hcur, Option.bind_eq_bind, Option.bind_some, Option.bind_eq_some_iff,
      Option.some.injEq, Prod.mk.injEq] at heq
    obtain ⟨t, ht, rfl, hs'⟩ := heq
    obtain ⟨rfl, hmod, hpos, hend, hfree⟩ := of_mmap ht
    obtain ⟨hranges, hpage⟩ := h.reserve hcur hmod hpos hend hfree
    obtain ⟨hranges', hnot, hpage'⟩ := hranges.cut (Nat.lt_add_of_pos_right (by decide)) hs'.symm
    refine ⟨hranges', ?_, fun hp => hnot ((hpage _).mpr hp), fun q => ?_⟩
    · rw [← hs']
      exact ⟨rfl, rfl, rfl, rfl, rfl, rfl, rfl, rfl⟩
    · rw [hpage', hpage]
  · simp only [if_neg hcur, Option.bind_eq_bind, Option.bind_some, Option.some.injEq,
      Prod.mk.injEq] at heq
    obtain ⟨rfl, hs'⟩ := heq
    have hlt : s.reservedRangeCur < s.reservedRangeEnd :=
      h.cur.elim (fun heq => absurd heq hcur) And.left
    obtain ⟨hranges, hnot, hpage⟩ := h.cut hlt hs'.symm
    refine ⟨hranges, ?_, hnot, hpage⟩
    rw [← hs']
    exact ⟨rfl, rfl, rfl, rfl, rfl, rfl, rfl, rfl⟩

/-- What operations on cells leave alone. -/
structure SameExtents (s s' : Allocator) : Prop where
  totalOsMemoryUsage : s'.totalOsMemoryUsage = s.totalOsMemoryUsage
  reservedRangeCur : s'.reservedRangeCur = s.reservedRangeCur
  reservedRangeEnd : s'.reservedRangeEnd = s.reservedRangeEnd
  unmapList : s'.unmapList = s.unmapList
  linkNext : s'.linkNext = s.linkNext
  linkPrev : s'.linkPrev = s.linkPrev
  largeSize : s'.largeSize = s.largeSize
  mapped : s'.mapped = s.mapped

/-- The pages depend on the ranges. -/
theorem isPage_congr (hunmap : s'.unmapList = s.unmapList)
    (hcur : s'.reservedRangeCur = s.reservedRangeCur)
    (hend : s'.reservedRangeEnd = s.reservedRangeEnd) (p : ℕ) : s'.IsPage p ↔ s.IsPage p := by
  rw [IsPage, IsPage, hunmap, hcur, hend]

theorem SameExtents.isPage (h : SameExtents s s') : ∀ p, s'.IsPage p ↔ s.IsPage p :=
  isPage_congr h.unmapList h.reservedRangeCur h.reservedRangeEnd

/-- Only the extents matter. -/
theorem Ranges.congr (h : Ranges s large) (hsame : SameExtents s s') : Ranges s' large := by
  refine ⟨?_, ?_, ?_, ?_, ?_, ?_⟩
  · rw [extents, hsame.mapped, hsame.unmapList, hsame.largeSize]
    exact h.perm
  · rw [hsame.mapped]
    exact h.apart
  · rw [hsame.mapped]
    exact h.bounds
  · rw [hsame.reservedRangeCur]
    exact h.cur_mod
  · rw [hsame.reservedRangeCur, hsame.reservedRangeEnd, hsame.unmapList]
    exact h.cur
  · rw [hsame.totalOsMemoryUsage, hsame.reservedRangeCur, hsame.reservedRangeEnd, hsame.unmapList,
      hsame.largeSize]
    exact h.os

/-- An extent that is new begins neither a page nor a large allocation. -/
theorem Ranges.not_isPage (h : Ranges s large) (hlt : 0 < length)
    (hfree : ∀ x ∈ s.mapped, Apart (addr, length) x) : ¬ s.IsPage addr := fun hp => by
  obtain ⟨r, hr, hw⟩ := h.exists_range hp
  rcases (hfree _ (h.range_mem hr)).within ⟨le_rfl, le_rfl⟩ hw with hap | hap <;>
    simp only [pageSize] at hap <;> omega

/-- A new extent is no large allocation yet. -/
theorem Ranges.not_mem_large (h : Ranges s large) (hlt : 0 < length)
    (hfree : ∀ x ∈ s.mapped, Apart (addr, length) x) (hsize : ∀ b ∈ large, 0 < s.largeSize b) :
    addr ∉ large := fun hb => by
  have hpos := hsize addr hb
  rcases hfree _ (h.large_mem hb) with hap | hap <;> simp only at hap <;> omega

/-- A large allocation is mapped. -/
theorem Ranges.cons (h : Ranges s large) (hmapped : s'.mapped = (addr, size) :: s.mapped)
    (hunmap : s'.unmapList = s.unmapList) (hcur : s'.reservedRangeCur = s.reservedRangeCur)
    (hend : s'.reservedRangeEnd = s.reservedRangeEnd)
    (hos : s'.totalOsMemoryUsage = s.totalOsMemoryUsage + BitVec.ofNat 64 size)
    (hsize : s'.largeSize = Function.update s.largeSize addr size) (hnew : addr ∉ large)
    (hmod : addr % pageSize = 0) (hpos : 0 < addr) (hle : addr + size ≤ 2 ^ 64)
    (hfree : ∀ x ∈ s.mapped, Apart (addr, size) x) : Ranges s' (addr :: large) := by
  have hold : ∀ b ∈ large, s'.largeSize b = s.largeSize b := fun b hb => by
    rw [hsize, Function.update_of_ne (ne_of_mem_of_not_mem hb hnew)]
  have hself : s'.largeSize addr = size := by rw [hsize, Function.update_self]
  refine ⟨?_, ?_, ?_, ?_, ?_, ?_⟩
  · have hext : s'.extents (addr :: large) = s.unmapList.map (fun r => (r, reserveRangeSize))
        ++ (addr, size) :: large.map fun b => (b, s.largeSize b) := by
      rw [extents, hunmap, List.map_cons, hself]
      exact congrArg _ (congrArg _ (List.map_congr_left fun b hb => by rw [hold b hb]))
    rw [hmapped, hext]
    exact (h.perm.cons _).trans List.perm_middle.symm
  · rw [hmapped]
    exact List.pairwise_cons.mpr ⟨hfree, h.apart⟩
  · rw [hmapped]
    exact List.forall_mem_cons.mpr ⟨⟨hmod, hpos, hle⟩, h.bounds⟩
  · rw [hcur]
    exact h.cur_mod
  · rw [hcur, hend, hunmap]
    exact h.cur
  · rw [List.map_cons, List.sum_cons, hself, List.map_congr_left hold, Nat.add_left_comm,
      BitVec.ofNat_add, hunmap, ← h.os, hos, hcur, hend, BitVec.add_comm (BitVec.ofNat 64 size),
      BitVec.add_assoc, BitVec.add_assoc, BitVec.add_comm (BitVec.ofNat 64 size)]

/-- A large allocation is unmapped. -/
theorem Ranges.erase (h : Ranges s large) (hb : b ∈ large)
    (hmapped : s'.mapped = s.mapped.erase (b, s.largeSize b))
    (hunmap : s'.unmapList = s.unmapList) (hcur : s'.reservedRangeCur = s.reservedRangeCur)
    (hend : s'.reservedRangeEnd = s.reservedRangeEnd)
    (hos : s'.totalOsMemoryUsage = s.totalOsMemoryUsage - BitVec.ofNat 64 (s.largeSize b))
    (hsize : s'.largeSize = s.largeSize) : Ranges s' (large.erase b) := by
  have hperm := List.perm_cons_erase hb
  have hmap : (large.map s.largeSize).sum
      = s.largeSize b + ((large.erase b).map s.largeSize).sum :=
    (hperm.map s.largeSize).sum_eq
  refine ⟨?_, ?_, ?_, ?_, ?_, ?_⟩
  · rw [hmapped, extents, hunmap, hsize]
    have hext : (s.extents large).Perm ((b, s.largeSize b) ::
        (s.unmapList.map (fun r => (r, reserveRangeSize))
          ++ (large.erase b).map fun b => (b, s.largeSize b))) :=
      ((hperm.map fun b => (b, s.largeSize b)).append_left _).trans List.perm_middle
    have herase := (h.perm.trans hext).erase (b, s.largeSize b)
    rwa [List.erase_cons_head] at herase
  · rw [hmapped]
    exact h.apart.sublist List.erase_sublist
  · rw [hmapped]
    exact fun x hx => h.bounds x (List.mem_of_mem_erase hx)
  · rw [hcur]
    exact h.cur_mod
  · rw [hcur, hend, hunmap]
    exact h.cur
  · have hos' := h.os
    rw [hmap, Nat.add_left_comm, BitVec.ofNat_add (s.largeSize b)] at hos'
    rw [hos, hcur, hend, hunmap, hsize]
    generalize BitVec.ofNat 64 s.reservedRangeEnd - BitVec.ofNat 64 s.reservedRangeCur = a at *
    generalize BitVec.ofNat 64 (s.largeSize b) = c at *
    grind

end Mapping

end Allocator

end JitMemory

end Dsom
