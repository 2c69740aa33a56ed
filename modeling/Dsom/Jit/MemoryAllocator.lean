import Dsom.Foundations.BinarySearch
import Dsom.Foundations.Extents
import Dsom.Foundations.Ring

/-!
# Jit/MemoryAllocator — the allocator of memory for machine code

The segregated allocator of `jit_memory_allocator.h`: pages of 16KB with cells of one size, a list
of pages with free cells for each size, and large allocations of their own.  Headers and the links
of free cells are in the memory; a field is a function of the address it belongs to.

`do_mmap_with_custom_alignment` is asked for an extent, and answers with an address that the
environment chooses.
-/

namespace Dsom

namespace JitMemory

/-! ## Sizes -/

/-- `x_pageSize`. -/
def pageSize : ℕ := 16 * 1024

/-- `x_reserveRangeSize`. -/
def reserveRangeSize : ℕ := 16 * 1024 * 1024

/-- `sizeof(JitMemoryPageHeader)`. -/
def pageHeaderSize : ℕ := 16

/-- `sizeof(JitMemoryLargeAllocationHeader)`. -/
def largeHeaderSize : ℕ := 32

/-- `x_jit_mem_alloc_stepping_array`. -/
def steppingArray : List ℕ :=
  [32, 64, 96, 144, 192, 272, 368, 496, 704, 1008, 1488, 2032, 2720, 3264, 4080, 5456, 8176]

/-- `x_jit_mem_alloc_total_steppings`. -/
def totalSteppings : ℕ := 17

/-- An entry of the array. -/
def cellSizeOf (stepping : ℕ) : ℕ := steppingArray.getD stepping 0

/-- `GetJitMemoryAllocatorSteppingFromSmallAllocationSize`. -/
def steppingFromSmallAllocationSize (smallAllocSize : ℕ) : Option ℕ :=
  BinarySearch.lowerBoundLoop cellSizeOf smallAllocSize totalSteppings 0 (totalSteppings - 1)

/-- `RoundUpToMultipleOf<4096>` of a `size_t`. -/
def roundUpTo4096 (val : ℕ) : ℕ := (val + 4095) % 2 ^ 64 / 4096 * 4096

/-- `JitMemoryPageHeaderBase::Get`: the header of an allocation. -/
def headerOf (addr : ℕ) : ℕ := addr / pageSize * pageSize

/-! ## State

The system's memory is a set of mapped extents, and the words of the pages. -/

/-- The fields of `JitMemoryPageHeader` but the first. -/
structure PageHeader where
  freeListHead : ℕ
  numAllocatedCells : ℕ
  cellSizeStepping : ℕ
  nextPage : Option ℕ

/-- The members of `JitMemoryAllocator`, the headers and links in the memory, and the extents that
are mapped.  `cellSize` is the first field of both kinds of headers; the links of the large
allocations are those of their headers, and `none` is the anchor. -/
structure Allocator where
  freeList : ℕ → Option ℕ
  totalUsedMemory : BitVec 64
  totalOsMemoryUsage : BitVec 64
  reservedRangeCur : ℕ
  reservedRangeEnd : ℕ
  unmapList : List ℕ
  linkNext : Option ℕ → Option ℕ
  linkPrev : Option ℕ → Option ℕ
  cellSize : ℕ → ℕ
  header : ℕ → PageHeader
  largeSize : ℕ → ℕ
  cellLink : ℕ → ℕ
  mapped : List (ℕ × ℕ)

namespace Allocator

/-- The constructor; the memory has any contents. -/
def create (cellSize : ℕ → ℕ) (header : ℕ → PageHeader) (largeSize cellLink : ℕ → ℕ)
    (next prev : Option ℕ → Option ℕ) : Allocator where
  freeList _ := none
  totalUsedMemory := 0
  totalOsMemoryUsage := 0
  reservedRangeCur := 0
  reservedRangeEnd := 0
  unmapList := []
  linkNext := Function.update next none none
  linkPrev := Function.update prev none none
  cellSize := cellSize
  header := header
  largeSize := largeSize
  cellLink := cellLink
  mapped := []

variable (s : Allocator)

/-- `do_mmap_with_custom_alignment`: `addr` must be aligned, and the extent free. -/
def mmap (addr length : ℕ) : Option Allocator :=
  if addr % pageSize = 0 ∧ 0 < addr ∧ addr + length ≤ 2 ^ 64
      ∧ ∀ x ∈ s.mapped, Extent.Apart (addr, length) x then
    some { s with mapped := (addr, length) :: s.mapped }
  else none

/-- `do_munmap`. -/
def munmap (addr length : ℕ) : Allocator :=
  { s with mapped := s.mapped.erase (addr, length) }

/-! ## Pages

A page has cells of one size, in a free list that starts in its header. -/

/-- `AllocateUninitalizedPage`. -/
def allocateUninitalizedPage (addr : ℕ) : Option (ℕ × Allocator) := do
  let s ←
    if s.reservedRangeCur = s.reservedRangeEnd then do
      let s ← s.mmap addr reserveRangeSize
      some { s with
        reservedRangeCur := addr
        reservedRangeEnd := addr + reserveRangeSize
        unmapList := s.unmapList ++ [addr] }
    else some s
  some (s.reservedRangeCur, { s with
    reservedRangeCur := s.reservedRangeCur + pageSize
    totalOsMemoryUsage := s.totalOsMemoryUsage + BitVec.ofNat 64 pageSize })

/-- The loop of `Initialize` that links the cells, with `fuel` for it. -/
def initializeCells (cellSize addrEnd : ℕ) : ℕ → ℕ → (ℕ → ℕ) → (ℕ → ℕ)
  | 0, _, link => link
  | fuel + 1, curCellPtr, link =>
    let addr := curCellPtr + cellSize
    if addr + cellSize ≤ addrEnd then
      initializeCells cellSize addrEnd fuel addr
        (Function.update link curCellPtr (addr % pageSize))
    else Function.update link curCellPtr 0

/-- `JitMemoryPageHeader::Initialize`. -/
def initializePage (page cellSizeStepping : ℕ) (nextPage : Option ℕ) : Allocator :=
  { s with
    cellSize := Function.update s.cellSize page (cellSizeOf cellSizeStepping)
    header := Function.update s.header page ⟨pageHeaderSize, 0, cellSizeStepping, nextPage⟩
    cellLink := initializeCells (cellSizeOf cellSizeStepping) (page + pageSize) pageSize
      (page + pageHeaderSize) s.cellLink }

/-- `AllocateNewPageForStepping`. -/
def allocateNewPageForStepping (stepping addr : ℕ) : Option (ℕ × Allocator) := do
  let (newPage, s) ← s.allocateUninitalizedPage addr
  let s := s.initializePage newPage stepping none
  some (newPage, { s with freeList := Function.update s.freeList stepping (some newPage) })

/-- `AllocateCell`. -/
def allocateCell (page : ℕ) : ℕ × Allocator :=
  let hdr := s.header page
  let res := page + hdr.freeListHead
  (res, { s with
    header := Function.update s.header page { hdr with
      freeListHead := s.cellLink res
      numAllocatedCells := hdr.numAllocatedCells + 1 } })

/-- `AllocateGivenStepping` from where there is a page: a cell of the page, which is taken off its
list when it is full. -/
def takeCell (freelist wantedStepping : ℕ) : ℕ × Allocator :=
  let (res, s) := s.allocateCell freelist
  let s :=
    if (s.header freelist).freeListHead = 0 then
      { s with
        header := Function.update s.header freelist { s.header freelist with nextPage := none }
        freeList := Function.update s.freeList wantedStepping (s.header freelist).nextPage }
    else s
  (res, { s with
    totalUsedMemory := s.totalUsedMemory + BitVec.ofNat 64 (cellSizeOf wantedStepping) })

/-- `AllocateGivenStepping`; `addr` is where memory is mapped if it has to be. -/
def allocateGivenStepping (wantedStepping addr : ℕ) : Option (ℕ × Allocator) :=
  match s.freeList wantedStepping with
  | none => do
    let (freelist, s) ← s.allocateNewPageForStepping wantedStepping addr
    some (s.takeCell freelist wantedStepping)
  | some freelist => some (s.takeCell freelist wantedStepping)

/-! ## Large allocations

An extent of its own, linked into a list. -/

/-- `DoLargeAllocation`, with `Initialize` of the header. -/
def doLargeAllocation (size addr : ℕ) : Option (ℕ × Allocator) := do
  let size := roundUpTo4096 ((size + largeHeaderSize) % 2 ^ 64)
  let s ← s.mmap addr size
  some (addr + largeHeaderSize, { s with
    cellSize := Function.update s.cellSize addr 0
    largeSize := Function.update s.largeSize addr size
    linkPrev := Function.update (Function.update s.linkPrev (some addr) none)
      (s.linkNext none) (some addr)
    linkNext := Function.update (Function.update s.linkNext (some addr) (s.linkNext none))
      none (some addr)
    totalUsedMemory := s.totalUsedMemory + BitVec.ofNat 64 size
    totalOsMemoryUsage := s.totalOsMemoryUsage + BitVec.ofNat 64 size })

/-- `AllocateGivenSize`. -/
def allocateGivenSize (wantedSize addr : ℕ) : Option (ℕ × Allocator) :=
  if cellSizeOf (totalSteppings - 1) < wantedSize then s.doLargeAllocation wantedSize addr
  else do
    let wantedStepping ← steppingFromSmallAllocationSize wantedSize
    s.allocateGivenStepping wantedStepping addr

/-! ## Freeing

The page of a cell is found by its address; a large allocation has a cell size of zero there. -/

/-- `Destroy`. -/
def destroy (hdr : ℕ) : Allocator :=
  let s := { s with
    linkNext := Ring.unlinkNext s.linkNext s.linkPrev (some hdr)
    linkPrev := Ring.unlinkPrev s.linkNext s.linkPrev (some hdr) }
  s.munmap hdr (s.largeSize hdr)

/-- `FreeCell`, without its result. -/
def freeCell (page addr : ℕ) : Allocator :=
  let hdr := s.header page
  { s with
    header := Function.update s.header page { hdr with
      freeListHead := addr % pageSize
      numAllocatedCells := hdr.numAllocatedCells - 1 }
    cellLink := Function.update s.cellLink addr hdr.freeListHead }

/-- `Free`. -/
def free (addr : ℕ) : Allocator :=
  let hdr := headerOf addr
  if s.cellSize hdr = 0 then
    { s with
      totalUsedMemory := s.totalUsedMemory - BitVec.ofNat 64 (s.largeSize hdr)
      totalOsMemoryUsage := s.totalOsMemoryUsage - BitVec.ofNat 64 (s.largeSize hdr) }.destroy hdr
  else
    let shouldInsertToFreeList := (s.header hdr).freeListHead = 0
    let s := { s with
      totalUsedMemory := s.totalUsedMemory - BitVec.ofNat 64 (s.cellSize hdr) }.freeCell hdr addr
    if shouldInsertToFreeList then
      let stepping := (s.header hdr).cellSizeStepping
      { s with
        header := Function.update s.header hdr
          { s.header hdr with nextPage := s.freeList stepping }
        freeList := Function.update s.freeList stepping (some hdr) }
    else s

/-- The first loop of `Shutdown`, with `fuel` for it. -/
def freeLargeAllocations : ℕ → Allocator → Option Allocator
  | fuel, s =>
    match s.linkNext none with
    | none => some s
    | some hdr =>
      match fuel with
      | 0 => none
      | fuel + 1 => freeLargeAllocations fuel (s.free (hdr + largeHeaderSize))

/-- `Shutdown`. -/
def shutdown (fuel : ℕ) : Option Allocator := do
  let s ← freeLargeAllocations fuel s
  let s := { s with
    totalOsMemoryUsage := s.totalOsMemoryUsage
      + (BitVec.ofNat 64 s.reservedRangeEnd - BitVec.ofNat 64 s.reservedRangeCur) }
  some (s.unmapList.foldl (fun s ptr =>
    { s.munmap ptr reserveRangeSize with
      totalOsMemoryUsage := s.totalOsMemoryUsage - BitVec.ofNat 64 reserveRangeSize }) s)

end Allocator

end JitMemory

end Dsom
