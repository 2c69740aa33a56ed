import Dsom.Foundations.Segments
import Dsom.Jit.MemoryAllocator

/-!
# Jit/MemoryPages — the cells of a page

A page has as many cells as fit behind its header.  The cells that are not in use are linked from
the header (`PageOk`).
-/

namespace Dsom

namespace JitMemory

/-! ## Cells

They fill the page behind its header. -/

/-- The offsets of the cells of a page. -/
def cells (size : ℕ) : List ℕ :=
  List.range' pageHeaderSize ((pageSize - pageHeaderSize) / size) size

/-- The cell sizes are multiples of 16, from 32 to 8176. -/
theorem cellSizeOf_spec : ∀ k < totalSteppings,
    32 ≤ cellSizeOf k ∧ cellSizeOf k ≤ 8176 ∧ cellSizeOf k % 16 = 0 := by
  decide

theorem cellSizeOf_pos {k : ℕ} (hk : k < totalSteppings) : 0 < cellSizeOf k := by
  have h := (cellSizeOf_spec k hk).1
  omega

section Cells

variable {size off off' p p' : ℕ}

/-- Where the cells are. -/
theorem mem_cells : off ∈ cells size ↔
    ∃ i < (pageSize - pageHeaderSize) / size, off = pageHeaderSize + size * i :=
  List.mem_range'

/-- No cell is listed twice. -/
theorem nodup_cells (hsize : 0 < size) : (cells size).Nodup := List.nodup_range' _ hsize

/-- A cell is behind the header and in the page. -/
theorem bounds_of_mem_cells (h : off ∈ cells size) :
    pageHeaderSize ≤ off ∧ off + size ≤ pageSize := by
  obtain ⟨i, hi, rfl⟩ := mem_cells.mp h
  have hmul := (Nat.mul_le_mul_left size hi).trans (Nat.mul_div_le (pageSize - pageHeaderSize) size)
  rw [Nat.succ_eq_add_one, Nat.mul_add, Nat.mul_one] at hmul
  simp only [pageSize, pageHeaderSize] at hmul ⊢
  omega

/-- Two cells of a page do not meet. -/
theorem apart_of_mem_cells (h : off ∈ cells size) (h' : off' ∈ cells size) (hne : off ≠ off') :
    Extent.Apart (off, size) (off', size) := by
  obtain ⟨i, -, rfl⟩ := mem_cells.mp h
  obtain ⟨j, -, rfl⟩ := mem_cells.mp h'
  rcases Nat.lt_trichotomy i j with hij | rfl | hij
  · have hmul := Nat.mul_le_mul_left size hij
    rw [Nat.succ_eq_add_one, Nat.mul_add, Nat.mul_one] at hmul
    exact .inl (by simp only; omega)
  · exact absurd rfl hne
  · have hmul := Nat.mul_le_mul_left size hij
    rw [Nat.succ_eq_add_one, Nat.mul_add, Nat.mul_one] at hmul
    exact .inr (by simp only; omega)

theorem mod_of_mem_cells (hsize : size % 16 = 0) (h : off ∈ cells size) : off % 16 = 0 := by
  obtain ⟨i, -, rfl⟩ := mem_cells.mp h
  rw [Nat.add_mod, Nat.mul_mod, hsize]
  simp [pageHeaderSize]

/-- The header of a cell is that of its page. -/
theorem headerOf_add (hp : p % pageSize = 0) (hoff : off < pageSize) : headerOf (p + off) = p := by
  simp only [headerOf, pageSize] at hp hoff ⊢
  omega

/-- A cell is in one page. -/
theorem page_unique (hp : p % pageSize = 0) (hp' : p' % pageSize = 0) (hoff : off < pageSize)
    (hoff' : off' < pageSize) (heq : p + off = p' + off') : p = p' ∧ off = off' := by
  have h := headerOf_add hp hoff
  rw [heq, headerOf_add hp' hoff'] at h
  exact ⟨h.symm, by omega⟩

end Cells

/-! ## The links of a new page -/

namespace Allocator

section InitializeCells

variable {size page off fuel m : ℕ} {link : ℕ → ℕ}

/-- Only cells are written to. -/
theorem initializeCells_of_outside {cellSize addrEnd cur a : ℕ} (hcur : cur < addrEnd)
    (hpos : 0 < cellSize) (ha : a < cur ∨ addrEnd ≤ a) :
    initializeCells cellSize addrEnd fuel cur link a = link a := by
  induction fuel generalizing cur link with
  | zero => rfl
  | succ fuel ih =>
    rw [initializeCells]
    split_ifs with hnext
    · rw [ih (by omega) (by omega), Function.update_of_ne (by omega)]
    · rw [Function.update_of_ne (by omega)]

/-- **The cells of a new page are linked** in their order. -/
theorem linked_initializeCells (hpage : page % pageSize = 0) (hpos : 0 < size)
    (hend : off + size * m ≤ pageSize) (hend' : pageSize < off + size * (m + 1)) (hm : 0 < m)
    (hfuel : m ≤ fuel) :
    Segment.Linked
      (fun o => initializeCells size (page + pageSize) fuel (page + off) link (page + o)) 0 off
      (List.range' off m size) := by
  induction m generalizing off fuel link with
  | zero => omega
  | succ m ih =>
    obtain ⟨fuel, rfl⟩ : ∃ n, fuel = n + 1 := ⟨fuel - 1, by omega⟩
    rw [Nat.mul_succ] at hend hend'
    rw [List.range'_succ]
    refine ⟨rfl, ?_⟩
    rcases Nat.eq_zero_or_pos m with rfl | hm
    · have hlast : ¬ page + off + size + size ≤ page + pageSize := by omega
      simp only [initializeCells, if_neg hlast, List.range'_zero, Segment.linked_nil]
      exact Function.update_self _ _ _
    · have hmul := Nat.mul_le_mul_left size hm
      have hnext : page + (off + size) + size ≤ page + pageSize := by omega
      have hmod : (page + (off + size)) % pageSize = off + size := by
        rw [Nat.add_mod, hpage, Nat.zero_add, Nat.mod_mod, Nat.mod_eq_of_lt (by omega)]
      simp only [initializeCells, Nat.add_assoc page off size, if_pos hnext, hmod]
      rw [initializeCells_of_outside (by omega) hpos (.inl (by omega)), Function.update_self]
      exact ih (by omega) (by rw [Nat.mul_succ] at hend' ⊢; omega) hm (by omega)

end InitializeCells

/-! ## The free cells of a page

The list in the header has exactly the cells that are not in use. -/

/-- **A page**: its size is that of its stepping, and the cells that are not among the allocations
`L` are linked. -/
structure PageOk (s : Allocator) (L : List ℕ) (page : ℕ) : Prop where
  stepping_lt : (s.header page).cellSizeStepping < totalSteppings
  cellSize_eq : s.cellSize page = cellSizeOf (s.header page).cellSizeStepping
  free : ∃ F, Segment.Linked (fun off => s.cellLink (page + off)) 0 (s.header page).freeListHead F
    ∧ F.Nodup ∧ ∀ off, off ∈ F ↔ off ∈ cells (s.cellSize page) ∧ page + off ∉ L

theorem header_allocateCell (s : Allocator) (page : ℕ) : (s.allocateCell page).2.header page
    = ⟨s.cellLink (page + (s.header page).freeListHead), (s.header page).numAllocatedCells + 1,
        (s.header page).cellSizeStepping, (s.header page).nextPage⟩ :=
  Function.update_self _ _ _

theorem header_freeCell (s : Allocator) (page addr : ℕ) : (s.freeCell page addr).header page
    = ⟨addr % pageSize, (s.header page).numAllocatedCells - 1, (s.header page).cellSizeStepping,
        (s.header page).nextPage⟩ :=
  Function.update_self _ _ _

namespace PageOk

variable {s s' : Allocator} {L L' : List ℕ} {page off : ℕ}

/-- The cell size of a page in order. -/
theorem spec (hp : PageOk s L page) :
    32 ≤ s.cellSize page ∧ s.cellSize page ≤ 8176 ∧ s.cellSize page % 16 = 0 := by
  rw [hp.cellSize_eq]
  exact cellSizeOf_spec _ hp.stepping_lt

theorem cellSize_ne_zero (hp : PageOk s L page) : s.cellSize page ≠ 0 := by
  have h := hp.spec.1
  omega

theorem lt_pageSize (hp : PageOk s L page) (hoff : off ∈ cells (s.cellSize page)) :
    off < pageSize := by
  have hle := (bounds_of_mem_cells hoff).2
  have h := hp.spec.1
  omega

/-- A page depends on its header, on the links of its free cells and on its allocations. -/
theorem congr (hp : PageOk s L page) (hcell : s'.cellSize page = s.cellSize page)
    (hhead : (s'.header page).freeListHead = (s.header page).freeListHead)
    (hstep : (s'.header page).cellSizeStepping = (s.header page).cellSizeStepping)
    (hlink : ∀ off ∈ cells (s.cellSize page), page + off ∉ L →
      s'.cellLink (page + off) = s.cellLink (page + off))
    (hL : ∀ off ∈ cells (s.cellSize page), page + off ∈ L' ↔ page + off ∈ L) :
    PageOk s' L' page := by
  obtain ⟨F, hF, hnd, hmem⟩ := hp.free
  refine ⟨hstep ▸ hp.stepping_lt, by rw [hcell, hstep, hp.cellSize_eq], F, ?_, hnd, fun off => ?_⟩
  · rw [hhead]
    exact hF.congr fun off hoff => hlink off ((hmem off).mp hoff).1 ((hmem off).mp hoff).2
  · rw [hmem, hcell]
    exact and_congr_right fun hoff => not_congr (hL off hoff).symm

/-- The head is a free cell. -/
theorem head_mem (hp : PageOk s L page) (hhead : (s.header page).freeListHead ≠ 0) :
    (s.header page).freeListHead ∈ cells (s.cellSize page)
      ∧ page + (s.header page).freeListHead ∉ L := by
  obtain ⟨F, hF, -, hmem⟩ := hp.free
  obtain ⟨rest, hrest, -⟩ := hF.exists_cons hhead
  exact (hmem _).mp (hrest ▸ List.mem_cons_self)

/-- A page whose list is not empty has a free cell. -/
theorem head_ne_zero_iff (hp : PageOk s L page) :
    (s.header page).freeListHead ≠ 0 ↔ ∃ off ∈ cells (s.cellSize page), page + off ∉ L := by
  refine ⟨fun hhead => ⟨_, hp.head_mem hhead⟩, fun ⟨off, hoff, hfree⟩ hhead => ?_⟩
  obtain ⟨F, hF, -, hmem⟩ := hp.free
  have hmem' := (hmem off).mpr ⟨hoff, hfree⟩
  obtain ⟨i, j, rfl⟩ := List.append_of_mem hmem'
  cases i with
  | nil =>
    have h := (bounds_of_mem_cells hoff).1
    rw [← hF.1, hhead] at h
    simp [pageHeaderSize] at h
  | cons o i =>
    have ho := (hmem o).mp (by simp)
    have h := (bounds_of_mem_cells ho.1).1
    rw [← hF.1, hhead] at h
    simp [pageHeaderSize] at h

/-- **`AllocateCell`** takes the head off the list. -/
theorem allocateCell (hp : PageOk s L page) (hhead : (s.header page).freeListHead ≠ 0) :
    PageOk (s.allocateCell page).2 ((page + (s.header page).freeListHead) :: L) page := by
  obtain ⟨F, hF, hnd, hmem⟩ := hp.free
  obtain ⟨rest, rfl, hrest⟩ := hF.exists_cons hhead
  obtain ⟨hnot, hnd⟩ := List.nodup_cons.mp hnd
  refine ⟨?_, ?_, rest, ?_, hnd, fun off => ?_⟩
  · rw [header_allocateCell]
    exact hp.stepping_lt
  · rw [header_allocateCell]
    exact hp.cellSize_eq
  · rw [header_allocateCell]
    exact hrest
  · change off ∈ rest ↔ off ∈ cells (s.cellSize page) ∧ _
    rw [List.mem_cons, not_or, Nat.add_left_cancel_iff]
    refine ⟨fun hoff => ?_, fun ⟨hoff, hne, hfree⟩ => ?_⟩
    · obtain ⟨h1, h2⟩ := (hmem off).mp (List.mem_cons_of_mem _ hoff)
      exact ⟨h1, fun heq => hnot (heq ▸ hoff), h2⟩
    · rcases List.mem_cons.mp ((hmem off).mpr ⟨hoff, hfree⟩) with heq | hoff
      · exact absurd heq hne
      · exact hoff

/-- **`FreeCell`** puts a cell in front of the list. -/
theorem freeCell (hp : PageOk s L page) (hpage : page % pageSize = 0)
    (hoff : off ∈ cells (s.cellSize page)) (hlive : page + off ∈ L)
    (hL : ∀ a, a ∈ L' ↔ a ∈ L ∧ a ≠ page + off) :
    PageOk (s.freeCell page (page + off)) L' page := by
  obtain ⟨F, hF, hnd, hmem⟩ := hp.free
  have hmod : (page + off) % pageSize = off := by
    rw [Nat.add_mod, hpage, Nat.zero_add, Nat.mod_mod, Nat.mod_eq_of_lt (hp.lt_pageSize hoff)]
  have hnot : off ∉ F := fun h => ((hmem off).mp h).2 hlive
  refine ⟨?_, ?_, off :: F, ?_, List.nodup_cons.mpr ⟨hnot, hnd⟩, fun o => ?_⟩
  · rw [header_freeCell]
    exact hp.stepping_lt
  · rw [header_freeCell]
    exact hp.cellSize_eq
  · rw [header_freeCell, hmod]
    refine ⟨rfl, ?_⟩
    have hlink : (s.freeCell page (page + off)).cellLink (page + off)
        = (s.header page).freeListHead := Function.update_self _ _ _
    change Segment.Linked _ 0 ((s.freeCell page (page + off)).cellLink (page + off)) F
    rw [hlink]
    refine hF.congr fun o ho => Function.update_of_ne ?_ _ _
    exact fun heq => hnot (Nat.add_left_cancel heq ▸ ho)
  · change _ ↔ o ∈ cells (s.cellSize page) ∧ _
    rw [List.mem_cons, hmem, hL, not_and_not_right]
    by_cases ho : o = off
    · subst ho
      simp [hoff, hlive]
    · simp [ho]

end PageOk

section InitializePage

variable {s : Allocator} {L : List ℕ} {page k a : ℕ} {nextPage : Option ℕ}

theorem cellLink_initializePage (hk : k < totalSteppings)
    (ha : a < page ∨ page + pageSize ≤ a) :
    (s.initializePage page k nextPage).cellLink a = s.cellLink a :=
  initializeCells_of_outside (by simp only [pageHeaderSize, pageSize]; omega) (cellSizeOf_pos hk)
    (by omega)

/-- All cells of a new page are free. -/
theorem pageOk_initializePage (hk : k < totalSteppings) (hpage : page % pageSize = 0)
    (hL : ∀ off < pageSize, page + off ∉ L) : PageOk (s.initializePage page k nextPage) L page := by
  obtain ⟨hmin, hmax, -⟩ := cellSizeOf_spec k hk
  have hheader : (s.initializePage page k nextPage).header page
      = ⟨pageHeaderSize, 0, k, nextPage⟩ := Function.update_self _ _ _
  have hcell : (s.initializePage page k nextPage).cellSize page = cellSizeOf k :=
    Function.update_self _ _ _
  have hmul := Nat.mul_div_le (pageSize - pageHeaderSize) (cellSizeOf k)
  have hmul' := Nat.lt_mul_div_succ (pageSize - pageHeaderSize) (cellSizeOf_pos hk)
  have hle : (pageSize - pageHeaderSize) / cellSizeOf k ≤ pageSize :=
    (Nat.div_le_self _ _).trans (Nat.sub_le _ _)
  refine ⟨by rwa [hheader], by rw [hcell, hheader], cells (cellSizeOf k), ?_,
    nodup_cells (cellSizeOf_pos hk), fun off => ?_⟩
  · rw [hheader]
    refine linked_initializeCells hpage (cellSizeOf_pos hk) ?_ ?_ ?_ hle
    · simp only [pageSize, pageHeaderSize] at hmul ⊢
      omega
    · simp only [pageSize, pageHeaderSize] at hmul' ⊢
      omega
    · exact Nat.div_pos (by simp only [pageSize, pageHeaderSize]; omega) (cellSizeOf_pos hk)
  · rw [hcell]
    refine (and_iff_left_of_imp fun hoff => hL off ?_).symm
    have h := (bounds_of_mem_cells hoff).2
    omega

end InitializePage

end Allocator

end JitMemory

end Dsom
