import Dsom.Jit.MemoryLists

/-!
# Jit/MemoryInvariant — what holds between two calls of the allocator

An allocation is an address with the size that was asked for.  Each is a cell of a page or a large
allocation (`Backed`); the large allocations are the members of a ring (`Larges`).  With the ranges
and the pages this is the invariant `Inv`, and it keeps the allocations apart (`Inv.apart`).
-/

namespace Dsom

namespace JitMemory

open Extent

namespace Allocator

/-- **The large allocations**, by the addresses of their headers. -/
structure Larges (s : Allocator) (large : List ℕ) : Prop where
  ring : Ring.Path s.linkNext s.linkPrev none (large.map some) none
  nodup : large.Nodup
  cellSize : ∀ b ∈ large, s.cellSize b = 0
  size : ∀ b ∈ large, largeHeaderSize < s.largeSize b

section Larges

variable {s s' : Allocator} {large : List ℕ} {addr size b : ℕ}

/-- The list depends on its own members only. -/
theorem Larges.congr (h : Larges s large)
    (hnext : s'.linkNext = s.linkNext) (hprev : s'.linkPrev = s.linkPrev)
    (hkeep : ∀ b ∈ large, s'.cellSize b = s.cellSize b ∧ s'.largeSize b = s.largeSize b) :
    Larges s' large := by
  refine ⟨?_, h.nodup, fun b hb => ?_, fun b hb => ?_⟩
  · rw [hnext, hprev]
    exact h.ring
  · rw [(hkeep b hb).1]
    exact h.cellSize b hb
  · rw [(hkeep b hb).2]
    exact h.size b hb

/-- The node behind the anchor is a member, or the anchor. -/
theorem Larges.next_ne (h : Larges s large) (hnew : addr ∉ large) :
    s.linkNext none ≠ some addr := fun heq => by
  have hring := h.ring
  cases large with
  | nil => exact absurd (hring.1.symm.trans heq) (by simp)
  | cons b rest => exact hnew (Option.some.inj (hring.1.symm.trans heq) ▸ List.mem_cons_self)

/-- **`Initialize`** puts a header behind the anchor. -/
theorem Larges.cons (h : Larges s large) (hnew : addr ∉ large)
    (hnext : s'.linkNext = Function.update
      (Function.update s.linkNext (some addr) (s.linkNext none)) none (some addr))
    (hprev : s'.linkPrev = Function.update
      (Function.update s.linkPrev (some addr) none) (s.linkNext none) (some addr))
    (hcell : s'.cellSize = Function.update s.cellSize addr 0)
    (hsize : s'.largeSize = Function.update s.largeSize addr size) (hlt : largeHeaderSize < size) :
    Larges s' (addr :: large) := by
  have hnd : (some addr :: none :: large.map some).Nodup := by
    simp [hnew, h.nodup.map (Option.some_injective ℕ)]
  refine ⟨?_, List.nodup_cons.mpr ⟨hnew, h.nodup⟩, fun b hb => ?_, fun b hb => ?_⟩
  · rw [hnext, hprev, Function.update_comm (Option.some_ne_none addr),
      Function.update_comm (h.next_ne hnew).symm]
    exact h.ring.linkAfter hnd
  · by_cases hne : b = addr
    · rw [hcell, hne, Function.update_self]
    · rw [hcell, Function.update_of_ne hne]
      exact h.cellSize b ((List.mem_cons.mp hb).resolve_left hne)
  · by_cases hne : b = addr
    · rwa [hsize, hne, Function.update_self]
    · rw [hsize, Function.update_of_ne hne]
      exact h.size b ((List.mem_cons.mp hb).resolve_left hne)

/-- **`Destroy`** takes a header out of the ring. -/
theorem Larges.erase (h : Larges s large) (hb : b ∈ large)
    (hnext : s'.linkNext = Ring.unlinkNext s.linkNext s.linkPrev (some b))
    (hprev : s'.linkPrev = Ring.unlinkPrev s.linkNext s.linkPrev (some b))
    (hcell : s'.cellSize = s.cellSize) (hsize : s'.largeSize = s.largeSize) :
    Larges s' (large.erase b) := by
  obtain ⟨l, l', -, hl, hl'⟩ := List.exists_erase_eq hb
  refine ⟨?_, h.nodup.erase b, fun c hc => ?_, fun c hc => ?_⟩
  · have hring := h.ring
    have hnd : (none :: large.map some).Nodup := by
      simp [h.nodup.map (Option.some_injective ℕ)]
    rw [hl, List.map_append, List.map_cons] at hring hnd
    rw [hnext, hprev, hl', List.map_append]
    exact hring.unlink hnd
  · rw [hcell]
    exact h.cellSize c (List.mem_of_mem_erase hc)
  · rw [hsize]
    exact h.size c (List.mem_of_mem_erase hc)

end Larges

/-- An allocation is a cell of a page, or large; what was asked for is there. -/
def Backed (s : Allocator) (large : List ℕ) (x : ℕ × ℕ) : Prop :=
  (∃ p off, s.IsPage p ∧ off ∈ cells (s.cellSize p) ∧ x.1 = p + off ∧ x.2 ≤ s.cellSize p)
    ∨ ∃ b ∈ large, x.1 = b + largeHeaderSize ∧ x.2 + largeHeaderSize ≤ s.largeSize b

/-- The memory that is accounted for an allocation. -/
def charge (s : Allocator) (addr : ℕ) : ℕ × ℕ :=
  if s.cellSize (headerOf addr) = 0 then (headerOf addr, s.largeSize (headerOf addr))
  else (addr, s.cellSize (headerOf addr))

/-- The memory that the owner of an allocation may use. -/
def block (s : Allocator) (addr : ℕ) : ℕ × ℕ :=
  if s.cellSize (headerOf addr) = 0 then (addr, s.largeSize (headerOf addr) - largeHeaderSize)
  else (addr, s.cellSize (headerOf addr))

/-- **The invariant**, for the allocations `live`. -/
structure Inv (s : Allocator) (live : List (ℕ × ℕ)) (large : List ℕ) : Prop where
  ranges : Ranges s large
  larges : Larges s large
  pages : Pages s (live.map Prod.fst)
  nodup : (live.map Prod.fst).Nodup
  backed : ∀ x ∈ live, Backed s large x
  live_of_large : ∀ b ∈ large, b + largeHeaderSize ∈ live.map Prod.fst
  used : s.totalUsedMemory = BitVec.ofNat 64 (live.map fun x => (s.charge x.1).2).sum

section Cells

variable {s : Allocator} {p q off : ℕ}

/-- A cell lies in its page. -/
theorem cell_within (hoff : off ∈ cells (s.cellSize p)) :
    Within (p + off, s.cellSize p) (p, pageSize) := by
  obtain ⟨-, hend⟩ := bounds_of_mem_cells hoff
  exact ⟨Nat.le_add_right _ _, by simp only; omega⟩

/-- A cell is behind the header of its page, and not in another page. -/
theorem apart_header_cell (hq : s.IsPage q) (hp : s.IsPage p) (hoff : off ∈ cells (s.cellSize p)) :
    Apart (q, pageHeaderSize) (p + off, s.cellSize p) := by
  by_cases hqp : q = p
  · subst hqp
    exact .inl (Nat.add_le_add_left (bounds_of_mem_cells hoff).1 q)
  · refine (apart_pages hq.1 hp.1 hqp).within ⟨le_rfl, ?_⟩ (cell_within hoff)
    simp only [pageHeaderSize, pageSize]
    omega

end Cells

namespace Inv

variable {s s' : Allocator} {live : List (ℕ × ℕ)} {large large' : List ℕ} {x y : ℕ × ℕ}
  {p off b : ℕ}

/-! ## Cells and large allocations

What `Free` reads from the header tells the two apart. -/

/-- The header of a cell is its page. -/
theorem headerOf_cell (h : Inv s live large) (hp : s.IsPage p)
    (hoff : off ∈ cells (s.cellSize p)) : headerOf (p + off) = p :=
  headerOf_add hp.1 ((h.pages.ok p hp).lt_pageSize hoff)

theorem mod_of_large (h : Inv s live large) (hb : b ∈ large) : b % pageSize = 0 :=
  (h.ranges.bounds _ (h.ranges.large_mem hb)).1

/-- The header of a large allocation is where it starts. -/
theorem headerOf_large (h : Inv s live large) (hb : b ∈ large) :
    headerOf (b + largeHeaderSize) = b :=
  headerOf_add (h.mod_of_large hb) (by simp [largeHeaderSize, pageSize])

/-- A page is not a large allocation. -/
theorem not_mem_large (h : Inv s live large) (hp : s.IsPage p) : p ∉ large := fun hb => by
  have hsize := h.larges.size p hb
  rcases h.ranges.apart_page_large hp hb with hap | hap <;> simp only [pageSize] at hap <;> omega

/-- A cell is charged with its size. -/
theorem charge_cell (h : Inv s live large) (hp : s.IsPage p) (hoff : off ∈ cells (s.cellSize p)) :
    s.charge (p + off) = (p + off, s.cellSize p) := by
  rw [charge, h.headerOf_cell hp hoff, if_neg (h.pages.ok p hp).cellSize_ne_zero]

theorem block_cell (h : Inv s live large) (hp : s.IsPage p) (hoff : off ∈ cells (s.cellSize p)) :
    s.block (p + off) = (p + off, s.cellSize p) := by
  rw [block, h.headerOf_cell hp hoff, if_neg (h.pages.ok p hp).cellSize_ne_zero]

/-- A large allocation is charged with all of its extent. -/
theorem charge_large (h : Inv s live large) (hb : b ∈ large) :
    s.charge (b + largeHeaderSize) = (b, s.largeSize b) := by
  rw [charge, h.headerOf_large hb, if_pos (h.larges.cellSize b hb)]

/-- What is handed out of it lies behind the header. -/
theorem block_large (h : Inv s live large) (hb : b ∈ large) :
    s.block (b + largeHeaderSize) = (b + largeHeaderSize, s.largeSize b - largeHeaderSize) := by
  rw [block, h.headerOf_large hb, if_pos (h.larges.cellSize b hb)]

/-- The owner's memory is accounted for. -/
theorem block_within (h : Inv s live large) (hx : Backed s large x) :
    Within (s.block x.1) (s.charge x.1) := by
  rcases hx with ⟨p, off, hp, hoff, heq, -⟩ | ⟨b, hb, heq, -⟩
  · rw [heq, h.charge_cell hp hoff, h.block_cell hp hoff]
    exact ⟨le_rfl, le_rfl⟩
  · rw [heq, h.charge_large hb, h.block_large hb]
    have hsize := h.larges.size b hb
    exact ⟨Nat.le_add_right _ _, by simp only; omega⟩

/-! ## Apart -/

/-- **Two cells or large allocations** are apart. -/
theorem apart_charge (h : Inv s live large) (hx : Backed s large x) (hy : Backed s large y)
    (hne : x.1 ≠ y.1) : Apart (s.charge x.1) (s.charge y.1) := by
  rcases hx with ⟨p, off, hp, hoff, heq, -⟩ | ⟨b, hb, heq, -⟩ <;>
    rcases hy with ⟨p', off', hp', hoff', heq', -⟩ | ⟨b', hb', heq', -⟩
  · rw [heq, heq', h.charge_cell hp hoff, h.charge_cell hp' hoff']
    by_cases hpp : p = p'
    · subst hpp
      have hap := apart_of_mem_cells hoff hoff' fun heq'' => hne (by rw [heq, heq', heq''])
      simp only [Apart] at hap ⊢
      omega
    · exact (apart_pages hp.1 hp'.1 hpp).within (cell_within hoff) (cell_within hoff')
  · rw [heq, heq', h.charge_cell hp hoff, h.charge_large hb']
    exact (h.ranges.apart_page_large hp hb').within (cell_within hoff) ⟨le_rfl, le_rfl⟩
  · rw [heq, heq', h.charge_large hb, h.charge_cell hp' hoff']
    exact ((h.ranges.apart_page_large hp' hb).within (cell_within hoff') ⟨le_rfl, le_rfl⟩).symm
  · rw [heq, heq', h.charge_large hb, h.charge_large hb']
    exact h.ranges.apart_large hb hb' fun heq'' => hne (by rw [heq, heq', heq''])

/-! ## Frame -/

/-- An allocation stays where it is. -/
theorem backed_congr (hx : Backed s large x)
    (hpage : ∀ p, s.IsPage p → s'.IsPage p ∧ s'.cellSize p = s.cellSize p)
    (hlarge : ∀ b ∈ large, x.1 = b + largeHeaderSize →
      b ∈ large' ∧ s'.largeSize b = s.largeSize b) : Backed s' large' x := by
  rcases hx with ⟨p, off, hp, hoff, heq, hle⟩ | ⟨b, hb, heq, hle⟩
  · obtain ⟨hp', hcell⟩ := hpage p hp
    exact .inl ⟨p, off, hp', hcell ▸ hoff, heq, hcell ▸ hle⟩
  · obtain ⟨hb', hsize⟩ := hlarge b hb heq
    exact .inr ⟨b, hb', heq, hsize ▸ hle⟩

/-- What an allocation is charged with does not change. -/
theorem charge_congr (h : Inv s live large) (hx : Backed s large x)
    (hpage : ∀ p, s.IsPage p → s'.cellSize p = s.cellSize p)
    (hlarge : ∀ b ∈ large, s'.cellSize b = s.cellSize b ∧ s'.largeSize b = s.largeSize b) :
    s'.charge x.1 = s.charge x.1 := by
  rcases hx with ⟨p, off, hp, hoff, heq, -⟩ | ⟨b, hb, heq, -⟩
  · have hne := (h.pages.ok p hp).cellSize_ne_zero
    rw [heq, charge, charge, h.headerOf_cell hp hoff, hpage p hp, if_neg hne, if_neg hne]
  · rw [heq, charge, charge, h.headerOf_large hb, (hlarge b hb).1, (hlarge b hb).2]

end Inv

end Allocator

end JitMemory

end Dsom
