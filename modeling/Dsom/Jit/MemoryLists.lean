import Dsom.Foundations.Chain
import Dsom.Jit.MemoryRanges

/-!
# Jit/MemoryLists — the pages with free cells

For each stepping there is a list of pages.  Its members are the pages of this stepping that have a
free cell (`FreeList`), and every operation on cells keeps it so (`Pages.newPage`,
`Pages.takeCell`, `Pages.free`).
-/

namespace Dsom

namespace JitMemory

namespace Allocator

/-- The list of a stepping. -/
structure FreeList (s : Allocator) (k : ℕ) (Q : List ℕ) : Prop where
  linked : Chain.IsLinked (fun p => (s.header p).nextPage) (s.freeList k) Q
  nodup : Q.Nodup
  mem : ∀ p, p ∈ Q ↔
    s.IsPage p ∧ (s.header p).cellSizeStepping = k ∧ (s.header p).freeListHead ≠ 0

/-- **The pages**, when the allocations are `L`. -/
structure Pages (s : Allocator) (L : List ℕ) : Prop where
  ok : ∀ p, s.IsPage p → PageOk s L p
  list : ∀ k < totalSteppings, ∃ Q, s.FreeList k Q

section Frame

variable {s s' : Allocator} {L L' Q : List ℕ} {k p off : ℕ}

/-- The list depends on the headers of the pages. -/
theorem FreeList.congr (h : s.FreeList k Q) (hlist : s'.freeList k = s.freeList k)
    (hpage : ∀ q, s'.IsPage q ↔ s.IsPage q) (hheader : ∀ q, s.IsPage q → s'.header q = s.header q) :
    s'.FreeList k Q := by
  refine ⟨?_, h.nodup, fun q => ?_⟩
  · rw [hlist]
    exact h.linked.congr fun q hq => by rw [hheader q ((h.mem q).mp hq).1]
  · rw [h.mem, hpage]
    exact and_congr_right fun hq => by rw [hheader q hq]

/-- Pages depend on their headers and on the links of their free cells. -/
theorem Pages.congr (h : Pages s L) (hlist : s'.freeList = s.freeList)
    (hpage : ∀ q, s'.IsPage q ↔ s.IsPage q) (hheader : ∀ q, s.IsPage q → s'.header q = s.header q)
    (hcell : ∀ q, s.IsPage q → s'.cellSize q = s.cellSize q)
    (hlink : ∀ q, s.IsPage q → ∀ o ∈ cells (s.cellSize q), q + o ∉ L →
      s'.cellLink (q + o) = s.cellLink (q + o))
    (hL : ∀ q, s.IsPage q → ∀ o ∈ cells (s.cellSize q), q + o ∈ L' ↔ q + o ∈ L) :
    Pages s' L' := by
  refine ⟨fun q hq => ?_, fun k hk => ?_⟩
  · have hq' := (hpage q).mp hq
    exact (h.ok q hq').congr (hcell q hq') (by rw [hheader q hq']) (by rw [hheader q hq'])
      (hlink q hq') (hL q hq')
  · obtain ⟨Q, hQ⟩ := h.list k hk
    exact ⟨Q, hQ.congr (congrFun hlist k) hpage hheader⟩

/-- A cell of another page. -/
theorem Pages.ne_of_ne (h : Pages s L) {q o : ℕ} (hp : s.IsPage p) (hq : s.IsPage q)
    (hoff : off ∈ cells (s.cellSize p)) (ho : o ∈ cells (s.cellSize q)) (hne : q ≠ p) :
    q + o ≠ p + off := fun heq =>
  hne (page_unique hq.1 hp.1 ((h.ok q hq).lt_pageSize ho) ((h.ok p hp).lt_pageSize hoff) heq).1

end Frame

/-! ## A new page -/

/-- **A new page** is the list of its stepping. -/
theorem Pages.newPage {s t : Allocator} {L : List ℕ} {k p : ℕ} (h : Pages s L)
    (hsame : SameMemory s t) (hnot : ¬ s.IsPage p) (hmod : p % pageSize = 0)
    (hpage : ∀ q, t.IsPage q ↔ s.IsPage q ∨ q = p) (hk : k < totalSteppings)
    (hnone : s.freeList k = none) (hL : ∀ off < pageSize, p + off ∉ L) :
    Pages { t.initializePage p k none with
      freeList := Function.update t.freeList k (some p) } L := by
  have hne : ∀ q, s.IsPage q → q ≠ p := fun q hq heq => hnot (heq ▸ hq)
  have hheader : ∀ q, s.IsPage q → (t.initializePage p k none).header q = s.header q :=
    fun q hq => by
      rw [← hsame.header]
      exact Function.update_of_ne (hne q hq) _ _
  have hnew : (t.initializePage p k none).header p = ⟨pageHeaderSize, 0, k, none⟩ :=
    Function.update_self _ _ _
  have hcell : ∀ q, s.IsPage q → (t.initializePage p k none).cellSize q = s.cellSize q :=
    fun q hq => by
      rw [← hsame.cellSize]
      exact Function.update_of_ne (hne q hq) _ _
  refine ⟨fun q hq => ?_, fun j hj => ?_⟩
  · rcases (hpage q).mp hq with hq | rfl
    · refine (h.ok q hq).congr (hcell q hq) (congrArg _ (hheader q hq)) (congrArg _ (hheader q hq))
        (fun o ho _ => ?_) fun _ _ => Iff.rfl
      change (t.initializePage p k none).cellLink (q + o) = s.cellLink (q + o)
      rw [← hsame.cellLink]
      refine cellLink_initializePage hk ?_
      have hlt := (h.ok q hq).lt_pageSize ho
      rcases apart_pages hq.1 hmod (hne q hq) with hap | hap <;> simp only at hap <;> omega
    · exact (pageOk_initializePage hk hmod hL).congr rfl rfl rfl (fun _ _ _ => rfl)
        fun _ _ => Iff.rfl
  · obtain ⟨Q, hQ⟩ := h.list j hj
    by_cases hjk : j = k
    · subst hjk
      have hQnil : Q = [] := Chain.isLinked_none (hnone ▸ hQ.linked)
      refine ⟨[p], ⟨⟨Function.update_self _ _ _, ?_⟩, List.nodup_singleton p, fun q => ?_⟩⟩
      · exact congrArg PageHeader.nextPage hnew
      · rw [List.mem_singleton]
        refine ⟨?_, ?_⟩
        · rintro rfl
          refine ⟨(hpage q).mpr (.inr rfl), ?_, ?_⟩
          · exact congrArg PageHeader.cellSizeStepping hnew
          · exact (congrArg PageHeader.freeListHead hnew).trans_ne (by simp [pageHeaderSize])
        · rintro ⟨hq, hstep, hhead⟩
          rcases (hpage q).mp hq with hq | rfl
          · have hmem := (hQ.mem q).mpr ⟨hq, hheader q hq ▸ hstep, hheader q hq ▸ hhead⟩
            simp [hQnil] at hmem
          · rfl
    · refine ⟨Q, ⟨?_, hQ.nodup, fun q => ?_⟩⟩
      · have hlist : Function.update t.freeList k (some p) j = s.freeList j := by
          rw [Function.update_of_ne hjk, hsame.freeList]
        change Chain.IsLinked _ (Function.update t.freeList k (some p) j) Q
        rw [hlist]
        exact hQ.linked.congr fun q hq =>
          congrArg PageHeader.nextPage (hheader q ((hQ.mem q).mp hq).1)
      · rw [hQ.mem]
        constructor
        · rintro ⟨hq, hstep, hhead⟩
          refine ⟨(hpage q).mpr (.inl hq), ?_, ?_⟩
          · exact (congrArg PageHeader.cellSizeStepping (hheader q hq)).trans hstep
          · exact (congrArg PageHeader.freeListHead (hheader q hq)).trans_ne hhead
        · rintro ⟨hq, hstep, hhead⟩
          rcases (hpage q).mp hq with hq | rfl
          · exact ⟨hq, hheader q hq ▸ hstep, hheader q hq ▸ hhead⟩
          · exact absurd (hstep.symm.trans (congrArg PageHeader.cellSizeStepping hnew)) hjk

/-! ## Taking a cell

The page leaves its list with its last free cell. -/

section Cells

variable {s : Allocator} {L L' : List ℕ} {k p off : ℕ}

theorem sameExtents_takeCell (s : Allocator) (p k : ℕ) : SameExtents s (s.takeCell p k).2 := by
  simp only [Allocator.takeCell]
  split_ifs <;> exact ⟨rfl, rfl, rfl, rfl, rfl, rfl, rfl, rfl⟩

theorem cellSize_takeCell (s : Allocator) (p k : ℕ) :
    (s.takeCell p k).2.cellSize = s.cellSize := by
  simp only [Allocator.takeCell]
  split_ifs <;> rfl

theorem cellLink_takeCell (s : Allocator) (p k : ℕ) :
    (s.takeCell p k).2.cellLink = s.cellLink := by
  simp only [Allocator.takeCell]
  split_ifs <;> rfl

theorem totalUsedMemory_takeCell (s : Allocator) (p k : ℕ) : (s.takeCell p k).2.totalUsedMemory
    = s.totalUsedMemory + BitVec.ofNat 64 (cellSizeOf k) := by
  simp only [Allocator.takeCell]
  split_ifs <;> rfl

/-- The header of the page, when a cell has been taken. -/
theorem header_takeCell (s : Allocator) (p k : ℕ) : (s.takeCell p k).2.header p
    = ⟨s.cellLink (p + (s.header p).freeListHead), (s.header p).numAllocatedCells + 1,
        (s.header p).cellSizeStepping,
        if s.cellLink (p + (s.header p).freeListHead) = 0 then none
        else (s.header p).nextPage⟩ := by
  simp only [Allocator.takeCell, Allocator.allocateCell, Function.update_self]
  split_ifs <;> simp

theorem header_takeCell_of_ne {q : ℕ} (s : Allocator) (k : ℕ) (hne : q ≠ p) :
    (s.takeCell p k).2.header q = s.header q := by
  simp only [Allocator.takeCell, Allocator.allocateCell, Function.update_self]
  split_ifs <;> simp [hne]

/-- The lists after a cell is taken. -/
theorem freeList_takeCell (s : Allocator) (p k : ℕ) : (s.takeCell p k).2.freeList
    = if s.cellLink (p + (s.header p).freeListHead) = 0 then
        Function.update s.freeList k (s.header p).nextPage
      else s.freeList := by
  simp only [Allocator.takeCell, Allocator.allocateCell, Function.update_self]
  split_ifs <;> rfl

/-- **A cell is taken** from the first page of a list. -/
theorem Pages.takeCell (h : Pages s L) (hk : k < totalSteppings) (hp : s.freeList k = some p) :
    ∃ off ∈ cells (s.cellSize p), s.IsPage p ∧ s.cellSize p = cellSizeOf k ∧ p + off ∉ L
      ∧ (s.takeCell p k).1 = p + off ∧ Pages (s.takeCell p k).2 ((p + off) :: L) := by
  obtain ⟨Q, hQ⟩ := h.list k hk
  obtain ⟨rest, rfl, hrest⟩ := Chain.isLinked_some (hp ▸ hQ.linked)
  obtain ⟨hpage, hstep, hhead⟩ := (hQ.mem p).mp List.mem_cons_self
  obtain ⟨hnot, hnd⟩ := List.nodup_cons.mp hQ.nodup
  have hok := h.ok p hpage
  obtain ⟨hoff, hfree⟩ := hok.head_mem hhead
  have hsame := (sameExtents_takeCell s p k).isPage
  refine ⟨_, hoff, hpage, hstep ▸ hok.cellSize_eq, hfree, rfl, fun q hq => ?_, fun j hj => ?_⟩
  · rw [hsame] at hq
    by_cases hne : q = p
    · subst hne
      refine (hok.allocateCell hhead).congr (congrFun (cellSize_takeCell s q k) q) ?_ ?_
        (fun o _ _ => congrFun (cellLink_takeCell s q k) _) fun _ _ => Iff.rfl
      · rw [header_takeCell, header_allocateCell]
      · rw [header_takeCell, header_allocateCell]
    · have hheader := header_takeCell_of_ne s k hne
      refine (h.ok q hq).congr (congrFun (cellSize_takeCell s p k) q) (congrArg _ hheader)
        (congrArg _ hheader) (fun o _ _ => congrFun (cellLink_takeCell s p k) _) fun o ho => ?_
      rw [List.mem_cons, or_iff_right (h.ne_of_ne hpage hq hoff ho hne)]
  · by_cases hlink : j = k ∧ s.cellLink (p + (s.header p).freeListHead) = 0
    · obtain ⟨rfl, hlink⟩ := hlink
      refine ⟨rest, ⟨?_, hnd, fun q => ?_⟩⟩
      · rw [freeList_takeCell, if_pos hlink, Function.update_self]
        refine hrest.congr fun q hq => ?_
        rw [header_takeCell_of_ne s j (ne_of_mem_of_not_mem hq hnot)]
      · rw [hsame]
        by_cases hne : q = p
        · subst hne
          rw [header_takeCell]
          exact iff_of_false hnot fun hq => hq.2.2 hlink
        · rw [header_takeCell_of_ne s j hne, ← hQ.mem, List.mem_cons, or_iff_right hne]
    · obtain ⟨Qj, hQj⟩ := h.list j hj
      have hlist : (s.takeCell p k).2.freeList j = s.freeList j := by
        rw [freeList_takeCell]
        split_ifs with hzero
        · exact Function.update_of_ne (fun heq => hlink ⟨heq, hzero⟩) _ _
        · rfl
      refine ⟨Qj, ⟨?_, hQj.nodup, fun q => ?_⟩⟩
      · rw [hlist]
        refine hQj.linked.congr fun q hq => ?_
        by_cases hne : q = p
        · subst hne
          have hjk := ((hQj.mem q).mp hq).2.1.symm.trans hstep
          rw [header_takeCell, if_neg fun hzero => hlink ⟨hjk, hzero⟩]
        · rw [header_takeCell_of_ne s k hne]
      · rw [hsame, hQj.mem]
        by_cases hne : q = p
        · subst hne
          rw [header_takeCell]
          refine and_congr_right fun _ => and_congr_right fun hj =>
            iff_of_true hhead fun hzero => ?_
          exact hlink ⟨hj.symm.trans hstep, hzero⟩
        · rw [header_takeCell_of_ne s k hne]

/-! ## Freeing a cell

The page comes back to its list with its first free cell. -/

section FreeCell

variable {a : ℕ} (hheader : headerOf a = p) (hcell : s.cellSize p ≠ 0)

include hheader hcell

theorem sameExtents_free : SameExtents s (s.free a) := by
  simp only [Allocator.free, hheader, if_neg hcell]
  split_ifs <;> exact ⟨rfl, rfl, rfl, rfl, rfl, rfl, rfl, rfl⟩

theorem cellSize_free : (s.free a).cellSize = s.cellSize := by
  simp only [Allocator.free, hheader, if_neg hcell]
  split_ifs <;> rfl

theorem cellLink_free :
    (s.free a).cellLink = Function.update s.cellLink a (s.header p).freeListHead := by
  simp only [Allocator.free, hheader, if_neg hcell]
  split_ifs <;> rfl

theorem totalUsedMemory_free :
    (s.free a).totalUsedMemory = s.totalUsedMemory - BitVec.ofNat 64 (s.cellSize p) := by
  simp only [Allocator.free, hheader, if_neg hcell]
  split_ifs <;> rfl

/-- The header of the page, when a cell has been freed. -/
theorem header_free : (s.free a).header p
    = ⟨a % pageSize, (s.header p).numAllocatedCells - 1, (s.header p).cellSizeStepping,
        if (s.header p).freeListHead = 0 then s.freeList (s.header p).cellSizeStepping
        else (s.header p).nextPage⟩ := by
  simp only [Allocator.free, Allocator.freeCell, hheader, if_neg hcell, Function.update_self]
  split_ifs <;> simp

theorem header_free_of_ne {q : ℕ} (hne : q ≠ p) : (s.free a).header q = s.header q := by
  simp only [Allocator.free, Allocator.freeCell, hheader, if_neg hcell, Function.update_self]
  split_ifs <;> simp [hne]

/-- The lists after a cell is freed. -/
theorem freeList_free : (s.free a).freeList
    = if (s.header p).freeListHead = 0 then
        Function.update s.freeList (s.header p).cellSizeStepping (some p)
      else s.freeList := by
  simp only [Allocator.free, Allocator.freeCell, hheader, if_neg hcell, Function.update_self]
  split_ifs <;> rfl

end FreeCell

/-- **A cell is freed**: a page that was full is the first of its list. -/
theorem Pages.free (h : Pages s L) (hp : s.IsPage p) (hoff : off ∈ cells (s.cellSize p))
    (hlive : p + off ∈ L) (hL : ∀ a, a ∈ L' ↔ a ∈ L ∧ a ≠ p + off) :
    Pages (s.free (p + off)) L' := by
  have hok := h.ok p hp
  have hcell := hok.cellSize_ne_zero
  have hheader := headerOf_add hp.1 (hok.lt_pageSize hoff)
  have hself := header_free hheader hcell
  have hother : ∀ q, q ≠ p → (s.free (p + off)).header q = s.header q := fun q hne =>
    header_free_of_ne hheader hcell hne
  have hpage := (sameExtents_free hheader hcell).isPage
  have hhead : (p + off) % pageSize ≠ 0 := by
    have hpos := (bounds_of_mem_cells hoff).1
    have hlt := hok.lt_pageSize hoff
    rw [Nat.add_mod, hp.1, Nat.zero_add, Nat.mod_mod, Nat.mod_eq_of_lt hlt]
    simp only [pageHeaderSize] at hpos
    omega
  refine ⟨fun q hq => ?_, fun j hj => ?_⟩
  · rw [hpage] at hq
    by_cases hne : q = p
    · subst hne
      refine (hok.freeCell hp.1 hoff hlive hL).congr (congrFun (cellSize_free hheader hcell) q)
        ?_ ?_ (fun o _ _ => congrFun (cellLink_free hheader hcell) _) fun _ _ => Iff.rfl
      · rw [hself, header_freeCell]
      · rw [hself, header_freeCell]
    · refine (h.ok q hq).congr (congrFun (cellSize_free hheader hcell) q)
        (congrArg _ (hother q hne)) (congrArg _ (hother q hne)) (fun o ho _ => ?_) fun o ho => ?_
      · rw [cellLink_free hheader hcell]
        exact Function.update_of_ne (h.ne_of_ne hp hq hoff ho hne) _ _
      · rw [hL, and_iff_left (h.ne_of_ne hp hq hoff ho hne)]
  · obtain ⟨Q, hQ⟩ := h.list j hj
    by_cases hfull : j = (s.header p).cellSizeStepping ∧ (s.header p).freeListHead = 0
    · obtain ⟨rfl, hzero⟩ := hfull
      have hnot : p ∉ Q := fun hmem => ((hQ.mem p).mp hmem).2.2 hzero
      refine ⟨p :: Q, ⟨⟨?_, ?_⟩, List.nodup_cons.mpr ⟨hnot, hQ.nodup⟩, fun q => ?_⟩⟩
      · rw [freeList_free hheader hcell, if_pos hzero, Function.update_self]
      · simp only [hself, if_pos hzero]
        refine hQ.linked.congr fun q hq => ?_
        rw [hother q (ne_of_mem_of_not_mem hq hnot)]
      · rw [hpage, List.mem_cons]
        by_cases hne : q = p
        · subst hne
          rw [hself]
          exact iff_of_true (.inl rfl) ⟨hp, rfl, hhead⟩
        · rw [hother q hne, ← hQ.mem, or_iff_right hne]
    · have hlist : (s.free (p + off)).freeList j = s.freeList j := by
        rw [freeList_free hheader hcell]
        split_ifs with hzero
        · exact Function.update_of_ne (fun heq => hfull ⟨heq, hzero⟩) _ _
        · rfl
      refine ⟨Q, ⟨?_, hQ.nodup, fun q => ?_⟩⟩
      · rw [hlist]
        refine hQ.linked.congr fun q hq => ?_
        by_cases hne : q = p
        · subst hne
          rw [hself, if_neg ((hQ.mem q).mp hq).2.2]
        · rw [hother q hne]
      · rw [hpage, hQ.mem]
        by_cases hne : q = p
        · subst hne
          rw [hself]
          refine and_congr_right fun _ => and_congr_right fun hj' =>
            iff_of_true (fun hzero => ?_) hhead
          exact hfull ⟨hj'.symm, hzero⟩
        · rw [hother q hne]

end Cells

end Allocator

end JitMemory

end Dsom
