import Dsom.Jit.MemoryInvariant

/-!
# Jit/MemorySteps — what each call keeps

One lemma for each operation: it keeps the invariant, for the allocations that are live after it.
-/

namespace Dsom

namespace JitMemory

open Extent

namespace Allocator

namespace Inv

variable {s s' : Allocator} {live : List (ℕ × ℕ)} {large : List ℕ} {k addr a p w size : ℕ}

/-- The sum of what is accounted, when no allocation changes. -/
theorem sum_congr (h : Inv s live large) (hpage : ∀ p, s.IsPage p → s'.cellSize p = s.cellSize p)
    (hlarge : ∀ b ∈ large, s'.cellSize b = s.cellSize b ∧ s'.largeSize b = s.largeSize b) :
    (live.map fun x => (s'.charge x.1).2).sum = (live.map fun x => (s.charge x.1).2).sum :=
  congrArg List.sum <| List.map_congr_left fun x hx => by
    rw [h.charge_congr (h.backed x hx) hpage hlarge]

/-! ## Cells -/

/-- No allocation is in a page that was not in use. -/
theorem not_live_of_new (h : Inv s live large) (hmod : p % pageSize = 0) (hnot : ¬ s.IsPage p)
    (hlarge : p ∉ large) : ∀ off < pageSize, p + off ∉ live.map Prod.fst := by
  rintro off hoff hmem
  obtain ⟨x, hx, heq⟩ := List.mem_map.mp hmem
  rcases h.backed x hx with ⟨q, o, hq, ho, hxq, -⟩ | ⟨b, hb, hxb, -⟩
  · obtain ⟨rfl, -⟩ := page_unique hmod hq.1 hoff ((h.pages.ok q hq).lt_pageSize ho)
      (heq.symm.trans hxq)
    exact hnot hq
  · obtain ⟨rfl, -⟩ := page_unique hmod (h.mod_of_large hb) hoff
      (by simp [largeHeaderSize, pageSize]) (heq.symm.trans hxb)
    exact hlarge hb

/-- **A new page.** -/
theorem newPage (h : Inv s live large) (hk : k < totalSteppings) (hnone : s.freeList k = none)
    (heq : s.allocateNewPageForStepping k addr = some (p, s')) :
    Inv s' live large ∧ s'.freeList k = some p := by
  obtain ⟨⟨p', t⟩, ht, heq'⟩ := Option.bind_eq_some_iff.mp heq
  obtain ⟨rfl, rfl⟩ := Prod.mk.inj (Option.some.inj heq')
  obtain ⟨hranges, hsame, hnot, hpage⟩ := h.ranges.allocateUninitalizedPage ht
  have hp := (hpage p').mpr (.inr rfl)
  have hlarge : p' ∉ large := fun hb => by
    have hsize := h.larges.size p' hb
    rw [← hsame.largeSize] at hsize
    rcases hranges.apart_page_large hp hb with hap | hap <;> simp only [pageSize] at hap <;> omega
  have hcell : ∀ q, q ≠ p' → (t.initializePage p' k none).cellSize q = s.cellSize q :=
    fun q hne => by
      rw [← hsame.cellSize]
      exact Function.update_of_ne hne _ _
  have hcellp : ∀ q, s.IsPage q → (t.initializePage p' k none).cellSize q = s.cellSize q :=
    fun q hq => hcell q fun heq => hnot (heq ▸ hq)
  have hcellb : ∀ b ∈ large, (t.initializePage p' k none).cellSize b = s.cellSize b
      ∧ (t.initializePage p' k none).largeSize b = s.largeSize b := fun b hb =>
    ⟨hcell b (ne_of_mem_of_not_mem hb hlarge), congrFun hsame.largeSize b⟩
  refine ⟨⟨?_, ?_, ?_, h.nodup, fun x hx => ?_, h.live_of_large, ?_⟩, Function.update_self _ _ _⟩
  · exact hranges.congr ⟨rfl, rfl, rfl, rfl, rfl, rfl, rfl, rfl⟩
  · exact h.larges.congr hsame.linkNext hsame.linkPrev hcellb
  · exact h.pages.newPage hsame hnot hp.1 hpage hk hnone (h.not_live_of_new hp.1 hnot hlarge)
  · exact backed_congr (h.backed x hx)
      (fun q hq => ⟨(hpage q).mpr (.inl hq), hcellp q hq⟩) fun b hb _ => ⟨hb, (hcellb b hb).2⟩
  · refine (hsame.totalUsedMemory.trans h.used).trans (congrArg _ ?_)
    exact (h.sum_congr hcellp hcellb).symm

/-- **A cell is taken.** -/
theorem takeCell (h : Inv s live large) (hk : k < totalSteppings) (hp : s.freeList k = some p)
    (hw : w ≤ cellSizeOf k) :
    Inv (s.takeCell p k).2 (((s.takeCell p k).1, w) :: live) large := by
  obtain ⟨off, hoff, hpage, hsize, hfree, hres, hpages⟩ := h.pages.takeCell hk hp
  have hsame := sameExtents_takeCell s p k
  have hkeepp : ∀ q, s.IsPage q → (s.takeCell p k).2.cellSize q = s.cellSize q := fun q _ =>
    congrFun (cellSize_takeCell s p k) q
  have hkeepb : ∀ b ∈ large, (s.takeCell p k).2.cellSize b = s.cellSize b
      ∧ (s.takeCell p k).2.largeSize b = s.largeSize b := fun b _ =>
    ⟨congrFun (cellSize_takeCell s p k) b, congrFun hsame.largeSize b⟩
  rw [hres]
  have hnew : Backed s large (p + off, w) := .inl ⟨p, off, hpage, hoff, rfl, hsize ▸ hw⟩
  refine ⟨h.ranges.congr hsame, h.larges.congr hsame.linkNext hsame.linkPrev hkeepb, hpages,
    List.nodup_cons.mpr ⟨hfree, h.nodup⟩, ?_, fun b hb => .tail _ (h.live_of_large b hb), ?_⟩
  · exact fun x hx => backed_congr (List.forall_mem_cons.mpr ⟨hnew, h.backed⟩ x hx)
      (fun q hq => ⟨(hsame.isPage q).mpr hq, hkeepp q hq⟩) fun b hb _ => ⟨hb, (hkeepb b hb).2⟩
  · rw [List.map_cons, List.sum_cons, h.sum_congr hkeepp hkeepb, h.charge_congr hnew hkeepp hkeepb,
      h.charge_cell hpage hoff, totalUsedMemory_takeCell, hsize, h.used, ← BitVec.ofNat_add,
      Nat.add_comm]

/-- **`AllocateGivenStepping`.** -/
theorem allocateGivenStepping (h : Inv s live large) (hk : k < totalSteppings)
    (hw : w ≤ cellSizeOf k) (heq : s.allocateGivenStepping k addr = some (a, s')) :
    Inv s' ((a, w) :: live) large := by
  rw [Allocator.allocateGivenStepping] at heq
  cases hp : s.freeList k with
  | none =>
    rw [hp] at heq
    obtain ⟨⟨p, t⟩, ht, heq⟩ := Option.bind_eq_some_iff.mp heq
    obtain ⟨rfl, rfl⟩ := Prod.mk.inj (Option.some.inj heq)
    obtain ⟨hinv, hlist⟩ := h.newPage hk hp ht
    exact hinv.takeCell hk hlist hw
  | some p =>
    rw [hp] at heq
    obtain ⟨rfl, rfl⟩ := Prod.mk.inj (Option.some.inj heq)
    exact h.takeCell hk hp hw

/-! ## Large allocations -/

/-- The size of the extent, when it does not wrap around. -/
theorem le_roundUpTo4096 (hsize : size + 4128 ≤ 2 ^ 64) :
    size + largeHeaderSize ≤ roundUpTo4096 ((size + largeHeaderSize) % 2 ^ 64) := by
  rw [roundUpTo4096, largeHeaderSize, Nat.mod_eq_of_lt (by omega), Nat.mod_eq_of_lt (by omega)]
  omega

/-- **`DoLargeAllocation`**, of a size that does not wrap around. -/
theorem doLargeAllocation (h : Inv s live large) (hsize : size + 4128 ≤ 2 ^ 64)
    (hpos : 0 < size) (heq : s.doLargeAllocation size addr = some (a, s')) :
    Inv s' ((a, size) :: live) (addr :: large) := by
  have hle := le_roundUpTo4096 hsize
  obtain ⟨t, ht, heq⟩ := Option.bind_eq_some_iff.mp heq
  generalize roundUpTo4096 ((size + largeHeaderSize) % 2 ^ 64) = n at hle ht heq
  obtain ⟨rfl, hs'⟩ := Prod.mk.inj (Option.some.inj heq)
  obtain ⟨rfl, hmod, haddr, hend, hfree⟩ := of_mmap ht
  have hn : largeHeaderSize < n := (Nat.lt_add_of_pos_left hpos).trans_le hle
  have hn0 : 0 < n := (Nat.zero_le _).trans_lt hn
  have hpage := h.ranges.not_isPage hn0 hfree
  have hlarge := h.ranges.not_mem_large hn0 hfree fun b hb =>
    (Nat.zero_le _).trans_lt (h.larges.size b hb)
  have hcell : s'.cellSize = Function.update s.cellSize addr 0 := by rw [← hs']
  have hlsize : s'.largeSize = Function.update s.largeSize addr n := by rw [← hs']
  have hused : s'.totalUsedMemory = s.totalUsedMemory + BitVec.ofNat 64 n := by rw [← hs']
  have hranges : Ranges s' (addr :: large) :=
    h.ranges.cons (by rw [← hs']) (by rw [← hs']) (by rw [← hs']) (by rw [← hs']) (by rw [← hs'])
      hlsize hlarge hmod haddr hend hfree
  have hlarges : Larges s' (addr :: large) :=
    h.larges.cons hlarge (by rw [← hs']) (by rw [← hs']) hcell hlsize hn
  have hisPage : ∀ q, s'.IsPage q ↔ s.IsPage q :=
    isPage_congr (by rw [← hs']) (by rw [← hs']) (by rw [← hs'])
  have hkeepp : ∀ q, s.IsPage q → s'.cellSize q = s.cellSize q := fun q hq => by
    rw [hcell, Function.update_of_ne]
    rintro rfl
    exact hpage hq
  have hkeepb : ∀ b ∈ large, s'.cellSize b = s.cellSize b ∧ s'.largeSize b = s.largeSize b :=
    fun b hb => by
      have hne := ne_of_mem_of_not_mem hb hlarge
      rw [hcell, hlsize, Function.update_of_ne hne, Function.update_of_ne hne]
      exact ⟨rfl, rfl⟩
  have hnot := h.not_live_of_new hmod hpage hlarge largeHeaderSize
    (by simp [largeHeaderSize, pageSize])
  have hself : s'.largeSize addr = n := by rw [hlsize, Function.update_self]
  have hcharge : s'.charge (addr + largeHeaderSize) = (addr, n) := by
    rw [charge, headerOf_add hmod (by simp [largeHeaderSize, pageSize]), hself, hcell,
      Function.update_self, if_pos rfl]
  refine ⟨hranges, hlarges, ?_, List.nodup_cons.mpr ⟨hnot, h.nodup⟩, ?_, ?_, ?_⟩
  · refine h.pages.congr (by rw [← hs']) hisPage (fun q _ => by rw [← hs']) hkeepp
      (fun q _ o _ _ => by rw [← hs']) fun q hq o ho => ?_
    rw [List.map_cons, List.mem_cons, or_iff_right]
    intro heq
    obtain ⟨rfl, -⟩ := page_unique hq.1 hmod ((h.pages.ok q hq).lt_pageSize ho)
      (by simp [largeHeaderSize, pageSize]) heq
    exact hpage hq
  · refine List.forall_mem_cons.mpr ⟨.inr ⟨addr, List.mem_cons_self, rfl, hself ▸ hle⟩, ?_⟩
    exact fun x hx => backed_congr (h.backed x hx) (fun q hq => ⟨(hisPage q).mpr hq, hkeepp q hq⟩)
      fun b hb _ => ⟨.tail _ hb, (hkeepb b hb).2⟩
  · exact List.forall_mem_cons.mpr ⟨.head _, fun b hb => .tail _ (h.live_of_large b hb)⟩
  · rw [List.map_cons, List.sum_cons, hcharge, h.sum_congr hkeepp hkeepb, hused, h.used,
      ← BitVec.ofNat_add, Nat.add_comm]

/-- A larger stepping has larger cells. -/
theorem cellSizeOf_mono : ∀ j < totalSteppings, ∀ i ≤ j, cellSizeOf i ≤ cellSizeOf j := by
  decide

/-- The stepping for a size is large enough. -/
theorem steppingFromSmallAllocationSize_spec (hsize : size ≤ cellSizeOf (totalSteppings - 1)) :
    ∃ k < totalSteppings, steppingFromSmallAllocationSize size = some k ∧ size ≤ cellSizeOf k := by
  have hmono : MonotoneOn cellSizeOf (Set.Icc 0 (totalSteppings - 1)) := fun i _ j hj hij =>
    cellSizeOf_mono j (hj.2.trans_lt (by decide)) i hij
  obtain ⟨k, hk, -, hle, hfits, -⟩ := @BinarySearch.lowerBoundLoop_spec _ _ cellSizeOf size
    totalSteppings 0 (totalSteppings - 1) hmono (Nat.zero_le _) hsize (by decide)
  exact ⟨k, hle.trans_lt (by decide), hk, hfits⟩

/-- **`AllocateGivenSize`.** -/
theorem allocateGivenSize (h : Inv s live large) (hsize : size + 4128 ≤ 2 ^ 64)
    (heq : s.allocateGivenSize size addr = some (a, s')) :
    ∃ large', Inv s' ((a, size) :: live) large' := by
  rw [Allocator.allocateGivenSize] at heq
  split_ifs at heq with hlt
  · exact ⟨_, h.doLargeAllocation hsize ((Nat.zero_le _).trans_lt hlt) heq⟩
  · obtain ⟨k, hk, hstep, hfits⟩ := steppingFromSmallAllocationSize_spec (not_lt.mp hlt)
    rw [hstep] at heq
    exact ⟨_, h.allocateGivenStepping hk hfits heq⟩

/-! ## Freeing

A cell and a large allocation are freed in two ways; the header tells which. -/

section Free

variable {x y : ℕ × ℕ} {b : ℕ}

/-- The allocations that remain have other addresses. -/
theorem mem_erase (h : Inv s live large) (hx : x ∈ live) (a : ℕ) :
    a ∈ (live.erase x).map Prod.fst ↔ a ∈ live.map Prod.fst ∧ a ≠ x.1 := by
  have hperm : (live.map Prod.fst).Perm (x.1 :: (live.erase x).map Prod.fst) :=
    (List.perm_cons_erase hx).map Prod.fst
  have hnot := (List.nodup_cons.mp (hperm.nodup h.nodup)).1
  rw [hperm.mem_iff, List.mem_cons]
  exact ⟨fun ha => ⟨.inr ha, ne_of_mem_of_not_mem ha hnot⟩, fun ⟨ha, hne⟩ => ha.resolve_left hne⟩

/-- What is left is listed once. -/
theorem nodup_erase (h : Inv s live large) (x : ℕ × ℕ) : ((live.erase x).map Prod.fst).Nodup :=
  h.nodup.sublist (List.erase_sublist.map Prod.fst)

/-- The sum of what is accounted, when an allocation is gone. -/
theorem used_erase (h : Inv s live large) (hx : x ∈ live) :
    s.totalUsedMemory - BitVec.ofNat 64 (s.charge x.1).2
      = BitVec.ofNat 64 ((live.erase x).map fun y => (s.charge y.1).2).sum := by
  rw [h.used, ((List.perm_cons_erase hx).map fun y => (s.charge y.1).2).sum_eq, List.map_cons,
    List.sum_cons, Nat.add_comm, BitVec.ofNat_add, BitVec.add_sub_cancel]

/-- A cell is not the memory of a large allocation. -/
theorem cell_ne_large {off : ℕ} (h : Inv s live large) (hp : s.IsPage p)
    (hoff : off ∈ cells (s.cellSize p)) (hb : b ∈ large) : p + off ≠ b + largeHeaderSize :=
  fun heq => by
    obtain ⟨rfl, -⟩ := page_unique hp.1 (h.mod_of_large hb) ((h.pages.ok p hp).lt_pageSize hoff)
      (by simp [largeHeaderSize, pageSize]) heq
    exact h.not_mem_large hp hb

/-- **A cell is freed.** -/
theorem freeCell {off : ℕ} (h : Inv s live large) (hx : x ∈ live) (hp : s.IsPage p)
    (hoff : off ∈ cells (s.cellSize p)) (heq : x.1 = p + off) :
    Inv (s.free x.1) (live.erase x) large := by
  have hheader : headerOf x.1 = p := heq ▸ h.headerOf_cell hp hoff
  have hne := (h.pages.ok p hp).cellSize_ne_zero
  have hsame := sameExtents_free hheader hne
  have hcell := cellSize_free hheader hne
  have hkeepp : ∀ q, s.IsPage q → (s.free x.1).cellSize q = s.cellSize q := fun q _ =>
    congrFun hcell q
  have hkeepb : ∀ b ∈ large, (s.free x.1).cellSize b = s.cellSize b
      ∧ (s.free x.1).largeSize b = s.largeSize b := fun b _ =>
    ⟨congrFun hcell b, congrFun hsame.largeSize b⟩
  refine ⟨h.ranges.congr hsame, h.larges.congr hsame.linkNext hsame.linkPrev hkeepb, ?_,
    h.nodup_erase x, fun y hy => ?_, fun b hb => ?_, ?_⟩
  · rw [heq]
    exact h.pages.free hp hoff (heq ▸ List.mem_map_of_mem hx) fun a => heq ▸ h.mem_erase hx a
  · exact backed_congr (h.backed y (List.mem_of_mem_erase hy))
      (fun q hq => ⟨(hsame.isPage q).mpr hq, hkeepp q hq⟩) fun b hb _ => ⟨hb, (hkeepb b hb).2⟩
  · rw [h.mem_erase hx, heq]
    exact ⟨h.live_of_large b hb, (h.cell_ne_large hp hoff hb).symm⟩
  · have hcharge : (s.charge x.1).2 = s.cellSize p := by rw [heq, h.charge_cell hp hoff]
    rw [totalUsedMemory_free hheader hne, ← hcharge, h.used_erase hx]
    refine congrArg _ (congrArg List.sum (List.map_congr_left fun y hy => ?_))
    rw [h.charge_congr (h.backed y (List.mem_of_mem_erase hy)) hkeepp hkeepb]

/-- **A large allocation is freed.** -/
theorem freeLarge (h : Inv s live large) (hx : x ∈ live) (hb : b ∈ large)
    (heq : x.1 = b + largeHeaderSize) : Inv (s.free x.1) (live.erase x) (large.erase b) := by
  have hheader : headerOf x.1 = b := heq ▸ h.headerOf_large hb
  have hfree : s.free x.1 = { s with
      totalUsedMemory := s.totalUsedMemory - BitVec.ofNat 64 (s.largeSize b)
      totalOsMemoryUsage := s.totalOsMemoryUsage - BitVec.ofNat 64 (s.largeSize b) }.destroy b := by
    rw [Allocator.free, hheader, if_pos (h.larges.cellSize b hb)]
  generalize s.free x.1 = t at hfree ⊢
  have hcell : t.cellSize = s.cellSize := by rw [hfree]; rfl
  have hsize : t.largeSize = s.largeSize := by rw [hfree]; rfl
  have hused : t.totalUsedMemory = s.totalUsedMemory - BitVec.ofNat 64 (s.charge x.1).2 := by
    rw [heq, h.charge_large hb, hfree]
    rfl
  have hpage : ∀ q, t.IsPage q ↔ s.IsPage q :=
    isPage_congr (by rw [hfree]; rfl) (by rw [hfree]; rfl) (by rw [hfree]; rfl)
  refine ⟨?_, ?_, ?_, h.nodup_erase x, fun y hy => ?_, fun c hc => ?_, ?_⟩
  · exact h.ranges.erase hb (by rw [hfree]; rfl) (by rw [hfree]; rfl) (by rw [hfree]; rfl)
      (by rw [hfree]; rfl) (by rw [hfree]; rfl) hsize
  · exact h.larges.erase hb (by rw [hfree]; rfl) (by rw [hfree]; rfl) hcell hsize
  · refine h.pages.congr (by rw [hfree]; rfl) hpage (fun q _ => by rw [hfree]; rfl)
      (fun q _ => congrFun hcell q) (fun q _ o _ _ => by rw [hfree]; rfl) fun q hq o ho => ?_
    rw [h.mem_erase hx, heq, and_iff_left (h.cell_ne_large hq ho hb)]
  · have hne : y.1 ≠ x.1 := ((h.mem_erase hx y.1).mp (List.mem_map_of_mem hy)).2
    refine backed_congr (h.backed y (List.mem_of_mem_erase hy))
      (fun q hq => ⟨(hpage q).mpr hq, congrFun hcell q⟩) fun c hc hyc => ⟨?_, congrFun hsize c⟩
    refine (List.mem_erase_of_ne ?_).mpr hc
    rintro rfl
    exact hne (hyc.trans heq.symm)
  · obtain ⟨hcb, hc⟩ := h.larges.nodup.mem_erase_iff.mp hc
    rw [h.mem_erase hx, heq]
    exact ⟨h.live_of_large c hc, fun heq' => hcb (Nat.add_right_cancel heq')⟩
  · rw [hused, h.used_erase hx]
    refine congrArg _ (congrArg List.sum (List.map_congr_left fun y _ => ?_))
    rw [charge, charge, hcell, hsize]

/-- **`Free`.** -/
theorem free (h : Inv s live large) (hx : x ∈ live) :
    ∃ large', Inv (s.free x.1) (live.erase x) large' := by
  rcases h.backed x hx with ⟨p, off, hp, hoff, heq, -⟩ | ⟨b, hb, heq, -⟩
  · exact ⟨_, h.freeCell hx hp hoff heq⟩
  · exact ⟨_, h.freeLarge hx hb heq⟩

end Free

/-- **The owners write** to the memory of their allocations. -/
theorem write {link : ℕ → ℕ} (h : Inv s live large)
    (hlink : ∀ a, (∀ x ∈ live, Apart (a, 2) (s.block x.1)) → link a = s.cellLink a) :
    Inv { s with cellLink := link } live large := by
  refine ⟨h.ranges.congr ⟨rfl, rfl, rfl, rfl, rfl, rfl, rfl, rfl⟩,
    h.larges.congr rfl rfl fun _ _ => ⟨rfl, rfl⟩, ?_, h.nodup, h.backed, h.live_of_large, h.used⟩
  refine h.pages.congr rfl (fun _ => Iff.rfl) (fun _ _ => rfl) (fun _ _ => rfl)
    (fun p hp off hoff hfree => hlink _ fun x hx => ?_) fun _ _ _ _ => Iff.rfl
  have hcell : Backed s large (p + off, 2) :=
    .inl ⟨p, off, hp, hoff, rfl, (h.pages.ok p hp).spec.1.trans' (by omega)⟩
  have hap := h.apart_charge hcell (h.backed x hx) fun heq =>
    hfree (List.mem_map.mpr ⟨x, hx, heq.symm⟩)
  rw [h.charge_cell hp hoff] at hap
  refine hap.within ⟨le_rfl, Nat.add_le_add_left ?_ _⟩ (h.block_within (h.backed x hx))
  exact (h.pages.ok p hp).spec.1.trans' (by omega)

end Inv

end Allocator

end JitMemory

end Dsom
