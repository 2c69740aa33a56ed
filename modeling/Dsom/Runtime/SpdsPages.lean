import Dsom.Foundations.Segments
import Dsom.Runtime.UserHeap
import Mathlib.Algebra.Order.Ring.Int
import Mathlib.Logic.Function.Basic

/-!
# Runtime/SpdsPages — the pages of the SPDS region

Pages are handed out from a free list, and when it is empty the region grows downwards by a batch of
pages.  A page is named by its end, and its last four bytes hold the link while it is on the free
list.  The list ends with a page that does not exist, `x_spdsAllocationPageSize`.

One thread at a time: the exchange of the list's head always succeeds, so its tag is left out.

`Pages vm free used`: the pages of the free list and those in use are all different and lie in the
region.  Handing out and taking back pages keep it (`Pages.allocatePage`, `Pages.put`).
-/

namespace Dsom

open Segment

namespace Spds

/-- `m_spdsPageFreeList`, `m_spdsPageAllocLimit`, and the `int32_t` at each address of the region,
relative to the base of the VM. -/
structure Vm where
  spdsPageFreeList : ℤ
  spdsPageAllocLimit : ℤ
  memory : ℤ → ℤ

namespace Vm

/-- `InitializeVMBase`; the highest page is not used. -/
def initial : Vm where
  spdsPageFreeList := 4096
  spdsPageAllocLimit := -4096
  memory := fun _ => 0

/-- Write one word of the region. -/
def store (vm : Vm) (address value : ℤ) : Vm :=
  { vm with memory := Function.update vm.memory address value }

/-- The link of a page. -/
def link (vm : Vm) (page : ℤ) : ℤ := vm.memory (page - 4)

/-- `SpdsPutAllocatedPagesToFreeList`. -/
def spdsPutAllocatedPagesToFreeList (vm : Vm) (firstPage lastPage : ℤ) : Vm :=
  { vm.store (lastPage - 4) vm.spdsPageFreeList with spdsPageFreeList := firstPage }

/-- `SpdsAllocateTryGetFreeListPage`. -/
def spdsAllocateTryGetFreeListPage (vm : Vm) : Option (ℤ × Vm) :=
  let head := vm.spdsPageFreeList
  if head = 4096 then none else some (head, { vm with spdsPageFreeList := vm.link head })

/-- The loop that links the pages from `cur` on; the last page. -/
def linkPages : ℕ → ℤ → Vm → ℤ × Vm
  | 0, cur, vm => (cur, vm)
  | n + 1, cur, vm => linkPages n (cur + 4096) (vm.store (cur - 4) (cur + 4096))

/-- `lengthToAllocate`. -/
def lengthToAllocate (vm : Vm) : ℤ :=
  if -65536 < vm.spdsPageAllocLimit then
    if vm.spdsPageAllocLimit = 0 then 4096 else -vm.spdsPageAllocLimit
  else 65536

/-- The region with the batch that `mmap` gives, which is zeroed. -/
def grown (vm : Vm) : Vm where
  spdsPageFreeList := vm.spdsPageFreeList
  spdsPageAllocLimit := vm.spdsPageAllocLimit - vm.lengthToAllocate
  memory := fun address =>
    if vm.spdsPageAllocLimit - vm.lengthToAllocate ≤ address ∧ address < vm.spdsPageAllocLimit
    then 0 else vm.memory address

-- whether `mmap` gives pages at an address
variable (mmap : ℤ → Bool)

/-- `SpdsAllocatePageSlowPathImpl`. -/
def spdsAllocatePageSlowPathImpl (vm : Vm) : Except Fault (ℤ × Vm) :=
  let limit := vm.grown.spdsPageAllocLimit
  -- overflow, and the address that other code assumes not to be used
  if limit < -2 ^ 31 then .error .vmFailure
  else if limit = -2 ^ 31 then .error .vmFailure
  else if !mmap limit then .error .vmFailure
  else
    let result := limit + 4096
    let numPages := (vm.lengthToAllocate / 4096).toNat
    if 1 < numPages then
      let firstPage := result + 4096
      let r := linkPages (numPages - 2) firstPage vm.grown
      .ok (result, r.2.spdsPutAllocatedPagesToFreeList firstPage r.1)
    else .ok (result, vm.grown)

/-- `SpdsAllocatePage`; the lock of the slow path is free. -/
def spdsAllocatePage (vm : Vm) : Except Fault (ℤ × Vm) :=
  match vm.spdsAllocateTryGetFreeListPage with
  | some r => .ok r
  | none => vm.spdsAllocatePageSlowPathImpl mmap

end Vm

/-! ## Stores

The link of a page is its last word. -/

section Store

variable {vm : Vm} {page other value : ℤ}

@[simp] theorem Vm.link_store_self : (vm.store (page - 4) value).link page = value :=
  Function.update_self ..

theorem Vm.link_store_of_ne (h : other ≠ page) :
    (vm.store (page - 4) value).link other = vm.link other :=
  Function.update_of_ne (by omega) ..

end Store

/-! ## Batches of pages -/

/-- `n` pages from `cur` on. -/
def pagesFrom : ℕ → ℤ → List ℤ
  | 0, _ => []
  | n + 1, cur => cur :: pagesFrom n (cur + 4096)

/-- The pages of a batch. -/
theorem mem_pagesFrom {n : ℕ} {cur page : ℤ} :
    page ∈ pagesFrom n cur ↔ ∃ i : ℕ, i < n ∧ page = cur + 4096 * i := by
  induction n generalizing cur with
  | zero => simp [pagesFrom]
  | succ n ih =>
      rw [pagesFrom, List.mem_cons, ih]
      constructor
      · rintro (rfl | ⟨i, hi, rfl⟩)
        · exact ⟨0, by omega, by omega⟩
        · exact ⟨i + 1, by omega, by omega⟩
      · rintro ⟨i, hi, rfl⟩
        rcases i with _ | i
        · exact .inl (by omega)
        · exact .inr ⟨i, by omega, by omega⟩

/-- Each is in it once. -/
theorem nodup_pagesFrom (n : ℕ) (cur : ℤ) : (pagesFrom n cur).Nodup := by
  induction n generalizing cur with
  | zero => exact List.nodup_nil
  | succ n ih =>
      refine List.nodup_cons.mpr ⟨fun hmem => ?_, ih _⟩
      obtain ⟨i, -, heq⟩ := mem_pagesFrom.mp hmem
      omega

theorem pagesFrom_succ (n : ℕ) (cur : ℤ) :
    pagesFrom (n + 1) cur = pagesFrom n cur ++ [cur + 4096 * n] := by
  induction n generalizing cur with
  | zero => simp [pagesFrom]
  | succ n ih =>
      have hlast : cur + 4096 + 4096 * (n : ℤ) = cur + 4096 * ((n + 1 : ℕ) : ℤ) := by omega
      rw [pagesFrom, ih, hlast]
      rfl

/-- **The loop links the pages of a batch** and nothing else. -/
theorem Vm.linkPages_spec (n : ℕ) (cur : ℤ) (vm : Vm) :
    ∃ vm', linkPages n cur vm = (cur + 4096 * n, vm') ∧
      vm'.spdsPageFreeList = vm.spdsPageFreeList ∧
      vm'.spdsPageAllocLimit = vm.spdsPageAllocLimit ∧
      Linked vm'.link (vm'.link (cur + 4096 * n)) cur (pagesFrom (n + 1) cur) ∧
      ∀ page, page < cur ∨ cur + 4096 * n ≤ page → vm'.link page = vm.link page := by
  induction n generalizing cur vm with
  | zero => exact ⟨vm, by simp [linkPages], rfl, rfl, by simp [pagesFrom], fun _ _ => rfl⟩
  | succ n ih =>
      obtain ⟨vm', hrun, hfree, hlimit, hlinked, hkeep⟩ :=
        ih (cur + 4096) (vm.store (cur - 4) (cur + 4096))
      have hlast : cur + 4096 + 4096 * (n : ℤ) = cur + 4096 * ((n + 1 : ℕ) : ℤ) := by omega
      rw [hlast] at hrun hlinked hkeep
      refine ⟨vm', hrun, hfree, hlimit, ⟨rfl, ?_⟩, fun page hpage => ?_⟩
      · rw [hkeep cur (by omega), link_store_self]
        exact hlinked
      · rw [hkeep page (by omega), link_store_of_ne (by omega)]

/-! ## Pages are free or in use

The free list has the free ones, each once. -/

/-- The pages of the free list and those in use are different pages of the region. -/
structure Pages (vm : Vm) (free used : List ℤ) : Prop where
  linked : Linked vm.link 4096 vm.spdsPageFreeList free
  nodup : (free ++ used).Nodup
  place : ∀ p ∈ free ++ used, 4096 ∣ p ∧ vm.spdsPageAllocLimit < p ∧ p ≤ -4096
  limit_dvd : 4096 ∣ vm.spdsPageAllocLimit
  limit_gt : -2 ^ 31 < vm.spdsPageAllocLimit
  limit_le : vm.spdsPageAllocLimit ≤ -4096

namespace Pages

variable {vm vm' : Vm} {free used rest pages : List ℤ} {page last : ℤ}

theorem initial : Pages .initial [] [] where
  linked := rfl
  nodup := List.nodup_nil
  place _ h := absurd h List.not_mem_nil
  limit_dvd := by decide
  limit_gt := by decide
  limit_le := by decide

/-- The order of the pages in use does not matter. -/
theorem perm (h : Pages vm free used) (hp : rest.Perm used) : Pages vm free rest :=
  have hp' : (free ++ rest).Perm (free ++ used) := hp.append_left free
  { h with
    nodup := hp'.nodup_iff.mpr h.nodup
    place := fun p hmem => h.place p (hp'.mem_iff.mp hmem) }

/-- Pages in use may be written, links included. -/
theorem frame (h : Pages vm free used) {memory : ℤ → ℤ}
    (hkeep : ∀ p ∈ free, memory (p - 4) = vm.link p) :
    Pages { vm with memory := memory } free used :=
  { h with linked := h.linked.congr hkeep }

/-- **Taking back** a chain of pages. -/
theorem put (h : Pages vm free (pages ++ last :: rest)) {first stop : ℤ}
    (hlinked : Linked vm.link stop first (pages ++ [last])) :
    Pages (vm.spdsPutAllocatedPagesToFreeList first last) (pages ++ last :: free) rest := by
  have hperm : (pages ++ last :: free ++ rest).Perm (free ++ (pages ++ last :: rest)) := by
    have := List.perm_append_comm_assoc (pages ++ [last]) free rest
    simpa [List.append_assoc] using this
  have hnodup := hperm.nodup_iff.mpr h.nodup
  have hne : ∀ q ∈ pages ++ free, q ≠ last := by
    have hmiddle : (pages ++ last :: free).Perm (last :: (pages ++ free)) := List.perm_middle
    have hmid := hmiddle.nodup_iff.mp (List.nodup_append.mp hnodup).1
    rintro q hq rfl
    exact (List.nodup_cons.mp hmid).1 hq
  refine { h with linked := ?_, nodup := hnodup, place := ?_ }
  · refine hlinked.splice (fun q hq => Vm.link_store_of_ne (hne q (by simp [hq]))) ?_
    have hself : (vm.spdsPutAllocatedPagesToFreeList first last).link last
        = vm.spdsPageFreeList := Vm.link_store_self
    rw [hself]
    exact h.linked.congr fun q hq => Vm.link_store_of_ne (hne q (by simp [hq]))
  · exact fun p hp => h.place p (hperm.mem_iff.mp hp)

/-- A batch has whole pages, one at least. -/
theorem length_spec (h : Pages vm free used) :
    4096 ∣ vm.lengthToAllocate ∧ 4096 ≤ vm.lengthToAllocate := by
  have := h.limit_dvd
  have := h.limit_le
  rw [Vm.lengthToAllocate]
  split_ifs <;> omega

/-- **The region grows** by a batch of pages. -/
theorem grow (h : Pages vm [] used) (hfree : vm'.spdsPageFreeList = 4096) {n : ℕ} (hn : 0 < n)
    (hlimit : vm'.spdsPageAllocLimit = vm.spdsPageAllocLimit - 4096 * n)
    (hgt : -2 ^ 31 < vm'.spdsPageAllocLimit) :
    Pages vm' [] (pagesFrom n (vm'.spdsPageAllocLimit + 4096) ++ used) := by
  have hdvd := h.limit_dvd
  have hle := h.limit_le
  have hnew : ∀ p ∈ pagesFrom n (vm'.spdsPageAllocLimit + 4096),
      4096 ∣ p ∧ vm'.spdsPageAllocLimit < p ∧ p ≤ vm.spdsPageAllocLimit := by
    intro p hp
    obtain ⟨i, hi, rfl⟩ := mem_pagesFrom.mp hp
    omega
  refine ⟨hfree, ?_, fun p hp => ?_, by omega, hgt, by omega⟩
  all_goals rw [List.nil_append] at *
  · refine List.nodup_append.mpr ⟨nodup_pagesFrom n _, h.nodup, ?_⟩
    rintro p hp q hq rfl
    have := (hnew p hp).2.2
    have := (h.place p hq).2.1
    omega
  · rcases List.mem_append.mp hp with hp | hp
    · have := hnew p hp
      omega
    · have := h.place p hp
      omega

/-- The slow path hands out the lowest page of a batch and puts the others on the free list. -/
theorem slowPath (mmap : ℤ → Bool) (h : Pages vm [] used) (hfree : vm.spdsPageFreeList = 4096)
    (hok : vm.spdsAllocatePageSlowPathImpl mmap = .ok (page, vm')) :
    ∃ free, Pages vm' free (page :: used) ∧ ∀ q ∈ used, vm'.link q = vm.link q := by
  obtain ⟨hdvd, hge⟩ := h.length_spec
  obtain ⟨n, hlength⟩ : ∃ n : ℕ, vm.lengthToAllocate = 4096 * (n + 1) :=
    ⟨(vm.lengthToAllocate / 4096 - 1).toNat, by omega⟩
  have hnum : (vm.lengthToAllocate / 4096).toNat = n + 1 := by omega
  have hlimit : vm.grown.spdsPageAllocLimit = vm.spdsPageAllocLimit - 4096 * ((n + 1 : ℕ) : ℤ) :=
    congrArg (vm.spdsPageAllocLimit - ·) hlength
  have hkeep₀ : ∀ q ∈ used, vm.grown.link q = vm.link q := by
    intro q hq
    have := h.place q hq
    have := h.limit_dvd
    exact if_neg (by omega)
  have hfree₀ : vm.grown.spdsPageFreeList = 4096 := hfree
  rw [Vm.spdsAllocatePageSlowPathImpl, hnum] at hok
  generalize vm.grown = vm₀ at hok hlimit hkeep₀ hfree₀
  simp only at hok
  split at hok
  · cases hok
  split at hok
  · cases hok
  split at hok
  · cases hok
  rename_i hover hmin _
  have hgrow {vm₁ : Vm} (hfree₁ : vm₁.spdsPageFreeList = vm₀.spdsPageFreeList)
      (hlimit₁ : vm₁.spdsPageAllocLimit = vm₀.spdsPageAllocLimit) :
      Pages vm₁ [] (pagesFrom (n + 1) (vm₀.spdsPageAllocLimit + 4096) ++ used) :=
    hlimit₁ ▸ h.grow (hfree₁.trans hfree₀) n.succ_pos (hlimit₁.trans hlimit) (by omega)
  split at hok
  case isFalse hn =>
    obtain rfl : n = 0 := by omega
    obtain ⟨rfl, rfl⟩ : vm₀.spdsPageAllocLimit + 4096 = page ∧ vm₀ = vm' := by simpa using hok
    exact ⟨[], hgrow rfl rfl, hkeep₀⟩
  case isTrue hn =>
    obtain ⟨k, rfl⟩ : ∃ k, n = k + 1 := ⟨n - 1, by omega⟩
    obtain ⟨vm₁, hrun, hfree₁, hlimit₁, hlinked, hkeep⟩ :=
      Vm.linkPages_spec k (vm₀.spdsPageAllocLimit + 4096 + 4096) vm₀
    have hk : k + 1 + 1 - 2 = k := rfl
    rw [hk, hrun] at hok
    obtain ⟨rfl, rfl⟩ : vm₀.spdsPageAllocLimit + 4096 = page ∧ _ = vm' := by simpa using hok
    -- the batch is one page to hand out, and a chain that is given back
    have hpages := hgrow hfree₁ hlimit₁
    rw [pagesFrom, pagesFrom_succ] at hpages
    have hchain : Pages vm₁ [] (pagesFrom k (vm₀.spdsPageAllocLimit + 4096 + 4096) ++
        (vm₀.spdsPageAllocLimit + 4096 + 4096 + 4096 * k) ::
          (vm₀.spdsPageAllocLimit + 4096) :: used) := by
      refine hpages.perm ?_
      rw [List.append_cons]
      exact List.perm_middle
    refine ⟨_, hchain.put (pagesFrom_succ k _ ▸ hlinked), fun q hq => ?_⟩
    have hq' := (h.place q hq).2.1
    exact (Vm.link_store_of_ne (by omega)).trans ((hkeep q (by omega)).trans (hkeep₀ q hq))

/-- **Handing out** a page, from the free list or by growing the region. -/
theorem allocatePage (mmap : ℤ → Bool) (h : Pages vm free used)
    (hok : vm.spdsAllocatePage mmap = .ok (page, vm')) :
    ∃ free, Pages vm' free (page :: used) ∧ ∀ q ∈ used, vm'.link q = vm.link q := by
  rw [Vm.spdsAllocatePage, Vm.spdsAllocateTryGetFreeListPage] at hok
  by_cases hhead : vm.spdsPageFreeList = 4096
  · obtain rfl : free = [] := by
      cases free with
      | nil => rfl
      | cons q free =>
          have hq : vm.spdsPageFreeList = q := h.linked.1
          have := (h.place q (.head _)).2.2
          omega
    simp only [hhead, if_true] at hok
    exact h.slowPath mmap hhead hok
  · simp only [hhead, if_false] at hok
    obtain ⟨rfl, rfl⟩ : vm.spdsPageFreeList = page ∧ _ = vm' := by simpa using hok
    obtain ⟨rest, rfl, hrest⟩ := h.linked.exists_cons hhead
    have hperm : (rest ++ vm.spdsPageFreeList :: used).Perm
      (vm.spdsPageFreeList :: rest ++ used) := List.perm_middle
    exact ⟨rest, { h with
      linked := hrest
      nodup := hperm.nodup_iff.mpr h.nodup
      place := fun p hp => h.place p (hperm.mem_iff.mp hp) }, fun _ _ => rfl⟩

end Pages

end Spds

end Dsom
