import Dsom.Runtime.SpdsPages
import Mathlib.Tactic.IntervalCases

/-!
# Runtime/SpdsAlloc — the allocators of the SPDS region

Any number of allocators share the pages of the region.  An allocator goes down through its current
page and takes another one when an object does not fit; a temporary one keeps its pages in a chain
through their last four bytes, and gives the whole chain back in its destructor.  Pages can also be
taken and given back directly, and whoever has a piece of memory writes into it at will.

Next to the words that the program keeps, a `System` records who has which page and which regions
are live.  `Inv` is what every operation keeps; so regions never meet, and a page that is free
belongs to nobody (`spdsRegion_sound`).
-/

namespace Dsom

open Segment

namespace Spds

/-- `x & ~(alignment - 1)`, for a power of two. -/
def alignDown (alignment x : ℤ) : ℤ := x / alignment * alignment

/-- `RoundUpToMultipleOf`. -/
def roundUpToMultipleOf (alignment x : ℤ) : ℤ := (x + alignment - 1) / alignment * alignment

/-- `SpdsAllocImpl`. -/
structure SpdsAllocImpl where
  isTempAlloc : Bool
  curChunk : ℤ
  lastChunkInTheChain : ℤ
  deriving DecidableEq

/-- The type of an object, as `Alloc` is instantiated with it. -/
structure ObjectType where
  size : ℤ
  alignment : ℤ
  collectedByFreeList : Bool

namespace ObjectType

/-- `allocationSize`. -/
def allocationSize (t : ObjectType) : ℤ := if t.collectedByFreeList then max t.size 4 else t.size

/-- The static assertions on the type, and what C++ says of sizes. -/
structure Admitted (t : ObjectType) (isTempAlloc : Bool) : Prop where
  alignment : ∃ k : ℕ, k ≤ 5 ∧ t.alignment = 2 ^ k
  size_pos : 0 < t.size
  dvd : t.alignment ∣ t.size
  size_le : t.size ≤ 4096 - roundUpToMultipleOf t.alignment (if isTempAlloc then 4 else 0)

end ObjectType

namespace SpdsAllocImpl

/-- An allocator with no page of its own. -/
def initial (isTempAlloc : Bool) : SpdsAllocImpl := ⟨isTempAlloc, 0, 0⟩

/-- The end of the current page. -/
def chunk (a : SpdsAllocImpl) : ℤ := alignDown 4096 a.curChunk + 4096

/-- `AllocMemory`: the page that was taken, if any; the object is at `curChunk` afterwards. -/
def allocMemory (mmap : ℤ → Bool) (alignment length : ℤ) (a : SpdsAllocImpl) (vm : Vm) :
    Except Fault (Option ℤ × SpdsAllocImpl × Vm) :=
  let a := { a with curChunk := alignDown alignment a.curChunk }
  if length ≤ a.curChunk % 4096 then
    .ok (none, { a with curChunk := a.curChunk - length }, vm)
  else do
    let oldChunk : ℤ := a.chunk
    let (page, vm) ← vm.spdsAllocatePage mmap
    let lastChunkInTheChain := if oldChunk > 0 then page else a.lastChunkInTheChain
    if a.isTempAlloc then
      .ok (some page, ⟨a.isTempAlloc, alignDown alignment (page - 4) - length, lastChunkInTheChain⟩,
        vm.store (page - 4) oldChunk)
    else .ok (some page, ⟨a.isTempAlloc, page - length, lastChunkInTheChain⟩, vm)

/-- `ReturnMemory`. -/
def returnMemory (a : SpdsAllocImpl) (vm : Vm) : Vm :=
  if a.chunk ≠ 4096 then vm.spdsPutAllocatedPagesToFreeList a.chunk a.lastChunkInTheChain else vm

end SpdsAllocImpl

/-! ## Who has what

A page is owned by an allocator, or by nobody; a region lies on one page. -/

/-- A piece of memory in use: by an allocator, or by `none` for a page taken directly. -/
structure Region where
  owner : Option ℕ
  address : ℤ
  length : ℤ
  alignment : ℤ
  deriving DecidableEq

namespace Region

/-- The page that a region starts in. -/
def page (r : Region) : ℤ := alignDown 4096 r.address + 4096

/-- Two regions do not meet. -/
def Apart (r r' : Region) : Prop :=
  r.address + r.length ≤ r'.address ∨ r'.address + r'.length ≤ r.address

end Region

/-- The VM, its allocators, the pages in use with their owners, and the regions in use. -/
structure System where
  vm : Vm
  allocators : ℕ → Option SpdsAllocImpl
  owned : List (Option ℕ × ℤ)
  live : List Region

/-- The pages of an owner, the last one taken first. -/
def pagesOf (owned : List (Option ℕ × ℤ)) (owner : Option ℕ) : List ℤ :=
  (owned.filter fun x => x.1 = owner).map Prod.snd

/-- What happens to the region. -/
inductive Op where
  /-- The constructor of an allocator. -/
  | create (i : ℕ) (isTempAlloc : Bool)
  /-- `Alloc`. -/
  | alloc (i : ℕ) (t : ObjectType)
  /-- The destructor of an allocator. -/
  | destroy (i : ℕ)
  /-- `SpdsAllocatePage`. -/
  | allocatePage
  /-- `SpdsPutAllocatedPagesToFreeList`, for pages that were taken directly. -/
  | putPages (firstPage lastPage : ℤ) (pages : List ℤ)
  /-- Writing into a region. -/
  | write (r : Region) (memory : ℤ → ℤ)

namespace System

/-- The machine before the first allocation: no allocator made and nothing handed out. -/
def initial : System where
  vm := .initial
  allocators := fun _ => none
  owned := []
  live := []

/-- Pages are no longer in use, nor what is on them. -/
def release (s : System) (pages : List ℤ) : System :=
  { s with
    owned := s.owned.filter fun x => x.2 ∉ pages
    live := s.live.filter fun r => r.page ∉ pages }

/-- The contract of each operation. -/
def Admits (s : System) : Op → Prop
  | .create i _ => s.allocators i = none
  | .alloc i t => ∃ a, s.allocators i = some a ∧ t.Admitted a.isTempAlloc
  | .destroy i => s.allocators i ≠ none
  | .allocatePage => True
  | .putPages firstPage lastPage pages =>
      (∃ chain stop, pages = chain ++ [lastPage] ∧ Linked s.vm.link stop firstPage pages) ∧
        pages.Nodup ∧ ∀ p ∈ pages, (none, p) ∈ s.owned
  | .write r memory => r ∈ s.live ∧
      ∀ address, address + 4 ≤ r.address ∨ r.address + r.length ≤ address →
        memory address = s.vm.memory address

/-- One operation; a failure that the VM reports ends the run. -/
def step (mmap : ℤ → Bool) (s : System) : Op → Except Fault System
  | .create i isTempAlloc =>
      .ok { s with allocators := Function.update s.allocators i (some (.initial isTempAlloc)) }
  | .alloc i t =>
      match s.allocators i with
      | none => .ok s
      | some a => do
          let (page, a, vm) ← a.allocMemory mmap t.alignment t.allocationSize s.vm
          .ok {
            vm := vm
            allocators := Function.update s.allocators i (some a)
            owned := page.toList.map (some i, ·) ++ s.owned
            live := ⟨some i, a.curChunk, t.allocationSize, t.alignment⟩ :: s.live }
  | .destroy i =>
      match s.allocators i with
      | none => .ok s
      | some a =>
          -- what other allocators than the temporary ones have stays in use
          if a.isTempAlloc then
            .ok { s.release (pagesOf s.owned (some i)) with
              vm := a.returnMemory s.vm
              allocators := Function.update s.allocators i none }
          else .ok s
  | .allocatePage => do
      let (page, vm) ← s.vm.spdsAllocatePage mmap
      .ok { s with
        vm := vm
        owned := (none, page) :: s.owned
        live := ⟨none, page - 4096, 4096, 4096⟩ :: s.live }
  | .putPages firstPage lastPage pages =>
      .ok { s.release pages with
        vm := s.vm.spdsPutAllocatedPagesToFreeList firstPage lastPage }
  | .write _ memory => .ok { s with vm := { s.vm with memory := memory } }

/-- The states of a run. -/
inductive Reachable (mmap : ℤ → Bool) : System → Prop
  | initial : Reachable mmap .initial
  | step {s s' : System} (op : Op) (h : Reachable mmap s) (hadmits : s.Admits op)
      (hstep : s.step mmap op = .ok s') : Reachable mmap s'

/-- Regions are aligned, on pages of their owners and apart, and free pages are nobody's. -/
structure Sound (s : System) : Prop where
  aligned : ∀ r ∈ s.live, r.alignment ∣ r.address
  inside : ∀ r ∈ s.live, 0 < r.length ∧
    ∃ page, (r.owner, page) ∈ s.owned ∧ page - 4096 ≤ r.address ∧ r.address + r.length ≤ page
  apart : s.live.Pairwise Region.Apart
  owned : (s.owned.map Prod.snd).Nodup
  free : ∃ free, Linked s.vm.link 4096 s.vm.spdsPageFreeList free ∧ free.Nodup ∧
    ∀ p ∈ free, ∀ owner, (owner, p) ∉ s.owned

end System

/-! ## Arithmetic of pages -/

/-- The page of an address. -/
theorem alignDown_page (x : ℤ) : 4096 ∣ alignDown 4096 x ∧ alignDown 4096 x ≤ x ∧
    x < alignDown 4096 x + 4096 := by
  rw [alignDown]
  omega

/-- A place between the ends of a page is on it. -/
theorem alignDown_eq {page x : ℤ} (hdvd : 4096 ∣ page) (hle : page - 4096 ≤ x) (hlt : x < page) :
    alignDown 4096 x + 4096 = page := by
  rw [alignDown]
  omega

namespace ObjectType.Admitted

variable {t : ObjectType} {isTempAlloc : Bool}

/-- The alignments there are. -/
theorem alignment_cases (h : t.Admitted isTempAlloc) : t.alignment = 1 ∨ t.alignment = 2 ∨
    t.alignment = 4 ∨ t.alignment = 8 ∨ t.alignment = 16 ∨ t.alignment = 32 := by
  obtain ⟨k, hk, heq⟩ := h.alignment
  interval_cases k <;> simp [heq]

/-- What the assertions of `AllocMemory` say of the length. -/
theorem allocationSize_spec (h : t.Admitted isTempAlloc) :
    0 < t.allocationSize ∧ t.alignment ∣ t.allocationSize := by
  have hpos := h.size_pos
  have hdvd := h.dvd
  rw [allocationSize]
  split_ifs
  · refine ⟨by omega, ?_⟩
    rcases h.alignment_cases with hal | hal | hal | hal | hal | hal
    all_goals
      rw [hal] at hdvd ⊢
      omega
  · exact ⟨hpos, hdvd⟩

/-- Aligning down stays on the page. -/
theorem alignDown_spec (h : t.Admitted isTempAlloc) (x : ℤ) :
    t.alignment ∣ alignDown t.alignment x ∧ alignDown t.alignment x ≤ x ∧
      alignDown 4096 (alignDown t.alignment x) = alignDown 4096 x := by
  simp only [alignDown]
  rcases h.alignment_cases with hal | hal | hal | hal | hal | hal
  all_goals
    rw [hal]
    omega

/-- An object fits on a page of its own, next to the link of a temporary page. -/
theorem fits (h : t.Admitted isTempAlloc) {page : ℤ} (hdvd : 4096 ∣ page) :
    page - 4096 ≤ alignDown t.alignment (page - if isTempAlloc then 4 else 0) - t.allocationSize ∧
      alignDown t.alignment page = page := by
  have hle := h.size_le
  rw [roundUpToMultipleOf] at hle
  rw [allocationSize, alignDown, alignDown]
  rcases h.alignment_cases with hal | hal | hal | hal | hal | hal
  all_goals
    rw [hal] at hle ⊢
    cases isTempAlloc <;> simp at hle ⊢ <;> omega

end ObjectType.Admitted

/-! ## What an allocation does

It fits on the current page, or a new one is taken. -/

namespace SpdsAllocImpl

variable {mmap : ℤ → Bool} {a a' : SpdsAllocImpl} {vm vm' : Vm} {t : ObjectType}
  {taken : Option ℤ}

/-- Aligning stays on the page. -/
theorem chunk_alignDown (h : t.Admitted a.isTempAlloc) :
    chunk { a with curChunk := alignDown t.alignment a.curChunk } = a.chunk :=
  congrArg (· + 4096) (h.alignDown_spec a.curChunk).2.2

/-- What an allocator is after it took a page for an object. -/
def onNewPage (a : SpdsAllocImpl) (t : ObjectType) (page : ℤ) : SpdsAllocImpl where
  isTempAlloc := a.isTempAlloc
  curChunk := (if a.isTempAlloc then alignDown t.alignment (page - 4) else page) - t.allocationSize
  lastChunkInTheChain := if a.chunk > 0 then page else a.lastChunkInTheChain

/-- **An object is put on the current page, or on a new one.** -/
theorem allocMemory_cases (h : t.Admitted a.isTempAlloc)
    (hok : a.allocMemory mmap t.alignment t.allocationSize vm = .ok (taken, a', vm')) :
    (taken = none ∧ vm' = vm ∧ t.allocationSize ≤ alignDown t.alignment a.curChunk % 4096 ∧
      a' = { a with curChunk := alignDown t.alignment a.curChunk - t.allocationSize }) ∨
    ∃ page vm₁, vm.spdsAllocatePage mmap = .ok (page, vm₁) ∧ taken = some page ∧
      vm' = (if a.isTempAlloc then vm₁.store (page - 4) a.chunk else vm₁) ∧
      a' = a.onNewPage t page := by
  rw [allocMemory] at hok
  simp only [chunk_alignDown h] at hok
  split at hok
  case isTrue hfit =>
    obtain ⟨rfl, rfl, rfl⟩ : none = taken ∧ _ = a' ∧ vm = vm' := by simpa using hok
    exact .inl ⟨rfl, rfl, hfit, rfl⟩
  case isFalse hfit =>
    cases hpage : vm.spdsAllocatePage mmap with
    | error e =>
        rw [hpage] at hok
        cases hok
    | ok r =>
        obtain ⟨page, vm₁⟩ := r
        rw [hpage] at hok
        refine .inr ⟨page, vm₁, rfl, ?_⟩
        cases htemp : a.isTempAlloc with
        | true =>
            obtain ⟨rfl, rfl, rfl⟩ : some page = taken ∧ _ = a' ∧ _ = vm' := by
              simpa [htemp, bind, Except.bind] using hok
            refine ⟨rfl, rfl, ?_⟩
            simp [onNewPage, htemp]
        | false =>
            obtain ⟨rfl, rfl, rfl⟩ : some page = taken ∧ _ = a' ∧ _ = vm' := by
              simpa [htemp, bind, Except.bind] using hok
            refine ⟨rfl, rfl, ?_⟩
            simp [onNewPage, htemp]

end SpdsAllocImpl

/-! ## The invariant

Every region is on a page of its owner, and no two regions meet. -/

/-- The pages of an owner. -/
theorem mem_pagesOf {owned : List (Option ℕ × ℤ)} {owner : Option ℕ} {page : ℤ} :
    page ∈ pagesOf owned owner ↔ (owner, page) ∈ owned := by
  simp [pagesOf]

namespace Region

/-- A region's page is the one it lies on. -/
theorem page_spec (r : Region) :
    4096 ∣ r.page ∧ r.page - 4096 ≤ r.address ∧ r.address < r.page := by
  have := alignDown_page r.address
  rw [page]
  omega

/-- Regions on different pages do not meet. -/
theorem apart_of_page_ne {r r' : Region} (h : r.address + r.length ≤ r.page)
    (h' : r'.address + r'.length ≤ r'.page) (hne : r.page ≠ r'.page) : r.Apart r' := by
  have hp := r.page_spec
  have hp' := r'.page_spec
  rw [Apart]
  omega

end Region

/-- The current page, the regions and, for a temporary allocator, the chain of its pages. -/
structure Keeps (vm : Vm) (live : List Region) (i : ℕ) (pages : List ℤ) (a : SpdsAllocImpl) :
    Prop where
  top : pages = [] ∧ a.curChunk = 0 ∨ ∃ rest, pages = a.chunk :: rest
  above : ∀ r ∈ live, r.owner = some i → r.page = a.chunk → a.curChunk ≤ r.address
  room : a.isTempAlloc → pages ≠ [] → a.curChunk ≤ a.chunk - 4
  below : a.isTempAlloc → ∀ r ∈ live, r.owner = some i → r.address + r.length ≤ r.page - 4
  linked : a.isTempAlloc → Linked vm.link 4096 a.chunk pages
  last : a.isTempAlloc → ∀ p ∈ pages.getLast?, a.lastChunkInTheChain = p

/-- An object below the last one on the current page. -/
theorem Keeps.push {vm : Vm} {live : List Region} {i : ℕ} {pages rest : List ℤ} {a : SpdsAllocImpl}
    {cur length alignment : ℤ} (h : Keeps vm live i pages a) (htop : pages = a.chunk :: rest)
    (hpos : 0 < length) (hle : cur + length ≤ a.curChunk)
    (hchunk : SpdsAllocImpl.chunk { a with curChunk := cur } = a.chunk)
    (hpage : Region.page ⟨some i, cur, length, alignment⟩ = a.chunk) :
    Keeps vm (⟨some i, cur, length, alignment⟩ :: live) i pages { a with curChunk := cur } where
  top := .inr ⟨rest, htop.trans (congrArg (· :: rest) hchunk.symm)⟩
  above r hr ho hpage' := by
    rcases List.mem_cons.mp hr with rfl | hr
    · exact le_rfl
    · have := h.above r hr ho (hpage'.trans hchunk)
      show cur ≤ _
      omega
  room htemp hne := by
    have := h.room htemp hne
    rw [hchunk]
    show cur ≤ _
    omega
  below htemp r hr ho := by
    rcases List.mem_cons.mp hr with rfl | hr
    · have := h.room htemp (htop ▸ List.cons_ne_nil _ _)
      rw [hpage]
      show cur + length ≤ _
      omega
    · exact h.below htemp r hr ho
  linked htemp := hchunk ▸ h.linked htemp
  last := h.last

/-- What every operation keeps, for the pages of the free list. -/
structure Inv (s : System) (free : List ℤ) : Prop where
  pages : Pages s.vm free (s.owned.map Prod.snd)
  inside : ∀ r ∈ s.live, (r.owner, r.page) ∈ s.owned ∧ 0 < r.length ∧ r.address + r.length ≤ r.page
  aligned : ∀ r ∈ s.live, r.alignment ∣ r.address
  apart : s.live.Pairwise Region.Apart
  keeps : ∀ i a, s.allocators i = some a → Keeps s.vm s.live i (pagesOf s.owned (some i)) a
  absent : ∀ i, s.allocators i = none → pagesOf s.owned (some i) = []

theorem SpdsAllocImpl.chunk_eq {a : SpdsAllocImpl} {page : ℤ} (hdvd : 4096 ∣ page)
    (hle : page - 4096 ≤ a.curChunk) (hlt : a.curChunk < page) : a.chunk = page :=
  alignDown_eq hdvd hle hlt

theorem Keeps.chunk_mem {vm : Vm} {live : List Region} {i : ℕ} {pages rest : List ℤ}
    {a : SpdsAllocImpl} (_ : Keeps vm live i pages a) (hrest : pages = a.chunk :: rest) :
    a.chunk ∈ pages := by
  rw [hrest]
  exact .head _

/-- Another operation leaves an allocator alone. -/
theorem Keeps.frame {vm vm' : Vm} {live live' : List Region} {i : ℕ} {pages : List ℤ}
    {a : SpdsAllocImpl} (h : Keeps vm live i pages a)
    (hlink : a.isTempAlloc → ∀ p ∈ pages, vm'.link p = vm.link p)
    (hlive : ∀ r ∈ live', r.owner = some i → r ∈ live) : Keeps vm' live' i pages a where
  top := h.top
  above r hr ho := h.above r (hlive r hr ho) ho
  room := h.room
  below htemp r hr ho := h.below htemp r (hlive r hr ho) ho
  linked htemp := (h.linked htemp).congr (hlink htemp)
  last := h.last

namespace Inv

variable {s s' : System} {free : List ℤ} {mmap : ℤ → Bool} {i : ℕ} {a : SpdsAllocImpl}
  {owner owner' : Option ℕ} {page : ℤ}

theorem initial : Inv .initial [] where
  pages := Pages.initial
  inside _ h := absurd h List.not_mem_nil
  aligned _ h := absurd h List.not_mem_nil
  apart := .nil
  keeps _ _ h := nomatch h
  absent _ _ := rfl

/-- A page has one owner. -/
theorem owner_eq (h : Inv s free) (ho : (owner, page) ∈ s.owned) (ho' : (owner', page) ∈ s.owned) :
    owner = owner' :=
  congrArg Prod.fst
    (List.inj_on_of_nodup_map (List.nodup_append.mp h.pages.nodup).2.1 ho ho' rfl)

/-- A free page has no owner. -/
theorem not_owned (h : Inv s free) (hfree : page ∈ free) : (owner, page) ∉ s.owned :=
  fun ho => (List.nodup_append.mp h.pages.nodup).2.2 page hfree page
    (List.mem_map_of_mem (f := Prod.snd) ho) rfl

/-- A page that is owned is a page of the region. -/
theorem page_dvd (h : Inv s free) (ho : (owner, page) ∈ s.owned) : 4096 ∣ page ∧ page ≤ -4096 := by
  have := h.pages.place page (List.mem_append_right _ (List.mem_map_of_mem (f := Prod.snd) ho))
  exact ⟨this.1, this.2.2⟩

/-- **The invariant is sound.** -/
theorem sound (h : Inv s free) : s.Sound where
  aligned := h.aligned
  inside r hr := by
    obtain ⟨ho, hpos, hle⟩ := h.inside r hr
    exact ⟨hpos, r.page, ho, r.page_spec.2.1, hle⟩
  apart := h.apart
  owned := (List.nodup_append.mp h.pages.nodup).2.1
  free := ⟨free, h.pages.linked, (List.nodup_append.mp h.pages.nodup).1,
    fun _ hp _ => h.not_owned hp⟩

/-! ## The operations -/

/-- A new allocator has no page. -/
theorem create (h : Inv s free) (hnone : s.allocators i = none) (isTempAlloc : Bool) :
    Inv { s with allocators := Function.update s.allocators i (some (.initial isTempAlloc)) }
      free := by
  have hempty := h.absent i hnone
  refine { h with keeps := fun j b hj => ?_, absent := fun j hj => ?_ }
  · by_cases hji : j = i
    · subst hji
      obtain rfl : SpdsAllocImpl.initial isTempAlloc = b := by simpa using hj
      have hno : ∀ r ∈ s.live, r.owner ≠ some j := by
        intro r hr ho
        have := mem_pagesOf.mpr (ho ▸ (h.inside r hr).1)
        rw [hempty] at this
        exact List.not_mem_nil this
      rw [hempty]
      exact {
        top := .inl ⟨rfl, rfl⟩
        above := fun r hr ho => absurd ho (hno r hr)
        room := fun _ hne => absurd rfl hne
        below := fun _ r hr ho => absurd ho (hno r hr)
        linked := fun _ => rfl
        last := fun _ p hp => nomatch hp }
    · exact h.keeps j b (by simpa [hji] using hj)
  · by_cases hji : j = i
    · subst hji
      exact hempty
    · exact h.absent j (by simpa [hji] using hj)

/-- **A region more**, and maybe a page more for its owner: everybody else is left alone. -/
theorem add (h : Inv s free) {vm : Vm} {allocators : ℕ → Option SpdsAllocImpl}
    {owned : List (Option ℕ × ℤ)} {free' : List ℤ} {r : Region}
    (hpages : Pages vm free' (owned.map Prod.snd)) (hsub : ∀ x ∈ s.owned, x ∈ owned)
    (hlink : ∀ x ∈ s.owned, vm.link x.2 = s.vm.link x.2)
    (hin : (r.owner, r.page) ∈ owned ∧ 0 < r.length ∧ r.address + r.length ≤ r.page)
    (haligned : r.alignment ∣ r.address)
    (habove : ∀ r' ∈ s.live, r'.page = r.page → r.address + r.length ≤ r'.address)
    (hothers : ∀ j, some j ≠ r.owner → allocators j = s.allocators j ∧
      pagesOf owned (some j) = pagesOf s.owned (some j))
    (hkeeps : ∀ j, some j = r.owner →
      ∃ b, allocators j = some b ∧ Keeps vm (r :: s.live) j (pagesOf owned (some j)) b) :
    Inv ⟨vm, allocators, owned, r :: s.live⟩ free' where
  pages := hpages
  inside := List.forall_mem_cons.mpr
    ⟨hin, fun r' hr' => ⟨hsub _ (h.inside r' hr').1, (h.inside r' hr').2⟩⟩
  aligned := List.forall_mem_cons.mpr ⟨haligned, h.aligned⟩
  apart := by
    refine List.pairwise_cons.mpr ⟨fun r' hr' => ?_, h.apart⟩
    by_cases hpage : r'.page = r.page
    · exact .inl (habove r' hr' hpage)
    · exact Region.apart_of_page_ne hin.2.2 (h.inside r' hr').2.2 (Ne.symm hpage)
  keeps j b hj := by
    by_cases hjr : some j = r.owner
    · obtain ⟨b', hb', hkeeps⟩ := hkeeps j hjr
      obtain rfl : b' = b := Option.some.inj (hb'.symm.trans hj)
      exact hkeeps
    · obtain ⟨halloc, howned⟩ := hothers j hjr
      refine howned ▸ (h.keeps j b (halloc ▸ hj)).frame (fun _ p hp => ?_) fun r' hr' ho => ?_
      · exact hlink _ (mem_pagesOf.mp hp)
      · rcases List.mem_cons.mp hr' with rfl | hr'
        · exact absurd ho.symm hjr
        · exact hr'
  absent j hj := by
    by_cases hjr : some j = r.owner
    · obtain ⟨b, hb, -⟩ := hkeeps j hjr
      exact nomatch hb.symm.trans hj
    · obtain ⟨halloc, howned⟩ := hothers j hjr
      exact howned ▸ h.absent j (halloc ▸ hj)

/-- **An object on the current page.** -/
theorem allocFit (h : Inv s free) (hi : s.allocators i = some a) {t : ObjectType}
    (ht : t.Admitted a.isTempAlloc)
    (hfit : t.allocationSize ≤ alignDown t.alignment a.curChunk % 4096) :
    Inv { s with
      allocators := Function.update s.allocators i
        (some { a with curChunk := alignDown t.alignment a.curChunk - t.allocationSize })
      live := ⟨some i, alignDown t.alignment a.curChunk - t.allocationSize, t.allocationSize,
        t.alignment⟩ :: s.live } free := by
  obtain ⟨hpos, hdvd⟩ := ht.allocationSize_spec
  obtain ⟨haligned, hle, hsame⟩ := ht.alignDown_spec a.curChunk
  have hkeeps := h.keeps i a hi
  obtain ⟨hpage, hlow, hhigh⟩ := alignDown_page a.curChunk
  have hbase : alignDown 4096 a.curChunk ≤ alignDown t.alignment a.curChunk - t.allocationSize := by
    have := Int.emod_add_mul_ediv (alignDown t.alignment a.curChunk) 4096
    have hdown : alignDown t.alignment a.curChunk / 4096 * 4096 = alignDown 4096 a.curChunk := hsame
    omega
  generalize hcur : alignDown t.alignment a.curChunk = cur at *
  have hchunk : SpdsAllocImpl.chunk { a with curChunk := cur - t.allocationSize } = a.chunk :=
    SpdsAllocImpl.chunk_eq (by rw [SpdsAllocImpl.chunk]; omega)
      (by rw [SpdsAllocImpl.chunk]; simp only; omega)
      (by rw [SpdsAllocImpl.chunk]; simp only; omega)
  have hregion : Region.page
      ⟨some i, cur - t.allocationSize, t.allocationSize, t.alignment⟩ = a.chunk := hchunk
  -- an allocator without pages does not get here
  obtain ⟨rest, htop⟩ : ∃ rest, pagesOf s.owned (some i) = a.chunk :: rest := by
    refine hkeeps.top.resolve_left fun ⟨_, hzero⟩ => ?_
    rw [hzero] at hcur
    rw [← hcur, alignDown, Int.zero_ediv, Int.zero_mul] at hfit
    omega
  have howns : (some i, a.chunk) ∈ s.owned := mem_pagesOf.mp (hkeeps.chunk_mem htop)
  have hend : a.curChunk < a.chunk := hhigh
  have habove : ∀ r' ∈ s.live, r'.page = a.chunk → a.curChunk ≤ r'.address := by
    intro r' hr' hpage
    have ho := h.owner_eq (hpage ▸ (h.inside r' hr').1) howns
    exact hkeeps.above r' hr' ho hpage
  refine h.add h.pages (fun _ hx => hx) (fun _ _ => rfl) ⟨?_, hpos, ?_⟩ ?_ ?_ ?_ ?_
  · exact hregion.symm ▸ howns
  · rw [hregion]
    show cur - t.allocationSize + t.allocationSize ≤ _
    omega
  · exact Int.dvd_sub haligned hdvd
  · intro r' hr' hpage
    have := habove r' hr' (hpage.trans hchunk)
    show cur - t.allocationSize + t.allocationSize ≤ _
    omega
  · intro j hj
    have hji : j ≠ i := fun heq => hj (congrArg some heq)
    exact ⟨Function.update_of_ne hji .., rfl⟩
  · intro j hj
    obtain rfl : j = i := Option.some.inj hj
    exact ⟨_, Function.update_self .., hkeeps.push htop hpos (by omega) hchunk hregion⟩

/-- **Where the object is**: aligned, on the page, and not on the link of a temporary page. -/
theorem onNewPage_spec {t : ObjectType} (ht : t.Admitted a.isTempAlloc) (hdvd : 4096 ∣ page) :
    t.alignment ∣ (a.onNewPage t page).curChunk ∧ (a.onNewPage t page).chunk = page ∧
      (a.onNewPage t page).curChunk + t.allocationSize ≤ page - if a.isTempAlloc then 4 else 0 := by
  obtain ⟨hpos, hsize⟩ := ht.allocationSize_spec
  obtain ⟨hlow, hal⟩ := ht.fits hdvd
  have hcur : (a.onNewPage t page).curChunk =
      alignDown t.alignment (page - if a.isTempAlloc then 4 else 0) - t.allocationSize := by
    rw [SpdsAllocImpl.onNewPage]
    by_cases htemp : a.isTempAlloc = true
    · simp only [htemp, if_true]
    · simp [htemp, hal]
  obtain ⟨haligned, hle, -⟩ := ht.alignDown_spec (page - if a.isTempAlloc then 4 else 0)
  have hroom : page - (if a.isTempAlloc then 4 else 0) ≤ page := by split_ifs <;> omega
  refine ⟨hcur ▸ Int.dvd_sub haligned hsize, SpdsAllocImpl.chunk_eq hdvd (hcur ▸ hlow) ?_, ?_⟩
  · omega
  · omega

/-- **A page for an allocator**: a temporary one writes the link to its page before into it, which
is no link of another page. -/
theorem exists_pages_of_page (h : Inv s free) {vm₁ vm : Vm}
    (hpage : s.vm.spdsAllocatePage mmap = .ok (page, vm₁))
    (hvm : vm = if a.isTempAlloc then vm₁.store (page - 4) a.chunk else vm₁) :
    (∃ free', Pages vm free' (page :: s.owned.map Prod.snd)) ∧
      (∀ x ∈ s.owned, x.2 ≠ page ∧ vm.link x.2 = s.vm.link x.2) ∧
      (a.isTempAlloc → vm.link page = a.chunk) := by
  obtain ⟨free', hpages, hkeep⟩ := h.pages.allocatePage mmap hpage
  obtain ⟨-, hnd, hdisj⟩ := List.nodup_append.mp hpages.nodup
  have hne : ∀ x ∈ s.owned, x.2 ≠ page := fun x hx heq =>
    (List.nodup_cons.mp hnd).1 (heq ▸ List.mem_map_of_mem (f := Prod.snd) hx)
  have hlink : ∀ q ≠ page, vm.link q = vm₁.link q := by
    intro q hq
    rw [hvm]
    split_ifs
    · exact Vm.link_store_of_ne hq
    · rfl
  refine ⟨⟨free', ?_⟩, fun x hx => ⟨hne x hx, ?_⟩, fun htemp => ?_⟩
  · have hfree : ∀ q ∈ free', vm.link q = vm₁.link q :=
      fun q hq => hlink q fun heq => hdisj q hq page (.head _) heq
    have hvm' : vm = { vm₁ with memory := vm.memory } := by
      rw [hvm]
      split_ifs <;> rfl
    rw [hvm']
    exact hpages.frame hfree
  · exact (hlink _ (hne x hx)).trans (hkeep _ (List.mem_map_of_mem (f := Prod.snd) hx))
  · rw [hvm, if_pos htemp]
    exact Vm.link_store_self

/-- **The allocator on its new page**, in front of the pages it had. -/
theorem keeps_onNewPage (h : Inv s free) (hi : s.allocators i = some a) {t : ObjectType}
    (ht : t.Admitted a.isTempAlloc) (hdvd : 4096 ∣ page) {vm : Vm}
    (howned : ∀ x ∈ s.owned, x.2 ≠ page ∧ vm.link x.2 = s.vm.link x.2)
    (hlink : a.isTempAlloc → vm.link page = a.chunk) :
    Keeps vm (⟨some i, (a.onNewPage t page).curChunk, t.allocationSize, t.alignment⟩ :: s.live) i
      (page :: pagesOf s.owned (some i)) (a.onNewPage t page) := by
  have hkeeps := h.keeps i a hi
  obtain ⟨-, hchunk, hend⟩ := onNewPage_spec ht hdvd
  have hpos := ht.allocationSize_spec.1
  constructor
  case top => exact .inr ⟨_, congrArg (· :: _) hchunk.symm⟩
  case above =>
    intro r' hr' ho hpage
    rcases List.mem_cons.mp hr' with rfl | hr'
    · exact le_rfl
    · exact absurd (hpage.trans hchunk) (howned _ (h.inside r' hr').1).1
  case room =>
    intro htemp _
    have htemp' : a.isTempAlloc = true := htemp
    rw [hchunk]
    rw [if_pos htemp'] at hend
    omega
  case below =>
    intro htemp r' hr' ho
    have htemp' : a.isTempAlloc = true := htemp
    rcases List.mem_cons.mp hr' with rfl | hr'
    · have hregion : Region.page
          ⟨some i, (a.onNewPage t page).curChunk, t.allocationSize, t.alignment⟩ = page := hchunk
      rw [hregion]
      rwa [if_pos htemp'] at hend
    · exact hkeeps.below htemp' r' hr' ho
  case linked =>
    intro htemp
    refine ⟨hchunk, ?_⟩
    rw [hlink htemp]
    exact (hkeeps.linked htemp).congr fun q hq => (howned _ (mem_pagesOf.mp hq)).2
  case last =>
    intro htemp q hq
    rcases hkeeps.top with ⟨hnil, hzero⟩ | ⟨rest, hrest⟩
    · -- the first page is the last one of the chain
      have hpositive : a.chunk > 0 := by
        rw [SpdsAllocImpl.chunk, alignDown, hzero]
        decide
      rw [hnil] at hq
      simp only [SpdsAllocImpl.onNewPage, hpositive, if_true]
      simpa using hq
    · have hle := (h.page_dvd (mem_pagesOf.mp (hkeeps.chunk_mem hrest))).2
      rw [hrest, List.getLast?_cons_cons, ← hrest] at hq
      simp only [SpdsAllocImpl.onNewPage, show ¬ a.chunk > 0 by omega, if_false]
      exact hkeeps.last htemp q hq

/-- **An object on a new page.** -/
theorem allocNew (h : Inv s free) (hi : s.allocators i = some a) {t : ObjectType}
    (ht : t.Admitted a.isTempAlloc) {vm₁ vm : Vm}
    (hpage : s.vm.spdsAllocatePage mmap = .ok (page, vm₁))
    (hvm : vm = if a.isTempAlloc then vm₁.store (page - 4) a.chunk else vm₁) :
    ∃ free', Inv ⟨vm, Function.update s.allocators i (some (a.onNewPage t page)),
      (some i, page) :: s.owned, ⟨some i, (a.onNewPage t page).curChunk, t.allocationSize,
        t.alignment⟩ :: s.live⟩ free' := by
  obtain ⟨⟨free', hpages⟩, howned, hlink⟩ := h.exists_pages_of_page hpage hvm
  have hdvd := (hpages.place page (by simp)).1
  obtain ⟨haligned, hchunk, hend⟩ := onNewPage_spec ht hdvd
  have hroom : page - (if a.isTempAlloc then 4 else 0) ≤ page := by split_ifs <;> omega
  have hregion : Region.page
      ⟨some i, (a.onNewPage t page).curChunk, t.allocationSize, t.alignment⟩ = page := hchunk
  have hpagesOf :
      pagesOf ((some i, page) :: s.owned) (some i) = page :: pagesOf s.owned (some i) := by
    simp [pagesOf]
  refine ⟨free', h.add hpages (fun _ hx => .tail _ hx) (fun x hx => (howned x hx).2)
    ⟨?_, ht.allocationSize_spec.1, ?_⟩ haligned ?_ ?_ ?_⟩
  · rw [hregion]
    exact .head _
  · rw [hregion]
    exact hend.trans hroom
  · exact fun r' hr' hpage' => absurd (hpage'.trans hregion) (howned _ (h.inside r' hr').1).1
  · intro j hj
    have hji : j ≠ i := fun heq => hj (congrArg some heq)
    exact ⟨Function.update_of_ne hji .., by simp [pagesOf, Ne.symm hji]⟩
  · intro j hj
    obtain rfl : j = i := Option.some.inj hj
    exact ⟨_, Function.update_self .., hpagesOf ▸ h.keeps_onNewPage hi ht hdvd howned hlink⟩

/-- **A page taken directly.** -/
theorem allocatePage (h : Inv s free) {vm : Vm}
    (hpage : s.vm.spdsAllocatePage mmap = .ok (page, vm)) :
    ∃ free', Inv { s with
      vm := vm
      owned := (none, page) :: s.owned
      live := ⟨none, page - 4096, 4096, 4096⟩ :: s.live } free' := by
  obtain ⟨free', hpages, hkeep⟩ := h.pages.allocatePage mmap hpage
  have hnew := (List.nodup_cons.mp (List.nodup_append.mp hpages.nodup).2.1).1
  have hpagedvd := (hpages.place page (by simp)).1
  have hregion : Region.page ⟨none, page - 4096, 4096, 4096⟩ = page :=
    alignDown_eq hpagedvd le_rfl (by show page - 4096 < page; omega)
  refine ⟨free', h.add hpages (fun _ hx => .tail _ hx) (fun x hx => ?_)
    ⟨?_, by show (0 : ℤ) < 4096; decide, ?_⟩ ?_ ?_ ?_ ?_⟩
  · exact hkeep _ (List.mem_map_of_mem (f := Prod.snd) hx)
  · rw [hregion]
    exact .head _
  · rw [hregion]
    show page - 4096 + 4096 ≤ page
    omega
  · exact Int.dvd_sub hpagedvd (dvd_refl _)
  · intro r' hr' hpage
    refine absurd ?_ hnew
    exact hregion ▸ hpage ▸ List.mem_map_of_mem (f := Prod.snd) (h.inside r' hr').1
  · exact fun j _ => ⟨rfl, by simp [pagesOf]⟩
  · exact fun j hj => nomatch hj

/-- The pages given back and those still owned are those that were owned. -/
theorem release_owned_perm (h : Inv s free) {pages : List ℤ} (hnd : pages.Nodup)
    (howns : ∀ p ∈ pages, (owner, p) ∈ s.owned) :
    (pages ++ (s.release pages).owned.map Prod.snd).Perm (s.owned.map Prod.snd) := by
  have hused : (s.owned.map Prod.snd).Nodup := (List.nodup_append.mp h.pages.nodup).2.1
  have hrest : ((s.release pages).owned.map Prod.snd)
      = (s.owned.map Prod.snd).filter fun p => p ∉ pages := by
    rw [List.filter_map]
    rfl
  rw [hrest]
  refine (List.perm_ext_iff_of_nodup ?_ hused).mpr fun p => ?_
  · refine List.nodup_append.mpr ⟨hnd, hused.filter _, ?_⟩
    rintro p hp q hq rfl
    exact of_decide_eq_true (List.mem_filter.mp hq).2 hp
  · rw [List.mem_append, List.mem_filter]
    by_cases hp : p ∈ pages
    · simpa [hp] using ⟨owner, howns p hp⟩
    · simp [hp]

/-- Everybody else keeps their pages. -/
theorem pagesOf_release (h : Inv s free) {pages : List ℤ}
    (howns : ∀ p ∈ pages, (owner, p) ∈ s.owned) {j : ℕ} (hj : some j ≠ owner) :
    pagesOf (s.release pages).owned (some j) = pagesOf s.owned (some j) := by
  rw [pagesOf, System.release, List.filter_filter, pagesOf]
  refine congrArg _ (List.filter_congr fun x hx => ?_)
  by_cases hxj : x.1 = some j
  · have hno : x.2 ∉ pages := fun hp => hj (hxj ▸ h.owner_eq hx (howns _ hp))
    simp [hxj, hno]
  · simp [hxj]

/-- **A chain of pages given back**: they are free afterwards, and everybody else keeps theirs. -/
theorem release (h : Inv s free) {pages chain : List ℤ} {first last stop : ℤ}
    {allocators : ℕ → Option SpdsAllocImpl} (hchain : pages = chain ++ [last])
    (hlinked : Linked s.vm.link stop first pages) (hnd : pages.Nodup)
    (howns : ∀ p ∈ pages, (owner, p) ∈ s.owned)
    (hothers : ∀ j, some j ≠ owner → allocators j = s.allocators j)
    (hgone : ∀ j, some j = owner → allocators j = none ∧ pages = pagesOf s.owned (some j)) :
    Inv { s.release pages with
      vm := s.vm.spdsPutAllocatedPagesToFreeList first last
      allocators := allocators } (pages ++ free) := by
  have hperm := h.release_owned_perm hnd howns
  have hput : Pages (s.vm.spdsPutAllocatedPagesToFreeList first last) (chain ++ last :: free)
      ((s.release pages).owned.map Prod.snd) := by
    refine (h.pages.perm ?_).put (hchain ▸ hlinked)
    rw [hchain, List.append_assoc, List.singleton_append] at hperm
    exact hchain ▸ hperm
  have hlast : last ∈ pages := by simp [hchain]
  have hlive : ∀ r ∈ (s.release pages).live, r ∈ s.live ∧ r.page ∉ pages := by
    intro r hr
    simpa [System.release] using hr
  constructor
  case pages =>
    rw [hchain, List.append_assoc]
    exact hchain ▸ hput
  case inside =>
    intro r hr
    obtain ⟨hr, hno⟩ := hlive r hr
    obtain ⟨ho, hin⟩ := h.inside r hr
    exact ⟨List.mem_filter.mpr ⟨ho, by simp [hno]⟩, hin⟩
  case aligned => exact fun r hr => h.aligned r (hlive r hr).1
  case apart => exact h.apart.filter _
  case keeps =>
    intro j b hj
    by_cases hjo : some j = owner
    · exact nomatch (hgone j hjo).1.symm.trans hj
    · have hb := h.keeps j b (hothers j hjo ▸ hj)
      refine (h.pagesOf_release howns hjo).symm ▸
        hb.frame (fun _ p hp => ?_) fun r hr _ => (hlive r hr).1
      refine Vm.link_store_of_ne ?_
      rintro rfl
      exact hjo (h.owner_eq (mem_pagesOf.mp hp) (howns _ hlast))
  case absent =>
    intro j hj
    by_cases hjo : some j = owner
    · rw [pagesOf, System.release, List.filter_filter, List.map_eq_nil_iff, List.filter_eq_nil_iff]
      rintro ⟨o, p⟩ hx
      have hmem : o = some j → p ∈ pages := by
        rintro rfl
        exact (hgone j hjo).2 ▸ mem_pagesOf.mpr hx
      simpa using hmem
    · exact (h.pagesOf_release howns hjo).trans (h.absent j (hothers j hjo ▸ hj))

/-- **The destructor** gives back the chain of all pages of a temporary allocator. -/
theorem destroy (h : Inv s free) (hi : s.allocators i = some a) (htemp : a.isTempAlloc = true) :
    ∃ free', Inv { s.release (pagesOf s.owned (some i)) with
      vm := a.returnMemory s.vm
      allocators := Function.update s.allocators i none } free' := by
  have hkeeps := h.keeps i a hi
  have hothers : ∀ j, some j ≠ some i →
      Function.update s.allocators i none j = s.allocators j := fun j hj =>
    Function.update_of_ne (fun heq => hj (congrArg some heq)) ..
  have hgone : ∀ j, some j = some i → Function.update s.allocators i none j = none ∧
      pagesOf s.owned (some i) = pagesOf s.owned (some j) := by
    intro j hj
    obtain rfl := Option.some.inj hj
    exact ⟨Function.update_self .., rfl⟩
  have hnd : (pagesOf s.owned (some i)).Nodup :=
    (List.nodup_append.mp h.pages.nodup).2.1.sublist (List.filter_sublist.map _)
  rcases hkeeps.top with ⟨hnil, hzero⟩ | ⟨rest, hrest⟩
  · have hchunk : a.chunk = 4096 := by rw [SpdsAllocImpl.chunk, hzero]; rfl
    have hsame : s.release [] = s := by simp [System.release]
    rw [hnil, hsame, SpdsAllocImpl.returnMemory, if_neg (not_not.mpr hchunk)]
    refine ⟨free, { h with keeps := fun j b hj => ?_, absent := fun j hj => ?_ }⟩
    · by_cases hji : some j = some i
      · exact nomatch (hgone j hji).1.symm.trans hj
      · exact h.keeps j b (hothers j hji ▸ hj)
    · by_cases hji : some j = some i
      · exact (hgone j hji).2.symm.trans hnil
      · exact h.absent j (hothers j hji ▸ hj)
  · have hne : pagesOf s.owned (some i) ≠ [] := hrest ▸ List.cons_ne_nil _ _
    have hneg := (h.page_dvd (mem_pagesOf.mp (hkeeps.chunk_mem hrest))).2
    have hlast := hkeeps.last htemp _ (List.getLast?_eq_some_getLast hne)
    rw [SpdsAllocImpl.returnMemory, if_pos (by omega), hlast]
    exact ⟨_, h.release (List.dropLast_append_getLast hne).symm (hkeeps.linked htemp) hnd
      (fun p hp => mem_pagesOf.mp hp) hothers hgone⟩

/-- **Writing** into a region leaves the links of free pages and of temporary pages alone. -/
theorem write (h : Inv s free) {r : Region} (hr : r ∈ s.live) {memory : ℤ → ℤ}
    (hmem : ∀ address, address + 4 ≤ r.address ∨ r.address + r.length ≤ address →
      memory address = s.vm.memory address) :
    Inv { s with vm := { s.vm with memory := memory } } free := by
  obtain ⟨ho, hpos, hend⟩ := h.inside r hr
  have hr' := r.page_spec
  have hother : ∀ p, 4096 ∣ p → r.page ≠ p → memory (p - 4) = s.vm.memory (p - 4) :=
    fun p hp hne => hmem _ (by omega)
  refine { h with pages := h.pages.frame fun p hp => ?_, keeps := fun j b hj => ?_ }
  · refine hother p (h.pages.place p (List.mem_append_left _ hp)).1 ?_
    rintro rfl
    exact h.not_owned hp ho
  · have hb := h.keeps j b hj
    refine hb.frame (fun htemp p hp => ?_) fun _ hr _ => hr
    have howned := mem_pagesOf.mp hp
    by_cases hpage : r.page = p
    · subst hpage
      have := hb.below htemp r hr (h.owner_eq ho howned)
      exact hmem _ (by omega)
    · exact hother p (h.page_dvd howned).1 hpage

/-- **Every operation keeps the invariant.** -/
theorem step (h : Inv s free) {op : Op} (hadmits : s.Admits op)
    (hstep : s.step mmap op = .ok s') : ∃ free', Inv s' free' := by
  cases op with
  | create i isTempAlloc =>
      obtain rfl : _ = s' := Except.ok.inj hstep
      exact ⟨free, h.create hadmits isTempAlloc⟩
  | alloc i t =>
      obtain ⟨a, hi, ht⟩ := hadmits
      rw [System.step, hi] at hstep
      cases halloc : a.allocMemory mmap t.alignment t.allocationSize s.vm with
      | error e =>
          simp [halloc, bind, Except.bind] at hstep
      | ok result =>
          obtain ⟨taken, a', vm⟩ := result
          simp only [halloc, bind, Except.bind] at hstep
          obtain rfl := Except.ok.inj hstep
          obtain ⟨rfl, rfl, hfit, rfl⟩ | ⟨page, vm₁, hpage, rfl, hvm, rfl⟩ :=
            SpdsAllocImpl.allocMemory_cases ht halloc
          · exact ⟨free, h.allocFit hi ht hfit⟩
          · exact h.allocNew hi ht hpage hvm
  | destroy i =>
      obtain ⟨a, hi⟩ := Option.ne_none_iff_exists'.mp hadmits
      simp only [System.step, hi] at hstep
      split at hstep
      case isTrue htemp =>
        obtain rfl := Except.ok.inj hstep
        exact h.destroy hi htemp
      case isFalse =>
        obtain rfl := Except.ok.inj hstep
        exact ⟨free, h⟩
  | allocatePage =>
      rw [System.step] at hstep
      cases hpage : s.vm.spdsAllocatePage mmap with
      | error e => simp [hpage, bind, Except.bind] at hstep
      | ok result =>
          simp only [hpage, bind, Except.bind] at hstep
          obtain rfl := Except.ok.inj hstep
          exact h.allocatePage hpage
  | putPages first last pages =>
      obtain ⟨⟨chain, stop, hchain, hlinked⟩, hnd, howns⟩ := hadmits
      obtain rfl : _ = s' := Except.ok.inj hstep
      exact ⟨_, h.release hchain hlinked hnd howns (fun _ _ => rfl) fun _ hj => nomatch hj⟩
  | write r memory =>
      obtain rfl : _ = s' := Except.ok.inj hstep
      exact ⟨free, h.write hadmits.1 hadmits.2⟩

end Inv

/-- Every reachable state has the invariant. -/
theorem System.Reachable.inv {mmap : ℤ → Bool} {s : System} (h : System.Reachable mmap s) :
    ∃ free, Inv s free := by
  induction h with
  | initial => exact ⟨[], Inv.initial⟩
  | step op _ hadmits hstep ih =>
      obtain ⟨free, hfree⟩ := ih
      exact hfree.step hadmits hstep

/-- **The region is sound at every moment of every run**: what is allocated is aligned, on a page of
its owner and apart from everything else in use, and the free list holds pages of nobody, each
once. -/
theorem spdsRegion_sound {mmap : ℤ → Bool} {s : System} (h : System.Reachable mmap s) :
    s.Sound := by
  obtain ⟨free, hfree⟩ := h.inv
  exact hfree.sound

/-- Three words for a temporary allocator. -/
def threeWords : ObjectType := ⟨24, 8, false⟩

theorem threeWords_admitted : threeWords.Admitted true where
  alignment := ⟨3, by decide, rfl⟩
  size_pos := by decide
  dvd := by decide
  size_le := by decide

/-- All of a page that a temporary allocator can use. -/
def wholePage : ObjectType := ⟨4088, 8, false⟩

theorem wholePage_admitted : wholePage.Admitted true where
  alignment := ⟨3, by decide, rfl⟩
  size_pos := by decide
  dvd := by decide
  size_le := by decide

/-- An allocator gives back its page, and another one takes it. -/
theorem spdsRegion_sound_reusedPage : ∃ s s' s'' : System,
    [Op.create 0 true, .alloc 0 threeWords, .create 1 true, .alloc 1 threeWords].foldlM
      (System.step fun _ => true) System.initial = .ok s ∧
      s.live = [⟨some 1, -12320, 24, 8⟩, ⟨some 0, -4128, 24, 8⟩] ∧
      s.step (fun _ => true) (.destroy 0) = .ok s' ∧
      s'.step (fun _ => true) (.alloc 1 wholePage) = .ok s'' ∧
      s''.live = [⟨some 1, -8192, 4088, 8⟩, ⟨some 1, -12320, 24, 8⟩] ∧ s''.Sound := by
  have h₁ : System.Reachable (fun _ => true) _ := .step (.create 0 true) .initial rfl rfl
  have h₂ : System.Reachable (fun _ => true) _ :=
    .step (.alloc 0 threeWords) h₁ ⟨_, rfl, threeWords_admitted⟩ rfl
  have h₃ : System.Reachable (fun _ => true) _ := .step (.create 1 true) h₂ rfl rfl
  have h₄ : System.Reachable (fun _ => true) _ :=
    .step (.alloc 1 threeWords) h₃ ⟨_, rfl, threeWords_admitted⟩ rfl
  have h₅ : System.Reachable (fun _ => true) _ := .step (.destroy 0) h₄ nofun rfl
  have h₆ : System.Reachable (fun _ => true) _ :=
    .step (.alloc 1 wholePage) h₅ ⟨_, rfl, wholePage_admitted⟩ rfl
  exact ⟨_, _, _, rfl, rfl, rfl, rfl, rfl, spdsRegion_sound h₆⟩

end Spds

end Dsom
