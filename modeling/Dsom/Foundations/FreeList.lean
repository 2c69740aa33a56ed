import Mathlib.Data.List.Perm.Subperm
import Mathlib.Data.List.Nodup
import Mathlib.Data.List.ReduceOption

/-!
# Foundations/FreeList — handing out ordinals through a free list

An allocator hands out the ordinal on top of its free list, or the next fresh one.  `Owns lo a
used`: the ordinals of the free list and of `used` are all different and lie between `lo` and the
next fresh one.  So two owners never share an ordinal; allocating, deallocating and passing an
ordinal on from one owner to the next keep it.
-/

namespace Dsom

/-- The free list (its top first), and the next fresh ordinal. -/
structure FreeList where
  freeList : List ℕ
  firstAvailableOrdinal : ℕ
  deriving DecidableEq, Inhabited

namespace FreeList

/-- `Allocate`. -/
def allocate (a : FreeList) : ℕ × FreeList :=
  match a.freeList with
  | r :: rest => (r, { a with freeList := rest })
  | [] => (a.firstAvailableOrdinal, { a with firstAvailableOrdinal := a.firstAvailableOrdinal + 1 })

/-- `Deallocate`. -/
def deallocate (a : FreeList) (r : ℕ) : FreeList := { a with freeList := r :: a.freeList }

/-- An ordinal for each of `ops`: one that is passed on, or a new one. -/
def assign : List (Option ℕ) → FreeList → List ℕ × FreeList
  | [], a => ([], a)
  | some r :: ops, a => (r :: (assign ops a).1, (assign ops a).2)
  | none :: ops, a => (a.allocate.1 :: (assign ops a.allocate.2).1, (assign ops a.allocate.2).2)

/-- The ordinals in use are different from each other and from the free ones. -/
structure Owns (lo : ℕ) (a : FreeList) (used : List ℕ) : Prop where
  nodup : (a.freeList ++ used).Nodup
  lower : ∀ r ∈ a.freeList ++ used, lo ≤ r
  upper : ∀ r ∈ a.freeList ++ used, r < a.firstAvailableOrdinal
  le : lo ≤ a.firstAvailableOrdinal

namespace Owns

variable {lo : ℕ} {a : FreeList} {used used' : List ℕ} {r : ℕ}

/-- The order of the ordinals in use does not matter. -/
theorem perm (h : Owns lo a used) (hp : used'.Perm used) : Owns lo a used' := by
  have hp' : (a.freeList ++ used').Perm (a.freeList ++ used) := hp.append_left a.freeList
  exact ⟨hp'.nodup_iff.mpr h.nodup, fun r hr => h.lower r (hp'.mem_iff.mp hr),
    fun r hr => h.upper r (hp'.mem_iff.mp hr), h.le⟩

/-- Free and used ordinals may be dropped or given back. -/
theorem subperm (h : Owns lo a used) {free : List ℕ}
    (hs : (free ++ used').Subperm (a.freeList ++ used)) :
    Owns lo { a with freeList := free } used' := by
  refine ⟨?_, fun r hr => h.lower r (hs.subset hr), fun r hr => h.upper r (hs.subset hr), h.le⟩
  obtain ⟨l, hl, hsub⟩ := hs
  exact hl.nodup_iff.mp (h.nodup.sublist hsub)

/-- No ordinal is in use twice. -/
theorem used_nodup (h : Owns lo a used) : used.Nodup := (List.nodup_append.mp h.nodup).2.1

/-- Ordinals in use have been handed out. -/
theorem lt (h : Owns lo a used) (hr : r ∈ used) : r < a.firstAvailableOrdinal :=
  h.upper r (List.mem_append_right _ hr)

/-- Ordinals in use are not below the first one. -/
theorem ge (h : Owns lo a used) (hr : r ∈ used) : lo ≤ r := h.lower r (List.mem_append_right _ hr)

/-- **A new ordinal** is nobody else's. -/
theorem allocate (h : Owns lo a used) : Owns lo a.allocate.2 (a.allocate.1 :: used) := by
  unfold FreeList.allocate
  cases hf : a.freeList with
  | cons r rest =>
    have hp : (rest ++ r :: used).Perm (a.freeList ++ used) := by
      rw [hf]
      exact List.perm_middle
    exact ⟨hp.nodup_iff.mpr h.nodup, fun r hr => h.lower r (hp.mem_iff.mp hr),
      fun r hr => h.upper r (hp.mem_iff.mp hr), h.le⟩
  | nil =>
    have hnodup := h.nodup
    have hlower := h.lower
    have hupper := h.upper
    simp only [hf, List.nil_append] at hnodup hlower hupper ⊢
    refine ⟨List.nodup_cons.mpr ⟨fun hr => Nat.lt_irrefl _ (hupper _ hr), hnodup⟩, fun r hr => ?_,
      fun r hr => ?_, Nat.le_succ_of_le h.le⟩
    · rcases List.mem_cons.mp hr with rfl | hr
      · exact h.le
      · exact hlower r hr
    · rcases List.mem_cons.mp hr with rfl | hr
      · exact Nat.lt_succ_self _
      · exact Nat.lt_succ_of_lt (hupper r hr)

/-- An ordinal in use is given back. -/
theorem deallocate (h : Owns lo a (r :: used)) : Owns lo (a.deallocate r) used := by
  have hp : (r :: a.freeList ++ used).Perm (a.freeList ++ r :: used) := List.perm_middle.symm
  exact ⟨hp.nodup_iff.mpr h.nodup, fun r hr => h.lower r (hp.mem_iff.mp hr),
    fun r hr => h.upper r (hp.mem_iff.mp hr), h.le⟩

/-- Several ordinals in use are given back. -/
theorem deallocateAll : ∀ {rs : List ℕ} {a : FreeList}, Owns lo a (rs ++ used) →
    Owns lo (rs.foldl FreeList.deallocate a) used
  | [], _, h => h
  | r :: rs, a, h => by
      have hr : Owns lo (a.deallocate r) (rs ++ used) := deallocate h
      rw [List.foldl_cons]
      exact deallocateAll hr

/-- **Assigning ordinals**: those passed on keep their owner, the others are new. -/
theorem assign : ∀ {ops : List (Option ℕ)} {a : FreeList} {keep : List ℕ},
    Owns lo a (ops.reduceOption ++ keep) →
    Owns lo (FreeList.assign ops a).2 ((FreeList.assign ops a).1 ++ keep)
  | [], _, _, h => h
  | some r :: ops, a, keep, h => by
      rw [List.reduceOption_cons_of_some] at h
      have hrest : Owns lo (FreeList.assign ops a).2 ((FreeList.assign ops a).1 ++ r :: keep) :=
        assign (h.perm List.perm_middle)
      exact hrest.perm List.perm_middle.symm
  | none :: ops, a, keep, h => by
      rw [List.reduceOption_cons_of_none] at h
      have hrest : Owns lo (FreeList.assign ops a.allocate.2).2
          ((FreeList.assign ops a.allocate.2).1 ++ a.allocate.1 :: keep) :=
        assign (h.allocate.perm List.perm_middle)
      exact hrest.perm List.perm_middle.symm

/-- Only new ordinals. -/
theorem assignNew {keep : List ℕ} (h : Owns lo a keep) (n : ℕ) :
    Owns lo (FreeList.assign (List.replicate n none) a).2
      ((FreeList.assign (List.replicate n none) a).1 ++ keep) := by
  refine assign ?_
  rwa [List.reduceOption_replicate_none, List.nil_append]

end Owns

/-- Every request is answered. -/
@[simp] theorem length_assign : ∀ (ops : List (Option ℕ)) (a : FreeList),
    (assign ops a).1.length = ops.length
  | [], _ => rfl
  | some _ :: ops, a => congrArg (· + 1) (length_assign ops a)
  | none :: ops, a => congrArg (· + 1) (length_assign ops a.allocate.2)

end FreeList

end Dsom
