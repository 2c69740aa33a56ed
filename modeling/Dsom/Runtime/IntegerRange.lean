import Dsom.Compiler.Code
import Dsom.Foundations.Signed
import Dsom.Runtime.UserHeap

/-!
# Runtime/IntegerRange — the array of a range of integers

The primitive for `to:`: the length is computed as an `int32_t`, an array of nils is allocated, and
a loop over `int32_t` fills it.  Every write is checked against the reservation here.

A range whose last integer is the largest one runs over it, and one that is too long is not given
its room; all others are right, if the heap has room (`integerRange_iff`).
-/

namespace Dsom

/-! ## Arrays on the heap

A store outside the memory that was reserved is a fault. -/

/-- An array: its reservation, `m_data[0]`, and what is in `m_data` from there on. -/
structure ArrayObject where
  reserved : ℕ
  length : ℕ
  data : ℕ → Value

/-- Write one element. -/
def ArrayObject.put (o : ArrayObject) (index : ℕ) (v : Value) : ArrayObject :=
  { o with data := Function.update o.data index v }

/-- `m_data[index] = v`. -/
def ArrayObject.store (o : ArrayObject) (index : ℕ) (v : Value) : Except Fault ArrayObject :=
  if 8 + 8 * (index + 1) ≤ o.reserved then .ok (o.put index v) else .error .outside

section Range

-- whether `mmap` gives pages at an address, and what the memory holds before
variable (mmap : ℤ → Bool) (memory : ℕ → Value)

/-- `AllocateArray`: the header and the length, and then the nils. -/
def allocateArray (length : ℕ) (h : UserHeap) : Except Fault (ArrayObject × UserHeap) := do
  let (r, h) ← allocate mmap (.array length) h
  if r.bytes < 16 then .error .outside
  else do
    let o ← (List.range length).foldlM (fun o i => o.store (i + 1) .nil)
      ({ reserved := r.bytes, length, data := memory } : ArrayObject)
    return (o, h)

/-- A signed operation, or undefined behaviour. -/
def defined (x : Option (BitVec 32)) : Except Fault (BitVec 32) :=
  match x with
  | some x => .ok x
  | none => .error .undefined

/-- The loop of `integer_range`; it ends because `curv` grows or overflows. -/
def fillRange (start last curv : BitVec 32) (o : ArrayObject) : Except Fault ArrayObject :=
  if curv.sle last then do
    let offset ← defined (Signed.sub curv start)
    let index ← defined (Signed.add offset 1)
    let o ← o.store index.toNat (.int32 curv)
    match _hnext : Signed.add curv 1 with
    | none => .error .undefined
    | some next => fillRange start last next o
  else .ok o
termination_by (2 ^ 31 - curv.toInt).toNat
decreasing_by
  have hstep : next.toInt = curv.toInt + 1 :=
    Signed.exact_eq_some_iff.mp ‹Signed.add curv 1 = some next›
  have hlt : next.toInt < 2 ^ 31 := next.toInt_lt
  omega

/-- `integer_range`. -/
def integerRange (start last : BitVec 32) (h : UserHeap) : Except Fault
    (ArrayObject × UserHeap) := do
  let len ← if start.sle last then do
      let difference ← defined (Signed.sub last start)
      let len ← defined (Signed.add difference 1)
      pure len.toNat
    else pure 0
  let (o, h) ← allocateArray mmap memory len h
  let o ← fillRange start last start o
  return (o, h)

end Range

/-! ## Filling -/

section Fill

variable {o : ArrayObject} {start last curv : BitVec 32}

theorem toNat_of_toInt {x : BitVec 32} {n : ℕ} (h : x.toInt = n) : x.toNat = n := by
  have := x.isLt
  rw [BitVec.toInt_eq_toNat_cond] at h
  split_ifs at h <;> omega

/-- Nils are stored if there is room. -/
theorem foldlM_store (length : ℕ) (hroom : 16 + 8 * length ≤ o.reserved) :
    (List.range length).foldlM (fun o i => o.store (i + 1) .nil) o =
      Except.ok { o with data := fun i => if 1 ≤ i ∧ i ≤ length then .nil else o.data i } := by
  induction length with
  | zero =>
      have : (fun i => if 1 ≤ i ∧ i ≤ 0 then Value.nil else o.data i) = o.data :=
        funext fun i => if_neg (by omega)
      rw [this]
      rfl
  | succ length ih =>
      rw [List.range_succ, List.foldlM_append, ih (by omega)]
      show ArrayObject.store _ _ _ >>= _ = _
      rw [ArrayObject.store, if_pos (by dsimp only; omega)]
      refine congrArg (fun d => Except.ok { o with data := d }) (funext fun i => ?_)
      simp only [Function.update_apply]
      split_ifs <;> first | rfl | omega

/-- …and if there is none, the last of them is outside. -/
theorem foldlM_store_error {length : ℕ} (hhead : 16 ≤ o.reserved)
    (hroom : ¬ 16 + 8 * length ≤ o.reserved) :
    ∃ e, (List.range length).foldlM (fun o i => ArrayObject.store o (i + 1) .nil) o
      = Except.error e := by
  induction length with
  | zero => omega
  | succ length ih =>
      rw [List.range_succ, List.foldlM_append]
      by_cases hfits : 16 + 8 * length ≤ o.reserved
      · rw [foldlM_store length hfits]
        refine ⟨.outside, ?_⟩
        show ArrayObject.store _ _ _ >>= _ = _
        rw [ArrayObject.store, if_neg (by dsimp only; omega)]
        rfl
      · obtain ⟨e, he⟩ := ih hfits
        exact ⟨e, by rw [he]; rfl⟩

/-- One pass of the loop, when everything in it is defined. -/
theorem fillRange_pass {offset index next : BitVec 32} {o' : ArrayObject} (hle : curv.sle last)
    (hoffset : Signed.sub curv start = some offset) (hindex : Signed.add offset 1 = some index)
    (hstore : o.store index.toNat (.int32 curv) = .ok o') (hnext : Signed.add curv 1 = some next) :
    fillRange start last curv o = fillRange start last next o' := by
  rw [fillRange, if_pos hle, hoffset]
  show defined (Signed.add offset 1) >>= _ = _
  rw [hindex]
  show o.store index.toNat (.int32 curv) >>= _ = _
  rw [hstore]
  simp only [bind, Except.bind]
  split
  next h => rw [hnext] at h; cases h
  next n h =>
    rw [hnext] at h
    rw [Option.some.inj h]

/-- The integers from `curv` on are stored, each in its place. -/
theorem fillRange_eq (hstart : start.toInt ≤ curv.toInt) (hcurv : curv.toInt ≤ last.toInt + 1)
    (hlen : last.toInt - start.toInt + 1 < 2 ^ 31) (hmax : last.toInt < 2 ^ 31 - 1)
    (hroom : 16 + 8 * (last.toInt - start.toInt + 1) ≤ o.reserved) :
    ∃ o', fillRange start last curv o = .ok o' ∧ o'.length = o.length ∧
      ∀ i : ℕ, o'.data i =
        if curv.toInt - start.toInt + 1 ≤ i ∧ i ≤ last.toInt - start.toInt + 1 then
          .int32 (BitVec.ofInt 32 (start.toInt + i - 1)) else o.data i := by
  obtain ⟨n, hn⟩ : ∃ n : ℕ, last.toInt + 1 - curv.toInt = n := Int.eq_ofNat_of_zero_le (by omega)
  induction n generalizing curv o with
  | zero =>
      refine ⟨o, ?_, rfl, fun i => (if_neg (by omega)).symm⟩
      rw [fillRange, if_neg]
      rw [BitVec.sle_iff_toInt_le]
      omega
  | succ n ih =>
      have hlo := curv.le_toInt
      have hone : (1 : BitVec 32).toInt = 1 := by decide
      have hoffset : Signed.sub curv start = some _ :=
        Signed.exact_eq_ofInt (by decide) (by omega) (by omega)
      generalize BitVec.ofInt 32 (curv.toInt - start.toInt) = offset at hoffset
      have hoffsetInt : offset.toInt = _ := Signed.exact_eq_some_iff.mp hoffset
      have hindex : Signed.add offset 1 = some _ :=
        Signed.exact_eq_ofInt (by decide) (by omega) (by omega)
      generalize BitVec.ofInt 32 (offset.toInt + (1 : BitVec 32).toInt) = index at hindex
      have hindexInt : index.toInt = _ := Signed.exact_eq_some_iff.mp hindex
      have hnext : Signed.add curv 1 = some _ :=
        Signed.exact_eq_ofInt (by decide) (by omega) (by omega)
      generalize BitVec.ofInt 32 (curv.toInt + (1 : BitVec 32).toInt) = next at hnext
      have hnextInt : next.toInt = _ := Signed.exact_eq_some_iff.mp hnext
      have hindexNat : index.toNat = (curv.toInt - start.toInt + 1).toNat :=
        toNat_of_toInt (by omega)
      have hstore : o.store index.toNat (.int32 curv) = .ok (o.put index.toNat (.int32 curv)) := by
        rw [ArrayObject.store, if_pos (by omega)]
      obtain ⟨o', hfill, hlength, hdata⟩ := @ih (o.put index.toNat (.int32 curv)) next
        (by omega) (by omega) hroom (by omega)
      refine ⟨o', ?_, hlength, fun i => ?_⟩
      · have hle : curv.sle last := by
          rw [BitVec.sle_iff_toInt_le]
          omega
        rw [fillRange_pass hle hoffset hindex hstore hnext, hfill]
      · rw [hdata, ArrayObject.put]
        simp only [Function.update_apply]
        by_cases hi : i = index.toNat
        · have hval : BitVec.ofInt 32 (start.toInt + i - 1) = curv := by
            rw [show start.toInt + i - 1 = curv.toInt by omega, BitVec.ofInt_toInt]
          rw [if_neg (by omega), if_pos hi, if_pos (by omega), hval]
        · rw [if_neg hi]
          split_ifs <;> first | rfl | omega

/-- Past the largest integer there is no next one. -/
theorem fillRange_intMax : ∃ e, fillRange start (BitVec.intMax 32) curv o = .error e := by
  induction hn : (2 ^ 31 - curv.toInt).toNat using Nat.strong_induction_on generalizing curv o with
  | _ n ih =>
      have hle : curv.sle (BitVec.intMax 32) := by
        rw [BitVec.sle_iff_toInt_le]
        have := curv.toInt_lt
        have hmax : (BitVec.intMax 32).toInt = 2 ^ 31 - 1 := by decide
        omega
      rw [fillRange, if_pos hle]
      cases Signed.sub curv start with
      | none => exact ⟨_, rfl⟩
      | some offset =>
          show ∃ e, defined (Signed.add offset 1) >>= _ = Except.error e
          cases Signed.add offset 1 with
          | none => exact ⟨_, rfl⟩
          | some index =>
              show ∃ e, o.store index.toNat (.int32 curv) >>= _ = Except.error e
              cases o.store index.toNat (.int32 curv) with
              | error e => exact ⟨e, rfl⟩
              | ok o' =>
                  simp only [bind, Except.bind]
                  split
                  next => exact ⟨_, rfl⟩
                  next next hnext =>
                    have hstep : next.toInt = curv.toInt + 1 := Signed.exact_eq_some_iff.mp hnext
                    have hlt : next.toInt < 2 ^ 31 := next.toInt_lt
                    exact ih _ (by omega) rfl

end Fill

/-! ## The result -/

section Result

variable {mmap : ℤ → Bool} {h : UserHeap}

/-- The number of integers in a range. -/
def rangeLength (start last : BitVec 32) : ℕ := (last.toInt - start.toInt + 1).toNat

/-- **The array of a range**: as long as it, with its integers in order. -/
def IsRangeArray (start last : BitVec 32) (result : Except Fault (ArrayObject × UserHeap)) : Prop :=
  ∃ o h', result = .ok (o, h') ∧ o.length = rangeLength start last ∧
    ∀ i : ℕ, 1 ≤ i → i ≤ rangeLength start last →
      o.data i = .int32 (BitVec.ofInt 32 (start.toInt + i - 1))

/-- An array of nils. -/
def nilArray (memory : ℕ → Value) (length : ℕ) : ArrayObject where
  reserved := 16 + 8 * length
  length := length
  data i := if 1 ≤ i ∧ i ≤ length then .nil else memory i

/-- An array is allocated if its size fits and the heap has room. -/
theorem allocateArray_eq (memory : ℕ → Value) {length : ℕ} (hfits : (Request.array length).Fits)
    (hroom : ¬ h.Refuses mmap (16 + 8 * length)) :
    ∃ h', allocateArray mmap memory length h = .ok (nilArray memory length, h') := by
  have hsize : roundUp8 (Request.array length).size = 16 + 8 * length := by
    simp only [Request.size, roundUp8]
    omega
  have hmod : roundUp8 (Request.array length).size % 2 ^ 32 = 16 + 8 * length := by
    rw [Nat.mod_eq_of_lt hfits, hsize]
  rcases allocate_cases mmap (.array length) h with ⟨hrefuses, -⟩ | ⟨-, h', hok, -⟩
  · rw [hmod] at hrefuses
    exact absurd hrefuses hroom
  · rw [hmod] at hok
    refine ⟨h', ?_⟩
    rw [allocateArray, hok]
    show (if 16 + 8 * length < 16 then _ else _) = _
    rw [if_neg (by omega), foldlM_store length (by dsimp only; omega)]
    rfl

/-- …and otherwise it is not. -/
theorem allocateArray_error (memory : ℕ → Value) {length : ℕ}
    (hnot : ¬ ((Request.array length).Fits ∧ ¬ h.Refuses mmap (16 + 8 * length))) :
    ∃ e, allocateArray mmap memory length h = .error e := by
  have hsize : roundUp8 (Request.array length).size = 16 + 8 * length := by
    simp only [Request.size, roundUp8]
    omega
  rcases allocate_cases mmap (.array length) h with ⟨-, herr⟩ | ⟨hroom, h₁, hok, -⟩
  · exact ⟨_, by rw [allocateArray, herr]; rfl⟩
  rw [allocateArray, hok, hsize]
  rw [hsize] at hroom
  have hcut : ¬ 16 + 8 * length ≤ (16 + 8 * length) % 2 ^ 32 := by
    intro hle
    have hfits : 16 + 8 * length < 2 ^ 32 := by omega
    rw [Nat.mod_eq_of_lt hfits] at hroom
    exact hnot ⟨by rwa [Request.Fits, hsize], hroom⟩
  show ∃ e, (if (16 + 8 * length) % 2 ^ 32 < 16 then _ else _) = Except.error e
  split_ifs with hhead
  · exact ⟨_, rfl⟩
  · obtain ⟨e, he⟩ := foldlM_store_error
      (o := { reserved := (16 + 8 * length) % 2 ^ 32, length, data := memory })
      (by dsimp only; omega)
      hcut
    exact ⟨e, by rw [he]; rfl⟩

/-- The length that the code computes. -/
theorem rangeLength_eq {start last : BitVec 32} (hle : start.toInt ≤ last.toInt) :
    (rangeLength start last : ℤ) = last.toInt - start.toInt + 1 := by
  rw [rangeLength]
  omega

/-- The length of a range that is not empty is computed, or overflows. -/
theorem integerRange_eq (memory : ℕ → Value) {start last : BitVec 32}
    (hle : start.toInt ≤ last.toInt) :
    integerRange mmap memory start last h =
      if rangeLength start last < 2 ^ 31 then do
        let (o, h) ← allocateArray mmap memory (rangeLength start last) h
        let o ← fillRange start last start o
        return (o, h)
      else .error .undefined := by
  have hlen := rangeLength_eq hle
  have hone : (1 : BitVec 32).toInt = 1 := by decide
  rw [integerRange, if_pos (by rwa [BitVec.sle_iff_toInt_le])]
  cases hsub : Signed.sub last start with
  | none =>
      rw [if_neg]
      · rfl
      · intro hlt
        rw [Signed.sub, Signed.exact_eq_ofInt (by decide) (by omega) (by omega)] at hsub
        cases hsub
  | some difference =>
      have hdiff : difference.toInt = _ := Signed.exact_eq_some_iff.mp hsub
      show defined (Signed.add difference 1) >>= _ = _
      cases hadd : Signed.add difference 1 with
      | none =>
          rw [if_neg]
          · rfl
          · intro hlt
            rw [Signed.add, Signed.exact_eq_ofInt (by decide) (by omega) (by omega)] at hadd
            cases hadd
      | some len =>
          have hlenInt : len.toInt = _ := Signed.exact_eq_some_iff.mp hadd
          have hlt := len.toInt_lt
          have hnat : len.toNat = rangeLength start last := toNat_of_toInt (by omega)
          rw [if_pos (by omega), ← hnat]
          rfl

/-- A range up to the largest integer never comes to its end. -/
theorem integerRange_intMax (memory : ℕ → Value) {start : BitVec 32}
    (hle : start.toInt ≤ (BitVec.intMax 32).toInt) :
    ∃ e, integerRange mmap memory start (BitVec.intMax 32) h = .error e := by
  rw [integerRange_eq memory hle]
  split_ifs
  · cases allocateArray mmap memory (rangeLength start (BitVec.intMax 32)) h with
    | error e => exact ⟨e, rfl⟩
    | ok r =>
        obtain ⟨e, he⟩ := fillRange_intMax (o := r.1)
        refine ⟨e, ?_⟩
        show fillRange start (BitVec.intMax 32) start r.1 >>= _ = _
        rw [he]
        rfl
  · exact ⟨_, rfl⟩

/-- **The primitive makes the array of the range exactly when** the last integer is not the largest
one, and the array has a size that fits and for which there is room. -/
theorem integerRange_iff (mmap : ℤ → Bool) (memory : ℕ → Value) (start last : BitVec 32)
    (h : UserHeap) :
    IsRangeArray start last (integerRange mmap memory start last h) ↔
      (start.toInt ≤ last.toInt → last ≠ BitVec.intMax 32) ∧
      (Request.array (rangeLength start last)).Fits ∧
      ¬ h.Refuses mmap (16 + 8 * rangeLength start last) := by
  by_cases hle : start.toInt ≤ last.toInt
  · have hsle : start.sle last = true := by rwa [BitVec.sle_iff_toInt_le]
    have hlen := rangeLength_eq hle
    have hsize : roundUp8 (Request.array (rangeLength start last)).size
        = 16 + 8 * rangeLength start last := by
      simp only [Request.size, roundUp8]
      omega
    constructor
    · rintro ⟨o, h', hok, -⟩
      refine ⟨?_, ?_⟩
      · rintro - rfl
        obtain ⟨e, he⟩ := integerRange_intMax memory hle
        rw [he] at hok
        cases hok
      · by_contra hnot
        obtain ⟨e, he⟩ := allocateArray_error memory hnot
        rw [integerRange_eq memory hle, he] at hok
        split_ifs at hok
        cases hok
    · rintro ⟨hmax, hfits, hroom⟩
      have hlt : 16 + 8 * rangeLength start last < 2 ^ 32 := by rwa [Request.Fits, hsize] at hfits
      have hlast : last.toInt < 2 ^ 31 - 1 := by
        have hlt := last.toInt_lt
        have hne : last.toInt ≠ 2 ^ 31 - 1 := fun heq =>
          hmax hle (BitVec.toInt_inj.mp (heq.trans (by decide)))
        omega
      obtain ⟨h', hok⟩ := allocateArray_eq memory hfits hroom
      obtain ⟨o', hfill, hlength, hdata⟩ := fillRange_eq
        (o := nilArray memory (rangeLength start last)) (Int.le_refl start.toInt) (by omega)
        (by omega) hlast (by simp only [nilArray]; omega)
      refine ⟨o', h', ?_, hlength, fun i hi hi' => ?_⟩
      · rw [integerRange_eq memory hle, if_pos (by omega), hok]
        show fillRange start last start _ >>= _ = _
        rw [hfill]
        rfl
      · rw [hdata, if_pos (by omega)]
  · have hsle : ¬ start.sle last = true := by rwa [BitVec.sle_iff_toInt_le]
    have hzero : rangeLength start last = 0 := by
      rw [rangeLength]
      omega
    rw [integerRange, if_neg hsle, hzero]
    show IsRangeArray start last (allocateArray mmap memory 0 h >>= _) ↔ _
    constructor
    · rintro ⟨o, h', hok, -⟩
      refine ⟨fun hle' => absurd hle' hle, ?_⟩
      by_contra hnot
      obtain ⟨e, he⟩ := allocateArray_error memory hnot
      rw [he] at hok
      cases hok
    · rintro ⟨-, hfits, hroom⟩
      obtain ⟨h', hok⟩ := allocateArray_eq memory hfits hroom
      rw [hok]
      refine ⟨nilArray memory 0, h', ?_, hzero.symm, fun i hi hi' => by omega⟩
      show fillRange start last start _ >>= _ = _
      rw [fillRange, if_neg hsle]
      rfl

/-- `2147483647 to: 2147483647`. -/
theorem not_isRangeArray_intMax :
    ¬ IsRangeArray (BitVec.intMax 32) (BitVec.intMax 32)
      (integerRange (fun _ => true) (fun _ => .nil)
      (BitVec.intMax 32) (BitVec.intMax 32) .initial) := by
  rintro ⟨o, h', hok, -⟩
  obtain ⟨e, he⟩ := integerRange_intMax (fun _ => .nil) (Int.le_refl (BitVec.intMax 32).toInt)
  rw [he] at hok
  cases hok

end Result

end Dsom
