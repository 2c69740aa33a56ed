import Dsom.Osr.MapBuilder
import Mathlib.Tactic.Linarith

/-!
# Osr/Replayer — the event stream and what a replay reads from it

`BuildEventStream` lays the events out as 16-bit halfwords,

    for each slot with events: [slotOrd] [#elements] [osrExitOrds...] [values...]      then [65535]

and `DfgOsrExitEventStreamReplayer` walks them for one exit ordinal, locating the visible event of a
slot by a binary search whose last eight candidates are compared at once by `_mm_cmpgt_epi16`.  That
comparison is **signed** while ordinals are unsigned: `Misled` says for which windows it picks
another event than the right one, and `replay_eq_atExit_iff` that these windows are all that stands
between the replay and the array.
-/

namespace Dsom

open DfgOsrExitMapBuilder

/-! ## The stream

For each slot with events its ordinal and their number, then the exits and the values. -/

/-- The events `BuildEventStream` keeps: one recorded after the last exit point is popped. -/
def liveEvents (curOsrExitOrd : ℕ) : List (ℕ × BitVec 16) → List (ℕ × BitVec 16)
  | [] => []
  | back :: v => if back.1 = curOsrExitOrd then v else back :: v

/-- The key array of a slot followed by its value array. -/
def halfwords (v : List (ℕ × BitVec 16)) : List (BitVec 16) :=
  v.reverse.map (fun e => BitVec.ofNat 16 e.1) ++ v.reverse.map Prod.snd

/-- The piece of the stream one slot contributes. -/
def slotStream (slotOrd : ℕ) (v : List (ℕ × BitVec 16)) : List (BitVec 16) :=
  if v = [] then [] else BitVec.ofNat 16 slotOrd :: BitVec.ofNat 16 v.length :: halfwords v

/-- The pieces of the slots from `i` on, and the terminal sentry. -/
def streamFrom (events : ℕ → List (ℕ × BitVec 16)) (i n : ℕ) : List (BitVec 16) :=
  (List.range' i n).flatMap (fun j => slotStream j (events j)) ++ [65535]

namespace DfgOsrExitMapBuilder

/-- The events of a slot that make it into the stream. -/
def streamEvents (b : DfgOsrExitMapBuilder) (i : ℕ) : List (ℕ × BitVec 16) :=
  liveEvents b.curOsrExitOrd (b.info i)

/-- `BuildEventStream`. -/
def buildEventStream (b : DfgOsrExitMapBuilder) : List (BitVec 16) :=
  streamFrom b.streamEvents 0 b.numSlots

end DfgOsrExitMapBuilder

/-! ## The replayer

It bisects down to eight keys, and compares these all at once. -/

/-- `_mm_cmpgt_epi16` on one lane: a signed comparison. -/
def cmpgtEpi16 (data test : BitVec 16) : Bool := test.slt data

/-- `_mm_movemask_epi8`: every 16-bit lane yields two mask bits. -/
def movemaskEpi8 : List Bool → ℕ
  | [] => 0
  | lane :: lanes => (if lane then 3 else 0) + 4 * movemaskEpi8 lanes

/-- `CountTrailingZeros` of a 32-bit mask. -/
def countTrailingZeros : ℕ → ℕ → ℕ
  | 0, _ => 0
  | bits + 1, mask => if mask % 2 = 1 then 0 else countTrailingZeros bits (mask / 2) + 1

/-- The narrowing loop of `RunBinarySearch`; each round halves the range, so `numElements` rounds
are more than enough. -/
def narrow (keys : ℕ → BitVec 16) (k : BitVec 16) : ℕ → ℕ → ℕ → ℕ × ℕ
  | 0, left, right => (left, right)
  | rounds + 1, left, right =>
    if left + 8 < right then
      let mid := (left + right) / 2
      if keys mid ≤ k then narrow keys k rounds mid right else narrow keys k rounds left mid
    else (left, right)

/-- The lane `_mm_cmpgt_epi16` and the bit at the end of the window single out. -/
def firstLane (keys : ℕ → BitVec 16) (k : BitVec 16) (left right : ℕ) : ℕ :=
  let cmpRes := (List.range 8).map fun i => cmpgtEpi16 (keys (left + i)) k
  countTrailingZeros 32 (movemaskEpi8 cmpRes ||| (1 <<< ((right - left) * 2))) / 2

/-- `RunBinarySearch`; the result `-1` is `size_t` wrapping around. -/
def runBinarySearch (keys : ℕ → BitVec 16) (numElements : ℕ) (k : BitVec 16) : ℤ :=
  let w := narrow keys k numElements 0 numElements
  (w.1 + firstLane keys k w.1 w.2 : ℤ) - 1

/-- `DfgOsrExitEventStreamReplayer`; `data` is the offset of `m_data` in the stream. -/
structure DfgOsrExitEventStreamReplayer where
  data : ℕ
  osrExitOrd : BitVec 16
  curSlotOrd : ℕ

namespace DfgOsrExitEventStreamReplayer

/-- `GetAndAdvance`, on a memory that starts with the stream. -/
def getAndAdvance (mem : ℕ → BitVec 16) (r : DfgOsrExitEventStreamReplayer) :
    Option (BitVec 16) × DfgOsrExitEventStreamReplayer :=
  if r.curSlotOrd < (mem r.data).toNat then (none, { r with curSlotOrd := r.curSlotOrd + 1 })
  else
    let numElements := (mem (r.data + 1)).toNat
    let keys := r.data + 2
    let values := keys + numElements
    let r' := { r with data := values + numElements, curSlotOrd := r.curSlotOrd + 1 }
    if r.osrExitOrd < mem keys then (none, r')
    else
      let idx := runBinarySearch (fun i => mem (keys + i)) numElements r.osrExitOrd
      (some (mem ((values : ℤ) + idx).toNat), r')

/-- A replay asks for one slot after the other. -/
def replaySlots (mem : ℕ → BitVec 16) :
    ℕ → DfgOsrExitEventStreamReplayer → List (Option (BitVec 16))
  | 0, _ => []
  | n + 1, r => (getAndAdvance mem r).1 :: replaySlots mem n (getAndAdvance mem r).2

end DfgOsrExitEventStreamReplayer

open DfgOsrExitEventStreamReplayer

/-! ## The lanes -/

/-- The first lane that is set, out of so many. -/
theorem ctz_movemask : ∀ b₀ b₁ b₂ b₃ b₄ b₅ b₆ b₇ : Bool, ∀ w : Fin 9,
    countTrailingZeros 32 (movemaskEpi8 [b₀, b₁, b₂, b₃, b₄, b₅, b₆, b₇] ||| (1 <<< (w.1 * 2))) / 2
      = min w.1 ([b₀, b₁, b₂, b₃, b₄, b₅, b₆, b₇].findIdx id) := by
  decide +kernel

/-- The lane found is the first greater one, or the end of the window. -/
theorem firstLane_spec (keys : ℕ → BitVec 16) (k : BitVec 16) {left right : ℕ}
    (h : left ≤ right) (hw : right ≤ left + 8) :
    left + firstLane keys k left right ≤ right ∧
      (∀ i < firstLane keys k left right, cmpgtEpi16 (keys (left + i)) k = false) ∧
      (left + firstLane keys k left right < right →
        cmpgtEpi16 (keys (left + firstLane keys k left right)) k = true) := by
  have hlane : firstLane keys k left right = min (right - left)
      (((List.range 8).map fun i => cmpgtEpi16 (keys (left + i)) k).findIdx id) :=
    ctz_movemask _ _ _ _ _ _ _ _ ⟨right - left, by omega⟩
  set lanes := (List.range 8).map fun i => cmpgtEpi16 (keys (left + i)) k with hl
  have hlen : lanes.length = 8 := by simp [hl]
  have hget : ∀ i (hi : i < lanes.length), lanes[i] = cmpgtEpi16 (keys (left + i)) k := by
    intro i hi
    simp [hl]
  refine ⟨by omega, fun i hi => ?_, fun hlt => ?_⟩
  · have hi' : i < lanes.findIdx id := by omega
    have hi8 : i < lanes.length := by omega
    have := List.not_of_lt_findIdx hi'
    rw [← hget i hi8]
    simpa using this
  · have heq : firstLane keys k left right = lanes.findIdx id := by omega
    have hi8 : lanes.findIdx id < lanes.length := by omega
    rw [heq, ← hget _ hi8]
    simpa using List.findIdx_getElem (w := hi8)

/-! ## The bisection

It halves the keys as unsigned numbers, which is right. -/

/-- The exit ordinals of the events of a slot, oldest first. -/
def exitOrds (v : List (ℕ × BitVec 16)) : List ℕ := v.reverse.map Prod.fst

/-- How many events lie at or before an exit point. -/
def rank (ords : List ℕ) (k : ℕ) : ℕ := ords.countP (· ≤ k)

/-- **The leaf of the bisection tree of `[left, right)`** around position `c`, at most eight wide.
-/
def bisect (c : ℕ) : ℕ → ℕ → ℕ → ℕ × ℕ
  | 0, left, right => (left, right)
  | rounds + 1, left, right =>
    if left + 8 < right then
      let mid := (left + right) / 2
      if mid < c then bisect c rounds mid right else bisect c rounds left mid
    else (left, right)

/-- The bisection ends with at most eight keys, and the one that is sought is among them. -/
theorem bisect_spec (c : ℕ) : ∀ (rounds left right : ℕ), left < right → right ≤ left + rounds + 8 →
    (bisect c rounds left right).1 < (bisect c rounds left right).2 ∧
      (bisect c rounds left right).2 ≤ (bisect c rounds left right).1 + 8 ∧
      (bisect c rounds left right).2 ≤ right ∧
      (left < c → (bisect c rounds left right).1 < c) ∧
      (c ≤ right → c ≤ (bisect c rounds left right).2)
  | 0, left, right, hlt, hle => ⟨hlt, hle, le_refl _, id, id⟩
  | rounds + 1, left, right, hlt, hle => by
    simp only [bisect]
    split_ifs with hw hc
    · obtain ⟨h₁, h₂, h₃, h₄, h₅⟩ :=
        bisect_spec c rounds ((left + right) / 2) right (by omega) (by omega)
      exact ⟨h₁, h₂, h₃, fun _ => h₄ hc, h₅⟩
    · obtain ⟨h₁, h₂, h₃, h₄, h₅⟩ :=
        bisect_spec c rounds left ((left + right) / 2) (by omega) (by omega)
      exact ⟨h₁, h₂, by omega, h₄, fun _ => h₅ (by omega)⟩
    · exact ⟨hlt, by omega, le_refl _, id, id⟩

/-- The narrowing loop is the bisection around the rank of the ordinal. -/
theorem narrow_eq_bisect {keys : ℕ → BitVec 16} {k : BitVec 16} {n c : ℕ}
    (h : ∀ i < n, keys i ≤ k ↔ i < c) : ∀ (rounds left right : ℕ), left ≤ n → right ≤ n →
      narrow keys k rounds left right = bisect c rounds left right
  | 0, _, _, _, _ => rfl
  | rounds + 1, left, right, hl, hr => by
    simp only [narrow, bisect]
    split_ifs with hw h₁ h₂ h₂
    · exact narrow_eq_bisect h rounds _ _ (by omega) hr
    · exact absurd ((h _ (by omega)).mp h₁) h₂
    · exact absurd ((h _ (by omega)).mpr h₂) h₁
    · exact narrow_eq_bisect h rounds _ _ hl (by omega)
    · rfl

theorem rank_le (ords : List ℕ) (k : ℕ) : rank ords k ≤ ords.length := List.countP_le_length

/-- In a strictly ascending list the rank separates the ordinals up to `k` from the later ones. -/
theorem getElem_le_iff_lt_rank {k : ℕ} : ∀ {ords : List ℕ}, ords.Pairwise (· < ·) →
    ∀ {i : ℕ} (hi : i < ords.length), ords[i] ≤ k ↔ i < rank ords k
  | o :: ords, hs, i, hi => by
    obtain ⟨ho, hs⟩ := List.pairwise_cons.mp hs
    by_cases hk : o ≤ k
    · have hrank : rank (o :: ords) k = rank ords k + 1 := by simp [rank, hk]
      cases i with
      | zero => simp [hrank, hk]
      | succ i =>
        rw [hrank, List.getElem_cons_succ, getElem_le_iff_lt_rank hs]
        omega
    · have hrank : rank (o :: ords) k = 0 := by
        simp only [rank, List.countP_eq_zero, List.mem_cons, decide_eq_true_eq]
        rintro x (rfl | hx)
        · exact hk
        · have := ho x hx
          omega
      rw [hrank]
      refine ⟨fun hle => absurd hle ?_, fun h => absurd h (Nat.not_lt_zero _)⟩
      cases i with
      | zero => simpa using hk
      | succ i =>
        have := ho _ (List.getElem_mem (Nat.lt_of_succ_lt_succ hi))
        simp only [List.getElem_cons_succ]
        omega

/-! ## The signed comparison

The last eight keys are compared as signed numbers: from 2^15 on they are negative. -/

/-- What `_mm_cmpgt_epi16` makes of two ordinals. -/
theorem cmpgtEpi16_ofNat {o k : ℕ} (ho : o < 65536) (hk : k < 65536) :
    cmpgtEpi16 (BitVec.ofNat 16 o) (BitVec.ofNat 16 k) = true ↔
      if k < 32768 then k < o ∧ o < 32768 else o < 32768 ∨ k < o := by
  have hint : ∀ {x : ℕ}, x < 65536 →
      (BitVec.ofNat 16 x).toInt = if x < 32768 then (x : ℤ) else (x : ℤ) - 65536 := by
    intro x hx
    rw [BitVec.toInt_eq_toNat_cond, BitVec.toNat_ofNat, Nat.mod_eq_of_lt hx]
    split_ifs <;> omega
  rw [cmpgtEpi16, BitVec.slt_iff_toInt_lt, hint ho, hint hk]
  split_ifs <;> omega

/-- The window of the events of a slot around an exit point. -/
def window (ords : List ℕ) (k : ℕ) : ℕ × ℕ := bisect (rank ords k) ords.length 0 ords.length

/-- **The window straddles the sign bit at the wrong place**: the exit ordinal is below `2^15` and
the next event of the window is not, or the ordinal is not and the first event of the window is. -/
def Misled (ords : List ℕ) (k : ℕ) : Prop :=
  0 < rank ords k ∧
    if k < 32768 then rank ords k < (window ords k).2 ∧ 32768 ≤ ords.getD (rank ords k) 0
    else ords.getD (window ords k).1 0 < 32768

instance (ords : List ℕ) (k : ℕ) : Decidable (Misled ords k) := by
  unfold Misled
  infer_instance

/-- One past the event the search settles on. -/
def stopPos (ords : List ℕ) (k : ℕ) : ℕ :=
  if Misled ords k then if k < 32768 then (window ords k).2 else (window ords k).1
  else rank ords k

section Search

variable {keys : ℕ → BitVec 16} {ords : List ℕ} {k : ℕ}

/-- What the bisection is left with. -/
theorem window_spec (hrank : 0 < rank ords k) :
    (window ords k).2 ≤ (window ords k).1 + 8 ∧ (window ords k).2 ≤ ords.length ∧
      (window ords k).1 < rank ords k ∧ rank ords k ≤ (window ords k).2 := by
  have hc := rank_le ords k
  obtain ⟨-, hwidth, hn, hlt, hle⟩ :=
    bisect_spec (rank ords k) ords.length 0 ords.length (by omega) (by omega)
  exact ⟨hwidth, hn, hlt hrank, hle hc⟩

/-- The narrowing loop of the code ends with the window. -/
theorem narrow_eq_window (hkeys : ∀ i (hi : i < ords.length), keys i = BitVec.ofNat 16 ords[i])
    (hs : ords.Pairwise (· < ·)) (hb : ∀ o ∈ ords, o < 65536) (hk : k < 65536) :
    narrow keys (BitVec.ofNat 16 k) ords.length 0 ords.length = window ords k := by
  refine narrow_eq_bisect (fun i hi => ?_) _ _ _ (Nat.zero_le _) (le_refl _)
  have ho := hb _ (List.getElem_mem hi)
  rw [hkeys i hi, ← getElem_le_iff_lt_rank hs hi, BitVec.le_def, BitVec.toNat_ofNat,
    BitVec.toNat_ofNat, Nat.mod_eq_of_lt ho, Nat.mod_eq_of_lt hk]

/-- Below `2^15` a lane is greater if its ordinal is, in the signed order; the end of the window is
reached if no lane is. -/
theorem lane_of_lt {gt : ℕ → Bool} {l r c f : ℕ} (hrn : r ≤ ords.length) (hlc : l < c)
    (hcr : c ≤ r) (hle : l + f ≤ r) (hs : ords.Pairwise (· < ·))
    (hord : ∀ i (hi : i < ords.length), ords[i] ≤ k ↔ i < c)
    (hgt : ∀ i (hi : i < ords.length), gt i = true ↔ k < ords[i] ∧ ords[i] < 32768)
    (hbefore : ∀ i < f, gt (l + i) = false) (hat : l + f < r → gt (l + f) = true) :
    l + f = if c < r ∧ 32768 ≤ ords.getD c 0 then r else c := by
  split_ifs with hmis
  · -- no lane exceeds `k` in the signed order
    by_contra hne
    have hf : l + f < ords.length := by omega
    obtain ⟨hbig, hsmall⟩ := (hgt _ hf).mp (hat (by omega))
    have hcf : ¬ l + f < c := fun h => absurd ((hord _ hf).mpr h) (by omega)
    have hcn : c < ords.length := by omega
    have hmono : ords[c] ≤ ords[l + f] := by
      rcases (Nat.le_of_not_lt hcf).lt_or_eq with hlt | heq
      · exact (List.pairwise_iff_getElem.mp hs _ _ hcn hf hlt).le
      · simp only [heq, le_refl]
    rw [← List.getElem_eq_getD (h := hcn) 0] at hmis
    omega
  · rcases Nat.lt_trichotomy (l + f) c with hlt | heq | hlt
    · have hf : l + f < ords.length := by omega
      have hbig := (hgt _ hf).mp (hat (by omega))
      have hsmall := (hord _ hf).mpr hlt
      omega
    · exact heq
    · have hcn : c < ords.length := by omega
      have hno := hbefore (c - l) (by omega)
      rw [Nat.add_sub_of_le hlc.le] at hno
      have hbig : 32768 ≤ ords[c] := by
        by_contra hsmall
        have hck := mt (hord _ hcn).mp (lt_irrefl c)
        rw [(hgt _ hcn).mpr (by omega)] at hno
        cases hno
      exact absurd ⟨by omega, by rwa [← List.getElem_eq_getD (h := hcn) 0]⟩ hmis

/-- From `2^15` on an ordinal below `2^15` is greater as well, and already the first lane may be. -/
theorem lane_of_ge {gt : ℕ → Bool} {l r c f : ℕ} (hrn : r ≤ ords.length) (hlc : l < c)
    (hcr : c ≤ r) (hle : l + f ≤ r) (hs : ords.Pairwise (· < ·))
    (hord : ∀ i (hi : i < ords.length), ords[i] ≤ k ↔ i < c)
    (hgt : ∀ i (hi : i < ords.length), gt i = true ↔ ords[i] < 32768 ∨ k < ords[i])
    (hbefore : ∀ i < f, gt (l + i) = false) (hat : l + f < r → gt (l + f) = true) :
    l + f = if ords.getD l 0 < 32768 then l else c := by
  have hl : l < ords.length := by omega
  rw [← List.getElem_eq_getD (h := hl) 0]
  split_ifs with hmis
  · -- already the first lane does
    by_contra hne
    have hno := hbefore 0 (by omega)
    rw [Nat.add_zero, (hgt _ hl).mpr (Or.inl hmis)] at hno
    cases hno
  · rcases Nat.lt_trichotomy (l + f) c with hlt | heq | hlt
    · have hf : l + f < ords.length := by omega
      have hbig := (hgt _ hf).mp (hat (by omega))
      have hsmall := (hord _ hf).mpr hlt
      have hmono : ords[l] ≤ ords[l + f] := by
        rcases (Nat.le_add_right l f).lt_or_eq with hlt | heq
        · exact (List.pairwise_iff_getElem.mp hs _ _ hl hf hlt).le
        · simp only [← heq, le_refl]
      omega
    · exact heq
    · have hcn : c < ords.length := by omega
      have hno := hbefore (c - l) (by omega)
      have hck := mt (hord _ hcn).mp (lt_irrefl c)
      rw [Nat.add_sub_of_le hlc.le, (hgt _ hcn).mpr (Or.inr (by omega))] at hno
      cases hno

/-- **The lane at which the search stops.** -/
theorem lane_eq_stopPos (hkeys : ∀ i (hi : i < ords.length), keys i = BitVec.ofNat 16 ords[i])
    (hs : ords.Pairwise (· < ·)) (hb : ∀ o ∈ ords, o < 65536) (hk : k < 65536)
    (hrank : 0 < rank ords k) :
    (window ords k).1 + firstLane keys (BitVec.ofNat 16 k) (window ords k).1 (window ords k).2 =
      stopPos ords k := by
  obtain ⟨hwidth, hrn, hlc, hcr⟩ := window_spec hrank
  obtain ⟨hle, hbefore, hat⟩ := firstLane_spec keys (BitVec.ofNat 16 k)
    (hlc.le.trans hcr) hwidth
  have hcmp : ∀ i (hi : i < ords.length), cmpgtEpi16 (keys i) (BitVec.ofNat 16 k) = true ↔
      if k < 32768 then k < ords[i] ∧ ords[i] < 32768 else ords[i] < 32768 ∨ k < ords[i] :=
    fun i hi => by rw [hkeys _ hi, cmpgtEpi16_ofNat (hb _ (List.getElem_mem hi)) hk]
  have hord : ∀ i (hi : i < ords.length), ords[i] ≤ k ↔ i < rank ords k := fun i hi =>
    getElem_le_iff_lt_rank hs hi
  simp only [stopPos, Misled, hrank, true_and]
  by_cases hk15 : k < 32768
  · simp only [hk15, if_true] at hcmp ⊢
    exact lane_of_lt hrn hlc hcr hle hs hord hcmp hbefore hat
  · simp only [hk15, if_false] at hcmp ⊢
    exact lane_of_ge hrn hlc hcr hle hs hord hcmp hbefore hat

/-- **The search**: it finds the last event up to `k`, unless the window misleads it. -/
theorem runBinarySearch_eq (hkeys : ∀ i (hi : i < ords.length), keys i = BitVec.ofNat 16 ords[i])
    (hs : ords.Pairwise (· < ·)) (hb : ∀ o ∈ ords, o < 65536) (hk : k < 65536)
    (hrank : 0 < rank ords k) :
    runBinarySearch keys ords.length (BitVec.ofNat 16 k) = (stopPos ords k : ℤ) - 1 := by
  simp only [runBinarySearch, narrow_eq_window hkeys hs hb hk]
  rw [← lane_eq_stopPos hkeys hs hb hk hrank]
  push_cast
  rfl

/-- The search stops inside the list. -/
theorem stopPos_le (ords : List ℕ) (k : ℕ) : stopPos ords k ≤ ords.length := by
  have hc := rank_le ords k
  unfold stopPos
  split_ifs with hm
  · exact (window_spec hm.1).2.1
  · obtain ⟨-, hn, hl, hr⟩ := window_spec hm.1
    omega
  · exact hc

end Search

/-! ## Reading the stream back -/

/-- Memory holds a piece of the stream at an offset. -/
def HoldsAt (mem : ℕ → BitVec 16) (off : ℕ) (l : List (BitVec 16)) : Prop :=
  ∀ i (hi : i < l.length), mem (off + i) = l[i]

/-- A stretch of memory holds its two parts. -/
theorem HoldsAt.append {mem : ℕ → BitVec 16} {off : ℕ} {l l' : List (BitVec 16)}
    (h : HoldsAt mem off (l ++ l')) : HoldsAt mem off l ∧ HoldsAt mem (off + l.length) l' := by
  refine ⟨fun i hi => ?_, fun i hi => ?_⟩
  · rw [h i (by rw [List.length_append]; omega), List.getElem_append_left hi]
  · rw [Nat.add_assoc, h (l.length + i) (by rw [List.length_append]; omega),
      List.getElem_append_right (by omega)]
    simp

/-- What the builder keeps of every slot: strictly descending ordinals that fit a halfword. -/
structure StreamOk (v : List (ℕ × BitVec 16)) : Prop where
  sorted : v.Pairwise fun newer older => older.1 < newer.1
  lt : ∀ e ∈ v, e.1 < 65534

section Slot

variable {v : List (ℕ × BitVec 16)}

@[simp] theorem exitOrds_length : (exitOrds v).length = v.length := by simp [exitOrds]

/-- The ordinals go up. -/
theorem StreamOk.exitOrds_sorted (h : StreamOk v) : (exitOrds v).Pairwise (· < ·) := by
  rw [exitOrds, List.pairwise_map, List.pairwise_reverse]
  exact h.sorted

/-- The ordinals fit, with room for two marks. -/
theorem StreamOk.exitOrds_lt (h : StreamOk v) : ∀ o ∈ exitOrds v, o < 65534 := by
  intro o ho
  obtain ⟨e, he, rfl⟩ := List.mem_map.mp ho
  exact h.lt e (List.mem_reverse.mp he)

/-- Distinct ordinals below 65534, so at most that many of them. -/
theorem StreamOk.length_le (h : StreamOk v) : v.length ≤ 65534 := by
  have hnd : (exitOrds v).Nodup := h.exitOrds_sorted.imp fun hlt => hlt.ne
  have hsub : exitOrds v ⊆ List.range 65534 := fun o ho => List.mem_range.mpr (h.exitOrds_lt o ho)
  simpa using (List.subperm_of_subset hnd hsub).length_le

theorem halfwords_length : (halfwords v).length = v.length + v.length := by simp [halfwords]

/-- A key is read back from the halfwords. -/
theorem halfwords_key {i : ℕ} (hi : i < (exitOrds v).length) :
    (halfwords v).getD i 0 = BitVec.ofNat 16 (exitOrds v)[i] := by
  have hi' : i < v.length := by simpa using hi
  simp [halfwords, exitOrds, List.getD, List.getElem?_append, hi']

/-- What the replayer reads of the events of a slot. -/
def slotAnswer (v : List (ℕ × BitVec 16)) (k : ℕ) : Option (BitVec 16) :=
  if rank (exitOrds v) k = 0 then none
  else some ((halfwords v).getD (v.length + stopPos (exitOrds v) k - 1) 0)

/-- A slot without events at this place is skipped. -/
theorem getAndAdvance_skip {mem : ℕ → BitVec 16} {off i : ℕ} {k : BitVec 16}
    (h : i < (mem off).toNat) : getAndAdvance mem ⟨off, k, i⟩ = (none, ⟨off, k, i + 1⟩) := by
  simp [getAndAdvance, h]

/-- The replayer on the piece of a slot that has events. -/
theorem getAndAdvance_slot {mem : ℕ → BitVec 16} {off i k : ℕ} (hv : StreamOk v) (hne : v ≠ [])
    (hi : i < 65535) (hk : k < 65536) (hmem : HoldsAt mem off (slotStream i v)) :
    getAndAdvance mem ⟨off, BitVec.ofNat 16 k, i⟩ =
      (slotAnswer v k, ⟨off + (slotStream i v).length, BitVec.ofNat 16 k, i + 1⟩) := by
  have hlen := hv.length_le
  have hpos : 0 < v.length := List.length_pos_iff.mpr hne
  rw [slotStream, if_neg hne] at hmem ⊢
  have h₀ : (mem off).toNat = i := by
    rw [← Nat.add_zero off, hmem 0 (by simp), List.getElem_cons_zero, BitVec.toNat_ofNat,
      Nat.mod_eq_of_lt (by omega)]
  have h₁ : (mem (off + 1)).toNat = v.length := by
    rw [hmem 1 (by simp)]
    simp only [List.getElem_cons_succ, List.getElem_cons_zero, BitVec.toNat_ofNat]
    exact Nat.mod_eq_of_lt (by omega)
  have hword : ∀ j, j < v.length + v.length → mem (off + 2 + j) = (halfwords v).getD j 0 := by
    intro j hj
    have hj' : j < (halfwords v).length := by rwa [halfwords_length]
    have := hmem (j + 2) (by simp only [List.length_cons]; omega)
    rw [show off + 2 + j = off + (j + 2) by omega, this]
    simp [List.getD, hj']
  have hkeys : ∀ j (hj : j < (exitOrds v).length),
      mem (off + 2 + j) = BitVec.ofNat 16 (exitOrds v)[j] := fun j hj => by
    rw [hword j (by rw [exitOrds_length] at hj; omega), halfwords_key hj]
  have hb : ∀ o ∈ exitOrds v, o < 65536 := fun o ho => by
    have := hv.exitOrds_lt o ho
    omega
  have hn0 : 0 < (exitOrds v).length := by rwa [exitOrds_length]
  have hfirst : BitVec.ofNat 16 k < mem (off + 2) ↔ rank (exitOrds v) k = 0 := by
    have hle := getElem_le_iff_lt_rank (k := k) hv.exitOrds_sorted hn0
    have ho := hb _ (List.getElem_mem hn0)
    rw [← Nat.add_zero (off + 2), hkeys 0 hn0, BitVec.lt_def, BitVec.toNat_ofNat,
      BitVec.toNat_ofNat, Nat.mod_eq_of_lt ho, Nat.mod_eq_of_lt hk]
    omega
  simp only [getAndAdvance, h₀, lt_irrefl, if_false, h₁, slotAnswer, hfirst]
  have hend : off + 2 + v.length + v.length = off + (halfwords v).length.succ.succ := by
    rw [halfwords_length]
    omega
  simp only [List.length_cons, hend, Nat.succ_eq_add_one]
  split_ifs with hr
  · rfl
  · have hsearch : runBinarySearch (fun j => mem (off + 2 + j)) _ _ = _ :=
      runBinarySearch_eq hkeys hv.exitOrds_sorted hb hk (Nat.pos_of_ne_zero hr)
    rw [exitOrds_length] at hsearch
    have hstop := stopPos_le (exitOrds v) k
    rw [exitOrds_length] at hstop
    rw [hsearch, ← hword _ (by omega)]
    congr 3
    push_cast
    omega

/-- Past the keys, the value array. -/
theorem halfwords_value {i : ℕ} : (halfwords v).getD
    (v.length + i) 0 = (v.reverse.map Prod.snd).getD i 0 := by
  simp [halfwords, List.getD, List.getElem?_append]

theorem rank_append (ords ords' : List ℕ) (k : ℕ) :
    rank (ords ++ ords') k = rank ords k + rank ords' k := List.countP_append

/-- The event an exit point sees is the one its rank counts up to. -/
theorem visibleAt_eq_getD_rank {k : ℕ} : ∀ {v : List (ℕ × BitVec 16)}, StreamOk v →
    visibleAt v k = if rank (exitOrds v) k = 0 then none
      else some ((v.reverse.map Prod.snd).getD (rank (exitOrds v) k - 1) 0)
  | [], _ => rfl
  | e :: v, h => by
    obtain ⟨he, hs⟩ := List.pairwise_cons.mp h.sorted
    have hv : StreamOk v := ⟨hs, fun x hx => h.lt x (List.mem_cons_of_mem _ hx)⟩
    have hrank : rank (exitOrds (e :: v)) k = rank (exitOrds v) k + rank [e.1] k := by
      simp [exitOrds, rank_append]
    by_cases hk : e.1 ≤ k
    · have hall : rank (exitOrds v) k = v.length := by
        rw [rank, List.countP_eq_length.mpr, exitOrds_length]
        intro o ho
        obtain ⟨x, hx, rfl⟩ := List.mem_map.mp ho
        have := he x (List.mem_reverse.mp hx)
        simp only [decide_eq_true_eq]
        omega
      have hone : rank [e.1] k = 1 := by simp [rank, hk]
      rw [visibleAt_cons_of_le hk, hrank, hall, hone, if_neg (Nat.succ_ne_zero _)]
      simp [List.getD]
    · have hzero : rank [e.1] k = 0 := by simpa [rank] using hk
      have hle := rank_le (exitOrds v) k
      rw [exitOrds_length] at hle
      rw [visibleAt_cons_of_lt (by omega), hrank, hzero, Nat.add_zero, visibleAt_eq_getD_rank hv]
      split_ifs with h0
      · rfl
      · have hlt : rank (exitOrds v) k - 1 < v.length := by omega
        simp [List.getD, List.getElem?_append, hlt]

/-- **What a misled search reads**: the entry before the end of the window, or the one before its
beginning, which for the first window is the last key. -/
def misread (v : List (ℕ × BitVec 16)) (k : ℕ) : BitVec 16 :=
  if k < 32768 then (v.reverse.map Prod.snd).getD ((window (exitOrds v) k).2 - 1) 0
  else (halfwords v).getD (v.length + (window (exitOrds v) k).1 - 1) 0

/-- **One slot**: a search that is not misled sees the visible event. -/
theorem slotAnswer_eq {k : ℕ} (h : StreamOk v) :
    slotAnswer v k = if Misled (exitOrds v) k then some (misread v k) else visibleAt v k := by
  rw [visibleAt_eq_getD_rank h, slotAnswer, stopPos]
  by_cases hr : rank (exitOrds v) k = 0
  · have hm : ¬ Misled (exitOrds v) k := fun hm => absurd hm.1 (by omega)
    simp [hr, hm]
  · obtain ⟨-, -, hlc, hcr⟩ := window_spec (Nat.pos_of_ne_zero hr)
    simp only [if_neg hr, misread]
    split_ifs with hm hk
    · rw [Nat.add_sub_assoc (by omega), halfwords_value]
    · rfl
    · rw [Nat.add_sub_assoc (by omega), halfwords_value]

end Slot

/-! ## The whole stream -/

section Stream

variable {events : ℕ → List (ℕ × BitVec 16)} {mem : ℕ → BitVec 16}

/-- The stream of one slot more. -/
theorem streamFrom_succ (i n : ℕ) :
    streamFrom events i (n + 1) = slotStream i (events i) ++ streamFrom events (i + 1) n := by
  simp [streamFrom, List.range'_succ]

/-- A stream begins with the ordinal of a slot still to come, or with the sentry. -/
theorem streamFrom_head : ∀ (n : ℕ) {i : ℕ}, i + n ≤ 65534 →
    ∃ w l, streamFrom events i n = w :: l ∧ i ≤ w.toNat
  | 0, i, h => ⟨65535, [], by simp [streamFrom], by simp; omega⟩
  | n + 1, i, h => by
    rw [streamFrom_succ, slotStream]
    split_ifs with hne
    · obtain ⟨w, l, heq, hle⟩ := streamFrom_head n (i := i + 1) (by omega)
      exact ⟨w, l, by simpa using heq, by omega⟩
    · refine ⟨_, _, rfl, ?_⟩
      rw [BitVec.toNat_ofNat, Nat.mod_eq_of_lt (by omega)]

/-- **The replay of a stream**, one slot after the other. -/
theorem replaySlots_eq {k : ℕ} (hk : k < 65536) (hev : ∀ j, StreamOk (events j)) :
    ∀ (n : ℕ) {i off : ℕ}, i + n ≤ 65534 → HoldsAt mem off (streamFrom events i n) →
      replaySlots mem n ⟨off, BitVec.ofNat 16 k, i⟩ =
        (List.range' i n).map fun j => slotAnswer (events j) k
  | 0, _, _, _, _ => rfl
  | n + 1, i, off, hn, hmem => by
    rw [streamFrom_succ] at hmem
    obtain ⟨hslot, hrest⟩ := hmem.append
    have hrec := replaySlots_eq hk hev n (by omega) hrest
    have hstep : getAndAdvance mem ⟨off, BitVec.ofNat 16 k, i⟩ = (slotAnswer (events i) k,
        ⟨off + (slotStream i (events i)).length, BitVec.ofNat 16 k, i + 1⟩) := by
      by_cases hne : events i = []
      · obtain ⟨w, l, heq, hle⟩ := @streamFrom_head events n (i + 1) (by omega)
        rw [hne, slotStream, if_pos rfl, heq] at hrest
        have hw : mem off = w := hrest 0 (by simp)
        rw [getAndAdvance_skip (by rw [hw]; omega)]
        simp [hne, slotStream, slotAnswer, rank, exitOrds]
      · exact getAndAdvance_slot (hev i) hne (by omega) hk hslot
    rw [replaySlots, hstep, hrec, List.range'_succ, List.map_cons]

end Stream

namespace DfgOsrExitMapBuilder

variable {b : DfgOsrExitMapBuilder} {a : ExitMap} {mem : ℕ → BitVec 16}

/-- The event `BuildEventStream` drops is one no exit point sees. -/
theorem Refines.streamEvents (h : Refines b a) (i : ℕ) :
    StreamOk (b.streamEvents i) ∧
      ∀ k < b.curOsrExitOrd, visibleAt (b.streamEvents i) k = a.atExit k i := by
  have hle := h.cur_le
  obtain ⟨hsort, hord, -, hpast⟩ := h.records i
  unfold DfgOsrExitMapBuilder.streamEvents
  cases hv : b.info i with
  | nil =>
    rw [hv] at hpast
    exact ⟨⟨List.Pairwise.nil, by simp [liveEvents]⟩, hpast⟩
  | cons e v =>
    rw [hv] at hsort hord hpast
    obtain ⟨he, hs⟩ := List.pairwise_cons.mp hsort
    have hen := hord e (by simp)
    simp only [liveEvents]
    split_ifs with hcur
    · refine ⟨⟨hs, fun x hx => ?_⟩, fun k hk => ?_⟩
      · have := he x hx
        omega
      · rw [← hpast k hk, visibleAt_cons_of_lt (by omega)]
    · refine ⟨⟨hsort, fun x hx => ?_⟩, hpast⟩
      rcases List.mem_cons.mp hx with rfl | hx
      · omega
      · have := he x hx
        omega

/-- Nothing misleads the search while there are at most `2^15` exit points. -/
theorem not_misled_of_le {ords : List ℕ} {k n : ℕ} (hb : ∀ o ∈ ords, o < n) (hk : k < n)
    (hn : n ≤ 32768) : ¬ Misled ords k := by
  rintro ⟨-, hm⟩
  rw [if_pos (by omega)] at hm
  obtain ⟨-, hbig⟩ := hm
  by_cases hlt : rank ords k < ords.length
  · have := hb _ (List.getElem_mem hlt)
    simp [List.getD, hlt] at hbig
    omega
  · simp [List.getD, hlt] at hbig

/-- **The event stream loses nothing but what the signed comparison misreads.**  After every
admitted sequence of calls, and whatever follows the stream in memory, the replay of an exit point
yields for each slot the last value written before that exit point — unless the window of the slot
misleads the search, and then exactly when the halfword it lands on happens to be the same. -/
theorem replay_eq_atExit_iff {numSlots : ℕ} (hn : numSlots ≤ 65534) {cs : List Call}
    (hrun : (init numSlots).run cs = some b) (hmem : HoldsAt mem 0 b.buildEventStream)
    {k slot : ℕ} (hk : k < b.curOsrExitOrd) (hslot : slot < numSlots) :
    (replaySlots mem numSlots ⟨0, BitVec.ofNat 16 k, 0⟩)[slot]? =
        some ((ExitMap.init.run cs).atExit k slot) ↔
      (Misled (exitOrds (b.streamEvents slot)) k →
        visibleAt (b.streamEvents slot) k = some (misread (b.streamEvents slot) k)) := by
  obtain ⟨href, hnum⟩ := (init_refines numSlots).run hrun
  have hcur := href.cur_le
  obtain ⟨hok, hvis⟩ := href.streamEvents slot
  rw [buildEventStream, hnum] at hmem
  have hreplay := replaySlots_eq (k := k) (by omega) (fun j => (href.streamEvents j).1) numSlots
    (show 0 + numSlots ≤ 65534 by omega) hmem
  rw [hreplay, ← hvis k hk, List.getElem?_map, List.getElem?_range' hslot, Option.map_some,
    Nat.zero_add, Nat.one_mul, slotAnswer_eq hok, Option.some.injEq]
  split_ifs with hm
  · simp [hm, eq_comm]
  · simp [hm]

/-- A slot written once before each of two exit points. -/
def twoWrites : List Call :=
  [.setUnassociated 0 7, .addOsrExitPoint, .setUnassociated 0 9, .addOsrExitPoint]

theorem replay_eq_atExit_twoWrites :
    (replaySlots (fun i => [0, 2, 0, 1, 7, 9, 65535].getD i 0) 2 ⟨0, 1, 0⟩)[0]? =
      some ((ExitMap.init.run twoWrites).atExit 1 0) :=
  (replay_eq_atExit_iff (show 2 ≤ 65534 by decide) (show (init 2).run twoWrites = some _ from rfl)
    (by unfold HoldsAt; decide) (by decide) (by decide)).mpr
      fun h => absurd h (not_misled_of_le (n := 2) (by decide) (by decide) (by decide))

/-- Exit points alone only move the ordinal. -/
theorem run_replicate_addOsrExitPoint : ∀ (m : ℕ) (b : DfgOsrExitMapBuilder),
    b.curOsrExitOrd + m ≤ 65534 → b.run (List.replicate m .addOsrExitPoint) =
      some { b with curOsrExitOrd := b.curOsrExitOrd + m }
  | 0, _, _ => rfl
  | m + 1, b, h => by
    have hcall : b.call .addOsrExitPoint = some { b with curOsrExitOrd := b.curOsrExitOrd + 1 } :=
      if_neg (by omega)
    rw [List.replicate_succ, run, hcall, Option.bind_some,
      run_replicate_addOsrExitPoint m _ (by simp only; omega)]
    simp [Nat.add_assoc, Nat.add_comm 1 m]

/-- Many exits with nothing between them. -/
theorem ExitMap_run_replicate_addOsrExitPoint (a : ExitMap) (m : ℕ) :
    a.run (List.replicate m .addOsrExitPoint) =
      { a with checkpoints := a.checkpoints ++ List.replicate m a.value } := by
  induction m generalizing a with
  | zero => simp [ExitMap.run]
  | succ m ih =>
    have := ih (a.call .addOsrExitPoint)
    simp only [ExitMap.run, List.replicate_succ, List.foldl_cons] at this ⊢
    rw [this]
    simp [ExitMap.call]

/-- One write, then more exit points than a signed halfword counts. -/
def manyExits : List Call := .setUnassociated 0 7 :: List.replicate 32769 .addOsrExitPoint

/-- The write of `7` is read back as `0`, the key of its own event. -/
theorem replay_ne_atExit_manyExits : ∃ b : DfgOsrExitMapBuilder,
    (init 1).run manyExits = some b ∧ 32768 < b.curOsrExitOrd ∧
      b.buildEventStream = [0, 1, 0, 7, 65535] ∧
      replaySlots (fun i => [0, 1, 0, 7, 65535].getD i 0) 1 ⟨0, 32768, 0⟩ = [some 0] ∧
      (ExitMap.init.run manyExits).atExit 32768 0 = some 7 := by
  refine ⟨{ (init 1).addEvent 0 7 with curOsrExitOrd := 32769 }, ?_, by decide, rfl, by decide, ?_⟩
  · have hcall : (init 1).call (.setUnassociated 0 7) = some ((init 1).addEvent 0 7) := rfl
    rw [manyExits, run, hcall, Option.bind_some, run_replicate_addOsrExitPoint _ _ (by decide)]
    rfl
  · have hrun := ExitMap_run_replicate_addOsrExitPoint
      (ExitMap.init.call (.setUnassociated 0 7)) 32769
    rw [ExitMap.run] at hrun
    rw [manyExits, ExitMap.run, List.foldl_cons, hrun, ExitMap.atExit]
    simp only [ExitMap.call, ExitMap.init, List.nil_append]
    rw [List.getElem?_replicate, if_pos (by decide)]
    rfl

end DfgOsrExitMapBuilder

end Dsom
