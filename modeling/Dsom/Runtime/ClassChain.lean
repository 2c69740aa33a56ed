import Dsom.Runtime.MethodTable

/-!
# Runtime/ClassChain — method lookup against the walk up the superclass chain

`SOMClass::Create` clones the superclass's method table, inserts the class's own methods and freezes
the result; `SOMClass::GetMethod` probes two positions of the frozen table.  The walk up the chain
(`lookupChain`) is what the pair is for, and `getMethod_eq_lookupChain_iff` says when they agree:
exactly when no selector is `lost` — dropped by a `Resize` of the construction and never inserted
again.
-/

namespace Dsom

open TwoChoice SimpleCuckooHashTable

/-- A string id handed out by the interner: it fits 32 bits and is not the empty id. -/
abbrev StringId := { n : ℕ // n < emptyId }

theorem StringId.ne_emptyId (s : StringId) : s.1 ≠ emptyId := s.2.ne

/-- `SOMClass::MethInfo`; the primitive flag is not read by the table. -/
structure MethInfo (F : Type*) where
  stringId : StringId
  fnObj : F
  deriving DecidableEq

/-- `SOMUniquedString`: an id with the low half of its hash. -/
structure SOMUniquedString where
  id : ℕ
  hash : ℕ

/-- The uniqued string of an id, as `VM::GetUniquedString` builds it. -/
def uniquedString (hash : ℕ → ℕ) (s : ℕ) : SOMUniquedString := ⟨s, hash s % 2 ^ 32⟩

/-- `SOMClass`: the superclass pointer, the method list it was created from, and the frozen table
with its mask. -/
inductive SOMClass (F : Type*) where
  | mk (superClass : Option (SOMClass F)) (methods : List (MethInfo F)) (methodHtMask : ℕ)
      (methodHt : List (MethodHtEntry F))

namespace SOMClass

variable {F : Type*}

/-- `m_superClass`. -/
def superClass : SOMClass F → Option (SOMClass F)
  | mk c _ _ _ => c

/-- `m_methods`. -/
def methods : SOMClass F → List (MethInfo F)
  | mk _ ms _ _ => ms

/-- `m_methodHtMask`. -/
def methodHtMask : SOMClass F → ℕ
  | mk _ _ m _ => m

/-- `m_methodHt`. -/
def methodHt : SOMClass F → List (MethodHtEntry F)
  | mk _ _ _ t => t

/-- `SOMClass::GetMethod`. -/
def getMethod (c : SOMClass F) (name : SOMUniquedString) : Option F :=
  let slot1 := name.hash &&& c.methodHtMask
  let slot2 := (name.hash >>> 16) &&& c.methodHtMask
  if (cell c.methodHt slot1).id = name.id then (cell c.methodHt slot1).data
  else if (cell c.methodHt slot2).id = name.id then (cell c.methodHt slot2).data
  else none

/-- The table `Create` starts from: one empty entry, or a clone of the superclass's table. -/
def initialTable : Option (SOMClass F) → Table F
  | none => [.empty]
  | some c => c.methodHt.take (c.methodHtMask + 1)

/-- The insertion loop of `Create`. -/
def insertMethods (hash : ℕ → ℕ) : List (MethInfo F) → Table F → Option (Table F)
  | [], t => some t
  | m :: ms, t => (insert hash t m.stringId (some m.fnObj)).bind (insertMethods hash ms)

/-- `x_bootstrapClassesMethodHtSize`. -/
def bootstrapClassesMethodHtSize : ℕ := 128

/-- `SOMClass::Create`, as far as the method table goes.  `none` is an abort: the `ReleaseAssert` of
`Resize`, or a preallocated class whose table has another size than the bootstrap one. -/
def create (hash : ℕ → ℕ) (superClass : Option (SOMClass F)) (methods : List (MethInfo F))
    (preallocated : Bool) : Option (SOMClass F) :=
  (insertMethods hash methods (initialTable superClass)).bind fun t =>
    if preallocated ∧ t.length ≠ bootstrapClassesMethodHtSize then none
    else some (mk superClass methods (t.length - 1) t)

/-- The classes that chains of `Create` calls build. -/
inductive Created (hash : ℕ → ℕ) : SOMClass F → Prop where
  | root {methods : List (MethInfo F)} {preallocated : Bool} {c : SOMClass F}
      (h : create hash none methods preallocated = some c) : Created hash c
  | sub {s c : SOMClass F} {methods : List (MethInfo F)} {preallocated : Bool}
      (hs : Created hash s) (h : create hash (some s) methods preallocated = some c) :
      Created hash c

/-! ## The walk up the chain

What lookup means, with no table at all. -/

/-- The method a list defines for a selector: the last one, as later insertions overwrite. -/
def definedIn : List (MethInfo F) → ℕ → Option F
  | [], _ => none
  | m :: ms, s => (definedIn ms s).or (if m.stringId.1 = s then some m.fnObj else none)

/-- **The walk up the superclass chain**: the method of the nearest class defining the selector. -/
def lookupChain : SOMClass F → ℕ → Option F
  | mk none ms _ _, s => definedIn ms s
  | mk (some c) ms _ _, s => (definedIn ms s).or (lookupChain c s)

/-! ## Lost selectors

A selector is lost when the table grows and its entry is left without a place. -/

/-- The selectors missing after the insertion loop, from those missing before: a selector is
recovered when it is inserted and lost when a resize drops it. -/
def lostAfter (hash : ℕ → ℕ) : List (MethInfo F) → Table F → List ℕ → List ℕ
  | [], _, lost => lost
  | m :: ms, t, lost =>
    match insert hash t m.stringId (some m.fnObj) with
    | none => lost
    | some t' => lostAfter hash ms t'
        (lost.filter (fun x => x ≠ m.stringId.1) ++ insertDrops hash t m.stringId (some m.fnObj))

/-- **The selectors lost by the construction of a class and its ancestors**: dropped by a `Resize`,
and not inserted again since. -/
def lost (hash : ℕ → ℕ) : SOMClass F → List ℕ
  | mk none ms _ _ => lostAfter hash ms (initialTable none) []
  | mk (some c) ms _ _ => lostAfter hash ms (initialTable (some c)) (lost hash c)

/-! ## What the frozen table stores -/

/-- The table stores the method `f` names for every selector not in `L`, and `L` holds only
selectors that `f` defines. -/
structure Represents (t : Table F) (f : ℕ → Option F) (L : List ℕ) : Prop where
  holds : ∀ x w, Holds t x w ↔ x ∉ L ∧ (f x).isSome ∧ w = f x
  lost_defined : ∀ x ∈ L, (f x).isSome

/-- The table of a class without methods. -/
theorem represents_empty : Represents ([.empty] : Table F) (fun _ => none) [] where
  holds x w := by
    simp only [Holds, List.mem_singleton, MethodHtEntry.empty, MethodHtEntry.mk.injEq,
      Option.isSome_none, Bool.false_eq_true, false_and, and_false, iff_false]
    exact fun h => h.1 h.2.1
  lost_defined x hx := absurd hx List.not_mem_nil

/-- **One insertion**: the selector gets its new method, and the drops of the resizes are lost. -/
theorem Represents.insert {hash : ℕ → ℕ} {t t' : Table F} {f : ℕ → Option F} {L : List ℕ}
    (hr : Represents t f L) (ht : Wf hash t) (hsz : t.length ≤ 65536) {m : MethInfo F}
    (h : insert hash t m.stringId (some m.fnObj) = some t') :
    Wf hash t' ∧ t'.length ≤ 65536 ∧
      Represents t' (fun s => (if m.stringId.1 = s then some m.fnObj else none).or (f s))
        (L.filter (fun x => x ≠ m.stringId.1) ++ insertDrops hash t m.stringId (some m.fnObj)) := by
  obtain ⟨hwf, hsz', hst, hdr⟩ := insertLoop_spec 17 ht m.stringId.ne_emptyId hsz h
  refine ⟨hwf, hsz', fun x w => ?_, fun x hx => ?_⟩
  · rw [hst, hr.holds]
    simp only [List.mem_append, List.mem_filter, decide_eq_true_eq, not_or, not_and, not_not,
      insertDrops]
    by_cases hx : x = m.stringId.1
    · subst hx
      simp
    · have hx' : ¬ m.stringId.1 = x := fun h' => hx h'.symm
      simp only [hx, hx', ne_eq, not_false_eq_true, true_and, false_and, or_false, if_false,
        Option.none_or, imp_false]
      tauto
  · simp only [List.mem_append, List.mem_filter, decide_eq_true_eq, insertDrops] at hx
    by_cases hxm : m.stringId.1 = x
    · simp [hxm]
    · simp only [hxm, if_false, Option.none_or]
      rcases hx with ⟨hxL, -⟩ | hxd
      · exact hr.lost_defined x hxL
      · rcases hdr x hxd with hx | ⟨w, hw⟩
        · exact absurd hx.symm hxm
        · exact ((hr.holds x w).mp hw).2.1

/-- **The insertion loop of `Create`**, from one insertion to a whole method list. -/
theorem Represents.insertMethods {hash : ℕ → ℕ} : ∀ (ms : List (MethInfo F)) {t t' : Table F}
    {f : ℕ → Option F} {L : List ℕ}, Represents t f L → Wf hash t → t.length ≤ 65536 →
      insertMethods hash ms t = some t' →
      Wf hash t' ∧ t'.length ≤ 65536 ∧
        Represents t' (fun s => (definedIn ms s).or (f s)) (lostAfter hash ms t L)
  | [], t, t', f, L, hr, ht, hsz, h => by
    obtain rfl := Option.some.inj h
    exact ⟨ht, hsz, hr⟩
  | m :: ms, t, t', f, L, hr, ht, hsz, h => by
    obtain ⟨t₁, h₁, hrest⟩ := Option.bind_eq_some_iff.mp h
    obtain ⟨hwf, hsz₁, hr₁⟩ := hr.insert ht hsz h₁
    obtain ⟨hwf', hsz', hr'⟩ := Represents.insertMethods ms hr₁ hwf hsz₁ hrest
    refine ⟨hwf', hsz', ?_⟩
    simp only [lostAfter, h₁, definedIn, Option.or_assoc]
    exact hr'

/-- What a created class guarantees about its frozen table. -/
structure Frozen (hash : ℕ → ℕ) (c : SOMClass F) : Prop where
  wf : Wf hash c.methodHt
  length_le : c.methodHt.length ≤ 65536
  mask : c.methodHtMask = c.methodHt.length - 1
  represents : Represents c.methodHt (lookupChain c) (lost hash c)

/-- A class that was created has a table that stores its methods. -/
theorem frozen_of_create {hash : ℕ → ℕ} {s : Option (SOMClass F)} {ms : List (MethInfo F)}
    {pre : Bool} {c : SOMClass F} {f : ℕ → Option F} {L : List ℕ}
    (h : create hash s ms pre = some c) (ht : Wf hash (initialTable s))
    (hsz : (initialTable s).length ≤ 65536) (hr : Represents (initialTable s) f L)
    (hf : ∀ mask t, lookupChain (mk s ms mask t) = fun x => (definedIn ms x).or (f x))
    (hL : ∀ mask t, lost hash (mk s ms mask t) = lostAfter hash ms (initialTable s) L) :
    Frozen hash c := by
  obtain ⟨t, ht', hc⟩ := Option.bind_eq_some_iff.mp h
  obtain ⟨hwf, hsz', hr'⟩ := hr.insertMethods ms ht hsz ht'
  split at hc
  · cases hc
  · obtain rfl := Option.some.inj hc
    exact ⟨hwf, hsz', rfl, by rw [hf, hL]; exact hr'⟩

/-- **Every created class is frozen over its chain**, by induction on the chain. -/
theorem Created.frozen {hash : ℕ → ℕ} {c : SOMClass F} (hc : Created hash c) : Frozen hash c := by
  induction hc with
  | root h =>
    refine frozen_of_create h (f := fun _ => none) (L := []) (wf_replicate_empty hash 0) ?_
      represents_empty (fun _ _ => ?_) fun _ _ => rfl
    · simp [initialTable]
    · funext x
      simp [lookupChain]
  | @sub s c ms pre hs h ih =>
    have hlen : s.methodHtMask + 1 = s.methodHt.length := by
      have := ih.wf.length_pos
      have := ih.mask
      omega
    have hinit : initialTable (some s) = s.methodHt := by
      rw [initialTable, hlen, List.take_length]
    refine frozen_of_create h (f := lookupChain s) (L := lost hash s) ?_ ?_ ?_ (fun _ _ => ?_)
      fun _ _ => ?_
    · rw [hinit]; exact ih.wf
    · rw [hinit]; exact ih.length_le
    · rw [hinit]; exact ih.represents
    · funext x
      simp [lookupChain]
    · simp [lost]

/-! ## The probe

`GetMethod` looks at the two places of the selector. -/

/-- The two positions `GetMethod` probes are the two of the table, although it sees only the low
32 bits of the hash. -/
theorem probe_eq_slots (hash : ℕ → ℕ) {n p : ℕ} (hn : n = 2 ^ p) (hp : p ≤ 16) (s : ℕ) :
    (uniquedString hash s).hash &&& (n - 1) = slot1 hash n s ∧
      ((uniquedString hash s).hash >>> 16) &&& (n - 1) = slot2 hash n s := by
  have h16 : (2 : ℕ) ^ p ∣ 2 ^ 16 := pow_dvd_pow 2 hp
  have h32 : (2 : ℕ) ^ p ∣ 2 ^ 32 := h16.trans (pow_dvd_pow 2 (by decide))
  subst hn
  simp only [slot1, slot2, uniquedString, Nat.and_two_pow_sub_one_eq_mod,
    Nat.shiftRight_eq_div_pow]
  refine ⟨Nat.mod_mod_of_dvd _ h32, ?_⟩
  rw [show (2 : ℕ) ^ 32 = 2 ^ 16 * 2 ^ 16 by norm_num, Nat.mod_mul_right_div_self,
    Nat.mod_mod_of_dvd _ h16]

/-- **`GetMethod` reads the stored pair of the selector, and null when there is none.** -/
theorem Frozen.getMethod_eq {hash : ℕ → ℕ} {c : SOMClass F} (hc : Frozen hash c) (s : StringId)
    (v : Option F) :
    (Holds c.methodHt s v → getMethod c (uniquedString hash s) = v) ∧
      ((∀ w, ¬ Holds c.methodHt s w) → getMethod c (uniquedString hash s) = none) := by
  obtain ⟨p, hp⟩ := hc.wf.size
  have hp16 : p ≤ 16 := by
    by_contra hcon
    have : 2 ^ 17 ≤ 2 ^ p := Nat.pow_le_pow_right (by decide) (by omega)
    have := hc.length_le
    omega
  obtain ⟨h1, h2⟩ := probe_eq_slots hash hp hp16 s.1
  have hcell : ∀ i, i < c.methodHt.length → (cell c.methodHt i).id = s.1 →
      Holds c.methodHt s (cell c.methodHt i).data := fun i hi hid =>
    ⟨s.ne_emptyId, hid ▸ List.mem_of_getElem? (getElem?_cell hi)⟩
  have hs1 := slot1_lt hash s.1 hc.wf.length_pos
  have hs2 := slot2_lt hash s.1 hc.wf.length_pos
  have hid : (uniquedString hash s).id = s.1 := rfl
  simp only [getMethod, hc.mask, h1, h2, hid]
  split
  · next h =>
    exact ⟨fun hv => Holds.unique hc.wf (hcell _ hs1 h) hv, fun hn => absurd (hcell _ hs1 h) (hn _)⟩
  next hn1 =>
  split
  · next h =>
    exact ⟨fun hv => Holds.unique hc.wf (hcell _ hs2 h) hv, fun hn => absurd (hcell _ hs2 h) (hn _)⟩
  next hn2 =>
  exact ⟨fun hv => absurd hv (not_holds_of_fresh (hc.wf.fresh hn1 hn2) v), fun _ => rfl⟩

/-- A selector that is not lost is found as by the walk. -/
theorem Frozen.getMethod_of_not_lost {hash : ℕ → ℕ} {c : SOMClass F} (hc : Frozen hash c)
    (s : StringId) (hs : s.1 ∉ lost hash c) :
    getMethod c (uniquedString hash s) = lookupChain c s := by
  cases hf : lookupChain c s with
  | none =>
    refine (hc.getMethod_eq s none).2 fun w hw => ?_
    simpa [hf] using ((hc.represents.holds _ _).mp hw).2.1
  | some g =>
    refine (hc.getMethod_eq s (some g)).1 ((hc.represents.holds _ _).mpr ⟨hs, ?_, hf.symm⟩)
    rw [hf]
    rfl

/-- A lost selector is not found. -/
theorem Frozen.getMethod_of_lost {hash : ℕ → ℕ} {c : SOMClass F} (hc : Frozen hash c)
    (s : StringId) (hs : s.1 ∈ lost hash c) : getMethod c (uniquedString hash s) = none :=
  (hc.getMethod_eq s none).2 fun _ hw => ((hc.represents.holds _ _).mp hw).1 hs

/-- A selector that is defined is that of a method. -/
theorem definedIn_isSome {ms : List (MethInfo F)} {x : ℕ} (h : (definedIn ms x).isSome) :
    ∃ m ∈ ms, m.stringId.1 = x := by
  induction ms with
  | nil => simp [definedIn] at h
  | cons m ms ih =>
    rw [definedIn, Option.isSome_or, Bool.or_eq_true] at h
    rcases h with h | h
    · obtain ⟨m', hm', hx⟩ := ih h
      exact ⟨m', List.mem_cons_of_mem _ hm', hx⟩
    · split at h
      · next hx => exact ⟨m, List.mem_cons_self, hx⟩
      · cases h

/-- Only the ids of strings are found. -/
theorem lookupChain_isSome : ∀ (c : SOMClass F) {x : ℕ}, (lookupChain c x).isSome → x < emptyId
  | mk none ms _ _, x, h => by
    obtain ⟨m, -, rfl⟩ := definedIn_isSome (by simpa [lookupChain] using h)
    exact m.stringId.2
  | mk (some c) ms _ _, x, h => by
    rw [lookupChain, Option.isSome_or, Bool.or_eq_true] at h
    rcases h with h | h
    · obtain ⟨m, -, rfl⟩ := definedIn_isSome h
      exact m.stringId.2
    · exact lookupChain_isSome c h

/-- **Lookup is the chain walk exactly when nothing was lost.**  A class built by a chain of
`Create` calls answers every selector as the walk up its chain does if and only if no selector was
dropped by a `Resize` of the construction without being inserted again. -/
theorem getMethod_eq_lookupChain_iff {hash : ℕ → ℕ} {c : SOMClass F} (hc : Created hash c) :
    (∀ s : StringId, getMethod c (uniquedString hash s) = lookupChain c s) ↔ lost hash c = [] := by
  constructor
  · intro h
    refine List.eq_nil_iff_forall_not_mem.mpr fun x hx => ?_
    have hdef := hc.frozen.represents.lost_defined x hx
    have hnone := hc.frozen.getMethod_of_lost ⟨x, lookupChain_isSome c hdef⟩ hx
    rw [h] at hnone
    simp [hnone] at hdef
  · intro h s
    exact hc.frozen.getMethod_of_not_lost s (by simp [h])

/-- Hashes that never collide. -/
def spreadHash (k : ℕ) : ℕ := k + (k + 1) * 2 ^ 16

/-- A class with two methods… -/
def twoMethodClass : SOMClass ℕ :=
  mk none [⟨⟨0, by decide⟩, 10⟩, ⟨⟨1, by decide⟩, 20⟩] 1 [⟨0, some 10⟩, ⟨1, some 20⟩]

/-- …and a subclass overriding one of them. -/
def overridingClass : SOMClass ℕ :=
  mk (some twoMethodClass) [⟨⟨1, by decide⟩, 30⟩] 1 [⟨0, some 10⟩, ⟨1, some 30⟩]

theorem getMethod_eq_lookupChain_overridingClass :
    Created spreadHash overridingClass ∧ lost spreadHash overridingClass = [] ∧
      ∀ s : StringId, getMethod overridingClass (uniquedString spreadHash s)
        = lookupChain overridingClass s := by
  have ha : create spreadHash none [⟨⟨0, by decide⟩, 10⟩, ⟨⟨1, by decide⟩, 20⟩] false
      = some twoMethodClass := rfl
  have hc : create spreadHash (some twoMethodClass) [⟨⟨1, by decide⟩, 30⟩] false
      = some overridingClass := rfl
  have hcr : Created spreadHash overridingClass := .sub (.root ha) hc
  exact ⟨hcr, rfl, (getMethod_eq_lookupChain_iff hcr).mpr rfl⟩

/-! ## A hash assignment that loses a selector

Three ids agreeing on all but bit 4 force the size to 32.  Ids 3 to 17 form a path of positions
ending in an id whose two positions coincide; displacing along it runs to the end and back.  Id 20
forces the resize to 64, where re-inserting id 18 at the head of the path exceeds thirty rounds. -/

/-- The two 16-bit halves of the hash of each id. -/
def crowdedSlots : List (ℕ × ℕ) :=
  [(8, 9), (8, 9), (24, 25), (0, 1), (1, 2), (2, 3), (3, 4), (4, 5), (5, 6), (6, 7), (7, 16),
    (16, 17), (17, 18), (18, 19), (19, 20), (20, 21), (21, 22), (22, 22), (0, 31),
    (31, 10), (40, 9)]

/-- The hash of the key numbered `k`, from the slot pairs of the table. -/
def crowdedHash (k : ℕ) : ℕ :=
  (crowdedSlots.getD k (0, 0)).1 + (crowdedSlots.getD k (0, 0)).2 * 2 ^ 16

/-- One method for each of the first `n` ids. -/
def methodsUpTo (n : ℕ) (hn : n ≤ emptyId) : List (MethInfo ℕ) :=
  (List.finRange n).map fun i => ⟨⟨i.1, i.2.trans_le hn⟩, i.1⟩

/-- **A class of 21 methods in which one of them cannot be found.** -/
theorem getMethod_ne_lookupChain_crowded :
    ∃ c : SOMClass ℕ, Created crowdedHash c ∧
      getMethod c (uniquedString crowdedHash 18) = none ∧ lookupChain c 18 = some 18 := by
  have h : (create crowdedHash none (methodsUpTo 21 (by decide)) false).map (fun c =>
      (getMethod c (uniquedString crowdedHash 18), lookupChain c 18)) = some (none, some 18) := by
    decide +kernel
  obtain ⟨c, hc, heq⟩ := Option.map_eq_some_iff.mp h
  exact ⟨c, .root hc, congrArg Prod.fst heq, congrArg Prod.snd heq⟩

end SOMClass

end Dsom
