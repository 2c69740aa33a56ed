import Dsom.Dfg.PhantomRun

/-!
# Dfg/PhantomCoverage — which values the Phantoms keep alive

The pass always keeps the values for exits (`exitValuesKept`).  It decides when a slot dies, from
the uses up to there, so a value that is used again later gets a `Phantom` it does not need: none is
inserted in vain just when no value with enough uses is held by a slot that dies between two of them
with an exit in between (`keeps_values_iff`).
-/

namespace Dsom

namespace Ir

namespace PhantomInsertion

variable {bb : BasicBlock} {k : ℕ} {v : Value}

/-! ## What the pass tracks, and what the slots hold

`held` forgets a slot when it dies at an exit; until the next write the slot then stays dead at
every exit, so nothing it holds is needed. -/

/-- What the slots hold before the node at index `k`. -/
def latest (bb : BasicBlock) (k : ℕ) : ℕ → Option Value := latestShadowStore bb (bb.nodes.take k)

/-- The node writes the slot, or saves it. -/
def Writes (node : Node) (slot : ℕ) : Prop := StoresTo node slot ∨ Saves node slot

/-- A store decides what the slot holds, whatever it held. -/
theorem writes_of_storesTo {node : Node} {s : ℕ} (h : StoresTo node s) (f g : ℕ → Option Value) :
    writes bb node f s = writes bb node g s := by
  cases hk : node.kind with
  | shadowStore t =>
    have hs : s = t := by simpa [StoresTo, hk] using h
    simp [writes, hk, hs]
  | shadowStoreUndefToRange start len =>
    have hs : start ≤ s ∧ s < start + len := by simpa [StoresTo, hk] using h
    simp [writes, hk, hs]
  | setLocal t => simp [StoresTo, hk] at h
  | phantom => simp [StoresTo, hk] at h
  | other => simp [StoresTo, hk] at h

/-- A saved slot is tracked no more. -/
theorem writes_of_saves {node : Node} {s : ℕ} (h : Saves node s) (f : ℕ → Option Value) :
    writes bb node f s = none := by
  have hk : node.kind = .setLocal s := h
  simp [writes, hk]

/-- The other slots hold what they held. -/
theorem writes_of_not_writes {node : Node} {s : ℕ} (h : ¬ Writes node s) (f : ℕ → Option Value) :
    writes bb node f s = f s := by
  simp only [Writes, not_or] at h
  obtain ⟨hstore, hsave⟩ := h
  cases hk : node.kind with
  | shadowStore t =>
    have hs : s ≠ t := by simpa [StoresTo, hk] using hstore
    simp [writes, hk, hs]
  | shadowStoreUndefToRange start len =>
    have hs : ¬ (start ≤ s ∧ s < start + len) := by simpa only [StoresTo, hk] using hstore
    simp only [writes, hk, if_neg hs]
  | setLocal t =>
    have hs : s ≠ t := fun h => hsave (by rw [Saves, hk, h])
    simp [writes, hk, hs]
  | phantom => simp [writes, hk]
  | other => simp [writes, hk]

/-- What was stored last, one node later. -/
theorem latest_succ {node : Node} (hnode : bb.nodes[k]? = some node) :
    latest bb (k + 1) = writes bb node (latest bb k) := by
  rw [latest, latestShadowStore, List.take_add_one, hnode, List.foldl_append]
  rfl

/-- A node that stores an SSA value uses it. -/
theorem Accepted.uses_of_storesTo {node : Node} (hok : Accepted bb k node) {s : ℕ}
    (hs : StoresTo node s) {f : ℕ → Option Value} (hv : v.IsSsa) (h : writes bb node f s = some v) :
    node.Uses v := by
  cases hk : node.kind with
  | shadowStore t =>
    obtain ⟨e, he⟩ := hok.input hk
    have hst : s = t := by simpa [StoresTo, hk] using hs
    have hev : e.value = v := by simpa [writes, hk, he, hst] using h
    exact ⟨e, by simp [he], hev⟩
  | shadowStoreUndefToRange start len =>
    have hst : start ≤ s ∧ s < start + len := by simpa [StoresTo, hk] using hs
    have hcv : Value.constant bb.undefValue = v := by simpa [writes, hk, hst] using h
    subst hcv
    exact hv.elim
  | setLocal t => simp [StoresTo, hk] at hs
  | phantom => simp [StoresTo, hk] at hs
  | other => simp [StoresTo, hk] at hs

section Accepted

variable (hok : ∀ {j node}, bb.nodes[j]? = some node → Accepted bb j node)
include hok

/-- **Where a held value comes from**: an earlier store, to a slot of the frame that is not saved.
-/
theorem latest_spec : ∀ {k s}, k ≤ bb.nodes.length → latest bb k s = some v →
    s < bb.numInterpreterSlots ∧ ¬ SavedBefore bb k s ∧
      (v.IsSsa → ∃ j < k, ∃ node ∈ bb.nodes[j]?, node.Uses v)
  | 0, s, _, h => by simp [latest, latestShadowStore] at h
  | k + 1, s, hk, h => by
    have hnode := List.getElem?_eq_getElem (l := bb.nodes) hk
    rw [latest_succ hnode] at h
    have hacc := hok hnode
    by_cases hstore : StoresTo bb.nodes[k] s
    · obtain ⟨hlt, hns⟩ := hacc.store hstore
      refine ⟨hlt, ?_, fun hv =>
        ⟨k, Nat.lt_succ_self k, _, hnode, hacc.uses_of_storesTo hstore hv h⟩⟩
      rw [savedBefore_succ hnode, not_or]
      refine ⟨hns, fun hsave => ?_⟩
      rw [writes_of_saves hsave] at h
      cases h
    · by_cases hsave : Saves bb.nodes[k] s
      · rw [writes_of_saves hsave] at h
        cases h
      · rw [writes_of_not_writes (not_or.mpr ⟨hstore, hsave⟩)] at h
        obtain ⟨hlt, hns, huse⟩ := latest_spec (Nat.le_of_succ_le hk) h
        refine ⟨hlt, ?_, fun hv => ?_⟩
        · rw [savedBefore_succ hnode]
          exact not_or.mpr ⟨hns, hsave⟩
        · obtain ⟨j, hj, huse⟩ := huse hv
          exact ⟨j, Nat.lt_succ_of_lt hj, huse⟩

end Accepted

/-- The slot was forgotten: it is dead at the last exit, and was not written since. -/
def Forgotten (bb : BasicBlock) (k s : ℕ) : Prop :=
  held bb k s = none ∧ ∃ m old, lastExitBefore bb k = some m ∧ bb.nodes[m]? = some old ∧
    bb.destLive old.osrExitDest s = false ∧
    ∀ j, m ≤ j → j < k → ∀ node ∈ bb.nodes[j]?, ¬ Writes node s

section Exits

variable (hok : ∀ {j node}, bb.nodes[j]? = some node → Accepted bb j node) (hwf : WellFormed bb)
include hok hwf

/-- **A forgotten slot is dead at the next exit**: coming back to life without a write is ruled out
by the checks of the pass, and for a branch destination by the block. -/
theorem Forgotten.dead {node : Node} {s : ℕ} (h : Forgotten bb k s) (hv : latest bb k s = some v)
    (hnode : bb.nodes[k]? = some node) (hexit : node.MayOsrExit) (hw : ¬ Writes node s) :
    bb.destLive node.osrExitDest s = false := by
  obtain ⟨hnone, m, old, hm, hold, hdead, hnw⟩ := h
  have hdest : exitDestBefore bb k = some old.osrExitDest := by simp [exitDestBefore, hm, hold]
  obtain ⟨hlt, hns, -⟩ := latest_spec hok (List.getElem?_eq_some_iff.mp hnode).1.le hv
  by_contra hlive
  rw [Bool.not_eq_false] at hlive
  by_cases hob : old.osrExitDest.IsBranchDest
  · rw [(hok hnode).branch hexit hdest hob, hdead] at hlive
    cases hlive
  by_cases hnb : node.osrExitDest.IsBranchDest
  · obtain ⟨j, hmj, hjk, w, hwj, hwr⟩ := hwf.revived hnode hexit hnb hm hold hdead hlive
    exact hnw j hmj hjk w hwj hwr
  · rcases (hok hnode).known hexit hdest hnb hlt hdead hlive with hsome | hsaved
    · rw [writes_of_not_writes hw, hnone] at hsome
      cases hsome
    · rw [savedBefore_succ hnode] at hsaved
      exact hsaved.elim hns fun hs => hw (Or.inr hs)

/-- **What the pass tracks**: the latest store, unless the slot was forgotten.  By induction on the
nodes before. -/
theorem held_or_forgotten : ∀ {k s}, k ≤ bb.nodes.length → latest bb k s = some v →
    held bb k s = some v ∨ Forgotten bb k s
  | 0, s, _, h => by simp [latest, latestShadowStore] at h
  | k + 1, s, hk, h => by
    have hnode := List.getElem?_eq_getElem (l := bb.nodes) hk
    rw [latest_succ hnode] at h
    by_cases hstore : StoresTo bb.nodes[k] s
    · have hexit := hwf.store_not_exit _ (List.getElem_mem hk) s hstore
      rw [held_succ hnode, if_neg fun h => hexit h.1, writes_of_storesTo hstore _ (latest bb k)]
      exact Or.inl h
    by_cases hsave : Saves bb.nodes[k] s
    · rw [writes_of_saves hsave] at h
      cases h
    have hw : ¬ Writes bb.nodes[k] s := not_or.mpr ⟨hstore, hsave⟩
    rw [writes_of_not_writes hw] at h
    have hself : ∀ j, k ≤ j → j < k + 1 → ∀ node ∈ bb.nodes[j]?, ¬ Writes node s := by
      intro j hkj hjk node hj
      obtain rfl : j = k := by omega
      obtain rfl := Option.some.inj (hnode.symm.trans hj)
      exact hw
    rw [held_succ hnode, writes_of_not_writes hw]
    rcases held_or_forgotten (Nat.le_of_succ_le hk) h with hheld | hforgot
    · split_ifs with hkill
      · refine Or.inr ⟨by rw [held_succ hnode, if_pos hkill], k, _, ?_, hnode, hkill.2.1, hself⟩
        exact lastExitBefore_succ_of_exit hnode hkill.1
      · exact Or.inl hheld
    · have hnone : held bb (k + 1) s = none := by
        rw [held_succ hnode, writes_of_not_writes hw, hforgot.1, ite_self]
      by_cases hexit : bb.nodes[k].MayOsrExit
      · exact Or.inr ⟨hnone, k, _, lastExitBefore_succ_of_exit hnode hexit, hnode,
          hforgot.dead hok hwf h hnode hexit hw, hself⟩
      · obtain ⟨-, m, old, hm, hold, hdead, hnw⟩ := hforgot
        refine Or.inr ⟨hnone, m, old, ?_, hold, hdead, fun j hmj hjk node hj => ?_⟩
        · rw [lastExitBefore_succ_of_not_exit hnode hexit, hm]
        · rcases Nat.lt_succ_iff_lt_or_eq.mp hjk with hlt | rfl
          · exact hnw j hmj hlt node hj
          · exact hself j le_rfl hjk node hj

/-- A held value is used, or gets a `Phantom`, at or after the index `k`. -/
def KeptFrom (bb : BasicBlock) (k : ℕ) (v : Value) : Prop :=
  (∃ j, k ≤ j ∧ ∃ node ∈ bb.nodes[j]?, node.Uses v) ∨
    ∃ d s q, k < q.1 ∧ q.2.Uses v ∧ DiesAt bb d s v ∧ PhantomFor bb d v q

omit hok in
/-- **At the death of a slot** after an exit the value was used since, or a `Phantom` is inserted.
-/
theorem DiesAt.keptFrom {d s m : ℕ} (h : DiesAt bb d s v) (hv : v.IsSsa)
    (hm : lastExitBefore bb d = some m) (hkm : k ≤ m)
    (hdef : ∃ j < k, ∃ node ∈ bb.nodes[j]?, node.Uses v) : KeptFrom bb k v := by
  obtain ⟨old, hold, -⟩ := (exitAt_of_lastExitBefore hm).2
  by_cases ht : ∃ j, m ≤ j ∧ Touches bb j v
  · obtain ⟨j, hmj, node, hj, huse | hdefines⟩ := ht
    · exact Or.inl ⟨j, le_trans hkm hmj, node, hj, huse⟩
    · -- the value was stored before `k`, so it was not output after it
      cases v with
      | constant c => exact hdefines.elim
      | ssa n o =>
        obtain ⟨i, hik, user, hi, huse⟩ := hdef
        have hn := hwf.defined hi huse
        have hnj := hdefines.1
        omega
  · push Not at ht
    refine Or.inr ⟨d, s, (m + 1, Node.createPhantomNode v old), Nat.lt_succ_of_le hkm, ?_, h, hv, m,
      old, hm, hold, fun j hmj _ => ht j hmj, rfl⟩
    simp

/-- **A value that is held after an exit is kept**: by induction on the nodes left, the slot dies or
is saved. -/
theorem keptFrom_of_held {s : ℕ} (hv : v.IsSsa)
    (hdef : ∃ j < k, ∃ node ∈ bb.nodes[j]?, node.Uses v) :
    ∀ (n : ℕ) {i m : ℕ}, i + n = bb.nodes.length → held bb i s = some v →
      lastExitBefore bb i = some m → k ≤ m → KeptFrom bb k v
  | 0, i, m, hi, hheld, hm, hkm => by
    obtain rfl : i = bb.nodes.length := hi
    exact (diesAt_end.mpr hheld).keptFrom hwf hv hm hkm hdef
  | n + 1, i, m, hi, hheld, hm, hkm => by
    have hlt : i < bb.nodes.length := by omega
    have hki : k ≤ i := hkm.trans (exitAt_of_lastExitBefore hm).1.le
    have hnode := List.getElem?_eq_getElem (l := bb.nodes) hlt
    by_cases hstore : StoresTo bb.nodes[i] s
    · exact ((diesAt_iff hnode).mpr (Or.inl ⟨hstore, hheld⟩)).keptFrom hwf hv hm hkm hdef
    by_cases hsave : Saves bb.nodes[i] s
    · obtain ⟨e, he, hval⟩ := (hok hnode).save hsave
      obtain rfl := Option.some.inj (hheld.symm.trans hval)
      exact Or.inl ⟨i, hki, _, hnode, e, by simp [he], rfl⟩
    have hw : writes bb bb.nodes[i] (held bb i) s = held bb i s :=
      writes_of_not_writes (not_or.mpr ⟨hstore, hsave⟩) _
    by_cases hkill : bb.nodes[i].MayOsrExit ∧
        Kills bb bb.nodes[i].osrExitDest (exitDestBefore bb i) s
    · exact ((diesAt_iff hnode).mpr (Or.inr ⟨hkill.1, hkill.2, hw.trans hheld⟩)).keptFrom
        hwf hv hm hkm hdef
    have hheld' : held bb (i + 1) s = some v := by
      rw [held_succ hnode, if_neg hkill, hw, hheld]
    by_cases hexit : bb.nodes[i].MayOsrExit
    · exact keptFrom_of_held hv hdef n (by omega) hheld'
        (lastExitBefore_succ_of_exit hnode hexit) hki
    · rw [← lastExitBefore_succ_of_not_exit hnode hexit] at hm
      exact keptFrom_of_held hv hdef n (by omega) hheld' hm hkm

/-- **The values of an exit are kept.** -/
theorem keptFrom_of_exit {node : Node} {s : ℕ} (hnode : bb.nodes[k]? = some node)
    (hexit : node.MayOsrExit) (hv : v.IsSsa) (hlive : bb.destLive node.osrExitDest s = true)
    (hlatest : latest bb k s = some v) : KeptFrom bb k v := by
  have hlt := (List.getElem?_eq_some_iff.mp hnode).1
  have hstore : ¬ StoresTo node s := fun hs =>
    hwf.store_not_exit node (List.mem_of_getElem? hnode) s hs hexit
  obtain ⟨-, hns, hdef⟩ := latest_spec hok hlt.le hlatest
  by_cases hsave : Saves node s
  · obtain ⟨e, he, hval⟩ := (hok hnode).save hsave
    rcases held_or_forgotten hok hwf hlt.le hlatest with hheld | hforgot
    · obtain rfl := Option.some.inj (hheld.symm.trans hval)
      exact Or.inl ⟨k, le_rfl, node, hnode, e, by simp [he], rfl⟩
    · rw [hforgot.1] at hval
      cases hval
  have hw : ¬ Writes node s := not_or.mpr ⟨hstore, hsave⟩
  rcases held_or_forgotten hok hwf hlt.le hlatest with hheld | hforgot
  · refine keptFrom_of_held hok hwf (s := s) hv (hdef hv) (bb.nodes.length - (k + 1)) (by omega) ?_
      (lastExitBefore_succ_of_exit hnode hexit) le_rfl
    rw [held_succ hnode, if_neg, writes_of_not_writes hw, hheld]
    rintro ⟨-, hdead, -⟩
    rw [hlive] at hdead
    cases hdead
  · rw [hforgot.dead hok hwf hlatest hnode hexit hw] at hlive
    cases hlive

end Exits

/-! ## The output

The Phantoms stand behind the exits they were made for, and the nodes are otherwise as they were. -/

/-- What is in the block after the insertions. -/
theorem mem_commit {inserts : List (ℕ × Node)} {node : Node} : ∀ {nodes : List Node} {k : ℕ},
    node ∈ commit inserts k nodes ↔
      node ∈ nodes ∨ ∃ q ∈ inserts, k ≤ q.1 ∧ q.1 ≤ k + nodes.length ∧ q.2 = node
  | [], k => by
    simp only [commit, List.mem_map, List.mem_filter, decide_eq_true_eq, List.not_mem_nil, false_or,
      List.length_nil, Nat.add_zero]
    refine exists_congr fun q => ⟨?_, ?_⟩
    · rintro ⟨⟨hq, hk⟩, hn⟩
      exact ⟨hq, by omega, by omega, hn⟩
    · rintro ⟨hq, hle, hge, hn⟩
      exact ⟨⟨hq, by omega⟩, hn⟩
  | n :: rest, k => by
    simp only [commit, List.mem_append, List.mem_map, List.mem_filter, decide_eq_true_eq,
      List.mem_cons, List.length_cons]
    rw [mem_commit]
    constructor
    · rintro (⟨q, ⟨hq, hk⟩, hn⟩ | hn | hn | ⟨q, hq, hle, hge, hn⟩)
      · exact Or.inr ⟨q, hq, by omega, by omega, hn⟩
      · exact Or.inl (Or.inl hn)
      · exact Or.inl (Or.inr hn)
      · exact Or.inr ⟨q, hq, by omega, by omega, hn⟩
    · rintro ((hn | hn) | ⟨q, hq, hle, hge, hn⟩)
      · exact Or.inr (Or.inl hn)
      · exact Or.inr (Or.inr (Or.inl hn))
      · rcases hle.lt_or_eq with hlt | heq
        · exact Or.inr (Or.inr (Or.inr ⟨q, hq, by omega, by omega, hn⟩))
        · exact Or.inl ⟨q, ⟨hq, heq.symm⟩, hn⟩

/-- Inserted nodes do not touch the slots. -/
theorem foldl_writes_phantoms (bb : BasicBlock) : ∀ {ps : List Node} (f : ℕ → Option Value),
    (∀ p ∈ ps, p.kind = .phantom) → ps.foldl (fun held node => writes bb node held) f = f
  | [], f, _ => rfl
  | p :: ps, f, h => by
    have hp : writes bb p f = f := by simp [writes, h p List.mem_cons_self]
    rw [List.foldl_cons, hp]
    exact foldl_writes_phantoms bb f fun p' hp' => h p' (List.mem_cons_of_mem _ hp')

/-- **Where a node of the output stands in the block**, if it may exit: the slots hold the same
before it, and everything inserted later comes after it. -/
theorem commit_split (bb : BasicBlock) {inserts : List (ℕ × Node)} {node : Node} {after : List Node}
    (hexit : node.MayOsrExit)
    (hins : ∀ q ∈ inserts, q.2.kind = .phantom ∧ ¬ q.2.MayOsrExit) :
    ∀ {nodes : List Node} {k : ℕ} {before : List Node} (f : ℕ → Option Value),
      commit inserts k nodes = before ++ node :: after →
      ∃ i, nodes[i]? = some node ∧
        before.foldl (fun held node => writes bb node held) f =
          (nodes.take i).foldl (fun held node => writes bb node held) f ∧
        (∀ j n, i < j → nodes[j]? = some n → n ∈ after) ∧
        ∀ q ∈ inserts, k + i < q.1 → q.1 ≤ k + nodes.length → q.2 ∈ after
  | [], k, before, f, h => by
    have hmem : node ∈ commit inserts k [] := by simp [h]
    obtain ⟨q, hq, -, -, rfl⟩ := (mem_commit.mp hmem).resolve_left List.not_mem_nil
    exact absurd hexit (hins q hq).2
  | n :: rest, k, before, f, h => by
    have hps : ∀ p ∈ (inserts.filter (·.1 = k)).map Prod.snd,
        p.kind = .phantom ∧ ¬ p.MayOsrExit := by
      intro p hp
      obtain ⟨q, hq, rfl⟩ := List.mem_map.mp hp
      exact hins q (List.mem_of_mem_filter hq)
    rw [commit] at h
    generalize (inserts.filter (·.1 = k)).map Prod.snd = ps at h hps
    -- the exiting node is not among the insertions before `n`
    obtain ⟨as, rfl, hrest⟩ : ∃ as, before = ps ++ as ∧
        n :: commit inserts (k + 1) rest = as ++ node :: after := by
      rcases List.append_eq_append_iff.mp h with ⟨as, hbefore, hrest⟩ | ⟨bs, hps', hrest⟩
      · exact ⟨as, hbefore, hrest⟩
      · cases bs with
        | nil => exact ⟨[], by simpa using hps'.symm, by simpa using hrest.symm⟩
        | cons b bs =>
          obtain rfl : node = b := by simpa using congrArg List.head? hrest
          exact absurd hexit (hps node (by simp [hps'])).2
    rw [List.foldl_append, foldl_writes_phantoms bb f fun p hp => (hps p hp).1]
    cases as with
    | nil =>
      obtain ⟨rfl, rfl⟩ := List.cons.inj hrest
      refine ⟨0, rfl, rfl, fun j n' hj hn' => ?_, fun q hq hk hle => ?_⟩
      · cases j with
        | zero => cases hj
        | succ j => exact mem_commit.mpr (Or.inl (List.mem_of_getElem? (by simpa using hn')))
      · refine mem_commit.mpr (Or.inr ⟨q, hq, hk, ?_, rfl⟩)
        simp only [List.length_cons] at hle
        omega
    | cons a as =>
      obtain ⟨rfl, htail⟩ := List.cons.inj hrest
      obtain ⟨i, hi, hfold, hafter, hlater⟩ := commit_split bb hexit hins (writes bb n f) htail
      refine ⟨i + 1, by simpa using hi, hfold, fun j n' hj hn' => ?_, fun q hq hk hle => ?_⟩
      · cases j with
        | zero => cases hj
        | succ j => exact hafter j n' (Nat.lt_of_succ_lt_succ hj) (by simpa using hn')
      · refine hlater q hq (by omega) ?_
        simp only [List.length_cons] at hle
        omega

/-- An inserted `Phantom` stands after an exit, inside the block. -/
theorem PhantomFor.bounds {d s : ℕ} {q : ℕ × Node} (hd : DiesAt bb d s v)
    (h : PhantomFor bb d v q) :
    q.1 ≤ bb.nodes.length ∧ q.2.kind = .phantom ∧ ¬ q.2.MayOsrExit ∧ ∀ w, q.2.Uses w ↔ v = w := by
  obtain ⟨-, m, node, hm, -, -, rfl⟩ := h
  refine ⟨Nat.le_trans (exitAt_of_lastExitBefore hm).1 hd.le_length, rfl,
    Node.createPhantomNode_not_mayOsrExit v node, fun w => ?_⟩
  simp

/-- What the pass tracks for a slot is what the slot holds. -/
theorem latest_of_held : ∀ {k s}, k ≤ bb.nodes.length → held bb k s = some v →
    latest bb k s = some v
  | 0, s, _, h => by cases h
  | k + 1, s, hk, h => by
    have hnode := List.getElem?_eq_getElem (l := bb.nodes) hk
    rw [held_succ hnode] at h
    split_ifs at h with hkill
    rw [latest_succ hnode]
    by_cases hstore : StoresTo bb.nodes[k] s
    · rwa [writes_of_storesTo hstore _ (held bb k)]
    by_cases hsave : Saves bb.nodes[k] s
    · rw [writes_of_saves hsave] at h
      cases h
    · have hw : ¬ Writes bb.nodes[k] s := not_or.mpr ⟨hstore, hsave⟩
      rw [writes_of_not_writes hw] at h ⊢
      exact latest_of_held (Nat.le_of_succ_le hk) h

/-- A slot that holds a value when it dies got it from an earlier node, which uses it. -/
theorem DiesAt.stored (hok : ∀ {j node}, bb.nodes[j]? = some node → Accepted bb j node)
    (hwf : WellFormed bb) {d s : ℕ} (hd : DiesAt bb d s v) (hv : v.IsSsa) :
    ∃ j < d, ∃ node ∈ bb.nodes[j]?, node.Uses v := by
  have hheld : held bb d s = some v := by
    obtain ⟨node, hnode, ⟨-, hheld⟩ | ⟨hexit, -, hwr⟩⟩ | ⟨-, hheld⟩ := hd
    · exact hheld
    · have hstore : ¬ StoresTo node s := fun hs =>
        hwf.store_not_exit node (List.mem_of_getElem? hnode) s hs hexit
      by_cases hsave : Saves node s
      · rw [writes_of_saves hsave] at hwr
        cases hwr
      · rwa [writes_of_not_writes (not_or.mpr ⟨hstore, hsave⟩)] at hwr
    · exact hheld
  exact (latest_spec hok hd.le_length (latest_of_held hd.le_length hheld)).2.2 hv

section Output

variable {out : List Node} (h : processBasicBlock bb = some out) (hwf : WellFormed bb)
include h hwf

/-- **Every value an exit needs is used at or after it.** -/
theorem exitValuesKept : ExitValuesKept bb out := by
  obtain ⟨hok, inserts, rfl, hins⟩ := processBasicBlock_spec h
  intro before node after hout hexit s v hv hlive hlatest
  have hphantoms : ∀ q ∈ inserts, q.2.kind = .phantom ∧ ¬ q.2.MayOsrExit := by
    intro q hq
    obtain ⟨d, s, v, hd, hp⟩ := (hins q).mp hq
    obtain ⟨-, hkind, hne, -⟩ := hp.bounds hd
    exact ⟨hkind, hne⟩
  obtain ⟨i, hi, hfold, hafter, hlater⟩ := commit_split bb hexit hphantoms (fun _ => none) hout
  rw [latestShadowStore, hfold] at hlatest
  rcases keptFrom_of_exit hok hwf hi hexit hv hlive hlatest with
    ⟨j, hij, user, hj, huse⟩ | ⟨d, s', q, hiq, huse, hd, hp⟩
  · rcases hij.lt_or_eq with hlt | rfl
    · exact ⟨user, List.mem_cons_of_mem _ (hafter j user hlt hj), huse⟩
    · obtain rfl := Option.some.inj (hi.symm.trans hj)
      exact ⟨node, List.mem_cons_self, huse⟩
  · have hq := (hins q).mpr ⟨d, s', v, hd, hp⟩
    have hle := (hp.bounds hd).1
    exact ⟨q.2, List.mem_cons_of_mem _ (hlater q hq (by omega) (by omega)), huse⟩

/-- **When a `Phantom` is inserted for a value.** -/
theorem phantom_iff : (∃ node ∈ out, node.kind = .phantom ∧ node.Uses v) ↔
    v.IsSsa ∧ ∃ d s, DiesAt bb d s v ∧ UnusedSinceExit bb d v := by
  obtain ⟨hok, inserts, rfl, hins⟩ := processBasicBlock_spec h
  constructor
  · rintro ⟨node, hnode, hkind, huse⟩
    rcases mem_commit.mp hnode with hmem | ⟨q, hq, -, -, rfl⟩
    · exact absurd hkind (hwf.not_phantom node hmem)
    · obtain ⟨d, s, w, hd, hp⟩ := (hins q).mp hq
      obtain rfl := ((hp.bounds hd).2.2.2 v).mp huse
      obtain ⟨hv, m, old, hm, -, hun, -⟩ := hp
      exact ⟨hv, d, s, hd, m, hm, fun j hmj hjd n hj huse => hun j hmj hjd ⟨n, hj, Or.inl huse⟩⟩
  · rintro ⟨hv, d, s, hd, m, hm, hun⟩
    obtain ⟨hmd, old, hold, -⟩ := exitAt_of_lastExitBefore hm
    have hp : PhantomFor bb d v (m + 1, Node.createPhantomNode v old) := by
      refine ⟨hv, m, old, hm, hold, ?_, rfl⟩
      rintro j hmj hjd ⟨n, hj, huse | hdef⟩
      · exact hun j hmj hjd n hj huse
      · -- the store that uses the value comes after its definition
        cases v with
        | constant c => exact hdef
        | ssa i o =>
          obtain ⟨k, hkd, user, hk, huse⟩ := hd.stored hok hwf hv
          have hik := hwf.defined hk huse
          obtain rfl := hdef.1
          exact hun k (by omega) hkd.le user hk huse
    have hle := (hp.bounds hd).1
    refine ⟨_, mem_commit.mpr (Or.inr ⟨_, (hins _).mpr ⟨d, s, v, hd, hp⟩, Nat.zero_le _, ?_, rfl⟩),
      rfl, by simp⟩
    rwa [Nat.zero_add]

/-- **What the pass guarantees**: it keeps the values for exits, and it inserts no `Phantom` in vain
just when no slot dies too early. -/
theorem keeps_values_iff : ExitValuesKept bb out ∧ NoUnneededPhantom bb out ↔ NoEarlyDeath bb := by
  constructor
  · rintro ⟨-, hno⟩ d s v hv hd hun
    obtain ⟨node, hnode, hkind, huse⟩ := (phantom_iff h hwf).mpr ⟨hv, d, s, hd, hun⟩
    exact hno node hnode hkind v huse
  · refine fun hno => ⟨exitValuesKept h hwf, fun node hnode hkind v huse => ?_⟩
    obtain ⟨hv, d, s, hd, hun⟩ := (phantom_iff h hwf).mp ⟨node, hnode, hkind, huse⟩
    exact hno d s v hv hd hun

end Output

/-! ## Two blocks

The slot of a value dies after an exit: in the first block the value is not used again, in the
second it is. -/

/-- A function with one local, live everywhere. -/
def oneLocal : CodeBlock where
  numFixedArguments := 0
  stackFrameNumSlots := 1
  hasVariadicArguments := false
  liveness _ _ _ := true
  fixed_le := by decide

/-- A node whose inputs need no check. -/
def plainNode (kind : NodeKind) (inputs : List Value) (exits outputs : Bool) : Node where
  kind := kind
  inputs := inputs.map (⟨·, false⟩)
  hasDirectOutput := outputs
  numExtraOutputs := 0
  mayOsrExitNotConsideringChecks := exits
  osrExitDest := .normal ⟨0, 0⟩

/-- A block of one interpreter slot, dead at its tail. -/
def oneSlotBlock (nodes : List Node) : BasicBlock where
  numInterpreterSlots := 1
  undefValue := 0
  frames _ := createRootFrame oneLocal
  tail _ := .dead
  nodes := nodes

/-- A value is stored to a slot, a node may exit, and the slot is overwritten. -/
def overwrittenSlot : BasicBlock := oneSlotBlock
  [plainNode .other [] false true,
    plainNode (.shadowStore 0) [.ssa 0 0] false false,
    plainNode .other [] true false,
    plainNode (.shadowStore 0) [.constant 7] false false]

/-- The same, and the value is used after that. -/
def usedAfterDeath : BasicBlock := oneSlotBlock
  (overwrittenSlot.nodes ++ [plainNode .other [.ssa 0 0] false false])

/-- The operand is defined before the node at index `k`. -/
def DefinedBefore (k : ℕ) : Value → Prop
  | .constant _ => True
  | .ssa n _ => n < k

instance (k : ℕ) : (v : Value) → Decidable (DefinedBefore k v)
  | .constant _ => isTrue trivial
  | .ssa n _ => inferInstanceAs (Decidable (n < k))

/-- When a block with one slot is well formed. -/
theorem wellFormed_oneSlotBlock {nodes : List Node}
    (hkind : ∀ node ∈ nodes, node.kind ≠ .phantom ∧ (node.MayOsrExit → node.kind = .other) ∧
      ¬ node.osrExitDest.IsBranchDest)
    (hdef : ∀ k < nodes.length, ∀ node ∈ nodes[k]?, ∀ e ∈ node.inputs, DefinedBefore k e.value) :
    WellFormed (oneSlotBlock nodes) where
  store_not_exit node hnode s hs hexit := by simp [StoresTo, (hkind node hnode).2.1 hexit] at hs
  not_phantom node hnode := (hkind node hnode).1
  defined {k node n o} hnode huse := by
    obtain ⟨e, he, hv⟩ := huse
    have := hdef k (List.getElem?_eq_some_iff.mp hnode).1 node hnode e he
    rwa [hv] at this
  revived hnode _ hb := absurd hb (hkind _ (List.mem_of_getElem? hnode)).2.2

theorem wellFormed_overwrittenSlot : WellFormed overwrittenSlot :=
  wellFormed_oneSlotBlock (by decide) (by decide)

theorem wellFormed_usedAfterDeath : WellFormed usedAfterDeath :=
  wellFormed_oneSlotBlock (by decide) (by decide)

/-- The stored value is needed by the exit, and not used after it. -/
theorem not_covered_overwrittenSlot : ¬ Covered overwrittenSlot (.ssa 0 0) := by
  intro hcov
  have huse := hcov (overwrittenSlot.nodes.take 2) (plainNode .other [] true false)
    (overwrittenSlot.nodes.drop 3) rfl (by decide) 0 (by decide) (by decide)
  exact absurd huse (by decide)

/-- The last node keeps the value alive past the exit. -/
theorem covered_usedAfterDeath : Covered usedAfterDeath (.ssa 0 0) := by
  intro before node after hsplit _ _ _ _
  refine ⟨plainNode .other [.ssa 0 0] false false, ?_, by decide⟩
  have hlast : (before ++ node :: after).getLast? =
      some (plainNode .other [.ssa 0 0] false false) := by
    rw [← hsplit]
    decide
  rw [List.getLast?_append_of_ne_nil _ (List.cons_ne_nil node after)] at hlast
  exact List.mem_of_getLast? hlast

/-- A `Phantom` is inserted, and keeps the value. -/
theorem keeps_values_overwrittenSlot : ∃ out, processBasicBlock overwrittenSlot = some out ∧
    ExitValuesKept overwrittenSlot out ∧ NoUnneededPhantom overwrittenSlot out := by
  have hrun : (processBasicBlock overwrittenSlot).isSome := by decide +kernel
  obtain ⟨out, hout⟩ := Option.isSome_iff_exists.mp hrun
  refine ⟨out, hout, (keeps_values_iff hout wellFormed_overwrittenSlot).mpr ?_⟩
  intro d s v hv hd hun hcov
  obtain ⟨hok, -⟩ := processBasicBlock_spec hout
  obtain ⟨j, -, node, hj, e, he, rfl⟩ := hd.stored hok wellFormed_overwrittenSlot hv
  have hinputs : ∀ node ∈ overwrittenSlot.nodes, ∀ e ∈ node.inputs,
      e.value.IsSsa → e.value = .ssa 0 0 := by decide
  rw [hinputs node (List.mem_of_getElem? hj) e he hv] at hcov
  exact not_covered_overwrittenSlot hcov

/-- **A `Phantom` in vain**: the last node uses the value anyway. -/
theorem unneeded_phantom_usedAfterDeath : WellFormed usedAfterDeath ∧
    ∃ out, processBasicBlock usedAfterDeath = some out ∧
      ¬ (ExitValuesKept usedAfterDeath out ∧ NoUnneededPhantom usedAfterDeath out) := by
  have hrun : (processBasicBlock usedAfterDeath).any
      (fun out => ∃ node ∈ out, node.kind = .phantom ∧ node.Uses (.ssa 0 0)) = true := by
    decide +kernel
  obtain ⟨out, hout, hphantom⟩ := (Option.any_eq_true _ _).mp hrun
  obtain ⟨node, hnode, hkind, huse⟩ := of_decide_eq_true hphantom
  refine ⟨wellFormed_usedAfterDeath, out, hout, fun h => ?_⟩
  exact h.2 node hnode hkind _ huse covered_usedAfterDeath

end PhantomInsertion

end Ir

end Dsom
