import Dsom.Graph.Connected

/-!
# Graph/Search — the search ends, and components are closed off in reverse order

Every stretch of the search keeps the invariant `Inv` and leaves less to do (`Advances`), so the
search from a node returns with all it entered in components (`run_finished`), and so does the loop
over the entry nodes.  Components are numbered against the edges (`computeForGenericGraph_le`).
-/

namespace Dsom

namespace Scc

open Finder

/-- The invariant of the search. -/
structure Inv (n : ℕ) (edges : ℕ → List ℕ) (base : ℕ) (num : ℕ → ℕ) (s : Finder) : Prop where
  marks : Marks n s
  order : Order base num s
  connected : Connected n edges num s
  edges : Edges n edges num s

variable {n base : ℕ} {edges : ℕ → List ℕ} {num : ℕ → ℕ} {s : Finder} {u v w : ℕ}
  {rest : List ℕ} {vf : List (ℕ × List ℕ)}

/-! ## The search -/

/-- What holds at each label. -/
def AtLabel (n base : ℕ) (num : ℕ → ℕ) (s : Finder) : Label → Prop
  | .visitNewNode v => v < n ∧ s.rindexComposite v = 0 ∧ (∀ f ∈ s.vf.head?, f.2.head? = some v) ∧
      (s.vf = [] → base = s.index) ∧ Low num s none
  | .continueIterateEdges => ∃ u w rest vf, s.vf = (u, w :: rest) :: vf ∧
      s.rindexComposite w ≠ 0 ∧ Low num s (some w)
  | .finishedVisitingEdges => ∃ u vf, s.vf = (u, []) :: vf ∧ Low num s none

/-- What is still to be done: nodes to enter, edges to pass and nodes to leave. -/
def remaining (n : ℕ) (edges : ℕ → List ℕ) (s : Finder) : ℕ :=
  ∑ v ∈ (Finset.range n).filter (fun v => s.rindexComposite v = 0), ((edges v).length + 2)
    + (s.vf.map fun f => f.2.length + 1).sum

/-- All that was entered is in a component, no edge leads to a later component, and a component is
strongly connected. -/
structure Finished (n : ℕ) (edges : ℕ → List ℕ) (s : Finder) : Prop where
  marks : Marks n s
  vf_nil : s.vf = []
  vb_nil : s.vb = []
  closed : ∀ u, 2 * n < s.rindexComposite u → ∀ w ∈ edges u,
    s.rindexComposite u ≤ s.rindexComposite w
  same : ∀ x y, 2 * n < s.rindexComposite x → s.rindexComposite y = s.rindexComposite x →
    Reach edges x y
  used : ∀ c, c % 2 = 1 → s.componentIndex < c → c < 4 * n → ∃ v, s.rindexComposite v = c

/-- Marks are never taken back. -/
def Keeps (s t : Finder) : Prop := ∀ v, s.rindexComposite v ≠ 0 → t.rindexComposite v ≠ 0

/-- The next label after the edges so far. -/
theorem atLabel_nextLabel (hE : ∀ u < n, ∀ w ∈ edges u, w < n) (hm : Marks n s)
    (he : Edges n edges num s) (hlow : Low num s none) (hvf : s.vf = (u, rest) :: vf) :
    AtLabel n base num s (s.nextLabel rest) := by
  cases rest with
  | nil => exact ⟨u, vf, hvf, hlow⟩
  | cons w rest =>
      rw [nextLabel]
      split_ifs with h0
      · have hu : u < n := hm.node_lt u (hm.mark_ne_zero (.inl (by simp [path, hvf])))
        have hw : w ∈ edges u :=
          (he.rest_suffix (u, w :: rest) (by simp [hvf])).mem (.head _)
        exact ⟨hE u hu w hw, h0, by simp [hvf], by simp [hvf], hlow⟩
      · refine ⟨u, w, rest, vf, hvf, h0, fun a ha x hx hax hb => .inl (hlow.none_le ha hx hax hb)⟩

/-- A stretch of the search keeps the invariant and leaves less to do. -/
def Advances (n : ℕ) (edges : ℕ → List ℕ) (base : ℕ) (s t : Finder) (label : Label) : Prop :=
  (∃ num, Inv n edges base num t ∧ AtLabel n base num t label) ∧
    remaining n edges t < remaining n edges s ∧ Keeps s t

/-- Entering a new node. -/
theorem visit_advances (hE : ∀ u < n, ∀ w ∈ edges u, w < n) (h : Inv n edges base num s)
    (hl : AtLabel n base num s (.visitNewNode v)) :
    Advances n edges base s (s.enter edges v) ((s.enter edges v).nextLabel (edges v)) := by
  obtain ⟨hv, h0, htop, hbase, hlow⟩ := hl
  have hm : Marks n (s.enter edges v) := h.marks.enter hv h0
  have he := h.edges.enter h.marks hv h0 htop
  refine ⟨⟨_, ⟨hm, h.order.enter h.marks h0 hbase,
      h.connected.enter h.marks h.order h.edges hv h0 htop, he⟩,
    atLabel_nextLabel hE hm he (hlow.enter h.order (h.marks.not_live h0)) rfl⟩, ?_, ?_⟩
  · have hpos : s.index ≠ 0 := by rw [h.marks.index_eq]; omega
    have herase : (Finset.range n).filter (fun u => (s.enter edges v).rindexComposite u = 0)
        = ((Finset.range n).filter fun u => s.rindexComposite u = 0).erase v := by
      ext u
      by_cases huv : u = v
      · subst huv
        simp [enter_mark_self, hpos]
      · simp [enter_mark_of_ne huv, huv]
    have hmem : v ∈ (Finset.range n).filter fun u => s.rindexComposite u = 0 := by simp [hv, h0]
    have hsum := Finset.add_sum_erase _ (fun u => (edges u).length + 2) hmem
    have hvf : (s.enter edges v).vf = (v, edges v) :: s.vf := rfl
    rw [remaining, remaining, herase, ← hsum, hvf]
    simp only [List.map_cons, List.sum_cons]
    omega
  · intro u hu
    have huv : u ≠ v := fun huv => hu (huv ▸ h0)
    rwa [enter_mark_of_ne huv]

theorem continue_advances (hE : ∀ u < n, ∀ w ∈ edges u, w < n) (h : Inv n edges base num s)
    (hvf : s.vf = (u, w :: rest) :: vf) (hw : s.rindexComposite w ≠ 0)
    (hlow : Low num s (some w)) :
    Advances n edges base s (s.examine u w rest vf)
      ((s.examine u w rest vf).nextLabel rest) := by
  have hm := h.marks.examine hvf
  have he := h.edges.examine hvf h.marks h.order hw
  have hzero : ∀ v, (s.examine u w rest vf).rindexComposite v = 0 ↔ s.rindexComposite v = 0 := by
    intro v
    by_cases hv : v = u
    · subst hv
      have := h.marks.mark_ne_zero (live_top hvf)
      rw [examine_mark_self]
      omega
    · rw [examine_mark_of_ne hv]
  refine ⟨⟨num, ⟨hm, h.order.examine hvf h.marks hw,
      h.connected.examine h.marks h.order h.edges hvf hw, he⟩,
    atLabel_nextLabel hE hm he (hlow.examine hvf h.order) rfl⟩, ?_, fun v hv => ?_⟩
  · simp only [remaining, hzero, hvf]
    simp only [Finder.examine, List.map_cons, List.sum_cons, List.length_cons]
    omega
  · rwa [ne_eq, hzero]

/-- Leaving the node on top. -/
theorem leave_keeps (h : Inv n edges base num s) (hvf : s.vf = (u, []) :: vf)
    (hlow : Low num s none) :
    Inv n edges base num (s.leave u vf) ∧ Low num (s.leave u vf) (some u) ∧
      (s.leave u vf).vf = vf ∧
      (∀ v, (s.leave u vf).rindexComposite v = 0 ↔ s.rindexComposite v = 0) ∧
      (vf = [] → (s.leave u vf).vb = []) := by
  by_cases hr : s.isRoot u = true
  · obtain ⟨taken, left, ht⟩ := leave_of_root hvf h.order hlow hr
    have hc := h.marks.lt_comp (ht.live_of_closed hvf (.inl rfl))
    refine ⟨⟨h.marks.close hvf ht h.order, h.order.close hvf ht,
      h.connected.close hvf ht h.marks h.order, h.edges.close hvf ht h.marks h.order hr⟩, ?_,
      ht.vf_left, fun v => ?_,
      ht.vb_eq_nil hvf h.order⟩
    · have hlow' := hlow.close hvf ht h.order
      exact fun a ha x hx hax hb => .inl (hlow'.none_le ha hx hax hb)
    · by_cases hv : v = u ∨ v ∈ taken
      · have := h.marks.mark_ne_zero (ht.live_of_closed hvf hv)
        rw [ht.mark_in v hv]
        omega
      · rw [ht.mark_out v hv]
  · rw [leave_of_not_root hr]
    refine ⟨⟨h.marks.postpone hvf, h.order.postpone hvf hr, h.connected.postpone hvf,
        h.edges.postpone hvf⟩,
      hlow.postpone hvf h.order hr, rfl, fun v => Iff.rfl, fun hnil => ?_⟩
    exact absurd (h.order.isRoot_bottom hvf hnil) hr

/-- Leaving a node that is not the last. -/
theorem leave_advances (h : Inv n edges base num s) (hvf : s.vf = (u, []) :: vf)
    (hlow : Low num s none) (hne : vf ≠ []) :
    Advances n edges base s (s.leave u vf) .continueIterateEdges := by
  obtain ⟨hinv, hlow', hvf', hzero, -⟩ := leave_keeps h hvf hlow
  refine ⟨⟨num, hinv, ?_⟩, ?_, fun v hv => by rwa [ne_eq, hzero]⟩
  · -- the current edge of the node below is the one that led to `u`
    obtain ⟨⟨p, rem⟩, below, rfl⟩ := List.exists_cons_of_ne_nil hne
    have hlinked := h.edges.linked
    rw [hvf, List.isChain_cons] at hlinked
    have hhead : rem.head? = some u := hlinked.1 (p, rem) rfl
    obtain ⟨rest, rfl⟩ := List.head?_eq_some_iff.mp hhead
    have hu : s.rindexComposite u ≠ 0 :=
      h.marks.mark_ne_zero (.inl (by simp [path_eq_cons hvf]))
    exact ⟨p, u, rest, below, hvf', by rwa [ne_eq, hzero], hlow'⟩
  · simp only [remaining, hzero, hvf, hvf', List.map_cons, List.sum_cons, List.length_nil]
    omega

/-- With both stacks empty the search is finished. -/
theorem Inv.finished (h : Inv n edges base num s) (hvf : s.vf = []) (hvb : s.vb = []) :
    Finished n edges s where
  marks := h.marks
  vf_nil := hvf
  vb_nil := hvb
  closed := h.edges.closed
  same := h.connected.same
  used := h.connected.used

/-- What a stretch of the search leads to: another label, or the end with everything it entered in a
component. -/
def Outcome (n : ℕ) (edges : ℕ → List ℕ) (base : ℕ) (s : Finder) : Option Label × Finder → Prop
  | (some label, t) => Advances n edges base s t label
  | (none, t) => Finished n edges t ∧ remaining n edges t < remaining n edges s ∧ Keeps s t

/-- The step at an edge. -/
theorem step_continue (hvf : s.vf = (u, w :: rest) :: vf) : s.step edges .continueIterateEdges =
    (some ((s.examine u w rest vf).nextLabel rest), s.examine u w rest vf) := by
  rw [step, hvf]

/-- The step behind the last edge. -/
theorem step_finished (hvf : s.vf = (u, rest) :: vf) : s.step edges .finishedVisitingEdges =
    (if vf = [] then none else some .continueIterateEdges, s.leave u vf) := by
  rw [step, hvf]

/-- **One stretch of the search.** -/
theorem step_outcome (hE : ∀ u < n, ∀ w ∈ edges u, w < n) {label : Label}
    (h : Inv n edges base num s) (hl : AtLabel n base num s label) :
    Outcome n edges base s (s.step edges label) := by
  cases label with
  | visitNewNode v => exact visit_advances hE h hl
  | continueIterateEdges =>
      obtain ⟨u, w, rest, vf, hvf, hw, hlow⟩ := hl
      rw [step_continue hvf]
      exact continue_advances hE h hvf hw hlow
  | finishedVisitingEdges =>
      obtain ⟨u, vf, hvf, hlow⟩ := hl
      rw [step_finished hvf]
      by_cases hnil : vf = []
      · obtain ⟨hinv, -, hvf', hzero, hvb⟩ := leave_keeps h hvf hlow
        rw [if_pos hnil]
        refine ⟨hinv.finished (hvf'.trans hnil) (hvb hnil), ?_, fun v hv => by rwa [ne_eq, hzero]⟩
        simp only [remaining, hzero, hvf, hvf', List.map_cons, List.sum_cons, List.length_nil]
        omega
      · rw [if_neg hnil]
        exact leave_advances h hvf hlow hnil

/-- **The search from a node ends**, with everything it entered in a component. -/
theorem run_finished (hE : ∀ u < n, ∀ w ∈ edges u, w < n) {label : Label} {fuel : ℕ}
    (h : Inv n edges base num s) (hl : AtLabel n base num s label)
    (hfuel : remaining n edges s < fuel) :
    ∃ t, s.run edges fuel label = some t ∧ Finished n edges t ∧ Keeps s t := by
  induction fuel generalizing s num label with
  | zero => omega
  | succ fuel ih =>
      have hout := step_outcome hE h hl
      rw [run]
      generalize s.step edges label = r at hout
      obtain ⟨_ | label', t⟩ := r
      · obtain ⟨hfin, -, hkeep⟩ := hout
        exact ⟨t, rfl, hfin, hkeep⟩
      · obtain ⟨⟨num', hinv, hl'⟩, hlt, hkeep⟩ := hout
        obtain ⟨t', hrun, hfin, hkeep'⟩ := ih hinv hl' (by omega)
        exact ⟨t', hrun, hfin, fun v hv => hkeep' v (hkeep v hv)⟩

/-- Between two searches both stacks are empty. -/
theorem Finished.inv (h : Finished n edges s) : Inv n edges s.index num s := by
  have hlive : ∀ v, ¬ s.Live v := fun v hv => by
    simp [Live, path, h.vf_nil, h.vb_nil] at hv
  have hpath : s.path = [] := by simp [path, h.vf_nil]
  refine ⟨h.marks, ?_, ?_, ?_⟩
  · constructor
    case nodup => simp [hpath, h.vb_nil]
    case base_le_index => exact le_rfl
    case base_even =>
      have := h.marks.index_eq
      omega
    case path_sorted => simp [hpath]
    case vb_sorted => simp [h.vb_nil]
    case bottom => simp [h.vf_nil]
    case path_mark => simp [hpath]
    case vb_odd => simp [h.vb_nil]
    all_goals intro v
    case inj => exact fun _ hv => absurd hv (hlive v)
    all_goals exact fun hv => absurd hv (hlive v)
  · exact ⟨by simp [hpath], fun x hx => absurd hx (hlive x), h.same, h.used⟩
  · have hpassed : ∀ {a b}, ¬ s.Passed edges a b := fun hp => hlive _ hp.live
    exact ⟨by simp [h.vf_nil], by simp [h.vf_nil], fun _ _ hp => absurd hp hpassed,
      fun _ _ hp => absurd hp hpassed, h.closed⟩

/-- The fuel is enough. -/
theorem remaining_lt_searchFuel (h : s.vf = []) : remaining n edges s < searchFuel n edges := by
  have hle : ∑ v ∈ (Finset.range n).filter (fun v => s.rindexComposite v = 0),
      ((edges v).length + 2) ≤ ∑ v ∈ Finset.range n, ((edges v).length + 2) :=
    Finset.sum_le_sum_of_subset (Finset.filter_subset _ _)
  have hsum : ∑ v ∈ Finset.range n, ((edges v).length + 2)
      = ((List.range n).map fun v => (edges v).length + 2).sum := rfl
  rw [remaining, searchFuel, h, ← hsum]
  simp only [List.map_nil, List.sum_nil]
  omega

/-- The search from one node. -/
theorem findSccFromNode_finished (hE : ∀ u < n, ∀ w ∈ edges u, w < n) (h : Finished n edges s)
    (hv : v < n) (h0 : s.rindexComposite v = 0) :
    ∃ t, findSccFromNode n edges s v = some t ∧ Finished n edges t ∧ Keeps s t ∧
      t.rindexComposite v ≠ 0 := by
  have hinv : Inv n edges s.index (fun _ => 0) s := h.inv
  have hl : AtLabel n s.index (fun _ => 0) s (.visitNewNode v) :=
    ⟨hv, h0, by simp [h.vf_nil], fun _ => rfl, fun a ha => by simp [path, h.vf_nil] at ha⟩
  obtain ⟨fuel, hfuel⟩ : ∃ fuel, searchFuel n edges = fuel + 1 := ⟨_, rfl⟩
  have hlt : remaining n edges s < searchFuel n edges := remaining_lt_searchFuel h.vf_nil
  obtain ⟨⟨num, hinv', hl'⟩, hlt', hkeep⟩ := visit_advances hE hinv hl
  obtain ⟨t, hrun, hfin, hkeep'⟩ := run_finished hE hinv' hl' (show _ < fuel by omega)
  refine ⟨t, ?_, hfin, fun u hu => hkeep' u (hkeep u hu), hkeep' v ?_⟩
  · rw [findSccFromNode, hfuel]
    exact hrun
  · rw [enter_mark_self, h.marks.index_eq]
    omega

/-- The searches from all the nodes. -/
theorem searchAll_finished (hE : ∀ u < n, ∀ w ∈ edges u, w < n) {nodes : List ℕ}
    (hnodes : ∀ v ∈ nodes, v < n) (h : Finished n edges s) :
    ∃ t, searchAll n edges nodes s = some t ∧ Finished n edges t ∧ Keeps s t ∧
      ∀ v ∈ nodes, t.rindexComposite v ≠ 0 := by
  induction nodes generalizing s with
  | nil => exact ⟨s, rfl, h, fun _ hv => hv, by simp⟩
  | cons v nodes ih =>
      obtain ⟨hv, hnodes⟩ := List.forall_mem_cons.mp hnodes
      rw [searchAll]
      split_ifs with h0
      · obtain ⟨t, hfind, hfin, hkeep, hvt⟩ := findSccFromNode_finished hE h hv h0
        obtain ⟨t', hall, hfin', hkeep', hrest⟩ := ih hnodes hfin
        refine ⟨t', by rw [hfind]; exact hall, hfin', fun u hu => hkeep' u (hkeep u hu), ?_⟩
        exact List.forall_mem_cons.mpr ⟨hkeep' v hvt, hrest⟩
      · obtain ⟨t', hall, hfin', hkeep', hrest⟩ := ih hnodes h
        exact ⟨t', hall, hfin', hkeep', List.forall_mem_cons.mpr ⟨hkeep' v h0, hrest⟩⟩

/-- Nothing has been searched at the start. -/
theorem initialFinder_finished : Finished n edges (initialFinder n) where
  marks := by
    constructor <;> simp [initialFinder, Finder.Live, Finder.path, Finder.visited, Finder.assigned]
    all_goals omega
  vf_nil := rfl
  vb_nil := rfl
  closed u hu := by simp [initialFinder] at hu
  same x y hx := by simp [initialFinder] at hx
  used c hodd hlt hc := by
    have : 4 * n - 1 < c := hlt
    omega

/-- A node that is seen is in a component. -/
theorem Finished.lt_mark (h : Finished n edges s) (hv : s.rindexComposite v ≠ 0) :
    2 * n < s.rindexComposite v :=
  (h.marks.live_or_assigned hv).resolve_left fun hl => by
    simp [Live, path, h.vf_nil, h.vb_nil] at hl

/-- Components are numbered against the paths. -/
theorem Finished.mark_le_of_reach (h : Finished n edges s) (hu : s.rindexComposite u ≠ 0)
    (huv : Reach edges u v) : s.rindexComposite u ≤ s.rindexComposite v := by
  induction huv with
  | refl => exact le_rfl
  | tail _ hedge ih => exact ih.trans (h.closed _ (h.lt_mark (by omega)) _ hedge)

/-- **Components are the classes of nodes that reach one another.** -/
theorem Finished.mark_eq_iff (h : Finished n edges s) (hu : s.rindexComposite u ≠ 0)
    (hv : s.rindexComposite v ≠ 0) :
    s.rindexComposite u = s.rindexComposite v ↔ Reach edges u v ∧ Reach edges v u := by
  refine ⟨fun heq => ?_, fun ⟨huv, hvu⟩ => ?_⟩
  · exact ⟨h.same u v (h.lt_mark hu) heq.symm, h.same v u (h.lt_mark hv) heq⟩
  · exact le_antisymm (h.mark_le_of_reach hu huv) (h.mark_le_of_reach hv hvu)

/-- **`FinishComputation`** numbers the classes of nodes that reach one another, from `0` on. -/
theorem Finished.finishComputation (h : Finished n edges s)
    (hseen : ∀ v < n, s.rindexComposite v ≠ 0) :
    (∀ u < n, ∀ v < n, (finishComputation n s).2 u = (finishComputation n s).2 v ↔
        Reach edges u v ∧ Reach edges v u) ∧
      ∀ c, (∃ v < n, (finishComputation n s).2 v = c) ↔ c < (finishComputation n s).1 := by
  have hmark (v : ℕ) (hv : v < n) := h.marks.assigned v (h.lt_mark (hseen v hv))
  simp only [Scc.finishComputation]
  refine ⟨fun u hu v hv => ?_, fun c => ⟨?_, fun hc => ?_⟩⟩
  · rw [← h.mark_eq_iff (hseen u hu) (hseen v hv)]
    have := hmark u hu
    have := hmark v hv
    omega
  · rintro ⟨v, hv, rfl⟩
    have := hmark v hv
    have := h.marks.comp_odd (by omega)
    omega
  · rcases Nat.eq_zero_or_pos n with rfl | hn
    · omega
    · have hodd := h.marks.comp_odd hn.ne'
      obtain ⟨v, hv⟩ := h.used (4 * n - 1 - 2 * c) (by omega) (by omega) (by omega)
      exact ⟨v, h.marks.node_lt v (by omega), by omega⟩

/-- **Components are numbered against the edges**: the finder returns, every node gets one of the
components it counted, and an edge leads into the same or an earlier component. -/
theorem computeForGenericGraph_le (hE : ∀ u < n, ∀ w ∈ edges u, w < n) :
    ∃ numSCCs sccInfo, computeForGenericGraph n edges = some (numSCCs, sccInfo) ∧
      (∀ v < n, sccInfo v < numSCCs) ∧ ∀ u < n, ∀ w ∈ edges u, sccInfo w ≤ sccInfo u := by
  obtain ⟨t, hall, hfin, -, hseen⟩ := searchAll_finished hE
    (fun v (hv : v ∈ List.range n) => List.mem_range.mp hv) initialFinder_finished
  have hass (v : ℕ) (hv : v < n) : 2 * n < t.rindexComposite v :=
    hfin.lt_mark (hseen v (List.mem_range.mpr hv))
  refine ⟨_, _, by rw [computeForGenericGraph, hall]; rfl, fun v hv => ?_, fun u hu w hw => ?_⟩
  · have := hfin.marks.assigned v (hass v hv)
    have := hfin.marks.comp_odd (by omega)
    omega
  · have := hfin.closed u (hass u hu) w hw
    omega

end Scc

end Dsom
