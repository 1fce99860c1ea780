import WeaveGraph.Cli.Migration
import WeaveGraph.Core.Scc
import WeaveGraph.Lib.Toposort

/-!
# The order of a migration

Between two rounds of `kahn` the indegree of a node counts the edges from nodes that are not in the
order yet, and while a round hands out the dependents of a node also those that are still to come
(`Counted`).  So the order holds the nodes whose sources it holds, each after its sources, and all
of them exactly when there is no cycle.
-/

namespace WeaveGraph.Migration

open List Lib

/-! ## The counts -/

section counts

variable {n v next : Nat} {edges : List (Nat × Nat)} {order rest : List Nat} {st : KahnState}

/-- The edges into `v` from nodes that are not in the order. -/
def openEdges (edges : List (Nat × Nat)) (order : List Nat) (v : Nat) : Nat :=
  edges.countP fun e => e.1 ∉ order ∧ e.2 = v

/-- The state of `kahn` while the dependents in `rest` are still to be handed out. -/
structure Counted (n : Nat) (edges : List (Nat × Nat)) (rest : List Nat) (st : KahnState) :
    Prop where
  length : st.indegree.length = n
  count : ∀ v < n, st.indegree.getD v 0 = openEdges edges st.order v + rest.count v
  nodup : (st.order ++ st.ready).Nodup
  mem : ∀ v, v ∈ st.order ++ st.ready ↔ v < n ∧ st.indegree.getD v 0 = 0
  sourced : Lib.Sourced (fun u v => (u, v) ∈ edges) st.order

theorem getD_modify {l : List Nat} {i : Nat} {f : Nat → Nat} (hv : v < l.length) :
    (l.modify i f).getD v 0 = if i = v then f (l.getD v 0) else l.getD v 0 := by
  rw [getD_eq_getElem?_getD, getElem?_modify, getD_eq_getElem?_getD, getElem?_eq_getElem hv]
  by_cases hiv : i = v
  · simp [hiv]
  · simp [hiv]

theorem indegrees_foldl : ∀ {edges : List (Nat × Nat)} {l : List Nat},
    (edges.foldl (fun indegree edge => indegree.modify edge.2 (· + 1)) l).length = l.length ∧
      ∀ v < l.length,
        (edges.foldl (fun indegree edge => indegree.modify edge.2 (· + 1)) l).getD v 0 =
          l.getD v 0 + openEdges edges [] v := by
  intro edges
  induction edges with
  | nil => exact ⟨rfl, fun v _ => rfl⟩
  | cons e edges ih =>
    intro l
    obtain ⟨hlen, hget⟩ := @ih (l.modify e.2 (· + 1))
    rw [length_modify] at hlen hget
    refine ⟨hlen, fun v hv => ?_⟩
    rw [foldl_cons, hget v hv, getD_modify hv, openEdges, openEdges, countP_cons]
    by_cases hev : e.2 = v
    · simp [hev]
      omega
    · simp [hev]

theorem openEdges_take (hnext : next ∉ order) : openEdges edges order v =
    openEdges edges (order ++ [next]) v + (dependents edges next).count v := by
  unfold openEdges dependents
  induction edges with
  | nil => rfl
  | cons e edges ih =>
    have hbucket : bucket next (e :: edges) =
        if e.1 = next then e.2 :: bucket next edges else bucket next edges := by
      unfold bucket
      rw [filter_cons]
      by_cases he : e.1 = next
      · simp [he]
      · simp [he]
    rw [countP_cons, countP_cons, ih, hbucket]
    by_cases he : e.1 = next
    · rw [if_pos he, count_cons]
      by_cases hev : e.2 = v
      · simp [he, hev, hnext]
        omega
      · simp [hev]
    · have hiff : e.1 ∉ order ++ [next] ↔ e.1 ∉ order := by simp [he]
      simp only [hiff, if_neg he]
      omega

theorem openEdges_eq_zero : openEdges edges order v = 0 ↔ ∀ u, (u, v) ∈ edges → u ∈ order := by
  rw [openEdges, countP_eq_zero]
  constructor
  · intro h u hu
    have := h (u, v) hu
    simpa using this
  · rintro h ⟨u, w⟩ he
    simp only [decide_eq_true_eq, not_and]
    rintro hu rfl
    exact hu (h u he)

end counts

/-! ## The rounds -/

section rounds

variable {n next dep : Nat} {edges : List (Nat × Nat)} {rest ready : List Nat} {st : KahnState}

theorem counted_start : Counted n edges [] (kahnStart n edges) := by
  obtain ⟨hlen, hget⟩ := @indegrees_foldl edges (List.replicate n 0)
  rw [length_replicate] at hlen hget
  refine ⟨hlen, fun v hv => ?_, ?_, fun v => ?_, sourced_nil⟩
  · refine (hget v hv).trans ?_
    simp [kahnStart, getD_eq_getElem?_getD, hv]
  · rw [kahnStart, nil_append]
    exact nodup_reverse.mpr (nodup_range.filter _)
  · simp [kahnStart]

theorem Counted.take (h : Counted n edges [] st) (hready : st.ready = next :: ready) :
    Counted n edges (dependents edges next) ⟨st.indegree, ready, st.order ++ [next]⟩ := by
  have hnodup := h.nodup
  have hmem := h.mem
  rw [hready] at hnodup hmem
  have hnext : next ∉ st.order := fun hin =>
    (nodup_append.mp hnodup).2.2 next hin next mem_cons_self rfl
  obtain ⟨hlt, hzero⟩ := (hmem next).mp (mem_append_right _ mem_cons_self)
  refine ⟨h.length, fun v hv => ?_, ?_, fun v => ?_, h.sourced.snoc fun u hu => ?_⟩
  · rw [h.count v hv, openEdges_take hnext, count_nil, Nat.add_zero]
  · rw [append_assoc]
    exact hnodup
  · rw [append_assoc]
    exact hmem v
  · have hcount := h.count next hlt
    rw [hzero, count_nil, Nat.add_zero] at hcount
    exact openEdges_eq_zero.mp hcount.symm u hu

theorem Counted.release (h : Counted n edges (dep :: rest) st) (hdep : dep < n) :
    Counted n edges rest (releaseDependent st dep) := by
  have hlen := h.length
  have hdeplen : dep < st.indegree.length := by omega
  have hget : ∀ v < n, (st.indegree.modify dep (· - 1)).getD v 0 =
      openEdges edges st.order v + rest.count v := by
    intro v hv
    rw [getD_modify (by omega), h.count v hv, count_cons]
    by_cases hv : dep = v
    · simp [hv]
    · simp [hv]
  have hpos : 0 < st.indegree.getD dep 0 := by
    rw [h.count dep hdep, count_cons_self]
    omega
  have hnew : dep ∉ st.order ++ st.ready := by
    intro hmem
    have := ((h.mem dep).mp hmem).2
    omega
  have hother : ∀ v ≠ dep, v < n →
      (st.indegree.modify dep (· - 1)).getD v 0 = st.indegree.getD v 0 := by
    intro v hv hlt
    rw [getD_modify (by omega), if_neg (Ne.symm hv)]
  unfold releaseDependent
  dsimp only
  by_cases hzero : (st.indegree.modify dep (· - 1)).getD dep 0 = 0
  · rw [if_pos hzero]
    refine ⟨(length_modify ..).trans hlen, hget, ?_, fun v => ?_, h.sourced⟩
    · exact (perm_middle.nodup_iff).mpr (nodup_cons.mpr ⟨hnew, h.nodup⟩)
    · rw [perm_middle.mem_iff, mem_cons, h.mem]
      by_cases hv : v = dep
      · rw [hv, hzero]
        simp [hdep]
      · constructor
        · rintro (hv' | ⟨hlt, hv0⟩)
          · exact absurd hv' hv
          · exact ⟨hlt, (hother v hv hlt).trans hv0⟩
        · rintro ⟨hlt, hv0⟩
          exact Or.inr ⟨hlt, (hother v hv hlt).symm.trans hv0⟩
  · rw [if_neg hzero]
    refine ⟨(length_modify ..).trans hlen, hget, h.nodup, fun v => ?_, h.sourced⟩
    rw [h.mem]
    by_cases hv : v = dep
    · rw [hv]
      constructor
      · rintro ⟨-, h0⟩
        omega
      · rintro ⟨-, h0⟩
        exact absurd h0 hzero
    · exact and_congr_right fun hlt => by rw [hother v hv hlt]

theorem Counted.foldl_release : ∀ {rest : List Nat} {st : KahnState}, Counted n edges rest st →
    (∀ dep ∈ rest, dep < n) → Counted n edges [] (rest.foldl releaseDependent st) ∧
      (rest.foldl releaseDependent st).order = st.order := by
  intro rest
  induction rest with
  | nil => exact fun h _ => ⟨h, rfl⟩
  | cons dep rest ih =>
    intro st h hlt
    have hrelease := h.release (hlt dep mem_cons_self)
    obtain ⟨hcounted, horder⟩ := ih hrelease fun x hx => hlt x (mem_cons_of_mem _ hx)
    refine ⟨hcounted, horder.trans ?_⟩
    unfold releaseDependent
    dsimp only
    split
    · rfl
    · rfl

theorem Counted.length_le (h : Counted n edges rest st) : (st.order ++ st.ready).length ≤ n := by
  have hsub : st.order ++ st.ready ⊆ List.range n := fun v hv =>
    mem_range.mpr ((h.mem v).mp hv).1
  have := (subperm_of_subset h.nodup hsub).length_le
  rwa [length_range] at this

/-- **The loop of `kahn`** ends with no node ready. -/
theorem kahnLoop_counted (hedges : ∀ e ∈ edges, e.1 < n ∧ e.2 < n) :
    ∀ {fuel : Nat} {st : KahnState}, Counted n edges [] st → n ≤ fuel + st.order.length →
    Counted n edges [] (kahnLoop edges fuel st) ∧ (kahnLoop edges fuel st).ready = [] := by
  intro fuel
  induction fuel with
  | zero =>
    intro st h hfuel
    have hle := h.length_le
    rw [length_append] at hle
    have hready : st.ready.length = 0 := by omega
    exact ⟨h, length_eq_zero_iff.mp hready⟩
  | succ fuel ih =>
    intro st h hfuel
    unfold kahnLoop
    cases hready : st.ready with
    | nil => exact ⟨h, hready⟩
    | cons next ready =>
      obtain ⟨hcounted, horder⟩ := (h.take hready).foldl_release fun dep hdep =>
        (hedges (next, dep) (mem_bucket.mp hdep)).2
      refine ih hcounted ?_
      rw [horder, length_append, length_singleton]
      omega

end rounds

/-! ## The order -/

section order

variable {n : Nat} {edges : List (Nat × Nat)} {order : List Nat}

def Acyclic (edges : List (Nat × Nat)) : Prop :=
  ∀ v, ¬ Relation.TransGen (fun a b => (a, b) ∈ edges) v v

/-- All nodes, with the source of every edge before its target. -/
structure Topological (n : Nat) (edges : List (Nat × Nat)) (order : List Nat) : Prop where
  perm : order.Perm (List.range n)
  before : ∀ e ∈ edges, [e.1, e.2].Sublist order

section

variable (hedges : ∀ e ∈ edges, e.1 < n ∧ e.2 < n)

include hedges

theorem exists_order : ∃ order : List Nat,
    kahn n edges = (if order.length = n then some order else none) ∧ order.Nodup ∧
      (∀ v, v ∈ order ↔ v < n ∧ ∀ u, (u, v) ∈ edges → u ∈ order) ∧
      Lib.Sourced (fun u v => (u, v) ∈ edges) order := by
  obtain ⟨h, hready⟩ := kahnLoop_counted hedges counted_start (Nat.le_add_right _ _)
  have hnodup := h.nodup
  have hmem := h.mem
  rw [hready, append_nil] at hnodup hmem
  refine ⟨_, rfl, hnodup, fun v => ?_, h.sourced⟩
  rw [hmem]
  refine and_congr_right fun hv => ?_
  rw [h.count v hv, count_nil, Nat.add_zero, openEdges_eq_zero]

theorem kahn_topological (h : kahn n edges = some order) :
    Topological n edges order ∧ Acyclic edges := by
  obtain ⟨order', hkahn, hnodup, hmem, hsourced⟩ := exists_order hedges
  rw [hkahn] at h
  split at h
  · rename_i hlen
    cases h
    have hsub : order ⊆ List.range n := fun v hv => mem_range.mpr ((hmem v).mp hv).1
    have hperm : order.Perm (List.range n) := by
      refine (subperm_of_subset hnodup hsub).perm_of_length_le ?_
      rw [length_range, hlen]
    have hall : ∀ v < n, v ∈ order := fun v hv => hperm.mem_iff.mpr (mem_range.mpr hv)
    refine ⟨⟨hperm, fun e he => ?_⟩, fun v hv => ?_⟩
    · exact hsourced.sublist (hall e.2 (hedges e he).2) he
    · obtain ⟨u, -, huv⟩ := Relation.TransGen.tail'_iff.mp hv
      exact hsourced.acyclic hnodup (hall v (hedges _ huv).2) hv
  · cases h

theorem kahn_of_acyclic (h : Acyclic edges) : ∃ order, kahn n edges = some order := by
  obtain ⟨order, hkahn, hnodup, hmem, -⟩ := exists_order hedges
  have hsource : ∀ v, v < n ∧ v ∉ order → ∃ u, (u < n ∧ u ∉ order) ∧ (u, v) ∈ edges := by
    rintro v ⟨hv, hnot⟩
    by_contra hno
    refine hnot ((hmem v).mpr ⟨hv, fun u hu => ?_⟩)
    by_contra huorder
    exact hno ⟨u, ⟨(hedges _ hu).1, huorder⟩, hu⟩
  have hall : ∀ v < n, v ∈ order := by
    intro v hv
    by_contra hnot
    have hrange : ∀ v, v < n ∧ v ∉ order → v ∈ List.range n := fun v hv => mem_range.mpr hv.1
    obtain ⟨w, hw⟩ := Lib.exists_cycle hrange hsource ⟨hv, hnot⟩
    exact h w hw
  have hle : n ≤ order.length := by
    have hsub : List.range n ⊆ order := fun v hv => hall v (mem_range.mp hv)
    have := (subperm_of_subset nodup_range hsub).length_le
    rwa [length_range] at this
  have hge : order.length ≤ n := by
    have hsub : order ⊆ List.range n := fun v hv => mem_range.mpr ((hmem v).mp hv).1
    have := (subperm_of_subset hnodup hsub).length_le
    rwa [length_range] at this
  exact ⟨order, by rw [hkahn, if_pos (Nat.le_antisymm hge hle)]⟩

theorem kahn_isSome_iff : (∃ order, kahn n edges = some order) ↔ Acyclic edges :=
  ⟨fun ⟨_, h⟩ => (kahn_topological hedges h).2, kahn_of_acyclic hedges⟩

theorem kahn_eq_none_iff (hloop : ∀ e ∈ edges, e.1 ≠ e.2) :
    kahn n edges = none ↔ ∃ c ∈ tarjanScc (List.range n) edges, 1 < c.length := by
  have hnodes : ∀ e ∈ edges, e.1 ∈ List.range n ∧ e.2 ∈ List.range n := by
    simpa only [mem_range] using hedges
  have hsome := kahn_isSome_iff hedges
  rw [exists_component_iff nodup_range hnodes hloop]
  constructor
  · intro hnone
    by_contra hno
    obtain ⟨order, horder⟩ := hsome.mpr fun v hv => hno ⟨v, hv⟩
    rw [hnone] at horder
    cases horder
  · rintro ⟨v, hv⟩
    cases hkahn : kahn n edges with
    | none => rfl
    | some order => exact absurd hv (hsome.mp ⟨order, hkahn⟩ v)

end

end order

/-! ## The survey -/

section survey

variable {langExtended : Bool} {repos : List RepoGraph} {refs : List CrossRef}
  {labels : List String} {provider symbol : String}

theorem caller_ne_target (hlabels : (repos.map RepoGraph.label).Nodup) {ref : CrossRef}
    (h : ref ∈ crossReferences langExtended repos) : ref.caller ≠ ref.target := by
  simp only [crossReferences, mem_flatMap] at h
  obtain ⟨⟨caller, i⟩, hi, ⟨target, j⟩, hj, h⟩ := h
  rw [mem_zipIdx_iff_getElem?] at hi hj
  by_cases hij : i = j
  · simp [hij] at h
  · rw [if_neg hij, pairReferences] at h
    simp only [mem_flatMap, mem_map] at h
    obtain ⟨file, -, edge, -, rfl⟩ := h
    intro hlabel
    have hget : ∀ {k : Nat} {g : RepoGraph}, repos[k]? = some g →
        (repos.map RepoGraph.label)[k]? = some g.label := by
      intro k g hk
      rw [getElem?_map, hk]
      rfl
    have hlt : i < (repos.map RepoGraph.label).length := by
      rw [length_map]
      exact (List.getElem?_eq_some_iff.mp hi).1
    refine hij ((getElem?_inj hlt hlabels).mp ?_)
    rw [hget hi, hget hj]
    exact congrArg some hlabel

theorem mem_orderingEdges {e : Nat × Nat} : e ∈ orderingEdges labels refs ↔
    ∃ r ∈ refs, r.caller ∈ labels ∧ r.target ∈ labels ∧
      e = (labels.idxOf r.caller, labels.idxOf r.target) := by
  simp only [orderingEdges, mem_map, mem_filter, decide_eq_true_eq]
  constructor
  · rintro ⟨r, ⟨hr, hcaller, htarget⟩, rfl⟩
    exact ⟨r, hr, hcaller, htarget, rfl⟩
  · rintro ⟨r, hr, hcaller, htarget, rfl⟩
    exact ⟨r, ⟨hr, hcaller, htarget⟩, rfl⟩

theorem orderingEdges_lt : ∀ e ∈ orderingEdges labels refs,
    e.1 < labels.length ∧ e.2 < labels.length := by
  intro e he
  obtain ⟨r, -, hcaller, htarget, rfl⟩ := mem_orderingEdges.mp he
  exact ⟨idxOf_lt_length_of_mem hcaller, idxOf_lt_length_of_mem htarget⟩

theorem orderingEdges_ne (hrefs : ∀ r ∈ refs, r.caller ≠ r.target) :
    ∀ e ∈ orderingEdges labels refs, e.1 ≠ e.2 := by
  intro e he
  obtain ⟨r, hr, hcaller, -, rfl⟩ := mem_orderingEdges.mp he
  exact fun hidx => hrefs r hr ((idxOf_inj hcaller).mp hidx)

theorem mem_affectedRepos {a : AffectedRepo}
    (h : a ∈ affectedRepos (callerRefs refs provider symbol)) :
    ∃ r ∈ refs, r.caller = a.label ∧ r.target = provider := by
  obtain ⟨label, hlabel, rfl⟩ := mem_map.mp h
  rw [Text.mem_sortedSet] at hlabel
  obtain ⟨r, hr, rfl⟩ := mem_map.mp hlabel
  simp only [callerRefs, mem_filter, decide_eq_true_eq] at hr
  exact ⟨r, hr.1, rfl, hr.2.1⟩

theorem map_getD_range (l : List String) :
    ((List.range l.length).map fun i => l.getD i "") = l := by
  refine ext_getElem (by simp) fun i h₁ h₂ => ?_
  simp [getD_eq_getElem?_getD, getElem?_eq_getElem h₂]

theorem getD_idxOf {label : String} (h : label ∈ labels) :
    labels.getD (labels.idxOf label) "" = label := by
  rw [getD_eq_getElem?_getD, getElem?_eq_getElem (idxOf_lt_length_of_mem h), getElem_idxOf]
  rfl

theorem labels_ordered {seq : List Nat}
    (h : kahn labels.length (orderingEdges labels refs) = some seq) :
    (seq.map fun i => labels.getD i "").Perm labels ∧ ∀ r ∈ refs, r.caller ∈ labels →
      r.target ∈ labels → [r.caller, r.target].Sublist (seq.map fun i => labels.getD i "") := by
  obtain ⟨⟨hperm, hbefore⟩, -⟩ := kahn_topological orderingEdges_lt h
  constructor
  · have hmap := hperm.map fun i => labels.getD i ""
    rwa [map_getD_range] at hmap
  · intro r hr hcaller htarget
    have hsub := (hbefore _ (mem_orderingEdges.mpr ⟨r, hr, hcaller, htarget, rfl⟩)).map
      fun i => labels.getD i ""
    simpa only [map_cons, map_nil, getD_idxOf hcaller, getD_idxOf htarget] using hsub

/-- An order of the survey has every affected repository before the provider, and there is none
exactly when `cycle_message` has a cycle to name. -/
structure Ordered (s : Survey) : Prop where
  none_iff : s.order = none ↔
    ∃ c ∈ tarjanScc (List.range s.nodeLabels.length) s.orderingEdges, 1 < c.length
  perm : ∀ order, s.order = some order → order.Perm s.nodeLabels
  before : ∀ order, s.order = some order → ∀ a ∈ s.affected, [a.label, s.provider].Sublist order

theorem ordered_surveyOf (hrefs : ∀ r ∈ refs, r.caller ≠ r.target) :
    Ordered (surveyOf refs provider (affectedRepos (callerRefs refs provider symbol))) := by
  have hmem : ∀ a ∈ affectedRepos (callerRefs refs provider symbol), ∀ label,
      label = a.label ∨ label = provider →
        label ∈ Text.sortedSet ((affectedRepos (callerRefs refs provider symbol)).map
          AffectedRepo.label ++ [provider]) := by
    rintro a ha label (rfl | rfl)
    · exact Text.mem_sortedSet.mpr (mem_append_left _ (mem_map_of_mem ha))
    · exact Text.mem_sortedSet.mpr (mem_append_right _ (mem_singleton.mpr rfl))
  -- from here on it does not matter where the labels come from
  unfold surveyOf
  generalize Text.sortedSet ((affectedRepos (callerRefs refs provider symbol)).map
    AffectedRepo.label ++ [provider]) = labels at hmem ⊢
  refine ⟨?_, fun order horder => ?_, fun order horder a ha => ?_⟩
  · exact Option.map_eq_none_iff.trans (kahn_eq_none_iff orderingEdges_lt (orderingEdges_ne hrefs))
  · obtain ⟨seq, hseq, rfl⟩ := Option.map_eq_some_iff.mp horder
    exact (labels_ordered hseq).1
  · obtain ⟨seq, hseq, rfl⟩ := Option.map_eq_some_iff.mp horder
    obtain ⟨r, hr, hcaller, htarget⟩ := mem_affectedRepos ha
    have hbefore := (labels_ordered hseq).2 r hr (hmem a ha _ (Or.inl hcaller))
      (hmem a ha _ (Or.inr htarget))
    rwa [hcaller, htarget] at hbefore

theorem ordered_survey (hlabels : (repos.map RepoGraph.label).Nodup) {s : Survey}
    (h : survey langExtended repos symbol = .ok s) : Ordered s := by
  unfold survey at h
  split at h
  · cases h
  · dsimp only at h
    split at h
    · cases h
    · cases h
      exact ordered_surveyOf fun r hr => caller_ne_target hlabels hr

/-- The command either refuses what it is given or decides on an ordered survey. -/
theorem planMigration_cases :
    planMigration langExtended repos symbol = .error .sameLabel ∨
      (∃ e, planMigration langExtended repos symbol = .error (.survey e)) ∨
      ∃ s, survey langExtended repos symbol = .ok s ∧ Ordered s ∧
        planMigration langExtended repos symbol = match s.order with
        | none => .error (.cycle (cycleMessage s))
        | some order => .ok (s, order) := by
  unfold planMigration
  by_cases hlabels : (Text.sortedSet (repos.map RepoGraph.label)).length = repos.length
  · rw [if_neg (not_not.mpr hlabels)]
    rw [← length_map (f := RepoGraph.label)] at hlabels
    cases hsurvey : survey langExtended repos symbol with
    | error e => exact Or.inr (Or.inl ⟨e, rfl⟩)
    | ok s =>
      have hs := ordered_survey (Text.nodup_of_sortedSet_length hlabels) hsurvey
      exact Or.inr (Or.inr ⟨s, rfl, hs, rfl⟩)
  · rw [if_pos hlabels]
    exact Or.inl rfl

/-- **What `plan-migration` decides**: a plan orders the repositories of the survey with every
affected one before the provider, and a refusal because of a cycle has a cycle to name. -/
theorem planMigration_decides (langExtended : Bool) (repos : List RepoGraph) (symbol : String) :
    (∀ s order, planMigration langExtended repos symbol = .ok (s, order) →
      survey langExtended repos symbol = .ok s ∧ s.order = some order ∧ Ordered s) ∧
    ∀ message, planMigration langExtended repos symbol = .error (.cycle message) →
      ∃ s, survey langExtended repos symbol = .ok s ∧ message = cycleMessage s ∧
        ∃ c ∈ tarjanScc (List.range s.nodeLabels.length) s.orderingEdges, 1 < c.length := by
  rcases @planMigration_cases langExtended repos symbol with hp | ⟨e, hp⟩ | ⟨s, hsurvey, hs, hp⟩
  · rw [hp]
    exact ⟨nofun, nofun⟩
  · rw [hp]
    exact ⟨nofun, nofun⟩
  · rw [hp]
    cases horder : s.order with
    | none =>
      refine ⟨nofun, fun message h => ?_⟩
      cases h
      exact ⟨s, hsurvey, rfl, hs.none_iff.mp horder⟩
    | some order =>
      refine ⟨fun _ _ h => ?_, nofun⟩
      cases h
      exact ⟨hsurvey, horder, hs⟩

end survey

/-- **`kahn` orders the repositories exactly when it can**, sources first; it fails exactly when
`tarjan_scc` finds a component of several repositories, and in a survey every affected repository
comes before the provider. -/
theorem kahn_orders :
    (∀ (n : Nat) (edges : List (Nat × Nat)), (∀ e ∈ edges, e.1 < n ∧ e.2 < n) →
      (∀ e ∈ edges, e.1 ≠ e.2) →
      ((∃ order, kahn n edges = some order) ↔ Acyclic edges) ∧
      (∀ order, kahn n edges = some order → Topological n edges order) ∧
      (kahn n edges = none ↔ ∃ c ∈ tarjanScc (List.range n) edges, 1 < c.length)) ∧
    ∀ (langExtended : Bool) (repos : List RepoGraph) (symbol : String) (s : Survey),
      (repos.map RepoGraph.label).Nodup → survey langExtended repos symbol = .ok s → Ordered s := by
  refine ⟨fun n edges hedges hloop => ⟨kahn_isSome_iff hedges, fun order h => ?_,
    kahn_eq_none_iff hedges hloop⟩, fun langExtended repos symbol s hlabels h => ?_⟩
  · exact (kahn_topological hedges h).1
  · exact ordered_survey hlabels h

def helperRepos : List RepoGraph :=
  [⟨"lib", [⟨1, "lib", "lib.rs", "helper", "function", 1, 1, "fn helper()"⟩],
      (ProjectIndex.new.addSymbol "lib.rs#helper" "helper").2, []⟩,
    ⟨"app", [⟨1, "app", "main.rs", "main", "function", 1, 1, "fn main()"⟩],
      (ProjectIndex.new.addSymbol "main.rs#main" "main").2,
      [("main.rs", ⟨[], [⟨"main.rs#main", "helper", false⟩], []⟩)]⟩]

def helperSurvey : Survey where
  provider := "lib"
  affected := [⟨"app", ["main.rs"]⟩]
  order := some ["app", "lib"]
  nodeLabels := ["app", "lib"]
  orderingEdges := [(0, 1)]

theorem kahn_orders_helper : kahn 2 [(0, 1), (0, 1)] = some [0, 1] ∧
    Topological 2 [(0, 1), (0, 1)] [0, 1] ∧
    survey false helperRepos "helper" = .ok helperSurvey ∧ Ordered helperSurvey := by
  have hkahn : kahn 2 [(0, 1), (0, 1)] = some [0, 1] := by decide
  have hsurvey : survey false helperRepos "helper" = .ok helperSurvey := by decide +kernel
  refine ⟨hkahn, ?_, hsurvey, ?_⟩
  · exact (kahn_orders.1 2 [(0, 1), (0, 1)] (by decide) (by decide)).2.1 [0, 1] hkahn
  · exact kahn_orders.2 false helperRepos "helper" helperSurvey (by decide) hsurvey

end WeaveGraph.Migration
