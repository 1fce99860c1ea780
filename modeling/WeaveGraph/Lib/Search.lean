import WeaveGraph.Lib.Dict
import WeaveGraph.Lib.Runs
import WeaveGraph.Lib.Walks

/-!
# Breadth-first search for a path

`bfs` looks for a path from `source` to `target` over a neighbor function.  Its state is the list of
the vertices found so far, each with the vertex it was found from.  The queue is cut into the
vertices at distance `k` and those at distance `k + 1` (`Frontier`); a vertex found from one of the
first is at distance `k + 1`, since all that are nearer are found already.  So the chain of parents
is as short as possible (`bfs_spec`).
-/

namespace Lib

open List

variable {α : Type}

/-- The vertex is the source, or was found. -/
def Seen (source : α) (parents : List (α × α)) (v : α) : Prop :=
  v = source ∨ v ∈ parents.map Prod.fst

instance [DecidableEq α] (source : α) (parents : List (α × α)) (v : α) :
    Decidable (Seen source parents v) :=
  inferInstanceAs (Decidable (_ ∨ _))

/-! ## The search tree -/

section tree

variable {r : α → α → Prop} {source v p : α} {parents : List (α × α)} {n : Nat}

/-- Every vertex found is one step further from the source than the vertex it was found from. -/
structure Tree (r : α → α → Prop) (source : α) (parents : List (α × α)) : Prop where
  nodup : (parents.map Prod.fst).Nodup
  parent : ∀ {v p}, (v, p) ∈ parents → r p v ∧ Seen source parents p ∧
    ∃ n, Dist r source n p ∧ Dist r source (n + 1) v
  bound : ∀ {v n}, Seen source parents v → Dist r source n v → n ≤ parents.length

theorem tree_nil : Tree r source [] where
  nodup := nodup_nil
  parent := fun h => absurd h not_mem_nil
  bound := by
    rintro v n (rfl | h) hd
    · exact (hd.unique (dist_zero.mpr rfl)).le
    · cases h

theorem Seen.append {l : List (α × α)} (h : Seen source parents v) :
    Seen source (parents ++ l) v := by
  rcases h with h | h
  · exact Or.inl h
  · rw [Seen, map_append]
    exact Or.inr (mem_append_left _ h)

theorem seen_append_singleton {w : α} :
    Seen source (parents ++ [(w, p)]) v ↔ Seen source parents v ∨ v = w := by
  simp [Seen, or_assoc]

theorem Tree.add (ht : Tree r source parents) (hp : Seen source parents p)
    (hv : ¬ Seen source parents v) (hr : r p v) (hdp : Dist r source n p)
    (hdv : Dist r source (n + 1) v) : Tree r source (parents ++ [(v, p)]) where
  nodup := by
    rw [map_append, map_singleton]
    refine nodup_append.mpr ⟨ht.nodup, nodup_singleton _, ?_⟩
    intro a ha b hb
    rw [mem_singleton.mp hb]
    rintro rfl
    exact hv (Or.inr ha)
  parent := by
    intro w q hw
    rcases mem_append.mp hw with hw | hw
    · obtain ⟨hr, hq, hd⟩ := ht.parent hw
      exact ⟨hr, hq.append, hd⟩
    · cases mem_singleton.mp hw
      exact ⟨hr, hp.append, n, hdp, hdv⟩
  bound := by
    intro w m hw hd
    rw [length_append, length_singleton]
    rcases seen_append_singleton.mp hw with hw | rfl
    · have := ht.bound hw hd
      omega
    · have := ht.bound hp hdp
      have := hd.unique hdv
      omega

end tree

/-! ## Frontiers -/

section frontier

variable {r : α → α → Prop} {source target c v : α} {k : Nat} {cur next : List α}
  {parents : List (α × α)}

/-- The queue is `cur ++ next`: vertices at distance `k`, then vertices at distance `k + 1`.  All
that are within `k` steps are seen, and so are the neighbors of those that left the queue. -/
structure Frontier (r : α → α → Prop) (source target : α) (k : Nat) (cur next : List α)
    (parents : List (α × α)) : Prop where
  tree : Tree r source parents
  within_seen : ∀ v, Within r k source v → Seen source parents v
  seen_within : ∀ v, Seen source parents v → Within r (k + 1) source v
  cur_dist : ∀ v ∈ cur, Dist r source k v
  next_dist : ∀ v ∈ next, Seen source parents v ∧ Dist r source (k + 1) v
  closed : ∀ u, Seen source parents u → u ∉ cur → u ∉ next → ∀ v, r u v → Seen source parents v
  target_unseen : ¬ Seen source parents target

theorem frontier_start (hne : target ≠ source) :
    Frontier r source target 0 [source] [] [] where
  tree := tree_nil
  within_seen v hv := Or.inl (within_zero.mp hv).symm
  seen_within := by
    rintro v (rfl | hv)
    · exact ⟨0, by omega, .nil v⟩
    · cases hv
  cur_dist v hv := dist_zero.mpr (mem_singleton.mp hv).symm
  next_dist := fun v hv => absurd hv not_mem_nil
  closed := by
    rintro u (rfl | hu) hnot
    · simp at hnot
    · cases hu
  target_unseen := by
    rintro (h | h)
    · exact hne h
    · cases h

section

variable (h : Frontier r source target k cur next parents)

include h

theorem Frontier.cur_seen (hv : v ∈ cur) : Seen source parents v :=
  h.within_seen v ⟨k, le_rfl, (h.cur_dist v hv).1⟩

theorem Frontier.dist_new (hc : c ∈ cur) (hr : r c v) (hv : ¬ Seen source parents v) :
    Dist r source (k + 1) v := by
  refine dist_succ_iff.mpr ⟨?_, fun hw => hv (h.within_seen v hw)⟩
  exact within_succ.mpr (Or.inr ⟨c, ⟨k, le_rfl, (h.cur_dist c hc).1⟩, hr⟩)

theorem Frontier.add (hc : c ∈ cur) (hr : r c v) (hv : ¬ Seen source parents v) (hne : v ≠ target) :
    Frontier r source target k cur (next ++ [v]) (parents ++ [(v, c)]) where
  tree := h.tree.add (h.cur_seen hc) hv hr (h.cur_dist c hc) (h.dist_new hc hr hv)
  within_seen w hw := (h.within_seen w hw).append
  seen_within w hw := by
    rcases seen_append_singleton.mp hw with hw | rfl
    · exact h.seen_within w hw
    · exact (dist_succ_iff.mp (h.dist_new hc hr hv)).1
  cur_dist := h.cur_dist
  next_dist w hw := by
    rcases mem_append.mp hw with hw | hw
    · exact ⟨(h.next_dist w hw).1.append, (h.next_dist w hw).2⟩
    · rw [mem_singleton.mp hw]
      exact ⟨seen_append_singleton.mpr (Or.inr rfl), h.dist_new hc hr hv⟩
  closed u hu hcur hnext w hw := by
    rw [mem_append, not_or] at hnext
    rcases seen_append_singleton.mp hu with hu | rfl
    · exact (h.closed u hu hcur hnext.1 w hw).append
    · exact absurd (mem_singleton.mpr rfl) hnext.2
  target_unseen ht := by
    rcases seen_append_singleton.mp ht with ht | ht
    · exact h.target_unseen ht
    · exact hne ht.symm

end

theorem Frontier.pop (h : Frontier r source target k (c :: cur) next parents)
    (hc : ∀ v, r c v → Seen source parents v) : Frontier r source target k cur next parents where
  tree := h.tree
  within_seen := h.within_seen
  seen_within := h.seen_within
  cur_dist := fun v hv => h.cur_dist v (mem_cons_of_mem _ hv)
  next_dist := h.next_dist
  closed u hu hcur hnext v hv := by
    by_cases he : u = c
    · exact hc v (he ▸ hv)
    · refine h.closed u hu (fun hmem => ?_) hnext v hv
      rcases mem_cons.mp hmem with hmem | hmem
      · exact he hmem
      · exact hcur hmem
  target_unseen := h.target_unseen

theorem Frontier.shift (h : Frontier r source target k [] next parents) :
    Frontier r source target (k + 1) next [] parents where
  tree := h.tree
  within_seen v hv := by
    rcases within_succ.mp hv with hv | ⟨u, hu, hr⟩
    · exact h.within_seen v hv
    · refine h.closed u (h.within_seen u hu) not_mem_nil (fun hnext => ?_) v hr
      exact (dist_succ_iff.mp (h.next_dist u hnext).2).2 hu
  seen_within v hv := (h.seen_within v hv).mono (by omega)
  cur_dist v hv := (h.next_dist v hv).2
  next_dist := fun v hv => absurd hv not_mem_nil
  closed u hu hcur _ v hv := h.closed u hu not_mem_nil hcur v hv
  target_unseen := h.target_unseen

theorem Frontier.not_reachable (h : Frontier r source target k [] [] parents) :
    ¬ Relation.ReflTransGen r source target := by
  have hseen : ∀ v, Relation.ReflTransGen r source v → Seen source parents v := by
    intro v hv
    induction hv with
    | refl => exact Or.inl rfl
    | tail _ hstep ih => exact h.closed _ ih not_mem_nil not_mem_nil _ hstep
  exact fun hreach => h.target_unseen (hseen target hreach)

/-- What a search finds: a shortest path, or nothing when there is none. -/
def Answer (r : α → α → Prop) (source target : α) : Option (List α) → Prop
  | none => ¬ Relation.ReflTransGen r source target
  | some path => IsPath r source target path ∧
      ∀ path', IsPath r source target path' → path.length ≤ path'.length

theorem Answer.eq_none_iff {answer : Option (List α)} (h : Answer r source target answer) :
    answer = none ↔ ¬ Relation.ReflTransGen r source target := by
  cases answer with
  | none => exact ⟨fun _ => h, fun _ => rfl⟩
  | some path =>
    obtain ⟨n, -, hw⟩ := h.1.walk
    exact ⟨fun hn => absurd hn (Option.some_ne_none path),
      fun hno => absurd (exists_walk_iff.mp ⟨n, hw⟩) hno⟩

theorem Answer.exists_short_iff {answer : Option (List α)} (h : Answer r source target answer)
    (n : Nat) :
    (∃ path, answer = some path ∧ path.length ≤ n + 1) ↔ Within r n source target := by
  constructor
  · rintro ⟨path, rfl, hlen⟩
    obtain ⟨m, hm, hw⟩ := h.1.walk
    exact ⟨m, by omega, hw⟩
  · rintro ⟨m, hm, hw⟩
    cases answer with
    | none => exact absurd (exists_walk_iff.mp ⟨m, hw⟩) h
    | some path =>
      obtain ⟨k, hk, -⟩ := h.1.walk
      have hle := ((h.1.dist_iff hk).mpr h.2).2 m hw
      exact ⟨path, rfl, by omega⟩

/-- Two searches of one graph agree up to the choice among shortest paths. -/
theorem Answer.agree {answer answer' : Option (List α)} (h : Answer r source target answer)
    (h' : Answer r source target answer') : (answer = none ∧ answer' = none) ∨
      ∃ p q, answer = some p ∧ answer' = some q ∧ p.length = q.length ∧
        IsPath r source target p ∧ IsPath r source target q := by
  have hnone : answer = none ↔ answer' = none := h.eq_none_iff.trans h'.eq_none_iff.symm
  cases answer with
  | none => exact Or.inl ⟨rfl, hnone.mp rfl⟩
  | some p =>
    cases answer' with
    | none => cases hnone.mpr rfl
    | some q =>
      exact Or.inr ⟨p, q, rfl, rfl, le_antisymm (h.2 q h'.1) (h'.2 p h.1), h.1, h'.1⟩

end frontier

/-! ## The search -/

section bfs

variable [DecidableEq α]

/-- The vertices from `cur` back to `source`. -/
def chain (parents : List (α × α)) (source : α) : Nat → α → List α
  | 0, _ => []
  | fuel + 1, cur =>
    if cur = source then [source]
    else cur :: chain parents source fuel ((lookupLast cur parents).getD source)

/-- Looks at neighbors of `current`: the parents once the target is found, else the neighbors that
are new, and the parents with them. -/
def expand (source target current : α) :
    List α → List (α × α) → List (α × α) ⊕ (List α × List (α × α))
  | [], parents => .inr ([], parents)
  | v :: rest, parents =>
    if Seen source parents v then expand source target current rest parents
    else if v = target then .inl (parents ++ [(v, current)])
    else
      match expand source target current rest (parents ++ [(v, current)]) with
      | .inl found => .inl found
      | .inr (next, parents) => .inr (v :: next, parents)

/-- The path to the target, found from `current`. -/
def pathVia (source target current : α) (parents : List (α × α)) : Option (List α) :=
  some (target :: chain parents source parents.length current).reverse

def bfsStep (nbrs : α → List α) (source target : α) (parents : List (α × α)) (current : α) :
    Option (List α) ⊕ (List α × List (α × α)) :=
  (expand source target current (nbrs current) parents).map (pathVia source target current) id

def bfs (nbrs : α → List α) (source target : α) (fuel : Nat) : Option (List α) :=
  worklist (bfsStep nbrs source target) (fun _ => none) fuel [source] []

theorem expand_congr {σ : Type} {source target current : α} {R : σ → List (α × α) → Prop}
    (seen : σ → α → Prop) [∀ s v, Decidable (seen s v)] (mark : σ → α → σ)
    (answer : σ → Option (List α)) {scan : List α → σ → Option (List α) ⊕ (List α × σ)}
    (hnil : ∀ s, scan [] s = .inr ([], s))
    (hcons : ∀ v rest s, scan (v :: rest) s =
      if seen s v then scan rest s
      else if v = target then .inl (answer (mark s v))
      else (scan rest (mark s v)).map id fun x => (v :: x.1, x.2))
    (hseen : ∀ s parents v, R s parents → (seen s v ↔ Seen source parents v))
    (hmark : ∀ s parents v, R s parents → R (mark s v) (parents ++ [(v, current)]))
    (hanswer : ∀ s parents, R s parents → answer s = pathVia source target current parents) :
    ∀ {nbrs : List α} {s : σ} {parents : List (α × α)}, R s parents →
      Sum.LiftRel Eq (fun x y => x.1 = y.1 ∧ R x.2 y.2) (scan nbrs s)
        ((expand source target current nbrs parents).map (pathVia source target current) id) := by
  intro nbrs
  induction nbrs with
  | nil =>
    intro s parents h
    rw [hnil]
    exact .inr ⟨rfl, h⟩
  | cons v rest ih =>
    intro s parents h
    rw [hcons]
    unfold expand
    by_cases hv : seen s v
    · rw [if_pos hv, if_pos ((hseen s parents v h).mp hv)]
      exact ih h
    · rw [if_neg hv, if_neg (mt (hseen s parents v h).mpr hv)]
      have hnext := hmark s parents v h
      by_cases ht : v = target
      · rw [if_pos ht, if_pos ht, hanswer _ _ hnext]
        exact .inl rfl
      · rw [if_neg ht, if_neg ht]
        have hih := ih hnext
        cases he : expand source target current rest (parents ++ [(v, current)]) with
        | inl found =>
          cases hs : scan rest (mark s v) with
          | inl path =>
            rw [he, hs] at hih
            exact hih
          | inr x =>
            rw [he, hs] at hih
            cases hih
        | inr y =>
          cases hs : scan rest (mark s v) with
          | inl path =>
            rw [he, hs] at hih
            cases hih
          | inr x =>
            rw [he, hs, Sum.map_inr, Sum.liftRel_inr_inr] at hih
            exact .inr ⟨congrArg (v :: ·) hih.1, hih.2⟩

variable {r : α → α → Prop} {source target c v : α} {k : Nat} {cur next : List α}
  {parents : List (α × α)}

/-- The parents of a vertex, read from the source, are a shortest path. -/
theorem Tree.isPath_chain (ht : Tree r source parents) : ∀ {n : Nat} {v : α} {fuel : Nat},
    Seen source parents v → Dist r source n v → n < fuel →
    IsPath r source v (chain parents source fuel v).reverse ∧
      (chain parents source fuel v).length = n + 1 := by
  intro n
  induction n with
  | zero =>
    intro v fuel _ hd hfuel
    obtain ⟨fuel, rfl⟩ : ∃ k, fuel = k + 1 := ⟨fuel - 1, by omega⟩
    obtain rfl := dist_zero.mp hd
    rw [chain, if_pos rfl]
    exact ⟨isPath_singleton.mpr rfl, rfl⟩
  | succ n ih =>
    intro v fuel hv hd hfuel
    obtain ⟨fuel, rfl⟩ : ∃ k, fuel = k + 1 := ⟨fuel - 1, by omega⟩
    have hne : v ≠ source := by
      rintro rfl
      have := hd.unique (dist_zero.mpr rfl)
      omega
    obtain ⟨⟨w, p⟩, hmem, rfl⟩ := mem_map.mp (hv.resolve_left hne)
    obtain ⟨hr, hp, m, hdp, hdv⟩ := ht.parent hmem
    obtain rfl : m = n := by
      have := hd.unique hdv
      omega
    have hlook : lookupLast w parents = some p := (lookupLast_of_distinct ht.nodup).mpr hmem
    obtain ⟨hpath, hlen⟩ := ih hp hdp (show m < fuel by omega)
    rw [chain, if_neg hne, hlook, Option.getD_some, reverse_cons, length_cons, hlen]
    exact ⟨hpath.snoc hr, rfl⟩

/-! ## One step -/

/-- The vertices of `l` that are not seen. -/
def unseenIn (l : List α) (source : α) (parents : List (α × α)) : Nat :=
  unseen l (source :: parents.map Prod.fst)

variable {l : List α} {nbrs : α → List α}

theorem unseenIn_add (hmem : v ∈ l) (hv : ¬ Seen source parents v) :
    unseenIn l source (parents ++ [(v, c)]) + 1 ≤ unseenIn l source parents := by
  refine unseen_insert hmem (fun h => hv (mem_cons.mp h)) fun b => ?_
  simp only [mem_cons, map_append, mem_append, map_cons, map_nil, not_mem_nil, or_false]
  constructor
  · rintro (hb | hb | hb)
    · exact Or.inr (Or.inl hb)
    · exact Or.inr (Or.inr hb)
    · exact Or.inl hb
  · rintro (hb | hb | hb)
    · exact Or.inr (Or.inr hb)
    · exact Or.inl hb
    · exact Or.inr (Or.inl hb)

/-- What looking at some neighbors of `c` finds. -/
def Expanded (r : α → α → Prop) (source target : α) (k : Nat) (c : α) (cur next nbrs l : List α)
    (parents : List (α × α)) : List (α × α) ⊕ (List α × List (α × α)) → Prop
  | .inl found => ∃ parents' next', found = parents' ++ [(target, c)] ∧ r c target ∧
      Frontier r source target k (c :: cur) next' parents'
  | .inr (new, found) => Frontier r source target k (c :: cur) (next ++ new) found ∧
      (∀ v ∈ nbrs, Seen source found v) ∧ (∀ v, Seen source parents v → Seen source found v) ∧
      new.length + unseenIn l source found ≤ unseenIn l source parents

theorem expand_spec : ∀ {nbrs next : List α} {parents : List (α × α)},
    (∀ v ∈ nbrs, r c v ∧ v ∈ l) → Frontier r source target k (c :: cur) next parents →
    Expanded r source target k c cur next nbrs l parents (expand source target c nbrs parents) := by
  intro nbrs
  induction nbrs with
  | nil =>
    intro next parents _ h
    refine ⟨?_, fun v hv => absurd hv not_mem_nil, fun v hv => hv, ?_⟩
    · rw [append_nil]
      exact h
    · rw [length_nil, Nat.zero_add]
  | cons v rest ih =>
    intro next parents hmem h
    obtain ⟨hrv, hvl⟩ := hmem v mem_cons_self
    have hrest : ∀ w ∈ rest, r c w ∧ w ∈ l := fun w hw => hmem w (mem_cons_of_mem _ hw)
    unfold expand
    by_cases hv : Seen source parents v
    · rw [if_pos hv]
      have hih := ih hrest h
      cases hexp : expand source target c rest parents with
      | inl found =>
        rw [hexp] at hih
        exact hih
      | inr x =>
        rw [hexp] at hih
        obtain ⟨hf, hseen, hmono, hlen⟩ := hih
        refine ⟨hf, fun w hw => ?_, hmono, hlen⟩
        rcases mem_cons.mp hw with rfl | hw
        · exact hmono w hv
        · exact hseen w hw
    · rw [if_neg hv]
      by_cases ht : v = target
      · subst ht
        rw [if_pos rfl]
        exact ⟨parents, next, rfl, hrv, h⟩
      · rw [if_neg ht]
        have hih := ih hrest (h.add mem_cons_self hrv hv ht)
        cases hexp : expand source target c rest (parents ++ [(v, c)]) with
        | inl found =>
          rw [hexp] at hih
          exact hih
        | inr x =>
          rw [hexp] at hih
          obtain ⟨hf, hseen, hmono, hlen⟩ := hih
          refine ⟨?_, fun w hw => ?_, fun w hw => hmono w hw.append, ?_⟩
          · rwa [append_assoc] at hf
          · rcases mem_cons.mp hw with rfl | hw
            · exact hmono w (seen_append_singleton.mpr (Or.inr rfl))
            · exact hseen w hw
          · have := unseenIn_add (c := c) hvl hv
            rw [length_cons]
            omega

/-! ## The whole search -/

theorem Frontier.answer {next' : List α}
    (h : Frontier r source target k (c :: cur) next' parents) (hr : r c target) :
    Answer r source target (pathVia source target c (parents ++ [(target, c)])) := by
  have hc : c ∈ c :: cur := mem_cons_self
  have hdc := h.cur_dist c hc
  have hdt := h.dist_new hc hr h.target_unseen
  have ht := h.tree.add (h.cur_seen hc) h.target_unseen hr hdc hdt
  have hbound := h.tree.bound (h.cur_seen hc) hdc
  have hfuel : k < (parents ++ [(target, c)]).length := by
    rw [length_append, length_singleton]
    omega
  obtain ⟨hpath, hlen⟩ := ht.isPath_chain (h.cur_seen hc).append hdc hfuel
  have hpath' := hpath.snoc hr
  rw [← reverse_cons] at hpath'
  refine ⟨hpath', (hpath'.dist_iff (n := k + 1) ?_).mp hdt⟩
  rw [length_reverse, length_cons, hlen]

theorem worklist_bfsStep (hl : ∀ u, ∀ v ∈ nbrs u, v ∈ l) :
    ∀ {fuel k : Nat} {cur next : List α} {parents : List (α × α)},
    Frontier (fun u v => v ∈ nbrs u) source target k cur next parents →
    (cur ++ next).length + unseenIn l source parents ≤ fuel →
    Answer (fun u v => v ∈ nbrs u) source target
      (worklist (bfsStep nbrs source target) (fun _ => none) fuel (cur ++ next) parents) := by
  -- a queue with no vertex at distance `k` left is one of the next level
  have hlevel : ∀ {k : Nat} {cur next : List α} {parents : List (α × α)},
      Frontier (fun u v => v ∈ nbrs u) source target k cur next parents → cur ++ next ≠ [] →
      ∃ k c cur' next', cur ++ next = c :: cur' ++ next' ∧
        Frontier (fun u v => v ∈ nbrs u) source target k (c :: cur') next' parents := by
    intro k cur next parents h hne
    cases cur with
    | cons c cur => exact ⟨k, c, cur, next, rfl, h⟩
    | nil =>
      cases next with
      | nil => exact absurd rfl hne
      | cons c next => exact ⟨k + 1, c, next, [], by simp, h.shift⟩
  intro fuel
  induction fuel with
  | zero =>
    intro k cur next parents h hfuel
    have hnil : cur ++ next = [] := length_eq_zero_iff.mp (by omega)
    obtain ⟨rfl, rfl⟩ := append_eq_nil_iff.mp hnil
    exact h.not_reachable
  | succ fuel ih =>
    intro k cur next parents h hfuel
    by_cases hne : cur ++ next = []
    · obtain ⟨rfl, rfl⟩ := append_eq_nil_iff.mp hne
      exact h.not_reachable
    · obtain ⟨k, c, cur', next', hqueue, h⟩ := hlevel h hne
      rw [hqueue] at hfuel ⊢
      have hexp := expand_spec (fun v (hv : v ∈ nbrs c) => ⟨hv, hl c v hv⟩) h
      rw [cons_append, worklist]
      unfold bfsStep
      cases he : expand source target c (nbrs c) parents with
      | inl found =>
        rw [he] at hexp
        obtain ⟨parents', next'', rfl, hr, h⟩ := hexp
        exact h.answer hr
      | inr x =>
        obtain ⟨new, found⟩ := x
        rw [he] at hexp
        obtain ⟨hf, hseen, -, hlen⟩ := hexp
        have hpop := hf.pop fun v hv => hseen v hv
        show Answer _ source target (worklist _ _ fuel (cur' ++ next' ++ new) found)
        rw [append_assoc]
        refine ih hpop ?_
        simp only [length_append, length_cons] at hfuel ⊢
        omega

/-- **Breadth-first search** answers with a shortest path, or with nothing when there is none. -/
theorem bfs_spec (hl : ∀ u, ∀ v ∈ nbrs u, v ∈ l) (hne : target ≠ source) {fuel : Nat}
    (hfuel : l.length + 1 ≤ fuel) :
    Answer (fun u v => v ∈ nbrs u) source target (bfs nbrs source target fuel) := by
  have hle := length_filter_le (fun a => a ∉ [source]) l
  refine worklist_bfsStep hl (frontier_start hne) ?_
  simp only [unseenIn, unseen, append_nil, length_singleton, map_nil]
  omega

end bfs

end Lib
