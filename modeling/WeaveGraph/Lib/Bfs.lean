import Mathlib.Data.Nat.Find
import Mathlib.Order.Basic
import WeaveGraph.Lib.Runs
import WeaveGraph.Lib.Walks

/-!
# Breadth-first search

A search from a root against the direction of the edges, which keeps the edge each node was found
by.  A node is marked when it is first met; a node that is not known is marked and not followed.
`bound` says at which distance the search still looks at the edges into a node.

* `mem_level_iff`: level `k` of the search has the nodes at distance `k`.
* `mem_search_iff`: what the queue finds is what the levels within the bound find.
* `mem_found_iff`: the edge a node is found by is the first one from it into the level before.
-/

namespace Lib.Bfs

open List

variable {β ε : Type}

/-- The edges into each node in order, their sources, and which nodes are known. -/
structure Graph (β ε : Type) where
  into : β → List ε
  src : ε → β
  known : β → Bool

structure State (β ε : Type) where
  visited : List β
  found : List ε

/-! ## The search -/

section search

variable [DecidableEq β] (G : Graph β ε)

/-- One pass over edges: the nodes that are new, in order. -/
def scan : List ε → State β ε → List β × State β ε
  | [], st => ([], st)
  | e :: rest, st =>
    if G.src e ∈ st.visited then scan rest st
    else if G.known (G.src e) then
      let r := scan rest ⟨G.src e :: st.visited, st.found ++ [e]⟩
      (G.src e :: r.1, r.2)
    else scan rest ⟨G.src e :: st.visited, st.found⟩

def init (root : β) : State β ε := ⟨[root], []⟩

/-- What a node of the queue, with its distance, leads to. -/
def expand (bound : Nat → Bool) (st : State β ε) (current : β × Nat) :
    List ε ⊕ (List (β × Nat) × State β ε) :=
  if bound current.2 then
    .inr ((scan G (G.into current.1) st).1.map fun b => (b, current.2 + 1),
      (scan G (G.into current.1) st).2)
  else .inr ([], st)

def search (bound : Nat → Bool) (root : β) (fuel : Nat) : List ε :=
  worklist (expand G bound) State.found fuel [(root, 0)] (init root)

/-- The search level by level: the nodes of level `k`, and the state before they are expanded. -/
def level (root : β) : Nat → List β × State β ε
  | 0 => ([root], init root)
  | k + 1 => scan G ((level root k).1.flatMap G.into) (level root k).2

/-- A pass over edges does what `scan` does, on states that correspond to its own: it skips what is
marked, marks what is not known, and marks and notes the rest. -/
structure Follows {σ ν : Type} (visit : List ε → σ → List ν × σ) (node : β → ν)
    (R : σ → State β ε → Prop) : Prop where
  nil : ∀ st, visit [] st = ([], st)
  seen : ∀ {st t}, R st t → ∀ e rest, G.src e ∈ t.visited → visit (e :: rest) st = visit rest st
  unknown : ∀ {st t}, R st t → ∀ e rest, G.src e ∉ t.visited → G.known (G.src e) = false →
    ∃ st', R st' ⟨G.src e :: t.visited, t.found⟩ ∧ visit (e :: rest) st = visit rest st'
  known : ∀ {st t}, R st t → ∀ e rest, G.src e ∉ t.visited → G.known (G.src e) = true →
    ∃ st', R st' ⟨G.src e :: t.visited, t.found ++ [e]⟩ ∧
      visit (e :: rest) st = (node (G.src e) :: (visit rest st').1, (visit rest st').2)

variable {G} in
theorem Follows.scan {σ ν : Type} {visit : List ε → σ → List ν × σ} {node : β → ν}
    {R : σ → State β ε → Prop} (hf : Follows G visit node R) (edges : List ε) {st : σ}
    {t : State β ε} (h : R st t) :
    (visit edges st).1 = (Bfs.scan G edges t).1.map node ∧
      R (visit edges st).2 (Bfs.scan G edges t).2 := by
  induction edges generalizing st t with
  | nil =>
    rw [hf.nil]
    exact ⟨rfl, h⟩
  | cons e edges ih =>
    unfold Bfs.scan
    by_cases hseen : G.src e ∈ t.visited
    · rw [if_pos hseen, hf.seen h e edges hseen]
      exact ih h
    rw [if_neg hseen]
    cases hknown : G.known (G.src e) with
    | false =>
      obtain ⟨st', hst', hvisit⟩ := hf.unknown h e edges hseen hknown
      rw [if_neg Bool.false_ne_true, hvisit]
      exact ih hst'
    | true =>
      obtain ⟨st', hst', hvisit⟩ := hf.known h e edges hseen hknown
      obtain ⟨hnext, hrest⟩ := ih hst'
      rw [if_pos rfl, hvisit]
      exact ⟨congrArg (node (G.src e) :: ·) hnext, hrest⟩

end search

/-! ## Distances -/

section walks

variable (G : Graph β ε)

/-- An edge leads into `y` from `x`, which is known. -/
def Into (y x : β) : Prop := G.known x = true ∧ ∃ e ∈ G.into y, G.src e = x

/-- `k` edges lead from the node to the root, through known nodes. -/
abbrev Walk (root : β) (k : Nat) (y : β) : Prop := Lib.Walk (Into G) k root y

/-- The node is at distance `k` of the root. -/
abbrev Dist (root : β) (k : Nat) (y : β) : Prop := Lib.Dist (Into G) root k y

variable {G} {root x y : β} {k j : Nat}

theorem Dist.known (h : Dist G root (k + 1) x) : G.known x = true := by
  obtain ⟨-, -, hknown, -⟩ := walk_succ.mp h.1
  exact hknown

variable (G) in
/-- The node is reached over first edges. -/
inductive Front (root : β) : Nat → β → Prop where
  | root : Front root 0 root
  | step {k : Nat} {y : β} {e : ε} {rest : List ε} : Front root k y → G.into y = e :: rest →
      Dist G root (k + 1) (G.src e) → Front root (k + 1) (G.src e)

theorem Front.dist (h : Front G root k y) : Dist G root k y := by
  cases h with
  | root => exact dist_zero.mpr rfl
  | step _ _ hdist => exact hdist

end walks

/-! ## One pass -/

section scan

variable [DecidableEq β] {G : Graph β ε}

theorem scan_append (a b : List ε) (st : State β ε) : scan G (a ++ b) st =
    ((scan G a st).1 ++ (scan G b (scan G a st).2).1, (scan G b (scan G a st).2).2) := by
  induction a generalizing st with
  | nil => rfl
  | cons e a ih =>
    simp only [cons_append, scan]
    split
    · exact ih st
    · split
      · rw [ih]
        rfl
      · exact ih _

variable {l : List ε} {st : State β ε}

theorem mem_visited_scan {x : β} :
    x ∈ (scan G l st).2.visited ↔ x ∈ st.visited ∨ ∃ e ∈ l, G.src e = x := by
  induction l generalizing st with
  | nil => simp [scan]
  | cons e l ih =>
    rw [exists_mem_cons_iff]
    simp only [scan]
    split
    · rename_i hseen
      rw [ih]
      constructor
      · exact Or.imp_right Or.inr
      · rintro (h | rfl | h)
        · exact Or.inl h
        · exact Or.inl hseen
        · exact Or.inr h
    · split
      · rw [ih, mem_cons, or_comm (a := x = _), or_assoc, eq_comm]
      · rw [ih, mem_cons, or_comm (a := x = _), or_assoc, eq_comm]

theorem mem_next_scan {x : β} : x ∈ (scan G l st).1 ↔
      x ∉ st.visited ∧ G.known x = true ∧ ∃ e ∈ l, G.src e = x := by
  induction l generalizing st with
  | nil => simp [scan]
  | cons e l ih =>
    rw [exists_mem_cons_iff]
    simp only [scan]
    split
    · rename_i hseen
      rw [ih]
      refine and_congr_right fun hx => and_congr_right fun _ => ?_
      exact ⟨Or.inr, fun h => h.resolve_left fun h => hx (h ▸ hseen)⟩
    · rename_i hseen
      split
      · rename_i hknown
        rw [mem_cons, ih, mem_cons, not_or]
        constructor
        · rintro (rfl | ⟨⟨-, hx⟩, hk, h⟩)
          · exact ⟨hseen, hknown, Or.inl rfl⟩
          · exact ⟨hx, hk, Or.inr h⟩
        · rintro ⟨hx, hk, h⟩
          by_cases heq : x = G.src e
          · exact Or.inl heq
          · exact Or.inr ⟨⟨heq, hx⟩, hk, h.resolve_left fun h => heq h.symm⟩
      · rename_i hknown
        rw [ih, mem_cons, not_or]
        constructor
        · rintro ⟨⟨-, hx⟩, hk, h⟩
          exact ⟨hx, hk, Or.inr h⟩
        · rintro ⟨hx, hk, h⟩
          have heq : x ≠ G.src e := fun h => hknown (h ▸ hk)
          exact ⟨⟨heq, hx⟩, hk, h.resolve_left fun h => heq h.symm⟩

theorem mem_found_scan {e : ε} : e ∈ (scan G l st).2.found ↔ e ∈ st.found ∨ (G.src e ∉ st.visited ∧
      G.known (G.src e) = true ∧ l.find? (fun f => G.src f = G.src e) = some e) := by
  induction l generalizing st with
  | nil => simp [scan]
  | cons f l ih =>
    simp only [scan]
    split
    · rename_i hseen
      rw [ih]
      refine or_congr_right (and_congr_right fun he => ?_)
      have hne : G.src f ≠ G.src e := fun h => he (h ▸ hseen)
      rw [find?_cons_of_neg (by simpa using hne)]
    · rename_i hseen
      by_cases heq : G.src f = G.src e
      · -- the first edge from this node: what comes later does not count
        split
        · rename_i hknown
          rw [ih, ← heq]
          simp [hseen, hknown, eq_comm]
        · rename_i hknown
          rw [ih, ← heq]
          simp [hknown]
      · rw [find?_cons_of_neg (by simpa using heq)]
        have hcons : G.src e ∉ G.src f :: st.visited ↔ G.src e ∉ st.visited := by
          rw [mem_cons, not_or]
          exact and_iff_right fun h => heq h.symm
        split
        · rw [ih, hcons, mem_append, mem_singleton]
          have hne : e ≠ f := fun h => heq (h ▸ rfl)
          simp [hne]
        · rw [ih, hcons]

theorem found_scan {e : ε} (h : e ∈ st.found) :
    e ∈ (scan G l st).2.found := mem_found_scan.mpr (Or.inl h)

theorem scan_unseen {sources : List β} (h : ∀ e ∈ l, G.src e ∈ sources) (st : State β ε) :
    (scan G l st).1.length + unseen sources (scan G l st).2.visited ≤
      unseen sources st.visited := by
  induction l generalizing st with
  | nil => simp [scan]
  | cons e l ih =>
    have hl := fun st => ih (fun f hf => h f (mem_cons_of_mem _ hf)) st
    simp only [scan]
    split
    · exact hl st
    · rename_i hseen
      have hnew : unseen sources (G.src e :: st.visited) + 1 ≤ unseen sources st.visited :=
        unseen_insert (h e mem_cons_self) hseen fun _ => mem_cons
      split
      · have := hl ⟨G.src e :: st.visited, st.found ++ [e]⟩
        rw [length_cons]
        dsimp only at this ⊢
        omega
      · exact (hl _).trans (Nat.le_of_succ_le hnew)

end scan

/-! ## Levels -/

section levels

variable {G : Graph β ε} {root x : β} {k : Nat}

variable (G root) in
/-- The nodes at distance `k`, with everything that is closer marked. -/
structure IsLevel (k : Nat) (p : List β × State β ε) : Prop where
  nodes : ∀ x, x ∈ p.1 ↔ Dist G root k x
  visited : ∀ x, G.known x = true ∨ x = root → (x ∈ p.2.visited ↔ Within (Into G) k root x)

theorem isLevel_init : IsLevel G root 0 ([root], init root) where
  nodes x := by
    rw [mem_singleton, Dist, dist_zero, eq_comm]
  visited x _ := by
    show x ∈ [root] ↔ _
    rw [mem_singleton, within_zero, eq_comm]

theorem IsLevel.exists_edge {p : List β × State β ε} (h : IsLevel G root k p) (x : β) :
    (∃ e ∈ p.1.flatMap G.into, G.src e = x) ↔
      ∃ y, Dist G root k y ∧ ∃ e ∈ G.into y, G.src e = x := by
  simp only [mem_flatMap, h.nodes]
  constructor
  · rintro ⟨e, ⟨y, hy, he⟩, hx⟩
    exact ⟨y, hy, e, he, hx⟩
  · rintro ⟨y, hy, e, he, hx⟩
    exact ⟨e, ⟨y, hy, he⟩, hx⟩

variable [DecidableEq β]

section next

variable {p : List β × State β ε} (h : IsLevel G root k p)

include h

theorem IsLevel.mem_next (x : β) :
    x ∈ (scan G (p.1.flatMap G.into) p.2).1 ↔ Dist G root (k + 1) x := by
  rw [mem_next_scan, h.exists_edge, Dist, dist_succ_iff_exists]
  constructor
  · rintro ⟨hnew, hknown, y, hy, he⟩
    exact ⟨⟨y, hy, hknown, he⟩, fun hw => hnew ((h.visited x (Or.inl hknown)).mpr hw)⟩
  · rintro ⟨⟨y, hy, hknown, he⟩, hno⟩
    exact ⟨fun hseen => hno ((h.visited x (Or.inl hknown)).mp hseen), hknown, y, hy, he⟩

theorem IsLevel.mem_visited_next (hx : G.known x = true ∨ x = root) :
    x ∈ (scan G (p.1.flatMap G.into) p.2).2.visited ↔ Within (Into G) (k + 1) root x := by
  rw [mem_visited_scan, h.visited x hx, h.exists_edge]
  constructor
  · rintro (hw | ⟨y, hy, he⟩)
    · exact hw.mono (Nat.le_succ k)
    · rcases hx with hknown | rfl
      · exact ⟨k + 1, le_rfl, .snoc hy.1 ⟨hknown, he⟩⟩
      · exact ⟨0, Nat.zero_le _, .nil x⟩
  · intro hw
    by_cases hk : Within (Into G) k root x
    · exact Or.inl hk
    · obtain ⟨⟨y, hy, -, he⟩, -⟩ := dist_succ_iff_exists.mp (dist_succ_iff.mpr ⟨hw, hk⟩)
      exact Or.inr ⟨y, hy, he⟩

theorem IsLevel.next : IsLevel G root (k + 1) (scan G (p.1.flatMap G.into) p.2) :=
  ⟨h.mem_next, fun _ hx => h.mem_visited_next hx⟩

end next

theorem isLevel_level (G : Graph β ε) (root : β) (k : Nat) : IsLevel G root k (level G root k) := by
  induction k with
  | zero => exact isLevel_init
  | succ k ih => exact ih.next

theorem mem_level_iff : x ∈ (level G root k).1 ↔ Dist G root k x :=
  (isLevel_level G root k).nodes x

theorem not_mem_visited (h : Dist G root (k + 1) x) : x ∉ (level G root k).2.visited := by
  rw [(isLevel_level G root k).visited x (Or.inl h.known)]
  exact (dist_succ_iff.mp h).2

variable {e : ε}

/-- The edge a node is found by is the first one from it into the level before. -/
theorem mem_found_iff : e ∈ (level G root k).2.found ↔
    ∃ j < k, Dist G root (j + 1) (G.src e) ∧
      ((level G root j).1.flatMap G.into).find? (fun f => G.src f = G.src e) = some e := by
  induction k with
  | zero => exact iff_of_false not_mem_nil fun ⟨j, hj, _⟩ => Nat.not_lt_zero j hj
  | succ k ih =>
    have hnew : (G.src e ∉ (level G root k).2.visited ∧ G.known (G.src e) = true ∧
        ((level G root k).1.flatMap G.into).find? (fun f => G.src f = G.src e) = some e) ↔
        Dist G root (k + 1) (G.src e) ∧
          ((level G root k).1.flatMap G.into).find? (fun f => G.src f = G.src e) = some e := by
      rw [← and_assoc, and_congr_left_iff]
      intro hfind
      have hmem : ∃ f ∈ (level G root k).1.flatMap G.into, G.src f = G.src e :=
        ⟨e, mem_of_find?_eq_some hfind, rfl⟩
      rw [← mem_level_iff]
      show _ ↔ _ ∈ (scan G _ _).1
      rw [mem_next_scan]
      exact ⟨fun h => ⟨h.1, h.2, hmem⟩, fun h => ⟨h.1, h.2.1⟩⟩
    show e ∈ (scan G _ _).2.found ↔ _
    rw [mem_found_scan, ih, hnew]
    constructor
    · rintro (⟨j, hj, h⟩ | h)
      · exact ⟨j, Nat.lt_succ_of_lt hj, h⟩
      · exact ⟨k, Nat.lt_succ_self k, h⟩
    · rintro ⟨j, hj, h⟩
      rcases Nat.lt_succ_iff_lt_or_eq.mp hj with hj | rfl
      · exact Or.inl ⟨j, hj, h⟩
      · exact Or.inr h

theorem exists_found {j : Nat} (hj : j < k) (h : Dist G root (j + 1) x) :
    ∃ e ∈ (level G root k).2.found, G.src e = x := by
  obtain ⟨⟨y, hy, -, e, he, rfl⟩, -⟩ := dist_succ_iff_exists.mp h
  have hmem : e ∈ (level G root j).1.flatMap G.into :=
    mem_flatMap.mpr ⟨y, mem_level_iff.mpr hy, he⟩
  have hsome : (((level G root j).1.flatMap G.into).find? fun f => G.src f = G.src e).isSome :=
    find?_isSome.mpr ⟨e, hmem, by simp⟩
  obtain ⟨f, hf⟩ := Option.isSome_iff_exists.mp hsome
  have hsrc : G.src f = G.src e := by simpa using find?_some hf
  exact ⟨f, mem_found_iff.mpr ⟨j, hj, hsrc ▸ h, hsrc ▸ hf⟩, hsrc⟩

theorem found_unique {k' : Nat} {f : ε} (he : e ∈ (level G root k).2.found)
    (hf : f ∈ (level G root k').2.found) (h : G.src e = G.src f) : e = f := by
  obtain ⟨i, -, hi, hei⟩ := mem_found_iff.mp he
  obtain ⟨j, -, hj, hfj⟩ := mem_found_iff.mp hf
  rw [h] at hi hei
  obtain rfl : i = j := Nat.succ.inj (hi.unique hj)
  exact Option.some.inj (hei.symm.trans hfj)

theorem scan_head {l : List ε} {st : State β ε} (hnew : G.src e ∉ st.visited)
    (hknown : G.known (G.src e) = true) : ∃ rest, (scan G (e :: l) st).1 = G.src e :: rest := by
  simp only [scan]
  rw [if_neg hnew, if_pos hknown]
  exact ⟨_, rfl⟩

theorem Front.level {y : β} (h : Front G root k y) : ∃ rest, (level G root k).1 = y :: rest := by
  induction h with
  | root => exact ⟨[], rfl⟩
  | step _ hinto hdist ih =>
    rename_i j y e tail _
    obtain ⟨rest, hlevel⟩ := ih
    show ∃ rest, (scan G ((Bfs.level G root j).1.flatMap G.into) _).1 = _
    rw [hlevel, flatMap_cons, hinto, cons_append]
    exact scan_head (not_mem_visited hdist) hdist.known

theorem Front.found {y : β} {rest : List ε} (h : Front G root k y) (hinto : G.into y = e :: rest)
    (hdist : Dist G root (k + 1) (G.src e)) : e ∈ (Bfs.level G root (k + 1)).2.found := by
  obtain ⟨tail, hlevel⟩ := h.level
  refine mem_found_iff.mpr ⟨k, Nat.lt_succ_self k, hdist, ?_⟩
  rw [hlevel, flatMap_cons, hinto, cons_append, find?_cons_of_pos (by simp)]

end levels

/-! ## The queue -/

section queue

variable [DecidableEq β] {G : Graph β ε} {bound : Nat → Bool} {root : β} {sources : List β}

variable {k : Nat}

theorem expand_of_bound (hk : bound k = true) (b : β) (st : State β ε) :
    expand G bound st (b, k) = .inr ((scan G (G.into b) st).1.map fun b => (b, k + 1),
      (scan G (G.into b) st).2) := if_pos hk

theorem worklist_level (hk : bound k = true) (l : List β) :
    ∀ (n : Nat) (queue : List (β × Nat)) (st : State β ε),
      worklist (expand G bound) State.found (l.length + n) (l.map (fun b => (b, k)) ++ queue) st =
        worklist (expand G bound) State.found n
          (queue ++ (scan G (l.flatMap G.into) st).1.map fun b => (b, k + 1))
          (scan G (l.flatMap G.into) st).2 := by
  induction l with
  | nil =>
    simp [scan]
  | cons b l ih =>
    intro n queue st
    rw [length_cons, Nat.add_right_comm, map_cons, cons_append, worklist, expand_of_bound hk]
    dsimp only
    rw [append_assoc, ih, flatMap_cons, scan_append, map_append, append_assoc]

theorem worklist_past (hk : bound k = false) (l : List β) : ∀ (n : Nat) (st : State β ε),
      worklist (expand G bound) State.found n (l.map fun b => (b, k)) st = st.found := by
  induction l with
  | nil =>
    intro n st
    cases n <;> rfl
  | cons b l ih =>
    intro n st
    cases n with
    | zero => rfl
    | succ n =>
      have hstep : expand G bound st (b, k) = .inr ([], st) := if_neg (by simp [hk])
      rw [map_cons, worklist, hstep]
      dsimp only
      rw [append_nil]
      exact ih n st

/-- With enough fuel the queue comes to each level within the bound. -/
theorem exists_search_eq (root : β) (hk : ∀ j < k, bound j = true) :
    ∃ m, ∀ n, search G bound root (m + n) =
      worklist (expand G bound) State.found n ((level G root k).1.map fun b => (b, k))
        (level G root k).2 := by
  induction k with
  | zero =>
    refine ⟨0, fun n => ?_⟩
    rw [Nat.zero_add]
    rfl
  | succ k ih =>
    obtain ⟨m, hm⟩ := ih fun j hj => hk j (Nat.lt_succ_of_lt hj)
    refine ⟨m + (level G root k).1.length, fun n => ?_⟩
    have hlevel := worklist_level (G := G) (hk k (Nat.lt_succ_self k)) (level G root k).1 n []
      (level G root k).2
    rw [append_nil, nil_append] at hlevel
    rw [Nat.add_assoc, hm, hlevel]
    rfl

section

variable (hsources : ∀ b, ∀ e ∈ G.into b, G.src e ∈ sources)

include hsources

theorem search_fuel {n m : Nat} (hn : sources.length + 1 ≤ n) (hm : n ≤ m) :
    search G bound root m = search G bound root n := by
  refine (ends_of_measure (μ := fun st => unseen sources st.visited) ?_ ?_).worklist_eq hm
  · intro st current next st' h
    unfold expand at h
    split at h
    · cases h
      rw [length_map]
      exact scan_unseen (hsources current.1) st
    · cases h
      simp
  · have hle : unseen sources [root] ≤ sources.length := length_filter_le _ _
    simp only [length_singleton, init]
    omega

theorem level_unseen (root : β) (hk : ∀ j ≤ k, (level G root j).1 ≠ []) :
    k + unseen sources (level G root k).2.visited ≤ sources.length := by
  induction k with
  | zero =>
    rw [Nat.zero_add]
    exact length_filter_le _ _
  | succ k ih =>
    have hle := ih fun j hj => hk j (hj.trans (Nat.le_succ k))
    have hpos := length_pos_iff.mpr (hk (k + 1) le_rfl)
    have hscan := scan_unseen (G := G) (l := (level G root k).1.flatMap G.into) (fun e he => by
        obtain ⟨b, -, he⟩ := mem_flatMap.mp he
        exact hsources b e he) (level G root k).2
    change 0 < (scan G _ _).1.length at hpos
    change k + 1 + unseen sources (scan G _ _).2.visited ≤ _
    omega

theorem exists_level_nil (root : β) : ∃ k, (level G root k).1 = [] := by
  by_contra hne
  have hle := level_unseen hsources root (k := sources.length + 1) fun j _ hnil => hne ⟨j, hnil⟩
  omega

end

theorem found_worklist {e : ε} : ∀ (n : Nat) (queue : List (β × Nat)) (st : State β ε),
    e ∈ st.found → e ∈ worklist (expand G bound) State.found n queue st := by
  intro n
  induction n with
  | zero => exact fun _ _ h => h
  | succ n ih =>
    intro queue st h
    cases queue with
    | nil => exact h
    | cons a queue =>
      simp only [worklist]
      cases hbound : bound a.2 with
      | true =>
        rw [expand, if_pos hbound]
        exact ih _ _ (found_scan h)
      | false =>
        rw [expand, if_neg (by simp [hbound])]
        exact ih _ _ h

/-- **What the search finds** is what its levels within the bound find. -/
theorem mem_search_iff (hsources : ∀ b, ∀ e ∈ G.into b, G.src e ∈ sources) {n : Nat}
    (hn : sources.length + 1 ≤ n) {e : ε} :
    e ∈ search G bound root n ↔ ∃ k, (∀ j < k, bound j = true) ∧ e ∈ (level G root k).2.found := by
  have hlevel : ∀ k, (∀ j < k, bound j = true) → ∃ m, search G bound root n =
      worklist (expand G bound) State.found m ((level G root k).1.map fun b => (b, k))
        (level G root k).2 := by
    intro k hk
    obtain ⟨m, hm⟩ := exists_search_eq (G := G) root hk
    exact ⟨n, (search_fuel hsources hn (Nat.le_add_left n m)).symm.trans (hm n)⟩
  constructor
  · intro he
    -- the first level that is empty or past the bound is where the search ends
    obtain ⟨k, hk, hend⟩ : ∃ k, (∀ j < k, bound j = true) ∧
        ((level G root k).1 = [] ∨ bound k = false) := by
      obtain ⟨i, hi⟩ := exists_level_nil hsources root
      by_cases hbound : ∀ j < i, bound j = true
      · exact ⟨i, hbound, Or.inl hi⟩
      · push Not at hbound
        obtain ⟨j, -, hj⟩ := hbound
        have hex : ∃ j, bound j = false := ⟨j, Bool.not_eq_true _ ▸ hj⟩
        refine ⟨Nat.find hex, fun j hj => ?_, Or.inr (Nat.find_spec hex)⟩
        exact Bool.not_eq_false _ ▸ Nat.find_min hex hj
    obtain ⟨m, hm⟩ := hlevel k hk
    refine ⟨k, hk, ?_⟩
    rw [hm] at he
    rcases hend with hnil | hpast
    · rw [hnil] at he
      cases m <;> exact he
    · rwa [worklist_past hpast] at he
  · rintro ⟨k, hk, he⟩
    obtain ⟨m, hm⟩ := hlevel k hk
    rw [hm]
    exact found_worklist _ _ _ he

end queue

end Lib.Bfs
