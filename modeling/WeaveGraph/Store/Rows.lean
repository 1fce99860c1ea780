import Mathlib.Data.List.Induction
import WeaveGraph.Lib.Groups
import WeaveGraph.Lib.Runs
import WeaveGraph.Store.Upsert

/-!
# The rows of one file

Both node writers work on the rows of one file at a time: what `insert_fresh_nodes` and
`upsert_nodes` make of a file depends on the rows of that file alone, and not on the ids they have
(`freshNodes_rowsAt`, `upsertNodes_marks`).

`record` and `writeRow` are the two writers over rows without ids.  Beside each row `writeRow` keeps
whether its id has been returned to the caller, since an incremental run deletes the rows of a
changed file whose id was not.
-/

namespace WeaveGraph

open List Lib

def NodeData.naturalKey (d : NodeData) : String × String × String × Nat :=
  (d.repoId, d.path, d.symbol, d.lineStart)

@[simp] theorem Node.data_naturalKey (n : Node) : n.data.naturalKey = n.naturalKey := rfl

namespace SqliteStorage

def rowsAt (rows : List Node) (path : String) : List Node := rows.filter fun n => n.path == path

variable {rows : List Node} {path : String} {n : Node} {d r : NodeData} {t t' : NodeTable}

@[simp] theorem mem_rowsAt : n ∈ rowsAt rows path ↔ n ∈ rows ∧ n.path = path := by
  simp [rowsAt]

theorem rowsAt_map {g : Node → Node} (hg : ∀ n ∈ rows, (g n).path = n.path) (path : String) :
    rowsAt (rows.map g) path = (rowsAt rows path).map g := by
  unfold rowsAt
  rw [filter_map]
  congr 1
  refine filter_congr fun n hn => ?_
  rw [Function.comp_apply, hg n hn]

/-! ## Fresh inserts -/

/-- A table filled by `insert_fresh_nodes`. -/
def freshNodes (nodes : List Node) : NodeTable := nodes.foldl insertFreshNode Table.empty

/-- `insert_fresh_nodes` over rows without ids: the new row replaces the one under its natural
key. -/
def record (rows : List NodeData) (d : NodeData) : List NodeData :=
  if d.naturalKey ∈ rows.map NodeData.naturalKey then
    rows.map fun r => if r.naturalKey = d.naturalKey then d else r
  else rows ++ [d]

theorem naturalKey_mem_data {k : String × String × String × Nat} :
    k ∈ (rows.map Node.data).map NodeData.naturalKey ↔ k ∈ rows.map Node.naturalKey := by
  rw [map_map]
  exact Iff.rfl

theorem insertFreshNode_data (t : NodeTable) (n : Node) :
    (insertFreshNode t n).rows.map Node.data = record (t.rows.map Node.data) n.data := by
  unfold record
  rw [Node.data_naturalKey]
  by_cases h : n.naturalKey ∈ t.rows.map Node.naturalKey
  · rw [if_pos (naturalKey_mem_data.mpr h)]
    have hrows := Table.upsert_conflict t (fun id => { n with id := id })
      (fun r => { r with kind := n.kind, lineEnd := n.lineEnd, signature := n.signature })
      (fun _ => rfl) (fun _ => rfl) (fun _ => rfl) h
    rw [show (insertFreshNode t n).rows = _ from hrows, map_map, map_map]
    refine map_congr_left fun r _ => ?_
    show Node.data (if r.naturalKey = n.naturalKey then
        { r with kind := n.kind, lineEnd := n.lineEnd, signature := n.signature } else r) =
      if r.naturalKey = n.naturalKey then n.data else r.data
    by_cases hk : r.naturalKey = n.naturalKey
    · rw [if_pos hk, if_pos hk]
      simp only [Node.naturalKey, Prod.mk.injEq] at hk
      simp [Node.data, hk]
    · rw [if_neg hk, if_neg hk]
  · rw [if_neg fun hm => h (naturalKey_mem_data.mp hm)]
    have hrows := Table.upsert_fresh t (fun id => { n with id := id })
      (fun r => { r with kind := n.kind, lineEnd := n.lineEnd, signature := n.signature })
      (fun _ => rfl) (fun _ => rfl) (fun _ => rfl) h
    rw [show (insertFreshNode t n).rows = _ from hrows, map_append]
    rfl

theorem freshNodes_data (nodes : List Node) :
    (freshNodes nodes).rows.map Node.data = (nodes.map Node.data).foldl record [] := by
  induction nodes using List.reverseRecOn with
  | nil => rfl
  | append_singleton nodes n ih =>
    unfold freshNodes at ih ⊢
    rw [foldl_append, foldl_cons, foldl_nil, insertFreshNode_data, ih, map_append, foldl_append]
    rfl

theorem mem_of_mem_record {rows : List NodeData} (h : r ∈ record rows d) : r ∈ rows ∨ r = d := by
  unfold record at h
  split at h
  · obtain ⟨r₀, hr₀, rfl⟩ := mem_map.mp h
    split
    · exact Or.inr rfl
    · exact Or.inl hr₀
  · simpa using h

theorem exists_of_mem_freshNodes {nodes : List Node} (h : n ∈ (freshNodes nodes).rows) :
    ∃ m ∈ nodes, m.data = n.data := by
  have hd : n.data ∈ (nodes.map Node.data).foldl record [] :=
    freshNodes_data nodes ▸ mem_map_of_mem h
  have hall : ∀ d ∈ (nodes.map Node.data).foldl record [], d ∈ nodes.map Node.data := by
    refine foldl_invariant (P := fun rows : List NodeData => ∀ d ∈ rows, d ∈ nodes.map Node.data)
      (fun d hd rows hrows r hr => ?_) (fun d hd => by cases hd)
    rcases mem_of_mem_record hr with hr | rfl
    · exact hrows r hr
    · exact hd
  exact mem_map.mp (hall _ hd)

theorem filter_record (rows : List NodeData) (d : NodeData) (path : String) :
    (record rows d).filter (fun r => r.path == path) =
      if d.path = path then record (rows.filter fun r => r.path == path) d
      else rows.filter fun r => r.path == path := by
  have hpath : ∀ r : NodeData, r.naturalKey = d.naturalKey → r.path = d.path := by
    intro r hr
    simp only [NodeData.naturalKey, Prod.mk.injEq] at hr
    exact hr.2.1
  unfold record
  by_cases hk : d.naturalKey ∈ rows.map NodeData.naturalKey
  · -- a row replaced under its key stays in its file
    have hsame : ∀ r : NodeData,
        ((if r.naturalKey = d.naturalKey then d else r).path == path) = (r.path == path) := by
      intro r
      by_cases hr : r.naturalKey = d.naturalKey
      · rw [if_pos hr, hpath r hr]
      · rw [if_neg hr]
    have hfilter : (rows.map fun r => if r.naturalKey = d.naturalKey then d else r).filter
        (fun r => r.path == path) =
        (rows.filter fun r => r.path == path).map fun r =>
          if r.naturalKey = d.naturalKey then d else r := by
      rw [filter_map]
      congr 1
      exact filter_congr fun r _ => hsame r
    rw [if_pos hk, hfilter]
    obtain ⟨r₀, hr₀, he⟩ := mem_map.mp hk
    by_cases hd : d.path = path
    · rw [if_pos hd, if_pos]
      refine mem_map.mpr ⟨r₀, mem_filter.mpr ⟨hr₀, ?_⟩, he⟩
      rw [hpath r₀ he, hd]
      exact beq_self_eq_true path
    · rw [if_neg hd]
      refine (map_congr_left fun r hr => ?_).trans (map_id _)
      have hr' : r.path = path := by simpa using (mem_filter.mp hr).2
      exact if_neg fun hrk => hd ((hpath r hrk).symm.trans hr')
  · rw [if_neg hk, filter_append]
    by_cases hd : d.path = path
    · rw [if_pos hd, if_neg, filter_cons_of_pos (by simp [hd])]
      · rfl
      · intro hm
        obtain ⟨r, hr, he⟩ := mem_map.mp hm
        exact hk (mem_map.mpr ⟨r, (mem_filter.mp hr).1, he⟩)
    · rw [if_neg hd, filter_cons_of_neg (by simp [hd])]
      exact append_nil _

theorem rowsAt_data (rows : List Node) (path : String) :
    (rowsAt rows path).map Node.data = (rows.map Node.data).filter fun r => r.path == path := by
  rw [filter_map]
  rfl

theorem freshNodes_rowsAt (nodes : List Node) (path : String) :
    (rowsAt (freshNodes nodes).rows path).map Node.data =
      (freshNodes (rowsAt nodes path)).rows.map Node.data := by
  rw [rowsAt_data, freshNodes_data, freshNodes_data]
  induction nodes using List.reverseRecOn with
  | nil => rfl
  | append_singleton nodes n ih =>
    have happ : rowsAt (nodes ++ [n]) path = rowsAt nodes path ++ rowsAt [n] path :=
      filter_append _ _
    rw [happ, map_append, map_append, foldl_append, foldl_append,
      map_cons, map_nil, foldl_cons, foldl_nil, filter_record, ih]
    by_cases hn : n.path = path
    · rw [if_pos (show n.data.path = path from hn)]
      simp [rowsAt, hn]
    · rw [if_neg (show ¬ n.data.path = path from hn)]
      simp [rowsAt, hn]

/-! ## Upserts -/

/-- The row `upsert_nodes` takes over, over rows without ids. -/
def takesOver (rows : List NodeData) (d : NodeData) : Option NodeData :=
  let candidates := (rows.filter fun r => r.repoId == d.repoId && r.path == d.path &&
    r.symbol == d.symbol && r.kind == d.kind).insertionSort fun a b => a.lineStart ≤ b.lineStart
  (candidates.find? fun r => r.signature == d.signature).or
    (candidates.find? fun r => r.lineStart == d.lineStart)

/-- No row is under the key of `d`, except the one it takes over. -/
def FreeFor (rows : List (NodeData × Bool)) (d : NodeData) : Prop :=
  ∀ x ∈ rows, x.1.naturalKey = d.naturalKey → takesOver (rows.map Prod.fst) d = some x.1
deriving Decidable

/-- The rows once `d` stands in the row it takes over, or in a new one. -/
def writtenOver (rows : List (NodeData × Bool)) (d : NodeData) : List (NodeData × Bool) :=
  match takesOver (rows.map Prod.fst) d with
  | some r => rows.map fun x => if x.1.naturalKey = r.naturalKey then (d, true) else x
  | none => rows ++ [(d, true)]

/-- One node of `upsert_nodes` over rows without ids, each with a mark for a returned id. -/
def writeRow (rows : List (NodeData × Bool)) (d : NodeData) : Option (List (NodeData × Bool)) :=
  if FreeFor rows d then some (writtenOver rows d) else none

/-- The rows whose id was returned. -/
def kept (rows : List (NodeData × Bool)) : List NodeData := (rows.filter Prod.snd).map Prod.fst

theorem writeRow_eq_some {rows rows' : List (NodeData × Bool)} :
    writeRow rows d = some rows' ↔ FreeFor rows d ∧ writtenOver rows d = rows' := by
  simp [writeRow]

theorem mem_of_mem_writtenOver {rows : List (NodeData × Bool)} {x : NodeData × Bool}
    (hx : x ∈ writtenOver rows d) : x ∈ rows ∨ x = (d, true) := by
  unfold writtenOver at hx
  split at hx
  · obtain ⟨x₀, hx₀, rfl⟩ := mem_map.mp hx
    split
    · exact Or.inr rfl
    · exact Or.inl hx₀
  · rcases mem_append.mp hx with hx | hx
    · exact Or.inl hx
    · exact Or.inr (mem_singleton.mp hx)

/-! ## The order between symbols

What `writeRow` makes of the rows of a symbol does not depend on the rows of others, so lists that
differ only in how the rows of symbols are interleaved are written over alike. -/

theorem symbol_of_naturalKey {d' : NodeData} (h : d.naturalKey = d'.naturalKey) :
    d.path = d'.path ∧ d.symbol = d'.symbol := by
  simp only [NodeData.naturalKey, Prod.mk.injEq] at h
  exact ⟨h.2.1, h.2.2.1⟩

theorem mem_of_takesOver {rows : List NodeData} (h : takesOver rows d = some r) :
    r ∈ rows ∧ r.path = d.path ∧ r.symbol = d.symbol := by
  have hmem : r ∈ (rows.filter fun r => r.repoId == d.repoId && r.path == d.path &&
      r.symbol == d.symbol && r.kind == d.kind) := by
    rcases Option.or_eq_some_iff.mp h with h | ⟨-, h⟩
    · exact mem_insertionSort _ |>.mp (mem_of_find?_eq_some h)
    · exact mem_insertionSort _ |>.mp (mem_of_find?_eq_some h)
  obtain ⟨hr, hsame⟩ := mem_filter.mp hmem
  simp only [Bool.and_eq_true, beq_iff_eq] at hsame
  exact ⟨hr, hsame.1.1.2, hsame.1.2⟩

section groups

variable {κ : Type} [DecidableEq κ] {key : NodeData → κ}
  (hkey : ∀ {d d' : NodeData}, d.path = d'.path → d.symbol = d'.symbol → key d = key d')

include hkey

theorem takesOver_sameGroups {rows rows' : List NodeData} (h : SameGroups key rows rows')
    (d : NodeData) : takesOver rows d = takesOver rows' d := by
  have hfilter : ∀ rows : List NodeData, (rows.filter fun r => r.repoId == d.repoId &&
      r.path == d.path && r.symbol == d.symbol && r.kind == d.kind) =
        (group key rows (key d)).filter fun r => r.repoId == d.repoId && r.path == d.path &&
          r.symbol == d.symbol && r.kind == d.kind := by
    intro rows
    refine (filter_group fun r hr => ?_).symm
    simp only [Bool.and_eq_true, beq_iff_eq] at hr
    exact hkey hr.1.1.2 hr.1.2
  unfold takesOver
  rw [hfilter rows, hfilter rows', h (key d)]

theorem writeRow_sameGroups {rows rows' out : List (NodeData × Bool)} {d : NodeData}
    (h : SameGroups (fun x => key x.1) rows rows') (hw : writeRow rows d = some out) :
    ∃ out', writeRow rows' d = some out' ∧ SameGroups (fun x => key x.1) out out' := by
  have hfst : SameGroups key (rows.map Prod.fst) (rows'.map Prod.fst) := h.map fun _ _ => rfl
  have htakes := takesOver_sameGroups hkey hfst d
  obtain ⟨hfree, rfl⟩ := writeRow_eq_some.mp hw
  refine ⟨_, writeRow_eq_some.mpr ⟨fun x hx hk => ?_, rfl⟩, ?_⟩
  · rw [← htakes]
    exact hfree x (h.mem_iff.mpr hx) hk
  unfold writtenOver
  rw [← htakes]
  cases ht : takesOver (rows.map Prod.fst) d with
  | none => exact h.append (.refl _ _)
  | some r =>
    refine h.map fun x _ => ?_
    split
    · rename_i hx
      obtain ⟨-, hpath, hsymbol⟩ := mem_of_takesOver ht
      obtain ⟨hpath', hsymbol'⟩ := symbol_of_naturalKey hx
      exact hkey (hpath.symm.trans hpath'.symm) (hsymbol.symm.trans hsymbol'.symm)
    · rfl

theorem foldlM_writeRow_sameGroups {batch : List NodeData} :
    ∀ {rows rows' out : List (NodeData × Bool)},
    SameGroups (fun x => key x.1) rows rows' → batch.foldlM writeRow rows = some out →
    ∃ out', batch.foldlM writeRow rows' = some out' ∧ SameGroups (fun x => key x.1) out out' := by
  induction batch with
  | nil =>
    intro rows rows' out h hw
    cases hw
    exact ⟨rows', rfl, h⟩
  | cons d batch ih =>
    intro rows rows' out h hw
    obtain ⟨mid, hmid, hw⟩ := Option.bind_eq_some_iff.mp hw
    obtain ⟨mid', hmid', hsame⟩ := writeRow_sameGroups hkey h hmid
    obtain ⟨out', hout', hsame'⟩ := ih hsame hw
    exact ⟨out', by rw [foldlM_cons, hmid']; exact hout', hsame'⟩

end groups

theorem existing_data (rows : List Node) (n : Node) :
    (existing (candidates rows n) n).map Node.data = takesOver (rows.map Node.data) n.data := by
  have hcand : (candidates rows n).map Node.data =
      ((rows.map Node.data).filter fun r => r.repoId == n.data.repoId && r.path == n.data.path &&
        r.symbol == n.data.symbol && r.kind == n.data.kind).insertionSort
          fun a b => a.lineStart ≤ b.lineStart := by
    rw [filter_map]
    exact map_insertionSort _ _ _ _ fun _ _ _ _ => Iff.rfl
  unfold existing takesOver
  rw [← hcand]
  dsimp only
  rw [find?_map, find?_map, Option.map_or]
  rfl

/-- The rows of a file without their ids, and whether their id is one of `ids`. -/
def marks (rows : List Node) (ids : List NodeId) (path : String) : List (NodeData × Bool) :=
  (rowsAt rows path).map fun n => (n.data, ids.contains n.id)

theorem marks_fst (rows : List Node) (ids : List NodeId) (path : String) :
    (marks rows ids path).map Prod.fst = (rowsAt rows path).map Node.data := by
  unfold marks
  rw [map_map]
  rfl

theorem candidates_rowsAt (rows : List Node) (n : Node) :
    candidates (rowsAt rows n.path) n = candidates rows n := by
  unfold candidates rowsAt
  rw [filter_filter]
  congr 1
  refine filter_congr fun r _ => ?_
  by_cases hs : sameSymbol r n = true
  · simp [hs, (sameSymbol_iff.mp hs).2.1]
  · simp [Bool.eq_false_iff.mpr hs]

theorem takesOver_marks (t : NodeTable) (n : Node) (ids : List NodeId) :
    takesOver ((marks t.rows ids n.path).map Prod.fst) n.data =
      (existing (candidates t.rows n) n).map Node.data := by
  rw [marks_fst, ← existing_data, candidates_rowsAt]

theorem freeFor_marks (t : NodeTable) (n : Node) (ids : List NodeId) :
    FreeFor (marks t.rows ids n.path) n.data ↔ Writable t n := by
  unfold FreeFor Writable
  rw [takesOver_marks]
  constructor
  · intro h r hr hk
    have hdata : r.data.naturalKey = n.data.naturalKey := hk
    have hpath : r.path = n.path := (symbol_of_naturalKey hdata).1
    obtain ⟨row, hex, hd⟩ := Option.map_eq_some_iff.mp
      (h _ (mem_map_of_mem (mem_rowsAt.mpr ⟨hr, hpath⟩)) hk)
    rw [hex, t.uk_inj (existing_mem hex).1 hr (Node.naturalKey_of_data hd)]
  · intro h x hx hk
    obtain ⟨r, hr, rfl⟩ := mem_map.mp hx
    rw [h r (mem_rowsAt.mp hr).1 hk]
    rfl

theorem rowsAt_takeOver {row : Node} (hrow : row ∈ t.rows) (hs : sameSymbol row n = true)
    (path : String) :
    rowsAt (t.rows.map fun r => if r.id = row.id then { n with id := row.id } else r) path =
      (rowsAt t.rows path).map fun r => if r.id = row.id then { n with id := row.id } else r := by
  refine rowsAt_map (fun r hr => ?_) path
  split
  · rename_i hid
    rw [t.pk_inj hr hrow hid]
    exact (sameSymbol_iff.mp hs).2.1.symm
  · rfl

theorem marks_update {row : Node} (ids : List NodeId) (hrow : row ∈ t.rows)
    (hs : sameSymbol row n = true)
    (hrows : t'.rows = t.rows.map fun r => if r.id = row.id then { n with id := row.id } else r) :
    marks t'.rows (ids ++ [row.id]) n.path = (marks t.rows ids n.path).map fun x =>
      if x.1.naturalKey = row.naturalKey then (n.data, true) else x := by
  unfold marks
  rw [hrows, rowsAt_takeOver hrow hs, map_map, map_map]
  refine map_congr_left fun r hr => ?_
  have hmem : r ∈ t.rows := (mem_rowsAt.mp hr).1
  simp only [Function.comp_apply]
  by_cases hid : r.id = row.id
  · obtain rfl := t.pk_inj hmem hrow hid
    rw [if_pos rfl, if_pos r.data_naturalKey]
    simp [Node.data]
  · have hkey : ¬ r.data.naturalKey = row.naturalKey := fun he =>
      hid (by rw [t.uk_inj hmem hrow he])
    rw [if_neg hid, if_neg hkey]
    simp [hid]

theorem marks_insert (ids : List NodeId) (hrows : t'.rows = t.rows ++ [{ n with id := t.nextId }]) :
    marks t'.rows (ids ++ [t.nextId]) n.path = marks t.rows ids n.path ++ [(n.data, true)] := by
  unfold marks rowsAt
  rw [hrows, filter_append, map_append, filter_cons_of_pos (by simp)]
  congr 1
  · refine map_congr_left fun r hr => ?_
    have hlt := t.pk_lt_nextId (mem_filter.mp hr).1
    have hne : r.id ≠ t.nextId := Nat.ne_of_lt hlt
    simp [hne]
  · simp [Node.data]

/-- **One node of `upsert_nodes`** is one `writeRow` on the rows of its file. -/
theorem upsertBatchNode_marks (t : NodeTable) (n : Node) (ids : List NodeId) :
    ((upsertBatchNode t n).toOption.map fun x => marks x.2.rows (ids ++ [x.1]) n.path) =
      writeRow (marks t.rows ids n.path) n.data := by
  unfold writeRow
  cases h : upsertBatchNode t n with
  | error e =>
    refine (if_neg fun hfree => ?_).symm
    obtain ⟨_, _, hok⟩ := exists_upsertBatchNode ((freeFor_marks t n ids).mp hfree)
    cases h.symm.trans hok
  | ok x =>
    obtain ⟨id, t'⟩ := x
    obtain ⟨hw, hrow⟩ := upsertBatchNode_ok h
    rw [if_pos ((freeFor_marks t n ids).mpr hw), writtenOver, takesOver_marks]
    rcases hrow with ⟨row, hrow, hex, hs, rfl, hrows⟩ | ⟨hex, rfl, hrows⟩
    · rw [hex]
      exact congrArg some (marks_update ids hrow hs hrows)
    · rw [hex]
      exact congrArg some (marks_insert ids hrows)

theorem upsertBatchNode_rowsAt {id : NodeId} (h : upsertBatchNode t n = .ok (id, t'))
    (hne : n.path ≠ path) : rowsAt t'.rows path = rowsAt t.rows path := by
  rcases (upsertBatchNode_ok h).2 with ⟨row, hrow, -, hs, rfl, hrows⟩ | ⟨-, rfl, hrows⟩
  · rw [hrows, rowsAt_takeOver hrow hs]
    refine (map_congr_left (g := id) fun r hr => ?_).trans (map_id _)
    -- the row that was taken over is not one of them
    obtain ⟨hr, hrp⟩ := mem_rowsAt.mp hr
    refine if_neg fun hid => hne ?_
    rw [← hrp, t.pk_inj hr hrow hid, (sameSymbol_iff.mp hs).2.1]
  · unfold rowsAt
    rw [hrows, filter_append, filter_cons_of_neg (by simpa using hne)]
    exact append_nil _

theorem upsertNodes_rowsAt (batch : List Node) (hb : ∀ n ∈ batch, n.path ≠ path) :
    ∀ {t t' : NodeTable} {ids : List NodeId}, upsertNodes t batch = .ok (ids, t') →
      rowsAt t'.rows path = rowsAt t.rows path := by
  induction batch with
  | nil =>
    intro t t' ids h
    cases h
    rfl
  | cons n batch ih =>
    intro t t' ids h
    obtain ⟨id, t₁, ids₁, h₁, h₂, rfl⟩ := upsertNodes_cons_ok h
    have hrest := ih (fun m hm => hb m (mem_cons_of_mem n hm)) h₂
    exact hrest.trans (upsertBatchNode_rowsAt h₁ (hb n mem_cons_self))

/-- **A batch of one file** is a sequence of `writeRow` on the rows of the file. -/
theorem upsertNodes_marks (batch : List Node) (hb : ∀ n ∈ batch, n.path = path) :
    ∀ (t : NodeTable) (ids : List NodeId),
    ((upsertNodes t batch).toOption.map fun x => marks x.2.rows (ids ++ x.1) path) =
      (batch.map Node.data).foldlM writeRow (marks t.rows ids path) := by
  induction batch with
  | nil =>
    simp [upsertNodes, Except.toOption]
  | cons n batch ih =>
    intro t ids
    have hn : n.path = path := hb n mem_cons_self
    have hstep := upsertBatchNode_marks t n ids
    rw [hn] at hstep
    rw [map_cons, foldlM_cons, ← hstep]
    cases h₁ : upsertBatchNode t n with
    | error e =>
      simp only [upsertNodes, h₁]
      rfl
    | ok x =>
      obtain ⟨id, t₁⟩ := x
      have hrest := ih (fun m hm => hb m (mem_cons_of_mem n hm)) t₁ (ids ++ [id])
      refine Eq.trans ?_ hrest
      simp only [upsertNodes, h₁]
      cases upsertNodes t₁ batch with
      | error e => rfl
      | ok y => simp [Except.toOption]

/-! ## A file written over itself

An `upsert_nodes` that succeeds on rows which have all the keys of the batch updates each row under
its own key, as `insert_fresh_nodes` would. -/

/-- The row under the key of `n` becomes `n`. -/
def replaceRow (n r : Node) : Node :=
  if r.naturalKey = n.naturalKey then { n with id := r.id } else r

theorem replaceRow_of_eq {r : Node} (h : r.naturalKey = n.naturalKey) :
    replaceRow n r = { n with id := r.id } := if_pos h

theorem replaceRow_of_ne {r : Node} (h : r.naturalKey ≠ n.naturalKey) : replaceRow n r = r :=
  if_neg h

@[simp] theorem replaceRow_naturalKey (n r : Node) : (replaceRow n r).naturalKey = r.naturalKey := by
  unfold replaceRow
  split
  · rename_i h
    exact h.symm
  · rfl

@[simp] theorem replaceRow_id (n r : Node) : (replaceRow n r).id = r.id := by
  unfold replaceRow
  split <;> rfl

theorem upsertBatchNode_replaces {id : NodeId} (hkey : n.naturalKey ∈ t.rows.map Node.naturalKey)
    (h : upsertBatchNode t n = .ok (id, t')) : t'.rows = t.rows.map (replaceRow n) ∧
      ∃ r ∈ t.rows, r.naturalKey = n.naturalKey ∧ r.id = id := by
  obtain ⟨r₀, hr₀, hk₀⟩ := mem_map.mp hkey
  obtain ⟨hw, ⟨row, hrow, hex, -, rfl, hrows⟩ | ⟨hex, -⟩⟩ := upsertBatchNode_ok h
  · obtain rfl : row = r₀ := Option.some.inj (hex.symm.trans (hw r₀ hr₀ hk₀))
    refine ⟨hrows.trans (map_congr_left fun r hr => ?_), row, hrow, hk₀, rfl⟩
    by_cases hid : r.id = row.id
    · obtain rfl := t.pk_inj hr hrow hid
      rw [if_pos rfl, replaceRow_of_eq hk₀]
    · have hk : r.naturalKey ≠ n.naturalKey :=
        fun hk => hid (congrArg Node.id (t.uk_inj hr hrow (hk.trans hk₀.symm)))
      rw [if_neg hid, replaceRow_of_ne hk]
  · cases hex.symm.trans (hw r₀ hr₀ hk₀)

theorem upsertNodes_replaces {batch : List Node} : ∀ {t t' : NodeTable} {ids : List NodeId},
    (∀ n ∈ batch, n.naturalKey ∈ t.rows.map Node.naturalKey) →
    upsertNodes t batch = .ok (ids, t') →
    t'.rows = t.rows.map (fun r => batch.foldl (fun r n => replaceRow n r) r) ∧
      ∀ r ∈ t.rows, r.naturalKey ∈ batch.map Node.naturalKey → r.id ∈ ids := by
  induction batch with
  | nil =>
    intro t t' ids _ h
    cases h
    exact ⟨(map_id _).symm, fun _ _ hk => by cases hk⟩
  | cons n batch ih =>
    intro t t' ids hkeys h
    obtain ⟨id, t₁, ids', hone, hrest, rfl⟩ := upsertNodes_cons_ok h
    obtain ⟨hrows, r₀, hr₀, hk₀, hid₀⟩ := upsertBatchNode_replaces (hkeys n mem_cons_self) hone
    have hkeys' : ∀ m ∈ batch, m.naturalKey ∈ t₁.rows.map Node.naturalKey := by
      intro m hm
      rw [hrows, map_map]
      have hsame : Node.naturalKey ∘ replaceRow n = Node.naturalKey :=
        funext fun r => replaceRow_naturalKey n r
      rw [hsame]
      exact hkeys m (mem_cons_of_mem _ hm)
    obtain ⟨hrows', hids'⟩ := ih hkeys' hrest
    refine ⟨?_, fun r hr hk => ?_⟩
    · rw [hrows', hrows, map_map]
      rfl
    · rw [map_cons, mem_cons] at hk
      rcases hk with hk | hk
      · obtain rfl := t.uk_inj hr hr₀ (hk.trans hk₀.symm)
        exact hid₀ ▸ mem_cons_self
      · have hmem : replaceRow n r ∈ t₁.rows := hrows ▸ mem_map_of_mem hr
        have := hids' (replaceRow n r) hmem (by rw [replaceRow_naturalKey]; exact hk)
        rw [replaceRow_id] at this
        exact mem_cons_of_mem _ this

theorem foldl_replaceRow (batch : List Node) (r : Node) :
    batch.foldl (fun r n => replaceRow n r) r =
      ((batch.filter fun n => n.naturalKey = r.naturalKey).getLast?).elim r
        fun n => { n with id := r.id } := by
  have hfold : ∀ (l : List Node) (r : Node),
      (l.foldl (fun r n => replaceRow n r) r).naturalKey = r.naturalKey ∧
        (l.foldl (fun r n => replaceRow n r) r).id = r.id := by
    intro l
    induction l with
    | nil => exact fun r => ⟨rfl, rfl⟩
    | cons n l ih =>
      intro r
      obtain ⟨hk, hid⟩ := ih (replaceRow n r)
      exact ⟨hk.trans (replaceRow_naturalKey n r), hid.trans (replaceRow_id n r)⟩
  induction batch using List.reverseRecOn with
  | nil => rfl
  | append_singleton batch n ih =>
    obtain ⟨hk, hid⟩ := hfold batch r
    rw [foldl_append, foldl_cons, foldl_nil, filter_append]
    by_cases hn : n.naturalKey = r.naturalKey
    · rw [filter_cons_of_pos (by simpa using hn), filter_nil, getLast?_concat]
      rw [replaceRow_of_eq (hk.trans hn.symm), hid]
      rfl
    · rw [filter_cons_of_neg (by simpa using hn), filter_nil, append_nil, ← ih]
      exact replaceRow_of_ne fun he => hn (he.symm.trans hk)

theorem last_of_mem_record {batch : List NodeData} (h : r ∈ batch.foldl record []) :
    (batch.filter fun d => d.naturalKey = r.naturalKey).getLast? = some r := by
  induction batch using List.reverseRecOn with
  | nil => cases h
  | append_singleton batch d ih =>
    rw [foldl_append, foldl_cons, foldl_nil] at h
    rw [filter_append]
    by_cases hk : d.naturalKey = r.naturalKey
    · have hr : r = d := by
        unfold record at h
        split at h
        · obtain ⟨r₀, -, rfl⟩ := mem_map.mp h
          split at hk
          · rename_i hk₀
            rw [if_pos hk₀]
          · rename_i hk₀
            exact absurd hk.symm hk₀
        · rename_i hnew
          rcases mem_append.mp h with h | h
          · exact absurd (mem_map.mpr ⟨r, h, hk.symm⟩) hnew
          · exact mem_singleton.mp h
      rw [filter_cons_of_pos (by simpa using hk), filter_nil, getLast?_concat, hr]
    · rw [filter_cons_of_neg (by simpa using hk), filter_nil, append_nil]
      rcases mem_of_mem_record h with h | rfl
      · exact ih h
      · exact absurd rfl hk

/-- **Rows that hold what the batch declares stay as they are.** -/
theorem upsertNodes_self {batch : List Node} {ids : List NodeId}
    (hkeys : ∀ n ∈ batch, n.naturalKey ∈ t.rows.map Node.naturalKey)
    (hself : ∀ r ∈ t.rows, r.naturalKey ∈ batch.map Node.naturalKey →
      r.data ∈ (freshNodes batch).rows.map Node.data) (h : upsertNodes t batch = .ok (ids, t')) :
    t' = t ∧ ∀ r ∈ t.rows, r.naturalKey ∈ batch.map Node.naturalKey → r.id ∈ ids := by
  obtain ⟨hrows, hids⟩ := upsertNodes_replaces hkeys h
  refine ⟨Table.ext (hrows.trans ((map_congr_left fun r hr => ?_).trans (map_id t.rows))), hids⟩
  rw [foldl_replaceRow]
  cases hlast : (batch.filter fun n => n.naturalKey = r.naturalKey).getLast? with
  | none => rfl
  | some n =>
    obtain ⟨hn, hk⟩ := mem_filter.mp (mem_of_getLast? hlast)
    have hk : n.naturalKey = r.naturalKey := by simpa using hk
    have hr' := hself r hr (mem_map.mpr ⟨n, hn, hk⟩)
    rw [freshNodes_data] at hr'
    have hdata := last_of_mem_record hr'
    rw [filter_map, getLast?_map] at hdata
    have hsame : ((fun d : NodeData => decide (d.naturalKey = r.data.naturalKey)) ∘ Node.data) =
        fun n => decide (n.naturalKey = r.naturalKey) := rfl
    rw [hsame, hlast, Option.map_some, Option.some.injEq] at hdata
    simp only [Node.data, NodeData.mk.injEq] at hdata
    simp_all

end SqliteStorage

end WeaveGraph
