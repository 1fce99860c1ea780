import WeaveGraph.Store.Absorbs
import WeaveGraph.Cli.Edit
import WeaveGraph.Cli.Links

/-!
# When an edit leaves nothing open

An incremental run resolves the references of the changed files again, and those of the files it
finds affected.  `Edit.Settled` says for which edits that is enough: the rows of every changed file
take in its new declarations, and no reference of an unchanged file is left with what it resolved to
before.

For a name `x`, `kept`, `dropped` and `added` are its declarations in the files that did not change,
in the changed files before, and in the changed files after.  The candidates of a reference are
`was`, the kept and the dropped ones, before the edit and `now`, the kept and the added ones, after
it.
-/

namespace WeaveGraph.Indexer

open List Lib SqliteStorage

/-- The last row under a moniker, over rows without ids. -/
def lastIn (rows : List NodeData) (m : String) : Option NodeData :=
  (rows.filter fun d => dataMoniker d == m).getLast?

/-! ## The condition -/

namespace Edit

section owners

variable (ix : Indexer) (e : Edit)

/-- The monikers of both trees with their files. -/
def owners : List (String × String) := ix.owners e.before ++ ix.owners e.after

/-- No two files form the same moniker. -/
def Apart : Prop := OneFileEach (e.owners ix)
deriving Decidable

/-- The file of a moniker. -/
def homeOf (m : String) : String := home (e.owners ix) m

end owners

section names

variable (ix : Indexer) (e : Edit) (x : String)

/-- The declarations of the name in unchanged files. -/
def kept : List String :=
  bucket x (nodeDecls ((ix.codeNodes e.before).rows.filter fun n => !e.changed.contains n.path))

/-- Its declarations in changed files before the edit. -/
def dropped : List String :=
  bucket x (nodeDecls ((ix.codeNodes e.before).rows.filter fun n => e.changed.contains n.path))

/-- Its declarations in changed files after the edit. -/
def added : List String :=
  bucket x (nodeDecls ((ix.codeNodes e.after).rows.filter fun n => e.changed.contains n.path))

/-- The candidates for the name before the edit. -/
def was : List String := e.kept ix x ++ e.dropped ix x

/-- The candidates for the name after the edit. -/
def now : List String := e.kept ix x ++ e.added ix x

end names

section refs

variable (ix : Indexer) (e : Edit)

/-- The source of a reference is a node; code outside every symbol is not. -/
def Sourced (r : Ref) : Prop := r.source ∈ (ix.codeNodes e.before).rows.map Node.moniker
deriving Decidable

/-- An incremental run finds the unchanged file affected: one of its references has an edge into a
changed file, or a name nothing declared that a changed file now declares. -/
def Reopened (parsed : ParsedFile) : Prop :=
  ∃ r ∈ parsed.refs, (e.Sourced ix r ∧ ∃ m ∈ e.dropped ix r.name, r.Reaches (e.was ix r.name) m) ∨
    (e.was ix r.name = [] ∧ e.added ix r.name ≠ [])
deriving Decidable

/-- What the reference newly reaches in a changed file it is only linked to if the file is resolved
again. -/
def Gains (parsed : ParsedFile) (r : Ref) : Prop :=
  e.Sourced ix r → (∃ m ∈ e.added ix r.name, r.Reaches (e.now ix r.name) m) → e.Reopened ix parsed
deriving Decidable

/-- What the reference reached in unchanged files it stays linked to, with an edge of the same kind:
so it has to reach it still, or another reference of this source and name has to. -/
def Stays (parsed : ParsedFile) (r : Ref) : Prop :=
  e.Sourced ix r → ∀ m ∈ e.kept ix r.name, r.Reaches (e.was ix r.name) m →
    ∃ r' ∈ parsed.refs, r'.source = r.source ∧ r'.name = r.name ∧ r'.Reaches (e.now ix r.name) m ∧
      (r'.verdict (e.now ix r.name)).kind = (r.verdict (e.was ix r.name)).kind
deriving Decidable

/-- A reference without a source node that loses its last declaration has no edge that would make
the file affected. -/
def Outside (parsed : ParsedFile) (r : Ref) : Prop :=
  ¬ e.Sourced ix r → e.was ix r.name ≠ [] → e.now ix r.name = [] → e.Reopened ix parsed
deriving Decidable

/-- The edit does not leave the reference of an unchanged file open. -/
structure RefSettled (parsed : ParsedFile) (r : Ref) : Prop where
  gains : e.Gains ix parsed r
  stays : e.Stays ix parsed r
  outside : e.Outside ix parsed r

def linkEnds : List String :=
  ((ix.parsedFiles e.after).flatMap fun p => fileLinks (ix.codeNodes e.after).rows p.2).flatMap
    fun l => [l.source, l.target]

/-- The rows the file had take in what it declares now; `P` compares them with the declarations,
each symbol and line counted once. -/
def RowsTaken (P : List NodeData → List NodeData → Prop) (file : String × ParsedFile) : Prop :=
  Absorbs (fun rows => P rows (((fileNodes file.1 file.2).map Node.data).foldl record []))
    (((freshNodes (ix.nodesAt e.before file.1)).rows.map Node.data).map fun d => (d, false))
    ((fileNodes file.1 file.2).map Node.data)

/-- For every moniker at the end of a link the last row is that of the last declaration. -/
def RowsKept : String × ParsedFile → Prop :=
  e.RowsTaken ix fun rows declared => ∀ m ∈ e.linkEnds ix, lastIn rows m = lastIn declared m

/-- The rows of each moniker are in the order of the declarations. -/
def RowsInOrder : String × ParsedFile → Prop := e.RowsTaken ix (SameGroups dataMoniker)

/-- The edit leaves nothing open. -/
structure Settled : Prop where
  apart : e.Apart ix
  rows : ∀ file ∈ e.changedFiles ix, e.RowsKept ix file
  refs : ∀ file ∈ ix.parsedFiles e.after, file.1 ∉ e.changed →
    ∀ r ∈ file.2.refs, e.RefSettled ix file.2 r

/-- The edit leaves nothing open, and nothing a later edit could stumble over. -/
structure SettledInOrder : Prop where
  apart : e.Apart ix
  rows : ∀ file ∈ e.changedFiles ix, e.RowsInOrder ix file
  refs : ∀ file ∈ ix.parsedFiles e.after, file.1 ∉ e.changed →
    ∀ r ∈ file.2.refs, e.RefSettled ix file.2 r

end refs

section decidable

variable (ix : Indexer) (e : Edit)

instance (parsed : ParsedFile) (r : Ref) : Decidable (e.RefSettled ix parsed r) :=
  decidable_of_iff (_ ∧ _ ∧ _) ⟨fun h => ⟨h.1, h.2.1, h.2.2⟩, fun h => ⟨h.gains, h.stays, h.outside⟩⟩

instance (file : String × ParsedFile) : Decidable (e.RowsKept ix file) := by
  unfold RowsKept RowsTaken
  infer_instance

instance : Decidable (e.Settled ix) :=
  decidable_of_iff (_ ∧ _ ∧ _) ⟨fun h => ⟨h.1, h.2.1, h.2.2⟩, fun h => ⟨h.apart, h.rows, h.refs⟩⟩

instance (file : String × ParsedFile) : Decidable (e.RowsInOrder ix file) := by
  unfold RowsInOrder RowsTaken
  infer_instance

instance : Decidable (e.SettledInOrder ix) :=
  decidable_of_iff (_ ∧ _ ∧ _) ⟨fun h => ⟨h.1, h.2.1, h.2.2⟩, fun h => ⟨h.apart, h.rows, h.refs⟩⟩

end decidable

/-! ## The files of an edit -/

section files

variable {ix : Indexer} {e : Edit} {file : String × ParsedFile}

theorem owned_before : ∀ n ∈ (ix.codeNodes e.before).rows, owner n ∈ e.owners ix :=
  fun n hn => mem_append_left _ (owned_row n hn)

theorem owned_after : ∀ n ∈ (ix.codeNodes e.after).rows, owner n ∈ e.owners ix :=
  fun n hn => mem_append_right _ (owned_row n hn)

section

variable (h : e.Apart ix)

include h

theorem home_source (hf : file ∈ ix.parsedFiles e.after) {r : Ref} (hr : r ∈ file.2.refs) :
    e.homeOf ix r.source = file.1 :=
  home_eq h (mem_append_right _ (owned_source hf hr))

theorem home_link (hf : file ∈ ix.parsedFiles e.after) {nodes : List Node} {l : Link}
    (hl : l ∈ fileLinks nodes file.2) : e.homeOf ix l.source = file.1 := by
  obtain ⟨r, hr, -, hlink⟩ := mem_fileLinks.mp hl
  rw [(Ref.mem_links.mp hlink).1]
  exact home_source h hf hr

theorem home_link_before (hf : file ∈ ix.parsedFiles e.before) {nodes : List Node} {l : Link}
    (hl : l ∈ fileLinks nodes file.2) : e.homeOf ix l.source = file.1 := by
  obtain ⟨r, hr, -, hlink⟩ := mem_fileLinks.mp hl
  rw [(Ref.mem_links.mp hlink).1]
  exact home_eq h (mem_append_left _ (owned_source hf hr))

end

end files

/-! ## Candidates before and after -/

section candidates

variable {ix : Indexer} {e : Edit}

theorem data_nodup (t : NodeTable) : (t.rows.map Node.data).Nodup := by
  have h : ((t.rows.map Node.data).map NodeData.naturalKey).Nodup := by
    rw [map_map]
    exact t.unique
  exact h.of_map _

theorem nodeDecls_perm {nodes nodes' : List Node}
    (h : (nodes.map Node.data).Perm (nodes'.map Node.data)) :
    (nodeDecls nodes).Perm (nodeDecls nodes') := by
  have hmap : ∀ l : List Node, nodeDecls l =
      (l.map Node.data).map fun d => (shortName d.symbol, buildMoniker d.path d.symbol) := by
    intro l
    rw [map_map]
    rfl
  rw [hmap, hmap]
  exact h.map _

theorem bucket_perm {κ ν : Type} [DecidableEq κ] (k : κ) {l l' : List (κ × ν)} (h : l.Perm l') :
    (bucket k l).Perm (bucket k l') :=
  (h.filter _).map _

theorem unchanged_perm :
    (((ix.codeNodes e.before).rows.filter fun n => !e.changed.contains n.path).map Node.data).Perm
      (((ix.codeNodes e.after).rows.filter fun n => !e.changed.contains n.path).map Node.data) := by
  have hnd : ∀ t : NodeTable,
      ((t.rows.filter fun n => !e.changed.contains n.path).map Node.data).Nodup :=
    fun t => (filter_sublist.map Node.data).nodup (data_nodup t)
  have hmem : ∀ (t : NodeTable) (d : NodeData),
      d ∈ (t.rows.filter fun n => !e.changed.contains n.path).map Node.data ↔
        d.path ∉ e.changed ∧ d ∈ (rowsAt t.rows d.path).map Node.data := by
    intro t d
    simp only [mem_map, mem_filter, mem_rowsAt]
    constructor
    · rintro ⟨n, ⟨hn, hc⟩, rfl⟩
      have hc : n.path ∉ e.changed := by simpa using hc
      exact ⟨hc, n, ⟨hn, rfl⟩, rfl⟩
    · rintro ⟨hc, n, ⟨hn, -⟩, rfl⟩
      have hc : n.path ∉ e.changed := hc
      exact ⟨n, ⟨hn, by simpa using hc⟩, rfl⟩
  refine (perm_ext_iff_of_nodup (hnd _) (hnd _)).mpr fun d => ?_
  rw [hmem, hmem]
  refine and_congr_right fun hc => ?_
  rw [e.codeNodes_unchanged ix hc]

theorem split_changed (nodes : List Node) (x : String) :
    (bucket x (nodeDecls nodes)).Perm
      (bucket x (nodeDecls (nodes.filter fun n => !e.changed.contains n.path)) ++
        bucket x (nodeDecls (nodes.filter fun n => e.changed.contains n.path))) := by
  have hsplit : nodes.Perm ((nodes.filter fun n => !e.changed.contains n.path) ++
      nodes.filter fun n => e.changed.contains n.path) := by
    have h := filter_append_perm (fun n : Node => !e.changed.contains n.path) nodes
    simp only [Bool.not_not] at h
    exact h.symm
  refine (bucket_perm x (hsplit.map _)).trans (List.Perm.of_eq ?_)
  simp only [bucket, nodeDecls, map_append, filter_append]

theorem candidates_before (x : String) :
    (bucket x (nodeDecls (ix.codeNodes e.before).rows)).Perm (e.was ix x) :=
  split_changed _ x

theorem candidates_after (x : String) :
    (bucket x (nodeDecls (ix.codeNodes e.after).rows)).Perm (e.now ix x) :=
  (split_changed _ x).trans ((bucket_perm x (nodeDecls_perm unchanged_perm.symm)).append_right _)

theorem home_candidate (h : e.Apart ix) {rows : List Node}
    (hrows : ∀ n ∈ rows, owner n ∈ e.owners ix) {keep : Node → Bool} {x m : String}
    (hm : m ∈ bucket x (nodeDecls (rows.filter keep))) :
    ∃ n ∈ rows, keep n = true ∧ e.homeOf ix m = n.path := by
  obtain ⟨n, hn, -, rfl⟩ := mem_candidates_iff.mp hm
  obtain ⟨hn, hkeep⟩ := mem_filter.mp hn
  exact ⟨n, hn, hkeep, home_eq h (hrows n hn)⟩

section

variable (h : e.Apart ix) {x m : String}

include h

theorem home_kept (hm : m ∈ e.kept ix x) : e.homeOf ix m ∉ e.changed := by
  obtain ⟨n, -, hkeep, hpath⟩ := home_candidate h owned_before hm
  rw [hpath]
  simpa using hkeep

theorem home_dropped (hm : m ∈ e.dropped ix x) : e.homeOf ix m ∈ e.changed := by
  obtain ⟨n, -, hkeep, hpath⟩ := home_candidate h owned_before hm
  rw [hpath]
  simpa using hkeep

theorem home_added (hm : m ∈ e.added ix x) : e.homeOf ix m ∈ e.changed := by
  obtain ⟨n, -, hkeep, hpath⟩ := home_candidate h owned_after hm
  rw [hpath]
  simpa using hkeep

theorem moniker_unchanged (hm : e.homeOf ix m ∉ e.changed) :
    m ∈ (ix.codeNodes e.before).rows.map Node.moniker ↔
      m ∈ (ix.codeNodes e.after).rows.map Node.moniker := by
  have hat : ∀ t : NodeTable, (∀ n ∈ t.rows, owner n ∈ e.owners ix) →
      (m ∈ t.rows.map Node.moniker ↔ ∃ d ∈ (rowsAt t.rows (e.homeOf ix m)).map Node.data,
        buildMoniker d.path d.symbol = m) := by
    intro t ht
    simp only [mem_map, mem_rowsAt]
    constructor
    · rintro ⟨n, hn, rfl⟩
      exact ⟨n.data, ⟨n, ⟨hn, (home_eq h (ht n hn)).symm⟩, rfl⟩, rfl⟩
    · rintro ⟨_, ⟨n, ⟨hn, -⟩, rfl⟩, he⟩
      exact ⟨n, hn, he⟩
  rw [hat _ owned_before, hat _ owned_after, e.codeNodes_unchanged ix hm]

end

end candidates

end Edit

end WeaveGraph.Indexer
