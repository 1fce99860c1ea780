import WeaveGraph.Store.Rows
import WeaveGraph.Cli.Passes

/-!
# An edit of the tree and the nodes an incremental run makes of it

An `Edit` is two trees with the list of exactly the files that differ.  Both reindex paths write
the nodes of one file at a time, so the nodes of either can be compared file by file:

* a full run stores for each file what `insert_fresh_nodes` makes of its declarations
  (`codeNodes_rowsAt`);
* an incremental run leaves the rows of other files alone, and of a changed file it keeps the rows
  `upsert_nodes` wrote over the ones that were there (`upsertAllNodes_rowsAt`).
-/

namespace WeaveGraph.Indexer

open List Lib SqliteStorage

/-! ## Edits -/

def textAt (files : List SourceFile) (rel : String) : Option String :=
  (files.find? fun f => f.rel == rel).map SourceFile.source

/-- Two trees, and the paths of exactly the files added, edited or removed between them. -/
structure Edit where
  before : List SourceFile
  after : List SourceFile
  changed : List String
  before_nodup : (before.map SourceFile.rel).Nodup
  after_nodup : (after.map SourceFile.rel).Nodup
  exact : ∀ rel, rel ∈ changed ↔ textAt before rel ≠ textAt after rel

variable {files : List SourceFile} {rows rows' : List Node} {file : String × ParsedFile}

theorem textAt_eq_some (hnd : (files.map SourceFile.rel).Nodup) {rel source : String} :
    textAt files rel = some source ↔ ⟨rel, source⟩ ∈ files := by
  unfold textAt
  constructor
  · intro h
    obtain ⟨f, hf, rfl⟩ := Option.map_eq_some_iff.mp h
    have hrel : f.rel = rel := by simpa using find?_some hf
    rw [← hrel]
    exact mem_of_find?_eq_some hf
  · intro h
    cases hf : files.find? fun f => f.rel == rel with
    | none => simpa using find?_eq_none.mp hf _ h
    | some f =>
      have hrel : f.rel = rel := by simpa using find?_some hf
      have := inj_on_of_nodup_map hnd (mem_of_find?_eq_some hf) h hrel
      rw [this]
      rfl

theorem textAt_eq_none {rel : String} (h : rel ∉ files.map SourceFile.rel) :
    textAt files rel = none := by
  unfold textAt
  rw [Option.map_eq_none_iff, find?_eq_none]
  intro f hf
  have hne : f.rel ≠ rel := fun he => h (he ▸ mem_map_of_mem hf)
  simpa using hne

theorem exact_of_mem {before after : List SourceFile} {changed : List String}
    (h : ∀ rel ∈ changed ++ before.map SourceFile.rel ++ after.map SourceFile.rel,
      rel ∈ changed ↔ textAt before rel ≠ textAt after rel) (rel : String) :
    rel ∈ changed ↔ textAt before rel ≠ textAt after rel := by
  by_cases hm : rel ∈ changed ++ before.map SourceFile.rel ++ after.map SourceFile.rel
  · exact h rel hm
  · simp only [mem_append, not_or] at hm
    obtain ⟨⟨hc, hb⟩, ha⟩ := hm
    simp [hc, textAt_eq_none hb, textAt_eq_none ha]

/-! ## The files of a tree -/

section files

variable (ix : Indexer) {files : List SourceFile}

variable {rel : String} {parsed : ParsedFile}

theorem mem_parsedFiles : (rel, parsed) ∈ ix.parsedFiles files ↔
      ∃ source, ⟨rel, source⟩ ∈ files ∧ ix.parseFile ⟨rel, source⟩ = some parsed := by
  unfold parsedFiles
  rw [mem_filterMap]
  constructor
  · rintro ⟨f, hf, h⟩
    obtain ⟨p, hp, he⟩ := Option.map_eq_some_iff.mp h
    cases he
    exact ⟨f.source, hf, hp⟩
  · rintro ⟨source, hf, hp⟩
    exact ⟨_, hf, by rw [hp]; rfl⟩

theorem parsedFiles_nodup (hnd : (files.map SourceFile.rel).Nodup) :
    ((ix.parsedFiles files).map Prod.fst).Nodup := by
  have hsub : ((ix.parsedFiles files).map Prod.fst).Sublist (files.map SourceFile.rel) := by
    unfold parsedFiles
    induction files with
    | nil => exact List.Sublist.slnil
    | cons f files ih =>
      have ih := ih (nodup_cons.mp hnd).2
      rw [filterMap_cons, map_cons]
      cases ix.parseFile f with
      | none => exact ih.cons f.rel
      | some p => exact ih.cons_cons f.rel
  exact hsub.nodup hnd

def nodesAt (files : List SourceFile) (path : String) : List Node := rowsAt (ix.declared files) path

theorem path_of_mem_fileNodes {n : Node} (hn : n ∈ fileNodes rel parsed) :
    n.repoId = localRepo ∧ n.path = rel := by
  obtain ⟨symbol, -, rfl⟩ := mem_map.mp hn
  exact ⟨rfl, rfl⟩

theorem rowsAt_flatMap_eq_nil {l : List (String × ParsedFile)} (hl : rel ∉ l.map Prod.fst) :
    rowsAt (l.flatMap fun p => fileNodes p.1 p.2) rel = [] := by
  refine filter_eq_nil_iff.mpr fun n hn => ?_
  obtain ⟨p, hp, hn⟩ := mem_flatMap.mp hn
  have hne : n.path ≠ rel := fun he =>
    hl (mem_map.mpr ⟨p, hp, (path_of_mem_fileNodes hn).2.symm.trans he⟩)
  simpa using hne

theorem rowsAt_flatMap_fileNodes :
    ∀ {l : List (String × ParsedFile)}, (l.map Prod.fst).Nodup → (rel, parsed) ∈ l →
    rowsAt (l.flatMap fun p => fileNodes p.1 p.2) rel = fileNodes rel parsed := by
  intro l
  induction l with
  | nil => intro _ h; cases h
  | cons p l ih =>
    intro hnd h
    rw [map_cons, nodup_cons] at hnd
    have happ : rowsAt ((p :: l).flatMap fun p => fileNodes p.1 p.2) rel =
        rowsAt (fileNodes p.1 p.2) rel ++ rowsAt (l.flatMap fun p => fileNodes p.1 p.2) rel := by
      unfold rowsAt
      rw [flatMap_cons, filter_append]
    rw [happ]
    rcases mem_cons.mp h with rfl | h
    · have hself : rowsAt (fileNodes rel parsed) rel = fileNodes rel parsed :=
        filter_eq_self.mpr fun n hn => by simp [(path_of_mem_fileNodes hn).2]
      rw [hself, rowsAt_flatMap_eq_nil hnd.1, append_nil]
    · have hne : p.1 ≠ rel := fun he => hnd.1 (he ▸ mem_map_of_mem h)
      have hother : rowsAt (fileNodes p.1 p.2) rel = [] :=
        filter_eq_nil_iff.mpr fun n hn => by simpa [(path_of_mem_fileNodes hn).2] using hne
      rw [hother, ih hnd.2 h, nil_append]

theorem nodesAt_eq (hnd : (files.map SourceFile.rel).Nodup)
    (h : (rel, parsed) ∈ ix.parsedFiles files) : ix.nodesAt files rel = fileNodes rel parsed :=
  rowsAt_flatMap_fileNodes (ix.parsedFiles_nodup hnd) h

theorem nodesAt_eq_nil (h : rel ∉ (ix.parsedFiles files).map Prod.fst) :
    ix.nodesAt files rel = [] :=
  rowsAt_flatMap_eq_nil h

theorem codeNodes_rowsAt (files : List SourceFile) (rel : String) :
    (rowsAt (ix.codeNodes files).rows rel).map Node.data =
      (freshNodes (ix.nodesAt files rel)).rows.map Node.data :=
  freshNodes_rowsAt (ix.declared files) rel

theorem codeNodes_local {n : Node} (hn : n ∈ (ix.codeNodes files).rows) : n.repoId = localRepo := by
  obtain ⟨m, hm, hd⟩ := exists_of_mem_freshNodes hn
  obtain ⟨p, -, hm⟩ := mem_flatMap.mp hm
  simp only [Node.data, NodeData.mk.injEq] at hd
  rw [← hd.1]
  exact (path_of_mem_fileNodes hm).1

end files

section unchanged

variable (ix : Indexer) (e : Edit) {rel : String}

theorem Edit.textAt_unchanged (h : rel ∉ e.changed) : textAt e.before rel = textAt e.after rel := by
  by_contra hne
  exact h ((e.exact rel).mpr hne)

theorem Edit.parsed_unchanged (h : rel ∉ e.changed) {parsed : ParsedFile} :
    (rel, parsed) ∈ ix.parsedFiles e.before ↔ (rel, parsed) ∈ ix.parsedFiles e.after := by
  rw [mem_parsedFiles, mem_parsedFiles]
  refine exists_congr fun source => and_congr_left fun _ => ?_
  rw [← textAt_eq_some e.before_nodup, ← textAt_eq_some e.after_nodup, e.textAt_unchanged h]

theorem Edit.nodesAt_unchanged (h : rel ∉ e.changed) :
    ix.nodesAt e.before rel = ix.nodesAt e.after rel := by
  by_cases hp : rel ∈ (ix.parsedFiles e.after).map Prod.fst
  · obtain ⟨⟨_, parsed⟩, hmem, rfl⟩ := mem_map.mp hp
    rw [ix.nodesAt_eq e.after_nodup hmem,
      ix.nodesAt_eq e.before_nodup ((e.parsed_unchanged ix h).mpr hmem)]
  · have hb : rel ∉ (ix.parsedFiles e.before).map Prod.fst := by
      intro hm
      obtain ⟨⟨_, parsed⟩, hmem, rfl⟩ := mem_map.mp hm
      exact hp (mem_map_of_mem (f := Prod.fst) ((e.parsed_unchanged ix h).mp hmem))
    rw [ix.nodesAt_eq_nil hp, ix.nodesAt_eq_nil hb]

theorem Edit.codeNodes_unchanged (h : rel ∉ e.changed) :
    (rowsAt (ix.codeNodes e.before).rows rel).map Node.data =
      (rowsAt (ix.codeNodes e.after).rows rel).map Node.data := by
  rw [codeNodes_rowsAt, codeNodes_rowsAt, e.nodesAt_unchanged ix h]

end unchanged

/-! ## The node pass of an incremental run -/

/-- The rows of a file, written over by its new declarations; `none` when the batch fails. -/
def rewrite (rows : List Node) (file : String × ParsedFile) : Option (List (NodeData × Bool)) :=
  ((fileNodes file.1 file.2).map Node.data).foldlM writeRow (marks rows [] file.1)

theorem rewrite_congr (h : rowsAt rows file.1 = rowsAt rows' file.1) :
    rewrite rows file = rewrite rows' file := by
  unfold rewrite marks
  rw [h]

/-- The moniker of a row, ids aside. -/
def dataMoniker (d : NodeData) : String := buildMoniker d.path d.symbol

/-- The rows of every moniker are the same, in the same order. -/
def SameRows (rows rows' : List Node) : Prop :=
  SameGroups dataMoniker (rows.map Node.data) (rows'.map Node.data)

theorem SameRows.at (h : SameRows rows rows') (path : String) :
    SameRows (rowsAt rows path) (rowsAt rows' path) := by
  unfold SameRows
  rw [rowsAt_data, rowsAt_data]
  exact h.filter _

theorem rewrite_sameRows (h : SameRows rows rows') {out : List (NodeData × Bool)}
    (hw : rewrite rows file = some out) : ∃ out', rewrite rows' file = some out' ∧
      SameGroups dataMoniker (kept out) (kept out') := by
  have hmarks : ∀ rows : List Node, marks rows [] file.1 =
      ((rowsAt rows file.1).map Node.data).map fun d => (d, false) := by
    intro rows
    rw [map_map]
    rfl
  have hstart : SameGroups (fun x : NodeData × Bool => dataMoniker x.1)
      (marks rows [] file.1) (marks rows' [] file.1) := by
    rw [hmarks, hmarks]
    exact (h.at file.1).map fun _ _ => rfl
  have hkey : ∀ {d d' : NodeData}, d.path = d'.path → d.symbol = d'.symbol →
      dataMoniker d = dataMoniker d' := by
    intro d d' hpath hsymbol
    unfold dataMoniker
    rw [hpath, hsymbol]
  obtain ⟨out', hout', hsame⟩ := foldlM_writeRow_sameGroups hkey hstart hw
  exact ⟨out', hout', (hsame.filter Prod.snd).map fun _ _ => rfl⟩

def upsertFileNodes (x : SqliteStorage × List (String × NodeId)) (file : String × ParsedFile) :
    Except StorageError (SqliteStorage × List (String × NodeId)) := do
  let (nodeIds, nodes) ← upsertNodes x.1.nodes (fileNodes file.1 file.2)
  pure ({ x.1 with nodes := nodes }, x.2 ++ nodeIds.map fun id => (file.1, id))

theorem upsertAllNodes_eq (ix : Indexer) (files : List SourceFile) (s : SqliteStorage) :
    ix.upsertAllNodes files s = (ix.parsedFiles files).foldlM upsertFileNodes (s, []) :=
  parseFilesBounded_eq ix files _ (s, [])

section nodePass

variable {x y : SqliteStorage × List (String × NodeId)} {file : String × ParsedFile}

theorem upsertFileNodes_spec (h : upsertFileNodes x file = .ok y) :
    y.1 = { x.1 with nodes := y.1.nodes } ∧
    (∀ rel, rel ≠ file.1 → rowsAt y.1.nodes.rows rel = rowsAt x.1.nodes.rows rel ∧
      bucket rel y.2 = bucket rel x.2) ∧
    (bucket file.1 x.2 = [] →
      rewrite x.1.nodes.rows file = some (marks y.1.nodes.rows (bucket file.1 y.2) file.1)) := by
  obtain ⟨⟨ids, t⟩, hu, hy⟩ := bind_eq_ok.mp h
  cases hy
  have hpath : ∀ n ∈ fileNodes file.1 file.2, n.path = file.1 :=
    fun n hn => (path_of_mem_fileNodes hn).2
  have hself : bucket file.1 (ids.map fun id => (file.1, id)) = ids := by
    simp [bucket, filter_map, Function.comp_def]
  refine ⟨rfl, fun rel hrel => ⟨?_, ?_⟩, fun hnone => ?_⟩
  · exact upsertNodes_rowsAt _ (fun n hn => (hpath n hn).symm ▸ Ne.symm hrel) hu
  · simp [bucket, filter_map, Function.comp_def, Ne.symm hrel]
  · have hm := upsertNodes_marks _ hpath x.1.nodes []
    rw [hu] at hm
    unfold rewrite
    rw [← hm]
    have hb : bucket file.1 (x.2 ++ ids.map fun id => (file.1, id)) = ids := by
      unfold bucket at hself hnone ⊢
      rw [filter_append, map_append, hself, hnone, nil_append]
    simp [Except.toOption, hb]

end nodePass

/-- What the pass has made of the files `l`, from `x` to `y`. -/
structure NodesWritten (l : List (String × ParsedFile))
    (x y : SqliteStorage × List (String × NodeId)) : Prop where
  frame : y.1 = { x.1 with nodes := y.1.nodes }
  other : ∀ rel, rel ∉ l.map Prod.fst → rowsAt y.1.nodes.rows rel = rowsAt x.1.nodes.rows rel ∧
    bucket rel y.2 = bucket rel x.2
  written : ∀ file ∈ l, rewrite x.1.nodes.rows file =
    some (marks y.1.nodes.rows (bucket file.1 y.2) file.1)

theorem nodesWritten_foldlM : ∀ {l : List (String × ParsedFile)}, (l.map Prod.fst).Nodup →
    ∀ {x y : SqliteStorage × List (String × NodeId)},
    (∀ file ∈ l, bucket file.1 x.2 = []) → l.foldlM upsertFileNodes x = .ok y →
      NodesWritten l x y := by
  intro l
  induction l with
  | nil =>
    intro _ x y _ h
    cases h
    exact ⟨rfl, fun _ _ => ⟨rfl, rfl⟩, fun _ hf => by cases hf⟩
  | cons file l ih =>
    intro hnd x y hids h
    rw [map_cons, nodup_cons] at hnd
    obtain ⟨z, hz, h⟩ := bind_eq_ok.mp h
    obtain ⟨hframe, hother, hfile⟩ := upsertFileNodes_spec hz
    have hne : ∀ f ∈ l, f.1 ≠ file.1 := fun f hf he => hnd.1 (he ▸ mem_map_of_mem hf)
    have hrest : NodesWritten l z y := by
      refine ih hnd.2 (fun f hf => ?_) h
      rw [(hother f.1 (hne f hf)).2]
      exact hids f (mem_cons_of_mem _ hf)
    refine ⟨?_, fun rel hrel => ?_, fun f hf => ?_⟩
    · rw [hrest.frame, hframe]
    · rw [map_cons, mem_cons, not_or] at hrel
      have h₁ := hrest.other rel hrel.2
      have h₂ := hother rel hrel.1
      exact ⟨h₁.1.trans h₂.1, h₁.2.trans h₂.2⟩
    · rcases mem_cons.mp hf with rfl | hf
      · have hlast := hrest.other f.1 hnd.1
        have hrow := hfile (hids f mem_cons_self)
        unfold marks at hrow ⊢
        rw [hlast.1, hlast.2]
        exact hrow
      · rw [← hrest.written f hf]
        exact rewrite_congr (hother f.1 (hne f hf)).1.symm

theorem parsedFiles_filter (ix : Indexer) (p : String → Bool) (files : List SourceFile) :
    ix.parsedFiles (files.filter fun f => p f.rel) =
      (ix.parsedFiles files).filter fun file => p file.1 := by
  unfold parsedFiles
  induction files with
  | nil => rfl
  | cons f files ih =>
    rw [filterMap_cons]
    cases hp : p f.rel with
    | false =>
      rw [filter_cons_of_neg (by simp [hp]), ih]
      cases ix.parseFile f with
      | none => rfl
      | some parsed =>
        dsimp only [Option.map_some]
        rw [filter_cons_of_neg (by simp [hp])]
    | true =>
      rw [filter_cons_of_pos (by simp [hp]), filterMap_cons, ih]
      cases ix.parseFile f with
      | none => rfl
      | some parsed =>
        dsimp only [Option.map_some]
        rw [filter_cons_of_pos (by simp [hp])]

def Edit.changedFiles (ix : Indexer) (e : Edit) : List (String × ParsedFile) :=
  (ix.parsedFiles e.after).filter fun file => e.changed.contains file.1

theorem Edit.mem_changedFiles {ix : Indexer} {e : Edit} :
    file ∈ e.changedFiles ix ↔ file ∈ ix.parsedFiles e.after ∧ file.1 ∈ e.changed := by
  simp [Edit.changedFiles]

theorem Edit.changedFiles_nodup (ix : Indexer) (e : Edit) :
    ((e.changedFiles ix).map Prod.fst).Nodup :=
  (filter_sublist.map Prod.fst).nodup (ix.parsedFiles_nodup e.after_nodup)

/-- The nodes an incremental run makes of the rows `old`, file by file. -/
structure Staged (ix : Indexer) (e : Edit) (old nodes : List Node) : Prop where
  unchanged : ∀ rel, rel ∉ e.changed → rowsAt nodes rel = rowsAt old rel
  removed : ∀ rel ∈ e.changed, rel ∉ (ix.parsedFiles e.after).map Prod.fst → rowsAt nodes rel = []
  rewritten : ∀ file ∈ e.changedFiles ix, ∃ rows, rewrite old file = some rows ∧
    (rowsAt nodes file.1).map Node.data = kept rows

section staged

variable {ix : Indexer} {e : Edit} {s : SqliteStorage} {y : SqliteStorage × List (String × NodeId)}

theorem forall_rewrite {P : NodeData → Prop} {rows : List Node} {file : String × ParsedFile}
    {rows' : List (NodeData × Bool)} (hrows : ∀ n ∈ rows, P n.data)
    (hnew : ∀ n ∈ fileNodes file.1 file.2, P n.data) (h : rewrite rows file = some rows') :
    ∀ x ∈ rows', P x.1 := by
  have hbatch : ∀ d ∈ (fileNodes file.1 file.2).map Node.data, P d := by
    intro d hd
    obtain ⟨n, hn, rfl⟩ := mem_map.mp hd
    exact hnew n hn
  have hstart : ∀ x ∈ marks rows [] file.1, P x.1 := by
    intro x hx
    obtain ⟨n, hn, rfl⟩ := mem_map.mp hx
    exact hrows n (mem_rowsAt.mp hn).1
  unfold rewrite at h
  generalize (fileNodes file.1 file.2).map Node.data = batch at h hbatch
  generalize marks rows [] file.1 = start at h hstart
  induction batch generalizing start with
  | nil =>
    cases h
    exact hstart
  | cons d batch ih =>
    obtain ⟨mid, hmid, h⟩ := Option.bind_eq_some_iff.mp h
    refine ih (fun d' hd' => hbatch d' (mem_cons_of_mem d hd')) mid h fun x hx => ?_
    rcases mem_of_mem_writtenOver ((writeRow_eq_some.mp hmid).2 ▸ hx) with hx | rfl
    · exact hstart x hx
    · exact hbatch d mem_cons_self

/-- What holds of the old rows and of the new declarations holds of the rows of the run. -/
theorem Staged.forall_row {P : NodeData → Prop} {old nodes : List Node}
    (hst : Staged ix e old nodes) (hold : ∀ n ∈ old, P n.data)
    (hnew : ∀ n ∈ ix.declared e.after, P n.data) : ∀ n ∈ nodes, P n.data := by
  intro n hn
  have hat : n ∈ rowsAt nodes n.path := mem_rowsAt.mpr ⟨hn, rfl⟩
  by_cases hc : n.path ∈ e.changed
  · by_cases hp : n.path ∈ (ix.parsedFiles e.after).map Prod.fst
    · obtain ⟨file, hf, hpath⟩ := mem_map.mp hp
      obtain ⟨rows, hrw, hdata⟩ := hst.rewritten file (Edit.mem_changedFiles.mpr ⟨hf, hpath ▸ hc⟩)
      have hmem : n.data ∈ (rowsAt nodes file.1).map Node.data :=
        mem_map_of_mem (hpath ▸ hat)
      rw [hdata] at hmem
      obtain ⟨x, hx, hxd⟩ := mem_map.mp hmem
      rw [← hxd]
      refine forall_rewrite hold (fun m hm => ?_) hrw x (mem_filter.mp hx).1
      exact hnew m (mem_flatMap.mpr ⟨file, hf, hm⟩)
    · rw [hst.removed _ hc hp] at hat
      cases hat
  · rw [hst.unchanged _ hc] at hat
    exact hold n (mem_rowsAt.mp hat).1

theorem staged_of_foldlM (hlocal : ∀ n ∈ s.nodes.rows, n.repoId = localRepo)
    (h : (e.changedFiles ix).foldlM upsertFileNodes (purgeChanged s e.changed, []) = .ok y) :
    Staged ix e s.nodes.rows (purgeStaleNodes y.1 e.changed y.2).nodes.rows := by
  have hw := nodesWritten_foldlM (e.changedFiles_nodup ix) (fun _ _ => rfl) h
  have hnodes : (purgeChanged s e.changed).nodes = s.nodes := (purgeChanged_eq e.changed s).1
  have hrows := (purgeStaleNodes_eq e.changed y.2 y.1).1
  have hat : ∀ rel, rowsAt (purgeStaleNodes y.1 e.changed y.2).nodes.rows rel =
      (rowsAt y.1.nodes.rows rel).filter fun n => !(n.repoId == localRepo &&
        e.changed.contains n.path && !(bucket n.path y.2).contains n.id) := by
    intro rel
    unfold rowsAt
    rw [hrows, filter_filter, filter_filter]
    exact filter_congr fun n _ => Bool.and_comm _ _
  have hother : ∀ rel, rel ∉ (e.changedFiles ix).map Prod.fst →
      rowsAt y.1.nodes.rows rel = rowsAt s.nodes.rows rel ∧ bucket rel y.2 = [] := by
    intro rel hrel
    have := hw.other rel hrel
    rw [hnodes] at this
    exact this
  refine ⟨fun rel hrel => ?_, fun rel hrel hno => ?_, fun file hfile => ?_⟩
  · have hno : rel ∉ (e.changedFiles ix).map Prod.fst := by
      intro hm
      obtain ⟨file, hfile, rfl⟩ := mem_map.mp hm
      exact hrel (Edit.mem_changedFiles.mp hfile).2
    rw [hat, (hother rel hno).1]
    refine filter_eq_self.mpr fun n hn => ?_
    simp [(mem_rowsAt.mp hn).2, hrel]
  · have hno' : rel ∉ (e.changedFiles ix).map Prod.fst := by
      intro hm
      obtain ⟨file, hfile, rfl⟩ := mem_map.mp hm
      exact hno (mem_map_of_mem (Edit.mem_changedFiles.mp hfile).1)
    rw [hat, (hother rel hno').1]
    refine filter_eq_nil_iff.mpr fun n hn => ?_
    obtain ⟨hn, hpath⟩ := mem_rowsAt.mp hn
    simp [hlocal n hn, hpath, hrel, (hother rel hno').2]
  · have hwritten := hw.written file hfile
    rw [hnodes] at hwritten
    refine ⟨_, hwritten, ?_⟩
    have hkept := forall_rewrite (P := fun d => d.repoId = localRepo) hlocal
      (fun n hn => (path_of_mem_fileNodes hn).1) hwritten
    have hchanged := (Edit.mem_changedFiles.mp hfile).2
    rw [hat, kept, marks, filter_map, map_map]
    refine congrArg (List.map Node.data) (filter_congr fun n hn => ?_)
    have hn' : n.repoId = localRepo := hkept _ (mem_map_of_mem hn)
    simp [hn', (mem_rowsAt.mp hn).2, hchanged]

end staged

end WeaveGraph.Indexer
