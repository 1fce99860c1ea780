import Mathlib.Data.List.Perm.Basic
import WeaveGraph.Parse.Links

/-!
# The order of files

`addFile` enters the symbols of a file into the index and `resolve` turns the references of a file
into edges between monikers.  Numbers depend on the order in which files come, and so does the
order of the candidates of a name; what a reference resolves to depends on the candidates as a
multiset only.

    files ~ files'  →  (index files).resolve f ~ (index files').resolve f     (resolve_perm)
-/

namespace WeaveGraph

open List Lib

namespace ProjectIndex

def addFile (p : ProjectIndex) (file : ParsedFile) : ProjectIndex :=
  file.symbols.foldl (fun p symbol => (p.addSymbol symbol.moniker (shortName symbol.symbol)).2) p

/-- The index of some files, added one after the other. -/
def ofFiles (files : List ParsedFile) : ProjectIndex := files.foldl addFile new

def resolvedEdge (p : ProjectIndex) (edge : ResolvedEdgeIds) : ResolvedEdge :=
  ⟨p.resolveId edge.sourceId, p.resolveId edge.targetId, edge.kind, edge.resolutionKind,
    edge.extractor⟩

def resolve (langExtended : Bool) (p : ProjectIndex) (file : ParsedFile) :
    List ResolvedEdge × List String :=
  let (ids, unresolved) := p.resolveIds langExtended file
  (ids.map p.resolvedEdge, unresolved)

end ProjectIndex

/-! ## What an index is built from -/

def ParsedFile.decls (file : ParsedFile) : List (String × String) :=
  file.symbols.map fun symbol => (shortName symbol.symbol, symbol.moniker)

namespace ProjectIndex

/-- The index was built from these pairs, and knows no other text. -/
structure Enters (p : ProjectIndex) (decls : List (String × String)) : Prop where
  declares : p.Declares decls
  names : ∀ m, m ∈ p.interner.names ↔ ∃ d ∈ decls, m = d.1 ∨ m = d.2

theorem enters_new : Enters new [] where
  declares := declares_new
  names := by
    simp [new, Interner.empty]

variable {p : ProjectIndex}

theorem Enters.addSymbol {decls : List (String × String)} (h : p.Enters decls) (moniker x : String)
    : (p.addSymbol moniker x).2.Enters (decls ++ [(x, moniker)]) where
  declares := declares_addSymbol h.declares moniker x
  names := by
    intro m
    have : m ∈ (p.addSymbol moniker x).2.interner.names ↔
        (m ∈ p.interner.names ∨ m = x) ∨ m = moniker := by
      rw [← Interner.mem_names_intern, ← Interner.mem_names_intern]
      rfl
    rw [this, h.names m]
    simp [or_assoc, or_and_right, exists_or]

theorem Enters.addFile {decls : List (String × String)} (h : p.Enters decls) (file : ParsedFile) :
    (p.addFile file).Enters (decls ++ file.decls) := by
  unfold ProjectIndex.addFile ParsedFile.decls
  induction file.symbols generalizing p decls with
  | nil => simpa using h
  | cons symbol rest ih =>
    have := ih (h.addSymbol symbol.moniker (shortName symbol.symbol))
    rwa [append_assoc] at this

theorem enters_ofFiles (files : List ParsedFile) :
    (ofFiles files).Enters (files.flatMap ParsedFile.decls) := by
  have h : ∀ (p : ProjectIndex) (decls : List (String × String)), p.Enters decls →
      (files.foldl ProjectIndex.addFile p).Enters (decls ++ files.flatMap ParsedFile.decls) := by
    induction files with
    | nil =>
      intro p decls h
      simpa using h
    | cons file rest ih =>
      intro p decls h
      have := ih _ _ (h.addFile file)
      rwa [append_assoc] at this
  exact h new [] enters_new

/-! ## The edges of a file -/

section edges

variable {p : ProjectIndex} {decls : List (String × String)}

theorem resolveId_of_getId {m : String} {i : Nat} (h : p.interner.getId m = some i) :
    p.resolveId i = m := by
  rw [resolveId, Interner.getId_eq_some.mp h, Option.getD_some]

theorem getId_of_mem_bucket (h : p.Declares decls) {x m : String}
    (hm : m ∈ bucket x decls) : ∃ i, p.interner.getId m = some i := by
  rw [← candidates_resolveId h, mem_map] at hm
  obtain ⟨i, hi, rfl⟩ := hm
  have hres := candidates_resolve h x
  obtain ⟨m', -, hm'⟩ := mem_map.mp (hres ▸ mem_map_of_mem hi)
  refine ⟨i, Interner.getId_eq_some.mpr ?_⟩
  rw [resolveId, ← hm', Option.getD_some]

def refEdge (langExtended : Bool) (r : Ref) (t : String × String × ResolutionKind) : ResolvedEdge :=
  ⟨r.source, t.1, t.2.1, t.2.2, extractorOf langExtended r.source⟩

def refEdges (langExtended : Bool) (p : ProjectIndex) (decls : List (String × String)) (r : Ref) :
    List ResolvedEdge :=
  if (p.interner.getId r.source).isSome then
    (r.targets (bucket r.name decls)).map (refEdge langExtended r)
  else []

section

variable (h : p.Declares decls) (langExtended : Bool)

include h

theorem callEdges_map (c : RawCall) :
    (p.callEdges langExtended c).map p.resolvedEdge = refEdges langExtended p decls (.call c) := by
  unfold callEdges refEdges
  rw [resolveOne_eq h]
  cases hid : p.interner.getId (Ref.call c).source with
  | none =>
    simp only [Ref.source] at hid
    simp [hid]
  | some i =>
    simp only [Ref.source] at hid
    rw [map_filterMap, if_pos Option.isSome_some, ← filterMap_eq_map]
    refine filterMap_congr fun t ht => ?_
    have hmem : t.1 ∈ bucket c.calleeName decls := Ref.mem_of_mem_targets (r := .call c) ht
    obtain ⟨j, hj⟩ := getId_of_mem_bucket h hmem
    simp only [hid, hj, Option.bind_some, Option.map_some, resolvedEdge, resolveId_of_getId hid,
      resolveId_of_getId hj]
    rfl

theorem structuralEdges_map (e : RawStructuralEdge) :
    (p.structuralEdgeIds langExtended e).map p.resolvedEdge =
      refEdges langExtended p decls (.structural e) := by
  unfold structuralEdgeIds refEdges
  cases hid : p.interner.getId (Ref.structural e).source with
  | none =>
    simp only [Ref.source] at hid
    simp [hid]
  | some i =>
    simp only [Ref.source] at hid
    rw [map_filterMap, if_pos Option.isSome_some, Ref.name, ← candidates_resolveId h]
    simp only [hid, Option.map_some, resolvedEdge, resolveId_of_getId hid, Ref.targets,
      length_map, map_map]
    rw [← filterMap_eq_map]
    rfl

theorem resolve_eq (file : ParsedFile) : p.resolve langExtended file =
      (file.refs.flatMap (refEdges langExtended p decls), unresolvedNames decls file) := by
  unfold resolve
  refine Prod.ext ?_ (resolveIds_unresolved h langExtended file)
  unfold resolveIds ParsedFile.refs
  simp only [map_append, flatMap_append, map_flatMap, flatMap_map]
  congr 1
  · exact flatMap_congr fun c _ => callEdges_map h langExtended c
  · exact flatMap_congr fun e _ => structuralEdges_map h langExtended e

end

end edges

/-! ## Declarations in another order -/

section order

variable {p p' : ProjectIndex} {decls decls' : List (String × String)}

theorem bucket_perm (h : decls.Perm decls') (x : String) :
    (bucket x decls).Perm (bucket x decls') :=
  (h.filter _).map _

theorem refEdges_perm (h : p.Enters decls) (h' : p'.Enters decls') (hd : decls.Perm decls')
    (langExtended : Bool) (r : Ref) :
    (refEdges langExtended p decls r).Perm (refEdges langExtended p' decls' r) := by
  have hknown : (p.interner.getId r.source).isSome ↔ (p'.interner.getId r.source).isSome := by
    rw [Interner.isSome_getId, Interner.isSome_getId, h.names, h'.names]
    exact exists_congr fun d => and_congr_left fun _ => hd.mem_iff
  unfold refEdges
  rw [if_congr hknown rfl rfl]
  split
  · exact (Ref.targets_perm r (bucket_perm hd r.name)).map _
  · exact List.Perm.refl _

theorem unresolvedNames_perm (hd : decls.Perm decls') (file : ParsedFile) :
    unresolvedNames decls file = unresolvedNames decls' file := by
  have hempty : ∀ r : Ref, (bucket r.name decls).isEmpty = (bucket r.name decls').isEmpty := by
    intro r
    rw [Bool.eq_iff_iff, isEmpty_iff_length_eq_zero, isEmpty_iff_length_eq_zero,
      (bucket_perm hd r.name).length_eq]
  unfold unresolvedNames
  simp only [hempty]

end order

/-- However the files are ordered, a file has the same edges, as a multiset, and the same
unresolved names. -/
theorem resolve_perm (langExtended : Bool) {files files' : List ParsedFile}
    (hp : files.Perm files') (file : ParsedFile) :
    ((ofFiles files).resolve langExtended file).1.Perm
        ((ofFiles files').resolve langExtended file).1 ∧
      ((ofFiles files).resolve langExtended file).2 =
        ((ofFiles files').resolve langExtended file).2 := by
  have h := enters_ofFiles files
  have h' := enters_ofFiles files'
  have hd : (files.flatMap ParsedFile.decls).Perm (files'.flatMap ParsedFile.decls) :=
    hp.flatMap_right _
  rw [resolve_eq h.declares, resolve_eq h'.declares]
  exact ⟨List.Perm.flatMap_left _ fun r _ => refEdges_perm h h' hd langExtended r,
    unresolvedNames_perm hd file⟩

/-- Two files that declare one name, in both orders: the call has two edges in each. -/
theorem resolve_perm_swapped :
    let a : ParsedFile := ⟨[⟨"a.rs#run", "run", .function, 1, 2, "fn run()"⟩], [], []⟩
    let b : ParsedFile := ⟨[⟨"b.rs#run", "run", .function, 1, 2, "fn run()"⟩,
      ⟨"b.rs#main", "main", .function, 4, 6, "fn main()"⟩], [], []⟩
    let file : ParsedFile := ⟨[], [⟨"b.rs#main", "run", true⟩], []⟩
    [a, b].Perm [b, a] ∧ ((ofFiles [a, b]).resolve false file).1.length = 2 ∧
      ((ofFiles [a, b]).resolve false file).1.Perm ((ofFiles [b, a]).resolve false file).1 := by
  intro a b file
  have hswap : [a, b].Perm [b, a] := List.Perm.swap b a []
  exact ⟨hswap, by decide +kernel, (resolve_perm false hswap file).1⟩

end ProjectIndex

end WeaveGraph
