import WeaveGraph.Lib.Dict
import WeaveGraph.Core.Model
import WeaveGraph.Parse.Language

/-!
# Parsed files and name resolution

What an extractor finds in a file, and how `ProjectIndex` turns the references between files into
edges.  An extractor names symbols within its file; monikers are those names behind the file's
path (`Extraction.parsed`).

The resolver works on interned monikers.  `Declares` ties an index to the plain list of
declarations it was built from, and every lookup of the resolver is a lookup in that list
(`candidates_eq`).
-/

namespace WeaveGraph

open List Lib Interner

/-! ## Parsed files -/

inductive SymbolKind where
  | function
  | method
  | struct
  | «class»
  | interface
  | impl
  | route
deriving Repr, DecidableEq

def SymbolKind.asStr : SymbolKind → String
  | .function => "function"
  | .method => "method"
  | .struct => "struct"
  | .class => "class"
  | .interface => "interface"
  | .impl => "impl"
  | .route => "route"

inductive StructuralEdgeKind where
  | imports
  | inherits
  | implements
  | handles
deriving Repr, DecidableEq

def StructuralEdgeKind.asStr : StructuralEdgeKind → String
  | .imports => "IMPORTS"
  | .inherits => "INHERITS"
  | .implements => "IMPLEMENTS"
  | .handles => "ROUTES_TO"

structure WiringCard where
  moniker : String
  symbol : String
  kind : SymbolKind
  lineStart : Nat
  lineEnd : Nat
  signature : String
deriving Repr, DecidableEq

structure RawCall where
  callerMoniker : String
  calleeName : String
  isMemberCall : Bool
deriving Repr, DecidableEq

structure RawStructuralEdge where
  sourceMoniker : String
  targetName : String
  kind : StructuralEdgeKind
deriving Repr, DecidableEq

structure ParsedFile where
  symbols : List WiringCard
  calls : List RawCall
  structuralEdges : List RawStructuralEdge
deriving Repr, DecidableEq

/-- `moniker::build`. -/
def buildMoniker (path qualifiedSymbol : String) : String := path ++ "#" ++ qualifiedSymbol

def Node.moniker (n : Node) : String := buildMoniker n.path n.symbol

/-- A symbol as the extractor finds it, before its file is known. -/
structure Declaration where
  symbol : String
  kind : SymbolKind
  lineStart : Nat
  lineEnd : Nat
  signature : String
deriving Repr, DecidableEq

/-- What an extractor finds in the text of a file: callers and sources are symbols of the file, or
`<module>` for code outside every symbol. -/
structure Extraction where
  symbols : List Declaration
  calls : List RawCall
  structuralEdges : List RawStructuralEdge
deriving Repr, DecidableEq

/-- The extraction of the file at `path`. -/
def Extraction.parsed (x : Extraction) (path : String) : ParsedFile where
  symbols := x.symbols.map fun d =>
    ⟨buildMoniker path d.symbol, d.symbol, d.kind, d.lineStart, d.lineEnd, d.signature⟩
  calls := x.calls.map fun c => { c with callerMoniker := buildMoniker path c.callerMoniker }
  structuralEdges := x.structuralEdges.map fun e =>
    { e with sourceMoniker := buildMoniker path e.sourceMoniker }

/-! ## Resolution -/

inductive ResolutionKind where
  | sameFileExact
  | uniqueGlobalExact
  | ambiguousHeuristic
deriving Repr, DecidableEq

def ResolutionKind.asStr : ResolutionKind → String
  | .sameFileExact => "SAME_FILE_EXACT"
  | .uniqueGlobalExact => "UNIQUE_GLOBAL_EXACT"
  | .ambiguousHeuristic => WeaveGraph.ambiguousHeuristic

structure ResolvedEdgeIds where
  sourceId : Nat
  targetId : Nat
  kind : String
  resolutionKind : ResolutionKind
  extractor : Option String
deriving Repr, DecidableEq

structure ResolvedEdge where
  sourceMoniker : String
  targetMoniker : String
  kind : String
  resolutionKind : ResolutionKind
  extractor : Option String
deriving Repr, DecidableEq

def fileOf (moniker : String) : String := Text.beforeFirst '#' moniker

def extractorOf (langExtended : Bool) (moniker : String) : Option String :=
  (Language.fromPath langExtended (fileOf moniker)).map fun lang =>
    Text.toAsciiLowercase lang.debugName

/-- `by_short_name` holds the `(name id, moniker id)` pairs in the order they were pushed. -/
structure ProjectIndex where
  interner : Interner String
  byShortName : List (Nat × Nat)

namespace ProjectIndex

def new : ProjectIndex := ⟨Interner.empty, []⟩

def addSymbol (p : ProjectIndex) (moniker shortName : String) : Nat × ProjectIndex :=
  let (nameId, interner) := p.interner.intern shortName
  let (monikerId, interner) := interner.intern moniker
  (monikerId, ⟨interner, p.byShortName ++ [(nameId, monikerId)]⟩)

def candidates (p : ProjectIndex) (shortName : String) : List Nat :=
  (p.interner.getId shortName).elim [] fun id => bucket id p.byShortName

/-- `interner.resolve`; the interner is only asked for ids it gave out. -/
def resolveId (p : ProjectIndex) (id : Nat) : String := (p.interner.resolve id).getD ""

def resolveOne (p : ProjectIndex) (fromMoniker shortName : String) (forceDynamic : Bool) :
    List (String × String × ResolutionKind) :=
  let candidates := p.candidates shortName
  let dynamic := candidates.map fun id =>
    (p.resolveId id, "CALLS_DYNAMIC", ResolutionKind.ambiguousHeuristic)
  if candidates.isEmpty then []
  else if forceDynamic then dynamic
  else
    match candidates.filter fun id => fileOf (p.resolveId id) == fileOf fromMoniker with
    | [id] => [(p.resolveId id, "CALLS_EXACT", .sameFileExact)]
    | _ =>
      match candidates with
      | [id] => [(p.resolveId id, "CALLS_EXACT", .uniqueGlobalExact)]
      | _ => dynamic

def callEdges (langExtended : Bool) (p : ProjectIndex) (call : RawCall) : List ResolvedEdgeIds :=
  (p.resolveOne call.callerMoniker call.calleeName call.isMemberCall).filterMap
    fun (target, kind, resolutionKind) =>
      (p.interner.getId call.callerMoniker).bind fun sourceId =>
        (p.interner.getId target).map fun targetId =>
          ⟨sourceId, targetId, kind, resolutionKind, extractorOf langExtended call.callerMoniker⟩

def structuralEdgeIds (langExtended : Bool) (p : ProjectIndex) (structural : RawStructuralEdge) :
    List ResolvedEdgeIds :=
  let candidates := p.candidates structural.targetName
  let resolutionKind :=
    if candidates.length = 1 then ResolutionKind.uniqueGlobalExact else .ambiguousHeuristic
  candidates.filterMap fun candidateId =>
    (p.interner.getId structural.sourceMoniker).map fun sourceId =>
      ⟨sourceId, candidateId, structural.kind.asStr, resolutionKind,
        extractorOf langExtended structural.sourceMoniker⟩

def resolveIds (langExtended : Bool) (p : ProjectIndex) (file : ParsedFile) :
    List ResolvedEdgeIds × List String :=
  let edges := file.calls.flatMap (p.callEdges langExtended) ++
    file.structuralEdges.flatMap (p.structuralEdgeIds langExtended)
  let unresolved :=
    (file.calls.filter fun call =>
      (p.resolveOne call.callerMoniker call.calleeName call.isMemberCall).isEmpty).map
        RawCall.calleeName ++
    (file.structuralEdges.filter fun structural =>
      (p.candidates structural.targetName).isEmpty).map RawStructuralEdge.targetName
  (edges, Text.dedup (unresolved.insertionSort (· ≤ ·)))

/-- References without a candidate in the own index, against the index of another repository. -/
def resolveCrossRepo (langExtended : Bool) (p : ProjectIndex) (file : ParsedFile)
    (fallback : ProjectIndex) : List ResolvedEdge :=
  (file.calls.flatMap fun call =>
    if (p.candidates call.calleeName).isEmpty then
      (fallback.resolveOne call.callerMoniker call.calleeName call.isMemberCall).map
        fun (target, kind, _) =>
          ⟨call.callerMoniker, target, kind, .ambiguousHeuristic,
            extractorOf langExtended call.callerMoniker⟩
    else []) ++
  file.structuralEdges.flatMap fun structural =>
    if (p.candidates structural.targetName).isEmpty then
      (fallback.candidates structural.targetName).map fun candidateId =>
        ⟨structural.sourceMoniker, fallback.resolveId candidateId, structural.kind.asStr,
          .ambiguousHeuristic, extractorOf langExtended structural.sourceMoniker⟩
    else []

end ProjectIndex

/-! ## References over plain declarations -/

/-- A reference of a file: a call or a structural edge. -/
inductive Ref where
  | call (c : RawCall)
  | structural (e : RawStructuralEdge)
deriving Repr, DecidableEq

namespace Ref

def source : Ref → String
  | .call c => c.callerMoniker
  | .structural e => e.sourceMoniker

def name : Ref → String
  | .call c => c.calleeName
  | .structural e => e.targetName

/-- `resolve_one` over the monikers declared under the callee's name. -/
def callTargets (candidates : List String) (fromMoniker : String) (forceDynamic : Bool) :
    List (String × String × ResolutionKind) :=
  let dynamic := candidates.map fun m => (m, "CALLS_DYNAMIC", ResolutionKind.ambiguousHeuristic)
  if forceDynamic then dynamic
  else
    match candidates.filter fun m => fileOf m == fileOf fromMoniker with
    | [m] => [(m, "CALLS_EXACT", .sameFileExact)]
    | _ =>
      match candidates with
      | [m] => [(m, "CALLS_EXACT", .uniqueGlobalExact)]
      | _ => dynamic

/-- Target moniker, edge kind and confidence of every edge of the reference, from the monikers
declared under its name. -/
def targets : Ref → List String → List (String × String × ResolutionKind)
  | .call c, candidates => callTargets candidates c.callerMoniker c.isMemberCall
  | .structural e, candidates => candidates.map fun m => (m, e.kind.asStr,
      if candidates.length = 1 then ResolutionKind.uniqueGlobalExact else .ambiguousHeuristic)

end Ref

def ParsedFile.refs (file : ParsedFile) : List Ref :=
  file.calls.map Ref.call ++ file.structuralEdges.map Ref.structural

/-- The edge from `source` to one target, between the nodes `ids` gives the two monikers. -/
def edgeTo (langExtended : Bool) (ids : List (String × NodeId)) (source : String)
    (target : String × String × ResolutionKind) : Option Edge :=
  (lookupLast source ids).bind fun sourceId =>
    (lookupLast target.1 ids).map fun targetId =>
      ⟨0, sourceId, targetId, target.2.1, extractorOf langExtended source, some target.2.2.asStr⟩

/-- The edges of a file, from the `(short name, moniker)` pairs declared in the project. -/
def resolvedEdges (langExtended : Bool) (decls : List (String × String))
    (ids : List (String × NodeId)) (file : ParsedFile) : List Edge :=
  file.refs.flatMap fun r =>
    (r.targets (bucket r.name decls)).filterMap (edgeTo langExtended ids r.source)

def unresolvedNames (decls : List (String × String)) (file : ParsedFile) : List String :=
  Text.dedup (((file.refs.filter fun r => (bucket r.name decls).isEmpty).map
    Ref.name).insertionSort (· ≤ ·))

theorem Ref.callTargets_ne_nil {candidates : List String} (h : candidates ≠ []) (m : String)
    (dyn : Bool) : callTargets candidates m dyn ≠ [] := by
  unfold callTargets
  split
  · simpa using h
  · split
    · simp
    · split
      · simp
      · simpa using h

/-! ## The index resolves as the declarations do -/

namespace ProjectIndex

/-- The index was built from these `(short name, moniker)` pairs. -/
def Declares (p : ProjectIndex) (decls : List (String × String)) : Prop :=
  (p.byShortName.map fun q => (p.interner.resolve q.1, p.interner.resolve q.2)) =
    decls.map fun d => (some d.1, some d.2)

theorem declares_new : Declares new [] := rfl

variable {p : ProjectIndex}

theorem resolve_addSymbol (moniker x : String) {i : Nat} {a : String}
    (h : p.interner.resolve i = some a) : (p.addSymbol moniker x).2.interner.resolve i = some a :=
  resolve_intern moniker (resolve_intern x h)

theorem resolve_addSymbol_id (p : ProjectIndex) (moniker x : String) :
    (p.addSymbol moniker x).2.interner.resolve (p.addSymbol moniker x).1 = some moniker :=
  getId_eq_some.mp (getId_intern_self _ _)

theorem declares_addSymbol {decls : List (String × String)} (h : p.Declares decls)
    (moniker x : String) : (p.addSymbol moniker x).2.Declares (decls ++ [(x, moniker)]) := by
  have hx : (p.addSymbol moniker x).2.interner.resolve (p.interner.intern x).1 = some x :=
    resolve_intern moniker (getId_eq_some.mp (getId_intern_self _ _))
  have hm := resolve_addSymbol_id p moniker x
  -- pairs that were there resolve as before
  have hold : ∀ q ∈ p.byShortName, ((p.addSymbol moniker x).2.interner.resolve q.1,
        (p.addSymbol moniker x).2.interner.resolve q.2) =
        (p.interner.resolve q.1, p.interner.resolve q.2) := by
    intro q hq
    have hmem := h ▸ mem_map_of_mem hq
    obtain ⟨d, -, hd⟩ := mem_map.mp hmem
    simp only [Prod.mk.injEq] at hd
    rw [← hd.1, ← hd.2, resolve_addSymbol moniker x hd.1.symm,
      resolve_addSymbol moniker x hd.2.symm]
  show ((p.byShortName ++ [((p.interner.intern x).1, (p.addSymbol moniker x).1)]).map _) = _
  rw [map_append, map_append, map_congr_left hold]
  simp only [map_cons, map_nil, hx, hm]
  rw [h]

section resolve

variable {p : ProjectIndex} {decls : List (String × String)} {map : List (Nat × NodeId)}
  {ids : List (String × NodeId)}

theorem candidates_resolve (h : p.Declares decls) (x : String) :
    (p.candidates x).map p.interner.resolve = (bucket x decls).map some :=
  bucket_getId p.interner h x

theorem candidates_resolveId (h : p.Declares decls) (x : String) :
    (p.candidates x).map p.resolveId = bucket x decls := by
  have := congrArg (List.map fun o : Option String => o.getD "") (candidates_resolve h x)
  rw [map_map, map_map] at this
  exact this.trans (map_id _)

theorem resolveOne_callTargets (p : ProjectIndex) (m x : String) (dyn : Bool) :
    p.resolveOne m x dyn = Ref.callTargets ((p.candidates x).map p.resolveId) m dyn := by
  unfold resolveOne Ref.callTargets
  simp only [filter_map, map_map, Function.comp_def]
  cases hc : p.candidates x with
  | nil => cases dyn <;> rfl
  | cons a l =>
    cases dyn with
    | true => rfl
    | false =>
      cases hf : (a :: l).filter fun id => fileOf (p.resolveId id) == fileOf m with
      | nil => cases l <;> rfl
      | cons b k => cases k <;> cases l <;> rfl

theorem resolveOne_eq (h : p.Declares decls) (m x : String) (dyn : Bool) :
    p.resolveOne m x dyn = Ref.callTargets (bucket x decls) m dyn := by
  rw [← candidates_resolveId h x]
  exact resolveOne_callTargets p m x dyn

theorem resolveIds_unresolved (h : p.Declares decls) (langExtended : Bool) (file : ParsedFile) :
    (p.resolveIds langExtended file).2 = unresolvedNames decls file := by
  have hcall : ∀ c : RawCall, (p.resolveOne c.callerMoniker c.calleeName c.isMemberCall).isEmpty =
      (bucket c.calleeName decls).isEmpty := by
    intro c
    rw [resolveOne_eq h]
    cases hb : bucket c.calleeName decls with
    | nil => cases c.isMemberCall <;> rfl
    | cons m l => simp [Ref.callTargets_ne_nil]
  have hstr : ∀ e : RawStructuralEdge, (p.candidates e.targetName).isEmpty =
      (bucket e.targetName decls).isEmpty := by
    intro e
    rw [← candidates_resolveId h, isEmpty_map]
  unfold resolveIds unresolvedNames ParsedFile.refs
  simp only [hcall, hstr, filter_append, map_append, filter_map, map_map]
  rfl

theorem lookup_target (hids : (map.map fun q => (p.interner.resolve q.1, q.2)) =
    ids.map fun q => (some q.1, q.2)) (m : String) :
    ((p.interner.getId m).bind fun i => lookupLast i map) = lookupLast m ids :=
  lookupLast_getId p.interner hids m

end resolve

end ProjectIndex

end WeaveGraph
