import Mathlib
import WeaveGraph.Core.Modules
import WeaveGraph.Mcp.Tools

/-!
# The paths without a mask

Without a mask, queries and graph tools find an exact name with one lookup and read the nodes they
show one by one.  They answer what they answer under a mask that changes nothing
(`unmasked_eq_masked`).

The last resort of `weave_impact_radius`, the module summary, is no function of the store: labels
and ties follow the order in which hash maps are read.  It is the same on both paths when the maps
are read in the same orders.
-/

namespace WeaveGraph

open List

/-! ## Lookups and scans of the node list -/

namespace SqliteStorage

variable (s : SqliteStorage)

theorem resolveSymbol_of_getNodeBySymbol {symbol : String} {n : Node}
    (h : s.getNodeBySymbol symbol = some n) : resolveSymbol s.allNodes symbol = .ok n.id := by
  have hexact : exactMatch s.allNodes symbol = some n.id := congrArg (Option.map Node.id) h
  rw [resolveSymbol, hexact]

end SqliteStorage

namespace CsrGraph

variable (s : SqliteStorage)

/-- Nodes are read in id order, so an index of the graph is a position in the node list. -/
theorem load_indexToId : (load s).indexToId = s.allNodes.map Node.id :=
  List.Pairwise.insertionSort_eq (pairwise_map.mpr (s.nodes.ordered.imp fun h => Nat.le_of_lt h))

theorem load_idOfIndex (i : Nat) : (load s).idOfIndex i = s.allNodes[i]?.map Node.id := by
  rw [idOfIndex, load_indexToId, getElem?_map]

/-- The nodes at the given indices but the root, looked up one by one or taken from the list. -/
theorem filterMap_getNode_load (root : NodeId) (indices : List Nat) :
    (((indices.filterMap (load s).idOfIndex).filter fun id => id != root).filterMap s.getNode) =
      (indices.filterMap fun i => s.allNodes[i]?).filter fun n => n.id != root := by
  induction indices with
  | nil => rfl
  | cons i indices ih =>
    rw [filterMap_cons, filterMap_cons, load_idOfIndex]
    cases hi : s.allNodes[i]? with
    | none => exact ih
    | some n =>
      have hget : s.getNode n.id = some n := SqliteStorage.getNode_eq (mem_of_getElem? hi)
      simp only [Option.map_some, filter_cons]
      by_cases hroot : (n.id != root) = true
      · rw [if_pos hroot, if_pos hroot, filterMap_cons, hget, ih]
      · rw [if_neg hroot, if_neg hroot, ih]

end CsrGraph

/-! ## Queries and tools -/

namespace Query

theorem resolveFast_eq (s : SqliteStorage) : resolveFast s = resolve s.allNodes := by
  funext symbol
  unfold resolveFast
  cases h : s.getNodeBySymbol symbol with
  | none => rfl
  | some n => rw [resolve, s.resolveSymbol_of_getNodeBySymbol h]; rfl

end Query

namespace Mcp

theorem resolveUnmasked_eq (s : SqliteStorage) (symbol : String) :
    resolveUnmasked s symbol = resolveSymbol s.allNodes symbol := by
  unfold resolveUnmasked
  cases h : s.getNodeBySymbol symbol with
  | none => rfl
  | some n => rw [s.resolveSymbol_of_getNodeBySymbol h]

section

variable {F : Type} [Zero F] [One F] [OfNat F 2] [Add F] [Sub F] [Mul F] [Div F]
  [LT F] [DecidableLT F] [LE F] [DecidableLE F]

/-- The files of a module that are affected, if there are any. -/
def moduleLine (impacted : List Node) (m : Module) : Option String :=
  let hit := m.files.filter fun f => f ∈ impacted.map Node.path
  if hit.isEmpty then none
  else some ("  " ++ m.label ++ " [" ++ toString hit.length ++ " files impacted]: " ++
    String.intercalate ", " hit)

/-- The last tier of `render`. -/
def moduleSummary (order : Modules.ModuleOrder F) (fuel : Nat) (symbol : String)
    (impacted nodes : List Node) (edges : List Edge) : Option String :=
  (Modules.buildModules order fuel nodes (Modules.aggregateFileEdges edges nodes)).map fun modules =>
    joinLines (("impact_radius: " ++ symbol ++ " (" ++ toString impacted.length ++
      " symbols affected — shed to module summary)") :: modules.filterMap (moduleLine impacted))

theorem renderImpact_of_none {args : ImpactRadiusArgs} {impacted nodes : List Node}
    {edges : List Edge} {r : ImpactRadiusResult}
    (h : renderImpact (fun _ _ _ _ => none) args impacted nodes edges = some r)
    (summary : String → List Node → List Node → List Edge → Option String) :
    renderImpact summary args impacted nodes edges = some r := by
  unfold renderImpact at h ⊢
  dsimp only at h ⊢
  split
  · simpa [*] using h
  · split
    · simpa [*] using h
    · simp [*] at h

/-- An answer that needs no module summary is the same whatever the summary. -/
theorem weaveImpactRadius_of_none {s : SqliteStorage} {csr : CsrGraph} {args : ImpactRadiusArgs}
    {mask : Node → Node} {r : ImpactRadiusResult}
    (h : weaveImpactRadius (fun _ _ _ _ => none) s csr args (some mask) = some r)
    (summary : String → List Node → List Node → List Edge → Option String) :
    weaveImpactRadius summary s csr args (some mask) = some r := by
  simp only [weaveImpactRadius, weaveImpactRadiusMasked] at h ⊢
  split at h
  · exact renderImpact_of_none h summary
  · exact h

/-- **No answer depends on which path it takes**: without a mask every query and both tools say what
they say under a mask that leaves the stored nodes as they are; the module summary, if the hash maps
are read in the same orders. -/
theorem unmasked_eq_masked (s : SqliteStorage) {mask : Node → Node}
    (hmask : ∀ n ∈ s.allNodes, mask n = n) :
    (∀ feat expression,
      Query.run feat s expression none = Query.run feat s expression (some mask)) ∧
    (∀ args, weaveTraceCalls s (CsrGraph.load s) args none =
      weaveTraceCalls s (CsrGraph.load s) args (some mask)) ∧
    (∀ (order : Modules.ModuleOrder F) fuel args,
      weaveImpactRadius (moduleSummary order fuel) s (CsrGraph.load s) args none =
        weaveImpactRadius (moduleSummary order fuel) s (CsrGraph.load s) args (some mask)) ∧
    ∀ (order order' : Modules.ModuleOrder F) fuel fuel' args r,
      weaveImpactRadius (fun _ _ _ _ => none) s (CsrGraph.load s) args none = some r →
      weaveImpactRadius (moduleSummary order fuel) s (CsrGraph.load s) args none = some r ∧
        weaveImpactRadius (moduleSummary order' fuel') s (CsrGraph.load s) args (some mask) =
          some r := by
  have hnodes : s.allNodes.map mask = s.allNodes :=
    (map_congr_left hmask).trans (map_id _)
  have himpact : ∀ summary args, weaveImpactRadius summary s (CsrGraph.load s) args none =
      weaveImpactRadius summary s (CsrGraph.load s) args (some mask) := by
    intro summary args
    simp only [weaveImpactRadius, weaveImpactRadiusMasked, weaveImpactRadiusUnmasked, hnodes,
      resolveUnmasked_eq, CsrGraph.filterMap_getNode_load]
  refine ⟨fun feat expression => ?_, fun args => ?_, fun order fuel args => himpact _ args,
    fun order order' fuel fuel' args r h => ?_⟩
  · simp only [Query.run, Query.runMasked, Query.runUnmasked, Query.maskedNodes, hnodes,
      Query.resolveFast_eq]
    rfl
  · simp only [weaveTraceCalls, weaveTraceCallsMasked, weaveTraceCallsUnmasked, hnodes,
      resolveUnmasked_eq]
    rfl
  · have hsame := weaveImpactRadius_of_none ((himpact _ args).symm.trans h)
    exact ⟨(himpact _ args).trans (hsame _), hsame _⟩

end

/-- Whoever has the `internal` role is answered on the slow path, and the same. -/
theorem unmasked_eq_masked_internal :
    let s := Query.withCaller "audit" "fn audit()"
    let mask := (Query.guardFor ⟨false, false⟩ ⟨"ops", ["internal"], []⟩).maskNode
    let args : ImpactRadiusArgs := ⟨"Audit", some 1⟩
    let summary := moduleSummary (F := ℚ) .insertion 1
    Query.run ⟨false, false⟩ s "callers(open)" (some mask) = .ok "audit (src/lib.rs:5)" ∧
    weaveImpactRadius summary s (CsrGraph.load s) args none =
      weaveImpactRadius summary s (CsrGraph.load s) args (some mask) ∧
    (weaveImpactRadius summary s (CsrGraph.load s) args none).map ImpactRadiusResult.text =
      some ("impact_radius: Audit (1 symbols affected — shed to module summary)\n" ++
        "  src [1 files impacted]: src/lib.rs") :=
  ⟨by decide +kernel, (unmasked_eq_masked _ fun _ _ => rfl).2.2.1 _ _ _, by decide +kernel⟩

/-- `f` in `a/x.rs` calls `g` in `b/y.rs`. -/
def twoDirectories : SqliteStorage :=
  let (_, nodes) := SqliteStorage.insertFreshNodes Lib.Table.empty
    [⟨0, "app", "a/x.rs", "f", "Function", 1, 3, "pub fn f()"⟩,
     ⟨0, "app", "b/y.rs", "g", "Function", 1, 3, "pub fn g()"⟩]
  { SqliteStorage.openFresh with
    nodes := nodes
    edges := SqliteStorage.upsertEdges Lib.Table.empty
      [⟨0, 1, 2, "CALLS_EXACT", some "rust", some "EXACT_MATCH"⟩] }

/-- The two files are one module.  It is named after the directory that is read last, and each call
reads a map of its own. -/
theorem moduleSummary_depends_on_order :
    let order : Modules.ModuleOrder ℚ := .insertion
    let order' : Modules.ModuleOrder ℚ :=
      { order with counts := fun _ => Lib.Shuffle.back ("a", 1) }
    let args : ImpactRadiusArgs := ⟨"f", some 1⟩
    let csr := CsrGraph.load twoDirectories
    (weaveImpactRadius (moduleSummary order 2) twoDirectories csr args none).map
        ImpactRadiusResult.text =
      some ("impact_radius: f (1 symbols affected — shed to module summary)\n" ++
        "  b [1 files impacted]: b/y.rs") ∧
    (weaveImpactRadius (moduleSummary order' 2) twoDirectories csr args (some id)).map
        ImpactRadiusResult.text =
      some ("impact_radius: f (1 symbols affected — shed to module summary)\n" ++
        "  a [1 files impacted]: b/y.rs") := by
  decide +kernel

end Mcp

end WeaveGraph
