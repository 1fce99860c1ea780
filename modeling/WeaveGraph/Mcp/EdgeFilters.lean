import WeaveGraph.Mcp.Tools
import WeaveGraph.Cli.Index

/-!
# Edge filters on callers

`callers()` with `edge:` or `precise:` and `weave_trace_calls` with `precise_only` drop edges from
what they show.  A caller is shown by the edge it was found by first, so one that calls both exactly
and dynamically is shown or not depending on which of the two edges was stored first
(`callers_exact_iff`, `callers_hides_exact_call`).
-/

namespace WeaveGraph.Mcp

/-- **The listings of callers are exact**, for every order the edges are stored in, when and only
when no caller that should be shown has an edge that is filtered out to a nearest target.  The first
two parts say what the texts list. -/
theorem callers_exact_iff (feat : Query.Features) (lookup : NodeId → Option Node)
    (s : SqliteStorage) (root : NodeId) :
    (∀ filters, Query.callersText feat lookup filters s root = Query.resultText
      (((Query.callersListing feat filters).entries lookup s root).map fun p =>
        Query.describe p.2)) ∧
    (∀ depth preciseOnly, incomingChain lookup s root depth preciseOnly =
      ((incomingListing depth preciseOnly).entries lookup s root).map fun p =>
        describe p.2 ++ heuristicSuffix p.1) ∧
    (∀ filters, Callers.Exact (Query.callersListing feat filters) lookup s root ↔
      Callers.Clear (Query.callersListing feat filters) lookup s root) ∧
    (∀ depth preciseOnly, Callers.Exact (incomingListing depth preciseOnly) lookup s root ↔
      Callers.Clear (incomingListing depth preciseOnly) lookup s root) := by
  refine ⟨fun filters => ?_, fun depth preciseOnly => ?_, fun filters => Callers.exact_iff_clear,
    fun depth preciseOnly => Callers.exact_iff_clear⟩
  · rw [Query.callersText, Query.callersLoop_eq]
    rfl
  · rw [incomingChain, incomingLoop_eq]
    rfl

/-- `main` of `a.rs` calls its own `helper` and, on some object, any `helper` there is. -/
def bothCallsIndexer : Indexer where
  langExtended := true
  docs := false
  otel := false
  extract path _ :=
    if path = "a.rs" then
      some ⟨[⟨"helper", .function, 1, 1, "fn helper()"⟩, ⟨"main", .function, 2, 4, "fn main()"⟩],
        [⟨"main", "helper", true⟩, ⟨"main", "helper", false⟩], []⟩
    else some ⟨[⟨"helper", .method, 1, 1, "fn helper(&self)"⟩], [], []⟩
  parseMarkdown _ := ⟨[], [], [], [], []⟩

/-- The exact call is stored, and neither filter shows it. -/
theorem callers_hides_exact_call : ∃ stats s, bothCallsIndexer.fullReindex .openFresh
      [⟨"a.rs", "fn helper() {}\nfn main() { x.helper(); helper(); }"⟩,
        ⟨"b.rs", "fn helper(&self) {}"⟩] = .ok (stats, s) ∧
    (s.edges.rows.any fun e => e.sourceId == 2 && e.targetId == 1 && e.kind == "CALLS_EXACT") ∧
    Query.run ⟨true, false⟩ s "callers(helper)" none = .ok "main (a.rs:2)" ∧
    Query.run ⟨true, false⟩ s "callers(helper) edge:CALLS_EXACT" none = .ok "no results" ∧
    Query.run ⟨true, false⟩ s "callers(helper) precise:true" none = .ok "no results" ∧
    incomingChain s.getNode s 1 3 true = [] := by
  obtain ⟨⟨stats, s⟩, hok, h⟩ := Lib.exists_ok (x := bothCallsIndexer.fullReindex .openFresh
      [⟨"a.rs", "fn helper() {}\nfn main() { x.helper(); helper(); }"⟩,
        ⟨"b.rs", "fn helper(&self) {}"⟩])
    (P := fun r =>
      (r.2.edges.rows.any fun e => e.sourceId == 2 && e.targetId == 1 && e.kind == "CALLS_EXACT") ∧
      Query.run ⟨true, false⟩ r.2 "callers(helper)" none = .ok "main (a.rs:2)" ∧
      Query.run ⟨true, false⟩ r.2 "callers(helper) edge:CALLS_EXACT" none = .ok "no results" ∧
      Query.run ⟨true, false⟩ r.2 "callers(helper) precise:true" none = .ok "no results" ∧
      incomingChain r.2.getNode r.2 1 3 true = [])
    (by decide +kernel)
  exact ⟨stats, s, hok, h⟩

end WeaveGraph.Mcp
