import WeaveGraph.Core.Policy

/-!
# Linting what a caller may see

`weave policy lint --as` drops the nodes its subject may not see and every edge that touches one,
and lints what is left.  A `disallow` rule that is broken in the view is broken in the whole graph.
A `require` rule is not: the view can have lost every edge that met it
(`lintScoped_filterView_iff`).
-/

namespace WeaveGraph.Policy

open List

structure GraphView where
  nodes : List Node
  edges : List Edge
  hiddenNodes : Nat
  skippedEdges : Nat
deriving Repr, DecidableEq

def bothShown (nodes : List Node) (edge : Edge) : Bool :=
  (nodes.map Node.id).contains edge.sourceId && (nodes.map Node.id).contains edge.targetId

def filterView (allNodes : List Node) (allEdges : List Edge) (visible : Option (Node → Bool)) :
    GraphView :=
  let nodes := allNodes.filter (isShown visible)
  { nodes := nodes
    edges := allEdges.filter (bothShown nodes)
    hiddenNodes := allNodes.countP fun n => !isShown visible n
    skippedEdges := allEdges.countP fun e => !bothShown nodes e }

/-! ## Edges that cross in the view -/

variable {nodes : List Node} {b : Boundary} {crossing : List (NodeId × NodeId)} {kind : String}

theorem fileOf_eq_some (hids : (nodes.map Node.id).Nodup) {id : NodeId} {path : String} :
    fileOf nodes id = some path ↔ ∃ n ∈ nodes, n.id = id ∧ n.path = path := by
  have hkeys : (nodes.map fun n => (n.id, n.path)).map Prod.fst = nodes.map Node.id := by
    rw [map_map]
    rfl
  rw [fileOf, Lib.lookupLast_of_distinct (by rw [hkeys]; exact hids), mem_map]
  simp only [Prod.mk.injEq]

theorem crosses_iff (hids : (nodes.map Node.id).Nodup) {e : Edge} : b.crosses nodes e = true ↔
      ∃ src ∈ nodes, ∃ dst ∈ nodes, src.id = e.sourceId ∧ dst.id = e.targetId ∧
        inModule src.path b.fromModule = true ∧ inModule dst.path b.toModule = true := by
  unfold Boundary.crosses
  constructor
  · intro h
    split at h
    · rename_i src dst hsrc hdst
      obtain ⟨n, hn, hnid, rfl⟩ := (fileOf_eq_some hids).mp hsrc
      obtain ⟨m, hm, hmid, rfl⟩ := (fileOf_eq_some hids).mp hdst
      rw [Bool.and_eq_true] at h
      exact ⟨n, hn, m, hm, hnid, hmid, h⟩
    · cases h
  · rintro ⟨n, hn, m, hm, hnid, hmid, hfrom, hto⟩
    rw [(fileOf_eq_some hids).mpr ⟨n, hn, hnid, rfl⟩, (fileOf_eq_some hids).mpr ⟨m, hm, hmid, rfl⟩]
    simp only [hfrom, hto, Bool.and_self]

/-- An edge of the graph crosses a boundary, and both its ends are visible. -/
def CrossesInSight (nodes : List Node) (edges : List Edge) (visible : Option (Node → Bool))
    (b : Boundary) : Prop :=
  ∃ e ∈ edges, b.crosses nodes e = true ∧ bothShown (nodes.filter (isShown visible)) e = true

instance (nodes : List Node) (edges : List Edge) (visible : Option (Node → Bool)) (b : Boundary) :
    Decidable (CrossesInSight nodes edges visible b) :=
  inferInstanceAs (Decidable (∃ e ∈ edges, _))

section view

variable {nodes : List Node} {edges : List Edge} {visible : Option (Node → Bool)} {b : Boundary}

theorem crossing_eq_nil : b.crossing nodes edges = [] ↔ ¬ ∃ e ∈ edges, b.crosses nodes e = true := by
  simp [Boundary.crossing, filter_eq_nil_iff]

theorem crosses_view (hids : (nodes.map Node.id).Nodup) {e : Edge}
    (he : bothShown (nodes.filter (isShown visible)) e = true) :
    b.crosses (nodes.filter (isShown visible)) e = b.crosses nodes e := by
  have hsub := filter_sublist (p := isShown visible) (l := nodes)
  have hids' := (hsub.map Node.id).nodup hids
  rw [Bool.eq_iff_iff, crosses_iff hids', crosses_iff hids]
  constructor
  · rintro ⟨n, hn, m, hm, h⟩
    exact ⟨n, hsub.subset hn, m, hsub.subset hm, h⟩
  · rintro ⟨n, hn, m, hm, hnid, hmid, h⟩
    simp only [bothShown, Bool.and_eq_true, contains_iff_mem, mem_map] at he
    obtain ⟨⟨n', hn', hnid'⟩, ⟨m', hm', hmid'⟩⟩ := he
    obtain rfl := inj_on_of_nodup_map hids (hsub.subset hn') hn (hnid'.trans hnid.symm)
    obtain rfl := inj_on_of_nodup_map hids (hsub.subset hm') hm (hmid'.trans hmid.symm)
    exact ⟨n', hn', m', hm', hnid, hmid, h⟩

theorem crossing_view_eq_nil (hids : (nodes.map Node.id).Nodup) :
    b.crossing (filterView nodes edges visible).nodes (filterView nodes edges visible).edges = [] ↔
      ¬ CrossesInSight nodes edges visible b := by
  rw [crossing_eq_nil, not_iff_not]
  simp only [filterView, mem_filter, CrossesInSight]
  constructor
  · rintro ⟨e, ⟨he, hboth⟩, hc⟩
    exact ⟨e, he, (crosses_view hids hboth).symm.trans hc, hboth⟩
  · rintro ⟨e, he, hc, hboth⟩
    exact ⟨e, ⟨he, hboth⟩, (crosses_view hids hboth).trans hc⟩

theorem crossing_ne_nil_of_inSight (h : CrossesInSight nodes edges visible b) :
    b.crossing nodes edges ≠ [] := by
  obtain ⟨e, he, hc, -⟩ := h
  rw [Ne, crossing_eq_nil, not_not]
  exact ⟨e, he, hc⟩

end view

/-! ## Violations of the view -/

theorem broken_disallow :
    (BoundaryRule.disallow b).broken crossing = some kind ↔ crossing ≠ [] ∧ kind = "disallow" := by
  rw [@eq_comm _ kind]
  simp [BoundaryRule.broken]

theorem broken_require :
    (BoundaryRule.require b).broken crossing = some kind ↔ crossing = [] ∧ kind = "require" := by
  rw [@eq_comm _ kind]
  simp [BoundaryRule.broken]

/-- What is broken in the view is broken in the whole graph, or is a `require` rule all of whose
edges are out of sight. -/
theorem broken_of_view {edges : List Edge} {visible : Option (Node → Bool)}
    (hids : (nodes.map Node.id).Nodup) {rule : BoundaryRule}
    (hsight : ∀ b, rule = .require b → b.crossing nodes edges ≠ [] →
      CrossesInSight nodes edges visible b)
    (h : rule.broken (rule.boundary.crossing (filterView nodes edges visible).nodes
      (filterView nodes edges visible).edges) = some kind) :
    rule.broken (rule.boundary.crossing nodes edges) = some kind := by
  cases rule with
  | disallow b =>
    obtain ⟨hne, rfl⟩ := broken_disallow.mp h
    have hin : CrossesInSight nodes edges visible b :=
      not_not.mp fun hn => hne ((crossing_view_eq_nil hids).mpr hn)
    exact broken_disallow.mpr ⟨crossing_ne_nil_of_inSight hin, rfl⟩
  | require b =>
    obtain ⟨hnil, rfl⟩ := broken_require.mp h
    refine broken_require.mpr ⟨?_, rfl⟩
    by_contra hne
    exact (crossing_view_eq_nil hids).mp hnil (hsight b rfl hne)

/-- Masking invents no violation exactly if every `require` rule that the graph meets and that
binds the caller is met by an edge the caller can see. -/
theorem lintScoped_filterView_iff {nodes : List Node} (hids : (nodes.map Node.id).Nodup)
    (edges : List Edge) (visible : Option (Node → Bool)) (rules : List BoundaryRule)
    (currentRoles : List String) :
    (∀ v ∈ lintScoped (filterView nodes edges visible).nodes (filterView nodes edges visible).edges
        rules currentRoles,
      ∃ w ∈ lintScoped nodes edges rules currentRoles, w.key = v.key) ↔
      ∀ b, .require b ∈ rules → b.exempts currentRoles = false →
        (∃ e ∈ edges, b.crosses nodes e = true) → CrossesInSight nodes edges visible b := by
  constructor
  · intro h b hb hex hcross
    by_contra hsight
    have hview := (crossing_view_eq_nil hids).mpr hsight
    obtain ⟨v, hv, hkey⟩ : ∃ v ∈ lintScoped (filterView nodes edges visible).nodes
        (filterView nodes edges visible).edges rules currentRoles,
          v.key = ("require", b.fromModule, b.toModule) :=
      mem_lintScoped_key.mpr ⟨.require b, hb, hex, broken_require.mpr ⟨hview, rfl⟩, rfl, rfl⟩
    obtain ⟨rule, -, -, hbroken, hfrom, hto⟩ := mem_lintScoped_key.mp (h v hv)
    rw [hkey] at hbroken hfrom hto
    -- the rule the whole graph breaks has the same two modules, so the same edges cross
    have hsame : rule.boundary.crossing nodes edges = b.crossing nodes edges := by
      unfold Boundary.crossing Boundary.crosses
      rw [hfrom, hto]
    rw [hsame] at hbroken
    cases rule with
    | disallow c =>
      have hkind : "require" = "disallow" := (broken_disallow.mp hbroken).2
      exact absurd hkind (by decide)
    | require c => exact crossing_eq_nil.mp (broken_require.mp hbroken).1 hcross
  · intro h v hv
    obtain ⟨rule, hrule, hex, hbroken, hfrom, hto⟩ := mem_lintScoped_key.mp ⟨v, hv, rfl⟩
    refine mem_lintScoped_key.mpr ⟨rule, hrule, hex, ?_, hfrom, hto⟩
    refine broken_of_view hids ?_ hbroken
    rintro b rfl hne
    exact h b hrule hex (not_not.mp fun hn => hne (crossing_eq_nil.mpr hn))

def apiNodes : List Node :=
  [⟨1, "local", "ui/view.rs", "show", "function", 1, 3, "fn show()"⟩,
    ⟨2, "local", "api/mod.rs", "load", "function", 1, 2, "fn load()"⟩]

def apiEdges : List Edge := [⟨1, 1, 2, "CALLS", none, none⟩]

def apiRule : BoundaryRule := .require ⟨"ui", "api", [], none⟩

/-- A second caller is hidden, and the call in sight meets the rule. -/
theorem lintScoped_filterView_twoFiles :
    let nodes := apiNodes ++ [⟨3, "local", "ui/draft.rs", "draft", "function", 1, 2, "fn draft()"⟩]
    let edges := apiEdges ++ [⟨2, 3, 2, "CALLS", none, none⟩]
    let view := filterView nodes edges (some fun n => n.symbol != "draft")
    view.nodes = apiNodes ∧ view.edges = apiEdges ∧
      ∀ v ∈ lintScoped view.nodes view.edges [apiRule] [],
        ∃ w ∈ lintScoped nodes edges [apiRule] [], w.key = v.key := by
  refine ⟨by decide, by decide, (lintScoped_filterView_iff (by decide) _ _ _ _).mpr ?_⟩
  intro b hb _ _
  obtain rfl : b = ⟨"ui", "api", [], none⟩ := by simpa [apiRule] using hb
  decide

/-- With `load` hidden the rule it meets is reported as broken. -/
theorem lintScoped_filterView_invents :
    lintScoped apiNodes apiEdges [apiRule] [] = [] ∧
      lintScoped (filterView apiNodes apiEdges (some fun n => n.symbol != "load")).nodes
        (filterView apiNodes apiEdges (some fun n => n.symbol != "load")).edges [apiRule] [] =
          [⟨"require", "ui", "api", [], none⟩] := by
  decide

end WeaveGraph.Policy
