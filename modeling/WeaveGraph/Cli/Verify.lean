import WeaveGraph.Cli.Ambiguity
import WeaveGraph.Core.Policy

/-!
# Required guards

`weave verify` reports every direct caller of a guarded symbol that is not on the guard's list.  A
guard names a moniker, and the check looks for callers of the first node that has it.  An edge onto
another node of the moniker is not looked at; the indexer links calls to the last one
(`requiredGuardViolations_iff`, `requiredGuardViolations_misses_overload`).
-/

namespace WeaveGraph.Verify

open List SqliteStorage Indexer

structure RequiredGuardSpec where
  symbol : String
  allowedCallers : List String
deriving Repr, DecidableEq

structure Finding where
  check : String
  file : String
  message : String
deriving Repr, DecidableEq

def guardFinding (guard : RequiredGuardSpec) (caller : Node) : Option Finding :=
  if guard.allowedCallers.contains caller.moniker then none
  else some
    { check := "required_guards"
      file := caller.path
      message := caller.moniker ++ " calls guarded symbol " ++ guard.symbol ++
        " but isn't in its allowed_callers list" }

def guardViolations (nodes : List Node) (edges : List Edge) (guard : RequiredGuardSpec) :
    List Finding :=
  match nodes.find? fun n => n.moniker == guard.symbol with
  | none => []
  | some node =>
    ((edges.filter fun e => e.targetId == node.id).filterMap fun e =>
      Policy.nodeById nodes e.sourceId).filterMap (guardFinding guard)

def requiredGuardViolations (nodes : List Node) (edges : List Edge)
    (guards : List RequiredGuardSpec) : List Finding :=
  guards.flatMap (guardViolations nodes edges)

/-! ## What a guard is for -/

/-- The edge ends at a node of the guarded moniker. -/
def LandsOn (nodes : List Node) (guard : RequiredGuardSpec) (e : Edge) : Prop :=
  ∃ n ∈ nodes, n.id = e.targetId ∧ n.moniker = guard.symbol
deriving Decidable

/-- The finding an edge is worth when its source is outside the allowed callers. -/
def callerFinding (nodes : List Node) (guard : RequiredGuardSpec) (e : Edge) : Option Finding :=
  (Policy.nodeById nodes e.sourceId).bind (guardFinding guard)

/-- One finding for every edge from outside onto any node of the guarded moniker. -/
def guardOffences (nodes : List Node) (edges : List Edge) (guard : RequiredGuardSpec) :
    List Finding :=
  (edges.filter fun e => LandsOn nodes guard e).filterMap (callerFinding nodes guard)

/-- The edge ends at the first node of the guarded moniker. -/
def LandsOnFirst (nodes : List Node) (guard : RequiredGuardSpec) (e : Edge) : Prop :=
  (nodes.find? fun n => n.moniker == guard.symbol).map Node.id = some e.targetId
deriving Decidable

theorem LandsOnFirst.landsOn {nodes : List Node} {guard : RequiredGuardSpec} {e : Edge}
    (h : LandsOnFirst nodes guard e) : LandsOn nodes guard e := by
  obtain ⟨n, hn, he⟩ := Option.map_eq_some_iff.mp h
  exact ⟨n, mem_of_find?_eq_some hn, he, by simpa using find?_some hn⟩

/-! ## Findings that are left out -/

section filterMap

variable {α β : Type} {f g : α → Option β}

theorem length_filterMap_le : ∀ {l : List α}, (∀ a ∈ l, f a = none ∨ f a = g a) →
    (l.filterMap f).length ≤ (l.filterMap g).length := by
  intro l h
  rw [length_filterMap_eq_countP, length_filterMap_eq_countP]
  refine countP_mono_left fun a ha hf => ?_
  rcases h a ha with hn | he
  · simp [hn] at hf
  · rwa [← he]

theorem filterMap_subperm_iff : ∀ {l : List α}, (∀ a ∈ l, f a = none ∨ f a = g a) →
    ((l.filterMap g).Subperm (l.filterMap f) ↔ ∀ a ∈ l, f a = g a) := by
  intro l h
  constructor
  · intro hsub
    have hlen := hsub.length_le
    clear hsub
    induction l with
    | nil => exact fun a ha => absurd ha not_mem_nil
    | cons a l ih =>
      have hl : ∀ b ∈ l, f b = none ∨ f b = g b := fun b hb => h b (mem_cons_of_mem _ hb)
      have hle := length_filterMap_le hl
      simp only [filterMap_cons] at hlen
      have ha : f a = g a := by
        rcases h a mem_cons_self with hn | he
        · cases hg : g a with
          | none => exact hn
          | some b =>
            rw [hn, hg] at hlen
            simp only [length_cons] at hlen
            omega
        · exact he
      have hlen' : (l.filterMap g).length ≤ (l.filterMap f).length := by
        rw [ha] at hlen
        cases hg : g a with
        | none => simpa only [hg] using hlen
        | some b => simpa only [hg, length_cons, Nat.add_le_add_iff_right] using hlen
      exact forall_mem_cons.mpr ⟨ha, ih hl hlen'⟩
  · intro hfg
    rw [filterMap_congr hfg]

end filterMap

/-! ## Edges the check looks at -/

section edges

variable (nodes : List Node) (edges : List Edge)

theorem guardViolations_eq (guard : RequiredGuardSpec) :
    guardViolations nodes edges guard =
      (edges.filter fun e => LandsOnFirst nodes guard e).filterMap (callerFinding nodes guard) := by
  unfold guardViolations
  cases hfind : nodes.find? fun n => n.moniker == guard.symbol with
  | none =>
    rw [filter_eq_nil_iff.mpr (by simp [LandsOnFirst, hfind]), filterMap_nil]
  | some node =>
    simp only
    rw [filterMap_filterMap]
    congr 1
    refine filter_congr fun e _ => ?_
    rw [Bool.eq_iff_iff, beq_iff_eq, decide_eq_true_iff, LandsOnFirst, hfind, Option.map_some,
      Option.some.injEq, eq_comm]

theorem flatMap_filter_filterMap (p : RequiredGuardSpec → Edge → Bool)
    (guards : List RequiredGuardSpec) :
    (guards.flatMap fun g => (edges.filter (p g)).filterMap (callerFinding nodes g)) =
      (guards.flatMap fun g => edges.map fun e => (g, e)).filterMap fun ge =>
        if p ge.1 ge.2 then callerFinding nodes ge.1 ge.2 else none := by
  rw [filterMap_flatMap]
  congr 1
  funext g
  rw [filterMap_map, filterMap_filter]
  rfl

end edges

theorem reported_iff (nodes : List Node) (edges : List Edge)
    (guards : List RequiredGuardSpec) :
    (guards.flatMap (guardOffences nodes edges)).Subperm
        (requiredGuardViolations nodes edges guards) ↔
      ∀ guard ∈ guards, ∀ e ∈ edges, LandsOn nodes guard e →
        (callerFinding nodes guard e).isSome → LandsOnFirst nodes guard e := by
  have hreported : requiredGuardViolations nodes edges guards = _ :=
    (congrArg guards.flatMap (funext fun g => guardViolations_eq nodes edges g)).trans
      (flatMap_filter_filterMap nodes edges (fun g e => LandsOnFirst nodes g e) guards)
  have hall : guards.flatMap (guardOffences nodes edges) = _ :=
    flatMap_filter_filterMap nodes edges (fun g e => LandsOn nodes g e) guards
  rw [hreported, hall, filterMap_subperm_iff]
  · simp only [mem_flatMap, mem_map, decide_eq_true_eq]
    constructor
    · intro h guard hguard e he hon hsome
      have heq := h (guard, e) ⟨guard, hguard, e, he, rfl⟩
      by_contra hfirst
      rw [if_neg hfirst, if_pos hon] at heq
      rw [← heq] at hsome
      cases hsome
    · rintro h - ⟨guard, hguard, e, he, rfl⟩
      by_cases hfirst : LandsOnFirst nodes guard e
      · rw [if_pos hfirst, if_pos hfirst.landsOn]
      · rw [if_neg hfirst]
        by_cases hon : LandsOn nodes guard e
        · rw [if_pos hon]
          cases hc : callerFinding nodes guard e with
          | none => rfl
          | some finding => exact absurd (h guard hguard e he hon (by simp [hc])) hfirst
        · rw [if_neg hon]
  · rintro ⟨guard, e⟩ -
    simp only [decide_eq_true_eq]
    by_cases hfirst : LandsOnFirst nodes guard e
    · exact Or.inr (by rw [if_pos hfirst, if_pos hfirst.landsOn])
    · exact Or.inl (if_neg hfirst)

/-! ## The graph of a full run -/

section run

variable {ix : Indexer} {active s : SqliteStorage} {files : List SourceFile} {stats : IndexStats}
  {m : String} {b : Node}

variable (ix files) in
/-- The first declaration under a moniker. -/
def firstKey (m : String) : Option (String × String × String × Nat) :=
  (ix.symbolKeys files).find? fun k => keyMoniker k == m

variable (ix files) in
/-- If a reference from outside is linked to the guarded symbol, its first declaration is the last
one. -/
def GuardedOnce (guard : RequiredGuardSpec) : Prop :=
  ∀ p ∈ ix.parsedFiles files, ∀ r ∈ p.2.refs, ∀ l ∈ r.links (ix.declaredAs files r.name),
    l.target = guard.symbol → l.source ∉ guard.allowedCallers →
      (ix.lastKey files l.source).isSome = true →
        firstKey ix files guard.symbol = ix.lastKey files guard.symbol

theorem firstKey_eq_lastKey_iff (hb : lastOf (ix.codeNodes files).rows m = some b) :
    firstKey ix files m = ix.lastKey files m ↔
      ((ix.codeNodes files).rows.find? fun n => n.moniker == m).map Node.id = some b.id := by
  have hmem := (mem_of_lastOf hb).1
  rw [firstKey, lastKey_eq, hb, ← codeNodes_keys, find?_map, Option.map_some]
  show Option.map Node.naturalKey (find? (fun n => n.moniker == m) _) = _ ↔ _
  cases hfirst : (ix.codeNodes files).rows.find? fun n => n.moniker == m with
  | none => simp
  | some n =>
    have hn := mem_of_find?_eq_some hfirst
    simp only [Option.map_some, Option.some.injEq]
    constructor
    · intro hkey
      rw [(ix.codeNodes files).uk_inj hn hmem hkey]
    · intro hid
      rw [(ix.codeNodes files).pk_inj hn hmem hid]

/-- An offence of the graph comes from a reference, and every reference from outside is one. -/
theorem landsOnFirst_iff (hnodes : s.nodes.rows = (ix.codeNodes files).rows)
    (hedges : s.edges = (ix.codeGraph files).edges) (guard : RequiredGuardSpec) :
    (∀ e ∈ s.allEdges, LandsOn s.allNodes guard e →
      (callerFinding s.allNodes guard e).isSome → LandsOnFirst s.allNodes guard e) ↔
        GuardedOnce ix files guard := by
  have hcaller : ∀ {a : Node} {e : Edge}, a ∈ s.nodes.rows → a.id = e.sourceId →
      ((callerFinding s.allNodes guard e).isSome ↔ a.moniker ∉ guard.allowedCallers) := by
    intro a e ha hid
    have hget : Policy.nodeById s.allNodes e.sourceId = some a := hid ▸ getNode_eq ha
    simp [callerFinding, hget, guardFinding]
  have hfirst : ∀ {b : Node} {e : Edge}, lastOf (ix.codeNodes files).rows guard.symbol = some b →
      b.id = e.targetId → (LandsOnFirst s.allNodes guard e ↔
        firstKey ix files guard.symbol = ix.lastKey files guard.symbol) := by
    intro b e hb hid
    rw [firstKey_eq_lastKey_iff hb, LandsOnFirst, allNodes, hnodes, hid]
  constructor
  · intro h p hp r hr l hl htarget hout hdeclared
    obtain ⟨a, ha⟩ := Option.isSome_iff_exists.mp
      (Option.isSome_map ▸ lastKey_eq ix files l.source ▸ hdeclared)
    have hreach := (Ref.mem_links.mp hl).2.1.1
    rw [declaredAs_eq] at hreach
    obtain ⟨n, hn, -, hmoniker⟩ := mem_candidates_iff.mp hreach
    obtain ⟨b, hb⟩ := exists_lastOf.mpr (mem_map.mpr ⟨n, hn, hmoniker⟩)
    obtain ⟨e, he, hkey⟩ := mem_map.mp
      (codeGraph_hasEdge.mpr ⟨p, hp, r, hr, l, hl, rfl, ⟨a, ha, rfl⟩, ⟨b, hb, rfl⟩⟩)
    simp only [Edge.naturalKey, Prod.mk.injEq] at hkey
    obtain ⟨hs, ht, -⟩ := hkey
    obtain ⟨hbmem, hbm⟩ := mem_of_lastOf hb
    obtain ⟨hamem, ham⟩ := mem_of_lastOf ha
    rw [← hedges] at he
    rw [← hnodes] at hbmem hamem
    refine (hfirst (htarget ▸ hb) ht.symm).mp (h e ((mem_insertionSort _).mpr he)
      ⟨b, hbmem, ht.symm, hbm.trans htarget⟩ ((hcaller hamem hs.symm).mpr ?_))
    rwa [ham]
  · rintro h e he ⟨n, hn, hid, hmoniker⟩ hsome
    have hkey : HasEdge (e.sourceId, e.targetId, e.kind) (ix.codeGraph files) := by
      rw [HasEdge, ← hedges]
      exact mem_map_of_mem ((mem_insertionSort _).mp he)
    obtain ⟨p, hp, r, hr, l, hl, -, ⟨a, ha, hai⟩, ⟨b, hb, hbj⟩⟩ := codeGraph_hasEdge.mp hkey
    obtain ⟨hbmem, hbm⟩ := mem_of_lastOf hb
    obtain ⟨hamem, ham⟩ := mem_of_lastOf ha
    rw [← hnodes] at hbmem hamem
    obtain rfl : b = n := s.nodes.pk_inj hbmem hn (hbj.trans hid.symm)
    have htarget : l.target = guard.symbol := hbm.symm.trans hmoniker
    refine (hfirst (htarget ▸ hb) hbj).mpr (h p hp r hr l hl htarget ?_ ?_)
    · rw [← ham]
      exact (hcaller hamem hai).mp hsome
    · rw [lastKey_eq, ha]
      rfl

end run

/-- Every edge from outside onto a guarded moniker is reported exactly if each of them ends at the
first node that has the moniker.  In the graph of a full run they end at the last one, so every one
is reported exactly if each guarded symbol that is referred to from outside is declared once, or its
first declaration counts as the last. -/
theorem requiredGuardViolations_iff (guards : List RequiredGuardSpec) :
    (∀ nodes edges, (guards.flatMap (guardOffences nodes edges)).Subperm
        (requiredGuardViolations nodes edges guards) ↔
      ∀ guard ∈ guards, ∀ e ∈ edges, LandsOn nodes guard e →
        (callerFinding nodes guard e).isSome → LandsOnFirst nodes guard e) ∧
    ∀ (ix : Indexer) (active s : SqliteStorage) (files : List SourceFile) (stats : IndexStats),
      ix.Undocumented files → ix.fullReindex active files = .ok (stats, s) →
        ((guards.flatMap (guardOffences s.allNodes s.allEdges)).Subperm
            (requiredGuardViolations s.allNodes s.allEdges guards) ↔
          ∀ guard ∈ guards, GuardedOnce ix files guard) := by
  refine ⟨fun nodes edges => reported_iff nodes edges guards,
    fun ix active s files stats hdocs h => ?_⟩
  obtain ⟨stats', hok⟩ := fullReindex_eq ix active files hdocs
  rw [h] at hok
  cases hok
  rw [reported_iff]
  refine forall₂_congr fun guard _ => landsOnFirst_iff ?_ ?_ guard
  · rw [carryOverSpans_nodes, codeGraph_nodes]
  · rw [carryOverSpans_edges]

/-- A guard of `go` that allows no caller. -/
def goGuard : RequiredGuardSpec := ⟨"a.rs#go", []⟩

theorem requiredGuardViolations_twoFiles :
    ∃ stats s, memberCallIndexer.fullReindex openFresh twoFiles = .ok (stats, s) ∧
      ([goGuard].flatMap (guardOffences s.allNodes s.allEdges)).Subperm
        (requiredGuardViolations s.allNodes s.allEdges [goGuard]) := by
  obtain ⟨stats, hok⟩ := fullReindex_eq memberCallIndexer openFresh twoFiles (.inl rfl)
  have honce : firstKey memberCallIndexer twoFiles goGuard.symbol =
      memberCallIndexer.lastKey twoFiles goGuard.symbol := by decide +kernel
  refine ⟨stats, _, hok, ((requiredGuardViolations_iff _).2 _ _ _ _ _ (.inl rfl) hok).mpr ?_⟩
  rintro guard hguard p - r - l - - - -
  rwa [mem_singleton.mp hguard]

/-- The database after a full run over a call and two overloads of its callee. -/
def overloadedStore : SqliteStorage :=
  memberCallIndexer.reindex .openFresh
    (.full [⟨"m.rs", "call"⟩, ⟨"a.rs", "overloads"⟩])

/-- The call is linked to the second overload, and the check looks at the first. -/
theorem requiredGuardViolations_misses_overload :
    requiredGuardViolations overloadedStore.allNodes overloadedStore.allEdges [goGuard] = [] ∧
      guardOffences overloadedStore.allNodes overloadedStore.allEdges goGuard =
        [⟨"required_guards", "m.rs",
          "m.rs#main calls guarded symbol a.rs#go but isn't in its allowed_callers list"⟩] := by
  decide +kernel

end WeaveGraph.Verify
