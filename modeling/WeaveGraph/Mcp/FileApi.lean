import Mathlib.Data.List.Pairwise
import WeaveGraph.Lib.Joined
import WeaveGraph.Mcp.Session

/-!
# The order of a wiring card

`weave_file_api` sorts the symbols of a file by the text of their line span, so line 10 comes before
line 9:

    every card lists the nodes of its path by start line
      ↔  in each of the files, later start lines have no smaller span texts
                                                          (weaveFileApi_ordered_iff)
-/

namespace WeaveGraph.Mcp

open List

/-- The card has the nodes of its path, each once, by start line. -/
def WiringCard.Ordered (s : SqliteStorage) (card : WiringCard) : Prop :=
  ∃ nodes : List Node, nodes.Perm (s.allNodes.filter fun n => n.path == card.path) ∧
    card.symbols = nodes.map SymbolEntry.fromNode ∧
    nodes.Pairwise fun n m => n.lineStart ≤ m.lineStart

/-- The order the code sorts by. -/
def SpanLe (n m : Node) : Prop := (SymbolEntry.fromNode n).span ≤ (SymbolEntry.fromNode m).span

instance : DecidableRel SpanLe := fun n m =>
  inferInstanceAs (Decidable ((SymbolEntry.fromNode n).span ≤ (SymbolEntry.fromNode m).span))

/-- The spans of a file compare as texts the way their start lines do. -/
def LinesAligned (s : SqliteStorage) (path : String) : Prop :=
  ∀ n ∈ s.allNodes, ∀ m ∈ s.allNodes, n.path = path → m.path = path →
    n.lineStart < m.lineStart → SpanLe n m

theorem lineStart_of_span {n m : Node}
    (h : (SymbolEntry.fromNode n).span = (SymbolEntry.fromNode m).span) :
    n.lineStart = m.lineStart := by
  have hdash : ∀ k : Nat, '-' ∉ ("L" ++ toString k).toList := by
    intro k hk
    rw [String.toList_append, mem_append] at hk
    rcases hk with hk | hk
    · exact absurd hk (by decide)
    · exact absurd (Lib.Text.isDigit_of_mem_toString hk) (by decide)
  have hstart := (Lib.Text.append_firstSep_inj (hdash _) (hdash _) h).1
  exact Lib.Text.toString_inj (String.append_right_inj _ |>.mp hstart)

theorem map_sort (nodes : List Node) :
    (nodes.insertionSort SpanLe).map SymbolEntry.fromNode =
      (nodes.map SymbolEntry.fromNode).insertionSort fun a b => a.span ≤ b.span :=
  map_insertionSort _ _ _ _ fun _ _ _ _ => Iff.rfl

theorem card_ordered_iff (s : SqliteStorage) (path : String) :
    WiringCard.Ordered s ⟨path, ((s.allNodes.filter fun n => n.path == path).insertionSort
      SpanLe).map SymbolEntry.fromNode⟩ ↔ LinesAligned s path := by
  have : IsTrans Node SpanLe := ⟨fun _ _ _ => le_trans⟩
  have : Std.Total SpanLe := ⟨fun _ _ => le_total _ _⟩
  have hmem : ∀ {n}, n ∈ s.allNodes.filter (fun n => n.path == path) ↔
      n ∈ s.allNodes ∧ n.path = path := by simp
  have hsorted := pairwise_insertionSort SpanLe (s.allNodes.filter fun n => n.path == path)
  have hperm := perm_insertionSort SpanLe (s.allNodes.filter fun n => n.path == path)
  constructor
  · rintro ⟨nodes, hnodes, hsame, hlines⟩ n hn m hm hnp hmp hlt
    have hspans : nodes.Pairwise SpanLe := by
      have hmap := pairwise_map (R := fun a b : SymbolEntry => a.span ≤ b.span).mpr hsorted
      dsimp only at hsame
      rw [hsame, pairwise_map] at hmap
      exact hmap
    -- the two are apart in the list, and the later line cannot come first
    have hpair : nodes.Pairwise fun a b => (a.lineStart ≤ b.lineStart ∧ SpanLe a b) ∨
        (b.lineStart ≤ a.lineStart ∧ SpanLe b a) := (hlines.and hspans).imp Or.inl
    have : Std.Symm fun a b : Node => (a.lineStart ≤ b.lineStart ∧ SpanLe a b) ∨
        (b.lineStart ≤ a.lineStart ∧ SpanLe b a) := ⟨fun _ _ => Or.symm⟩
    rcases hpair.forall (hnodes.mem_iff.mpr (hmem.mpr ⟨hn, hnp⟩))
      (hnodes.mem_iff.mpr (hmem.mpr ⟨hm, hmp⟩)) (fun h => by rw [h] at hlt; omega) with h | h
    · exact h.2
    · exact absurd h.1 (by omega)
  · intro hlines
    refine ⟨_, hperm, rfl, hsorted.imp_of_mem fun {n m} hn hm hspan => ?_⟩
    by_contra hlt
    obtain ⟨hn, hnp⟩ := hmem.mp (hperm.mem_iff.mp hn)
    obtain ⟨hm, hmp⟩ := hmem.mp (hperm.mem_iff.mp hm)
    have hspan' := hlines m hm n hn hmp hnp (by omega)
    have := lineStart_of_span (le_antisymm hspan hspan')
    omega

/-- Every card lists the nodes of its path by start line iff the spans of each requested file
compare as texts the way their start lines do. -/
theorem weaveFileApi_ordered_iff (s : SqliteStorage) (paths : List String) :
    (∀ card ∈ weaveFileApi s paths none, card.Ordered s) ↔ ∀ path ∈ paths, LinesAligned s path := by
  unfold weaveFileApi
  rw [forall_mem_map]
  refine forall₂_congr fun path _ => ?_
  rw [← card_ordered_iff, map_sort]
  rfl

/-- A file with symbols at lines 9 and 10. -/
def nineTen : SqliteStorage := { SqliteStorage.openFresh with
  nodes := SqliteStorage.freshNodes [⟨0, "local", "a.rs", "f", "function", 9, 9, "fn f()"⟩,
     ⟨0, "local", "a.rs", "g", "function", 10, 12, "fn g()"⟩] }

theorem weaveFileApi_ten_before_nine :
    (weaveFileApi nineTen ["a.rs"] none).map (fun card => card.symbols.map SymbolEntry.span) =
        [["L10-12", "L9-9"]] ∧
      ¬ ∀ card ∈ weaveFileApi nineTen ["a.rs"] none, card.Ordered nineTen := by
  refine ⟨by decide +kernel, fun h => ?_⟩
  have hcard := h ⟨"a.rs", ((nineTen.allNodes.filter fun n => n.path == "a.rs").map
    SymbolEntry.fromNode).insertionSort fun a b => a.span ≤ b.span⟩ mem_cons_self
  rw [← map_sort, card_ordered_iff] at hcard
  exact absurd hcard (by unfold LinesAligned; decide +kernel)

end WeaveGraph.Mcp
