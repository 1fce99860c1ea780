import WeaveGraph.Core.Policy
import WeaveGraph.Lib.FirstPath

/-!
# What the cycle search finds

The files and the successors of a file are taken in increasing order, so `dfs_cycle` meets every
file along the lexicographically first path to it (`Good.settled`), and the rings it cuts out of its
stack are the rings that a back edge closes on such a path (`mem_found`): no more, and no fewer.

From this follow: a graph has a cycle exactly when a ring is found (`findCycles_eq_nil_iff`); when
the entries are in canonical form (`findCycles_canonical_iff`), since `rotate_canonical` moves a
ring that is closed already; and when every file of a cycle is in one of them
(`findCycles_covers_iff`).
-/

namespace WeaveGraph.Policy

open List Lib
open Lib (Simple Next FirstTo Settled FirstRing)

namespace FileGraph

def Root (g : FileGraph) (a : String) : Prop := a ∈ g.keys

def Dep (g : FileGraph) (a b : String) : Prop := b ∈ g.get a

theorem dep_iff {g : FileGraph} {a b : String} : g.Dep a b ↔ (a, b) ∈ g.pairs := by
  rw [Dep, get, Text.mem_sortedSet, mem_bucket]

theorem root_iff {g : FileGraph} {a : String} : g.Root a ↔ ∃ b, g.Dep a b := by
  simp only [Root, keys, Text.mem_sortedSet, mem_map, dep_iff, Prod.exists,
    exists_and_right, exists_eq_right]

end FileGraph

namespace CycleSearch

/-! ## The invariant -/

def Done (st : CycleSearch) (file : String) : Prop := st.color.get file = some .done

/-- The state of the search between two steps. -/
structure Good (g : FileGraph) (st : CycleSearch) : Prop where
  simple : Simple g.Root g.Dep st.stack
  onStack : ∀ x, st.color.get x = some .onStack ↔ x ∈ st.stack
  closed : ∀ x, st.Done x → ∀ w, g.Dep x w → st.Done w ∨ w ∈ st.stack
  settled : Settled g.Root g.Dep st.Done st.stack
  first : ∀ x, st.color.get x ≠ none → ∃ p, FirstTo g.Root g.Dep x p
  nodup : st.found.Nodup
  sound : ∀ l ∈ st.found, FirstRing g.Root g.Dep l
  complete : ∀ x, st.Done x → ∀ p y q, FirstTo g.Root g.Dep x (p ++ y :: q) → g.Dep x y →
    (y :: q) ++ [y] ∈ st.found

/-- The state after `files`, which can come next, were visited. -/
structure Visits (g : FileGraph) (st : CycleSearch) (files : List String) (st' : CycleSearch) :
    Prop where
  good : Good g st'
  stack : st'.stack = st.stack
  done : ∀ x, st.Done x → st'.Done x
  found : ∀ l ∈ st.found, l ∈ st'.found
  seen : ∀ file ∈ files, st'.color.get file ≠ none
  ring : ∀ file ∈ files, ∀ p q, st.stack = p ++ file :: q → (file :: q) ++ [file] ∈ st'.found

section search

variable {g : FileGraph} {st st' : CycleSearch} {file : String}

theorem good_new : Good g new where
  simple := simple_nil
  onStack x := by simp [new]
  closed x hx := by simp [new, Done] at hx
  settled c b q h := by simp [new] at h
  first x hx := by simp [new] at hx
  nodup := nodup_nil
  sound l hl := absurd hl not_mem_nil
  complete x hx := by simp [new, Done] at hx

theorem Good.not_done (h : Good g st) (hfile : file ∈ st.stack) : ¬ st.Done file := by
  intro hdone
  rw [Done, (h.onStack file).mpr hfile] at hdone
  cases hdone

theorem Good.done_of_not_mem (h : Good g st) (hseen : st.color.get file ≠ none)
    (hfile : file ∉ st.stack) : st.Done file := by
  unfold Done
  cases hc : st.color.get file with
  | none => exact absurd hc hseen
  | some c =>
    cases c with
    | onStack => exact absurd ((h.onStack file).mp hc) hfile
    | done => rfl

variable {x : String} {univ : List String}

theorem Visits.seen_of_seen {files : List String} (h : Visits g st files st') (hgood : Good g st)
    (hx : st.color.get x ≠ none) : st'.color.get x ≠ none := by
  by_cases hmem : x ∈ st.stack
  · rw [(h.good.onStack x).mpr (h.stack ▸ hmem)]
    simp
  · have hdone : st'.color.get x = some .done := h.done x (hgood.done_of_not_mem hx hmem)
    rw [hdone]
    simp

theorem Visits.cons {st'' : CycleSearch} {files : List String} (h : Visits g st [file] st')
    (h' : Visits g st' files st'') : Visits g st (file :: files) st'' where
  good := h'.good
  stack := h'.stack.trans h.stack
  done x hx := h'.done x (h.done x hx)
  found l hl := h'.found l (h.found l hl)
  seen a ha := by
    rcases mem_cons.mp ha with rfl | ha
    · exact h'.seen_of_seen h.good (h.seen a (mem_singleton.mpr rfl))
    · exact h'.seen a ha
  ring a ha p q hstack := by
    rcases mem_cons.mp ha with rfl | ha
    · exact h'.found _ (h.ring a (mem_singleton.mpr rfl) p q hstack)
    · exact h'.ring a ha p q (h.stack.trans hstack)

theorem insertRing_spec {found : List (List String)} {l : List String} (h : found.Nodup) :
    (insertRing found l).Nodup ∧ ∀ l', l' ∈ insertRing found l ↔ l' = l ∨ l' ∈ found := by
  unfold insertRing
  by_cases hl : l ∈ found
  · rw [if_pos hl]
    refine ⟨h, fun l' => ⟨Or.inr, ?_⟩⟩
    rintro (rfl | hl')
    · exact hl
    · exact hl'
  · rw [if_neg hl]
    refine ⟨?_, fun l' => mem_orderedInsert _⟩
    exact (perm_orderedInsert _ l found).nodup_iff.mpr (nodup_cons.mpr ⟨hl, h⟩)

theorem ring_eq {p q : List String} (hfile : file ∉ p) :
    ring (p ++ file :: q) file = (file :: q) ++ [file] := by
  have hidx : (p ++ file :: q).idxOf? file = some p.length := by
    refine idxOf?_eq_some_iff.mpr ⟨by simp, by simp, fun j hj he => hfile ?_⟩
    rw [getElem_append_left hj] at he
    exact he ▸ getElem_mem hj
  rw [ring, hidx, Option.getD_some, drop_left]

/-- A back edge closes a ring of the first path to the file it comes from. -/
theorem Good.visit_onStack (h : Good g st) (hnext : Next g.Root g.Dep st.stack file)
    (hfile : file ∈ st.stack) :
    Visits g st [file] { st with found := insertRing st.found (ring st.stack file) } := by
  obtain ⟨p, q, hstack, hp⟩ := eq_append_cons_of_mem hfile
  obtain ⟨hnodup, hmem⟩ := insertRing_spec (l := ring st.stack file) h.nodup
  have hring : ring st.stack file = (file :: q) ++ [file] := by rw [hstack, ring_eq hp]
  obtain ⟨x, hx⟩ : ∃ x, st.stack.getLast? = some x := by
    rw [← Option.ne_none_iff_exists', Ne, getLast?_eq_none_iff]
    exact ne_nil_of_mem hfile
  have hdep : g.Dep x file := by
    rw [Next, hx] at hnext
    exact hnext
  have hfirst := h.settled.firstTo h.simple hx (h.not_done (mem_of_getLast? hx))
  refine ⟨⟨h.simple, h.onStack, h.closed, h.settled, h.first, hnodup, fun l hl => ?_, ?_⟩, rfl,
    fun x hx => hx, fun l hl => (hmem l).mpr (Or.inr hl), fun a ha => ?_,
    fun a ha p' q' hsplit => ?_⟩
  · rcases (hmem l).mp hl with rfl | hl
    · exact ⟨p, file, q, x, hstack ▸ hfirst, hdep, hring⟩
    · exact h.sound l hl
  · exact fun x hx p y q hfirst hdep => (hmem _).mpr (Or.inr (h.complete x hx p y q hfirst hdep))
  · rw [mem_singleton.mp ha, (h.onStack file).mpr hfile]
    simp
  · rw [mem_singleton.mp ha] at hsplit ⊢
    have hsimple := h.simple
    rw [hsplit] at hsimple
    refine (hmem _).mpr (Or.inl ?_)
    rw [hsplit, ring_eq hsimple.next.2]

theorem Good.visit_done (h : Good g st) (hfile : st.Done file) : Visits g st [file] st where
  good := h
  stack := rfl
  done := fun x hx => hx
  found := fun l hl => hl
  seen a ha := by
    rw [mem_singleton.mp ha, hfile]
    simp
  ring a ha p q hstack := by
    refine absurd hfile (h.not_done ?_)
    rw [hstack, mem_singleton.mp ha]
    exact mem_append_right _ mem_cons_self

/-! ## Entering and leaving a file -/

theorem done_enter (hfile : st.color.get file = none) : (st.enter file).Done x ↔ st.Done x := by
  show (st.color.insert file .onStack).get x = some .done ↔ _
  rw [FinMap.get_insert, Done]
  by_cases hx : file = x
  · rw [if_pos hx, ← hx, hfile]
    simp
  · rw [if_neg hx]

theorem done_leave : (st.leave file).Done x ↔ x = file ∨ st.Done x := by
  show (st.color.insert file .done).get x = some .done ↔ _
  rw [FinMap.get_insert, Done]
  by_cases hx : file = x
  · simp [hx]
  · simp [hx, Ne.symm hx]

/-- From a file that is done, ways that do not meet the stack lead to files that are done. -/
theorem Good.done_of_reaches (h : Good g st) {a : String} (ha : st.Done a)
    (hx : Relation.ReflTransGen (fun u w => g.Dep u w ∧ w ∉ st.stack) a x) : st.Done x := by
  induction hx with
  | refl => exact ha
  | tail _ hstep ih => exact (h.closed _ ih _ hstep.1).resolve_right hstep.2

theorem Good.settled_enter (h : Good g st) (hfile : st.color.get file = none)
    (hsmaller : ∀ a, a < file → Next g.Root g.Dep st.stack a → st.color.get a ≠ none) :
    Settled g.Root g.Dep (st.enter file).Done (st.stack ++ [file]) := by
  intro c b q hsplit a hab hnext ha x hx
  rw [done_enter hfile]
  rcases eq_nil_or_concat q with rfl | ⟨q, w, rfl⟩
  · obtain ⟨rfl, hb⟩ := append_inj' hsplit rfl
    cases hb
    exact h.done_of_reaches (h.done_of_not_mem (hsmaller a hab hnext) ha) hx
  · rw [concat_eq_append, ← cons_append, ← append_assoc] at hsplit
    obtain ⟨hstack, -⟩ := append_inj' hsplit rfl
    exact h.settled c b q hstack a hab hnext ha x hx

theorem Good.enter (h : Good g st) (hnext : Next g.Root g.Dep st.stack file)
    (hfile : st.color.get file = none)
    (hsmaller : ∀ a, a < file → Next g.Root g.Dep st.stack a → st.color.get a ≠ none) :
    Good g (st.enter file) := by
  have hnot : file ∉ st.stack := by
    intro hmem
    rw [(h.onStack file).mpr hmem] at hfile
    cases hfile
  have hsimple := h.simple.snoc hnext hnot
  have hsettled := h.settled_enter hfile hsmaller
  have hnew : ∀ x, (st.enter file).color.get x =
      if file = x then some .onStack else st.color.get x :=
    fun x => FinMap.get_insert _ _ _ _
  refine ⟨hsimple, fun x => ?_, fun x hx w hw => ?_, hsettled, fun x hx => ?_, h.nodup, h.sound,
    fun x hx => h.complete x ((done_enter hfile).mp hx)⟩
  · show _ ↔ x ∈ st.stack ++ [file]
    rw [hnew, mem_append, mem_singleton]
    by_cases hx : file = x
    · simp [hx]
    · simp [hx, Ne.symm hx, h.onStack]
  · rw [done_enter hfile] at hx ⊢
    exact (h.closed x hx w hw).imp_right (mem_append_left _)
  · by_cases hxf : file = x
    · subst hxf
      refine ⟨_, hsettled.firstTo hsimple getLast?_concat fun hdone => ?_⟩
      rw [done_enter hfile, Done, hfile] at hdone
      cases hdone
    · rw [hnew, if_neg hxf] at hx
      exact h.first x hx

theorem Good.leave (h : Good g st) {s : List String} (hstack : st.stack = s ++ [file])
    (hseen : ∀ w, g.Dep file w → st.color.get w ≠ none)
    (hring : ∀ y p q, g.Dep file y → st.stack = p ++ y :: q → (y :: q) ++ [y] ∈ st.found) :
    Good g (st.leave file) := by
  have hpop : (st.leave file).stack = s := by
    show st.stack.dropLast = s
    rw [hstack, dropLast_concat]
  have hsimple := h.simple
  have hsettled := h.settled
  have hmem : ∀ {x}, x ∈ st.stack ↔ x ∈ s ∨ x = file := by
    intro x
    rw [hstack, mem_append, mem_singleton]
  rw [hstack] at hsimple hsettled
  have hnot : file ∉ s := hsimple.next.2
  have hlast : st.stack.getLast? = some file := by rw [hstack, getLast?_concat]
  have hfirst := h.settled.firstTo h.simple hlast (h.not_done (hmem.mpr (Or.inr rfl)))
  have hclosed : ∀ w, st.Done w ∨ w ∈ st.stack → (st.leave file).Done w ∨ w ∈ s := by
    intro w hw
    rw [done_leave]
    rcases hw with hw | hw
    · exact Or.inl (Or.inr hw)
    · rcases hmem.mp hw with hw | hw
      · exact Or.inr hw
      · exact Or.inl (Or.inl hw)
  have hnew : ∀ x, (st.leave file).color.get x = if file = x then some .done else st.color.get x :=
    fun x => FinMap.get_insert _ _ _ _
  refine ⟨hpop ▸ hsimple.left, fun x => ?_, fun x hx w hw => ?_, ?_, fun x hx => ?_, h.nodup,
    h.sound, fun x hx p y q hfirst' hdep => ?_⟩
  · rw [hpop, hnew]
    by_cases hx : file = x
    · subst hx
      simp [hnot]
    · rw [if_neg hx, h.onStack, hmem]
      simp [Ne.symm hx]
  · rw [hpop]
    refine hclosed w ?_
    rcases done_leave.mp hx with rfl | hx
    · by_cases hws : w ∈ st.stack
      · exact Or.inr hws
      · exact Or.inl (h.done_of_not_mem (hseen w hw) hws)
    · exact h.closed x hx w hw
  · rw [hpop]
    intro c b q hsplit a hab hnext ha x hx
    refine done_leave.mpr (Or.inr (hsettled c b (q ++ [file]) ?_ a hab hnext ha x hx))
    rw [hsplit, append_assoc, cons_append]
  · by_cases hxf : file = x
    · exact ⟨_, hxf ▸ hfirst⟩
    · rw [hnew, if_neg hxf] at hx
      exact h.first x hx
  · rcases done_leave.mp hx with rfl | hx
    · exact hring y p q hdep (hfirst.unique hfirst')
    · exact h.complete x hx p y q hfirst' hdep

/-! ## The search -/

theorem foldl_visits {visit : CycleSearch → String → CycleSearch} {n : Nat}
    (hvisit : ∀ st file, Good g st → n ≤ st.stack.length → Next g.Root g.Dep st.stack file →
      (∀ a, a < file → Next g.Root g.Dep st.stack a → st.color.get a ≠ none) →
      Visits g st [file] (visit st file)) :
    ∀ {files : List String} {st : CycleSearch}, Good g st → n ≤ st.stack.length →
    files.Pairwise (· < ·) → (∀ a ∈ files, Next g.Root g.Dep st.stack a) →
    (∀ a, Next g.Root g.Dep st.stack a → a ∈ files ∨ st.color.get a ≠ none) →
    Visits g st files (files.foldl visit st) := by
  intro files
  induction files with
  | nil =>
    intro st h _ _ _ _
    exact ⟨h, rfl, fun x hx => hx, fun l hl => hl, fun a ha => absurd ha not_mem_nil,
      fun a ha => absurd ha not_mem_nil⟩
  | cons file files ih =>
    intro st h hn hsorted hnext hall
    obtain ⟨hlt, hsorted⟩ := pairwise_cons.mp hsorted
    have hsmaller : ∀ a, a < file → Next g.Root g.Dep st.stack a → st.color.get a ≠ none := by
      intro a ha hna
      refine (hall a hna).resolve_left fun hmem => ?_
      rcases mem_cons.mp hmem with rfl | hmem
      · exact lt_irrefl _ ha
      · exact lt_asymm ha (hlt a hmem)
    have hfirst := hvisit st file h hn (hnext file mem_cons_self) hsmaller
    refine hfirst.cons (ih hfirst.good (hfirst.stack ▸ hn) hsorted (fun a ha => ?_) fun a ha => ?_)
    · rw [hfirst.stack]
      exact hnext a (mem_cons_of_mem _ ha)
    · rw [hfirst.stack] at ha
      rcases hall a ha with hmem | hseen
      · rcases mem_cons.mp hmem with rfl | hmem
        · exact Or.inr (hfirst.seen a (mem_singleton.mpr rfl))
        · exact Or.inl hmem
      · exact Or.inr (hfirst.seen_of_seen h hseen)

theorem Good.stack_length_le (h : Good g st) (huniv : ∀ x, g.Root x → x ∈ univ)
    (hdep : ∀ a b, g.Dep a b → b ∈ univ) : st.stack.length ≤ univ.length := by
  refine (subperm_of_subset h.simple.nodup fun x hx => ?_).length_le
  obtain ⟨s, t, hst⟩ := append_of_mem hx
  have hnext := (hst ▸ h.simple).next.1
  rcases eq_nil_or_concat s with rfl | ⟨s, a, rfl⟩
  · exact huniv x hnext
  · rw [concat_eq_append, next_snoc] at hnext
    exact hdep a x hnext

/-- **One call of `dfs_cycle`** keeps the invariant, whatever the file is that comes next. -/
theorem dfsCycle_visits (huniv : ∀ x, g.Root x → x ∈ univ) (hdep : ∀ a b, g.Dep a b → b ∈ univ) :
    ∀ {fuel : Nat} (st : CycleSearch) (file : String),
    Good g st → univ.length + 1 ≤ fuel + st.stack.length → Next g.Root g.Dep st.stack file →
    (∀ a, a < file → Next g.Root g.Dep st.stack a → st.color.get a ≠ none) →
    Visits g st [file] (dfsCycle g fuel st file) := by
  intro fuel
  induction fuel with
  | zero =>
    intro st file h hfuel _ _
    have := h.stack_length_le huniv hdep
    omega
  | succ fuel ih =>
    intro st file h hfuel hnext hsmaller
    unfold dfsCycle
    cases hc : st.color.get file with
    | some c =>
      cases c with
      | onStack => exact h.visit_onStack hnext ((h.onStack file).mp hc)
      | done => exact h.visit_done hc
    | none =>
      have henter := h.enter hnext hc hsmaller
      have hscan : Visits g (st.enter file) (g.get file)
          ((g.get file).foldl (dfsCycle g fuel) (st.enter file)) := by
        refine foldl_visits (n := st.stack.length + 1) ?_ henter ?_
          (Text.sortedSet_increasing _) ?_ ?_
        · exact fun st' file' h' hn => ih st' file' h' (by omega)
        · simp [CycleSearch.enter]
        · exact fun a ha => next_snoc.mpr ha
        · exact fun a ha => Or.inl (next_snoc.mp ha)
      have hnot : file ∉ st.stack := by
        intro hmem
        rw [(h.onStack file).mpr hmem] at hc
        cases hc
      refine ⟨hscan.good.leave hscan.stack hscan.seen ?_, ?_, fun x hx => ?_, hscan.found,
        fun a ha => ?_, fun a ha p q hstack => ?_⟩
      · exact fun y p q hy hstack => hscan.ring y hy p q (hscan.stack ▸ hstack)
      · show List.dropLast _ = _
        rw [hscan.stack]
        exact dropLast_concat
      · exact done_leave.mpr (Or.inr (hscan.done x ((done_enter hc).mpr hx)))
      · have hdone : (((g.get file).foldl (dfsCycle g fuel) (st.enter file)).leave file).Done a :=
          done_leave.mpr (Or.inl (mem_singleton.mp ha))
        rw [hdone]
        simp
      · rw [mem_singleton.mp ha] at hstack
        refine absurd ?_ hnot
        rw [hstack]
        exact mem_append_right _ mem_cons_self

end search

end CycleSearch

/-! ## The rings -/

section rings

variable {nodes : List Node} {edges : List Edge}

/-- A symbol of file `a` points to a symbol of another file `b`. -/
def FileDep (nodes : List Node) (edges : List Edge) (a b : String) : Prop :=
  ∃ e ∈ edges, fileOf nodes e.sourceId = some a ∧ fileOf nodes e.targetId = some b ∧ a ≠ b
deriving Decidable

/-- A file with a dependency, where a search starts. -/
def IsSource (nodes : List Node) (edges : List Edge) (a : String) : Prop :=
  ∃ b, FileDep nodes edges a b

/-- A ring that a dependency closes on the first path to the file it comes from. -/
def BackRing (nodes : List Node) (edges : List Edge) (l : List String) : Prop :=
  FirstRing (IsSource nodes edges) (FileDep nodes edges) l

theorem mem_path_of_fileOf {id : NodeId} {path : String} (h : fileOf nodes id = some path) :
    path ∈ nodes.map Node.path := by
  obtain ⟨n, hn, he⟩ := mem_map.mp (mem_of_lookupLast h)
  exact mem_map.mpr ⟨n, hn, congrArg Prod.snd he⟩

variable {a y : String} {l q r : List String}

theorem mem_path_of_isSource (h : IsSource nodes edges a) : a ∈ nodes.map Node.path := by
  obtain ⟨b, e, -, hsource, -⟩ := h
  exact mem_path_of_fileOf hsource

theorem fileDep_eq_some {e : Edge} {b : String} : fileDep nodes e = some (a, b) ↔
    fileOf nodes e.sourceId = some a ∧ fileOf nodes e.targetId = some b ∧ a ≠ b := by
  unfold fileDep
  cases ha : fileOf nodes e.sourceId with
  | none => simp
  | some a' =>
    cases hb : fileOf nodes e.targetId with
    | none => simp
    | some b' => grind

theorem dep_ofEdges : (FileGraph.ofEdges nodes edges).Dep = FileDep nodes edges := by
  funext a b
  rw [FileGraph.dep_iff, FileGraph.ofEdges, mem_filterMap]
  simp only [fileDep_eq_some]
  rfl

theorem root_ofEdges : (FileGraph.ofEdges nodes edges).Root = IsSource nodes edges := by
  funext a
  rw [FileGraph.root_iff, dep_ofEdges]
  rfl

theorem searchCycles_visits : CycleSearch.Visits (FileGraph.ofEdges nodes edges) CycleSearch.new
    (FileGraph.ofEdges nodes edges).keys (searchCycles nodes edges) := by
  refine CycleSearch.foldl_visits (n := 0) ?_ CycleSearch.good_new (Nat.zero_le _)
    (Text.sortedSet_increasing _) (fun a ha => ha) (fun a ha => Or.inl ha)
  intro st file h _
  have hroot : ∀ a, (FileGraph.ofEdges nodes edges).Root a → a ∈ nodes.map Node.path := by
    rw [root_ofEdges]
    exact fun a => mem_path_of_isSource
  have hdep : ∀ a b, (FileGraph.ofEdges nodes edges).Dep a b → b ∈ nodes.map Node.path := by
    rw [dep_ofEdges]
    rintro a b ⟨e, -, -, htarget, -⟩
    exact mem_path_of_fileOf htarget
  exact CycleSearch.dfsCycle_visits hroot hdep st file h (by simp)

theorem searchCycles_done (ha : IsSource nodes edges a) : (searchCycles nodes edges).Done a := by
  refine searchCycles_visits.good.done_of_not_mem (searchCycles_visits.seen a ?_) ?_
  · rw [← root_ofEdges] at ha
    exact ha
  · rw [searchCycles_visits.stack]
    exact not_mem_nil

/-- **The search finds the rings on first paths**, and no others. -/
theorem mem_found : l ∈ (searchCycles nodes edges).found ↔ BackRing nodes edges l := by
  have hgood : CycleSearch.Good (FileGraph.ofEdges nodes edges) (searchCycles nodes edges) :=
    searchCycles_visits.good
  unfold BackRing
  rw [← dep_ofEdges, ← root_ofEdges]
  constructor
  · exact hgood.sound l
  · rintro ⟨p, y, q, x, hfirst, hdep, rfl⟩
    refine hgood.complete x (searchCycles_done ?_) p y q hfirst hdep
    exact ⟨y, dep_ofEdges ▸ hdep⟩

theorem exists_firstTo (ha : IsSource nodes edges a) :
    ∃ p, FirstTo (IsSource nodes edges) (FileDep nodes edges) a p := by
  have hseen : (searchCycles nodes edges).color.get a ≠ none := by
    rw [searchCycles_done ha]
    simp
  have hfirst := searchCycles_visits.good.first a hseen
  rwa [dep_ofEdges, root_ofEdges] at hfirst

/-! ## No cycle -/

theorem BackRing.exists_cycle (h : BackRing nodes edges l) :
    ∃ file, Relation.TransGen (FileDep nodes edges) file file := by
  obtain ⟨p, y, q, x, hfirst, hdep, rfl⟩ := h
  have hlast := hfirst.last
  rw [getLast?_append_of_ne_nil _ (cons_ne_nil y q)] at hlast
  have hsteps := (isChain_append.mp hfirst.simple.steps).2.1
  have hyx := (reaches_of_mem hsteps hlast y mem_cons_self).2
  exact ⟨y, Relation.TransGen.tail'_iff.mpr ⟨x, hyx, hdep⟩⟩

/-- **`find_cycles` returns nothing exactly when there is no cycle.** -/
theorem findCycles_eq_nil_iff (nodes : List Node) (edges : List Edge) :
    findCycles nodes edges = [] ↔ ¬ ∃ file, Relation.TransGen (FileDep nodes edges) file file := by
  rw [findCycles, map_eq_nil_iff, eq_nil_iff_forall_not_mem]
  constructor
  · rintro hnone ⟨file, hfile⟩
    have hsource : ∀ a b, FileDep nodes edges a b → IsSource nodes edges a :=
      fun a b hab => ⟨b, hab⟩
    obtain ⟨l, hl⟩ := exists_firstRing hsource (fun a => mem_path_of_isSource)
      (fun a => exists_firstTo) hfile
    exact hnone l (mem_found.mpr hl)
  · intro hno l hl
    exact hno (mem_found.mp hl).exists_cycle

/-! ## Canonical form -/

/-- A cycle in canonical form: a closed list of files joined by dependencies, from its smallest file
back to it, with no other file twice. -/
structure Canonical (nodes : List Node) (edges : List Edge) (entry : List String) : Prop where
  length : 2 ≤ entry.length
  closed : entry.head? = entry.getLast?
  steps : entry.IsChain (FileDep nodes edges)
  smallest : ∀ first ∈ entry.head?, ∀ file ∈ entry, first ≤ file
  distinct : entry.dropLast.Nodup

/-- The entries go around the same files in the same order. -/
def SameRing (entry entry' : List String) : Prop := entry.dropLast.IsRotated entry'.dropLast

theorem minPos_cons (h : ∀ f ∈ q, y ≤ f) : minPos (y :: q) = some 0 := by
  have hmin : (y :: q).min? = some y := by
    refine min?_eq_some_iff.mpr ⟨mem_cons_self, fun f hf => ?_⟩
    rcases mem_cons.mp hf with rfl | hf
    · exact le_rfl
    · exact h f hf
  rw [minPos, hmin, Option.map_some, idxOf_cons_self]

theorem rotateCanonical_of_le (h : ∀ f ∈ q, y ≤ f) : rotateCanonical (y :: q) = y :: q := by
  rw [rotateCanonical, minPos_cons h]
  exact rotate_zero _

theorem le_of_closed_rotateCanonical
    (h : (rotateCanonical (y :: q)).head? = (rotateCanonical (y :: q)).getLast?) :
    ∀ f ∈ q, y ≤ f := by
  obtain ⟨m, hm⟩ : ∃ m, (y :: q).min? = some m := by
    rw [← Option.isSome_iff_exists, isSome_min?_iff]
    exact cons_ne_nil y q
  obtain ⟨hmem, hle⟩ := min?_eq_some_iff.mp hm
  obtain ⟨s, t, hst, hs⟩ := eq_append_cons_of_mem hmem
  have hpos : (y :: q).idxOf m = s.length := by
    rw [hst, idxOf_append_of_notMem hs, idxOf_cons_self, Nat.add_zero]
  have hrot : rotateCanonical (y :: q) = m :: t ++ s := by
    rw [rotateCanonical, minPos, hm, Option.map_some, hpos]
    show (y :: q).rotate s.length = _
    rw [hst, rotate_append_length_eq]
  cases s with
  | nil =>
    obtain ⟨rfl, -⟩ := List.cons.inj hst
    exact fun f hf => hle f (mem_cons_of_mem _ hf)
  | cons z s =>
    rw [hrot, getLast?_append_of_ne_nil _ (cons_ne_nil z s)] at h
    exact absurd (mem_of_getLast? h.symm) hs

theorem mem_rotateCanonical {file : String} : file ∈ rotateCanonical l ↔ file ∈ l := by
  unfold rotateCanonical
  split
  · exact mem_rotate
  · exact Iff.rfl

theorem eq_of_isRotated {q' : List String} (hnodup : (y :: q).Nodup)
    (h : (y :: q).IsRotated (y :: q')) : y :: q = y :: q' := by
  obtain ⟨n, hn, hrot⟩ := isRotated_iff_mod.mp h
  rcases Nat.lt_or_eq_of_le hn with hn | rfl
  · have hhead := head?_rotate hn
    rw [hrot, head?_cons] at hhead
    obtain rfl : 0 = n := (getElem?_inj (Nat.zero_lt_succ _) hnodup).mp hhead
    rw [← hrot, rotate_zero]
  · rw [← hrot, rotate_length]

theorem BackRing.exists_ring (h : BackRing nodes edges l) :
    ∃ y r, l = y :: (r ++ [y]) ∧ (y :: r).Nodup := by
  obtain ⟨p, y, r, x, hfirst, -, rfl⟩ := h
  exact ⟨y, r, rfl, (nodup_append.mp hfirst.simple.nodup).2.1⟩

theorem BackRing.canonical (h : BackRing nodes edges (y :: (r ++ [y]))) (hnodup : (y :: r).Nodup)
    (hle : ∀ f ∈ r ++ [y], y ≤ f) : Canonical nodes edges (y :: (r ++ [y])) where
  length := by simp
  closed := by rw [← cons_append, getLast?_concat, cons_append, head?_cons]
  steps := FirstRing.isChain h
  smallest := by
    intro first hfirst file hfile
    obtain rfl : y = first := Option.some.inj hfirst
    rcases mem_cons.mp hfile with rfl | hfile
    · exact le_rfl
    · exact hle file hfile
  distinct := by
    rw [← cons_append, dropLast_concat]
    exact hnodup

theorem eq_of_sameRing {y' : String} {r' : List String} (hnodup : (y :: r).Nodup)
    (hle : ∀ f ∈ r ++ [y], y ≤ f) (hle' : ∀ f ∈ r' ++ [y'], y' ≤ f)
    (hsame : SameRing (y :: (r ++ [y])) (y' :: (r' ++ [y']))) :
    y :: (r ++ [y]) = y' :: (r' ++ [y']) := by
  unfold SameRing at hsame
  rw [← cons_append, ← cons_append, dropLast_concat, dropLast_concat] at hsame
  have hmin : ∀ {y : String} {r : List String}, (∀ f ∈ r ++ [y], y ≤ f) → ∀ f ∈ y :: r, y ≤ f := by
    intro y r hle f hf
    refine hle f ?_
    rcases mem_cons.mp hf with rfl | hf
    · exact mem_append_right _ (mem_singleton.mpr rfl)
    · exact mem_append_left _ hf
  obtain rfl : y = y' := le_antisymm (hmin hle y' (hsame.perm.mem_iff.mpr mem_cons_self))
    (hmin hle' y (hsame.perm.mem_iff.mp mem_cons_self))
  rw [← cons_append, ← cons_append, eq_of_isRotated hnodup hsame]

/-- **When `find_cycles` returns canonical cycles**: exactly when every ring on a first path starts
at its smallest file. -/
theorem findCycles_canonical_iff (nodes : List Node) (edges : List Edge) :
    ((∀ entry ∈ findCycles nodes edges, Canonical nodes edges entry) ∧
      (findCycles nodes edges).Pairwise fun entry entry' => ¬ SameRing entry entry') ↔
      ∀ y q, BackRing nodes edges (y :: q) → ∀ file ∈ q, y ≤ file := by
  constructor
  · rintro ⟨hcanon, -⟩ y q hring
    refine le_of_closed_rotateCanonical (hcanon _ ?_).closed
    exact mem_map.mpr ⟨_, mem_found.mpr hring, rfl⟩
  · intro hle
    have hsame : ∀ l ∈ (searchCycles nodes edges).found, rotateCanonical l = l := by
      intro l hl
      have hring := mem_found.mp hl
      obtain ⟨y, r, rfl, -⟩ := hring.exists_ring
      exact rotateCanonical_of_le (hle y _ hring)
    have hfound : findCycles nodes edges = (searchCycles nodes edges).found := by
      rw [findCycles, map_congr_left hsame, map_id']
    rw [hfound]
    refine ⟨fun l hl => ?_, ?_⟩
    · have hring := mem_found.mp hl
      obtain ⟨y, r, rfl, hnodup⟩ := hring.exists_ring
      exact hring.canonical hnodup (hle y _ hring)
    · refine searchCycles_visits.good.nodup.imp_of_mem fun {l l'} hl hl' hne hrot => hne ?_
      have hring := mem_found.mp hl
      have hring' := mem_found.mp hl'
      obtain ⟨y, r, rfl, hnodup⟩ := hring.exists_ring
      obtain ⟨y', r', rfl, -⟩ := hring'.exists_ring
      exact eq_of_sameRing hnodup (hle y _ hring) (hle y' _ hring') hrot

def threeFiles : List Node :=
  ["a.rs", "b.rs", "c.rs"].mapIdx fun i path =>
    ⟨i + 1, "repo", path, "main", "function", 1, 1, ""⟩

def calls (pairs : List (NodeId × NodeId)) : List Edge :=
  pairs.mapIdx fun i pair => ⟨i + 1, pair.1, pair.2, "calls", none, none⟩

/-- The first file depends on the third, and the second and the third on each other: the search
enters their ring at the third. -/
theorem findCycles_misrotated :
    findCycles threeFiles (calls [(1, 3), (3, 2), (2, 3)]) = [["b.rs", "c.rs", "c.rs"]] ∧
      ¬ ∀ entry ∈ findCycles threeFiles (calls [(1, 3), (3, 2), (2, 3)]),
        Canonical threeFiles (calls [(1, 3), (3, 2), (2, 3)]) entry := by
  have hfound : findCycles threeFiles (calls [(1, 3), (3, 2), (2, 3)]) =
      [["b.rs", "c.rs", "c.rs"]] := by decide +kernel
  refine ⟨hfound, fun hall => ?_⟩
  rw [hfound] at hall
  have hclosed := (hall _ (mem_singleton.mpr rfl)).closed
  simp at hclosed

/-! ## Coverage -/

/-- **When `find_cycles` covers every file of a cycle**: exactly when each of them is on a ring of a
first path. -/
theorem findCycles_covers_iff (nodes : List Node) (edges : List Edge) :
    (∀ file, Relation.TransGen (FileDep nodes edges) file file →
      ∃ entry ∈ findCycles nodes edges, file ∈ entry) ↔
      ∀ file, Relation.TransGen (FileDep nodes edges) file file →
        ∃ l, BackRing nodes edges l ∧ file ∈ l := by
  refine forall_congr' fun file => imp_congr_right fun _ => ?_
  constructor
  · rintro ⟨entry, hentry, hfile⟩
    obtain ⟨l, hl, rfl⟩ := mem_map.mp hentry
    exact ⟨l, mem_found.mp hl, mem_rotateCanonical.mp hfile⟩
  · rintro ⟨l, hl, hfile⟩
    exact ⟨_, mem_map.mpr ⟨l, mem_found.mpr hl, rfl⟩, mem_rotateCanonical.mpr hfile⟩

/-- The first file depends on the others, the third on the second and the second on the first: the
second is done when the search comes to the third, so the cycle through the third is not seen. -/
theorem findCycles_misses :
    Relation.TransGen (FileDep threeFiles (calls [(1, 2), (1, 3), (2, 1), (3, 2)])) "c.rs" "c.rs" ∧
      ∀ entry ∈ findCycles threeFiles (calls [(1, 2), (1, 3), (2, 1), (3, 2)]), "c.rs" ∉ entry := by
  refine ⟨?_, by decide +kernel⟩
  have hdep : ∀ p ∈ [("c.rs", "b.rs"), ("b.rs", "a.rs"), ("a.rs", "c.rs")],
      FileDep threeFiles (calls [(1, 2), (1, 3), (2, 1), (3, 2)]) p.1 p.2 := by decide +kernel
  exact .head (hdep ("c.rs", "b.rs") (by simp))
    (.head (hdep ("b.rs", "a.rs") (by simp)) (.single (hdep ("a.rs", "c.rs") (by simp))))

end rings

end WeaveGraph.Policy
