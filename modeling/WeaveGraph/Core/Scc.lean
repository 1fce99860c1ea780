import WeaveGraph.Core.Federation
import WeaveGraph.Lib.Runs
import WeaveGraph.Lib.Scc

/-!
# Strongly connected components

`tarjan_scc` takes the steps of `Lib.Scc`.  `Ready` relates its work stack to the frames there: a
new vertex on top is still the next neighbor of the frame below it.  Every round of the loop keeps
that and uses up fuel (`Ready.step`), and the components it ends with are the classes of mutual
reachability (`tarjanScc_partition`).
-/

namespace WeaveGraph

open List Lib

namespace TarjanState

open Lib.Scc (Inv)

/-! ## The maps of the state -/

def view (st : TarjanState) : Scc.State Nat :=
  ⟨st.indexCounter, st.indexOf, st.lowlinkOf, st.stack, st.result⟩

/-- The maps say which vertices are visited, and which of them are on the stack. -/
structure Synced (st : TarjanState) : Prop where
  index : ∀ x, st.index.get x = none ↔ ¬ st.view.Visited x
  onStack : ∀ x, (st.onStack.get x).getD false = true ↔ x ∈ st.stack

section maps

variable {st : TarjanState} {v n : Nat}

theorem getD_insert (m : FinMap Nat Nat) (v n : Nat) :
    (fun x => ((m.insert v n).get x).getD u32Max) =
      Function.update (fun x => (m.get x).getD u32Max) v n := by
  funext x
  rw [FinMap.get_insert]
  by_cases hx : x = v
  · rw [hx, if_pos rfl, Function.update_self]
    rfl
  · rw [if_neg (Ne.symm hx), Function.update_of_ne hx]

theorem view_visit : (st.visit v).view = st.view.enter v := by
  have hindex := getD_insert st.index v st.indexCounter
  have hlow := getD_insert st.lowlink v st.indexCounter
  unfold view visit Scc.State.enter indexOf lowlinkOf
  rw [hindex, hlow]

theorem lowlinkOf_lowerTo : (st.lowerTo v n).lowlinkOf =
    Function.update st.lowlinkOf v (min (st.lowlinkOf v) n) :=
  getD_insert _ _ _

theorem view_lowerTo : (st.lowerTo v n).view = st.view.lower v n := by
  unfold view Scc.State.lower
  rw [lowlinkOf_lowerTo]
  rfl

theorem synced_new : Synced new where
  index x := by simp [new, view, Scc.State.Visited]
  onStack x := by simp [new]

theorem Synced.visit (h : Synced st) (v : Nat) : Synced (st.visit v) where
  index x := by
    rw [view_visit, Scc.visited_enter, not_or, ← h.index]
    show (st.index.insert v _).get x = none ↔ _
    rw [FinMap.get_insert]
    by_cases hx : x = v
    · simp [hx]
    · simp [hx, Ne.symm hx]
  onStack x := by
    show ((st.onStack.insert v true).get x).getD false = true ↔ x ∈ v :: st.stack
    rw [FinMap.get_insert, mem_cons, ← h.onStack]
    by_cases hx : x = v
    · simp [hx]
    · simp [hx, Ne.symm hx]

theorem Synced.lowerTo (h : Synced st) : Synced (st.lowerTo v n) := ⟨h.index, h.onStack⟩

/-! ## Popping a component -/

theorem popComponent_eq {c rest : List Nat} (hv : v ∉ c) : ∀ {onStack : FinMap Nat Bool},
    popComponent v (c ++ v :: rest) onStack =
      (c ++ [v], rest, (c ++ [v]).foldl (fun m w => m.insert w false) onStack) := by
  induction c with
  | nil =>
    intro onStack
    rw [nil_append, popComponent, if_pos rfl]
    rfl
  | cons w c ih =>
    intro onStack
    have hw : w ≠ v := fun he => hv (he ▸ mem_cons_self)
    rw [cons_append, popComponent, if_neg hw, ih fun hmem => hv (mem_cons_of_mem _ hmem)]
    rfl

theorem getD_clear {x : Nat} (l : List Nat) : ∀ {onStack : FinMap Nat Bool},
    (((l.foldl (fun m w => m.insert w false) onStack).get x).getD false = true ↔
      (onStack.get x).getD false = true ∧ x ∉ l) := by
  induction l with
  | nil => simp
  | cons w l ih =>
    intro onStack
    rw [foldl_cons, ih, FinMap.get_insert, mem_cons, not_or]
    by_cases hx : x = w
    · simp [hx]
    · simp [hx, Ne.symm hx]

end maps

section steps

variable {adj : Nat → List Nat} {st : TarjanState} {v : Nat} {frames : List (Nat × List Nat)}

theorem closeComponent_spec (h : Inv adj ((v, []) :: frames) st.view) (hs : Synced st)
    (hparent : ∀ p ∈ frames.head?, st.lowlinkOf p.1 ≤ st.lowlinkOf v) :
    Inv adj frames (st.closeComponent v).view ∧ Synced (st.closeComponent v) ∧
      ∀ x, (st.closeComponent v).view.Visited x ↔ st.view.Visited x := by
  have hv : v ∈ st.stack := h.stacked.mem v mem_cons_self
  unfold closeComponent
  by_cases hroot : st.lowlinkOf v = st.indexOf v
  · obtain ⟨c, rest, hstack, hc⟩ := eq_append_cons_of_mem hv
    rw [if_pos hroot, hstack, popComponent_eq hc]
    have hvisited : ∀ x, (st.view.release (c ++ [v]) rest).Visited x ↔ st.view.Visited x :=
      fun x => Scc.visited_release hstack
    refine ⟨h.release hroot hstack, ⟨fun x => ?_, fun x => ?_⟩, hvisited⟩
    · exact (hs.index x).trans (not_congr (hvisited x).symm)
    · rw [getD_clear, hs.onStack]
      obtain ⟨hseg, hrest⟩ := h.stacked.split hstack
      rw [hseg, hrest, ← Nat.not_lt]
      exact ⟨fun hx => ⟨hx.1, by_contra fun hlt => hx.2 ⟨hx.1, hlt⟩⟩,
        fun hx => ⟨hx.1, fun hmem => hmem.2 hx.2⟩⟩
  · rw [if_neg hroot]
    have hlt := Nat.lt_of_le_of_ne (h.lows.le v hv) hroot
    exact ⟨h.retire hlt hparent, hs, fun x => Iff.rfl⟩

theorem finish_spec {work : List (Nat × Nat)} {f : Nat × Nat → List Nat}
    (h : Inv adj ((v, []) :: work.map fun p => (p.1, f p)) st.view) (hs : Synced st) :
    Inv adj (work.map fun p => (p.1, f p)) ((st.propagate v work).closeComponent v).view ∧
      Synced ((st.propagate v work).closeComponent v) ∧
      ∀ x, ((st.propagate v work).closeComponent v).view.Visited x ↔ st.view.Visited x := by
  cases work with
  | nil => exact closeComponent_spec h hs fun p hp => by simp at hp
  | cons p work =>
    have hv : v ∈ st.stack := h.stacked.mem v mem_cons_self
    have hlt : st.view.num p.1 < st.view.num v := h.stacked.num_lt_top mem_cons_self
    have hreach : Scc.Reaches adj p.1 v :=
      h.stacked.reach p.1 (mem_cons_of_mem _ mem_cons_self) v hv (Nat.le_of_lt hlt)
    obtain ⟨y, hy, hnum, hvy⟩ := h.lows.reach v hv
    have hlower : Inv adj ((v, []) :: (p :: work).map fun p => (p.1, f p))
        (st.lowerTo p.1 (st.lowlinkOf v)).view := by
      rw [view_lowerTo]
      exact h.lower (mem_cons_of_mem _ mem_cons_self) ⟨y, hy, hnum, hreach.trans hvy⟩
    refine closeComponent_spec hlower hs.lowerTo fun q hq => ?_
    obtain rfl : (p.1, f p) = q := Option.some.inj hq
    have hne : v ≠ p.1 := fun he => absurd (he ▸ hlt) (Nat.lt_irrefl _)
    show (st.lowerTo p.1 (st.lowlinkOf v)).lowlinkOf p.1 ≤
      (st.lowerTo p.1 (st.lowlinkOf v)).lowlinkOf v
    rw [lowlinkOf_lowerTo, Function.update_self, Function.update_of_ne hne]
    exact Nat.min_le_right _ _

/-- What scanning the neighbors of `v` gives: a neighbor that is not visited, with the place after
it, or none. -/
def Scanned (adj : Nat → List Nat) (v : Nat) (frames : List (Nat × List Nat)) (st : TarjanState) :
    Option (Nat × Nat) × TarjanState → Prop
  | (some (w, next), scanned) => 0 < next ∧ ¬ scanned.view.Visited w ∧ Synced scanned ∧
      Inv adj ((v, w :: (adj v).drop next) :: frames) scanned.view ∧
      ∀ x, scanned.view.Visited x ↔ st.view.Visited x
  | (none, scanned) => Synced scanned ∧ Inv adj ((v, []) :: frames) scanned.view ∧
      ∀ x, scanned.view.Visited x ↔ st.view.Visited x

theorem scanNeighbors_spec {l : List Nat} : ∀ {i : Nat} {st : TarjanState},
    l = (adj v).drop i → Inv adj ((v, l) :: frames) st.view → Synced st →
    Scanned adj v frames st (scanNeighbors v l i st) := by
  induction l with
  | nil => exact fun _ h hs => ⟨hs, h, fun _ => Iff.rfl⟩
  | cons w l ih =>
    intro i st hl h hs
    have hdrop : l = (adj v).drop (i + 1) := by
      rw [← drop_drop, ← hl]
      rfl
    have hindex := hs.index w
    unfold scanNeighbors
    by_cases hw : st.view.Visited w
    · rw [if_neg fun hnone => hindex.mp hnone hw]
      by_cases hstack : w ∈ st.stack
      · rw [if_pos ((hs.onStack w).mpr hstack)]
        have hv : v ∈ ((v, w :: l) :: frames).map Prod.fst := mem_cons_self
        have hedge := h.lows.rest _ mem_cons_self w mem_cons_self
        have hlower : Inv adj ((v, w :: l) :: frames) (st.lowerTo v (st.indexOf w)).view := by
          rw [view_lowerTo]
          exact h.lower hv ⟨w, hstack, rfl, Scc.Reaches.step .refl hedge⟩
        refine ih hdrop (hlower.scan hw fun _ => ?_) hs.lowerTo
        rw [view_lowerTo]
        show Function.update st.lowlinkOf v _ v ≤ _
        rw [Function.update_self]
        exact Nat.min_le_right _ _
      · rw [if_neg fun htrue => hstack ((hs.onStack w).mp htrue)]
        exact ih hdrop (h.scan hw fun hmem => absurd hmem hstack) hs
    · rw [if_pos (hindex.mpr hw)]
      exact ⟨Nat.succ_pos i, hw, hs, hdrop ▸ h, fun _ => Iff.rfl⟩

end steps

/-! ## The loop -/

section loop

variable {adj : Nat → List Nat} {st : TarjanState} {v i : Nat} {work : List (Nat × Nat)}
  {univ : List Nat}

/-- The vertices that are scanned, with the neighbors they have not looked at. -/
def frames (adj : Nat → List Nat) (work : List (Nat × Nat)) : List (Nat × List Nat) :=
  work.map fun p => (p.1, (adj p.1).drop p.2)

/-- The states of the loop.  A new vertex on top is not visited; it is the vertex the loop starts
with, or the next neighbor of the frame below it. -/
inductive Ready (adj : Nat → List Nat) (univ : List Nat) (st : TarjanState) :
    List (Nat × Nat) → Prop
  | resume {work : List (Nat × Nat)} (hpos : ∀ p ∈ work, 0 < p.2)
      (h : Inv adj (frames adj work) st.view) : Ready adj univ st work
  | start {v : Nat} (hv : ¬ st.view.Visited v) (hmem : v ∈ univ) (h : Inv adj [] st.view) :
      Ready adj univ st [(v, 0)]
  | child {v u i : Nat} {work : List (Nat × Nat)} (hv : ¬ st.view.Visited v)
      (hpos : ∀ p ∈ (u, i) :: work, 0 < p.2)
      (h : Inv adj ((u, v :: (adj u).drop i) :: frames adj work) st.view) :
      Ready adj univ st ((v, 0) :: (u, i) :: work)

def visitedList (st : TarjanState) : List Nat := st.stack ++ st.result.flatten

theorem mem_visitedList {x : Nat} : x ∈ st.visitedList ↔ st.view.Visited x := mem_append

/-- The vertices visited on the way from one state to another are those of `univ`. -/
structure Grows (univ : List Nat) (st st' : TarjanState) : Prop where
  mono : ∀ x, st.view.Visited x → st'.view.Visited x
  bound : ∀ x, st'.view.Visited x → st.view.Visited x ∨ x ∈ univ

theorem Grows.trans {st₁ st₂ st₃ : TarjanState} (h : Grows univ st₁ st₂) (h' : Grows univ st₂ st₃) :
    Grows univ st₁ st₃ where
  mono x hx := h'.mono x (h.mono x hx)
  bound x hx := by
    rcases h'.bound x hx with hx | hx
    · exact h.bound x hx
    · exact Or.inr hx

variable {st' : TarjanState}

theorem grows_of_iff (h : ∀ x, st'.view.Visited x ↔ st.view.Visited x) : Grows univ st st' :=
  ⟨fun x => (h x).mpr, fun x hx => Or.inl ((h x).mp hx)⟩

theorem grows_visit (hv : v ∈ univ) : Grows univ st (st.visit v) := by
  refine ⟨fun x hx => ?_, fun x hx => ?_⟩
  · exact Scc.visited_enter.mpr (Or.inr hx)
  · rw [view_visit] at hx
    rcases Scc.visited_enter.mp hx with rfl | hx
    · exact Or.inr hv
    · exact Or.inl hx

/-- The rounds a loop still takes, but for the ones a new vertex on top has paid for. -/
def cost (univ : List Nat) (st : TarjanState) (work : List (Nat × Nat)) : Nat :=
  2 * unseen univ st.visitedList + work.length

/-- What a new vertex on top has paid for. -/
def paid : List (Nat × Nat) → Nat
  | (_, 0) :: _ => 2
  | _ => 0

theorem paid_of_pos (hpos : ∀ p ∈ work, 0 < p.2) : paid work = 0 := by
  cases work with
  | nil => rfl
  | cons p work =>
    obtain ⟨v, i⟩ := p
    have := hpos (v, i) mem_cons_self
    cases i with
    | zero => exact absurd this (Nat.lt_irrefl 0)
    | succ i => rfl

theorem cost_visit (hv : ¬ st.view.Visited v) (hmem : v ∈ univ) :
    cost univ (st.visit v) work + 2 ≤ cost univ st work := by
  have hunseen : unseen univ (st.visit v).visitedList + 1 ≤ unseen univ st.visitedList := by
    refine unseen_insert hmem (fun h => hv (mem_visitedList.mp h)) fun b => ?_
    rw [mem_visitedList, mem_visitedList, view_visit, Scc.visited_enter]
  unfold cost
  omega

section

variable (h : Ready adj univ st ((v, i) :: work)) (hs : Synced st)
  (hadj : ∀ u, ∀ w ∈ adj u, w ∈ univ)

include h hs hadj

theorem Ready.entered {entered : TarjanState} (he : entered = if i = 0 then st.visit v else st) :
    Inv adj ((v, (adj v).drop i) :: frames adj work) entered.view ∧ Synced entered ∧
      (∀ p ∈ work, 0 < p.2) ∧ Grows univ st entered ∧
      cost univ entered work + paid ((v, i) :: work) ≤ cost univ st work := by
  cases h with
  | resume hpos h =>
    have hi : i ≠ 0 := Nat.ne_of_gt (hpos _ mem_cons_self)
    rw [if_neg hi] at he
    rw [he, paid_of_pos hpos]
    exact ⟨h, hs, fun p hp => hpos p (mem_cons_of_mem _ hp), grows_of_iff fun _ => Iff.rfl,
      Nat.le_refl _⟩
  | start hv hmem h =>
    rw [if_pos rfl] at he
    rw [he]
    refine ⟨?_, hs.visit v, fun p hp => absurd hp not_mem_nil, grows_visit hmem, cost_visit hv hmem⟩
    rw [view_visit]
    exact h.enter_root hv
  | child hv hpos h =>
    have hmem := hadj _ _ (h.lows.rest _ mem_cons_self _ mem_cons_self)
    rw [if_pos rfl] at he
    rw [he]
    refine ⟨?_, hs.visit v, hpos, grows_visit hmem, cost_visit hv hmem⟩
    rw [view_visit]
    exact h.enter_child hv

/-- **One round of the loop** goes on with the algorithm and uses up fuel. -/
theorem Ready.step {next : List (Nat × Nat)} (hstep : connectStep adj v i work st = (next, st')) :
    Ready adj univ st' next ∧ Synced st' ∧ Grows univ st st' ∧ st'.view.Visited v ∧
      cost univ st' next + paid ((v, i) :: work) + 1 ≤
        cost univ st ((v, i) :: work) + paid next := by
  obtain ⟨hinv, hsync, hpos, hgrows, hcost⟩ := h.entered hs hadj rfl
  have hscan := scanNeighbors_spec rfl hinv hsync
  have hv : (if i = 0 then st.visit v else st).view.Visited v :=
    Or.inl (hinv.stacked.mem v mem_cons_self)
  have hsame : ∀ {st₁ st₂ : TarjanState}, (∀ x, st₂.view.Visited x ↔ st₁.view.Visited x) →
      unseen univ st₂.visitedList = unseen univ st₁.visitedList := by
    intro st₁ st₂ h
    refine unseen_congr fun x => ?_
    rw [mem_visitedList, mem_visitedList, h]
  unfold connectStep at hstep
  dsimp only at hstep
  generalize (if i = 0 then st.visit v else st) = entered at *
  cases hr : scanNeighbors v ((adj v).drop i) i entered with
  | mk found scanned =>
    rw [hr] at hstep hscan
    cases found with
    | some wn =>
      obtain ⟨hn, hw, hsync', hinv', hvis⟩ := hscan
      cases hstep
      have hcost' := hsame hvis
      refine ⟨.child hw ?_ hinv', hsync', hgrows.trans (grows_of_iff hvis), (hvis v).mpr hv, ?_⟩
      · intro p hp
        rcases mem_cons.mp hp with rfl | hp
        · exact hn
        · exact hpos p hp
      · simp only [cost, length_cons, paid] at hcost ⊢
        omega
    | none =>
      obtain ⟨hsync', hinv', hvis⟩ := hscan
      obtain ⟨hinv'', hsync'', hvis'⟩ := finish_spec hinv' hsync'
      cases hstep
      have hcost' := hsame hvis
      have hcost'' := hsame hvis'
      refine ⟨.resume hpos hinv'', hsync'', ?_, ?_, ?_⟩
      · exact (hgrows.trans (grows_of_iff hvis)).trans (grows_of_iff hvis')
      · exact (hvis' v).mpr ((hvis v).mpr hv)
      · simp only [cost, length_cons] at hcost ⊢
        omega

end

theorem eq_nil_of_cost (hs : Synced st) (h : Ready adj univ st work)
    (hadj : ∀ u, ∀ w ∈ adj u, w ∈ univ) (hcost : cost univ st work ≤ paid work) : work = [] := by
  cases work with
  | nil => rfl
  | cons p work =>
    obtain ⟨v, i⟩ := p
    obtain ⟨-, -, -, -, hle⟩ := h.entered hs hadj rfl
    simp only [cost, length_cons] at hcost hle
    omega

theorem connectLoop_done (h : Ready adj univ st []) (hs : Synced st) {fuel : Nat} :
    ∃ st', (∀ m, fuel ≤ m → connectLoop adj m [] st = some st') ∧ Inv adj [] st'.view ∧
      Synced st' ∧ Grows univ st st' ∧
      ∀ p ∈ ([] : List (Nat × Nat)).head?, st'.view.Visited p.1 := by
  cases h with
  | resume _ h =>
    exact ⟨st, fun m _ => by cases m <;> rfl, h, hs, grows_of_iff fun _ => Iff.rfl, nofun⟩

/-- **The loop ends within its fuel**, with the algorithm back where it started and the first vertex
visited; more fuel changes nothing. -/
theorem connectLoop_spec (hadj : ∀ u, ∀ w ∈ adj u, w ∈ univ) :
    ∀ {fuel : Nat} {work : List (Nat × Nat)} {st : TarjanState}, Ready adj univ st work →
    Synced st → cost univ st work ≤ fuel + paid work →
    ∃ st', (∀ m, fuel ≤ m → connectLoop adj m work st = some st') ∧ Inv adj [] st'.view ∧
      Synced st' ∧ Grows univ st st' ∧ ∀ p ∈ work.head?, st'.view.Visited p.1 := by
  intro fuel
  induction fuel with
  | zero =>
    intro work st h hs hcost
    obtain rfl := eq_nil_of_cost hs h hadj (by omega)
    exact connectLoop_done h hs
  | succ fuel ih =>
    intro work st h hs hcost
    cases work with
    | nil => exact connectLoop_done h hs
    | cons p work =>
      obtain ⟨v, i⟩ := p
      cases hstep : connectStep adj v i work st with
      | mk next st' =>
        obtain ⟨hready, hsync, hgrows, hv, hle⟩ := h.step hs hadj hstep
        obtain ⟨st'', hloop, hinv, hsync', hgrows', -⟩ := ih hready hsync (by omega)
        refine ⟨st'', fun m hm => ?_, hinv, hsync', hgrows.trans hgrows', fun p hp => ?_⟩
        · obtain ⟨m, rfl⟩ : ∃ k, m = k + 1 := ⟨m - 1, by omega⟩
          rw [connectLoop, hstep]
          exact hloop m (by omega)
        · obtain rfl : (v, i) = p := Option.some.inj hp
          exact hgrows'.mono v hv

theorem strongConnect_spec (hadj : ∀ u, ∀ w ∈ adj u, w ∈ univ) (h : Inv adj [] st.view)
    (hs : Synced st) (hv : ¬ st.view.Visited v) (hmem : v ∈ univ) :
    ∃ st', (∀ fuel, 2 * univ.length ≤ fuel → strongConnect adj fuel st v = some st') ∧
      Inv adj [] st'.view ∧ Synced st' ∧ Grows univ st st' ∧ st'.view.Visited v := by
  have hready : Ready adj univ st [(v, 0)] := .start hv hmem h
  have hcost : cost univ st [(v, 0)] ≤ 2 * univ.length + paid [(v, 0)] := by
    have := length_filter_le (fun a => a ∉ st.visitedList) univ
    simp only [cost, unseen, length_singleton, paid]
    omega
  obtain ⟨st', hloop, hinv, hsync, hgrows, hhead⟩ := connectLoop_spec hadj hready hs hcost
  exact ⟨st', hloop, hinv, hsync, hgrows, hhead (v, 0) rfl⟩

end loop

/-- The loop over the ids ends as well, and then every id is visited. -/
theorem connectAll_spec {adj : Nat → List Nat} {univ : List Nat}
    (hadj : ∀ u, ∀ w ∈ adj u, w ∈ univ) :
    ∀ {ids : List Nat} {st : TarjanState}, (∀ id ∈ ids, id ∈ univ) → Inv adj [] st.view →
    Synced st → ∃ st', (∀ fuel, 2 * univ.length ≤ fuel → connectAll adj fuel st ids = some st') ∧
      Inv adj [] st'.view ∧ Grows univ st st' ∧ ∀ id ∈ ids, st'.view.Visited id := by
  intro ids
  induction ids with
  | nil =>
    intro st _ h _
    exact ⟨st, fun _ _ => rfl, h, grows_of_iff fun _ => Iff.rfl, nofun⟩
  | cons id ids ih =>
    intro st hmem h hs
    have hid := hmem id mem_cons_self
    have hids : ∀ x ∈ ids, x ∈ univ := fun x hx => hmem x (mem_cons_of_mem _ hx)
    -- The state after the first id, which is visited in either case.
    obtain ⟨st₁, hfirst, hinv, hsync, hgrows, hself⟩ : ∃ st₁, (∀ fuel, 2 * univ.length ≤ fuel →
        (if st.index.get id = none then strongConnect adj fuel st id else some st) = some st₁) ∧
        Inv adj [] st₁.view ∧ Synced st₁ ∧ Grows univ st st₁ ∧ st₁.view.Visited id := by
      by_cases hv : st.view.Visited id
      · have hindex : st.index.get id ≠ none := fun hnone => (hs.index id).mp hnone hv
        exact ⟨st, fun _ _ => if_neg hindex, h, hs, grows_of_iff fun _ => Iff.rfl, hv⟩
      · obtain ⟨st₁, hfirst, hrest⟩ := strongConnect_spec hadj h hs hv hid
        exact ⟨st₁, fun n hn => (if_pos ((hs.index id).mpr hv)).trans (hfirst n hn), hrest⟩
    obtain ⟨st', hall, hinv', hgrows', hvisited⟩ := ih hids hinv hsync
    refine ⟨st', fun fuel hfuel => ?_, hinv', hgrows.trans hgrows', fun x hx => ?_⟩
    · unfold connectAll
      rw [foldlM_cons, hfirst fuel hfuel]
      exact hall fuel hfuel
    · rcases mem_cons.mp hx with rfl | hx
      · exact hgrows'.mono x hself
      · exact hvisited x hx

end TarjanState

/-! ## The components -/

def Reachable (edges : List (Nat × Nat)) : Nat → Nat → Prop :=
  Relation.ReflTransGen fun a b => (a, b) ∈ edges

/-- The components are a partition of the ids into the classes of mutual reachability. -/
structure Partition (nodeIds : List Nat) (edges : List (Nat × Nat)) (comps : List (List Nat)) :
    Prop where
  perm : comps.flatten.Perm nodeIds
  ne_nil : [] ∉ comps
  same_iff : ∀ x ∈ nodeIds, ∀ y ∈ nodeIds,
    (∃ c ∈ comps, x ∈ c ∧ y ∈ c) ↔ Reachable edges x y ∧ Reachable edges y x

theorem reaches_adjacencyOf (edges : List (Nat × Nat)) :
    Scc.Reaches (adjacencyOf edges) = Reachable edges := by
  unfold Scc.Reaches Reachable adjacencyOf
  simp only [mem_bucket]

variable {edges : List (Nat × Nat)}

theorem tarjanSccWith_spec {nodeIds : List Nat} (hids : nodeIds.Nodup)
    (hedges : ∀ e ∈ edges, e.1 ∈ nodeIds ∧ e.2 ∈ nodeIds) :
    ∃ comps, (∀ fuel, 2 * nodeIds.length ≤ fuel → tarjanSccWith fuel nodeIds edges = some comps) ∧
      Partition nodeIds edges comps := by
  have hadj : ∀ u, ∀ w ∈ adjacencyOf edges u, w ∈ nodeIds :=
    fun u w hw => (hedges (u, w) (mem_bucket.mp hw)).2
  have hstart : Scc.Inv (adjacencyOf edges) [] TarjanState.new.view := Scc.inv_start
  obtain ⟨st, hst, hinv, hgrows, hall⟩ := TarjanState.connectAll_spec hadj
    (fun id hid => hid) hstart TarjanState.synced_new
  refine ⟨st.result, fun fuel hfuel => by rw [tarjanSccWith, hst fuel hfuel, Option.map_some], ?_⟩
  have hvisited : ∀ x, st.view.Visited x ↔ x ∈ st.result.flatten := by
    intro x
    constructor
    · rintro (hx | hx)
      · rw [hinv.stack_eq_nil] at hx
        exact absurd hx not_mem_nil
      · exact hx
    · exact Or.inr
  have hmem : ∀ x, x ∈ st.result.flatten ↔ x ∈ nodeIds := by
    intro x
    rw [← hvisited]
    constructor
    · intro hx
      rcases hgrows.bound x hx with (hx | hx) | hx
      · exact absurd hx not_mem_nil
      · exact absurd hx not_mem_nil
      · exact hx
    · exact hall x
  refine ⟨(perm_ext_iff_of_nodup hinv.complete.nodup hids).mpr hmem, hinv.complete.ne_nil,
    fun x hx y _ => ?_⟩
  rw [← reaches_adjacencyOf]
  constructor
  · rintro ⟨c, hc, hxc, hyc⟩
    exact (hinv.complete.exact c hc x hxc y).mp hyc
  · intro hmutual
    obtain ⟨c, hc, hxc⟩ := mem_flatten.mp ((hmem x).mpr hx)
    exact ⟨c, hc, hxc, (hinv.complete.exact c hc x hxc y).mpr hmutual⟩

theorem partition_tarjanScc {nodeIds : List Nat} (hids : nodeIds.Nodup)
    (hedges : ∀ e ∈ edges, e.1 ∈ nodeIds ∧ e.2 ∈ nodeIds) :
    Partition nodeIds edges (tarjanScc nodeIds edges) := by
  obtain ⟨comps, hcomps, hpart⟩ := tarjanSccWith_spec hids hedges
  rwa [tarjanScc, hcomps _ (by omega), Option.getD_some]

theorem exists_component_iff {nodeIds : List Nat} (hids : nodeIds.Nodup)
    (hedges : ∀ e ∈ edges, e.1 ∈ nodeIds ∧ e.2 ∈ nodeIds) (hloop : ∀ e ∈ edges, e.1 ≠ e.2) :
    (∃ c ∈ tarjanScc nodeIds edges, 1 < c.length) ↔
      ∃ v, Relation.TransGen (fun a b => (a, b) ∈ edges) v v := by
  have hpart := partition_tarjanScc hids hedges
  have hmem : ∀ c ∈ tarjanScc nodeIds edges, ∀ x ∈ c, x ∈ nodeIds := fun c hc x hx =>
    hpart.perm.mem_iff.mp (mem_flatten.mpr ⟨c, hc, hx⟩)
  constructor
  · rintro ⟨c, hc, hlen⟩
    have hnodup : c.Nodup := (nodup_flatten.mp (hpart.perm.nodup_iff.mpr hids)).1 c hc
    obtain ⟨x, y, rest, rfl⟩ : ∃ x y rest, c = x :: y :: rest := by
      match c, hlen with
      | x :: y :: rest, _ => exact ⟨x, y, rest, rfl⟩
    have hx : x ∈ x :: y :: rest := mem_cons_self
    have hy : y ∈ x :: y :: rest := mem_cons_of_mem _ mem_cons_self
    have hne : x ≠ y := fun he => (nodup_cons.mp hnodup).1 (he ▸ mem_cons_self)
    obtain ⟨hxy, hyx⟩ := (hpart.same_iff x (hmem _ hc x hx) y (hmem _ hc y hy)).mp ⟨_, hc, hx, hy⟩
    rcases Relation.reflTransGen_iff_eq_or_transGen.mp hxy with he | hxy
    · exact absurd he.symm hne
    · exact ⟨x, hxy.trans_left hyx⟩
  · rintro ⟨v, hv⟩
    obtain ⟨w, hvw, hwv⟩ := Relation.TransGen.head'_iff.mp hv
    obtain ⟨hvn, hwn⟩ := hedges _ hvw
    obtain ⟨c, hc, hvc, hwc⟩ := (hpart.same_iff v hvn w hwn).mpr ⟨.single hvw, hwv⟩
    refine ⟨c, hc, ?_⟩
    by_contra hlen
    obtain ⟨x, rfl⟩ : ∃ x, c = [x] := by
      refine length_eq_one_iff.mp ?_
      have := length_pos_of_mem hvc
      omega
    exact hloop _ hvw ((mem_singleton.mp hvc).trans (mem_singleton.mp hwc).symm)

/-- **`tarjan_scc` finds the strongly connected components**, and its loop ends by itself: with the
fuel given here or more it does not run out. -/
theorem tarjanScc_partition {nodeIds : List Nat} (hids : nodeIds.Nodup)
    {edges : List (Nat × Nat)} (hedges : ∀ e ∈ edges, e.1 ∈ nodeIds ∧ e.2 ∈ nodeIds) :
    Partition nodeIds edges (tarjanScc nodeIds edges) ∧
      ∀ fuel, 2 * (nodeIds.length + edges.length) ≤ fuel →
        tarjanSccWith fuel nodeIds edges = some (tarjanScc nodeIds edges) := by
  refine ⟨partition_tarjanScc hids hedges, fun fuel hfuel => ?_⟩
  obtain ⟨comps, hcomps, -⟩ := tarjanSccWith_spec hids hedges
  rw [tarjanScc, hcomps _ (by omega), hcomps _ (by omega), Option.getD_some]

theorem tarjanScc_partition_ring :
    Partition [1, 2, 3, 4] [(1, 2), (2, 3), (3, 1), (3, 4)]
      (tarjanScc [1, 2, 3, 4] [(1, 2), (2, 3), (3, 1), (3, 4)]) :=
  (tarjanScc_partition (by decide) (by decide)).1

end WeaveGraph
