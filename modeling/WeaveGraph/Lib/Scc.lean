import Mathlib.Logic.Relation
import Mathlib.Data.List.Nodup
import Mathlib.Data.Nat.Init

/-!
# Strongly connected components

The steps of Tarjan's algorithm over a graph given by its neighbor lists, and the invariant they
keep.  A state numbers the vertices in the order they are entered and keeps those without a
component on a stack.  A frame is a vertex that is being scanned, with the neighbors it has not
looked at; `low` is the number of the lowest vertex on the stack known to be in reach.

The steps are `enter`, `lower` and `release`; a frame also goes forward over a neighbor
(`Inv.scan`) and goes away (`Inv.retire`).  The argument is that of `Inv.release`: when the scanned
vertex has `low = num`, what lies above it on the stack reaches it and has no edge out.
-/

namespace Lib.Scc

open List Function

variable {α : Type}

def Reaches (adj : α → List α) : α → α → Prop :=
  Relation.ReflTransGen fun x y => y ∈ adj x

def Mutual (adj : α → List α) (x y : α) : Prop := Reaches adj x y ∧ Reaches adj y x

/-- Both lists have their last entry first. -/
structure State (α : Type) where
  counter : Nat
  num : α → Nat
  low : α → Nat
  stack : List α
  comps : List (List α)

namespace State

def Visited (s : State α) (x : α) : Prop := x ∈ s.stack ∨ x ∈ s.comps.flatten

section steps

variable [DecidableEq α]

def enter (s : State α) (w : α) : State α where
  counter := s.counter + 1
  num := Function.update s.num w s.counter
  low := Function.update s.low w s.counter
  stack := w :: s.stack
  comps := s.comps

def lower (s : State α) (v : α) (n : Nat) : State α :=
  { s with low := Function.update s.low v (min (s.low v) n) }

end steps

/-- The vertices of `c` leave the stack. -/
def release (s : State α) (c rest : List α) : State α :=
  { s with stack := rest, comps := s.comps ++ [c] }

end State

/-! ## The invariant -/

/-- The components found so far are classes, and no edge leads out of them. -/
structure Complete (adj : α → List α) (comps : List (List α)) : Prop where
  nodup : comps.flatten.Nodup
  ne_nil : [] ∉ comps
  closed : ∀ x ∈ comps.flatten, ∀ w ∈ adj x, w ∈ comps.flatten
  exact : ∀ c ∈ comps, ∀ x ∈ c, ∀ y, y ∈ c ↔ Mutual adj x y

/-- The vertices that are scanned, last first, reach what was pushed after them. -/
structure Stacked (adj : α → List α) (active : List α) (s : State α) : Prop where
  disjoint : ∀ x ∈ s.stack, x ∉ s.comps.flatten
  num_lt : ∀ x ∈ s.stack, s.num x < s.counter
  sorted : s.stack.Pairwise fun x y => s.num y < s.num x
  mem : ∀ v ∈ active, v ∈ s.stack
  nested : active.Pairwise fun u v => s.num v < s.num u
  reach : ∀ v ∈ active, ∀ x ∈ s.stack, s.num v ≤ s.num x → Reaches adj v x
  owned : ∀ x ∈ s.stack, ∃ v ∈ active, s.num v ≤ s.num x

/-- What `low` says.  Of the vertices between two scanned ones, the lower one has the least. -/
structure Lows (adj : α → List α) (frames : List (α × List α)) (s : State α) : Prop where
  rest : ∀ p ∈ frames, ∀ w ∈ p.2, w ∈ adj p.1
  le : ∀ x ∈ s.stack, s.low x ≤ s.num x
  lt : ∀ x ∈ s.stack, x ∉ frames.map Prod.fst → s.low x < s.num x
  reach : ∀ x ∈ s.stack, ∃ y ∈ s.stack, s.num y = s.low x ∧ Reaches adj x y
  scanned : ∀ x ∈ s.stack, ∀ w ∈ adj x, (∃ p ∈ frames, p.1 = x ∧ w ∈ p.2) ∨
    s.Visited w ∧ (w ∈ s.stack → s.low x ≤ s.num w)
  above : ∀ us v ws, frames.map Prod.fst = us ++ v :: ws → ∀ x ∈ s.stack, s.num v ≤ s.num x →
    (∀ u ∈ us, s.num x < s.num u) → s.low v ≤ s.low x

structure Inv (adj : α → List α) (frames : List (α × List α)) (s : State α) : Prop where
  complete : Complete adj s.comps
  stacked : Stacked adj (frames.map Prod.fst) s
  lows : Lows adj frames s

section invariant

variable {adj : α → List α} {frames rest : List (α × List α)} {s : State α} {v w x y : α}

theorem Reaches.step (h : Reaches adj x y) (hw : w ∈ adj y) : Reaches adj x w :=
  Relation.ReflTransGen.tail h hw

theorem Reaches.trans (h : Reaches adj x y) (h' : Reaches adj y w) : Reaches adj x w :=
  Relation.ReflTransGen.trans h h'

theorem Reaches.mem_of_closed {l : List α} (hclosed : ∀ x ∈ l, ∀ w ∈ adj x, w ∈ l) (hx : x ∈ l)
    (hr : Reaches adj x y) : y ∈ l := by
  induction hr with
  | refl => exact hx
  | tail _ hstep ih => exact hclosed _ ih _ hstep

theorem inv_start {num low : α → Nat} {counter : Nat} :
    Inv adj [] ⟨counter, num, low, [], []⟩ where
  complete := by
    refine ⟨nodup_nil, not_mem_nil, ?_, ?_⟩
    · exact fun x hx => absurd hx not_mem_nil
    · exact fun c hc => absurd hc not_mem_nil
  stacked := by
    refine ⟨?_, ?_, .nil, ?_, .nil, ?_, ?_⟩ <;> exact fun x hx => absurd hx not_mem_nil
  lows := by
    refine ⟨?_, ?_, ?_, ?_, ?_, fun us v ws h => ?_⟩
    case refine_6 => simp at h
    all_goals exact fun x hx => absurd hx not_mem_nil

theorem Inv.stack_eq_nil (h : Inv adj [] s) : s.stack = [] := by
  refine eq_nil_iff_forall_not_mem.mpr fun x hx => ?_
  obtain ⟨v, hv, -⟩ := h.stacked.owned x hx
  exact absurd hv not_mem_nil

theorem Inv.scan {l : List α} (h : Inv adj ((v, w :: l) :: rest) s) (hw : s.Visited w)
    (hlow : w ∈ s.stack → s.low v ≤ s.num w) : Inv adj ((v, l) :: rest) s where
  complete := h.complete
  stacked := h.stacked
  lows := by
    refine ⟨fun p hp u hu => ?_, h.lows.le, h.lows.lt, h.lows.reach, fun x hx u hu => ?_,
      h.lows.above⟩
    · rcases mem_cons.mp hp with rfl | hp
      · exact h.lows.rest _ mem_cons_self u (mem_cons_of_mem _ hu)
      · exact h.lows.rest p (mem_cons_of_mem _ hp) u hu
    · rcases h.lows.scanned x hx u hu with ⟨p, hp, rfl, hup⟩ | hseen
      · rcases mem_cons.mp hp with rfl | hp
        · rcases mem_cons.mp hup with rfl | hup
          · exact Or.inr ⟨hw, hlow⟩
          · exact Or.inl ⟨_, mem_cons_self, rfl, hup⟩
        · exact Or.inl ⟨p, mem_cons_of_mem _ hp, rfl, hup⟩
      · exact Or.inr hseen

/-! ## Frames that are done -/

theorem Stacked.num_lt_top {active : List α} (h : Stacked adj (v :: active) s) (hx : x ∈ active) :
    s.num x < s.num v :=
  (pairwise_cons.mp h.nested).1 x hx

theorem Inv.retire (h : Inv adj ((v, []) :: rest) s) (hlt : s.low v < s.num v)
    (hparent : ∀ p ∈ rest.head?, s.low p.1 ≤ s.low v) : Inv adj rest s where
  complete := h.complete
  stacked := by
    refine ⟨h.stacked.disjoint, h.stacked.num_lt, h.stacked.sorted, ?_, ?_, ?_, fun x hx => ?_⟩
    · exact fun u hu => h.stacked.mem u (mem_cons_of_mem _ hu)
    · exact (pairwise_cons.mp h.stacked.nested).2
    · exact fun u hu => h.stacked.reach u (mem_cons_of_mem _ hu)
    · -- what `v` owned is owned by the frame that owns the vertex `v` reaches
      have hv : v ∈ s.stack := h.stacked.mem v mem_cons_self
      obtain ⟨u, hu, hle⟩ := h.stacked.owned x hx
      rcases mem_cons.mp hu with rfl | hu
      · obtain ⟨y, hy, hnum, -⟩ := h.lows.reach u hv
        obtain ⟨q, hq, hqle⟩ := h.stacked.owned y hy
        rcases mem_cons.mp hq with rfl | hq
        · omega
        · exact ⟨q, hq, by omega⟩
      · exact ⟨u, hu, hle⟩
  lows := by
    refine ⟨?_, h.lows.le, fun x hx hnot => ?_, h.lows.reach, fun x hx u hu => ?_, ?_⟩
    · exact fun p hp => h.lows.rest p (mem_cons_of_mem _ hp)
    · by_cases hxv : x = v
      · rw [hxv]
        exact hlt
      · refine h.lows.lt x hx fun hmem => ?_
        rcases mem_cons.mp hmem with hmem | hmem
        · exact hxv hmem
        · exact hnot hmem
    · rcases h.lows.scanned x hx u hu with ⟨p, hp, rfl, hup⟩ | hseen
      · rcases mem_cons.mp hp with rfl | hp
        · exact absurd hup not_mem_nil
        · exact Or.inl ⟨p, hp, rfl, hup⟩
      · exact Or.inr hseen
    · intro us u ws hsplit x hx hle hus
      by_cases hxv : s.num x < s.num v
      · refine h.lows.above (v :: us) u ws (by rw [map_cons, hsplit]; rfl) x hx hle ?_
        exact fun q hq => (mem_cons.mp hq).elim (fun he => he ▸ hxv) (hus q)
      · -- above `v` the parent takes over its `low`
        have hlowx := h.lows.above [] v _ rfl x hx (by omega) fun q hq => absurd hq not_mem_nil
        cases us with
        | nil =>
          cases rest with
          | nil => simp at hsplit
          | cons p rest =>
            obtain rfl : p.1 = u := (List.cons.inj hsplit).1
            have := hparent p rfl
            omega
        | cons q us =>
          have hq := hus q mem_cons_self
          have hqv : s.num q < s.num v := by
            refine h.stacked.num_lt_top ?_
            rw [hsplit]
            exact mem_cons_self
          omega

section release

variable {c stack : List α}

theorem Stacked.split {active : List α} (h : Stacked adj active s)
    (hstack : s.stack = c ++ v :: stack) :
    (∀ x, x ∈ c ++ [v] ↔ x ∈ s.stack ∧ s.num v ≤ s.num x) ∧
      ∀ x, x ∈ stack ↔ x ∈ s.stack ∧ s.num x < s.num v := by
  have hsorted := h.sorted
  rw [hstack, pairwise_append, pairwise_cons] at hsorted
  obtain ⟨-, ⟨hbelow, -⟩, habove⟩ := hsorted
  have hc : ∀ x ∈ c, s.num v < s.num x := fun x hx => habove x hx v mem_cons_self
  refine ⟨fun x => ?_, fun x => ?_⟩
  · rw [hstack]
    constructor
    · intro hx
      rcases mem_append.mp hx with hx | hx
      · exact ⟨mem_append_left _ hx, Nat.le_of_lt (hc x hx)⟩
      · rw [mem_singleton.mp hx]
        exact ⟨mem_append_right _ mem_cons_self, Nat.le_refl _⟩
    · rintro ⟨hx, hle⟩
      rcases mem_append.mp hx with hx | hx
      · exact mem_append_left _ hx
      · rcases mem_cons.mp hx with rfl | hx
        · exact mem_append_right _ (mem_singleton.mpr rfl)
        · have := hbelow x hx
          omega
  · rw [hstack]
    constructor
    · exact fun hx => ⟨mem_append_right _ (mem_cons_of_mem _ hx), hbelow x hx⟩
    · rintro ⟨hx, hlt⟩
      rcases mem_append.mp hx with hx | hx
      · have := hc x hx
        omega
      · rcases mem_cons.mp hx with rfl | hx
        · omega
        · exact hx

section

variable (h : Inv adj ((v, []) :: rest) s) (hroot : s.low v = s.num v)

include h hroot

theorem Inv.reaches_root :
    ∀ {n : Nat} {x : α}, s.num x = n → x ∈ s.stack → s.num v ≤ s.num x → Reaches adj x v := by
  intro n
  induction n using Nat.strong_induction_on with
  | h n ih =>
    intro x hn hx hle
    by_cases hxv : x = v
    · rw [hxv]
      exact .refl
    · have hnot : x ∉ ((v, []) :: rest).map Prod.fst := by
        intro hmem
        rcases mem_cons.mp hmem with hmem | hmem
        · exact hxv hmem
        · have hlt : s.num x < s.num v := h.stacked.num_lt_top hmem
          omega
      have hlt := h.lows.lt x hx hnot
      obtain ⟨y, hy, hnum, hreach⟩ := h.lows.reach x hx
      have habove := h.lows.above [] v _ rfl x hx hle fun q hq => absurd hq not_mem_nil
      exact hreach.trans (ih (s.num y) (by omega) rfl hy (by omega))

/-- No edge leads out of what lies above a vertex with `low = num`, but to earlier components. -/
theorem Inv.root_closed (hx : x ∈ s.stack) (hle : s.num v ≤ s.num x) (hw : w ∈ adj x) :
    w ∈ s.comps.flatten ∨ w ∈ s.stack ∧ s.num v ≤ s.num w := by
  rcases h.lows.scanned x hx w hw with ⟨p, hp, rfl, hwp⟩ | ⟨hseen, hlow⟩
  · rcases mem_cons.mp hp with rfl | hp
    · exact absurd hwp not_mem_nil
    · have hlt : s.num p.1 < s.num v := h.stacked.num_lt_top (mem_map_of_mem hp)
      omega
  · rcases hseen with hstack | hdone
    · have habove := h.lows.above [] v _ rfl x hx hle fun q hq => absurd hq not_mem_nil
      have := hlow hstack
      exact Or.inr ⟨hstack, by omega⟩
    · exact Or.inl hdone

theorem Inv.complete_release (hstack : s.stack = c ++ v :: stack) :
    Complete adj (s.comps ++ [c ++ [v]]) := by
  obtain ⟨hseg, -⟩ := h.stacked.split hstack
  have hflat : (s.comps ++ [c ++ [v]]).flatten = s.comps.flatten ++ (c ++ [v]) := by simp
  have hclosed : ∀ x ∈ s.comps.flatten ++ (c ++ [v]), ∀ w ∈ adj x,
      w ∈ s.comps.flatten ++ (c ++ [v]) := by
    intro x hx w hw
    rcases mem_append.mp hx with hx | hx
    · exact mem_append_left _ (h.complete.closed x hx w hw)
    · obtain ⟨hxs, hle⟩ := (hseg x).mp hx
      rcases h.root_closed hroot hxs hle hw with hw | hw
      · exact mem_append_left _ hw
      · exact mem_append_right _ ((hseg w).mpr hw)
  refine ⟨?_, ?_, by rw [hflat]; exact hclosed, ?_⟩
  · rw [hflat]
    have hnodup : (c ++ [v]).Nodup := by
      have hsorted := h.stacked.sorted
      rw [hstack, ← singleton_append, ← append_assoc] at hsorted
      refine (pairwise_append.mp hsorted).1.imp fun {a b} hab he => ?_
      rw [he] at hab
      omega
    refine nodup_append.mpr ⟨h.complete.nodup, hnodup, ?_⟩
    rintro a ha _ hb rfl
    exact h.stacked.disjoint a ((hseg a).mp hb).1 ha
  · intro hmem
    rcases mem_append.mp hmem with hmem | hmem
    · exact h.complete.ne_nil hmem
    · simp at hmem
  · intro d hd x hx y
    rcases mem_append.mp hd with hd | hd
    · exact h.complete.exact d hd x hx y
    · rw [mem_singleton.mp hd] at hx ⊢
      have hto : ∀ z ∈ c ++ [v], Reaches adj z v := fun z hz =>
        h.reaches_root hroot rfl ((hseg z).mp hz).1 ((hseg z).mp hz).2
      have hback : ∀ z ∈ c ++ [v], Reaches adj v z := fun z hz =>
        h.stacked.reach v mem_cons_self z ((hseg z).mp hz).1 ((hseg z).mp hz).2
      constructor
      · exact fun hy => ⟨(hto x hx).trans (hback y hy), (hto y hy).trans (hback x hx)⟩
      · rintro ⟨hxy, hyx⟩
        have hy := Reaches.mem_of_closed hclosed (mem_append_right _ hx) hxy
        rcases mem_append.mp hy with hy | hy
        · exact absurd (hyx.mem_of_closed h.complete.closed hy)
            (h.stacked.disjoint x ((hseg x).mp hx).1)
        · exact hy

end

theorem visited_release (hstack : s.stack = c ++ v :: stack) :
    (s.release (c ++ [v]) stack).Visited x ↔ s.Visited x := by
  simp only [State.Visited, State.release, hstack, flatten_append, flatten_singleton,
    mem_append, mem_cons, not_mem_nil, or_false]
  grind

/-- **A vertex with `low = num` closes a component**: itself and what lies above it. -/
theorem Inv.release (h : Inv adj ((v, []) :: rest) s) (hroot : s.low v = s.num v)
    (hstack : s.stack = c ++ v :: stack) : Inv adj rest (s.release (c ++ [v]) stack) where
  complete := h.complete_release hroot hstack
  stacked := by
    obtain ⟨hseg, hrest⟩ := h.stacked.split hstack
    have hsub : ∀ x ∈ stack, x ∈ s.stack := fun x hx => ((hrest x).mp hx).1
    refine ⟨fun x hx hmem => ?_, fun x hx => h.stacked.num_lt x (hsub x hx), ?_, fun u hu => ?_,
      (pairwise_cons.mp h.stacked.nested).2, fun u hu x hx => ?_, fun x hx => ?_⟩
    · have hflat : (s.comps ++ [c ++ [v]]).flatten = s.comps.flatten ++ (c ++ [v]) := by simp
      have hmem : x ∈ s.comps.flatten ++ (c ++ [v]) := hflat ▸ hmem
      rcases mem_append.mp hmem with hmem | hmem
      · exact h.stacked.disjoint x (hsub x hx) hmem
      · have := ((hrest x).mp hx).2
        have := ((hseg x).mp hmem).2
        omega
    · have hsorted := h.stacked.sorted
      rw [hstack, pairwise_append, pairwise_cons] at hsorted
      exact hsorted.2.1.2
    · exact (hrest u).mpr ⟨h.stacked.mem u (mem_cons_of_mem _ hu), h.stacked.num_lt_top hu⟩
    · exact h.stacked.reach u (mem_cons_of_mem _ hu) x (hsub x hx)
    · obtain ⟨u, hu, hle⟩ := h.stacked.owned x (hsub x hx)
      rcases mem_cons.mp hu with rfl | hu
      · have hlt : s.num x < s.num u := ((hrest x).mp hx).2
        omega
      · exact ⟨u, hu, hle⟩
  lows := by
    obtain ⟨hseg, hrest⟩ := h.stacked.split hstack
    have hsub : ∀ x ∈ stack, x ∈ s.stack := fun x hx => ((hrest x).mp hx).1
    have hne : ∀ x ∈ stack, x ≠ v := by
      rintro x hx rfl
      exact absurd ((hrest x).mp hx).2 (Nat.lt_irrefl _)
    refine ⟨fun p hp => h.lows.rest p (mem_cons_of_mem _ hp),
      fun x hx => h.lows.le x (hsub x hx), fun x hx hnot => ?_, fun x hx => ?_,
      fun x hx u hu => ?_, fun us u ws hsplit x hx hle hus => ?_⟩
    · refine h.lows.lt x (hsub x hx) fun hmem => ?_
      rcases mem_cons.mp hmem with hmem | hmem
      · exact hne x hx hmem
      · exact hnot hmem
    · obtain ⟨y, hy, hnum, hreach⟩ := h.lows.reach x (hsub x hx)
      have hle := h.lows.le x (hsub x hx)
      have hlt := ((hrest x).mp hx).2
      exact ⟨y, (hrest y).mpr ⟨hy, by omega⟩, hnum, hreach⟩
    · rcases h.lows.scanned x (hsub x hx) u hu with ⟨p, hp, rfl, hup⟩ | ⟨hseen, hlow⟩
      · rcases mem_cons.mp hp with rfl | hp
        · exact absurd hup not_mem_nil
        · exact Or.inl ⟨p, hp, rfl, hup⟩
      · refine Or.inr ⟨?_, fun hmem => hlow (hsub u hmem)⟩
        exact (visited_release hstack).mpr hseen
    · refine h.lows.above (v :: us) u ws (by rw [map_cons, hsplit]; rfl) x (hsub x hx) hle ?_
      exact fun q hq => (mem_cons.mp hq).elim (fun he => he ▸ ((hrest x).mp hx).2) (hus q)

end release

/-! ## Entering a vertex, lowering a number -/

section steps

variable [DecidableEq α] {n : Nat}

theorem Inv.lower (h : Inv adj frames s) (hv : v ∈ frames.map Prod.fst)
    (hn : ∃ y ∈ s.stack, s.num y = n ∧ Reaches adj v y) : Inv adj frames (s.lower v n) where
  complete := h.complete
  stacked := ⟨h.stacked.disjoint, h.stacked.num_lt, h.stacked.sorted, h.stacked.mem,
    h.stacked.nested, h.stacked.reach, h.stacked.owned⟩
  lows := by
    have hle : ∀ x, (s.lower v n).low x ≤ s.low x := by
      intro x
      by_cases hx : x = v
      · subst hx
        simp only [State.lower, update_self]
        omega
      · simp [State.lower, update_of_ne hx]
    refine ⟨h.lows.rest, ?_, ?_, ?_, ?_, ?_⟩
    · exact fun x hx => Nat.le_trans (hle x) (h.lows.le x hx)
    · exact fun x hx hnot => Nat.lt_of_le_of_lt (hle x) (h.lows.lt x hx hnot)
    · intro x hx
      by_cases hxv : x = v
      · subst hxv
        obtain ⟨y, hy, hnum, hreach⟩ := h.lows.reach x hx
        obtain ⟨z, hz, hnum', hreach'⟩ := hn
        simp only [State.lower, update_self]
        by_cases hmin : s.low x ≤ n
        · exact ⟨y, hy, by omega, hreach⟩
        · exact ⟨z, hz, by omega, hreach'⟩
      · simp only [State.lower, update_of_ne hxv]
        exact h.lows.reach x hx
    · intro x hx w hw
      rcases h.lows.scanned x hx w hw with hw | ⟨hseen, hlow⟩
      · exact Or.inl hw
      · exact Or.inr ⟨hseen, fun hmem => Nat.le_trans (hle x) (hlow hmem)⟩
    · intro us u ws hsplit x hx hnum hus
      by_cases hxv : x = v
      · -- the vertex is its own frame, and no other frame has it in its part of the stack
        subst hxv
        have hnested := h.stacked.nested
        rw [hsplit, pairwise_append, pairwise_cons] at hnested
        rw [hsplit] at hv
        rcases mem_append.mp hv with hv | hv
        · exact absurd (hus x hv) (Nat.lt_irrefl _)
        · rcases mem_cons.mp hv with rfl | hv
          · exact Nat.le_refl _
          · exact absurd (hnested.2.1.1 x hv) (Nat.not_lt.mpr hnum)
      · have hlow : (s.lower v n).low x = s.low x := update_of_ne hxv _ _
        rw [hlow]
        exact Nat.le_trans (hle u) (h.lows.above us u ws hsplit x hx hnum hus)

theorem enter_of_mem (hw : w ∉ s.stack) (hx : x ∈ s.stack) :
    (s.enter w).num x = s.num x ∧ (s.enter w).low x = s.low x := by
  have hne : x ≠ w := fun he => hw (he ▸ hx)
  exact ⟨update_of_ne hne _ _, update_of_ne hne _ _⟩

theorem enter_self : (s.enter w).num w = s.counter ∧ (s.enter w).low w = s.counter :=
  ⟨update_self _ _ _, update_self _ _ _⟩

theorem Stacked.enter {active : List α} (h : Stacked adj active s) (hw : ¬ s.Visited w)
    (hreach : ∀ v ∈ active, Reaches adj v w) : Stacked adj (w :: active) (s.enter w) := by
  have hws : w ∉ s.stack := fun hmem => hw (Or.inl hmem)
  have hnum : ∀ x ∈ s.stack, (s.enter w).num x = s.num x := fun x hx => (enter_of_mem hws hx).1
  have hself : (s.enter w).num w = s.counter := enter_self.1
  have hlt : ∀ x ∈ s.stack, (s.enter w).num x < (s.enter w).num w := by
    intro x hx
    rw [hnum x hx, hself]
    exact h.num_lt x hx
  refine ⟨fun x hx => ?_, fun x hx => ?_, ?_, fun v hv => ?_, ?_, fun v hv x hx hle => ?_,
    fun x hx => ?_⟩
  · rcases mem_cons.mp hx with rfl | hx
    · exact fun hmem => hw (Or.inr hmem)
    · exact h.disjoint x hx
  · show (s.enter w).num x < s.counter + 1
    rcases mem_cons.mp hx with rfl | hx
    · omega
    · have := hlt x hx
      omega
  · refine pairwise_cons.mpr ⟨hlt, h.sorted.imp_of_mem fun {a b} ha hb hab => ?_⟩
    rw [hnum a ha, hnum b hb]
    exact hab
  · rcases mem_cons.mp hv with rfl | hv
    · exact mem_cons_self
    · exact mem_cons_of_mem _ (h.mem v hv)
  · refine pairwise_cons.mpr ⟨fun v hv => hlt v (h.mem v hv), ?_⟩
    refine h.nested.imp_of_mem fun {a b} ha hb hab => ?_
    rw [hnum a (h.mem a ha), hnum b (h.mem b hb)]
    exact hab
  · rcases mem_cons.mp hv with rfl | hactive
    · rcases mem_cons.mp hx with rfl | hx
      · exact .refl
      · exact absurd (hlt x hx) (Nat.not_lt.mpr hle)
    · rcases mem_cons.mp hx with rfl | hx
      · exact hreach v hactive
      · rw [hnum x hx, hnum v (h.mem v hactive)] at hle
        exact h.reach v hactive x hx hle
  · rcases mem_cons.mp hx with rfl | hx
    · exact ⟨x, mem_cons_self, Nat.le_refl _⟩
    · obtain ⟨v, hv, hle⟩ := h.owned x hx
      refine ⟨v, mem_cons_of_mem _ hv, ?_⟩
      rwa [hnum x hx, hnum v (h.mem v hv)]

theorem visited_enter : (s.enter w).Visited x ↔ x = w ∨ s.Visited x := by
  simp only [State.Visited, State.enter, mem_cons, or_assoc]

theorem Inv.enter {frames' : List (α × List α)} (h : Inv adj frames s) (hw : ¬ s.Visited w)
    (hmap : frames'.map Prod.fst = frames.map Prod.fst)
    (hrest : ∀ p ∈ frames', ∀ u ∈ p.2, u ∈ adj p.1)
    (hskip : ∀ p ∈ frames, ∀ u ∈ p.2, u = w ∨ ∃ q ∈ frames', q.1 = p.1 ∧ u ∈ q.2)
    (hreach : ∀ v ∈ frames.map Prod.fst, Reaches adj v w) :
    Inv adj ((w, adj w) :: frames') (s.enter w) where
  complete := h.complete
  stacked := by
    rw [map_cons, hmap]
    exact h.stacked.enter hw hreach
  lows := by
    have hws : w ∉ s.stack := fun hmem => hw (Or.inl hmem)
    have hself : (s.enter w).num w = s.counter ∧ (s.enter w).low w = s.counter := enter_self
    have hold : ∀ x ∈ s.stack, (s.enter w).num x = s.num x ∧ (s.enter w).low x = s.low x :=
      fun x hx => enter_of_mem hws hx
    refine ⟨fun p hp u hu => ?_, fun x hx => ?_, fun x hx hnot => ?_, fun x hx => ?_,
      fun x hx u hu => ?_, fun us u ws hsplit x hx hle hus => ?_⟩
    · rcases mem_cons.mp hp with rfl | hp
      · exact hu
      · exact hrest p hp u hu
    · rcases mem_cons.mp hx with rfl | hx
      · omega
      · rw [(hold x hx).1, (hold x hx).2]
        exact h.lows.le x hx
    · rw [map_cons, mem_cons, not_or, hmap] at hnot
      rcases mem_cons.mp hx with hx | hx
      · exact absurd hx hnot.1
      · rw [(hold x hx).1, (hold x hx).2]
        exact h.lows.lt x hx hnot.2
    · rcases mem_cons.mp hx with rfl | hx
      · exact ⟨x, mem_cons_self, by omega, .refl⟩
      · obtain ⟨y, hy, hnum, hreach⟩ := h.lows.reach x hx
        refine ⟨y, mem_cons_of_mem _ hy, ?_, hreach⟩
        rw [(hold y hy).1, (hold x hx).2, hnum]
    · rcases mem_cons.mp hx with rfl | hmem
      · exact Or.inl ⟨_, mem_cons_self, rfl, hu⟩
      · have hle := h.lows.le x hmem
        have hlt := h.stacked.num_lt x hmem
        rcases h.lows.scanned x hmem u hu with ⟨p, hp, rfl, hup⟩ | ⟨hseen, hlow⟩
        · rcases hskip p hp u hup with rfl | ⟨q, hq, hqp, huq⟩
          · refine Or.inr ⟨visited_enter.mpr (Or.inl rfl), fun _ => ?_⟩
            rw [hself.1, (hold _ hmem).2]
            omega
          · exact Or.inl ⟨q, mem_cons_of_mem _ hq, hqp, huq⟩
        · refine Or.inr ⟨visited_enter.mpr (Or.inr hseen), fun hu => ?_⟩
          rcases mem_cons.mp hu with rfl | hu
          · exact absurd hseen hw
          · rw [(hold x hmem).2, (hold u hu).1]
            exact hlow hu
    · rw [map_cons, hmap] at hsplit
      have hmem : ∀ y ∈ frames.map Prod.fst, y ∈ s.stack := h.stacked.mem
      cases us with
      | nil =>
        obtain rfl : w = u := (List.cons.inj hsplit).1
        rcases mem_cons.mp hx with rfl | hx
        · exact Nat.le_refl _
        · have := h.stacked.num_lt x hx
          rw [(hold x hx).1] at hle
          omega
      | cons q us =>
        obtain ⟨rfl, htail⟩ := List.cons.inj hsplit
        have hu : u ∈ s.stack := hmem u (by rw [htail]; simp)
        rcases mem_cons.mp hx with rfl | hx
        · exact absurd (hus x mem_cons_self) (Nat.lt_irrefl _)
        · rw [(hold x hx).1, (hold u hu).1] at hle
          rw [(hold x hx).2, (hold u hu).2]
          refine h.lows.above us u ws htail x hx hle fun y hy => ?_
          have hyq := hus y (mem_cons_of_mem _ hy)
          rwa [(hold x hx).1, (hold y (hmem y (by rw [htail]; simp [hy]))).1] at hyq

theorem Inv.enter_root (h : Inv adj [] s) (hw : ¬ s.Visited w) :
    Inv adj [(w, adj w)] (s.enter w) := by
  refine h.enter hw rfl ?_ ?_ ?_ <;> exact fun p hp => absurd hp not_mem_nil

theorem Inv.enter_child {l : List α} (h : Inv adj ((v, w :: l) :: rest) s) (hw : ¬ s.Visited w) :
    Inv adj ((w, adj w) :: (v, l) :: rest) (s.enter w) := by
  have hedge : w ∈ adj v := h.lows.rest _ mem_cons_self w mem_cons_self
  have hv : v ∈ s.stack := h.stacked.mem v mem_cons_self
  refine h.enter hw rfl (fun p hp u hu => ?_) (fun p hp u hu => ?_) (fun u hu => ?_)
  · rcases mem_cons.mp hp with rfl | hp
    · exact h.lows.rest _ mem_cons_self u (mem_cons_of_mem _ hu)
    · exact h.lows.rest p (mem_cons_of_mem _ hp) u hu
  · rcases mem_cons.mp hp with rfl | hp
    · rcases mem_cons.mp hu with rfl | hu
      · exact Or.inl rfl
      · exact Or.inr ⟨_, mem_cons_self, rfl, hu⟩
    · exact Or.inr ⟨p, mem_cons_of_mem _ hp, rfl, hu⟩
  · rcases mem_cons.mp hu with rfl | hmem
    · exact Reaches.step .refl hedge
    · have hlt := h.stacked.num_lt_top hmem
      exact (h.stacked.reach u hu v hv (Nat.le_of_lt hlt)).step hedge

end steps

end invariant

end Lib.Scc
