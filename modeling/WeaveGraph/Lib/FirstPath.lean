import Mathlib.Data.Finset.Max
import Mathlib.Data.List.Chain

/-!
# First paths

A depth-first search that takes roots and successors in increasing order finds every vertex along
the lexicographically first simple path to it.  `Settled` is what such a search keeps: for every
vertex of its path, what can be reached from a smaller sibling without the path above is done.  So
the path to a vertex that is not done is the first one (`Settled.firstTo`).

A back edge of the search closes a `FirstRing`.  There is one whenever there is a cycle
(`exists_firstRing`): take the vertex of the cycle whose first path is least; the first path to its
predecessor begins with it.
-/

namespace Lib

open List

section order

variable {α : Type} [LinearOrder α]

theorem lt_cases : ∀ {l m : List α}, l < m → (∃ s, s ≠ [] ∧ m = l ++ s) ∨
    ∃ c a b s t, l = c ++ a :: s ∧ m = c ++ b :: t ∧ a < b := by
  intro l
  induction l with
  | nil =>
    intro m h
    refine Or.inl ⟨m, ?_, rfl⟩
    rintro rfl
    exact absurd h (lt_irrefl _)
  | cons a l ih =>
    intro m h
    cases m with
    | nil => exact absurd h (not_lt_nil _)
    | cons b m =>
      rcases cons_lt_cons_iff.mp h with hab | ⟨rfl, htail⟩
      · exact Or.inr ⟨[], a, b, l, m, rfl, rfl, hab⟩
      · rcases ih htail with ⟨s, hs, rfl⟩ | ⟨c, x, y, s, t, rfl, rfl, hxy⟩
        · exact Or.inl ⟨s, hs, rfl⟩
        · exact Or.inr ⟨a :: c, x, y, s, t, rfl, rfl, hxy⟩

theorem lt_append {s : List α} (hs : s ≠ []) : ∀ l : List α, l < l ++ s := by
  intro l
  induction l with
  | nil =>
    obtain ⟨a, t, rfl⟩ := exists_cons_of_ne_nil hs
    exact nil_lt_cons a t
  | cons a l ih => exact cons_lt_cons_iff.mpr (Or.inr ⟨rfl, ih⟩)

theorem exists_append_of_between : ∀ {l m s : List α}, l ≤ m → m ≤ l ++ s → ∃ t, m = l ++ t := by
  intro l
  induction l with
  | nil => exact fun _ _ => ⟨_, rfl⟩
  | cons a l ih =>
    intro m s hl hm
    cases m with
    | nil => exact absurd hl (not_le.mpr (nil_lt_cons _ _))
    | cons b m =>
      rw [cons_append] at hm
      rw [← not_lt, cons_lt_cons_iff, not_or] at hl hm
      obtain rfl : a = b := le_antisymm (not_lt.mp hl.1) (not_lt.mp hm.1)
      have hl' : l ≤ m := not_lt.mp fun h => hl.2 ⟨rfl, h⟩
      have hm' : m ≤ l ++ s := not_lt.mp fun h => hm.2 ⟨rfl, h⟩
      obtain ⟨t, rfl⟩ := ih hl' hm'
      exact ⟨t, rfl⟩

end order

section paths

variable {α : Type} (root : α → Prop) (r : α → α → Prop)

/-- A path from a root that visits no vertex twice. -/
structure Simple (p : List α) : Prop where
  head : ∀ a ∈ p.head?, root a
  steps : p.IsChain r
  nodup : p.Nodup

/-- The vertices a path can go on with. -/
def Next (p : List α) (a : α) : Prop :=
  match p.getLast? with
  | none => root a
  | some x => r x a

variable {root r} {p q c : List α} {a b x y : α}

theorem next_snoc : Next root r (p ++ [x]) a ↔ r x a := by
  rw [Next, getLast?_concat]

theorem simple_nil : Simple root r [] := ⟨by simp, .nil, .nil⟩

theorem Simple.left (h : Simple root r (p ++ q)) : Simple root r p where
  head a ha := h.head a (by
    cases p with
    | nil => cases ha
    | cons b p => exact ha)
  steps := (isChain_append.mp h.steps).1
  nodup := (nodup_append.mp h.nodup).1

theorem Simple.snoc (h : Simple root r p) (hnext : Next root r p a) (ha : a ∉ p) :
    Simple root r (p ++ [a]) where
  head b hb := by
    cases p with
    | nil =>
      cases hb
      exact hnext
    | cons c p => exact h.head b hb
  steps := by
    refine isChain_append.mpr ⟨h.steps, .singleton a, fun x hx y hy => ?_⟩
    cases hy
    rw [Next, hx] at hnext
    exact hnext
  nodup := by
    refine nodup_append.mpr ⟨h.nodup, nodup_singleton a, ?_⟩
    rintro x hx y hy rfl
    exact ha (mem_singleton.mp hy ▸ hx)

theorem Simple.next (h : Simple root r (p ++ a :: q)) : Next root r p a ∧ a ∉ p := by
  refine ⟨?_, fun ha => ?_⟩
  · unfold Next
    split
    · rename_i hnil
      obtain rfl := getLast?_eq_none_iff.mp hnil
      exact h.head a rfl
    · rename_i x hx
      exact (isChain_append.mp h.steps).2.2 x hx a rfl
  · exact (nodup_append.mp h.nodup).2.2 a ha a mem_cons_self rfl

theorem reaches_of_isChain : ∀ {l : List α} {a : α}, (a :: l).IsChain r → (∀ b ∈ l, b ∉ c) →
    (a :: l).getLast? = some x → Relation.ReflTransGen (fun u w => r u w ∧ w ∉ c) a x := by
  intro l
  induction l with
  | nil =>
    intro a _ _ hx
    cases hx
    exact .refl
  | cons b l ih =>
    intro a hsteps hnot hx
    obtain ⟨hab, hsteps⟩ := isChain_cons_cons.mp hsteps
    exact .head ⟨hab, hnot b mem_cons_self⟩
      (ih hsteps (fun w hw => hnot w (mem_cons_of_mem _ hw)) hx)

theorem reaches_of_mem : ∀ {l : List α} {a : α}, (a :: l).IsChain r → (a :: l).getLast? = some x →
    ∀ b ∈ a :: l, Relation.ReflTransGen r a b ∧ Relation.ReflTransGen r b x := by
  intro l
  induction l with
  | nil =>
    intro a _ hx b hb
    cases hx
    rw [mem_singleton.mp hb]
    exact ⟨.refl, .refl⟩
  | cons c l ih =>
    intro a hchain hx b hb
    obtain ⟨hac, hsteps⟩ := isChain_cons_cons.mp hchain
    rcases mem_cons.mp hb with rfl | hb
    · exact ⟨.refl, .head hac (ih hsteps hx c mem_cons_self).2⟩
    · obtain ⟨hcb, hbx⟩ := ih hsteps hx b hb
      exact ⟨.head hac hcb, hbx⟩

theorem exists_nodup_isChain (h : Relation.ReflTransGen r a x) :
    ∃ l, (a :: l).IsChain r ∧ (a :: l).Nodup ∧ (a :: l).getLast? = some x := by
  induction h using Relation.ReflTransGen.head_induction_on with
  | refl => exact ⟨[], .singleton _, nodup_singleton _, rfl⟩
  | @head a b hab _ ih =>
    obtain ⟨l, hsteps, hnodup, hlast⟩ := ih
    by_cases ha : a ∈ b :: l
    · -- the way comes back to `a`: start from there
      obtain ⟨s, t, hst⟩ := append_of_mem ha
      rw [hst] at hsteps hnodup hlast
      refine ⟨t, (isChain_append.mp hsteps).2.1, (nodup_append.mp hnodup).2.1, ?_⟩
      rwa [getLast?_append_of_ne_nil _ (cons_ne_nil a t)] at hlast
    · refine ⟨b :: l, isChain_cons_cons.mpr ⟨hab, hsteps⟩, nodup_cons.mpr ⟨ha, hnodup⟩, ?_⟩
      rw [getLast?_cons_cons, hlast]

end paths

section first

variable {α : Type} [LinearOrder α] (root : α → Prop) (r : α → α → Prop)

/-- The lexicographically first simple path to `x`. -/
structure FirstTo (x : α) (p : List α) : Prop where
  simple : Simple root r p
  last : p.getLast? = some x
  le : ∀ q, Simple root r q → q.getLast? = some x → p ≤ q

/-- Whatever can be reached from a smaller sibling of a vertex of the path, without the path above
it, is done. -/
def Settled (done : α → Prop) (p : List α) : Prop :=
  ∀ c b q, p = c ++ b :: q → ∀ a, a < b → Next root r c a → a ∉ c →
    ∀ x, Relation.ReflTransGen (fun u w => r u w ∧ w ∉ c) a x → done x

/-- A ring that a back edge to the first path closes. -/
def FirstRing (l : List α) : Prop :=
  ∃ p y q x, FirstTo root r x (p ++ y :: q) ∧ r x y ∧ l = (y :: q) ++ [y]

variable {root r} {done : α → Prop} {p q : List α} {x y : α}

theorem FirstTo.unique (hp : FirstTo root r x p) (hq : FirstTo root r x q) : p = q :=
  le_antisymm (hp.le q hq.simple hq.last) (hq.le p hp.simple hp.last)

theorem Settled.firstTo (h : Settled root r done p) (hp : Simple root r p)
    (hlast : p.getLast? = some x) (hx : ¬ done x) : FirstTo root r x p where
  simple := hp
  last := hlast
  le q hq hqx := by
    by_contra hlt
    rcases lt_cases (not_le.mp hlt) with ⟨s, hs, rfl⟩ | ⟨c, a, b, s, t, rfl, rfl, hab⟩
    · -- the path would visit `x` twice
      rw [getLast?_append_of_ne_nil _ hs] at hlast
      exact (nodup_append.mp hp.nodup).2.2 x (mem_of_getLast? hqx) x (mem_of_getLast? hlast) rfl
    · obtain ⟨hnext, ha⟩ := hq.next
      refine hx (h c b t rfl a hab hnext ha x (reaches_of_isChain (l := s) ?_ ?_ ?_))
      · exact (isChain_append.mp hq.steps).2.1
      · exact fun w hw hc =>
          (nodup_append.mp hq.nodup).2.2 w hc w (mem_cons_of_mem _ hw) rfl
      · rwa [getLast?_append_of_ne_nil _ (cons_ne_nil a s)] at hqx

theorem FirstRing.isChain {l : List α} (h : FirstRing root r l) : l.IsChain r := by
  obtain ⟨p, y, q, x, hfirst, hxy, rfl⟩ := h
  have hlast := hfirst.last
  rw [getLast?_append_of_ne_nil _ (cons_ne_nil y q)] at hlast
  have hsteps := (isChain_append.mp hfirst.simple.steps).2.1
  refine isChain_append.mpr ⟨hsteps, .singleton y, ?_⟩
  intro u hu w hw
  rw [hlast] at hu
  cases hu
  cases hw
  exact hxy

/-- The first path to the least vertex of a set meets no other vertex of it. -/
theorem FirstTo.eq_of_mem {C : α → Prop} {P : α → List α} (hP : ∀ z, C z → FirstTo root r z (P z))
    (hmin : ∀ z, C z → P y ≤ P z) (hy : C y) (hx : C x) (hmem : x ∈ P y) : x = y := by
  obtain ⟨s, t, hst⟩ := append_of_mem hmem
  have hfirst := hP y hy
  by_contra hne
  have ht : t ≠ [] := by
    rintro rfl
    have hlast := hfirst.last
    rw [hst, getLast?_concat] at hlast
    exact hne (Option.some.inj hlast)
  have hsplit : P y = s ++ [x] ++ t := by rw [hst, append_assoc, singleton_append]
  have hsimple : Simple root r (s ++ [x]) := (hsplit ▸ hfirst.simple).left
  have hle : P y ≤ s ++ [x] :=
    (hmin x hx).trans ((hP x hx).le _ hsimple getLast?_concat)
  rw [hsplit] at hle
  exact absurd hle (not_le.mpr (lt_append ht _))

theorem FirstTo.append {l : List α} (hfirst : FirstTo root r y p) (hsteps : (y :: l).IsChain r)
    (hnodup : l.Nodup) (hdisj : ∀ w ∈ l, w ∉ p) : Simple root r (p ++ l) where
  head a ha := hfirst.simple.head a (by
    cases p with
    | nil => cases hfirst.last
    | cons b p => exact ha)
  steps := by
    refine isChain_append.mpr ⟨hfirst.simple.steps, ?_, fun u hu w hw => ?_⟩
    · exact (isChain_cons.mp hsteps).2
    · rw [hfirst.last] at hu
      cases hu
      exact (isChain_cons.mp hsteps).1 w hw
  nodup := by
    refine nodup_append.mpr ⟨hfirst.simple.nodup, hnodup, ?_⟩
    rintro a ha _ hb rfl
    exact hdisj a hb ha

/-- **Where there is a cycle there is a first ring.** -/
theorem exists_firstRing {univ : List α} (hroot : ∀ a b, r a b → root a)
    (huniv : ∀ a, root a → a ∈ univ) (hfirst : ∀ a, root a → ∃ p, FirstTo root r a p)
    (h : Relation.TransGen r x x) : ∃ l, FirstRing root r l := by
  classical
  let C : α → Prop := fun z => Relation.ReflTransGen r x z ∧ Relation.ReflTransGen r z x
  have hcycle : ∀ z, C z → Relation.TransGen r z z := fun z hz =>
    (Relation.TransGen.trans_right hz.2 h).trans_left hz.1
  have hrootC : ∀ z, C z → root z := by
    intro z hz
    obtain ⟨w, hzw, -⟩ := Relation.TransGen.head'_iff.mp (hcycle z hz)
    exact hroot z w hzw
  obtain ⟨P, hP⟩ : ∃ P : α → List α, ∀ z, C z → FirstTo root r z (P z) := by
    have hex : ∀ z, ∃ p, C z → FirstTo root r z p := by
      intro z
      by_cases hz : C z
      · obtain ⟨p, hp⟩ := hfirst z (hrootC z hz)
        exact ⟨p, fun _ => hp⟩
      · exact ⟨[], fun hz' => absurd hz' hz⟩
    choose P hP using hex
    exact ⟨P, hP⟩
  -- the vertex of the cycle with the least first path, and its predecessor
  obtain ⟨y, hyC, hmin⟩ : ∃ y, C y ∧ ∀ z, C z → P y ≤ P z := by
    have hx : x ∈ univ.toFinset.filter C := by
      rw [Finset.mem_filter, mem_toFinset]
      exact ⟨huniv x (hrootC x ⟨.refl, .refl⟩), .refl, .refl⟩
    obtain ⟨y, hy, hmin⟩ := Finset.exists_min_image (univ.toFinset.filter C) P ⟨x, hx⟩
    refine ⟨y, (Finset.mem_filter.mp hy).2, fun z hz => hmin z ?_⟩
    rw [Finset.mem_filter, mem_toFinset]
    exact ⟨huniv z (hrootC z hz), hz⟩
  obtain ⟨u, hyu, huy⟩ := Relation.TransGen.tail'_iff.mp (hcycle y hyC)
  have huC : C u := ⟨hyC.1.trans hyu, .head huy hyC.2⟩
  obtain ⟨l, hsteps, hnodup, hlast⟩ := exists_nodup_isChain hyu
  have hlC : ∀ w ∈ l, C w := by
    intro w hw
    obtain ⟨hyw, hwu⟩ := reaches_of_mem hsteps hlast w (mem_cons_of_mem _ hw)
    exact ⟨hyC.1.trans hyw, hwu.trans huC.2⟩
  have hnotin : y ∉ l := (nodup_cons.mp hnodup).1
  have hway : Simple root r (P y ++ l) := by
    refine (hP y hyC).append hsteps (nodup_cons.mp hnodup).2 fun w hw hmem => hnotin ?_
    rwa [← FirstTo.eq_of_mem hP hmin hyC (hlC w hw) hmem]
  have hwaylast : (P y ++ l).getLast? = some u := by
    cases l with
    | nil =>
      obtain rfl : y = u := Option.some.inj hlast
      rw [append_nil]
      exact (hP y hyC).last
    | cons w l =>
      rw [getLast?_append_of_ne_nil _ (cons_ne_nil w l)]
      rwa [getLast?_cons_cons] at hlast
  obtain ⟨t, ht⟩ := exists_append_of_between (hmin u huC) ((hP u huC).le _ hway hwaylast)
  obtain ⟨c, hc⟩ : ∃ c, P y = c ++ [y] :=
    getLast?_eq_some_iff.mp (hP y hyC).last
  rw [hc, append_assoc, singleton_append] at ht
  exact ⟨_, c, y, t, u, ht ▸ hP u huC, huy, rfl⟩

end first

end Lib
