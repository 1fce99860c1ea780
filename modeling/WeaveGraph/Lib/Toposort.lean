import Mathlib.Data.Set.Finite.Basic
import Mathlib.Order.WellFounded

/-!
# Topological orders

A list is `Sourced` when every vertex of it comes after all vertices with an edge to it.  Such a
list meets no cycle (`Sourced.acyclic`); a finite set of vertices that all have an edge from within
the set has one (`exists_cycle`).
-/

namespace Lib

open List

section toposort

variable {α : Type} {r : α → α → Prop} {l : List α} {u v : α}

def Sourced (r : α → α → Prop) (l : List α) : Prop :=
  ∀ s v t, l = s ++ v :: t → ∀ u, r u v → u ∈ s

theorem sourced_nil : Sourced r [] := by
  intro s v t h
  simp at h

theorem Sourced.snoc (h : Sourced r l) (hv : ∀ u, r u v → u ∈ l) : Sourced r (l ++ [v]) := by
  intro s w t hsplit u hu
  rcases eq_nil_or_concat t with rfl | ⟨t, x, rfl⟩
  · obtain ⟨rfl, hw⟩ := append_inj' hsplit rfl
    cases hw
    exact hv u hu
  · rw [concat_eq_append, ← cons_append, ← append_assoc] at hsplit
    obtain ⟨hl, -⟩ := append_inj' hsplit rfl
    exact h s w t hl u hu

theorem Sourced.sublist (h : Sourced r l) (hv : v ∈ l) (huv : r u v) : [u, v].Sublist l := by
  obtain ⟨s, t, rfl⟩ := append_of_mem hv
  have hu := h s v t rfl u huv
  exact (singleton_sublist.mpr hu).append (singleton_sublist.mpr mem_cons_self)

theorem Sourced.mem_of_transGen (h : Sourced r l) (huv : Relation.TransGen r u v) :
    ∀ {s t : List α}, l = s ++ v :: t → u ∈ s := by
  induction huv with
  | single hstep => exact fun {s t} hl => h s _ t hl _ hstep
  | @tail w x _ hstep ih =>
    intro s t hl
    obtain ⟨s₁, s₂, rfl⟩ := append_of_mem (h s x t hl w hstep)
    rw [append_assoc, cons_append] at hl
    exact mem_append_left _ (ih hl)

theorem Sourced.acyclic (h : Sourced r l) (hl : l.Nodup) (hv : v ∈ l) :
    ¬ Relation.TransGen r v v := by
  intro hcycle
  obtain ⟨s, t, rfl⟩ := append_of_mem hv
  have hmem := h.mem_of_transGen hcycle rfl
  exact (nodup_append.mp hl).2.2 v hmem v mem_cons_self rfl

/-- Where every vertex of a finite set has an edge from the set there is a cycle. -/
theorem exists_cycle {univ : List α} {P : α → Prop} (hfin : ∀ v, P v → v ∈ univ)
    (hsource : ∀ v, P v → ∃ u, P u ∧ r u v) (hv : P v) : ∃ w, Relation.TransGen r w w := by
  by_contra hno
  let before : { x // x ∈ univ } → { x // x ∈ univ } → Prop := fun x y => Relation.TransGen r x y
  have hirrefl : Std.Irrefl before := ⟨fun x hx => hno ⟨x, hx⟩⟩
  have hfinite : Finite { x // x ∈ univ } := univ.finite_toSet.to_subtype
  have hwf : WellFounded before := Finite.wellFounded_of_trans_of_irrefl before
  obtain ⟨⟨m, hm⟩, hmP, hmin⟩ := hwf.has_min { x | P x } ⟨⟨v, hfin v hv⟩, hv⟩
  obtain ⟨u, hu, hum⟩ := hsource m hmP
  exact hmin ⟨u, hfin u hu⟩ hu (Relation.TransGen.single hum)

end toposort

end Lib
