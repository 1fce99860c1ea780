import Mathlib.Data.List.Perm.Basic

/-!
# Lists up to the order between groups

The elements of a list fall into groups by a key.  Two lists that have every group alike, in order,
differ only in how the groups are interleaved (`SameGroups`).  What looks at one group at a time
cannot tell them apart.
-/

namespace Lib

open List

section images

variable {α β κ : Type} {l : List α}

/-- Two images of a list under functions that keep a key which determines the first image. -/
theorem perm_map_iff {f g : α → β} (key : β → κ) (hkey : ∀ a ∈ l, key (f a) = key (g a))
    (hf : ∀ a ∈ l, ∀ b ∈ l, key (f a) = key (f b) → f a = f b) :
    (l.map f).Perm (l.map g) ↔ ∀ a ∈ l, f a = g a := by
  constructor
  · intro h a ha
    obtain ⟨c, hc, hca⟩ := mem_map.mp (h.mem_iff.mpr (mem_map_of_mem ha))
    have hsame : f c = f a := hf c hc a ha (by rw [hca, hkey a ha])
    rw [← hsame, hca]
  · intro h
    rw [map_congr_left h]

end images

instance decidableSameMembers {α : Type} [DecidableEq α] (l l' : List α) :
    Decidable (∀ a, a ∈ l ↔ a ∈ l') :=
  decidable_of_iff ((∀ a ∈ l, a ∈ l') ∧ ∀ a ∈ l', a ∈ l)
    ⟨fun h a => ⟨h.1 a, h.2 a⟩, fun h => ⟨fun a => (h a).mp, fun a => (h a).mpr⟩⟩

variable {α β κ : Type} [DecidableEq κ] {key : α → κ} {l l' : List α}

/-- The elements under one key, in order. -/
def group (key : α → κ) (l : List α) (k : κ) : List α := l.filter fun a => key a = k

/-- The same elements in the same order under every key. -/
def SameGroups (key : α → κ) (l l' : List α) : Prop := ∀ k, group key l k = group key l' k

@[simp] theorem mem_group {k : κ} {a : α} : a ∈ group key l k ↔ a ∈ l ∧ key a = k := by
  simp [group]

/-- Only the keys of the elements matter. -/
instance [DecidableEq α] : Decidable (SameGroups key l l') :=
  decidable_of_iff (∀ a ∈ l ++ l', group key l (key a) = group key l' (key a)) <| by
    refine ⟨fun h k => ?_, fun h a _ => h (key a)⟩
    by_cases hk : ∃ a ∈ l ++ l', key a = k
    · obtain ⟨a, ha, rfl⟩ := hk
      exact h a ha
    · have hnil : ∀ m : List α, (∀ a ∈ m, a ∈ l ++ l') → group key m k = [] :=
        fun m hm => eq_nil_iff_forall_not_mem.mpr fun a ha =>
          hk ⟨a, hm a (mem_group.mp ha).1, (mem_group.mp ha).2⟩
      rw [hnil l fun a => mem_append_left l', hnil l' fun a => mem_append_right l]

@[simp] theorem group_append (k : κ) : group key (l ++ l') k = group key l k ++ group key l' k :=
  filter_append l l'

theorem group_map {key' : β → κ} {f : α → β} (k : κ) (hf : ∀ a ∈ l, key' (f a) = key a) :
    group key' (l.map f) k = (group key l k).map f := by
  unfold group
  rw [filter_map]
  congr 1
  refine filter_congr fun a ha => ?_
  rw [Function.comp_apply, hf a ha]

theorem filter_group {p : α → Bool} {k : κ} (hp : ∀ a, p a = true → key a = k) :
    (group key l k).filter p = l.filter p := by
  unfold group
  rw [filter_filter]
  refine filter_congr fun a _ => ?_
  cases ha : p a with
  | false => rfl
  | true => simp [hp a ha]

namespace SameGroups

theorem refl (key : α → κ) (l : List α) : SameGroups key l l := fun _ => rfl

section

variable (h : SameGroups key l l')

include h

theorem symm : SameGroups key l' l := fun k => (h k).symm

theorem trans {l'' : List α} (h' : SameGroups key l' l'') : SameGroups key l l'' :=
  fun k => (h k).trans (h' k)

theorem mem_iff {a : α} : a ∈ l ↔ a ∈ l' := by
  have hmem := congrArg (a ∈ ·) (h (key a))
  simpa using hmem

theorem perm [DecidableEq α] : l.Perm l' := by
  refine perm_iff_count.mpr fun a => ?_
  have hcount : ∀ l : List α, (group key l (key a)).count a = l.count a :=
    fun l => count_filter (by simp)
  rw [← hcount l, ← hcount l', h (key a)]

theorem filter (p : α → Bool) : SameGroups key (l.filter p) (l'.filter p) := by
  have hcomm : ∀ (l : List α) k, group key (l.filter p) k = (group key l k).filter p := by
    intro l k
    unfold group
    rw [filter_filter, filter_filter]
    exact filter_congr fun a _ => Bool.and_comm _ _
  intro k
  rw [hcomm, hcomm, h k]

theorem append {m m' : List α} (h' : SameGroups key m m') : SameGroups key (l ++ m) (l' ++ m') := by
  intro k
  rw [group_append, group_append, h k, h' k]

theorem map {key' : β → κ} {f : α → β} (hf : ∀ a ∈ l, key' (f a) = key a) :
    SameGroups key' (l.map f) (l'.map f) := by
  intro k
  rw [group_map k hf, group_map k fun a ha => hf a (h.mem_iff.mpr ha), h k]

end

end SameGroups

end Lib
