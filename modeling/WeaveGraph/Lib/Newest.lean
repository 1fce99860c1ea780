import Mathlib.Data.List.Sort

/-!
# Keeping the newest

A store that keeps `n` entries sorts them from the oldest to the newest and drops all but the last
`n`.  An entry is dropped exactly if at least `n` others are newer (`mem_oldest_iff`).
-/

namespace Lib

open List

variable {α : Type}

theorem mem_take_append_cons {x : α} {before after : List α} {k : Nat}
    (hn : (before ++ x :: after).Nodup) :
    x ∈ (before ++ x :: after).take k ↔ before.length < k := by
  obtain ⟨-, -, hdis⟩ := nodup_append.mp hn
  rw [take_append, mem_append]
  constructor
  · rintro (h | h)
    · exact absurd rfl (hdis x (mem_of_mem_take h) x mem_cons_self)
    · by_contra hk
      rw [Nat.sub_eq_zero_of_le (by omega), take_zero] at h
      cases h
  · intro hk
    obtain ⟨m, hm⟩ : ∃ m, k - before.length = m + 1 := ⟨k - before.length - 1, by omega⟩
    rw [hm, take_succ_cons]
    exact .inr mem_cons_self

variable [DecidableEq α] {le : α → α → Prop} [DecidableRel le]

/-- All but the `n` newest of `l`. -/
def oldest (le : α → α → Prop) [DecidableRel le] (n : Nat) (l : List α) : List α :=
  (l.insertionSort le).take (l.length - n)

/-- The other entries that are not older than `x`. -/
def newer (le : α → α → Prop) [DecidableRel le] (x : α) (l : List α) : List α :=
  l.filter fun y => y ≠ x ∧ le x y

theorem newer_append_cons {x : α} {before after : List α}
    (hs : (before ++ x :: after).Pairwise le) (hn : (before ++ x :: after).Nodup)
    (hanti : ∀ a ∈ before ++ x :: after, ∀ b ∈ before ++ x :: after, le a b → le b a → a = b) :
    newer le x (before ++ x :: after) = after := by
  obtain ⟨-, hnx, hdis⟩ := nodup_append.mp hn
  obtain ⟨-, hsx, hsb⟩ := pairwise_append.mp hs
  have hbefore : before.filter (fun y => y ≠ x ∧ le x y) = [] := by
    refine filter_eq_nil_iff.mpr fun y hy h => ?_
    obtain ⟨hne, hxy⟩ := of_decide_eq_true h
    exact hne (hanti y (mem_append_left _ hy) x (by simp) (hsb y hy x mem_cons_self) hxy)
  have hafter : after.filter (fun y => y ≠ x ∧ le x y) = after := by
    refine filter_eq_self.mpr fun y hy => decide_eq_true ⟨?_, rel_of_pairwise_cons hsx hy⟩
    rintro rfl
    exact (nodup_cons.mp hnx).1 hy
  rw [newer, filter_append, hbefore, filter_cons_of_neg (by simp), hafter, nil_append]

theorem mem_oldest_iff [IsTrans α le] [Std.Total le] {l : List α} (hn : l.Nodup)
    (hanti : ∀ a ∈ l, ∀ b ∈ l, le a b → le b a → a = b) {x : α} (hx : x ∈ l) (n : Nat) :
    x ∈ oldest le n l ↔ n ≤ (newer le x l).length := by
  have hperm := perm_insertionSort le l
  have hs := pairwise_insertionSort le l
  have hlen : (newer le x l).length = (newer le x (l.insertionSort le)).length :=
    ((hperm.symm.filter _).length_eq :)
  obtain ⟨before, after, hsplit⟩ := append_of_mem (hperm.mem_iff.mpr hx)
  have hsn : (before ++ x :: after).Nodup := hsplit ▸ hperm.nodup_iff.mpr hn
  have hsanti : ∀ a ∈ before ++ x :: after, ∀ b ∈ before ++ x :: after,
      le a b → le b a → a = b := by
    intro a ha b hb
    rw [← hsplit] at ha hb
    exact hanti a (hperm.mem_iff.mp ha) b (hperm.mem_iff.mp hb)
  have hcount : l.length = before.length + (after.length + 1) := by
    rw [← hperm.length_eq, hsplit, length_append, length_cons]
  rw [oldest, hlen, hsplit, mem_take_append_cons hsn,
    newer_append_cons (hsplit ▸ hs) hsn hsanti, hcount]
  omega

end Lib
