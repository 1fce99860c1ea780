import Mathlib.Data.List.Basic

/-!
# Rows packed into one list

`offsets rows` are the positions at which the rows start in `rows.flatten`, and its length last.
-/

namespace Lib

open List

variable {α : Type}

def offsets (rows : List (List α)) : List Nat := rows.scanl (fun sum row => sum + row.length) 0

theorem offsets_length (rows : List (List α)) : (offsets rows).length = rows.length + 1 :=
  length_scanl ..

theorem offsets_getElem? : ∀ {rows : List (List α)} {i : Nat}, i ≤ rows.length →
    (offsets rows)[i]? = some (rows.take i).flatten.length := by
  have hscan : ∀ {rows : List (List α)} {i start : Nat}, i ≤ rows.length →
      (rows.scanl (fun sum row => sum + row.length) start)[i]? =
        some (start + (rows.take i).flatten.length) := by
    intro rows
    induction rows with
    | nil =>
      intro i start hi
      obtain rfl : i = 0 := by simpa using hi
      simp
    | cons row rows ih =>
      intro i start hi
      cases i with
      | zero => simp
      | succ i =>
        have hi : i ≤ rows.length := by simpa using hi
        rw [scanl_cons, getElem?_cons_succ, ih hi, take_succ_cons,
          flatten_cons, length_append, Nat.add_assoc]
  intro rows i hi
  rw [offsets, hscan hi, Nat.zero_add]

variable {rows : List (List α)}

theorem offsets_getD {i : Nat} (hi : i ≤ rows.length) :
    (offsets rows).getD i 0 = (rows.take i).flatten.length := by
  rw [getD_eq_getElem?_getD, offsets_getElem? hi, Option.getD_some]

theorem mem_offsets {o : Nat} :
    o ∈ offsets rows ↔ ∃ i ≤ rows.length, o = (rows.take i).flatten.length := by
  rw [mem_iff_getElem?]
  constructor
  · rintro ⟨i, hi⟩
    have hlt : i < (offsets rows).length := (List.getElem?_eq_some_iff.mp hi).1
    have hle : i ≤ rows.length := by
      rw [offsets_length] at hlt
      omega
    rw [offsets_getElem? hle] at hi
    exact ⟨i, hle, (Option.some.inj hi).symm⟩
  · rintro ⟨i, hi, rfl⟩
    exact ⟨i, offsets_getElem? hi⟩

theorem flatten_take_succ (rows : List (List α)) (i : Nat) :
    (rows.take (i + 1)).flatten = (rows.take i).flatten ++ rows.getD i [] := by
  rw [take_add_one, flatten_append, getD_eq_getElem?_getD]
  cases rows[i]? with
  | none => rfl
  | some row => simp

theorem flatten_take_mono (rows : List (List α)) {i j : Nat} (hij : i ≤ j) :
    (rows.take i).flatten.length ≤ (rows.take j).flatten.length := by
  induction hij with
  | refl => exact Nat.le_refl _
  | step _ ih =>
    rw [flatten_take_succ, length_append]
    omega

theorem offsets_pairwise (rows : List (List α)) : (offsets rows).Pairwise (· ≤ ·) := by
  rw [pairwise_iff_getElem]
  intro i j hi hj hij
  rw [offsets_length] at hi hj
  have h1 := List.getElem?_eq_some_iff.mp (@offsets_getElem? α rows i (by omega))
  have h2 := List.getElem?_eq_some_iff.mp (@offsets_getElem? α rows j (by omega))
  rw [h1.2, h2.2]
  exact flatten_take_mono rows (by omega)

theorem slice_flatten (rows : List (List α)) (i : Nat) :
    (rows.flatten.drop (rows.take i).flatten.length).take
      ((rows.take (i + 1)).flatten.length - (rows.take i).flatten.length) = rows.getD i [] := by
  have hsplit : rows.flatten =
      (rows.take i).flatten ++ (rows.getD i [] ++ (rows.drop (i + 1)).flatten) := by
    rw [← append_assoc, ← flatten_take_succ, ← flatten_append, take_append_drop]
  have hlen : (rows.take (i + 1)).flatten.length - (rows.take i).flatten.length =
      (rows.getD i []).length := by
    rw [flatten_take_succ, length_append]
    omega
  rw [hlen]
  conv_lhs => rw [hsplit]
  rw [drop_left, take_left]

theorem eq_flatten_of_slices : ∀ {rows : List (List α)} {l : List α},
    l.length = rows.flatten.length →
    (∀ v i x, (rows.getD v [])[i]? = some x → l[(rows.take v).flatten.length + i]? = some x) →
    l = rows.flatten := by
  intro rows
  induction rows with
  | nil =>
    intro l hlen _
    exact length_eq_zero_iff.mp hlen
  | cons row rows ih =>
    intro l hlen hrow
    rw [flatten_cons, length_append] at hlen
    have hhead : l.take row.length = row := by
      refine ext_getElem? fun i => ?_
      by_cases hi : i < row.length
      · have h := hrow 0 i row[i] (by simp)
        rw [take_zero, flatten_nil, length_nil, Nat.zero_add] at h
        rw [getElem?_take_of_lt hi, h, getElem?_eq_getElem hi]
      · rw [getElem?_eq_none (by rw [length_take]; omega), getElem?_eq_none (by omega)]
    have htail : l.drop row.length = rows.flatten := by
      refine ih (by rw [length_drop]; omega) fun v i x hx => ?_
      have h := hrow (v + 1) i x (by simpa using hx)
      rw [take_succ_cons, flatten_cons, length_append, Nat.add_assoc] at h
      rwa [getElem?_drop]
    calc l = l.take row.length ++ l.drop row.length := (take_append_drop ..).symm
      _ = row ++ rows.flatten := by rw [hhead, htail]

end Lib
