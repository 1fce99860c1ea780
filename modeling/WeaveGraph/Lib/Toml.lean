import Mathlib.Data.List.Basic

/-!
# TOML values

A table is the list of its entries; values nothing looks into are `other`.
-/

namespace Lib

inductive Toml where
  | string (s : String)
  | array (items : List Toml)
  | table (entries : List (String × Toml))
  | other

namespace Toml

abbrev Table := List (String × Toml)

def asStr : Toml → Option String
  | string s => some s
  | _ => none

def asArray : Toml → Option (List Toml)
  | array items => some items
  | _ => none

def asTable : Toml → Option Table
  | table entries => some entries
  | _ => none

/-- Replaces the value of the key, or adds an entry. -/
def insert (key : String) (value : Toml) : Table → Table
  | [] => [(key, value)]
  | (k, v) :: entries =>
    if key = k then (key, value) :: entries else (k, v) :: insert key value entries

theorem lookup_insert (key : String) (value : Toml) (t : Table) (k : String) :
    (insert key value t).lookup k = if k = key then some value else t.lookup k := by
  induction t with
  | nil => by_cases h : k = key <;> simp [insert, List.lookup_cons, h, beq_false_of_ne]
  | cons entry t ih =>
    obtain ⟨k', v⟩ := entry
    unfold insert
    split
    · rename_i h
      by_cases hk : k = key <;> simp [List.lookup_cons, hk, ← h, beq_false_of_ne]
    · rename_i h
      by_cases hk : k = k'
      · simp [hk, Ne.symm h]
      · simp [List.lookup_cons, hk, ih, beq_false_of_ne]

end Toml

end Lib
