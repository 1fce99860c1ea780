import Mathlib.Data.String.Basic

/-!
# JSON values

A JSON text is read in two stages.  The grammar gives a `Raw` tree: fields in the order they were
written, repeated ones included, and literals that follow the grammar but denote nothing (a number
out of range, a string with half a surrogate pair).  Reading turns the tree into a `Value`: an
object keeps the last field of each name, in the order of the names, and nesting is limited.

A value that fits the limit is what its own text reads as (`read_toRaw`), and every value that was
read fits (`fits_of_read`).
-/

namespace Lib.Json

open List

/-- A natural number, a negative integer, or any other number, as it was written. -/
inductive Number where
  | posInt (n : Nat)
  | negInt (n : Nat)
  | float (text : String)
deriving Repr, DecidableEq

/-- What the grammar makes of a text; `none` is a literal that denotes nothing. -/
inductive Raw where
  | null
  | bool (b : Bool)
  | num (n : Option Number)
  | str (s : Option String)
  | arr (items : List Raw)
  | obj (fields : List (Option String × Raw))
deriving Repr

inductive Value where
  | null
  | bool (b : Bool)
  | num (n : Number)
  | str (s : String)
  | arr (items : List Value)
  | obj (fields : List (String × Value))
deriving Repr

/-! ## Objects -/

/-- Replaces the field of that name, or adds one in the order of the names. -/
def insertField (key : String) (value : Value) : List (String × Value) → List (String × Value)
  | [] => [(key, value)]
  | (k, v) :: fields =>
    if key = k then (key, value) :: fields
    else if key < k then (key, value) :: (k, v) :: fields
    else (k, v) :: insertField key value fields

namespace Value

def get (v : Value) (key : String) : Option Value :=
  match v with
  | obj fields => fields.lookup key
  | _ => none

def asStr : Value → Option String
  | str s => some s
  | _ => none

def asU64 : Value → Option Nat
  | num (.posInt n) => some n
  | _ => none

def asArray : Value → Option (List Value)
  | arr items => some items
  | _ => none

def asObject : Value → Option (List (String × Value))
  | obj fields => some fields
  | _ => none

end Value

/-! ## Reading and writing -/

mutual

/-- Reads a value with at most `depth - 1` arrays and objects inside one another. -/
def Raw.read : Raw → Nat → Option Value
  | .null, _ => some .null
  | .bool b, _ => some (.bool b)
  | .num n, _ => n.map .num
  | .str s, _ => s.map .str
  | .arr items, depth => if depth < 2 then none else (readItems items (depth - 1)).map .arr
  | .obj fields, depth => if depth < 2 then none else (readFields fields [] (depth - 1)).map .obj

def readItems : List Raw → Nat → Option (List Value)
  | [], _ => some []
  | r :: items, depth =>
    match r.read depth with
    | none => none
    | some v => (readItems items depth).map (v :: ·)

def readFields : List (Option String × Raw) → List (String × Value) → Nat →
    Option (List (String × Value))
  | [], acc, _ => some acc
  | (none, _) :: _, _, _ => none
  | (some key, r) :: fields, acc, depth =>
    match r.read depth with
    | none => none
    | some v => readFields fields (insertField key v acc) depth

end

mutual

def Value.toRaw : Value → Raw
  | .null => .null
  | .bool b => .bool b
  | .num n => .num (some n)
  | .str s => .str (some s)
  | .arr items => .arr (itemsToRaw items)
  | .obj fields => .obj (fieldsToRaw fields)

def itemsToRaw : List Value → List Raw
  | [] => []
  | v :: items => v.toRaw :: itemsToRaw items

def fieldsToRaw : List (String × Value) → List (Option String × Raw)
  | [] => []
  | (key, v) :: fields => (some key, v.toRaw) :: fieldsToRaw fields

end

mutual

/-- Within the nesting limit, and every object in the order of its field names. -/
def Value.Fits : Value → Nat → Prop
  | .arr items, depth => 2 ≤ depth ∧ ItemsFit items (depth - 1)
  | .obj fields, depth =>
    2 ≤ depth ∧ (fields.map Prod.fst).Pairwise (· < ·) ∧ FieldsFit fields (depth - 1)
  | _, _ => True

def ItemsFit : List Value → Nat → Prop
  | [], _ => True
  | v :: items, depth => v.Fits depth ∧ ItemsFit items depth

def FieldsFit : List (String × Value) → Nat → Prop
  | [], _ => True
  | (_, v) :: fields, depth => v.Fits depth ∧ FieldsFit fields depth

end

/-! ## Fields -/

theorem lookup_insertField_self (key : String) (value : Value) (fields : List (String × Value)) :
    (insertField key value fields).lookup key = some value := by
  induction fields with
  | nil => simp [insertField]
  | cons f fields ih =>
    simp only [insertField]
    split
    · simp
    · rename_i hne
      split
      · simp
      · rw [lookup_cons, beq_false_of_ne hne]
        exact ih

variable {key : String} {value v : Value} {fields : List (String × Value)} {depth : Nat}

theorem mem_of_mem_insertField {f : String × Value} (h : f ∈ insertField key value fields) :
    f = (key, value) ∨ f ∈ fields := by
  induction fields with
  | nil => exact Or.inl (by simpa [insertField] using h)
  | cons g fields ih =>
    simp only [insertField] at h
    split at h
    · rcases mem_cons.mp h with h | h
      · exact Or.inl h
      · exact Or.inr (mem_cons_of_mem _ h)
    · split at h
      · exact mem_cons.mp h
      · rcases mem_cons.mp h with rfl | h
        · exact Or.inr mem_cons_self
        · exact (ih h).imp_right (mem_cons_of_mem _)

theorem insertField_sorted (h : (fields.map Prod.fst).Pairwise (· < ·)) :
    ((insertField key value fields).map Prod.fst).Pairwise (· < ·) := by
  induction fields with
  | nil => exact pairwise_singleton _ _
  | cons f fields ih =>
    rw [map_cons, pairwise_cons] at h
    simp only [insertField]
    split
    · rename_i he
      rw [map_cons, pairwise_cons, he]
      exact h
    · rename_i hne
      split
      · rename_i hlt
        refine pairwise_cons.mpr ⟨fun k hk => ?_, pairwise_cons.mpr h⟩
        rcases mem_cons.mp hk with rfl | hk
        · exact hlt
        · exact lt_trans hlt (h.1 k hk)
      · rename_i hnlt
        refine pairwise_cons.mpr ⟨fun k hk => ?_, ih h.2⟩
        obtain ⟨g, hg, rfl⟩ := mem_map.mp hk
        rcases mem_of_mem_insertField hg with rfl | hg
        · exact lt_of_le_of_ne (not_lt.mp hnlt) (Ne.symm hne)
        · exact h.1 _ (mem_map_of_mem hg)

theorem insertField_last (h : ∀ f ∈ fields, f.1 < key) :
    insertField key value fields = fields ++ [(key, value)] := by
  induction fields with
  | nil => rfl
  | cons f fields ih =>
    have hf := h f mem_cons_self
    simp only [insertField]
    rw [if_neg hf.ne', if_neg hf.asymm, ih fun g hg => h g (mem_cons_of_mem _ hg)]
    rfl

theorem fieldsFit_iff : FieldsFit fields depth ↔ ∀ f ∈ fields, f.2.Fits depth := by
  induction fields with
  | nil => simp [FieldsFit]
  | cons f fields ih => simp [FieldsFit, ih]

theorem fits_of_lookup (h : FieldsFit fields depth) (hv : fields.lookup key = some v) :
    v.Fits depth := by
  obtain ⟨l₁, l₂, rfl, -⟩ := lookup_eq_some_iff.mp hv
  exact fieldsFit_iff.mp h (key, v) (by simp)

theorem fieldsFit_insertField (h : FieldsFit fields depth) (hv : value.Fits depth) :
    FieldsFit (insertField key value fields) depth := by
  refine fieldsFit_iff.mpr fun f hf => ?_
  rcases mem_of_mem_insertField hf with rfl | hf
  · exact hv
  · exact fieldsFit_iff.mp h f hf

theorem fits_of_asObject (h : v.Fits depth) (hv : v.asObject = some fields) :
    (Value.obj fields).Fits depth := by
  cases v with
  | obj _ =>
    cases hv
    exact h
  | _ => cases hv

theorem fits_insertField (h : (Value.obj fields).Fits depth) (hv : value.Fits (depth - 1)) :
    (Value.obj (insertField key value fields)).Fits depth := by
  exact ⟨h.1, insertField_sorted h.2.1, fieldsFit_insertField h.2.2 hv⟩

theorem mem_fieldsToRaw (h : fields.lookup key = some v) :
    (some key, v.toRaw) ∈ fieldsToRaw fields := by
  induction fields with
  | nil => cases h
  | cons f fields ih =>
    obtain ⟨k, w⟩ := f
    by_cases hk : key = k
    · rw [lookup_cons, hk, beq_self_eq_true] at h
      cases h
      exact hk ▸ mem_cons_self
    · rw [lookup_cons, beq_false_of_ne hk] at h
      exact mem_cons_of_mem _ (ih h)

/-! ## Round trip -/

mutual

/-- **A value that fits is what its text reads as.** -/
theorem read_toRaw : ∀ (v : Value) {depth : Nat}, v.Fits depth → v.toRaw.read depth = some v
  | .null, _, _ => rfl
  | .bool _, _, _ => rfl
  | .num _, _, _ => rfl
  | .str _, _, _ => rfl
  | .arr items, depth, h => by
    simp only [Value.Fits] at h
    simp only [Value.toRaw, Raw.read]
    rw [if_neg (by omega), readItems_toRaw items h.2]
    rfl
  | .obj fields, depth, h => by
    simp only [Value.Fits] at h
    simp only [Value.toRaw, Raw.read]
    rw [if_neg (by omega), readFields_toRaw fields [] h.2.2 (by simpa using h.2.1)]
    rfl

theorem readItems_toRaw : ∀ (items : List Value) {depth : Nat}, ItemsFit items depth →
    readItems (itemsToRaw items) depth = some items
  | [], _, _ => rfl
  | v :: items, depth, h => by
    simp only [ItemsFit] at h
    simp only [itemsToRaw, readItems]
    rw [read_toRaw v h.1, readItems_toRaw items h.2]
    rfl

theorem readFields_toRaw : ∀ (fields acc : List (String × Value)) {depth : Nat},
    FieldsFit fields depth → ((acc ++ fields).map Prod.fst).Pairwise (· < ·) →
    readFields (fieldsToRaw fields) acc depth = some (acc ++ fields)
  | [], acc, _, _, _ => by simp [fieldsToRaw, readFields]
  | (key, v) :: fields, acc, depth, h, hs => by
    simp only [FieldsFit] at h
    simp only [fieldsToRaw, readFields]
    have hlast : ∀ f ∈ acc, f.1 < key := by
      intro f hf
      rw [map_append, pairwise_append] at hs
      exact hs.2.2 _ (mem_map_of_mem hf) _ (by simp)
    rw [read_toRaw v h.1]
    dsimp only
    rw [insertField_last hlast, readFields_toRaw fields _ h.2 (by simpa using hs)]
    simp

end

mutual

theorem fits_of_read : ∀ (r : Raw) {depth : Nat} {v : Value}, r.read depth = some v → v.Fits depth
  | .null, _, v, h => by
    cases h
    exact trivial
  | .bool b, _, v, h => by
    cases h
    exact trivial
  | .num n, _, v, h => by
    obtain ⟨m, -, rfl⟩ := Option.map_eq_some_iff.mp h
    exact trivial
  | .str s, _, v, h => by
    obtain ⟨m, -, rfl⟩ := Option.map_eq_some_iff.mp h
    exact trivial
  | .arr items, depth, v, h => by
    simp only [Raw.read] at h
    split at h
    · cases h
    · obtain ⟨values, hvalues, rfl⟩ := Option.map_eq_some_iff.mp h
      exact ⟨by omega, itemsFit_of_read items hvalues⟩
  | .obj fields, depth, v, h => by
    simp only [Raw.read] at h
    split at h
    · cases h
    · obtain ⟨values, hvalues, rfl⟩ := Option.map_eq_some_iff.mp h
      exact ⟨by omega, fieldsFit_of_read fields [] (by simp) trivial hvalues⟩

theorem itemsFit_of_read : ∀ (items : List Raw) {depth : Nat} {values : List Value},
    readItems items depth = some values → ItemsFit values depth
  | [], _, values, h => by
    cases h
    exact trivial
  | r :: items, depth, values, h => by
    simp only [readItems] at h
    split at h
    · cases h
    · rename_i v hv
      obtain ⟨rest, hrest, rfl⟩ := Option.map_eq_some_iff.mp h
      exact ⟨fits_of_read r hv, itemsFit_of_read items hrest⟩

theorem fieldsFit_of_read : ∀ (fields : List (Option String × Raw)) (acc : List (String × Value))
    {depth : Nat} {values : List (String × Value)}, (acc.map Prod.fst).Pairwise (· < ·) →
    FieldsFit acc depth → readFields fields acc depth = some values →
    (values.map Prod.fst).Pairwise (· < ·) ∧ FieldsFit values depth
  | [], acc, _, values, hs, hf, h => by
    cases h
    exact ⟨hs, hf⟩
  | (none, _) :: _, _, _, _, _, _, h => by cases h
  | (some key, r) :: fields, acc, depth, values, hs, hf, h => by
    simp only [readFields] at h
    split at h
    · cases h
    · rename_i v hv
      exact fieldsFit_of_read fields _ (insertField_sorted hs)
        (fieldsFit_insertField hf (fits_of_read r hv)) h

end

end Lib.Json
