import Mathlib.Data.List.Dedup
import Mathlib.Data.List.Induction

/-!
# Interned names and maps filled by insertion

An `Interner` numbers the distinct values it is shown in the order it first sees them; the
number of a value never changes afterwards.  `lookupLast` reads a map that was filled by a
sequence of insertions, so the last insertion under a key is the one that counts.

A `FinMap` is such a map with its entries in some order.  Of a sequence of insertions the
`survivors` are the entries of the map it fills (`mem_extend`).
-/

namespace Lib

open List

theorem position_eq_some {α : Type} [DecidableEq α] {l : List α} (hl : l.Nodup) {a : α} {i : Nat} :
    (if a ∈ l then some (l.idxOf a) else none) = some i ↔ l[i]? = some a := by
  constructor
  · intro h
    split at h
    · rename_i ha
      cases h
      rw [getElem?_eq_getElem (idxOf_lt_length_of_mem ha), getElem_idxOf]
    · cases h
  · intro h
    obtain ⟨hi, rfl⟩ := List.getElem?_eq_some_iff.mp h
    rw [if_pos (getElem_mem hi), hl.idxOf_getElem i hi]

/-- Distinct values, numbered by their position. -/
structure Interner (α : Type) where
  names : List α
  nodup : names.Nodup

namespace Interner

variable {α : Type}

def empty : Interner α := ⟨[], nodup_nil⟩

def resolve (t : Interner α) (i : Nat) : Option α := t.names[i]?

variable [DecidableEq α]

def getId (t : Interner α) (a : α) : Option Nat :=
  if a ∈ t.names then some (t.names.idxOf a) else none

/-- The number of `a`, and the interner that knows it. -/
def intern (t : Interner α) (a : α) : Nat × Interner α :=
  if h : a ∈ t.names then (t.names.idxOf a, t)
  else (t.names.length, ⟨t.names ++ [a], nodup_append.mpr ⟨t.nodup, nodup_singleton a, by
      intro x hx y hy he
      exact h (mem_singleton.mp hy ▸ he ▸ hx)⟩⟩)

variable {t : Interner α} {a : α} {i : Nat}

theorem getId_eq_some : t.getId a = some i ↔ t.resolve i = some a := by
  exact position_eq_some t.nodup

theorem isSome_getId (t : Interner α) (a : α) : (t.getId a).isSome ↔ a ∈ t.names := by
  unfold getId
  split <;> simp [*]

theorem getId_intern_self (t : Interner α) (a : α) :
    (t.intern a).2.getId a = some (t.intern a).1 := by
  unfold intern
  split
  · rename_i h
    exact if_pos h
  · rename_i h
    simp [getId, idxOf_append, h]

theorem resolve_intern (a : α) {b : α} (h : t.resolve i = some b) :
    (t.intern a).2.resolve i = some b := by
  unfold intern
  split
  · exact h
  · obtain ⟨hi, -⟩ := List.getElem?_eq_some_iff.mp h
    exact (getElem?_append_left hi).trans h

theorem mem_names_intern (t : Interner α) (a b : α) :
    b ∈ (t.intern a).2.names ↔ b ∈ t.names ∨ b = a := by
  unfold intern
  split
  · rename_i h
    exact ⟨.inl, fun hb => hb.elim id fun he => he ▸ h⟩
  · simp

theorem names_prefix_intern (t : Interner α) (a : α) : t.names <+: (t.intern a).2.names := by
  unfold intern
  split
  · exact prefix_rfl
  · exact prefix_append _ _

/-- The numbers of a sequence of values, and the interner that knows them all. -/
def internAll (t : Interner α) : List α → List Nat × Interner α
  | [] => ([], t)
  | a :: l => ((t.intern a).1 :: ((t.intern a).2.internAll l).1, ((t.intern a).2.internAll l).2)

theorem mem_names_internAll (t : Interner α) (l : List α) (b : α) :
    b ∈ (t.internAll l).2.names ↔ b ∈ t.names ∨ b ∈ l := by
  induction l generalizing t with
  | nil => simp [internAll]
  | cons a l ih => simp only [internAll, ih, mem_names_intern, mem_cons, or_assoc]

theorem names_prefix_internAll (t : Interner α) (l : List α) :
    t.names <+: (t.internAll l).2.names := by
  induction l generalizing t with
  | nil => exact prefix_rfl
  | cons a l ih => exact (names_prefix_intern t a).trans (ih _)

theorem getId_internAll (l : List α) (h : t.getId a = some i) :
    (t.internAll l).2.getId a = some i := by
  induction l generalizing t with
  | nil => exact h
  | cons b l ih => exact ih (getId_eq_some.mpr (resolve_intern b (getId_eq_some.mp h)))

theorem internAll_ids (t : Interner α) (l : List α) :
    (t.internAll l).1.map some = l.map (t.internAll l).2.getId := by
  induction l generalizing t with
  | nil => rfl
  | cons a l ih =>
    rw [internAll, map_cons, map_cons, ih]
    exact congrArg (· :: _) (getId_internAll l (getId_intern_self t a)).symm

theorem internAll_empty_perm (l : List α) :
    ((empty : Interner α).internAll l).2.names.Perm l.dedup := by
  refine (perm_ext_iff_of_nodup (nodup _) (nodup_dedup l)).mpr fun a => ?_
  rw [mem_names_internAll, List.mem_dedup]
  exact or_iff_right not_mem_nil

theorem internAll_fresh (t : Interner α) {l : List α} {k : Nat} (hk : l[k]? = some a)
    (ht : a ∉ t.names) (hfresh : a ∉ l.take k) :
    (t.internAll l).1[k]? = some (t.internAll (l.take k)).2.names.length := by
  induction l generalizing t k with
  | nil => simp at hk
  | cons b l ih =>
    cases k with
    | zero =>
      obtain rfl : b = a := by simpa using hk
      simp [internAll, intern, ht]
    | succ k =>
      simp only [take_succ_cons, mem_cons, not_or] at hfresh
      refine ih (t.intern b).2 hk ?_ hfresh.2
      rw [mem_names_intern]
      exact not_or.mpr ⟨ht, hfresh.1⟩

end Interner

/-- The values inserted under a key, in order. -/
def bucket {κ ν : Type} [DecidableEq κ] (k : κ) (l : List (κ × ν)) : List ν :=
  (l.filter fun p => p.1 = k).map Prod.snd

/-- The value last inserted under a key. -/
def lookupLast {κ ν : Type} [DecidableEq κ] (k : κ) (l : List (κ × ν)) : Option ν :=
  (bucket k l).getLast?

section maps

variable {κ ν : Type} [DecidableEq κ]

variable {k : κ} {v : ν} {l : List (κ × ν)}

@[simp] theorem mem_bucket : v ∈ bucket k l ↔ (k, v) ∈ l := by
  simp [bucket]

theorem mem_of_lookupLast (h : lookupLast k l = some v) : (k, v) ∈ l :=
  mem_bucket.mp (mem_of_getLast? h)

theorem lookupLast_eq_none_iff : lookupLast k l = none ↔ ∀ v, (k, v) ∉ l := by
  rw [lookupLast, getLast?_eq_none_iff, eq_nil_iff_forall_not_mem]
  exact forall_congr' fun v => not_congr mem_bucket

theorem lookupLast_append_singleton (k : κ) (l : List (κ × ν)) (p : κ × ν) :
    lookupLast k (l ++ [p]) = if p.1 = k then some p.2 else lookupLast k l := by
  unfold lookupLast bucket
  rw [filter_append, map_append]
  split
  · rename_i h
    rw [filter_cons_of_pos (by simp [h])]
    simp
  · rename_i h
    rw [filter_cons_of_neg (by simp [h])]
    simp

theorem lookupLast_eq_some_iff (h : ∀ v v', (k, v) ∈ l → (k, v') ∈ l → v = v') :
    lookupLast k l = some v ↔ (k, v) ∈ l := by
  refine ⟨mem_of_lookupLast, fun hv => ?_⟩
  cases hl : lookupLast k l with
  | none => exact absurd hv (lookupLast_eq_none_iff.mp hl v)
  | some v' => rw [h v' v (mem_of_lookupLast hl) hv]

theorem lookupLast_of_distinct (h : (l.map Prod.fst).Nodup) :
    lookupLast k l = some v ↔ (k, v) ∈ l := by
  refine lookupLast_eq_some_iff fun v v' hv hv' => ?_
  exact congrArg Prod.snd (inj_on_of_nodup_map h hv hv' rfl)

theorem lookupLast_cons_of_ne {k' : κ} (h : k' ≠ k) (v : ν) (l : List (κ × ν)) :
    lookupLast k ((k', v) :: l) = lookupLast k l := by
  unfold lookupLast bucket
  rw [filter_cons_of_neg (by simpa using h)]

/-- A map keyed by numbers of an interner is the map keyed by what they stand for. -/
theorem bucket_getId {α ν₁ ν₂ μ : Type} [DecidableEq α] (t : Interner α) {l : List (Nat × ν₁)}
    {l' : List (α × ν₂)} {g : ν₁ → μ} {f : ν₂ → μ}
    (h : (l.map fun p => (t.resolve p.1, g p.2)) = l'.map fun p => (some p.1, f p.2)) (a : α) :
    ((t.getId a).elim [] fun i => bucket i l).map g = (bucket a l').map f := by
  have hl : ((l.map fun p => (t.resolve p.1, g p.2)).filter fun p => p.1 = some a).map Prod.snd =
      ((t.getId a).elim [] fun i => bucket i l).map g := by
    rw [filter_map, map_map]
    cases hi : t.getId a with
    | none =>
      have : ∀ p ∈ l, t.resolve p.1 ≠ some a := fun p _ hp => by
        rw [Interner.getId_eq_some.mpr hp] at hi
        cases hi
      simpa [Function.comp_def] using this
    | some i =>
      have hf : ∀ p : Nat × ν₁, t.resolve p.1 = some a ↔ p.1 = i := fun p => by
        rw [← Interner.getId_eq_some, hi, Option.some.injEq, eq_comm]
      simp [bucket, Function.comp_def, hf]
  rw [← hl, h, filter_map, map_map]
  simp [bucket, Function.comp_def]

theorem lookupLast_getId {α : Type} [DecidableEq α] (t : Interner α) {l : List (Nat × ν)}
    {l' : List (α × ν)}
    (h : (l.map fun p => (t.resolve p.1, p.2)) = l'.map fun p => (some p.1, p.2)) (a : α) :
    ((t.getId a).bind fun i => lookupLast i l) = lookupLast a l' := by
  have hb := bucket_getId t (g := id) (f := id) h a
  rw [map_id, map_id] at hb
  rw [lookupLast, ← hb]
  cases t.getId a with
  | none => rfl
  | some i => rfl

end maps

/-! ## Finite maps -/

/-- Entries with distinct keys, in some order. -/
structure FinMap (κ ν : Type) where
  entries : List (κ × ν)
  distinct : (entries.map Prod.fst).Nodup

namespace FinMap

variable {κ ν : Type}

def empty : FinMap κ ν := ⟨[], nodup_nil⟩

variable [DecidableEq κ]

def get (m : FinMap κ ν) (k : κ) : Option ν := lookupLast k m.entries

def insert (m : FinMap κ ν) (k : κ) (v : ν) : FinMap κ ν where
  entries := m.entries.filter (fun p => p.1 ≠ k) ++ [(k, v)]
  distinct := by
    rw [map_append, nodup_append]
    refine ⟨(List.Sublist.map Prod.fst filter_sublist).nodup m.distinct,
      nodup_singleton k, fun a ha b hb => ?_⟩
    obtain ⟨p, hp, rfl⟩ := mem_map.mp ha
    rw [mem_singleton.mp hb]
    simpa using (mem_filter.mp hp).2

/-- The map after a sequence of insertions. -/
def extend (m : FinMap κ ν) (l : List (κ × ν)) : FinMap κ ν :=
  l.foldl (fun m p => m.insert p.1 p.2) m

def ofList (l : List (κ × ν)) : FinMap κ ν := empty.extend l

variable {m : FinMap κ ν}

theorem mem_insert {k : κ} {v : ν} {p : κ × ν} :
    p ∈ (m.insert k v).entries ↔ p = (k, v) ∨ (p ∈ m.entries ∧ p.1 ≠ k) := by
  simp [insert, or_comm]

theorem get_eq_some {k : κ} {v : ν} : m.get k = some v ↔ (k, v) ∈ m.entries :=
  lookupLast_of_distinct m.distinct

@[simp] theorem get_empty (k : κ) : (empty : FinMap κ ν).get k = none := rfl

theorem get_insert (m : FinMap κ ν) (k k' : κ) (v : ν) :
    (m.insert k v).get k' = if k = k' then some v else m.get k' := by
  refine Option.ext fun w => ?_
  rw [get_eq_some, mem_insert]
  by_cases hk : k = k'
  · simp [hk, eq_comm]
  · have hk' : k' ≠ k := fun h => hk h.symm
    rw [if_neg hk, get_eq_some]
    simp [hk']

/-- `*m.entry(k).or_insert(0) += x`. -/
def addAt [Zero ν] [Add ν] (m : FinMap κ ν) (k : κ) (x : ν) : FinMap κ ν :=
  m.insert k ((m.get k).getD 0 + x)

/-- `m.entry(k).or_default().push(x)`. -/
def pushAt (m : FinMap κ (List ν)) (k : κ) (x : ν) : FinMap κ (List ν) :=
  m.insert k ((m.get k).getD [] ++ [x])

end FinMap

/-- The order in which a hash map is read. -/
structure Shuffle (α : Type) where
  read : List α → List α
  perm : ∀ l, (read l).Perm l

/-- Entries in the order they were inserted. -/
def Shuffle.insertion (α : Type) : Shuffle α := ⟨id, List.Perm.refl⟩

/-- One entry after all others. -/
def Shuffle.back {α : Type} [DecidableEq α] (a : α) : Shuffle α where
  read l := l.filter (¬ · = a) ++ l.filter (· = a)
  perm l := perm_append_comm.trans (by simpa using filter_append_perm (· = a) l)

section survivors

variable {κ ν : Type} [DecidableEq κ]

/-- The insertions no later insertion replaces. -/
def survivors : List (κ × ν) → List (κ × ν)
  | [] => []
  | p :: l => if p.1 ∈ l.map Prod.fst then survivors l else p :: survivors l

theorem survivors_sublist (l : List (κ × ν)) : (survivors l).Sublist l := by
  induction l with
  | nil => exact .slnil
  | cons p l ih =>
    unfold survivors
    split
    · exact ih.cons p
    · exact ih.cons_cons p

theorem survivors_map {μ : Type} (f : ν → μ) (l : List (κ × ν)) :
    survivors (l.map fun p => (p.1, f p.2)) = (survivors l).map fun p => (p.1, f p.2) := by
  induction l with
  | nil => rfl
  | cons p l ih =>
    have hkeys : (l.map fun p => (p.1, f p.2)).map Prod.fst = l.map Prod.fst := by
      rw [map_map]
      rfl
    rw [map_cons, survivors, survivors, hkeys, ih]
    split <;> rfl

variable {l : List (κ × ν)} {p : κ × ν}

theorem mem_of_mem_survivors (h : p ∈ survivors l) : p ∈ l := (survivors_sublist l).mem h

theorem survivors_keys {k : κ} : k ∈ (survivors l).map Prod.fst ↔ k ∈ l.map Prod.fst := by
  induction l with
  | nil => rfl
  | cons p l ih =>
    unfold survivors
    split
    · rename_i hp
      rw [ih, map_cons, mem_cons]
      exact ⟨Or.inr, fun h => h.elim (fun h => h ▸ hp) id⟩
    · rw [map_cons, mem_cons, ih, map_cons, mem_cons]

theorem survivors_of_distinct (h : (l.map Prod.fst).Nodup) : survivors l = l := by
  induction l with
  | nil => rfl
  | cons p l ih =>
    rw [map_cons, nodup_cons] at h
    rw [survivors, if_neg h.1, ih h.2]

theorem mem_survivors_append {l' : List (κ × ν)} : p ∈ survivors (l ++ l') ↔
      p ∈ survivors l' ∨ (p ∈ survivors l ∧ p.1 ∉ l'.map Prod.fst) := by
  induction l with
  | nil => simp [survivors]
  | cons q l ih =>
    simp only [cons_append, survivors, map_append, mem_append]
    by_cases hq : q.1 ∈ l.map Prod.fst
    · simp only [hq, true_or, if_true, ih]
    · by_cases hq' : q.1 ∈ l'.map Prod.fst
      · simp only [hq, hq', or_true, if_true, if_false, ih, mem_cons]
        constructor
        · rintro (h | ⟨h, hn⟩)
          · exact Or.inl h
          · exact Or.inr ⟨Or.inr h, hn⟩
        · rintro (h | ⟨rfl | h, hn⟩)
          · exact Or.inl h
          · exact absurd hq' hn
          · exact Or.inr ⟨h, hn⟩
      · simp only [hq, hq', or_self, if_false, mem_cons, ih]
        constructor
        · rintro (rfl | h | ⟨h, hn⟩)
          · exact Or.inr ⟨Or.inl rfl, hq'⟩
          · exact Or.inl h
          · exact Or.inr ⟨Or.inr h, hn⟩
        · rintro (h | ⟨rfl | h, hn⟩)
          · exact Or.inr (Or.inl h)
          · exact Or.inl rfl
          · exact Or.inr (Or.inr ⟨h, hn⟩)

theorem FinMap.mem_extend (l : List (κ × ν)) : ∀ {m : FinMap κ ν} {p : κ × ν},
    p ∈ (m.extend l).entries ↔ p ∈ survivors l ∨ (p ∈ m.entries ∧ p.1 ∉ l.map Prod.fst) := by
  induction l with
  | nil => intro m p; simp [extend, survivors]
  | cons q l ih =>
    intro m p
    show p ∈ ((m.insert q.1 q.2).extend l).entries ↔ _
    rw [ih, mem_insert, survivors, map_cons, mem_cons, not_or]
    by_cases hq : q.1 ∈ l.map Prod.fst
    · rw [if_pos hq]
      constructor
      · rintro (h | ⟨rfl | h, hn⟩)
        · exact Or.inl h
        · exact absurd hq hn
        · exact Or.inr ⟨h.1, h.2, hn⟩
      · rintro (h | ⟨h, hne, hn⟩)
        · exact Or.inl h
        · exact Or.inr ⟨Or.inr ⟨h, hne⟩, hn⟩
    · rw [if_neg hq, mem_cons]
      constructor
      · rintro (h | ⟨rfl | h, hn⟩)
        · exact Or.inl (Or.inr h)
        · exact Or.inl (Or.inl rfl)
        · exact Or.inr ⟨h.1, h.2, hn⟩
      · rintro ((rfl | h) | ⟨h, hne, hn⟩)
        · exact Or.inr ⟨Or.inl rfl, hq⟩
        · exact Or.inl h
        · exact Or.inr ⟨Or.inr ⟨h, hne⟩, hn⟩

theorem FinMap.mem_ofList : p ∈ (ofList l).entries ↔ p ∈ survivors l := by
  unfold ofList
  rw [mem_extend]
  simp [empty]

end survivors

end Lib
