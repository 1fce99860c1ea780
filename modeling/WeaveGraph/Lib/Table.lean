import Mathlib.Data.List.Nodup

/-!
# Keyed tables

A table with an integer primary key `pk` and one unique key `uk`, kept as the list of its
rows in primary key order.  Both keys are unique by construction, so a statement that would
break one of them has no result (`insert`, `update` return `none`).

* `insert`: `INSERT`, with the next free primary key;
* `upsert`: `INSERT ... ON CONFLICT(uk) DO UPDATE`, which always succeeds;
* `update`: `UPDATE ... WHERE pk = i`;
* `delete`: `DELETE ... WHERE p`.
-/

namespace Lib

open List

/-- Rows in primary key order, no two with the same unique key. -/
@[ext]
structure Table {ρ κ : Type} (pk : ρ → Nat) (uk : ρ → κ) where
  rows : List ρ
  ordered : rows.Pairwise fun a b => pk a < pk b
  unique : (rows.map uk).Nodup

namespace Table

variable {ρ κ : Type} {pk : ρ → Nat} {uk : ρ → κ}

/-! ## Operations -/

def empty : Table pk uk where
  rows := []
  ordered := List.Pairwise.nil
  unique := nodup_nil

/-- One more than the largest primary key in use; `1` for an empty table. -/
def nextId (t : Table pk uk) : Nat := (t.rows.map pk).foldr max 0 + 1

variable {r : ρ} {rest : List ρ} {t t' : Table pk uk} {f : ρ → ρ}

theorem pk_lt_nextId (t : Table pk uk) (hr : r ∈ t.rows) : pk r < t.nextId := by
  have h : ∀ l : List ρ, r ∈ l → pk r ≤ (l.map pk).foldr max 0 := by
    intro l
    induction l with
    | nil => intro hr; cases hr
    | cons a l ih =>
      intro hr
      rcases mem_cons.mp hr with rfl | hr
      · exact Nat.le_max_left _ _
      · exact Nat.le_trans (ih hr) (Nat.le_max_right _ _)
  exact Nat.lt_succ_of_le (h _ hr)

/-- The rows with one more row, under a fresh primary key and a free unique key. -/
def append (t : Table pk uk) (r : ρ) (hpk : pk r = t.nextId) (huk : uk r ∉ t.rows.map uk) :
    Table pk uk where
  rows := t.rows ++ [r]
  ordered := by
    refine pairwise_append.mpr ⟨t.ordered, pairwise_singleton _ _, ?_⟩
    intro a ha b hb
    rw [mem_singleton.mp hb, hpk]
    exact t.pk_lt_nextId ha
  unique := by
    rw [map_append, map_singleton]
    refine nodup_append.mpr ⟨t.unique, nodup_singleton _, ?_⟩
    intro a ha b hb
    rw [mem_singleton.mp hb]
    rintro rfl
    exact huk ha

/-- `DELETE ... WHERE p`. -/
def delete (t : Table pk uk) (p : ρ → Bool) : Table pk uk where
  rows := t.rows.filter fun r => !p r
  ordered := t.ordered.filter _
  unique := (List.Sublist.map uk filter_sublist).nodup t.unique

theorem pk_nodup (t : Table pk uk) : (t.rows.map pk).Nodup :=
  pairwise_map.mpr (t.ordered.imp fun h => Nat.ne_of_lt h)

theorem pk_inj (t : Table pk uk) {a b : ρ} (ha : a ∈ t.rows) (hb : b ∈ t.rows)
    (h : pk a = pk b) : a = b :=
  inj_on_of_nodup_map t.pk_nodup ha hb h

theorem uk_inj (t : Table pk uk) {a b : ρ} (ha : a ∈ t.rows) (hb : b ∈ t.rows)
    (h : uk a = uk b) : a = b :=
  inj_on_of_nodup_map t.unique ha hb h

theorem pk_ne_of_perm (t : Table pk uk) (h : t.rows.Perm (r :: rest)) {x : ρ} (hx : x ∈ rest) :
    pk x ≠ pk r := by
  have hn := (h.map pk).nodup_iff.mp t.pk_nodup
  rw [map_cons, nodup_cons] at hn
  exact fun he => hn.1 (he ▸ mem_map_of_mem hx)

theorem map_update_perm (t : Table pk uk) (h : t.rows.Perm (r :: rest)) (f : ρ → ρ) :
    (t.rows.map fun x => if pk x = pk r then f x else x).Perm (f r :: rest) := by
  refine (h.map _).trans (List.Perm.of_eq ?_)
  rw [map_cons, if_pos rfl]
  congr 1
  exact (map_congr_left fun x hx => if_neg (t.pk_ne_of_perm h hx)).trans (map_id rest)

variable [DecidableEq κ]

/-- `INSERT`: `none` is the unique key violation. -/
def insert (t : Table pk uk) (mk : Nat → ρ) (hmk : ∀ n, pk (mk n) = n) : Option (Table pk uk) :=
  if h : uk (mk t.nextId) ∉ t.rows.map uk then some (t.append (mk t.nextId) (hmk _) h) else none

/-- `UPDATE ... WHERE pk = i`: `none` is the unique key violation. -/
def update (t : Table pk uk) (i : Nat) (f : ρ → ρ) (hf : ∀ r, pk (f r) = pk r) :
    Option (Table pk uk) :=
  if h : ((t.rows.map fun r => if pk r = i then f r else r).map uk).Nodup then
    some {
      rows := t.rows.map fun r => if pk r = i then f r else r
      ordered := by
        refine pairwise_map.mpr (t.ordered.imp fun {a b} hab => ?_)
        have e : ∀ r, pk (if pk r = i then f r else r) = pk r := by
          intro r
          split
          · exact hf r
          · rfl
        rw [e, e]
        exact hab
      unique := h }
  else none

/-- The rows with `merge` applied to the row whose unique key is `k`. -/
def mergeAt (t : Table pk uk) (k : κ) (merge : ρ → ρ) (hpk : ∀ r, pk (merge r) = pk r)
    (huk : ∀ r, uk (merge r) = uk r) : Table pk uk where
  rows := t.rows.map fun r => if uk r = k then merge r else r
  ordered := by
    refine pairwise_map.mpr (t.ordered.imp fun {a b} hab => ?_)
    have e : ∀ r, pk (if uk r = k then merge r else r) = pk r := by
      intro r
      split
      · exact hpk r
      · rfl
    rw [e, e]
    exact hab
  unique := by
    rw [map_map]
    have e : (uk ∘ fun r => if uk r = k then merge r else r) = uk := by
      funext r
      simp only [Function.comp_apply]
      split
      · exact huk r
      · rfl
    rw [e]
    exact t.unique

/-- `INSERT ... ON CONFLICT(uk) DO UPDATE`. -/
def upsert (t : Table pk uk) (mk : Nat → ρ) (merge : ρ → ρ) (hmk : ∀ n, pk (mk n) = n)
    (hpk : ∀ r, pk (merge r) = pk r) (huk : ∀ r, uk (merge r) = uk r) : Table pk uk :=
  if h : uk (mk t.nextId) ∉ t.rows.map uk then t.append (mk t.nextId) (hmk _) h
  else t.mergeAt (uk (mk t.nextId)) merge hpk huk

/-- The row under the unique key `k`. -/
def get (t : Table pk uk) (k : κ) : Option ρ := t.rows.find? fun r => uk r = k

/-- The primary key `RETURNING id` reports for an `upsert` under the unique key `k`. -/
def upsertId (t : Table pk uk) (k : κ) : Nat :=
  match t.get k with
  | some r => pk r
  | none => t.nextId

/-! ## Lemmas -/

theorem get_eq_some {k : κ} : t.get k = some r ↔ r ∈ t.rows ∧ uk r = k := by
  constructor
  · intro h
    exact ⟨mem_of_find?_eq_some h, by simpa using find?_some h⟩
  · rintro ⟨hr, rfl⟩
    cases h : t.get (uk r) with
    | none =>
      have := find?_eq_none.mp h r hr
      simp at this
    | some r' =>
      have he : uk r' = uk r := by simpa using find?_some h
      rw [t.uk_inj (mem_of_find?_eq_some h) hr he]

theorem get_eq_none {k : κ} : t.get k = none ↔ k ∉ t.rows.map uk := by
  unfold get
  simp

theorem insert_eq_some {mk : Nat → ρ} {hmk : ∀ n, pk (mk n) = n} : t.insert mk hmk = some t' ↔
      uk (mk t.nextId) ∉ t.rows.map uk ∧ t'.rows = t.rows ++ [mk t.nextId] := by
  unfold insert
  split
  · rename_i h
    rw [Option.some.injEq]
    constructor
    · rintro rfl
      exact ⟨h, rfl⟩
    · rintro ⟨-, h'⟩
      exact Table.ext h'.symm
  · rename_i h
    simp only [reduceCtorEq, h, false_and]

theorem insert_eq_none {mk : Nat → ρ} {hmk : ∀ n, pk (mk n) = n} :
    t.insert mk hmk = none ↔ uk (mk t.nextId) ∈ t.rows.map uk := by
  unfold insert
  split
  · rename_i h
    simp only [reduceCtorEq, h]
  · rename_i h
    simp only [not_not.mp h]

theorem update_eq_some {i : Nat} {hf : ∀ r, pk (f r) = pk r} : t.update i f hf = some t' ↔
      ((t.rows.map fun r => if pk r = i then f r else r).map uk).Nodup ∧
        t'.rows = t.rows.map fun r => if pk r = i then f r else r := by
  unfold update
  split
  · rename_i h
    rw [Option.some.injEq]
    constructor
    · rintro rfl
      exact ⟨h, rfl⟩
    · rintro ⟨-, h'⟩
      exact Table.ext h'.symm
  · rename_i h
    simp only [reduceCtorEq, h, false_and]

theorem update_of_perm (h : t.rows.Perm (r :: rest)) {hf : ∀ r, pk (f r) = pk r}
    (hu : t.update (pk r) f hf = some t') :
    uk (f r) ∉ rest.map uk ∧ t'.rows.Perm (f r :: rest) := by
  obtain ⟨hn, hrows⟩ := update_eq_some.mp hu
  have hp := t.map_update_perm h f
  rw [(hp.map uk).nodup_iff, map_cons, nodup_cons] at hn
  exact ⟨hn.1, hrows ▸ hp⟩

theorem exists_update_of_perm (h : t.rows.Perm (r :: rest)) (hf : ∀ r, pk (f r) = pk r)
    (hn : uk (f r) ∉ rest.map uk) : ∃ t', t.update (pk r) f hf = some t' := by
  have hp := t.map_update_perm h f
  have hnd := (h.map uk).nodup_iff.mp t.unique
  rw [map_cons, nodup_cons] at hnd
  have hnodup : ((t.rows.map fun x => if pk x = pk r then f x else x).map uk).Nodup := by
    rw [(hp.map uk).nodup_iff, map_cons, nodup_cons]
    exact ⟨hn, hnd.2⟩
  unfold update
  rw [dif_pos hnodup]
  exact ⟨_, rfl⟩

section upsert

variable (t : Table pk uk) (mk : Nat → ρ) (merge : ρ → ρ) (hmk : ∀ n, pk (mk n) = n)
  (hpk : ∀ r, pk (merge r) = pk r) (huk : ∀ r, uk (merge r) = uk r)

theorem upsert_fresh (h : uk (mk t.nextId) ∉ t.rows.map uk) :
    (t.upsert mk merge hmk hpk huk).rows = t.rows ++ [mk t.nextId] := by
  unfold upsert
  rw [dif_pos h]
  rfl

theorem upsert_conflict (h : uk (mk t.nextId) ∈ t.rows.map uk) :
    (t.upsert mk merge hmk hpk huk).rows =
      t.rows.map fun r => if uk r = uk (mk t.nextId) then merge r else r := by
  unfold upsert
  rw [dif_neg (not_not.mpr h)]
  rfl

/-- A row after an `upsert`: an old row under another key, the merged row, or the new one. -/
theorem mem_upsert {r : ρ} :
    r ∈ (t.upsert mk merge hmk hpk huk).rows ↔
      (r ∈ t.rows ∧ uk r ≠ uk (mk t.nextId)) ∨
      (∃ r0 ∈ t.rows, uk r0 = uk (mk t.nextId) ∧ r = merge r0) ∨
      (uk (mk t.nextId) ∉ t.rows.map uk ∧ r = mk t.nextId) := by
  by_cases h : uk (mk t.nextId) ∈ t.rows.map uk
  · rw [upsert_conflict t mk merge hmk hpk huk h, mem_map]
    constructor
    · rintro ⟨r0, hr0, rfl⟩
      split
      · rename_i he
        exact Or.inr (Or.inl ⟨r0, hr0, he, rfl⟩)
      · rename_i he
        exact Or.inl ⟨hr0, he⟩
    · rintro (⟨hr, hne⟩ | ⟨r0, hr0, he, rfl⟩ | ⟨hn, -⟩)
      · exact ⟨r, hr, if_neg hne⟩
      · exact ⟨r0, hr0, if_pos he⟩
      · exact absurd h hn
  · rw [upsert_fresh t mk merge hmk hpk huk h, mem_append, mem_singleton]
    constructor
    · rintro (hr | rfl)
      · exact Or.inl ⟨hr, fun he => h (he ▸ mem_map_of_mem hr)⟩
      · exact Or.inr (Or.inr ⟨h, rfl⟩)
    · rintro (⟨hr, -⟩ | ⟨r0, hr0, he, -⟩ | ⟨-, rfl⟩)
      · exact Or.inl hr
      · exact absurd (he ▸ mem_map_of_mem hr0) h
      · exact Or.inr rfl

theorem get_upsert (k : κ) : (t.upsert mk merge hmk hpk huk).get k =
    if uk (mk t.nextId) = k then some ((t.get k).elim (mk t.nextId) merge) else t.get k := by
  split
  · rename_i hk
    rw [get_eq_some, mem_upsert]
    cases h : t.get k with
    | none => exact ⟨Or.inr (Or.inr ⟨hk ▸ get_eq_none.mp h, rfl⟩), hk⟩
    | some r =>
      obtain ⟨hr, hrk⟩ := get_eq_some.mp h
      exact ⟨Or.inr (Or.inl ⟨r, hr, hrk.trans hk.symm, rfl⟩), (huk r).trans hrk⟩
  · rename_i hk
    ext r
    rw [get_eq_some, get_eq_some, mem_upsert]
    constructor
    · rintro ⟨⟨hr, -⟩ | ⟨r0, -, he, rfl⟩ | ⟨-, rfl⟩, hrk⟩
      · exact ⟨hr, hrk⟩
      · exact absurd (he.symm.trans ((huk r0).symm.trans hrk)) hk
      · exact absurd hrk hk
    · rintro ⟨hr, hrk⟩
      exact ⟨Or.inl ⟨hr, fun he => hk (he.symm.trans hrk)⟩, hrk⟩

theorem uk_mem_upsert {k : κ} : k ∈ (t.upsert mk merge hmk hpk huk).rows.map uk ↔
    k ∈ t.rows.map uk ∨ k = uk (mk t.nextId) := by
  have h := get_upsert t mk merge hmk hpk huk k
  rw [← not_iff_not, ← get_eq_none, h, not_or, ← get_eq_none]
  split
  · rename_i hk
    simp [hk]
  · rename_i hk
    simp [Ne.symm hk]

end upsert

end Table

end Lib
