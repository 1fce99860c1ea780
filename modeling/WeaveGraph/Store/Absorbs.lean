import WeaveGraph.Store.Rows

/-!
# When the rows of a file take in its new declarations

`insert_fresh_nodes` leaves one row for each symbol and line, with what was declared last under it.
`upsert_nodes` over older rows of the file leaves the same rows exactly when, declaration by
declaration, no other row stands on its symbol and line, and no row of another new declaration is
taken over for good (`Absorbs`, `absorbs_iff`).
-/

namespace WeaveGraph.SqliteStorage

open List

/-- The declaration that counts under a symbol and line: the last one. -/
def lastUnder (batch : List NodeData) (k : String × String × String × Nat) : Option NodeData :=
  (batch.filter fun d => d.naturalKey = k).getLast?

/-- In the order of the batch: no row stands on the symbol and line of a declaration, except the
one it takes over; and where that is the row of an earlier declaration, the symbol and line of that
one are declared again.  `P` is asked of the rows in the end. -/
def Absorbs (P : List NodeData → Prop) : List (NodeData × Bool) → List NodeData → Prop
  | rows, [] => P (kept rows)
  | rows, d :: batch =>
    FreeFor rows d ∧
    (∀ x ∈ rows, x.2 = true → takesOver (rows.map Prod.fst) d = some x.1 →
      x.1.naturalKey ∈ (d :: batch).map NodeData.naturalKey) ∧
    Absorbs P (writtenOver rows d) batch

instance decidableAbsorbs (P : List NodeData → Prop) [DecidablePred P] :
    ∀ rows batch, Decidable (Absorbs P rows batch)
  | rows, [] => inferInstanceAs (Decidable (P (kept rows)))
  | rows, d :: batch =>
    have := decidableAbsorbs P (writtenOver rows d) batch
    inferInstanceAs (Decidable (FreeFor rows d ∧ (∀ x ∈ rows, x.2 = true →
      takesOver (rows.map Prod.fst) d = some x.1 →
        x.1.naturalKey ∈ (d :: batch).map NodeData.naturalKey) ∧ _))

variable {rows : List (NodeData × Bool)} {d m : NodeData} {batch done : List NodeData}
  {k : String × String × String × Nat}

theorem mem_kept : m ∈ kept rows ↔ (m, true) ∈ rows := by
  simp [kept]

theorem lastUnder_concat_self : lastUnder (done ++ [d]) d.naturalKey = some d := by
  simp [lastUnder, filter_append]

theorem lastUnder_concat_of_ne (h : d.naturalKey ≠ k) :
    lastUnder (done ++ [d]) k = lastUnder done k := by
  simp [lastUnder, filter_append, h]

theorem mem_record_iff : m ∈ batch.foldl record [] ↔ lastUnder batch m.naturalKey = some m := by
  refine ⟨last_of_mem_record, fun h => ?_⟩
  induction batch using List.reverseRecOn with
  | nil => cases h
  | append_singleton batch d ih =>
    rw [foldl_append, foldl_cons, foldl_nil, record]
    by_cases hk : d.naturalKey = m.naturalKey
    · rw [← hk, lastUnder_concat_self] at h
      obtain rfl := Option.some.inj h
      split
      · rename_i hmem
        obtain ⟨r, hr, hrk⟩ := mem_map.mp hmem
        exact mem_map.mpr ⟨r, hr, if_pos hrk⟩
      · exact mem_append_right _ (mem_singleton_self _)
    · rw [lastUnder_concat_of_ne hk] at h
      split
      · exact mem_map.mpr ⟨m, ih h, if_neg (Ne.symm hk)⟩
      · exact mem_append_left _ (ih h)

/-- The rows after the declarations `done`: they stand on different symbols and lines, and each row
of a declaration is the last one under its own. -/
structure Written (done : List NodeData) (rows : List (NodeData × Bool)) : Prop where
  distinct : ∀ x ∈ rows, ∀ y ∈ rows, x.1.naturalKey = y.1.naturalKey → x = y
  last : ∀ x ∈ rows, x.2 = true → lastUnder done x.1.naturalKey = some x.1

/-- Every declaration that is not made again still has its row. -/
def Survives (done : List NodeData) (rows : List (NodeData × Bool)) (batch : List NodeData) : Prop :=
  ∀ m, lastUnder done m.naturalKey = some m →
    m.naturalKey ∉ batch.map NodeData.naturalKey → (m, true) ∈ rows

theorem mem_writtenOver (hw : Written done rows) {x : NodeData × Bool} :
    x ∈ writtenOver rows d ↔ x = (d, true) ∨
      (x ∈ rows ∧ takesOver (rows.map Prod.fst) d ≠ some x.1) := by
  unfold writtenOver
  cases ht : takesOver (rows.map Prod.fst) d with
  | none => simp [or_comm]
  | some r =>
    obtain ⟨y, hy, rfl⟩ := mem_map.mp (mem_of_takesOver ht).1
    simp only [mem_map, ne_eq, Option.some.injEq]
    constructor
    · rintro ⟨z, hz, rfl⟩
      split
      · exact Or.inl rfl
      · rename_i hk
        exact Or.inr ⟨hz, fun he => hk (he ▸ rfl)⟩
    · rintro (rfl | ⟨hx, hne⟩)
      · exact ⟨y, hy, if_pos rfl⟩
      · exact ⟨x, hx, if_neg fun hk => hne (congrArg Prod.fst (hw.distinct x hx y hy hk)).symm⟩

theorem Written.step (hw : Written done rows) (hfree : FreeFor rows d) :
    Written (done ++ [d]) (writtenOver rows d) := by
  -- the rows that stay are not on the symbol and line of `d`
  have hother : ∀ x ∈ rows, takesOver (rows.map Prod.fst) d ≠ some x.1 →
      d.naturalKey ≠ x.1.naturalKey := fun x hx hne hk => hne (hfree x hx hk.symm)
  constructor
  · intro x hx y hy hk
    rcases (mem_writtenOver hw).mp hx with rfl | ⟨hx, hxd⟩
    · rcases (mem_writtenOver hw).mp hy with rfl | ⟨hy, hyd⟩
      · rfl
      · exact absurd hk (hother y hy hyd)
    · rcases (mem_writtenOver hw).mp hy with rfl | ⟨hy, -⟩
      · exact absurd hk.symm (hother x hx hxd)
      · exact hw.distinct x hx y hy hk
  · intro x hx hmark
    rcases (mem_writtenOver hw).mp hx with rfl | ⟨hx, hxd⟩
    · exact lastUnder_concat_self
    · rw [lastUnder_concat_of_ne (hother x hx hxd)]
      exact hw.last x hx hmark

theorem survives_step (hw : Written done rows) :
    Survives (done ++ [d]) (writtenOver rows d) batch ↔ Survives done rows (d :: batch) ∧
      ∀ x ∈ rows, x.2 = true → takesOver (rows.map Prod.fst) d = some x.1 →
        x.1.naturalKey ∈ (d :: batch).map NodeData.naturalKey := by
  constructor
  · intro h
    have hstay : ∀ m, lastUnder done m.naturalKey = some m →
        m.naturalKey ∉ (d :: batch).map NodeData.naturalKey →
        (m, true) ∈ rows ∧ takesOver (rows.map Prod.fst) d ≠ some m := by
      intro m hm hk
      rw [map_cons, mem_cons, not_or] at hk
      have hmem := h m ((lastUnder_concat_of_ne (Ne.symm hk.1)).trans hm) hk.2
      rcases (mem_writtenOver hw).mp hmem with he | hmem
      · cases he
        exact absurd rfl hk.1
      · exact hmem
    refine ⟨fun m hm hk => (hstay m hm hk).1, fun x hx hmark htakes => ?_⟩
    by_contra hk
    exact (hstay x.1 (hw.last x hx hmark) hk).2 htakes
  · rintro ⟨h, hagain⟩ m hm hk
    refine (mem_writtenOver hw).mpr ?_
    by_cases hd : d.naturalKey = m.naturalKey
    · rw [← hd, lastUnder_concat_self] at hm
      exact Or.inl (by rw [← Option.some.inj hm])
    · rw [lastUnder_concat_of_ne hd] at hm
      have hk' : m.naturalKey ∉ (d :: batch).map NodeData.naturalKey := by
        rw [map_cons, mem_cons, not_or]
        exact ⟨Ne.symm hd, hk⟩
      have hmem := h m hm hk'
      exact Or.inr ⟨hmem, fun htakes => hk' (hagain (m, true) hmem rfl htakes)⟩

theorem absorbs_iff_of_written {P : List NodeData → Prop} : ∀ {rows : List (NodeData × Bool)}
    {done : List NodeData}, Written done rows →
    ((∃ out, batch.foldlM writeRow rows = some out ∧
        (∀ m, m ∈ kept out ↔ lastUnder (done ++ batch) m.naturalKey = some m) ∧ P (kept out)) ↔
      Survives done rows batch ∧ Absorbs P rows batch) := by
  induction batch with
  | nil =>
    intro rows done hw
    rw [append_nil]
    constructor
    · rintro ⟨out, hout, hkept, hP⟩
      cases hout
      exact ⟨fun m hm _ => mem_kept.mp ((hkept m).mpr hm), hP⟩
    · rintro ⟨hsurvives, hP⟩
      refine ⟨rows, rfl, fun m => ⟨fun hm => ?_, fun hm => ?_⟩, hP⟩
      · exact hw.last _ (mem_kept.mp hm) rfl
      · exact mem_kept.mpr (hsurvives m hm (not_mem_nil))
  | cons d batch ih =>
    intro rows done hw
    have happ : done ++ d :: batch = done ++ [d] ++ batch := by simp
    constructor
    · rintro ⟨out, hout, hrest⟩
      obtain ⟨mid, hmid, hout⟩ := Option.bind_eq_some_iff.mp hout
      obtain ⟨hfree, rfl⟩ := writeRow_eq_some.mp hmid
      obtain ⟨hsurvives, habsorbs⟩ := (ih (hw.step hfree)).mp ⟨out, hout, happ ▸ hrest⟩
      obtain ⟨hsurvives, hagain⟩ := (survives_step hw).mp hsurvives
      exact ⟨hsurvives, hfree, hagain, habsorbs⟩
    · rintro ⟨hsurvives, hfree, hagain, habsorbs⟩
      obtain ⟨out, hout, hrest⟩ := (ih (hw.step hfree)).mpr
        ⟨(survives_step hw).mpr ⟨hsurvives, hagain⟩, habsorbs⟩
      refine ⟨out, Option.bind_eq_some_iff.mpr ⟨_, ?_, hout⟩, happ ▸ hrest⟩
      exact writeRow_eq_some.mpr ⟨hfree, rfl⟩

/-- **The rows of a file take in its new declarations** without a loss exactly if they absorb
them. -/
theorem absorbs_iff {P : List NodeData → Prop} {old : List NodeData}
    (hold : (old.map NodeData.naturalKey).Nodup) :
    Absorbs P (old.map fun d => (d, false)) batch ↔
      ∃ out, batch.foldlM writeRow (old.map fun d => (d, false)) = some out ∧
        (∀ m, m ∈ kept out ↔ m ∈ batch.foldl record []) ∧ P (kept out) := by
  have hw : Written [] (old.map fun d => (d, false)) := by
    constructor
    · intro x hx y hy hk
      obtain ⟨a, ha, rfl⟩ := mem_map.mp hx
      obtain ⟨b, hb, rfl⟩ := mem_map.mp hy
      rw [inj_on_of_nodup_map hold ha hb hk]
    · intro x hx hmark
      obtain ⟨a, -, rfl⟩ := mem_map.mp hx
      cases hmark
  simp only [mem_record_iff]
  refine ((absorbs_iff_of_written hw).trans (and_iff_right ?_)).symm
  intro m hm
  cases hm

end WeaveGraph.SqliteStorage
