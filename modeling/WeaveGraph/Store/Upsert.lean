import WeaveGraph.Store.Backend

/-!
# What a batch of `upsert_nodes` does

`upsert_nodes` looks a node up by file, symbol, kind and signature first and by its natural key
second, one batch node after the other, so a batch node can take over the row an earlier one
just wrote, or run into a row whose own turn is still to come.

`Admissible old done batch` says when neither happens: `old` are the stored rows no batch node
has taken over yet, `done` the batch nodes already written.

    upsertNodes t batch keeps every node of the batch  ↔  Admissible t.rows [] batch
                                                                 (upsertNodes_keeps_iff)
-/

namespace WeaveGraph.SqliteStorage

open List Lib

/-- The stored row a batch node takes over, among the rows not yet taken over. -/
def claim (old : List Node) (n : Node) : Option Node := existing (candidates old n) n

/-- Every earlier batch node of the same symbol and signature stands behind a stored row of that
signature still to be taken over. -/
def NoneBefore (old done : List Node) (n : Node) : Prop :=
  ∀ m ∈ done, sameSymbol m n = true → m.signature = n.signature →
    ∃ r ∈ old, sameSymbol r n = true ∧ r.signature = n.signature ∧ r.lineStart < m.lineStart
deriving Decidable

/-- In batch order: no earlier node comes before the row a node looks for, and the only row still
to be taken over under the node's own natural key is the one it takes over. -/
def Admissible : List Node → List Node → List Node → Prop
  | _, _, [] => True
  | old, done, n :: batch =>
    NoneBefore old done n ∧
    (∀ r ∈ old, r.naturalKey = n.naturalKey → claim old n = some r) ∧
    Admissible (old.filter fun r => claim old n ≠ some r) (n :: done) batch

instance decidableAdmissible : ∀ old done batch, Decidable (Admissible old done batch)
  | _, _, [] => inferInstanceAs (Decidable True)
  | old, done, n :: batch =>
    have := decidableAdmissible (old.filter fun r => claim old n ≠ some r) (n :: done) batch
    inferInstanceAs (Decidable (NoneBefore old done n ∧
      (∀ r ∈ old, r.naturalKey = n.naturalKey → claim old n = some r) ∧ _))

def Holds (t : NodeTable) (id : NodeId) (n : Node) : Prop :=
  ∃ r ∈ t.rows, r.id = id ∧ r.data = n.data

/-- The batch is written without error, under distinct ids in batch order, and the row of each
returned id holds the node it was returned for. -/
def KeepsBatch (t : NodeTable) (batch : List Node) : Prop :=
  ∃ ids t', upsertNodes t batch = .ok (ids, t') ∧ ids.Nodup ∧ List.Forall₂ (Holds t') ids batch

/-! ## Candidate lookup -/

variable {a b n r : Node} {rows : List Node} {p : Node → Bool} {t : NodeTable}

theorem sameSymbol_iff : sameSymbol a b = true ↔
    a.repoId = b.repoId ∧ a.path = b.path ∧ a.symbol = b.symbol ∧ a.kind = b.kind := by
  simp [sameSymbol, and_assoc]

theorem naturalKey_of_sameSymbol (h : sameSymbol a b = true) (hl : a.lineStart = b.lineStart) :
    a.naturalKey = b.naturalKey := by
  obtain ⟨h1, h2, h3, -⟩ := sameSymbol_iff.mp h
  simp [Node.naturalKey, h1, h2, h3, hl]

theorem mem_candidates : r ∈ candidates rows n ↔ r ∈ rows ∧ sameSymbol r n = true := by
  unfold candidates
  rw [mem_insertionSort, mem_filter]

theorem find_candidates (h : (candidates rows n).find? p = some r) :
    (r ∈ rows ∧ sameSymbol r n = true ∧ p r = true) ∧
      ∀ r' ∈ rows, sameSymbol r' n = true → p r' = true → r.lineStart ≤ r'.lineStart := by
  have hr := mem_candidates.mp (mem_of_find?_eq_some h)
  refine ⟨⟨hr.1, hr.2, find?_some h⟩, fun r' hr' hs hp => ?_⟩
  obtain ⟨-, as, bs, hsplit, has⟩ := find?_eq_some_iff_append.mp h
  have hm : r' ∈ as ++ r :: bs := hsplit ▸ mem_candidates.mpr ⟨hr', hs⟩
  have hpw : (candidates rows n).Pairwise fun a b => a.lineStart ≤ b.lineStart :=
    pairwise_insertionSort _ _
  rw [hsplit] at hpw
  rcases mem_append.mp hm with hm | hm
  · exact absurd hp (by simpa using has r' hm)
  · rcases mem_cons.mp hm with rfl | hm
    · exact Nat.le_refl _
    · exact (pairwise_cons.mp (pairwise_append.mp hpw).2.1).1 r' hm

theorem find_candidates_eq_none : (candidates rows n).find? p = none ↔
      ∀ r ∈ rows, sameSymbol r n = true → p r = false := by
  rw [find?_eq_none]
  constructor
  · intro h r hr hs
    simpa using h r (mem_candidates.mpr ⟨hr, hs⟩)
  · intro h r hr
    have := h r (mem_candidates.mp hr).1 (mem_candidates.mp hr).2
    simp [this]

/-! ## One batch node -/

theorem sameSymbol_congr (h : a.data = b.data) : sameSymbol a n = sameSymbol b n := by
  simp only [Node.data, NodeData.mk.injEq] at h
  simp [sameSymbol, h]

theorem data_of_sameSymbol (h : sameSymbol r n = true) :
    ({ r with lineStart := n.lineStart, lineEnd := n.lineEnd, signature := n.signature } : Node) =
      { n with id := r.id } := by
  obtain ⟨h1, h2, h3, h4⟩ := sameSymbol_iff.mp h
  simp [h1, h2, h3, h4]

theorem existing_mem (h : existing (candidates rows n) n = some r) :
    r ∈ rows ∧ sameSymbol r n = true := by
  rcases Option.or_eq_some_iff.mp h with h | ⟨-, h⟩
  · exact mem_candidates.mp (mem_of_find?_eq_some h)
  · exact mem_candidates.mp (mem_of_find?_eq_some h)

theorem exists_update_iff {row : Node} (hrow : row ∈ t.rows) (hs : sameSymbol row n = true) :
    (∃ t', t.update row.id (fun r => { r with
        lineStart := n.lineStart, lineEnd := n.lineEnd, signature := n.signature })
        (fun _ => rfl) = some t') ↔ ∀ r ∈ t.rows, r.naturalKey = n.naturalKey → r = row := by
  have hperm := perm_cons_erase hrow
  have hnodup : t.rows.Nodup := List.Nodup.of_map _ t.pk_nodup
  have hkey : ({ row with
      lineStart := n.lineStart, lineEnd := n.lineEnd, signature := n.signature } : Node).naturalKey =
      n.naturalKey := by
    rw [data_of_sameSymbol hs]
    rfl
  constructor
  · rintro ⟨t', hu⟩ r hr hk
    by_contra hne
    refine (Table.update_of_perm hperm hu).1 (mem_map.mpr ⟨r, ?_, hk.trans hkey.symm⟩)
    exact hnodup.mem_erase_iff.mpr ⟨hne, hr⟩
  · intro hown
    refine Table.exists_update_of_perm hperm _ fun hm => ?_
    obtain ⟨r, hr, hk⟩ := mem_map.mp hm
    obtain ⟨hne, hr⟩ := hnodup.mem_erase_iff.mp hr
    exact hne (hown r hr (hk.trans hkey))

/-- No row is under the natural key of `n`, except the one found for it. -/
def Writable (t : NodeTable) (n : Node) : Prop :=
  ∀ r ∈ t.rows, r.naturalKey = n.naturalKey → existing (candidates t.rows n) n = some r

theorem upsertBatchNode_ok {t' : NodeTable} {id : NodeId} (h : upsertBatchNode t n = .ok (id, t')) :
    Writable t n ∧
      ((∃ row ∈ t.rows, existing (candidates t.rows n) n = some row ∧ sameSymbol row n = true ∧
          row.id = id ∧ t'.rows = t.rows.map fun r => if r.id = id then { n with id := id } else r) ∨
        existing (candidates t.rows n) n = none ∧ t.nextId = id ∧
          t'.rows = t.rows ++ [{ n with id := id }]) := by
  unfold upsertBatchNode at h
  unfold Writable
  cases hex : existing (candidates t.rows n) n with
  | some row =>
    obtain ⟨hrow, hs⟩ := existing_mem hex
    simp only [hex] at h
    split at h
    · rename_i t₁ hu
      cases h
      refine ⟨fun r hr hk => congrArg some ((exists_update_iff hrow hs).mp ⟨_, hu⟩ r hr hk).symm,
        .inl ⟨row, hrow, rfl, hs, rfl, ?_⟩⟩
      refine (Table.update_eq_some.mp hu).2.trans (map_congr_left fun r hr => ?_)
      by_cases hid : r.id = row.id
      · obtain rfl := t.pk_inj hr hrow hid
        rw [if_pos rfl, if_pos rfl, data_of_sameSymbol hs]
      · rw [if_neg hid, if_neg hid]
    · cases h
  | none =>
    simp only [hex] at h
    split at h
    · rename_i t₁ hi
      cases h
      obtain ⟨hfree, hrows⟩ := Table.insert_eq_some.mp hi
      exact ⟨fun r hr hk => absurd (mem_map.mpr ⟨r, hr, hk⟩) hfree, .inr ⟨rfl, rfl, hrows⟩⟩
    · cases h

theorem exists_upsertBatchNode (h : Writable t n) :
    ∃ id t', upsertBatchNode t n = .ok (id, t') := by
  unfold upsertBatchNode
  cases hex : existing (candidates t.rows n) n with
  | some row =>
    obtain ⟨hrow, hs⟩ := existing_mem hex
    obtain ⟨t', hu⟩ := (exists_update_iff hrow hs).mpr
      fun r hr hk => (Option.some.inj (hex.symm.trans (h r hr hk))).symm
    exact ⟨row.id, t', by simp only [hu]⟩
  | none =>
    cases hi : t.insert (fun id => { n with id := id }) (fun _ => rfl) with
    | some t' => exact ⟨t.nextId, t', rfl⟩
    | none =>
      obtain ⟨r, hr, hk⟩ := mem_map.mp (Table.insert_eq_none.mp hi)
      cases hex.symm.trans (h r hr hk)

theorem upsertNodes_cons_ok {t' : NodeTable} {batch : List Node} {ids : List NodeId}
    (h : upsertNodes t (n :: batch) = .ok (ids, t')) :
    ∃ id t₁ ids₁, upsertBatchNode t n = .ok (id, t₁) ∧
      upsertNodes t₁ batch = .ok (ids₁, t') ∧ ids = id :: ids₁ := by
  unfold upsertNodes at h
  split at h
  · cases h
  · rename_i id t₁ h₁
    split at h
    · cases h
    · rename_i ids₁ t₂ h₂
      cases h
      exact ⟨id, t₁, ids₁, h₁, h₂, rfl⟩

/-- What the batch nodes `done` have made of the table: each of them took over a row of its own
or got a new one (`claimed`), and the rows `old` are as they were. -/
structure Progress (t : NodeTable) (old claimed done : List Node) : Prop where
  perm : t.rows.Perm (old ++ claimed)
  data : claimed.map Node.data = done.map Node.data

section step

variable {t : NodeTable} {old claimed done : List Node} {n : Node}

section

variable (hp : Progress t old claimed done)

include hp

theorem Progress.mem_rows {r : Node} : r ∈ t.rows ↔ r ∈ old ∨ r ∈ claimed := by
  rw [hp.perm.mem_iff, mem_append]

theorem Progress.done_of_claimed {c : Node} (hc : c ∈ claimed) : ∃ m ∈ done, m.data = c.data := by
  have : c.data ∈ done.map Node.data := hp.data ▸ mem_map_of_mem hc
  exact mem_map.mp this

theorem Progress.claimed_of_done {m : Node} (hm : m ∈ done) : ∃ c ∈ claimed, c.data = m.data := by
  have : m.data ∈ claimed.map Node.data := hp.data ▸ mem_map_of_mem hm
  exact mem_map.mp this

theorem find_signature_eq (hb : NoneBefore old done n) :
    (candidates t.rows n).find? (fun r => r.signature == n.signature) =
      (candidates old n).find? (fun r => r.signature == n.signature) := by
  have hcl : ∀ c ∈ claimed, sameSymbol c n = true → c.signature = n.signature →
      ∃ r ∈ old, sameSymbol r n = true ∧ r.signature = n.signature ∧ r.lineStart < c.lineStart := by
    intro c hc hs hsig
    obtain ⟨m, hm, hd⟩ := hp.done_of_claimed hc
    have hd' := hd
    simp only [Node.data, NodeData.mk.injEq] at hd'
    obtain ⟨r, hr, hrs, hrsig, hlt⟩ := hb m hm (sameSymbol_congr hd ▸ hs) (hd'.2.2.2.2.2.2 ▸ hsig)
    exact ⟨r, hr, hrs, hrsig, hd'.2.2.2.2.1 ▸ hlt⟩
  cases ho : (candidates old n).find? (fun r => r.signature == n.signature) with
  | none =>
    rw [find_candidates_eq_none] at ho ⊢
    intro r hr hs
    rcases hp.mem_rows.mp hr with hr | hr
    · exact ho r hr hs
    · by_contra hne
      obtain ⟨r', hr', hs', hsig', -⟩ := hcl r hr hs (by simpa using hne)
      simpa [hsig'] using ho r' hr' hs'
  | some r0 =>
    obtain ⟨⟨hr0, hs0, hsig0⟩, hmin0⟩ := find_candidates ho
    cases hx : (candidates t.rows n).find? (fun r => r.signature == n.signature) with
    | none =>
      rw [find_candidates_eq_none] at hx
      rw [hx r0 (hp.mem_rows.mpr (Or.inl hr0)) hs0] at hsig0
      cases hsig0
    | some x =>
      obtain ⟨⟨hxm, hxs, hxsig⟩, hminx⟩ := find_candidates hx
      have hle := hminx r0 (hp.mem_rows.mpr (Or.inl hr0)) hs0 hsig0
      rcases hp.mem_rows.mp hxm with hxo | hxc
      · have hge := hmin0 x hxo hxs hxsig
        have hk : x.naturalKey = r0.naturalKey := by
          rw [naturalKey_of_sameSymbol (b := { n with lineStart := x.lineStart }) hxs rfl,
            naturalKey_of_sameSymbol (b := { n with lineStart := x.lineStart }) hs0 (by
              simp only; omega)]
        rw [t.uk_inj hxm (hp.mem_rows.mpr (Or.inl hr0)) hk]
      · obtain ⟨r, hr, hrs, hrsig, hlt⟩ := hcl x hxc hxs (by simpa using hxsig)
        have := hminx r (hp.mem_rows.mpr (Or.inl hr)) hrs (by simpa using hrsig)
        omega

theorem find_line_eq (hk : ∀ m ∈ done, m.naturalKey ≠ n.naturalKey) :
    (candidates t.rows n).find? (fun r => r.lineStart == n.lineStart) =
      (candidates old n).find? (fun r => r.lineStart == n.lineStart) := by
  have hold : ∀ x ∈ t.rows, sameSymbol x n = true → x.lineStart = n.lineStart → x ∈ old := by
    intro x hx hs hl
    rcases hp.mem_rows.mp hx with hx | hx
    · exact hx
    · obtain ⟨m, hm, hd⟩ := hp.done_of_claimed hx
      exact absurd ((Node.naturalKey_of_data hd).trans (naturalKey_of_sameSymbol hs hl)) (hk m hm)
  cases ho : (candidates old n).find? (fun r => r.lineStart == n.lineStart) with
  | none =>
    rw [find_candidates_eq_none] at ho ⊢
    intro r hr hs
    by_contra hne
    have hl : r.lineStart = n.lineStart := by simpa using hne
    simpa [hl] using ho r (hold r hr hs hl) hs
  | some r0 =>
    obtain ⟨⟨hr0, hs0, hl0⟩, -⟩ := find_candidates ho
    cases hx : (candidates t.rows n).find? (fun r => r.lineStart == n.lineStart) with
    | none =>
      rw [find_candidates_eq_none] at hx
      rw [hx r0 (hp.mem_rows.mpr (Or.inl hr0)) hs0] at hl0
      cases hl0
    | some x =>
      obtain ⟨⟨hxm, hxs, hxl⟩, -⟩ := find_candidates hx
      have hkx := naturalKey_of_sameSymbol hxs (by simpa using hxl)
      have hk0 := naturalKey_of_sameSymbol hs0 (by simpa using hl0)
      rw [t.uk_inj hxm (hp.mem_rows.mpr (Or.inl hr0)) (hkx.trans hk0.symm)]

/-- Under the step condition a batch node finds the stored row it would find without the
batch nodes before it. -/
theorem existing_eq_claim (hb : NoneBefore old done n)
    (hk : ∀ m ∈ done, m.naturalKey ≠ n.naturalKey) :
    existing (candidates t.rows n) n = claim old n := by
  unfold claim existing
  rw [find_signature_eq hp hb, find_line_eq hp hk]

theorem perm_of_claim {r : Node} (hr : r ∈ old) :
    t.rows.Perm (r :: ((old.filter fun x => some r ≠ some x) ++ claimed)) := by
  have hn : old.Nodup := by
    have := hp.perm.nodup_iff.mp (List.Nodup.of_map _ t.pk_nodup)
    exact (nodup_append.mp this).1
  have hf : (old.filter fun x => some r ≠ some x) = old.erase r := by
    rw [hn.erase_eq_filter]
    refine filter_congr fun x _ => ?_
    rw [Bool.eq_iff_iff]
    simp only [bne_iff_ne, ne_eq, Option.some.injEq, decide_not, Bool.not_eq_true',
      decide_eq_false_iff_not]
    exact not_congr eq_comm
  rw [hf]
  exact hp.perm.trans ((perm_cons_erase hr).append_right claimed)

theorem naturalKey_not_claimed (hk : ∀ m ∈ done, m.naturalKey ≠ n.naturalKey) :
    ∀ c ∈ claimed, c.naturalKey ≠ n.naturalKey := by
  intro c hc
  obtain ⟨m, hm, hd⟩ := hp.done_of_claimed hc
  exact Node.naturalKey_of_data hd ▸ hk m hm

theorem upsertBatchNode_of_admissible (hb : NoneBefore old done n)
    (hk : ∀ m ∈ done, m.naturalKey ≠ n.naturalKey)
    (hfree : ∀ r ∈ old, r.naturalKey = n.naturalKey → claim old n = some r) :
    ∃ id t', upsertBatchNode t n = .ok (id, t') ∧
      Progress t' (old.filter fun r => claim old n ≠ some r) ({ n with id := id } :: claimed)
        (n :: done) := by
  have he := existing_eq_claim hp hb hk
  have hw : Writable t n := by
    intro r hr hrk
    rcases hp.mem_rows.mp hr with hr | hr
    · exact he.trans (hfree r hr hrk)
    · exact absurd hrk (naturalKey_not_claimed hp hk r hr)
  obtain ⟨id, t', hok⟩ := exists_upsertBatchNode hw
  refine ⟨id, t', hok, ?_, by simp [hp.data, Node.data]⟩
  rcases (upsertBatchNode_ok hok).2 with ⟨row, -, hex, -, rfl, hrows⟩ | ⟨hex, rfl, hrows⟩
  · rw [hex] at he
    have hperm := perm_of_claim hp (existing_mem he.symm).1
    rw [hrows, ← he]
    exact (t.map_update_perm hperm _).trans perm_middle.symm
  · have hf : (old.filter fun r => (none : Option Node) ≠ some r) = old := by simp
    rw [hrows, ← he, hex, hf]
    refine (perm_append_singleton _ _).trans ?_
    exact (hp.perm.cons _).trans perm_middle.symm

theorem admissible_of_upsertBatchNode (hk : ∀ m ∈ done, m.naturalKey ≠ n.naturalKey) {id : NodeId}
    {t' : NodeTable} (hok : upsertBatchNode t n = .ok (id, t')) (hid : id ∉ claimed.map Node.id) :
    NoneBefore old done n ∧ ∀ r ∈ old, r.naturalKey = n.naturalKey → claim old n = some r := by
  have hb : NoneBefore old done n := by
    intro m hm hs hsig
    obtain ⟨c, hc, hd⟩ := hp.claimed_of_done hm
    have hd' := hd
    simp only [Node.data, NodeData.mk.injEq] at hd'
    have hcs : sameSymbol c n = true := (sameSymbol_congr hd).trans hs
    have hcsig : c.signature = n.signature := hd'.2.2.2.2.2.2.trans hsig
    -- some row has the signature, so the lookup stops at the first one; it is no claimed row
    cases hx : (candidates t.rows n).find? (fun r => r.signature == n.signature) with
    | none =>
      have := find_candidates_eq_none.mp hx c (hp.mem_rows.mpr (Or.inr hc)) hcs
      simp [hcsig] at this
    | some x =>
      obtain ⟨⟨hxm, hxs, hxsig⟩, hmin⟩ := find_candidates hx
      have hex : existing (candidates t.rows n) n = some x := by simp [existing, hx]
      have hxid : id = x.id := by
        rcases (upsertBatchNode_ok hok).2 with ⟨row, -, hrow, -, hid, -⟩ | ⟨hnone, -⟩
        · obtain rfl : x = row := Option.some.inj (hex.symm.trans hrow)
          exact hid.symm
        · cases hex.symm.trans hnone
      rcases hp.mem_rows.mp hxm with hxo | hxc
      · have hle := hmin c (hp.mem_rows.mpr (Or.inr hc)) hcs (by simpa using hcsig)
        refine ⟨x, hxo, hxs, by simpa using hxsig, ?_⟩
        have hne : x.lineStart ≠ c.lineStart := by
          intro heq
          have hkey : x.naturalKey = c.naturalKey := by
            rw [naturalKey_of_sameSymbol (b := { n with lineStart := x.lineStart }) hxs rfl,
              naturalKey_of_sameSymbol (b := { n with lineStart := x.lineStart }) hcs heq.symm]
          have := t.uk_inj hxm (hp.mem_rows.mpr (Or.inr hc)) hkey
          exact hid (hxid ▸ this ▸ mem_map_of_mem hc)
        omega
      · exact absurd (hxid ▸ mem_map_of_mem hxc) hid
  refine ⟨hb, fun r hr hkey => ?_⟩
  rw [← existing_eq_claim hp hb hk]
  exact (upsertBatchNode_ok hok).1 r (hp.mem_rows.mpr (Or.inl hr)) hkey

end

end step

/-! ## The whole batch -/

theorem naturalKey_ne_of_nodup {done batch : List Node}
    (h : ((done ++ n :: batch).map Node.naturalKey).Nodup) :
    ∀ m ∈ done, m.naturalKey ≠ n.naturalKey := by
  intro m hm he
  rw [map_append, nodup_append] at h
  exact h.2.2 _ (mem_map_of_mem hm) _ (mem_map_of_mem mem_cons_self) he

theorem upsertNodes_of_admissible (batch : List Node) :
    ∀ (t : NodeTable) (old claimed done : List Node), Progress t old claimed done →
      ((done ++ batch).map Node.naturalKey).Nodup → Admissible old done batch →
      ∃ ids t' old' claimed', upsertNodes t batch = .ok (ids, t') ∧
        Progress t' old' (claimed' ++ claimed) (batch.reverse ++ done) ∧
        claimed'.map Node.id = ids.reverse ∧
        claimed'.map Node.data = batch.reverse.map Node.data := by
  induction batch with
  | nil =>
    intro t old claimed done hp _ _
    exact ⟨[], t, old, [], rfl, by simpa using hp, rfl, rfl⟩
  | cons n batch ih =>
    intro t old claimed done hp hnd ha
    obtain ⟨hb, hfree, ha⟩ := ha
    have hk := naturalKey_ne_of_nodup hnd
    obtain ⟨id, t1, hok, hp1⟩ := upsertBatchNode_of_admissible hp hb hk hfree
    have hnd1 : ((n :: done ++ batch).map Node.naturalKey).Nodup := by
      refine (List.Perm.nodup_iff (List.Perm.map _ ?_)).mp hnd
      exact perm_middle
    obtain ⟨ids, t2, old', claimed', hok2, hp2, hids, hdata⟩ := ih t1 _ _ _ hp1 hnd1 ha
    refine ⟨id :: ids, t2, old', claimed' ++ [{ n with id := id }], ?_, ?_, ?_, ?_⟩
    · simp only [upsertNodes, hok, hok2]
    · simpa using hp2
    · simp [hids]
    · simp [hdata, Node.data]

theorem admissible_of_upsertNodes (batch : List Node) :
    ∀ (t : NodeTable) (old claimed done : List Node), Progress t old claimed done →
      ((done ++ batch).map Node.naturalKey).Nodup → ∀ ids t', upsertNodes t batch = .ok (ids, t') →
      (ids ++ claimed.map Node.id).Nodup → Admissible old done batch := by
  induction batch with
  | nil => intros; trivial
  | cons n batch ih =>
    intro t old claimed done hp hnd ids t' hok hids
    have hk := naturalKey_ne_of_nodup hnd
    obtain ⟨id, t1, ids1, h1, h2, rfl⟩ := upsertNodes_cons_ok hok
    rw [cons_append, nodup_cons] at hids
    obtain ⟨hb, hfree⟩ := admissible_of_upsertBatchNode hp hk h1
      (fun h => hids.1 (mem_append.mpr (Or.inr h)))
    obtain ⟨id', t1', hok1, hp1⟩ := upsertBatchNode_of_admissible hp hb hk hfree
    rw [h1] at hok1
    cases hok1
    refine ⟨hb, hfree, ih t1 _ _ _ hp1 ?_ ids1 t' h2 ?_⟩
    · exact (List.Perm.nodup_iff (List.Perm.map _ perm_middle)).mp hnd
    · exact (perm_middle.nodup_iff).mpr (nodup_cons.mpr hids)

theorem forall₂_holds (rows : List Node) (hrows : ∀ r ∈ rows, r ∈ t.rows) :
    ∀ (ids : List NodeId) (batch : List Node), rows.map Node.id = ids →
      rows.map Node.data = batch.map Node.data → List.Forall₂ (Holds t) ids batch := by
  induction rows with
  | nil =>
    rintro ids batch rfl hd
    cases batch with
    | nil => exact List.Forall₂.nil
    | cons => simp at hd
  | cons r rows ih =>
    rintro ids batch rfl hd
    cases batch with
    | nil => simp at hd
    | cons n batch =>
      simp only [map_cons, List.cons.injEq] at hd ⊢
      exact List.Forall₂.cons ⟨r, hrows r mem_cons_self, rfl, hd.1⟩
        (ih (fun x hx => hrows x (mem_cons_of_mem _ hx)) _ _ rfl hd.2)

/-- **A batch keeps all its nodes exactly when it is admissible.** -/
theorem upsertNodes_keeps_iff (t : NodeTable) (batch : List Node)
    (hbatch : (batch.map Node.naturalKey).Nodup) :
    KeepsBatch t batch ↔ Admissible t.rows [] batch := by
  have hp : Progress t t.rows [] [] := ⟨by simp, rfl⟩
  constructor
  · rintro ⟨ids, t', hok, hids, -⟩
    exact admissible_of_upsertNodes batch t t.rows [] [] hp (by simpa using hbatch) ids t' hok
      (by simpa using hids)
  · intro ha
    obtain ⟨ids, t', old', claimed', hok, hp', hids, hdata⟩ :=
      upsertNodes_of_admissible batch t t.rows [] [] hp (by simpa using hbatch) ha
    have hmem : ∀ r ∈ claimed'.reverse, r ∈ t'.rows := fun r hr =>
      hp'.mem_rows.mpr (Or.inr (mem_append.mpr (Or.inl (mem_reverse.mp hr))))
    refine ⟨ids, t', hok, ?_, forall₂_holds claimed'.reverse hmem ids batch ?_ ?_⟩
    · have hn := (hp'.perm.map Node.id).nodup_iff.mp t'.pk_nodup
      rw [map_append, append_nil, nodup_append] at hn
      have := hn.2.1
      rwa [hids, nodup_reverse] at this
    · rw [map_reverse, hids, reverse_reverse]
    · rw [map_reverse, hdata, map_reverse, reverse_reverse]

def movedTable : NodeTable where
  rows := [⟨1, "r", "a.rs", "area", "function", 3, 5, "fn area() -> f64"⟩]
  ordered := by decide
  unique := by decide

def movedBatch : List Node :=
  [⟨0, "r", "a.rs", "area", "function", 9, 11, "fn area() -> f64"⟩,
    ⟨0, "r", "a.rs", "area", "function", 3, 7, "fn area(x: f64) -> f64"⟩]

theorem upsertNodes_keeps_moved : (movedBatch.map Node.naturalKey).Nodup ∧
    (KeepsBatch movedTable movedBatch ↔ Admissible movedTable.rows [] movedBatch) ∧
    Admissible movedTable.rows [] movedBatch :=
  ⟨by decide, upsertNodes_keeps_iff movedTable movedBatch (by decide), by decide⟩

def cfgOverloads : List Node :=
  [⟨0, "r", "a.rs", "area", "function", 3, 5, "fn area() -> f64"⟩,
    ⟨0, "r", "a.rs", "area", "function", 9, 11, "fn area() -> f64"⟩]

/-- The second declaration takes over the row the first was just given. -/
theorem upsertNodes_loses_overload : (cfgOverloads.map Node.naturalKey).Nodup ∧
    ¬ KeepsBatch Table.empty cfgOverloads := by
  refine ⟨by decide, ?_⟩
  rintro ⟨ids, t', hok, hids, -⟩
  have h : (upsertNodes Table.empty cfgOverloads).map Prod.fst = .ok [1, 1] := by decide
  rw [hok] at h
  obtain rfl : ids = [1, 1] := by simpa [Except.map] using h
  exact absurd hids (by decide)

end WeaveGraph.SqliteStorage
