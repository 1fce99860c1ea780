import Mathlib.Data.List.GetD
import Mathlib.Data.List.Induction
import WeaveGraph.Lib.Packed
import WeaveGraph.Core.Csr

/-!
# What the compact structure holds

`pack rows` is the structure whose row `u` is `rows[u]` (`neighborsSlice_pack`).  The loop of
`from_sorted_edges` packs the targets of each source (`fromSortedEdges_eq`), and `build_reverse`
packs the sources of each target (`buildReverse_pack`).
-/

namespace WeaveGraph

open List Lib

namespace CompactCsr

def pack (rows : List (List Nat)) : CompactCsr := ⟨offsets rows, rows.flatten⟩

theorem nodeCount_pack (rows : List (List Nat)) : (pack rows).nodeCount = rows.length := by
  unfold nodeCount pack
  rw [offsets_length]
  omega

theorem neighborsSlice_pack (rows : List (List Nat)) (u : Nat) :
    (pack rows).neighborsSlice u = rows.getD u [] := by
  unfold neighborsSlice pack
  rw [offsets_length]
  by_cases hu : u + 1 ≥ rows.length + 1
  · rw [if_pos hu, getD_eq_default _ _ (by omega)]
  · rw [if_neg hu, offsets_getD (by omega), offsets_getD (by omega)]
    exact slice_flatten rows u

/-! ## Rows of a sorted edge list -/

/-- The targets of each source. -/
def targetRows (n : Nat) (edges : List (Nat × Nat)) : List (List Nat) :=
  (List.range n).map fun u => (edges.filter fun e => e.1 = u).map Prod.snd

theorem length_targetRows (n : Nat) (edges : List (Nat × Nat)) :
    (targetRows n edges).length = n := by
  simp [targetRows]

variable {n : Nat} {edges : List (Nat × Nat)} {st : (Nat × List Nat) × List Nat}
  {rows : List (List Nat)}

theorem take_targetRows {i : Nat} (hi : i ≤ n) (edges : List (Nat × Nat)) :
    (targetRows n edges).take i = targetRows i edges := by
  unfold targetRows
  rw [← map_take, take_range, Nat.min_eq_left hi]

theorem length_filter_lt_succ (edges : List (Nat × Nat)) (i : Nat) :
    (edges.filter fun e => e.1 < i + 1).length =
      (edges.filter fun e => e.1 < i).length + (edges.filter fun e => e.1 = i).length := by
  induction edges with
  | nil => rfl
  | cons e edges ih =>
    simp only [filter_cons, decide_eq_true_eq]
    rcases Nat.lt_trichotomy e.1 i with h | h | h
    · rw [if_pos (by omega), if_pos h, if_neg (by omega), length_cons, length_cons, ih]
      omega
    · rw [if_pos (by omega), if_neg (by omega), if_pos h, length_cons, length_cons, ih]
      omega
    · rw [if_neg (by omega), if_neg (by omega), if_neg (by omega), ih]

theorem length_flatten_targetRows (n : Nat) (edges : List (Nat × Nat)) :
    (targetRows n edges).flatten.length = (edges.filter fun e => e.1 < n).length := by
  unfold targetRows
  induction n with
  | zero => simp
  | succ n ih =>
    rw [range_succ, map_append, flatten_append, length_append, ih, length_filter_lt_succ]
    simp

theorem filter_append_filter_le (h : edges.Pairwise (·.1 ≤ ·.1)) (k : Nat) :
    (edges.filter fun e => e.1 < k) ++ (edges.filter fun e => k ≤ e.1) = edges := by
  induction edges with
  | nil => rfl
  | cons e edges ih =>
    obtain ⟨hle, h⟩ := pairwise_cons.mp h
    simp only [filter_cons, decide_eq_true_eq]
    by_cases hk : e.1 < k
    · rw [if_pos hk, if_neg (by omega), cons_append, ih h]
    · have hnil : edges.filter (fun e => e.1 < k) = [] := by
        refine filter_eq_nil_iff.mpr fun e' he' => ?_
        have := hle e' he'
        simp only [decide_eq_true_eq]
        omega
      have hih := ih h
      rw [hnil, nil_append] at hih
      rw [if_neg hk, if_pos (by omega), hnil, hih]
      rfl

theorem flatten_targetRows : ∀ {edges : List (Nat × Nat)},
    edges.Pairwise (·.1 ≤ ·.1) → (∀ e ∈ edges, e.1 < n) →
    (targetRows n edges).flatten = edges.map Prod.snd := by
  unfold targetRows
  induction n with
  | zero =>
    intro edges _ hlt
    have hnil : edges = [] := eq_nil_iff_forall_not_mem.mpr fun e he => by
      have := hlt e he
      omega
    rw [hnil]
    rfl
  | succ n ih =>
    intro edges hsorted hlt
    have hlow := ih (hsorted.filter fun e => e.1 < n) fun e he => by
      simpa using (mem_filter.mp he).2
    have hrows : ∀ u ∈ List.range n, (edges.filter fun e => e.1 = u).map Prod.snd =
        ((edges.filter fun e => e.1 < n).filter fun e => e.1 = u).map Prod.snd := by
      intro u hu
      rw [mem_range] at hu
      rw [filter_filter]
      congr 1
      refine filter_congr fun e _ => ?_
      by_cases he : e.1 = u
      · simp [he, hu]
      · simp [he]
    have hhigh : edges.filter (fun e => e.1 = n) = edges.filter fun e => n ≤ e.1 := by
      refine filter_congr fun e he => ?_
      have := hlt e he
      rw [decide_eq_decide]
      omega
    rw [range_succ, map_append, flatten_append, map_congr_left hrows, hlow]
    conv_rhs => rw [← filter_append_filter_le hsorted n]
    rw [map_append, ← hhigh]
    simp

/-! ## The loop of `from_sorted_edges` -/

theorem advance_fst (columns steps : Nat) (st : Nat × List Nat) :
    (advance columns steps st).1 = st.1 + steps := by
  induction steps generalizing st with
  | zero => rfl
  | succ steps ih =>
    rw [advance, ih]
    omega

theorem advance_length (columns steps : Nat) (st : Nat × List Nat) :
    (advance columns steps st).2.length = st.2.length := by
  induction steps generalizing st with
  | zero => rfl
  | succ steps ih =>
    rw [advance, ih, length_set]

theorem advance_getElem? (columns steps : Nat) (st : Nat × List Nat) (i : Nat) :
    (advance columns steps st).2[i]? =
      if st.1 < i ∧ i ≤ st.1 + steps ∧ i < st.2.length then some columns else st.2[i]? := by
  induction steps generalizing st with
  | zero =>
    rw [if_neg (by omega)]
    rfl
  | succ steps ih =>
    obtain ⟨current, offsets⟩ := st
    rw [advance, ih]
    simp only [length_set, getElem?_set]
    split
    · rw [if_pos (by omega)]
    · by_cases hi : current + 1 = i
      · rw [if_pos hi]
        split
        · rw [if_pos (by omega)]
        · rw [if_neg (by omega), getElem?_eq_none (by omega)]
      · rw [if_neg hi, if_neg (by omega)]

/-- The loop state once `edges` are added: the offsets up to the current row are final. -/
structure Filled (n : Nat) (edges : List (Nat × Nat)) (st : (Nat × List Nat) × List Nat) : Prop where
  length : st.1.2.length = n + 1
  current_le : st.1.1 ≤ n
  source_le : ∀ e ∈ edges, e.1 ≤ st.1.1
  offset : ∀ i ≤ st.1.1, st.1.2[i]? = some (edges.filter fun e => e.1 < i).length
  columns : st.2 = edges.map Prod.snd

theorem filled_nil (n : Nat) : Filled n [] ((0, List.replicate (n + 1) 0), []) where
  length := length_replicate
  current_le := Nat.zero_le n
  source_le := fun _ he => absurd he not_mem_nil
  offset := by
    intro i hi
    obtain rfl : i = 0 := by simpa using hi
    simp
  columns := rfl

theorem Filled.advance (h : Filled n edges st) (steps : Nat) (hle : st.1.1 + steps ≤ n) :
    Filled n edges (CompactCsr.advance st.2.length steps st.1, st.2) where
  length := (advance_length ..).trans h.length
  current_le := by
    rw [advance_fst]
    exact hle
  source_le := by
    intro e he
    have := h.source_le e he
    rw [advance_fst]
    omega
  offset := by
    intro i hi
    rw [advance_fst] at hi
    rw [advance_getElem?, h.length]
    by_cases hcur : st.1.1 < i
    · -- a row passed over starts where all the edges so far end
      have hall : edges.filter (fun e => e.1 < i) = edges := by
        refine filter_eq_self.mpr fun e he => ?_
        have := h.source_le e he
        simp only [decide_eq_true_eq]
        omega
      rw [if_pos (by omega), h.columns, length_map, hall]
    · rw [if_neg (by omega)]
      exact h.offset i (by omega)
  columns := h.columns

theorem Filled.push (h : Filled n edges st) {e : Nat × Nat} (he : st.1.1 = e.1) :
    Filled n (edges ++ [e]) (st.1, st.2 ++ [e.2]) where
  length := h.length
  current_le := h.current_le
  source_le := by
    intro e' he'
    rcases mem_append.mp he' with he' | he'
    · exact h.source_le e' he'
    · rw [mem_singleton.mp he', he]
  offset := by
    intro i hi
    have hnil : [e].filter (fun e => e.1 < i) = [] := by
      refine filter_eq_nil_iff.mpr fun e' he' => ?_
      rw [mem_singleton.mp he', ← he, decide_eq_true_eq]
      have hi : i ≤ st.1.1 := hi
      omega
    rw [filter_append, hnil, append_nil]
    exact h.offset i hi
  columns := by
    rw [h.columns, map_append]
    rfl

section

variable (hsorted : edges.Pairwise (·.1 ≤ ·.1)) (hlt : ∀ e ∈ edges, e.1 < n ∧ e.2 < n)

include hsorted hlt

theorem filled_foldl :
    Filled n edges (edges.foldl (addEdge n) ((0, List.replicate (n + 1) 0), [])) := by
  -- the current row is the source of the last edge
  suffices h : Filled n edges (edges.foldl (addEdge n) ((0, List.replicate (n + 1) 0), [])) ∧
      ∀ k, (∀ e ∈ edges, e.1 ≤ k) →
        (edges.foldl (addEdge n) ((0, List.replicate (n + 1) 0), [])).1.1 ≤ k from h.1
  induction edges using List.reverseRecOn with
  | nil => exact ⟨filled_nil n, fun k _ => Nat.zero_le k⟩
  | append_singleton edges e ih =>
    obtain ⟨hpre, -, hle⟩ := pairwise_append.mp hsorted
    obtain ⟨h, hcur⟩ := ih hpre fun e' he' => hlt e' (mem_append_left _ he')
    obtain ⟨he1, he2⟩ := hlt e (by simp)
    have hcur := hcur e.1 fun e' he' => hle e' he' e (by simp)
    rw [foldl_append, foldl_cons, foldl_nil]
    generalize edges.foldl (addEdge n) ((0, List.replicate (n + 1) 0), []) = st at h hcur ⊢
    have hskip : ¬ ((decide (e.1 ≥ n) || decide (e.2 ≥ n)) = true) := by
      simp only [Bool.or_eq_true, decide_eq_true_eq]
      omega
    have hrow : (advance st.2.length (e.1 - st.1.1) st.1).1 = e.1 := by
      rw [advance_fst]
      omega
    unfold addEdge
    rw [if_neg hskip]
    refine ⟨(h.advance _ (by omega)).push hrow, fun k hk => ?_⟩
    rw [hrow]
    exact hk e (by simp)

/-- **`from_sorted_edges` packs the targets of each source.** -/
theorem fromSortedEdges_eq : fromSortedEdges edges n = pack (targetRows n edges) := by
  have h := filled_foldl hsorted hlt
  unfold fromSortedEdges
  generalize edges.foldl (addEdge n) ((0, List.replicate (n + 1) 0), []) = st at h ⊢
  obtain ⟨rows, columns⟩ := st
  have hend := h.advance (n - rows.1) (by have := h.current_le; dsimp only at this ⊢; omega)
  have hcur : (advance columns.length (n - rows.1) rows).1 = n := by
    have := h.current_le
    rw [advance_fst]
    dsimp only at this
    omega
  have hoffsets : (advance columns.length (n - rows.1) rows).2 = offsets (targetRows n edges) := by
    refine ext_getElem? fun i => ?_
    by_cases hi : i ≤ n
    · rw [hend.offset i (by rw [hcur]; exact hi), offsets_getElem? (by rwa [length_targetRows]),
        take_targetRows hi, length_flatten_targetRows]
    · have hlen := hend.length
      rw [getElem?_eq_none (by dsimp only at hlen; omega), getElem?_eq_none]
      rw [offsets_length, length_targetRows]
      omega
  have hcolumns : columns = (targetRows n edges).flatten := by
    rw [flatten_targetRows hsorted fun e he => (hlt e he).1]
    exact h.columns
  show CompactCsr.mk _ _ = _
  rw [hoffsets, hcolumns]
  rfl

end

/-! ## The loops of `build_reverse` -/

/-- The sources of each target. -/
def sourceRows (n : Nat) (edges : List (Nat × Nat)) : List (List Nat) :=
  (List.range n).map fun v => (edges.filter fun e => e.2 = v).map Prod.fst

theorem length_sourceRows (n : Nat) (edges : List (Nat × Nat)) :
    (sourceRows n edges).length = n := by
  simp [sourceRows]

theorem sourceRows_eq (n : Nat) (edges : List (Nat × Nat)) :
    sourceRows n edges = targetRows n (edges.map Prod.swap) := by
  refine map_congr_left fun v _ => ?_
  rw [filter_map, map_map]
  rfl

theorem length_flatten_sourceRows (hlt : ∀ e ∈ edges, e.2 < n) :
    (sourceRows n edges).flatten.length = edges.length := by
  have hall : (edges.map Prod.swap).filter (fun e => e.1 < n) = edges.map Prod.swap := by
    refine filter_eq_self.mpr fun e he => ?_
    obtain ⟨e', he', rfl⟩ := mem_map.mp he
    simpa using hlt e' he'
  rw [sourceRows_eq, length_flatten_targetRows, hall, length_map]

theorem sourceRows_getD {v : Nat} (hv : v < n) (edges : List (Nat × Nat)) :
    (sourceRows n edges).getD v [] = (edges.filter fun e => e.2 = v).map Prod.fst := by
  simp [sourceRows, getD_eq_getElem?_getD, hv]

theorem foldl_count {l : List Nat} (hlt : ∀ v ∈ l, v < n) :
    l.foldl (fun degrees v => degrees.set v (degrees.getD v 0 + 1)) (List.replicate n 0) =
      (List.range n).map fun v => l.count v := by
  induction l using List.reverseRecOn with
  | nil =>
    refine ext_getElem? fun i => ?_
    by_cases hi : i < n
    · simp [hi]
    · simp [hi]
  | append_singleton l v ih =>
    have hv : v < n := hlt v (by simp)
    rw [foldl_append, foldl_cons, foldl_nil, ih fun w hw => hlt w (mem_append_left _ hw)]
    refine ext_getElem? fun i => ?_
    rw [getElem?_set]
    by_cases hi : v = i
    · subst hi
      simp [hv, getD_eq_getElem?_getD]
    · rw [if_neg hi]
      by_cases hn : i < n
      · have hcount : ([v] : List Nat).count i = 0 := by simp [hi]
        simp [hn, count_append, hcount]
      · simp [hn]

theorem edgeList_pack (rows : List (List Nat)) : (pack rows).edgeList =
    (List.range rows.length).flatMap fun u => (rows.getD u []).map fun v => (u, v) := by
  unfold edgeList
  rw [nodeCount_pack]
  simp only [neighborsSlice_pack]

theorem edgeList_map_snd (rows : List (List Nat)) :
    (pack rows).edgeList.map Prod.snd = rows.flatten := by
  have hrows : (List.range rows.length).map (fun u => rows.getD u []) = rows := by
    refine ext_getElem? fun i => ?_
    by_cases hi : i < rows.length
    · simp [hi, getD_eq_getElem?_getD]
    · simp [hi]
  rw [edgeList_pack, map_flatMap]
  conv_rhs => rw [← hrows]
  rw [flatMap_def]
  simp [Function.comp_def]

theorem mem_edgeList {rows : List (List Nat)} {u v : Nat} :
    (u, v) ∈ (pack rows).edgeList ↔ v ∈ rows.getD u [] := by
  rw [edgeList_pack]
  simp only [mem_flatMap, mem_range, mem_map, Prod.mk.injEq]
  constructor
  · rintro ⟨u, -, v, hv, rfl, rfl⟩
    exact hv
  · intro hv
    refine ⟨u, ?_, v, hv, rfl, rfl⟩
    by_contra hu
    rw [getD_eq_default _ _ (by omega)] at hv
    cases hv

theorem inDegrees_pack (hlt : ∀ v ∈ rows.flatten, v < rows.length) : (pack rows).inDegrees =
      (sourceRows rows.length (pack rows).edgeList).map List.length := by
  unfold inDegrees
  rw [nodeCount_pack, show (pack rows).columnIndices = rows.flatten from rfl, foldl_count hlt]
  unfold sourceRows
  rw [map_map]
  refine map_congr_left fun v _ => ?_
  rw [← edgeList_map_snd, count_eq_countP, countP_map, countP_eq_length_filter,
    Function.comp_apply, length_map]
  exact congrArg List.length (filter_congr fun e _ => Bool.beq_eq_decide_eq e.2 v)

theorem reverseOffsets_pack (hlt : ∀ v ∈ rows.flatten, v < rows.length) :
    (pack rows).reverseOffsets = offsets (sourceRows rows.length (pack rows).edgeList) := by
  unfold reverseOffsets offsets
  rw [inDegrees_pack hlt, scanl_map]

/-- The state of the placing loop once `placed` of the edges are placed. -/
structure Placed (n : Nat) (edges placed : List (Nat × Nat)) (st : List Nat × List Nat) : Prop where
  next_length : st.1.length = n + 1
  length : st.2.length = (sourceRows n edges).flatten.length
  next : ∀ v < n, st.1.getD v 0 =
    ((sourceRows n edges).take v).flatten.length + (placed.filter fun e => e.2 = v).length
  column : ∀ v < n, ∀ i x, ((placed.filter fun e => e.2 = v).map Prod.fst)[i]? = some x →
    st.2[((sourceRows n edges).take v).flatten.length + i]? = some x

section placing

variable {n : Nat} {edges placed : List (Nat × Nat)} {st : List Nat × List Nat} {e : Nat × Nat}

theorem sourceRows_take_succ {v : Nat} (hv : v < n) :
    ((sourceRows n edges).take (v + 1)).flatten.length =
      ((sourceRows n edges).take v).flatten.length + (edges.filter fun e => e.2 = v).length := by
  rw [flatten_take_succ, sourceRows_getD hv, length_append, length_map]

theorem length_filter_of_prefix (hpre : placed ++ [e] <+: edges) (v : Nat) :
    (placed.filter fun e => e.2 = v).length + ([e].filter fun e => e.2 = v).length ≤
      (edges.filter fun e => e.2 = v).length := by
  obtain ⟨rest, hrest⟩ := hpre
  rw [← hrest, filter_append, filter_append, length_append, length_append]
  omega

section

variable (h : Placed n edges placed st) (hpre : placed ++ [e] <+: edges) (he : e.2 < n)

include h hpre he

theorem Placed.next_lt :
    st.1.getD e.2 0 < ((sourceRows n edges).take (e.2 + 1)).flatten.length := by
  have hcount := length_filter_of_prefix hpre e.2
  have hself : ([e].filter fun e' => e'.2 = e.2).length = 1 := by simp
  rw [h.next e.2 he, sourceRows_take_succ he]
  omega

theorem Placed.next_lt_length : st.1.getD e.2 0 < st.2.length := by
  have hlt := h.next_lt hpre he
  have hle := flatten_take_mono (sourceRows n edges) (show e.2 + 1 ≤ n by omega)
  have hall : (sourceRows n edges).take n = sourceRows n edges :=
    take_of_length_le (by rw [length_sourceRows])
  rw [hall] at hle
  rw [h.length]
  omega

theorem Placed.next_ne {v i : Nat} (hv : v < n) (hi : i < (placed.filter fun e => e.2 = v).length) :
    st.1.getD e.2 0 ≠ ((sourceRows n edges).take v).flatten.length + i := by
  have hcount := length_filter_of_prefix hpre v
  have hrow := @sourceRows_take_succ n edges v hv
  have hnext := h.next_lt hpre he
  rcases Nat.lt_trichotomy v e.2 with hlt | rfl | hlt
  · have := flatten_take_mono (sourceRows n edges) (show v + 1 ≤ e.2 by omega)
    rw [h.next e.2 he]
    omega
  · rw [h.next e.2 he]
    omega
  · have := flatten_take_mono (sourceRows n edges) (show e.2 + 1 ≤ v by omega)
    omega

theorem Placed.place : Placed n edges (placed ++ [e]) (placeEdge st e) where
  next_length := (length_set ..).trans h.next_length
  length := (length_set ..).trans h.length
  next := by
    intro v hv
    show (st.1.set e.2 (st.1.getD e.2 0 + 1)).getD v 0 = _
    rw [filter_append, length_append, ← Nat.add_assoc, ← h.next v hv,
      getD_eq_getElem?_getD, getElem?_set]
    by_cases hev : e.2 = v
    · have hlen : e.2 < st.1.length := by
        rw [h.next_length]
        omega
      subst hev
      rw [if_pos rfl, if_pos hlen]
      simp
    · have hnil : ([e].filter fun e => e.2 = v).length = 0 := by simp [hev]
      rw [if_neg hev, hnil, ← getD_eq_getElem?_getD]
      omega
  column := by
    intro v hv i x hx
    show (st.2.set (st.1.getD e.2 0) e.1)[_]? = some x
    rw [filter_append, map_append] at hx
    rw [getElem?_set]
    by_cases hi : i < (placed.filter fun e => e.2 = v).length
    · rw [if_neg (h.next_ne hpre he hv hi)]
      refine h.column v hv i x ?_
      rwa [getElem?_append_left (by rwa [length_map])] at hx
    · -- the edge just placed is the only one left
      rw [getElem?_append_right (by rw [length_map]; omega), length_map] at hx
      have hev : e.2 = v := by
        by_contra hev
        simp [hev] at hx
      subst hev
      have hx : ([e.1] : List Nat)[i - (placed.filter fun e' => e'.2 = e.2).length]? = some x := by
        simpa using hx
      obtain ⟨hlt, hx⟩ := List.getElem?_eq_some_iff.mp hx
      obtain rfl : i = (placed.filter fun e' => e'.2 = e.2).length := by
        simp only [length_singleton] at hlt
        omega
      rw [← h.next e.2 he, if_pos rfl, if_pos (h.next_lt_length hpre he)]
      simpa using hx

end

theorem placed_foldl (hlt : ∀ e ∈ edges, e.2 < n) (hpre : placed <+: edges) :
    Placed n edges placed (placed.foldl placeEdge (offsets (sourceRows n edges),
      List.replicate (sourceRows n edges).flatten.length 0)) := by
  induction placed using List.reverseRecOn with
  | nil =>
    refine ⟨?_, length_replicate, fun v hv => ?_, fun v _ i x h => by simp at h⟩
    · exact (offsets_length _).trans (by rw [length_sourceRows])
    · exact offsets_getD (by rw [length_sourceRows]; omega)
  | append_singleton placed e ih =>
    have h := ih ((prefix_append placed [e]).trans hpre)
    rw [foldl_append, foldl_cons, foldl_nil]
    exact h.place hpre (hlt e (hpre.subset (by simp)))

end placing

/-- **`build_reverse` packs the sources of each target.** -/
theorem buildReverse_pack (hlt : ∀ v ∈ rows.flatten, v < rows.length) :
    (pack rows).buildReverse = pack (sourceRows rows.length (pack rows).edgeList) := by
  have hedges : ∀ e ∈ (pack rows).edgeList, e.2 < rows.length := by
    intro e he
    refine hlt e.2 ?_
    rw [← edgeList_map_snd]
    exact mem_map_of_mem he
  have hcount : (pack rows).edgeCount =
      (sourceRows rows.length (pack rows).edgeList).flatten.length := by
    rw [length_flatten_sourceRows hedges, ← length_map Prod.snd, edgeList_map_snd]
    rfl
  have h := placed_foldl hedges (prefix_refl _)
  have hcolumns := eq_flatten_of_slices h.length fun v i x hx => by
    by_cases hv : v < rows.length
    · rw [sourceRows_getD hv] at hx
      exact h.column v hv i x hx
    · rw [getD_eq_default _ _ (by rw [length_sourceRows]; omega)] at hx
      cases hx
  unfold buildReverse
  rw [reverseOffsets_pack hlt, hcount, hcolumns]
  rfl

end CompactCsr

end WeaveGraph
