import WeaveGraph.Core.Rbac
import WeaveGraph.Lib.Like
import WeaveGraph.Store.Backend

/-!
# Searching for symbols

Both searches fetch a window of the ranked matches, drop what the caller may not see, and try again
with a window four times as large until the page is full, the matches are exhausted or the window
is 256 pages.  At that size they stop, whatever is left:

    the page holds the first visible matches
      ↔  the first 256 pages of matches hold a full page of visible ones, or all of them
                                                                    (search_page_iff)
-/

namespace WeaveGraph.SqliteStorage

open List Lib Lib.Like

/-- `usize::MAX`. -/
def usizeMax : Nat := 2 ^ 64 - 1

/-- `limit.saturating_mul(factor).max(limit)`. -/
def candidateLimit (limit factor : Nat) : Nat := max (min (limit * factor) usizeMax) limit

/-- `LIMIT ?`, bound as an `i64`: from `2 ^ 63` on it is negative, which is no limit. -/
def fetch (ranked : List Node) (candidateLimit : Nat) : List Node :=
  if candidateLimit < 2 ^ 63 then ranked.take candidateLimit else ranked

section search

variable (ranked : List Node) (limit : Nat) (visible : Option (Node → Bool))

def page (factor : Nat) : List Node :=
  ((fetch ranked (candidateLimit limit factor)).filter (isShown visible)).take limit

def stops (factor : Nat) : Bool :=
  limit ≤ ((fetch ranked (candidateLimit limit factor)).filter (isShown visible)).length ||
    (fetch ranked (candidateLimit limit factor)).length < candidateLimit limit factor ||
    256 ≤ factor

/-- The loop; `none` when the fuel is used up. -/
def overfetch : Nat → Nat → Option (List Node)
  | 0, _ => none
  | fuel + 1, factor =>
    if stops ranked limit visible factor then some (page ranked limit visible factor)
    else overfetch fuel (min (factor * 4) usizeMax)

/-- The factors are 4, 16, 64 and 256. -/
def searchPage : List Node := (overfetch ranked limit visible 4 4).getD []

end search

/-- `fts::search_nodes` without its limit: the matching rows of the index, joined with `nodes`, in
the order of their rank.  A malformed expression is an error. -/
abbrev FtsRanking := SqliteStorage → String → Except StorageError (List Node)

/-- `none`: the `fts` feature is not compiled in. -/
def searchSymbolNodes (fts : Option FtsRanking) (s : SqliteStorage) (matchExpr : String)
    (limit : Nat) (visible : Option (Node → Bool)) : Except StorageError (List Node) :=
  match fts with
  | some ranking => (ranking s matchExpr).map fun ranked => searchPage ranked limit visible
  | none => .error (.backend "this storage backend does not support symbol search")

/-- `SELECT ... WHERE lower(symbol) LIKE ?1 ESCAPE '\' OR ... ORDER BY id`. -/
def literalMatches (s : SqliteStorage) (queryLower : String) : List Node :=
  s.nodes.rows.filter fun n =>
    like (Text.toAsciiLowercase n.symbol) (containing queryLower) ||
    like (Text.toAsciiLowercase n.signature) (containing queryLower) ||
    like (Text.toAsciiLowercase n.path) (containing queryLower)

def searchNodesLiteral (s : SqliteStorage) (queryLower : String) (limit : Nat)
    (visible : Option (Node → Bool)) : List Node :=
  searchPage (s.literalMatches queryLower) limit visible

/-- The query stands for itself, whatever characters it has. -/
theorem mem_literalMatches {s : SqliteStorage} {queryLower : String} {n : Node} :
    n ∈ s.literalMatches queryLower ↔ n ∈ s.nodes.rows ∧ ∃ column ∈ [n.symbol, n.signature, n.path],
        Text.contains (Text.toAsciiLowercase column) (Text.toAsciiLowercase queryLower) = true := by
  simp only [literalMatches, mem_filter, like_containing,
    toAsciiLowercase_idem, Bool.or_eq_true, mem_cons, not_mem_nil, or_false,
    exists_eq_or_imp, exists_eq_left, or_assoc]

/-! ## Windows -/

theorem fetch_prefix_ranked (ranked : List Node) (n : Nat) : fetch ranked n <+: ranked := by
  unfold fetch
  split
  · exact take_prefix n ranked
  · exact prefix_rfl

variable {n : Nat}

theorem fetch_mono (ranked : List Node) {m : Nat} (h : m ≤ n) :
    fetch ranked m <+: fetch ranked n := by
  unfold fetch
  by_cases hn : n < 2 ^ 63
  · rw [if_pos hn, if_pos (by omega)]
    exact take_prefix_take_left h
  · rw [if_neg hn]
    exact fetch_prefix_ranked ranked m

theorem fetch_exhausted {ranked : List Node} (h : (fetch ranked n).length < n) :
    fetch ranked n = ranked := by
  unfold fetch at h ⊢
  split at h
  · rename_i hn
    rw [if_pos hn, take_eq_self_iff]
    rw [length_take] at h
    omega
  · rename_i hn
    rw [if_neg hn]

theorem candidateLimit_mono (limit : Nat) {f g : Nat} (h : f ≤ g) :
    candidateLimit limit f ≤ candidateLimit limit g := by
  have hmul := Nat.mul_le_mul_left limit h
  unfold candidateLimit
  omega

theorem take_of_prefix {α : Type} {l m : List α} (h : l <+: m) (hn : n ≤ l.length) :
    l.take n = m.take n := by
  obtain ⟨t, rfl⟩ := h
  rw [take_append_of_le_length hn]

section search

variable {ranked : List Node} {limit : Nat} {visible : Option (Node → Bool)}

theorem page_of_stops {factor : Nat} (hf : factor ≤ 256)
    (h : stops ranked limit visible factor = true) :
    page ranked limit visible factor = page ranked limit visible 256 := by
  have hle := candidateLimit_mono limit hf
  simp only [stops, Bool.or_eq_true, decide_eq_true_eq] at h
  rcases h with (hfull | hall) | hlast
  · exact take_of_prefix ((fetch_mono ranked hle).filter _) hfull
  · have hwhole := fetch_exhausted hall
    have hsame : fetch ranked (candidateLimit limit 256) = ranked := by
      have hpre := fetch_mono ranked hle
      rw [hwhole] at hpre
      exact (fetch_prefix_ranked ranked _).eq_of_length_le hpre.length_le
    unfold page
    rw [hwhole, hsame]
  · rw [Nat.le_antisymm hf hlast]

theorem overfetch_eq : ∀ {fuel factor : Nat}, factor * 4 ^ fuel = 256 →
    overfetch ranked limit visible (fuel + 1) factor = some (page ranked limit visible 256) := by
  intro fuel
  induction fuel with
  | zero =>
    intro factor h
    obtain rfl : factor = 256 := by simpa using h
    have hs : stops ranked limit visible 256 = true := by simp [stops]
    rw [overfetch, if_pos hs]
  | succ fuel ih =>
    intro factor h
    unfold overfetch
    split
    · rename_i hs
      rw [page_of_stops (Nat.le_of_dvd (by decide) ⟨_, h.symm⟩) hs]
    · have hnext : factor * 4 * 4 ^ fuel = 256 := by
        rw [Nat.mul_assoc, ← Nat.pow_succ']
        exact h
      have hle : factor * 4 ≤ 256 := Nat.le_of_dvd (by decide) ⟨_, hnext.symm⟩
      have hmin : min (factor * 4) usizeMax = factor * 4 := by
        unfold usizeMax
        omega
      rw [hmin]
      exact ih hnext

theorem searchPage_eq : searchPage ranked limit visible = page ranked limit visible 256 := by
  unfold searchPage
  rw [overfetch_eq (by decide)]
  rfl

end search

/-! ## What the last window holds -/

/-- What a search is for: the first `limit` visible matches. -/
def firstVisible (limit : Nat) (visible : Option (Node → Bool)) (ranked : List Node) : List Node :=
  (ranked.filter (isShown visible)).take limit

/-- The first 256 pages of matches hold a page of visible ones, or none comes after them.  From
`2 ^ 63` matches on the window has no bound. -/
def PageCovered (limit : Nat) (visible : Option (Node → Bool)) (ranked : List Node) : Prop :=
  2 ^ 63 ≤ 256 * limit ∨ limit ≤ ((ranked.take (256 * limit)).filter (isShown visible)).length ∨
    ∀ n ∈ ranked.drop (256 * limit), isShown visible n = false

theorem take_append_eq_iff {α : Type} {l t : List α} :
    l.take n = (l ++ t).take n ↔ n ≤ l.length ∨ t = [] := by
  rw [take_append, self_eq_append_right, take_eq_nil_iff, Nat.sub_eq_zero_iff_le]

theorem searchPage_iff (ranked : List Node) (limit : Nat) (visible : Option (Node → Bool)) :
    searchPage ranked limit visible = firstVisible limit visible ranked ↔
      PageCovered limit visible ranked := by
  rw [searchPage_eq, page, firstVisible]
  by_cases hbig : 2 ^ 63 ≤ 256 * limit
  · have hlimit : ¬ candidateLimit limit 256 < 2 ^ 63 := by
      unfold candidateLimit usizeMax
      omega
    rw [fetch, if_neg hlimit]
    exact iff_of_true rfl (Or.inl hbig)
  · have hlimit : candidateLimit limit 256 = 256 * limit := by
      unfold candidateLimit usizeMax
      omega
    rw [fetch, hlimit, if_pos (by omega), PageCovered, or_iff_right hbig]
    have hsplit : ranked.filter (isShown visible) =
        (ranked.take (256 * limit)).filter (isShown visible) ++
          (ranked.drop (256 * limit)).filter (isShown visible) := by
      rw [← filter_append, take_append_drop]
    rw [hsplit, take_append_eq_iff, filter_eq_nil_iff]
    simp only [Bool.not_eq_true]

/-- Both searches return the first visible matches exactly if the last window covers the page. -/
theorem search_page_iff (ranking : FtsRanking) (s : SqliteStorage) (query : String) (limit : Nat)
    (visible : Option (Node → Bool)) :
    (searchSymbolNodes (some ranking) s query limit visible =
        (ranking s query).map (firstVisible limit visible) ↔
      ∀ ranked, ranking s query = .ok ranked → PageCovered limit visible ranked) ∧
    (searchNodesLiteral s query limit visible =
        firstVisible limit visible (s.literalMatches query) ↔
      PageCovered limit visible (s.literalMatches query)) := by
  refine ⟨?_, searchPage_iff _ _ _⟩
  unfold searchSymbolNodes
  cases hr : ranking s query with
  | error e => simp [Except.map, hr]
  | ok ranked => simp [Except.map, hr, searchPage_iff]

def getMethod (i : Nat) : Node := ⟨i + 1, "local", "a.rs", "get", "method", i, i, ""⟩

def overloads (n : Nat) : SqliteStorage :=
  { openFresh with
    nodes :=
      { rows := (List.range n).map getMethod
        ordered := pairwise_map.mpr (pairwise_lt_range.imp fun h => Nat.succ_lt_succ h)
        unique := by
          rw [map_map]
          refine List.Nodup.map (fun i j h => ?_) nodup_range
          simpa [getMethod, Node.naturalKey] using h } }

theorem literalMatches_overloads (n : Nat) :
    (overloads n).literalMatches "get" = (List.range n).map getMethod := by
  refine filter_eq_self.mpr fun r hr => ?_
  obtain ⟨i, -, rfl⟩ := mem_map.mp hr
  have hlike : like (Text.toAsciiLowercase "get") (containing "get") = true := by
    decide
  simp only [getMethod, hlike, Bool.true_or]

/-- Behind 256 hidden overloads the visible one is not found. -/
theorem searchNodesLiteral_underfills :
    searchNodesLiteral (overloads 257) "get" 1 (some fun n => n.lineStart == 256) = [] ∧
      firstVisible 1 (some fun n => n.lineStart == 256) ((overloads 257).literalMatches "get") =
        [getMethod 256] := by
  rw [searchNodesLiteral, literalMatches_overloads]
  decide +kernel

end WeaveGraph.SqliteStorage
