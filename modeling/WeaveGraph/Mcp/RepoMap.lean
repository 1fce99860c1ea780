import WeaveGraph.Lib.Joined
import WeaveGraph.Mcp.Tools
import WeaveGraph.Store.Rows

/-!
# The repository map under a token budget

With `max_tokens` set, `weave_repo_map` adds files in the order of the ranking while the whole text
fits, and stops at `max_files` as well.  Each file adds words, so

    the map lists the longest prefix of the ranking that fits
      ↔  `max_files` covers all files or the first prefix beyond it does not fit
                                                              (weaveRepoMap_longest_iff)
-/

namespace WeaveGraph.Mcp

open List Lib.Text

/-- The map of the first `k` files. -/
def mapText (files : List FileTotals) (k : Nat) : String :=
  repoMapHeader k files.length ++ "\n" ++ joinLines ((files.take k).map FileTotals.line)

/-- The text lists the longest prefix that fits the budget, or nothing when none does. -/
def ListsLongest (files : List FileTotals) (max : Nat) (text : String) : Prop :=
  ∃ k ≤ files.length, text = mapText files k ∧ (k = 0 ∨ estimateTokens (mapText files k) ≤ max) ∧
    ∀ j ≤ files.length, estimateTokens (mapText files j) ≤ max → j ≤ k

/-! ## Words -/

theorem splitWhitespace_newline (a b : String) :
    splitWhitespace (a ++ "\n" ++ b) = splitWhitespace a ++ splitWhitespace b :=
  splitWhitespace_separator (c := '\n') rfl

theorem splitWhitespace_joinLines (lines : List String) :
    splitWhitespace (joinLines lines) = lines.flatMap splitWhitespace := by
  unfold joinLines
  induction lines with
  | nil => rfl
  | cons line lines ih =>
    cases lines with
    | nil => simp
    | cons next rest =>
      rw [String.intercalate_cons_cons, splitWhitespace_newline, ih]
      rfl

theorem length_words_line_pos (f : FileTotals) : 0 < (splitWhitespace f.line).length := by
  have hline : f.line = "  " ++ f.path ++ "  [" ++ toString f.symbols ++ " symbols, " ++
      toString f.degree ++ String.ofList [' '] ++ "edges]" := by
    simp only [FileTotals.line, String.append_assoc]
    rfl
  have hlast : splitWhitespace "edges]" = ["edges]"] :=
    splitWhitespace_word (by decide) (not_isWhitespace_of_all (by decide))
  rw [hline, splitWhitespace_separator rfl, hlast, length_append]
  exact Nat.succ_pos _

theorem length_words_header (k total : Nat) :
    (splitWhitespace (repoMapHeader k total)).length = (splitWhitespace "repo map").length + 1 +
      (splitWhitespace ("files, " ++ toString total ++ " total):")).length := by
  have hline : repoMapHeader k total = "repo map" ++ String.ofList [' '] ++
      ("(" ++ toString k ++ String.ofList [' '] ++ ("files, " ++ toString total ++ " total):")) := by
    simp only [repoMapHeader, ← String.toList_inj, String.toList_append, append_assoc]
    rfl
  have hcount : ∀ c ∈ ("(" ++ toString k).toList, isWhitespace c = false :=
    not_isWhitespace_append (not_isWhitespace_of_all (by decide)) (toString_word k).2
  rw [hline, splitWhitespace_separator rfl, splitWhitespace_separator rfl,
    splitWhitespace_word (by simp) hcount, length_append, length_append, Nat.add_assoc]
  rfl

theorem estimateTokens_mapText_lt {files : List FileTotals} {j k : Nat} (hjk : j < k)
    (hk : k ≤ files.length) :
    estimateTokens (mapText files j) < estimateTokens (mapText files k) := by
  induction k with
  | zero => omega
  | succ k ih =>
    have hstep : estimateTokens (mapText files k) < estimateTokens (mapText files (k + 1)) := by
      have hpos := length_words_line_pos files[k]
      simp only [estimateTokens, mapText, splitWhitespace_newline, splitWhitespace_joinLines,
        take_add_one, getElem?_eq_getElem hk, Option.toList_some, map_append,
        map_singleton, flatMap_append, flatMap_singleton, length_append,
        length_words_header]
      omega
    rcases Nat.lt_succ_iff_lt_or_eq.mp hjk with hlt | rfl
    · exact (ih hlt (by omega)).trans hstep
    · exact hstep

/-! ## The loop -/

/-- The loop ends at the last file, at the limit or before the first text that does not fit. -/
theorem keepLines_stops (files : List FileTotals) (max : Nat) {maxFiles i : Nat}
    (hi : i ≤ files.length) (hmax : i ≤ maxFiles) : ∃ k ≤ files.length, k ≤ maxFiles ∧
      keepLines maxFiles max files.length ((files.take i).map FileTotals.line)
        ((files.drop i).map FileTotals.line) = (files.take k).map FileTotals.line ∧
      (k = i ∨ estimateTokens (mapText files k) ≤ max) ∧
      (k = files.length ∨ k = maxFiles ∨ max < estimateTokens (mapText files (k + 1))) := by
  induction hn : files.length - i generalizing i with
  | zero =>
    obtain rfl : i = files.length := by omega
    refine ⟨_, le_rfl, hmax, ?_, .inl rfl, .inl rfl⟩
    rw [drop_length, map_nil, keepLines]
  | succ n ih =>
    have hlt : i < files.length := by omega
    have hkept : ((files.take i).map FileTotals.line).length = i := by simp [hi]
    have hnext : (files.take i).map FileTotals.line ++ [files[i].line] =
        (files.take (i + 1)).map FileTotals.line := by
      rw [take_add_one, getElem?_eq_getElem hlt, map_append]
      rfl
    rw [drop_eq_getElem_cons hlt, map_cons, keepLines, hkept, hnext]
    split
    · exact ⟨i, hi, hmax, rfl, .inl rfl, .inr (.inl (by omega))⟩
    · split
      · exact ⟨i, hi, hmax, rfl, .inl rfl, .inr (.inr ‹_›)⟩
      · rename_i hfew hfits
        obtain ⟨k, hk, hle, heq, hfit, hstop⟩ := ih hlt (by omega) (by omega)
        refine ⟨k, hk, hle, heq, .inr ?_, hstop⟩
        rcases hfit with rfl | hfit
        · exact Nat.le_of_not_lt hfits
        · exact hfit

theorem listsLongest_keepLines_iff (files : List FileTotals) (maxFiles max : Nat) :
    ListsLongest files max
      (let kept := keepLines maxFiles max files.length [] (files.map FileTotals.line)
       repoMapHeader kept.length files.length ++ "\n" ++ joinLines kept) ↔
    files.length ≤ maxFiles ∨ max < estimateTokens (mapText files (maxFiles + 1)) := by
  obtain ⟨k, hk, hle, heq, hfit, hstop⟩ :=
    keepLines_stops files max (Nat.zero_le _) (Nat.zero_le maxFiles)
  rw [take_zero, map_nil, drop_zero] at heq
  have hlen : ((files.take k).map FileTotals.line).length = k := by simp [hk]
  dsimp only
  rw [heq, hlen]
  constructor
  · rintro ⟨k', hk', hsame, -, hlongest⟩
    have hwords := congrArg estimateTokens hsame
    obtain rfl : k = k' := by
      rcases Nat.lt_trichotomy k k' with hlt | heq | hgt
      · exact absurd hwords (estimateTokens_mapText_lt hlt hk').ne
      · exact heq
      · exact absurd hwords (estimateTokens_mapText_lt hgt hk).ne'
    by_contra hno
    push Not at hno
    have := hlongest (maxFiles + 1) hno.1 hno.2
    omega
  · intro hcond
    refine ⟨k, hk, rfl, hfit, fun j hj hfits => ?_⟩
    by_contra hlt
    have hover : estimateTokens (mapText files (k + 1)) ≤ max := by
      rcases Nat.eq_or_lt_of_le (Nat.lt_of_not_le hlt) with rfl | hlt
      · exact hfits
      · exact (estimateTokens_mapText_lt hlt hj).le.trans hfits
    rcases hstop with rfl | rfl | hstop <;> omega

/-- **The map lists the longest prefix that fits** exactly when `max_files` does not end it
before. -/
theorem weaveRepoMap_longest_iff (moduleMap : List Node → List Edge → String) (s : SqliteStorage)
    (csr : CsrGraph) (maxFiles max : Nat) :
    (∀ mode ∈ [none, some false], ListsLongest (fileTotals csr s.allNodes) max
      (weaveRepoMap moduleMap s csr ⟨maxFiles, mode, some max⟩ none)) ↔
    (fileTotals csr s.allNodes).length ≤ maxFiles ∨
      max < estimateTokens (mapText (fileTotals csr s.allNodes) (maxFiles + 1)) := by
  rw [← listsLongest_keepLines_iff]
  simp [weaveRepoMap]

def twoFiles : SqliteStorage := { SqliteStorage.openFresh with
  nodes := SqliteStorage.freshNodes [⟨0, "local", "a.rs", "f", "function", 1, 2, "fn f()"⟩,
     ⟨0, "local", "b.rs", "g", "function", 1, 2, "fn g()"⟩] }

/-- Two files fit the budget easily, and one of them is listed. -/
theorem weaveRepoMap_stops_early :
    weaveRepoMap (fun _ _ => "") twoFiles (CsrGraph.load twoFiles) ⟨1, none, some 100⟩ none =
        "repo map (1 files, 2 total):\n  a.rs  [1 symbols, 0 edges]" ∧
      ¬ ListsLongest (fileTotals (CsrGraph.load twoFiles) twoFiles.allNodes) 100
        (weaveRepoMap (fun _ _ => "") twoFiles (CsrGraph.load twoFiles) ⟨1, none, some 100⟩
          none) := by
  refine ⟨by decide +kernel, fun h => ?_⟩
  rcases (listsLongest_keepLines_iff _ 1 100).mp h with h | h
  · exact absurd h (by decide +kernel)
  · exact absurd h (by decide +kernel)

end WeaveGraph.Mcp
