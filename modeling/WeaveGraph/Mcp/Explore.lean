import WeaveGraph.Lib.Joined
import WeaveGraph.Mcp.Tools

/-!
# The explore tool

`weave_explore` puts the file card, the impact radius, the call trace and a source excerpt of a
symbol into sections, omits droppable ones from the end until the rest fits the budget, and appends
a line that reports the size.  The size is that of the text before the line, so the answer is
larger by the words of the line itself (`finish_size`).
-/

namespace WeaveGraph.Mcp.Explore

open List Lib.Text
open SqliteStorage (usizeMax)

structure Section where
  heading : String
  text : String
  droppable : Bool
deriving Repr, DecidableEq

def render (sections : List Section) : String :=
  String.intercalate "\n\n" (sections.map fun s => "--- " ++ s.heading ++ " ---\n" ++ s.text)

/-- What `with_resident_line` appends. -/
def residentLine (resident : Nat) (maxTokens : Option Nat) : String :=
  "\n\n[explore] resident_tokens: " ++ toString resident ++
    maxTokens.elim "" fun budget => " (budget: " ++ toString budget ++ ")"

def withResidentLine (text : String) (maxTokens : Option Nat) : String :=
  text ++ residentLine (estimateTokens text) maxTokens

def Section.omit (s : Section) : Section :=
  if s.droppable then ⟨s.heading, "(omitted: over max_tokens budget)", false⟩ else s

/-- Omits the last droppable section. -/
def shedLast : List Section → Option (List Section)
  | [] => none
  | s :: rest =>
    match shedLast rest with
    | some rest => some (s :: rest)
    | none => if s.droppable then some (s.omit :: rest) else none

/-- The loop of `finish`; every pass but the last omits a section. -/
def finishLoop (budget : Nat) : Nat → List Section → String
  | 0, sections => withResidentLine (render sections) (some budget)
  | passes + 1, sections =>
    if estimateTokens (render sections) ≤ budget then
      withResidentLine (render sections) (some budget)
    else
      match shedLast sections with
      | some sections => finishLoop budget passes sections
      | none => withResidentLine (render sections) (some budget)

def finish (sections : List Section) : Option Nat → String
  | none => withResidentLine (render sections) none
  | some budget => finishLoop budget (sections.countP Section.droppable) sections

/-- The sections for a symbol that is found, from the texts of the tools. -/
def exploreSections (target : Node) (cards impact trace excerpt : String) : List Section :=
  [⟨"file API (" ++ target.path ++ ")", cards, false⟩,
   ⟨"impact radius", impact, true⟩,
   ⟨"call trace (depth 2)", trace, true⟩,
   ⟨"source excerpt (" ++ target.path ++ ":L" ++ toString target.lineStart ++ "-" ++
      toString target.lineEnd ++ ")", excerpt, true⟩]

/-! ## The words of the size line -/

def residentWords (resident : Nat) (maxTokens : Option Nat) : List String :=
  ["[explore]", "resident_tokens:", toString resident] ++
    maxTokens.elim [] fun budget => ["(budget:", toString budget ++ ")"]

theorem splitWhitespace_explore (text rest : String) :
    splitWhitespace (text ++ ("\n\n[explore] resident_tokens: " ++ rest)) =
      splitWhitespace text ++ "[explore]" :: "resident_tokens:" :: splitWhitespace rest := by
  have hline : text ++ ("\n\n[explore] resident_tokens: " ++ rest) =
      text ++ String.ofList ['\n'] ++ ("" ++ String.ofList ['\n'] ++
        ("[explore]" ++ " " ++ ("resident_tokens:" ++ " " ++ rest))) := by
    simp only [← String.toList_inj, String.toList_append, append_assoc,
      append_cancel_left_eq]
    rfl
  rw [hline, splitWhitespace_separator rfl, splitWhitespace_separator rfl,
    splitWhitespace_append (by decide) (not_isWhitespace_of_all (by decide)),
    splitWhitespace_append (by decide) (not_isWhitespace_of_all (by decide))]
  simp [splitWhitespace, splitList]

theorem splitWhitespace_budget (budget : Nat) {s : String} (hne : s ≠ "")
    (hs : ∀ c ∈ s.toList, isWhitespace c = false) :
    splitWhitespace (s ++ (" (budget: " ++ toString budget ++ ")")) =
      [s, "(budget:", toString budget ++ ")"] := by
  have hline : s ++ (" (budget: " ++ toString budget ++ ")") =
      s ++ " " ++ ("(budget:" ++ " " ++ (toString budget ++ ")")) := by
    simp only [← String.toList_inj, String.toList_append, append_assoc,
      append_cancel_left_eq]
    rfl
  have hlast : ∀ c ∈ (toString budget ++ ")").toList, isWhitespace c = false :=
    not_isWhitespace_append (toString_word budget).2 (not_isWhitespace_of_all (by decide))
  rw [hline, splitWhitespace_append hne hs,
    splitWhitespace_append (by decide) (not_isWhitespace_of_all (by decide)),
    splitWhitespace_word (by simp) hlast]

theorem splitWhitespace_residentLine (text : String) (resident : Nat) (maxTokens : Option Nat) :
    splitWhitespace (text ++ residentLine resident maxTokens) =
      splitWhitespace text ++ residentWords resident maxTokens := by
  obtain ⟨hne, hword⟩ := toString_word resident
  unfold residentLine residentWords
  rw [String.append_assoc, splitWhitespace_explore]
  cases maxTokens with
  | none => simp only [Option.elim_none, String.append_empty, splitWhitespace_word hne hword,
      append_nil]
  | some budget => simp only [Option.elim_some, splitWhitespace_budget budget hne hword,
      cons_append, nil_append]

theorem estimateTokens_withResidentLine (text : String) (maxTokens : Option Nat) :
    estimateTokens (withResidentLine text maxTokens) =
      estimateTokens text + if maxTokens.isSome then 5 else 3 := by
  rw [estimateTokens, withResidentLine, splitWhitespace_residentLine, length_append,
    estimateTokens]
  cases maxTokens <;> rfl

/-! ## Shedding -/

theorem omit_shedLast {sections next : List Section} (h : shedLast sections = some next) :
    next.map Section.omit = sections.map Section.omit ∧
    next.countP Section.droppable + 1 = sections.countP Section.droppable := by
  induction sections generalizing next with
  | nil => cases h
  | cons s rest ih =>
    unfold shedLast at h
    cases hrest : shedLast rest with
    | some rest' =>
      rw [hrest] at h
      cases h
      obtain ⟨homit, hcount⟩ := ih hrest
      simp only [map_cons, homit, countP_cons, ← hcount, true_and]
      omega
    | none =>
      rw [hrest] at h
      cases hs : s.droppable with
      | false => simp [hs] at h
      | true =>
        obtain rfl : s.omit :: rest = next := by simpa [hs] using h
        simp [Section.omit, hs]

theorem map_omit_of_shedLast {sections : List Section} (h : shedLast sections = none) :
    sections.map Section.omit = sections := by
  induction sections with
  | nil => rfl
  | cons s rest ih =>
    unfold shedLast at h
    cases hrest : shedLast rest with
    | some rest' => simp [hrest] at h
    | none => simp_all [Section.omit]

/-- The loop ends with a text that fits, or with every droppable section omitted. -/
theorem finishLoop_ends (budget : Nat) {passes : Nat} {sections : List Section}
    (hp : sections.countP Section.droppable = passes) :
    ∃ kept, finishLoop budget passes sections = withResidentLine (render kept) (some budget) ∧
      (estimateTokens (render kept) ≤ budget ∨ kept = sections.map Section.omit) := by
  induction passes generalizing sections with
  | zero =>
    refine ⟨sections, rfl, .inr ?_⟩
    cases h : shedLast sections with
    | none => exact (map_omit_of_shedLast h).symm
    | some next => exact absurd (omit_shedLast h).2 (by omega)
  | succ passes ih =>
    unfold finishLoop
    split
    · exact ⟨sections, rfl, .inl ‹_›⟩
    · cases h : shedLast sections with
      | none => exact ⟨sections, rfl, .inr (map_omit_of_shedLast h).symm⟩
      | some next =>
        obtain ⟨homit, hcount⟩ := omit_shedLast h
        rw [← homit]
        exact ih (by omega)

theorem finish_of_le {sections : List Section} {budget : Nat}
    (h : estimateTokens (render sections) ≤ budget) :
    finish sections (some budget) = withResidentLine (render sections) (some budget) := by
  unfold finish
  cases sections.countP Section.droppable with
  | zero => rfl
  | succ passes => exact if_pos h

/-- The number printed is the size of the text above the line, that of the answer less the words
of the line.  The answer exceeds the budget by more than those only if every droppable section has
been omitted. -/
theorem finish_size (sections : List Section) (maxTokens : Option Nat) : ∃ text n,
    finish sections maxTokens = text ++ residentLine n maxTokens ∧ n = estimateTokens text ∧
    estimateTokens (finish sections maxTokens) = n + (if maxTokens.isSome then 5 else 3) ∧
    ∀ budget ∈ maxTokens, budget + 5 < estimateTokens (finish sections maxTokens) →
      text = render (sections.map Section.omit) := by
  cases maxTokens with
  | none => exact ⟨_, _, rfl, rfl, estimateTokens_withResidentLine _ none, nofun⟩
  | some budget =>
    obtain ⟨kept, h, hends⟩ := finishLoop_ends budget (Eq.refl (sections.countP Section.droppable))
    have hanswer : finish sections (some budget) = withResidentLine (render kept) (some budget) := h
    have hsize := estimateTokens_withResidentLine (render kept) (some budget)
    rw [hanswer, hsize]
    refine ⟨_, _, rfl, rfl, rfl, ?_⟩
    rintro _ ⟨⟩ hover
    rcases hends with hfits | rfl
    · exact absurd hover (by simpa using hfits)
    · rfl

/-- A symbol without callers or callees and a budget that its sections just meet: nothing is
omitted, the number printed is the budget, and the answer is five words over it. -/
theorem finish_exceeds :
    let sections := exploreSections ⟨1, "", "a.py", "f", "function", 1, 2, ""⟩
      "a.py:\n  f [function] L1-2\n" (impactFull "f" []) (renderChains "f" [] [] usizeMax)
      "def f():\n    pass"
    let budget := estimateTokens (render sections)
    let answer := finish sections (some budget)
    answer = render sections ++ residentLine budget (some budget) ∧
      estimateTokens answer = budget + 5 := by
  intro sections budget answer
  have hanswer : answer = withResidentLine (render sections) (some budget) := finish_of_le le_rfl
  rw [hanswer]
  exact ⟨rfl, estimateTokens_withResidentLine (render sections) (some budget)⟩

end WeaveGraph.Mcp.Explore
