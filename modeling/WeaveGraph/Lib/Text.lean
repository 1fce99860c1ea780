import Mathlib.Data.String.Basic
import Mathlib.Data.List.Sort

/-!
# Text

The string operations of a systems language's standard library, by structural recursion on
the list of characters, so that they evaluate on concrete text.

Searching from the right (`afterLast`) takes the rightmost occurrence of the pattern;
white space is Unicode's `White_Space` property.  Paths are Unix paths, read component by
component: empty components and `.` components other than a leading one do not count.
-/

namespace Lib.Text

open List

/-! ## Searching and splitting -/

def startsWith (s p : String) : Bool := p.toList.isPrefixOf s.toList

def endsWith (s p : String) : Bool := p.toList.isSuffixOf s.toList

def containsList (p : List Char) : List Char → Bool
  | [] => p.isEmpty
  | c :: cs => p.isPrefixOf (c :: cs) || containsList p cs

def contains (s p : String) : Bool := containsList p.toList s.toList

def stripPrefix (s p : String) : Option String :=
  if startsWith s p then some (String.ofList (s.toList.drop p.toList.length)) else none

def stripSuffix (s p : String) : Option String :=
  if endsWith s p then
    some (String.ofList (s.toList.take (s.toList.length - p.toList.length)))
  else none

/-- The text before the first `c`; all of it when there is none. -/
def beforeFirst (c : Char) (s : String) : String := String.ofList (s.toList.takeWhile (· ≠ c))

/-- The text around the first `c`. -/
def splitOnce (c : Char) (s : String) : Option (String × String) :=
  match s.toList.dropWhile (· ≠ c) with
  | [] => none
  | _ :: rest => some (beforeFirst c s, String.ofList rest)

def afterLastList (p : List Char) : List Char → Option (List Char)
  | [] => none
  | c :: cs =>
    match afterLastList p cs with
    | some rest => some rest
    | none => if p.isPrefixOf (c :: cs) then some ((c :: cs).drop p.length) else none

/-- The text after the last occurrence of `p`; all of it when there is none. -/
def afterLast (p s : String) : String :=
  match afterLastList p.toList s.toList with
  | some rest => String.ofList rest
  | none => s

/-- The pieces of a list between the elements that satisfy `p`. -/
def splitList (p : Char → Bool) : List Char → List (List Char)
  | [] => [[]]
  | c :: cs =>
    if p c then [] :: splitList p cs
    else
      match splitList p cs with
      | [] => [[c]]
      | w :: ws => (c :: w) :: ws

def splitChar (c : Char) (s : String) : List String :=
  (splitList (· == c) s.toList).map String.ofList

/-- At most `n` pieces between occurrences of `c`; the last one keeps the rest. -/
def splitn (c : Char) : Nat → String → List String
  | 0, _ => []
  | 1, s => [s]
  | n + 2, s =>
    match splitOnce c s with
    | none => [s]
    | some (a, b) => a :: splitn c (n + 1) b

/-- The text around the last `c`. -/
def rsplitOnce (c : Char) (s : String) : Option (String × String) :=
  match s.toList.reverse.dropWhile (· ≠ c) with
  | [] => none
  | _ :: rest =>
    some (String.ofList rest.reverse, String.ofList (s.toList.reverse.takeWhile (· ≠ c)).reverse)

/-- Every line ended by a newline. -/
def unlines (l : List String) : String := String.join (l.map (· ++ "\n"))

/-- The lines of a text, without their line ends; a last empty line does not count. -/
def lines (s : String) : List String :=
  let pieces := splitChar '\n' s
  let pieces := if pieces.getLast? = some "" then pieces.dropLast else pieces
  pieces.map fun l => (stripSuffix l "\r").getD l

/-- A decimal number below `2 ^ bits`, with an optional `+`. -/
def parseUnsigned (bits : Nat) (s : String) : Option Nat :=
  let digits := match s.toList with
    | '+' :: l => l
    | l => l
  if digits.isEmpty || !digits.all Char.isDigit then none
  else
    let n := digits.foldl (fun n c => 10 * n + (c.toNat - 48)) 0
    if n < 2 ^ bits then some n else none

/-! ## Paths -/

/-- Drops the components at the end that do not count; a leading one always does. -/
def trimComponents : List String → List String
  | [] => []
  | first :: rest => first :: (rest.reverse.dropWhile fun c => c = "" || c = ".").reverse

def components (path : String) : List String := trimComponents (splitChar '/' path)

/-- The last component, when it names a file. -/
def fileName (path : String) : Option String :=
  match (components path).getLast? with
  | none => none
  | some name => if name = "" || name = "." || name = ".." then none else some name

def fileStem (path : String) : Option String :=
  (fileName path).map fun name =>
    match rsplitOnce '.' name with
    | none => name
    | some (stem, _) => if stem = "" then name else stem

def extension (path : String) : Option String :=
  (fileName path).bind fun name =>
    match rsplitOnce '.' name with
    | none => none
    | some (stem, ext) => if stem = "" then none else some ext

/-- The path without its last component; `none` for the root and for the empty path. -/
def parent (path : String) : Option String :=
  if components path = [""] then none
  else
    match trimComponents (components path).dropLast with
    | [] => some ""
    | [""] => some "/"
    | cs => some (String.intercalate "/" cs)

/-! ## White space and letter case -/

def isWhitespace (c : Char) : Bool :=
  let n := c.toNat
  (9 ≤ n && n ≤ 13) || n == 32 || n == 0x85 || n == 0xA0 || n == 0x1680 ||
    (0x2000 ≤ n && n ≤ 0x200A) || n == 0x2028 || n == 0x2029 || n == 0x202F || n == 0x205F ||
    n == 0x3000

def trimStartList (l : List Char) : List Char := l.dropWhile isWhitespace

def trim (s : String) : String :=
  String.ofList (trimStartList (trimStartList s.toList).reverse).reverse

/-- The maximal runs of characters that are not white space. -/
def splitWhitespace (s : String) : List String :=
  ((splitList isWhitespace s.toList).filter fun w => !w.isEmpty).map String.ofList

def asciiLowerChar (c : Char) : Char :=
  if 65 ≤ c.toNat && c.toNat ≤ 90 then Char.ofNat (c.toNat + 32) else c

def toAsciiLowercase (s : String) : String := String.ofList (s.toList.map asciiLowerChar)

def eqIgnoreAsciiCase (a b : String) : Bool := toAsciiLowercase a == toAsciiLowercase b

/-- Drops a row of equal neighbours to its first element. -/
def dedup {α : Type} [DecidableEq α] : List α → List α
  | [] => []
  | a :: l =>
    match dedup l with
    | [] => [a]
    | b :: m => if a = b then b :: m else a :: b :: m

/-- A set that lists its elements in increasing order. -/
def sortedSet (l : List String) : List String := dedup (l.insertionSort (· ≤ ·))

/-! ## Lemmas -/

theorem mem_dedup {α : Type} [DecidableEq α] {a : α} {l : List α} : a ∈ dedup l ↔ a ∈ l := by
  induction l with
  | nil => rfl
  | cons b l ih =>
    simp only [dedup]
    cases h : dedup l with
    | nil =>
      rw [h] at ih
      rw [mem_cons, mem_cons, ih]
    | cons c m =>
      rw [h] at ih
      rw [mem_cons (l := l), ← ih]
      by_cases hb : b = c
      · simp [hb]
      · simp [hb]

theorem dedup_pairwise {α : Type} [DecidableEq α] {r : α → α → Prop}
    (hanti : ∀ {a b}, r a b → r b a → a = b) {l : List α} (h : l.Pairwise r) :
    (dedup l).Pairwise fun a b => r a b ∧ a ≠ b := by
  induction l with
  | nil => exact .nil
  | cons a l ih =>
    obtain ⟨ha, h⟩ := pairwise_cons.mp h
    have hmem : ∀ b ∈ dedup l, r a b := fun b hb => ha b (mem_dedup.mp hb)
    have hl := ih h
    simp only [dedup]
    cases hd : dedup l with
    | nil => exact pairwise_singleton _ a
    | cons b m =>
      rw [hd] at hl hmem
      dsimp only
      split
      · exact hl
      · rename_i hab
        refine pairwise_cons.mpr ⟨fun c hc => ⟨hmem c hc, ?_⟩, hl⟩
        rintro rfl
        rcases mem_cons.mp hc with hcb | hcm
        · exact hab hcb
        · have hba := (pairwise_cons.mp hl).1 a hcm
          exact hab (hanti (hmem b mem_cons_self) hba.1)

theorem trimStartList_of_prefix {l w : List Char} (h : w <+: trimStartList l) :
    trimStartList w = w := by
  cases w with
  | nil => rfl
  | cons c w =>
    obtain ⟨rest, hrest⟩ := h
    have hc : isWhitespace c = false := by
      have := head?_dropWhile_not isWhitespace l
      rw [← trimStartList, ← hrest] at this
      simpa using this
    rw [trimStartList, dropWhile_cons_of_neg (by simp [hc])]

theorem trim_trim (s : String) : trim (trim s) = trim s := by
  have hprefix : (trimStartList (trimStartList s.toList).reverse).reverse <+:
      trimStartList s.toList := by
    rw [← reverse_suffix, reverse_reverse]
    exact dropWhile_suffix _
  rw [trim, trim, String.toList_ofList, trimStartList_of_prefix hprefix, reverse_reverse,
    trimStartList_of_prefix (prefix_refl _)]

variable {s a : String} {l : List String}

theorem insertionSort_eq_iff {α : Type} [LinearOrder α] {l l' : List α} :
    l.insertionSort (· ≤ ·) = l'.insertionSort (· ≤ ·) ↔ l.Perm l' := by
  constructor
  · intro h
    have hl := (perm_insertionSort (· ≤ ·) l).symm
    rw [h] at hl
    exact hl.trans (perm_insertionSort _ l')
  · intro h
    refine List.Perm.eq_of_pairwise' (pairwise_insertionSort (· ≤ ·) _)
      (pairwise_insertionSort (· ≤ ·) _) ?_
    exact (perm_insertionSort _ l).trans (h.trans (perm_insertionSort _ l').symm)

theorem mem_sortedSet : a ∈ sortedSet l ↔ a ∈ l := by
  rw [sortedSet, mem_dedup, mem_insertionSort]

theorem sortedSet_increasing (l : List String) : (sortedSet l).Pairwise (· < ·) := by
  refine (dedup_pairwise ?_ (pairwise_insertionSort (· ≤ ·) l)).imp fun h => ?_
  · exact fun hab hba => le_antisymm hab hba
  · exact lt_of_le_of_ne h.1 h.2

theorem nodup_of_sortedSet_length (h : (sortedSet l).length = l.length) : l.Nodup := by
  have hnodup : (sortedSet l).Nodup := (sortedSet_increasing l).imp ne_of_lt
  have hsub : sortedSet l ⊆ l := fun a ha => mem_sortedSet.mp ha
  exact ((subperm_of_subset hnodup hsub).perm_of_length_le h.ge).nodup_iff.mp hnodup

theorem beforeFirst_append (c : Char) (a b : String) (ha : c ∉ a.toList)
    (hb : b.toList.head? = some c) : beforeFirst c (a ++ b) = a := by
  unfold beforeFirst
  rw [String.toList_append, takeWhile_append_of_pos]
  · cases hl : b.toList with
    | nil => rw [hl] at hb; cases hb
    | cons d l =>
      rw [hl] at hb
      obtain rfl : d = c := by simpa using hb
      simp
  · intro d hd
    simp only [decide_eq_true_eq]
    rintro rfl
    exact ha hd

theorem append_sep_inj {c : Char} {w w' l l' : List Char} (hw : c ∉ w) (hw' : c ∉ w')
    (h : w ++ c :: l = w' ++ c :: l') : w = w' ∧ l = l' := by
  induction w generalizing w' with
  | nil =>
    cases w' with
    | nil => exact ⟨rfl, (List.cons.inj h).2⟩
    | cons d w' =>
      obtain ⟨rfl, -⟩ := List.cons.inj h
      exact absurd mem_cons_self hw'
  | cons d w ih =>
    cases w' with
    | nil =>
      obtain ⟨rfl, -⟩ := List.cons.inj h
      exact absurd mem_cons_self hw
    | cons e w' =>
      obtain ⟨rfl, htail⟩ := List.cons.inj h
      obtain ⟨rfl, hl⟩ := ih (fun hc => hw (mem_cons_of_mem _ hc))
        (fun hc => hw' (mem_cons_of_mem _ hc)) htail
      exact ⟨rfl, hl⟩

theorem toList_unlines_cons (s : String) (l : List String) :
    (unlines (s :: l)).toList = s.toList ++ '\n' :: (unlines l).toList := by
  simp [unlines, String.toList_join]

/-- Lines of which the first one is read back from a text of several. -/
def Readable (P : String → Prop) : Prop :=
  ∀ {s t : String}, P s → P t → ∀ {x y : List Char},
    s.toList ++ '\n' :: x = t.toList ++ '\n' :: y → s = t ∧ x = y

theorem unlines_inj {P : String → Prop} (hread : Readable P) {l' : List String} (h : ∀ s ∈ l, P s)
    (h' : ∀ s ∈ l', P s) : unlines l = unlines l' ↔ l = l' := by
  refine ⟨fun heq => ?_, congrArg unlines⟩
  replace heq := congrArg String.toList heq
  induction l generalizing l' with
  | nil =>
    cases l' with
    | nil => rfl
    | cons t l' =>
      exact absurd heq.symm (by simp [unlines])
  | cons s l ih =>
    cases l' with
    | nil =>
      exact absurd heq (by simp [unlines])
    | cons t l' =>
      rw [toList_unlines_cons, toList_unlines_cons] at heq
      obtain ⟨rfl, htail⟩ := hread (h s mem_cons_self) (h' t mem_cons_self) heq
      rw [ih (fun u hu => h u (mem_cons_of_mem _ hu))
        (fun u hu => h' u (mem_cons_of_mem _ hu)) htail]

/-! ## Leading text -/

theorem startsWith_iff {p : String} : startsWith s p = true ↔ ∃ rest, s = p ++ rest := by
  unfold startsWith
  rw [List.isPrefixOf_iff_prefix]
  constructor
  · rintro ⟨rest, h⟩
    refine ⟨String.ofList rest, String.toList_injective ?_⟩
    rw [String.toList_append, String.toList_ofList, h]
  · rintro ⟨rest, rfl⟩
    rw [String.toList_append]
    exact prefix_append _ _

theorem eq_of_stripPrefix {p rest : String} (h : stripPrefix s p = some rest) : s = p ++ rest := by
  unfold stripPrefix at h
  split at h
  · rename_i hp
    obtain ⟨r, rfl⟩ := startsWith_iff.mp hp
    rw [String.toList_append, drop_left, String.ofList_toList] at h
    rw [Option.some.inj h]
  · cases h

theorem stripPrefix_append (p rest : String) : stripPrefix (p ++ rest) p = some rest := by
  rw [stripPrefix, if_pos (startsWith_iff.mpr ⟨rest, rfl⟩), String.toList_append, drop_left,
    String.ofList_toList]

/-! ## Lines -/

theorem splitList_append {p : Char → Bool} {a : List Char} (ha : ∀ c ∈ a, p c = false) {x : Char}
    (hx : p x = true) (b : List Char) : splitList p (a ++ x :: b) = a :: splitList p b := by
  induction a with
  | nil => simp [splitList, hx]
  | cons c a ih =>
    rw [cons_append, splitList, ha c mem_cons_self, ih fun d hd => ha d (mem_cons_of_mem c hd)]
    rfl

theorem splitList_ne_nil (p : Char → Bool) (l : List Char) : splitList p l ≠ [] := by
  cases l with
  | nil => simp [splitList]
  | cons c l =>
    unfold splitList
    split
    · simp
    · split <;> simp

theorem lines_crlf (ha : '\n' ∉ a.toList) (b : String) :
    lines (a ++ "\r\n" ++ b) = a :: lines b := by
  have hsplit : splitChar '\n' (a ++ "\r\n" ++ b) = (a ++ "\r") :: splitChar '\n' b := by
    have hlist : (a ++ "\r\n" ++ b).toList = (a.toList ++ ['\r']) ++ '\n' :: b.toList := by
      simp [String.toList_append]
    have hplain : ∀ c ∈ a.toList ++ ['\r'], (c == '\n') = false := by
      intro c hc
      rw [beq_eq_false_iff_ne]
      rintro rfl
      simp [ha] at hc
    unfold splitChar
    rw [hlist, splitList_append hplain (by decide), map_cons]
    congr 1
    rw [← String.toList_inj, String.toList_ofList, String.toList_append]
    rfl
  obtain ⟨l, ls, hb⟩ := exists_cons_of_ne_nil (l := splitChar '\n' b)
    (by simpa [splitChar] using splitList_ne_nil _ _)
  have hstrip : stripSuffix (a ++ "\r") "\r" = some a := by
    have hend : endsWith (a ++ "\r") "\r" = true := by
      simp [endsWith, String.toList_append]
    rw [stripSuffix, if_pos hend]
    simp [String.toList_append]
  unfold lines
  rw [hsplit, hb]
  dsimp only
  rw [getLast?_cons_cons]
  split
  · simp [hstrip]
  · simp [hstrip]

theorem head?_lines (ha : '\n' ∉ a.toList) (b : String) :
    (lines (a ++ "\r\n" ++ b)).head? = some a := by
  rw [lines_crlf ha]
  rfl
example : afterLast "::" "a::b::c" = "c" := by decide
example : extension "a/b.tar.gz" = some "gz" ∧ extension "a/.env" = none := by decide

end Lib.Text
