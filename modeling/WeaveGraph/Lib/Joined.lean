import WeaveGraph.Lib.Text

/-!
# Joined text

A text that joins pieces with a separator is cut back into them if no piece has the separator:
fields with `splitn`, records with `lines`, numbers with `parseUnsigned`.  A last field may follow
anything, since it is cut off at the last separator, and a name ends in its suffix.
-/

namespace Lib.Text

open List

/-! ## Pieces -/

theorem splitList_of_forall {p : Char → Bool} {l : List Char} (h : ∀ c ∈ l, p c = false) :
    splitList p l = [l] := by
  induction l with
  | nil => rfl
  | cons c l ih =>
    rw [splitList, h c mem_cons_self, ih fun d hd => h d (mem_cons_of_mem c hd)]
    rfl

variable {c : Char} {s a b : String} {l : List String} {n width bits : Nat}

theorem beq_eq_false_of_not_mem (h : c ∉ s.toList) : ∀ d ∈ s.toList, (d == c) = false := by
  intro d hd
  rw [beq_eq_false_iff_ne]
  rintro rfl
  exact h hd

theorem splitChar_intercalate (hl : l ≠ []) (h : ∀ s ∈ l, c ∉ s.toList) :
    splitChar c ((String.ofList [c]).intercalate l) = l := by
  induction l with
  | nil => exact absurd rfl hl
  | cons s l ih =>
    have hs := beq_eq_false_of_not_mem (h s mem_cons_self)
    cases l with
    | nil =>
      rw [String.intercalate_singleton, splitChar, splitList_of_forall hs, map_singleton,
        String.ofList_toList]
    | cons t l =>
      have htail := ih (cons_ne_nil t l) fun u hu => h u (mem_cons_of_mem s hu)
      rw [splitChar] at htail
      rw [String.intercalate_cons_cons, splitChar, String.toList_append, String.toList_append,
        String.toList_ofList, append_assoc, singleton_append,
        splitList_append hs (beq_self_eq_true c), map_cons, String.ofList_toList, htail]

/-- Lines that are joined by line ends are read back, if none of them is empty or ends in a
carriage return. -/
theorem lines_intercalate (h : ∀ s ∈ l, '\n' ∉ s.toList)
    (hend : ∀ s ∈ l, ∃ c, s.toList.getLast? = some c ∧ c ≠ '\r') :
    lines (String.intercalate "\n" l) = l := by
  by_cases hl : l = []
  · subst hl
    rfl
  have hsplit : splitChar '\n' (String.intercalate "\n" l) = l := splitChar_intercalate hl h
  have hlast : l.getLast? ≠ some "" := by
    intro hempty
    obtain ⟨c, hc, -⟩ := hend "" (mem_of_getLast? hempty)
    cases hc
  have hstrip : ∀ s ∈ l, (stripSuffix s "\r").getD s = s := by
    intro s hs
    obtain ⟨c, hc, hne⟩ := hend s hs
    have hnot : ¬ endsWith s "\r" = true := by
      intro hsuffix
      obtain ⟨init, hinit⟩ := isSuffixOf_iff_suffix.mp hsuffix
      rw [← hinit] at hc
      exact hne (by simpa using hc.symm)
    rw [stripSuffix, if_neg hnot]
    rfl
  unfold lines
  rw [hsplit]
  dsimp only
  rw [if_neg hlast]
  exact (map_congr_left hstrip).trans (map_id l)

theorem lines_intercalate_crlf {last : String} (h : ∀ s ∈ l, '\n' ∉ s.toList)
    (hlast : '\n' ∉ last.toList) (hend : ∃ c, last.toList.getLast? = some c ∧ c ≠ '\r') :
    lines (String.intercalate "\r\n" (l ++ [last])) = l ++ [last] := by
  induction l with
  | nil =>
    have hone := lines_intercalate (l := [last]) (by simpa using hlast) (by simpa using hend)
    rw [String.intercalate_singleton] at hone
    rw [nil_append, String.intercalate_singleton, hone]
  | cons s l ih =>
    obtain ⟨t, m, htail⟩ := exists_cons_of_ne_nil (l := l ++ [last]) (by simp)
    have hrest := ih fun u hu => h u (mem_cons_of_mem s hu)
    rw [cons_append, htail, String.intercalate_cons_cons, ← htail,
      lines_crlf (h s mem_cons_self), hrest]

/-! ## Words -/

theorem splitList_separator {p : Char → Bool} {x : Char} (hx : p x = true) (l m : List Char) :
    splitList p (l ++ x :: m) = splitList p l ++ splitList p m := by
  induction l with
  | nil => simp [splitList, hx]
  | cons c l ih =>
    obtain ⟨w, ws, h⟩ := exists_cons_of_ne_nil (splitList_ne_nil p l)
    rw [cons_append, splitList, splitList, ih, h]
    cases p c <;> rfl

theorem splitWhitespace_separator (hc : isWhitespace c = true) :
    splitWhitespace (a ++ String.ofList [c] ++ b) = splitWhitespace a ++ splitWhitespace b := by
  simp [splitWhitespace, String.toList_append, splitList_separator hc]

theorem not_isWhitespace_of_all (h : s.toList.all (fun c => !isWhitespace c) = true) :
    ∀ c ∈ s.toList, isWhitespace c = false := by
  simpa using h

theorem not_isWhitespace_append (ha : ∀ c ∈ a.toList, isWhitespace c = false)
    (hb : ∀ c ∈ b.toList, isWhitespace c = false) :
    ∀ c ∈ (a ++ b).toList, isWhitespace c = false := by
  intro c hc
  rw [String.toList_append, mem_append] at hc
  exact hc.elim (ha c) (hb c)

theorem splitWhitespace_word (hne : s ≠ "") (hs : ∀ c ∈ s.toList, isWhitespace c = false) :
    splitWhitespace s = [s] := by
  simp [splitWhitespace, splitList_of_forall hs, hne]

theorem splitWhitespace_append (hne : s ≠ "") (hs : ∀ c ∈ s.toList, isWhitespace c = false)
    (rest : String) : splitWhitespace (s ++ " " ++ rest) = s :: splitWhitespace rest := by
  rw [show " " = String.ofList [' '] from rfl, splitWhitespace_separator rfl,
    splitWhitespace_word hne hs]
  rfl

theorem not_isWhitespace_of_isDigit (h : c.isDigit = true) : isWhitespace c = false := by
  simp only [Char.isDigit, Bool.and_eq_true, decide_eq_true_eq, UInt32.le_iff_toNat_le] at h
  have hlow : 48 ≤ c.toNat := h.1
  have hhigh : c.toNat ≤ 57 := h.2
  simp only [isWhitespace, Bool.or_eq_false_iff, Bool.and_eq_false_iff, decide_eq_false_iff_not,
    beq_eq_false_iff_ne]
  omega

/-! ## Fields -/

theorem splitOnce_append (ha : c ∉ a.toList) (b : String) :
    splitOnce c (a ++ String.ofList [c] ++ b) = some (a, b) := by
  have hlist : (a ++ String.ofList [c] ++ b).toList = a.toList ++ c :: b.toList := by
    rw [String.toList_append, String.toList_append, String.toList_ofList, append_assoc]
    rfl
  have hskip : ∀ d ∈ a.toList, (decide (d ≠ c)) = true := by
    intro d hd
    rw [decide_eq_true_iff]
    rintro rfl
    exact ha hd
  have hbefore : beforeFirst c (a ++ String.ofList [c] ++ b) = a := by
    rw [String.append_assoc]
    refine beforeFirst_append c a _ ha ?_
    rw [String.toList_append, String.toList_ofList]
    rfl
  unfold splitOnce
  rw [hlist, dropWhile_append_of_pos hskip, hbefore, dropWhile_cons_of_neg (by simp)]
  simp only [String.ofList_toList]

theorem rsplitOnce_append (hb : c ∉ b.toList) (a : String) :
    rsplitOnce c (a ++ String.ofList [c] ++ b) = some (a, b) := by
  have hlist : (a ++ String.ofList [c] ++ b).toList.reverse =
      b.toList.reverse ++ c :: a.toList.reverse := by
    simp
  have hskip : ∀ d ∈ b.toList.reverse, (decide (d ≠ c)) = true := by
    intro d hd
    rw [decide_eq_true_iff]
    rintro rfl
    exact hb (mem_reverse.mp hd)
  unfold rsplitOnce
  rw [hlist, dropWhile_append_of_pos hskip, takeWhile_append_of_pos hskip,
    dropWhile_cons_of_neg (by simp), takeWhile_cons_of_neg (by simp)]
  simp

theorem stripSuffix_append (a p : String) : stripSuffix (a ++ p) p = some a := by
  have hend : endsWith (a ++ p) p = true := by
    unfold endsWith
    rw [isSuffixOf_iff_suffix, String.toList_append]
    exact suffix_append _ _
  rw [stripSuffix, if_pos hend]
  simp

theorem eq_of_stripSuffix {p : String} (h : stripSuffix s p = some a) : s = a ++ p := by
  unfold stripSuffix at h
  split at h
  · rename_i hend
    obtain ⟨init, hinit⟩ := isSuffixOf_iff_suffix.mp hend
    have hlen : s.toList.length - p.toList.length = init.length := by
      rw [← hinit, length_append, Nat.add_sub_cancel]
    have ha : a.toList = init := by
      rw [← Option.some.inj h, String.toList_ofList, hlen, ← hinit, take_left]
    rw [← String.toList_inj, String.toList_append, ha, hinit]
  · cases h

theorem append_lastSep_inj {a' b' : String} (hb : c ∉ b.toList) (hb' : c ∉ b'.toList)
    (h : a ++ String.ofList [c] ++ b = a' ++ String.ofList [c] ++ b') : a = a' ∧ b = b' := by
  have hsplit := rsplitOnce_append hb a
  rw [h, rsplitOnce_append hb' a'] at hsplit
  obtain ⟨ha, hb⟩ := Prod.mk.inj (Option.some.inj hsplit)
  exact ⟨ha.symm, hb.symm⟩

theorem append_firstSep_inj {a' b' : String} (ha : c ∉ a.toList) (ha' : c ∉ a'.toList)
    (h : a ++ String.ofList [c] ++ b = a' ++ String.ofList [c] ++ b') : a = a' ∧ b = b' := by
  have hsplit := splitOnce_append ha b
  rw [h, splitOnce_append ha' b'] at hsplit
  obtain ⟨ha, hb⟩ := Prod.mk.inj (Option.some.inj hsplit)
  exact ⟨ha.symm, hb.symm⟩

theorem splitn_intercalate (h : ∀ s ∈ l, c ∉ s.toList) :
    splitn c l.length ((String.ofList [c]).intercalate l) = l := by
  induction l with
  | nil => rfl
  | cons s l ih =>
    cases l with
    | nil => rw [String.intercalate_singleton]; rfl
    | cons t l =>
      have htail := ih fun u hu => h u (mem_cons_of_mem s hu)
      rw [String.intercalate_cons_cons, length_cons, length_cons, splitn,
        splitOnce_append (h s mem_cons_self)]
      exact congrArg (s :: ·) htail

/-! ## Searching -/

def afterFirstList (p : List Char) : List Char → Option (List Char)
  | [] => if p = [] then some [] else none
  | c :: l => if p.isPrefixOf (c :: l) then some ((c :: l).drop p.length) else afterFirstList p l

/-- The text after the first occurrence of `p`. -/
def afterFirst (p s : String) : Option String :=
  (afterFirstList p.toList s.toList).map String.ofList

/-- What is found first is the first occurrence: there is none that ends before it does. -/
theorem afterFirstList_append {p a : List Char} (hp : p ≠ [])
    (h : ¬ p <:+: a ++ p.dropLast) (b : List Char) : afterFirstList p (a ++ p ++ b) = some b := by
  induction a with
  | nil =>
    obtain ⟨c, q, rfl⟩ := exists_cons_of_ne_nil hp
    have hpre : (c :: q).isPrefixOf (c :: (q ++ b)) = true :=
      isPrefixOf_iff_prefix.mpr (prefix_append (c :: q) b)
    show afterFirstList (c :: q) (c :: (q ++ b)) = some b
    rw [afterFirstList, if_pos hpre]
    exact congrArg some drop_left
  | cons d a ih =>
    have hpre : ¬ p.isPrefixOf (d :: (a ++ p ++ b)) = true := by
      intro hpre
      refine h ?_
      have hlen : p.length ≤ (d :: a ++ p.dropLast).length := by
        rw [length_append, length_cons, length_dropLast]
        omega
      have hmid : d :: a ++ p.dropLast <+: d :: (a ++ p ++ b) := by
        refine ⟨p.getLast hp :: b, ?_⟩
        have hsplit := dropLast_append_getLast hp
        conv_rhs => rw [← hsplit]
        simp
      exact (prefix_of_prefix_length_le (List.isPrefixOf_iff_prefix.mp hpre) hmid hlen).isInfix
    have htail : ¬ p <:+: a ++ p.dropLast := fun hin => h (hin.trans (suffix_cons d _).isInfix)
    show afterFirstList p (d :: (a ++ p ++ b)) = some b
    rw [afterFirstList, if_neg hpre, ih htail]

theorem exists_first_occurrence {p l : List Char} (hp : p ≠ []) (h : p <:+: l) :
    ∃ a b, l = a ++ p ++ b ∧ ¬ p <:+: a ++ p.dropLast := by
  induction l with
  | nil => exact absurd (infix_nil.mp h) hp
  | cons c l ih =>
    by_cases hpre : p <+: c :: l
    · obtain ⟨b, hb⟩ := hpre
      refine ⟨[], b, hb.symm, fun hin => ?_⟩
      have hlen := hin.length_le
      have hpos := length_pos_iff.mpr hp
      rw [nil_append, length_dropLast] at hlen
      omega
    · have hin : p <:+: l := (infix_cons_iff.mp h).resolve_left hpre
      obtain ⟨a, b, rfl, hfirst⟩ := ih hin
      refine ⟨c :: a, b, rfl, fun hin => ?_⟩
      rcases infix_cons_iff.mp hin with hin | hin
      · refine hpre (hin.trans ?_)
        have hsplit := dropLast_append_getLast hp
        refine ⟨p.getLast hp :: b, ?_⟩
        conv_rhs => rw [← hsplit]
        simp
      · exact hfirst hin

/-! ## Numbers -/

theorem isDigit_of_mem_toString (h : c ∈ (toString n).toList) : c.isDigit = true := by
  rw [Nat.toString_eq_repr, Nat.toList_repr] at h
  exact Nat.isDigit_of_mem_toDigits (by decide) (by decide) h

theorem toString_word (n : Nat) : toString n ≠ "" ∧
    ∀ c ∈ (toString n).toList, isWhitespace c = false := by
  refine ⟨?_, fun c hc => not_isWhitespace_of_isDigit (isDigit_of_mem_toString hc)⟩
  rw [Nat.toString_eq_repr]
  exact Nat.repr_ne_empty

theorem getLast?_toString (n : Nat) :
    ∃ c, (toString n).toList.getLast? = some c ∧ c.isDigit = true := by
  have hne : (toString n).toList ≠ [] := fun h =>
    (toString_word n).1 (String.toList_eq_nil_iff.mp h)
  exact ⟨_, getLast?_eq_some_getLast hne, isDigit_of_mem_toString (getLast_mem hne)⟩

/-- `n` in decimal, filled up with zeros to `width` digits. -/
def zeroPadded (width n : Nat) : String :=
  String.ofList ((Nat.toDigits 10 n).leftpad width '0')

theorem isDigit_of_mem_zeroPadded (h : c ∈ (zeroPadded width n).toList) : c.isDigit = true := by
  rw [zeroPadded, String.toList_ofList, List.leftpad, mem_append] at h
  rcases h with h | h
  · rw [(mem_replicate.mp h).2]
    rfl
  · exact Nat.isDigit_of_mem_toDigits (by decide) (by decide) h

/-- The value of a row of digits. -/
def digitsValue (l : List Char) : Nat := l.foldl (fun n c => 10 * n + (c.toNat - 48)) 0

theorem digitsValue_toDigits (n : Nat) : digitsValue (Nat.toDigits 10 n) = n :=
  Nat.ofDigitChars_toDigits (by decide) (by decide)

theorem digitsValue_zeros (k : Nat) (l : List Char) :
    digitsValue (List.replicate k '0' ++ l) = digitsValue l := by
  induction k with
  | zero => rfl
  | succ k ih => exact ih

theorem digitsValue_zeroPadded (width n : Nat) : digitsValue (zeroPadded width n).toList = n := by
  rw [zeroPadded, String.toList_ofList, List.leftpad, digitsValue_zeros, digitsValue_toDigits]

theorem zeroPadded_inj {m : Nat} (h : zeroPadded width m = zeroPadded width n) : m = n := by
  rw [← digitsValue_zeroPadded width m, h, digitsValue_zeroPadded]

theorem toString_inj {m : Nat} (h : toString m = toString n) : m = n := by
  rw [Nat.toString_eq_repr, Nat.toString_eq_repr] at h
  have hdigits := congrArg (fun s => digitsValue s.toList) h
  simpa only [Nat.toList_repr, digitsValue_toDigits] using hdigits

theorem parseUnsigned_digits (hs : s.toList ≠ []) (hall : ∀ c ∈ s.toList, c.isDigit = true)
    (hvalue : digitsValue s.toList = n) (h : n < 2 ^ bits) : parseUnsigned bits s = some n := by
  have hplus : ∀ l, s.toList ≠ '+' :: l := by
    intro l hl
    have hdigit := hall '+' (by rw [hl]; exact mem_cons_self)
    simp at hdigit
  unfold digitsValue at hvalue
  unfold parseUnsigned
  dsimp only
  split
  · rename_i l hl
    exact absurd hl (hplus l)
  · rw [all_eq_true.mpr hall, hvalue, if_pos h, if_neg (by simpa using hs)]

theorem parseUnsigned_toString (h : n < 2 ^ bits) : parseUnsigned bits (toString n) = some n := by
  refine parseUnsigned_digits ?_ (fun c hc => isDigit_of_mem_toString hc) ?_ h
  · rw [Nat.toString_eq_repr, Nat.toList_repr]
    exact Nat.toDigits_ne_nil
  · rw [Nat.toString_eq_repr, Nat.toList_repr]
    exact digitsValue_toDigits n

theorem parseUnsigned_zeroPadded (h : n < 2 ^ bits) :
    parseUnsigned bits (zeroPadded width n) = some n := by
  refine parseUnsigned_digits ?_ (fun c hc => isDigit_of_mem_zeroPadded hc)
    (digitsValue_zeroPadded width n) h
  rw [zeroPadded, String.toList_ofList, List.leftpad]
  exact append_ne_nil_of_right_ne_nil _ Nat.toDigits_ne_nil

/-! ## Paths -/

/-- A path below `dir`; an absolute `name` replaces it. -/
def joinPath (dir name : String) : String :=
  if startsWith name "/" then name
  else if dir = "" || endsWith dir "/" then dir ++ name
  else dir ++ "/" ++ name

/-- One component that names a file: it neither stays where it is nor goes up or down. -/
def IsFileName (s : String) : Prop :=
  s ≠ "" ∧ s ≠ "." ∧ s ≠ ".." ∧ '/' ∉ s.toList ∧ '\x00' ∉ s.toList

/-- The file of that name directly in `dir`. -/
def Inside (dir path : String) : Prop := ∃ name, IsFileName name ∧ path = dir ++ "/" ++ name

theorem not_startsWith_slash (h : '/' ∉ s.toList) : startsWith s "/" = false := by
  rw [Bool.eq_false_iff]
  intro hstart
  obtain ⟨rest, rfl⟩ := startsWith_iff.mp hstart
  refine h ?_
  rw [String.toList_append]
  exact mem_append_left _ (by decide)

theorem endsWith_append_slash (hs : s ≠ "") (h : '/' ∉ s.toList) :
    a ++ s ≠ "" ∧ endsWith (a ++ s) "/" = false := by
  have hne : s.toList ≠ [] := fun hnil => hs (String.toList_eq_nil_iff.mp hnil)
  refine ⟨fun hnil => hs (String.append_eq_empty_iff.mp hnil).2, ?_⟩
  rw [Bool.eq_false_iff]
  intro hend
  have hsuffix := isSuffixOf_iff_suffix.mp hend
  rw [String.toList_append] at hsuffix
  have hone : 1 ≤ s.toList.length := length_pos_iff.mpr hne
  have hin := suffix_of_suffix_length_le hsuffix (suffix_append a.toList s.toList) hone
  exact h (hin.subset (by decide))

theorem joinPath_below {dir name : String} (hdir : dir = a ++ s) (hs : s ≠ "")
    (hsep : '/' ∉ s.toList) (hname : '/' ∉ name.toList) :
    joinPath dir name = dir ++ "/" ++ name := by
  obtain ⟨hne, hend⟩ := endsWith_append_slash (a := a) hs hsep
  rw [joinPath, not_startsWith_slash hname, hdir, hend]
  simp [hne]

theorem exists_joinPath (dir : String) :
    ∃ a, ∀ name : String, '/' ∉ name.toList → joinPath dir name = a ++ name := by
  by_cases hdir : (dir = "" || endsWith dir "/") = true
  · refine ⟨dir, fun name hname => ?_⟩
    rw [joinPath, not_startsWith_slash hname, hdir]
    rfl
  · refine ⟨dir ++ "/", fun name hname => ?_⟩
    rw [joinPath, not_startsWith_slash hname, if_neg (by decide), if_neg hdir]

end Lib.Text
