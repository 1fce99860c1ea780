import Mathlib.Data.List.DropRight
import WeaveGraph.Lib.Joined
import WeaveGraph.Lib.Wire

/-!
# Requests

A request is a line of method, target and version, header lines, an empty line and a body as long
as `Content-Length` says.  `readRequest` is a careful reader: words and names are visible
characters, blanks around a value do not count, and carriage returns, line ends and zeros stand
nowhere else.  It gives back exactly the requests that are well formed:

    readRequest (r.write ++ rest) = some (r, rest)              if r.WellFormed  (readRequest_write)
    readRequest raw = some (r, rest) → r.WellFormed                             (wellFormed_of_read)
-/

namespace Lib.Http

open List Lib.Text

structure Request where
  method : String
  target : String
  version : String
  headers : List (String × String)
  body : List UInt8
deriving Repr, DecidableEq

/-! ## Writing -/

def fieldLine (h : String × String) : String := h.1 ++ ": " ++ h.2

namespace Request

def line (r : Request) : String := String.intercalate " " [r.method, r.target, r.version]

def headLines (r : Request) : List String := r.line :: r.headers.map fieldLine

def write (r : Request) : List UInt8 :=
  Wire.endedLines (r.headLines.map Wire.encode) ++ (Wire.crlf ++ r.body)

end Request

/-! ## Reading -/

def isVisible (c : Char) : Bool := 32 < c.toNat && c.toNat != 127

/-- A word of visible characters. -/
def isWord (s : String) : Bool := s != "" && s.toList.all isVisible

def isBlank (c : Char) : Bool := c == ' ' || c == '\t'

def trimBlanks (s : String) : String :=
  String.ofList ((s.toList.dropWhile isBlank).reverse.dropWhile isBlank).reverse

def readField (line : String) : Option (String × String) :=
  match splitOnce ':' line with
  | none => none
  | some (name, value) =>
    if isWord name && !value.toList.contains '\x00' then some (name, trimBlanks value) else none

def readFields : List String → Option (List (String × String))
  | [] => some []
  | line :: lines =>
    match readField line, readFields lines with
    | some h, some hs => some (h :: hs)
    | _, _ => none

/-- The length of the body; none is announced without the header. -/
def contentLength (headers : List (String × String)) : Option Nat :=
  match headers.find? fun h => eqIgnoreAsciiCase h.1 "content-length" with
  | none => some 0
  | some h =>
    if h.2 != "" && h.2.toList.all Char.isDigit then some (digitsValue h.2.toList) else none

/-- The request line and the headers; a bare carriage return spoils the head. -/
def readHead (head : String) : Option (String × String × String × List (String × String)) :=
  if (lines head).any (fun l => l.toList.contains '\r') then none
  else
    match lines head with
    | [] => none
    | first :: fields =>
      match splitChar ' ' first, readFields fields with
      | [method, target, version], some headers =>
        if isWord method && isWord target && isWord version then
          some (method, target, version, headers)
        else none
      | _, _ => none

/-- One request and what follows it. -/
def readRequest (raw : List UInt8) : Option (Request × List UInt8) :=
  match Wire.splitHead raw with
  | none => none
  | some (head, rest) =>
    match (Wire.decode head).bind readHead with
    | none => none
    | some (method, target, version, headers) =>
      match contentLength headers with
      | none => none
      | some n =>
        if n ≤ rest.length then
          some (⟨method, target, version, headers, rest.take n⟩, rest.drop n)
        else none

/-! ## Well-formed requests -/

/-- A header that is read back. -/
structure FieldOk (h : String × String) : Prop where
  name : isWord h.1 = true
  colon : ':' ∉ h.1.toList
  cr : '\r' ∉ h.2.toList
  lf : '\n' ∉ h.2.toList
  nul : '\x00' ∉ h.2.toList
  trimmed : trimBlanks h.2 = h.2

structure Request.WellFormed (r : Request) : Prop where
  method : isWord r.method = true
  target : isWord r.target = true
  version : isWord r.version = true
  headers : ∀ h ∈ r.headers, FieldOk h
  length : contentLength r.headers = some r.body.length

instance decidableFieldOk (h : String × String) : Decidable (FieldOk h) :=
  decidable_of_iff (isWord h.1 = true ∧ ':' ∉ h.1.toList ∧ '\r' ∉ h.2.toList ∧
      '\n' ∉ h.2.toList ∧ '\x00' ∉ h.2.toList ∧ trimBlanks h.2 = h.2)
    ⟨fun w => ⟨w.1, w.2.1, w.2.2.1, w.2.2.2.1, w.2.2.2.2.1, w.2.2.2.2.2⟩,
      fun w => ⟨w.name, w.colon, w.cr, w.lf, w.nul, w.trimmed⟩⟩

instance decidableWellFormed (r : Request) : Decidable r.WellFormed :=
  decidable_of_iff (isWord r.method = true ∧ isWord r.target = true ∧ isWord r.version = true ∧
      (∀ h ∈ r.headers, FieldOk h) ∧ contentLength r.headers = some r.body.length)
    ⟨fun w => ⟨w.1, w.2.1, w.2.2.1, w.2.2.2.1, w.2.2.2.2⟩,
      fun w => ⟨w.method, w.target, w.version, w.headers, w.length⟩⟩

variable {s : String} {c : Char} {headers hs : List (String × String)} {h : String × String}
  {r : Request}

theorem isWord_iff : isWord s = true ↔ s ≠ "" ∧ ∀ c ∈ s.toList, isVisible c = true := by
  simp [isWord, all_eq_true]

theorem not_mem_of_isWord (h : isWord s = true) (hc : isVisible c = false) : c ∉ s.toList := by
  intro hmem
  rw [(isWord_iff.mp h).2 c hmem] at hc
  cases hc

/-! ### Headers that are numbers -/

theorem trimBlanks_of_forall (h : ∀ c ∈ s.toList, isBlank c = false) : trimBlanks s = s := by
  have hdrop : ∀ l : List Char, (∀ c ∈ l, isBlank c = false) → l.dropWhile isBlank = l := by
    intro l hl
    cases l with
    | nil => rfl
    | cons c l => exact dropWhile_cons_of_neg (by simp [hl c mem_cons_self])
  rw [trimBlanks, hdrop _ h, hdrop _ fun c hc => h c (mem_reverse.mp hc),
    reverse_reverse, String.ofList_toList]

theorem fieldOk_number {name : String} (hname : isWord name = true)
    (hcolon : ':' ∉ name.toList) (k : Nat) : FieldOk (name, toString k) := by
  have hnot : ∀ {c : Char}, c.isDigit = false → c ∉ (toString k).toList := by
    intro c hc hmem
    rw [isDigit_of_mem_toString hmem] at hc
    cases hc
  refine ⟨hname, hcolon, hnot (by decide), hnot (by decide), hnot (by decide), ?_⟩
  refine trimBlanks_of_forall fun c hc => ?_
  rw [isBlank, Bool.or_eq_false_iff, beq_eq_false_iff_ne, beq_eq_false_iff_ne]
  constructor
  · rintro rfl
    exact hnot (by decide) hc
  · rintro rfl
    exact hnot (by decide) hc

theorem contentLength_number {n : String} {k : Nat}
    (hfind : headers.find? (fun h => eqIgnoreAsciiCase h.1 "content-length") = some (n, toString k))
    : contentLength headers = some k := by
  have hne : (toString k != "") = true := bne_iff_ne.mpr (toString_word k).1
  have hdigits : (toString k).toList.all Char.isDigit = true :=
    all_eq_true.mpr fun c hc => isDigit_of_mem_toString hc
  have hvalue : digitsValue (toString k).toList = k := by
    rw [Nat.toString_eq_repr, Nat.toList_repr]
    exact digitsValue_toDigits k
  rw [contentLength, hfind]
  dsimp only
  rw [hne, hdigits, hvalue]
  rfl

/-! ### What is written is read -/

theorem trimBlanks_space : trimBlanks (" " ++ s) = trimBlanks s := by
  have hlist : (" " ++ s).toList = ' ' :: s.toList := by simp
  rw [trimBlanks, hlist, dropWhile_cons_of_pos (by decide)]
  rfl

theorem readField_fieldLine (hok : FieldOk h) : readField (fieldLine h) = some h := by
  have hline : fieldLine h = h.1 ++ String.ofList [':'] ++ (" " ++ h.2) := by
    rw [← String.toList_inj]
    simp [fieldLine]
  have hzero : (" " ++ h.2).toList.contains '\x00' = false := by
    rw [String.toList_append, contains_eq_mem, decide_eq_false_iff_not, mem_append, not_or]
    exact ⟨by decide, hok.nul⟩
  rw [readField, hline, splitOnce_append hok.colon]
  dsimp only
  rw [hok.name, hzero, trimBlanks_space, hok.trimmed]
  rfl

theorem readFields_fieldLines (h : ∀ x ∈ hs, FieldOk x) :
    readFields (hs.map fieldLine) = some hs := by
  induction hs with
  | nil => rfl
  | cons x hs ih =>
    rw [map_cons, readFields, readField_fieldLine (h x mem_cons_self),
      ih fun y hy => h y (mem_cons_of_mem x hy)]

theorem headLines_plain (h : r.WellFormed) :
    ∀ l ∈ r.headLines, l ≠ "" ∧ '\n' ∉ l.toList ∧ '\r' ∉ l.toList := by
  have hword : ∀ {s : String}, isWord s = true → '\n' ∉ s.toList ∧ '\r' ∉ s.toList :=
    fun hs => ⟨not_mem_of_isWord hs (by decide), not_mem_of_isWord hs (by decide)⟩
  intro l hl
  rcases mem_cons.mp hl with rfl | hl
  · obtain ⟨hm, hm'⟩ := hword h.method
    obtain ⟨ht, ht'⟩ := hword h.target
    obtain ⟨hv, hv'⟩ := hword h.version
    refine ⟨?_, ?_, ?_⟩
    · simp [Request.line, String.intercalate_cons_cons]
    · simp [Request.line, String.intercalate_cons_cons, hm, ht, hv]
    · simp [Request.line, String.intercalate_cons_cons, hm', ht', hv']
  · obtain ⟨x, hx, rfl⟩ := mem_map.mp hl
    have hok := h.headers x hx
    obtain ⟨hn, hn'⟩ := hword hok.name
    refine ⟨by simp [fieldLine], ?_, ?_⟩
    · simp [fieldLine, hn, hok.lf]
    · simp [fieldLine, hn', hok.cr]

theorem lines_head (h : r.WellFormed) :
    lines (String.intercalate "\r\n" r.headLines) = r.headLines := by
  have hplain := headLines_plain h
  obtain ⟨init, last, hlast⟩ : ∃ init last, r.headLines = init ++ [last] :=
    ⟨_, _, (dropLast_append_getLast (cons_ne_nil _ _)).symm⟩
  rw [hlast] at hplain ⊢
  obtain ⟨hne, hlf, hcr⟩ := hplain last (by simp)
  have hnil : last.toList ≠ [] := fun hnil => hne (String.toList_eq_nil_iff.mp hnil)
  refine lines_intercalate_crlf (fun s hs => (hplain s (mem_append_left _ hs)).2.1) hlf
    ⟨last.toList.getLast hnil, getLast?_eq_some_getLast hnil, ?_⟩
  intro heq
  exact hcr (heq ▸ getLast_mem hnil)

theorem splitChar_line (h : r.WellFormed) :
    splitChar ' ' r.line = [r.method, r.target, r.version] := by
  refine splitChar_intercalate (cons_ne_nil _ _) fun s hs => ?_
  simp only [mem_cons, not_mem_nil, or_false] at hs
  rcases hs with rfl | rfl | rfl
  · exact not_mem_of_isWord h.method (by decide)
  · exact not_mem_of_isWord h.target (by decide)
  · exact not_mem_of_isWord h.version (by decide)

theorem readHead_head (h : r.WellFormed) : readHead (String.intercalate "\r\n" r.headLines) =
      some (r.method, r.target, r.version, r.headers) := by
  have hclean : (r.headLines.any fun l => l.toList.contains '\r') = false := by
    rw [any_eq_false]
    intro l hl
    rw [contains_eq_mem, decide_eq_true_iff]
    exact (headLines_plain h l hl).2.2
  rw [readHead, lines_head h, hclean, if_neg Bool.false_ne_true, Request.headLines]
  dsimp only
  rw [splitChar_line h, readFields_fieldLines h.headers]
  dsimp only
  rw [h.method, h.target, h.version]
  rfl

theorem readRequest_write (h : r.WellFormed) (rest : List UInt8) :
    readRequest (r.write ++ rest) = some (r, rest) := by
  have hplain : ∀ l ∈ r.headLines, l ≠ "" ∧ '\n' ∉ l.toList :=
    fun l hl => ⟨(headLines_plain h l hl).1, (headLines_plain h l hl).2.1⟩
  have hsplit : Wire.splitHead (r.write ++ rest) =
      some (Wire.encode (String.intercalate "\r\n" r.headLines), r.body ++ rest) := by
    rw [Request.write, append_assoc, append_assoc,
      Wire.splitHead_lines (Wire.encodedLines_plain hplain) (cons_ne_nil _ _),
      Wire.joinedLines_encode]
  rw [readRequest, hsplit]
  dsimp only
  rw [Wire.decode_encode, Option.bind_some, readHead_head h]
  dsimp only
  rw [h.length]
  dsimp only
  rw [if_pos (by rw [length_append]; omega), take_left, drop_left]

/-! ### What is read is well formed -/

theorem splitOnce_eq_some {a b : String} (h : splitOnce c s = some (a, b)) :
    c ∉ a.toList ∧ s.toList = a.toList ++ c :: b.toList := by
  unfold splitOnce at h
  cases hdrop : s.toList.dropWhile (fun d => decide (d ≠ c)) with
  | nil =>
    rw [hdrop] at h
    cases h
  | cons d rest =>
    rw [hdrop] at h
    obtain ⟨ha, hb⟩ := Prod.mk.inj (Option.some.inj h)
    have hd : d = c := by
      have hhead := head?_dropWhile_not (fun d => decide (d ≠ c)) s.toList
      rw [hdrop] at hhead
      simpa using hhead
    rw [← ha, ← hb, String.toList_ofList, beforeFirst, String.toList_ofList]
    constructor
    · intro hmem
      have hne := mem_takeWhile_imp hmem
      simp at hne
    · rw [← hd, ← hdrop, hd]
      exact (takeWhile_append_dropWhile).symm

theorem mem_of_mem_trimBlanks (h : c ∈ (trimBlanks s).toList) : c ∈ s.toList := by
  rw [trimBlanks, String.toList_ofList, mem_reverse] at h
  have hmem := (dropWhile_suffix isBlank).subset h
  rw [mem_reverse] at hmem
  exact (dropWhile_suffix isBlank).subset hmem

theorem trimBlanks_trimBlanks (s : String) : trimBlanks (trimBlanks s) = trimBlanks s := by
  have hstart : (trimBlanks s).toList.dropWhile isBlank = (trimBlanks s).toList := by
    have hpre : (trimBlanks s).toList <+: s.toList.dropWhile isBlank := by
      rw [trimBlanks, String.toList_ofList, ← reverse_suffix, reverse_reverse]
      exact dropWhile_suffix _
    cases hlist : (trimBlanks s).toList with
    | nil => rfl
    | cons c l =>
      rw [hlist] at hpre
      obtain ⟨rest, hrest⟩ := hpre
      have hhead := head?_dropWhile_not isBlank s.toList
      rw [← hrest] at hhead
      exact dropWhile_cons_of_neg (by simpa using hhead)
  rw [trimBlanks, hstart, trimBlanks, String.toList_ofList, reverse_reverse, dropWhile_idempotent]

theorem not_mem_of_mem_splitList {p : Char → Bool} {l w : List Char} (h : w ∈ splitList p l) :
    ∀ c ∈ w, p c = false := by
  induction l generalizing w with
  | nil =>
    obtain rfl := mem_singleton.mp h
    intro c hc
    cases hc
  | cons d l ih =>
    rw [splitList] at h
    split at h
    · rcases mem_cons.mp h with rfl | h
      · intro c hc
        cases hc
      · exact ih h
    · rename_i hd
      obtain ⟨v, vs, hsplit⟩ := exists_cons_of_ne_nil (splitList_ne_nil p l)
      rw [hsplit] at h ih
      dsimp only at h
      rcases mem_cons.mp h with rfl | h
      · intro c hc
        rcases mem_cons.mp hc with rfl | hc
        · simpa using hd
        · exact ih mem_cons_self c hc
      · exact ih (mem_cons_of_mem v h)

theorem newline_not_mem_of_mem_lines {l : String} (h : l ∈ lines s) : '\n' ∉ l.toList := by
  have hpiece : ∀ w ∈ splitChar '\n' s, '\n' ∉ w.toList := by
    intro w hw hmem
    obtain ⟨v, hv, rfl⟩ := mem_map.mp hw
    rw [String.toList_ofList] at hmem
    have := not_mem_of_mem_splitList hv '\n' hmem
    simp at this
  have hstrip : ∀ w : String, '\n' ∉ w.toList → '\n' ∉ ((stripSuffix w "\r").getD w).toList := by
    intro w hw
    cases hs : stripSuffix w "\r" with
    | none => exact hw
    | some v =>
      rw [eq_of_stripSuffix hs, String.toList_append, mem_append, not_or] at hw
      exact hw.1
  unfold lines at h
  dsimp only at h
  obtain ⟨w, hw, rfl⟩ := mem_map.mp h
  refine hstrip w (hpiece w ?_)
  split at hw
  · exact mem_of_mem_dropLast hw
  · exact hw

theorem fieldOk_of_read {line : String} (hlf : '\n' ∉ line.toList) (hcr : '\r' ∉ line.toList)
    (hread : readField line = some h) : FieldOk h := by
  unfold readField at hread
  cases hsplit : splitOnce ':' line with
  | none =>
    rw [hsplit] at hread
    cases hread
  | some x =>
    obtain ⟨name, value⟩ := x
    obtain ⟨hcolon, hline⟩ := splitOnce_eq_some hsplit
    rw [hsplit] at hread
    dsimp only at hread
    split at hread
    · rename_i hcheck
      obtain rfl := Option.some.inj hread
      simp only [Bool.and_eq_true, Bool.not_eq_true', contains_eq_mem,
        decide_eq_false_iff_not] at hcheck
      have hvalue : ∀ c, c ∉ line.toList → c ∉ (trimBlanks value).toList := by
        intro c hc hmem
        refine hc ?_
        rw [hline]
        exact mem_append_right _ (mem_cons_of_mem _ (mem_of_mem_trimBlanks hmem))
      exact ⟨hcheck.1, hcolon, hvalue _ hcr, hvalue _ hlf,
        fun hmem => hcheck.2 (mem_of_mem_trimBlanks hmem), trimBlanks_trimBlanks value⟩
    · cases hread

theorem fieldsOk_of_read {ls : List String} (hls : ∀ l ∈ ls, '\n' ∉ l.toList ∧ '\r' ∉ l.toList)
    (hread : readFields ls = some hs) : ∀ h ∈ hs, FieldOk h := by
  induction ls generalizing hs with
  | nil =>
    obtain rfl := Option.some.inj hread
    intro h hh
    cases hh
  | cons l ls ih =>
    rw [readFields] at hread
    split at hread
    · rename_i x xs hx hxs
      obtain rfl := Option.some.inj hread
      intro h hh
      rcases mem_cons.mp hh with rfl | hh
      · obtain ⟨hlf, hcr⟩ := hls l mem_cons_self
        exact fieldOk_of_read hlf hcr hx
      · exact ih (fun m hm => hls m (mem_cons_of_mem l hm)) hxs h hh
    · cases hread

theorem headOk_of_read {head method target version : String}
    (h : readHead head = some (method, target, version, headers)) :
    isWord method = true ∧ isWord target = true ∧ isWord version = true ∧
      ∀ x ∈ headers, FieldOk x := by
  unfold readHead at h
  split at h
  · cases h
  · rename_i hclean
    have hls : ∀ l ∈ lines head, '\n' ∉ l.toList ∧ '\r' ∉ l.toList := by
      intro l hl
      refine ⟨newline_not_mem_of_mem_lines hl, fun hcr => hclean ?_⟩
      rw [any_eq_true]
      exact ⟨l, hl, by rwa [contains_eq_mem, decide_eq_true_iff]⟩
    split at h
    · cases h
    · rename_i first fields hlines
      split at h
      · rename_i m t v hs hsplit hfields
        split at h
        · rename_i hwords
          obtain ⟨rfl, rfl, rfl, rfl⟩ : m = method ∧ t = target ∧ v = version ∧ hs = headers := by
            simpa using h
          simp only [Bool.and_eq_true] at hwords
          refine ⟨hwords.1.1, hwords.1.2, hwords.2, fieldsOk_of_read (fun l hl => ?_) hfields⟩
          exact hls l (hlines ▸ mem_cons_of_mem first hl)
        · cases h
      · cases h

theorem wellFormed_of_read {raw rest : List UInt8} (h : readRequest raw = some (r, rest)) :
    r.WellFormed := by
  unfold readRequest at h
  split at h
  · cases h
  · split at h
    · cases h
    · rename_i head body _ m t v hs hhead
      obtain ⟨text, -, hread⟩ := Option.bind_eq_some_iff.mp hhead
      obtain ⟨hm, ht, hv, hok⟩ := headOk_of_read hread
      split at h
      · cases h
      · rename_i n hlength
        split at h
        · rename_i hle
          obtain ⟨rfl, rfl⟩ := Prod.mk.inj (Option.some.inj h)
          refine ⟨hm, ht, hv, hok, ?_⟩
          rw [length_take, Nat.min_eq_left hle]
          exact hlength
        · cases h

/-- The reader gives back a request, with nothing behind it, exactly if it is well formed. -/
theorem readRequest_write_iff : readRequest r.write = some (r, []) ↔ r.WellFormed := by
  refine ⟨wellFormed_of_read, fun h => ?_⟩
  have hread := readRequest_write h []
  rwa [append_nil] at hread

end Lib.Http
