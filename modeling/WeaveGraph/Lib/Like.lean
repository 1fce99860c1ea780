import Mathlib.Data.List.Infix
import WeaveGraph.Lib.Text

/-!
# `LIKE` patterns

`text LIKE pattern ESCAPE '\'`: `%` stands for any text, `_` for any character, and a character
behind a backslash for itself.  Letters are compared without regard to ASCII case.

A text put between two `%` after its special characters are escaped matches what contains it
(`like_containing`).  Without `ESCAPE` a backslash stands for itself; a pattern then still matches
its own text (`likePlain_append`).
-/

namespace Lib.Like

open List Lib.Text

inductive Item where
  | any
  | one
  | lit (c : Char)
deriving Repr, DecidableEq

/-- A pattern that ends in the escape character matches nothing. -/
def items : List Char → Option (List Item)
  | [] => some []
  | '\\' :: c :: p => (items p).map (.lit c :: ·)
  | ['\\'] => none
  | '%' :: p => (items p).map (.any :: ·)
  | '_' :: p => (items p).map (.one :: ·)
  | c :: p => (items p).map (.lit c :: ·)

def matchItems : List Item → List Char → Bool
  | [], text => text.isEmpty
  | .any :: p, text => text.tails.any fun rest => matchItems p rest
  | .one :: p, _ :: text => matchItems p text
  | .lit c :: p, d :: text => asciiLowerChar c == asciiLowerChar d && matchItems p text
  | _ :: _, [] => false

def like (text pattern : String) : Bool :=
  match items pattern.toList with
  | some p => matchItems p text.toList
  | none => false

/-- The items of a pattern without `ESCAPE`. -/
def plainItem (c : Char) : Item :=
  if c = '%' then .any else if c = '_' then .one else .lit c

/-- `text LIKE pattern`. -/
def likePlain (text pattern : String) : Bool :=
  matchItems (pattern.toList.map plainItem) text.toList

/-- `s.replace(c, with)`. -/
def replaceChar (c : Char) (new : List Char) (s : List Char) : List Char :=
  s.flatMap fun d => if d = c then new else [d]

/-- The backslash first, so that those written for the other two are not escaped again. -/
def escape (s : List Char) : List Char :=
  replaceChar '_' ['\\', '_'] (replaceChar '%' ['\\', '%'] (replaceChar '\\' ['\\', '\\'] s))

/-- The pattern for texts that contain `s`. -/
def containing (s : String) : String := String.ofList ('%' :: escape s.toList ++ ['%'])

/-! ## Escaped text stands for itself -/

theorem escape_cons (c : Char) (s : List Char) :
    escape (c :: s) = (if c = '\\' ∨ c = '%' ∨ c = '_' then ['\\', c] else [c]) ++ escape s := by
  by_cases h1 : c = '\\'
  · subst h1
    simp [escape, replaceChar]
  · by_cases h2 : c = '%'
    · subst h2
      simp [escape, replaceChar]
    · by_cases h3 : c = '_'
      · subst h3
        simp [escape, replaceChar]
      · simp [escape, replaceChar, h1, h2, h3]

theorem items_escape (s p : List Char) :
    items (escape s ++ p) = (items p).map (s.map Item.lit ++ ·) := by
  induction s with
  | nil => simp [escape, replaceChar]
  | cons c s ih =>
    rw [escape_cons]
    have hmap : ((items p).map (s.map Item.lit ++ ·)).map (Item.lit c :: ·) =
        (items p).map ((c :: s).map Item.lit ++ ·) := by
      rw [Option.map_map]
      rfl
    split
    · rw [← hmap, ← ih]
      simp [items]
    · rename_i hc
      rw [not_or, not_or] at hc
      rw [← hmap, ← ih]
      simp [items, hc]

theorem matchItems_any_nil (text : List Char) : matchItems [.any] text = true := by
  simp only [matchItems, any_eq_true, mem_tails]
  exact ⟨[], nil_suffix, rfl⟩

theorem matchItems_plain (s : List Char) {rest : List Item} {text : List Char}
    (h : matchItems rest text = true) :
    matchItems (s.map plainItem ++ rest) (s ++ text) = true := by
  induction s with
  | nil => exact h
  | cons c s ih =>
    rw [map_cons, cons_append, cons_append, plainItem]
    split
    · simp only [matchItems, any_eq_true, mem_tails]
      exact ⟨s ++ text, suffix_cons c _, ih⟩
    · split
      · exact ih
      · simp only [matchItems, beq_self_eq_true, Bool.true_and]
        exact ih

theorem likePlain_append (s t : String) : likePlain (s ++ t) (s ++ "%") = true := by
  unfold likePlain
  rw [String.toList_append, String.toList_append, map_append]
  exact matchItems_plain s.toList (matchItems_any_nil t.toList)

theorem matchItems_append (p q : List Item) : ∀ text : List Char, matchItems (p ++ q) text = true ↔
      ∃ a b, text = a ++ b ∧ matchItems p a = true ∧ matchItems q b = true := by
  induction p with
  | nil =>
    intro text
    constructor
    · exact fun h => ⟨[], text, rfl, rfl, h⟩
    · rintro ⟨a, b, rfl, ha, hb⟩
      obtain rfl : a = [] := by simpa [matchItems] using ha
      exact hb
  | cons item p ih =>
    intro text
    cases item with
    | any =>
      simp only [cons_append, matchItems, any_eq_true, mem_tails]
      constructor
      · rintro ⟨_, ⟨front, rfl⟩, hrest⟩
        obtain ⟨a, b, rfl, ha, hb⟩ := (ih _).mp hrest
        exact ⟨front ++ a, b, by simp, ⟨a, suffix_append front a, ha⟩, hb⟩
      · rintro ⟨_, b, rfl, ⟨a, ⟨front, rfl⟩, ha⟩, hb⟩
        exact ⟨a ++ b, ⟨front, by simp⟩, (ih _).mpr ⟨a, b, rfl, ha, hb⟩⟩
    | one =>
      cases text with
      | nil =>
        constructor
        · intro h
          cases h
        · rintro ⟨a, b, he, ha, -⟩
          obtain rfl : a = [] := (append_eq_nil_iff.mp he.symm).1
          cases ha
      | cons d text =>
        simp only [cons_append, matchItems, ih]
        constructor
        · rintro ⟨a, b, rfl, ha, hb⟩
          exact ⟨d :: a, b, rfl, ha, hb⟩
        · rintro ⟨a, b, he, ha, hb⟩
          cases a with
          | nil => cases ha
          | cons c a =>
            cases he
            exact ⟨a, b, rfl, ha, hb⟩
    | lit c =>
      cases text with
      | nil =>
        constructor
        · intro h
          cases h
        · rintro ⟨a, b, he, ha, -⟩
          obtain rfl : a = [] := (append_eq_nil_iff.mp he.symm).1
          cases ha
      | cons d text =>
        simp only [cons_append, matchItems, Bool.and_eq_true, ih]
        constructor
        · rintro ⟨hc, a, b, rfl, ha, hb⟩
          exact ⟨d :: a, b, rfl, by simpa [matchItems, ha] using hc, hb⟩
        · rintro ⟨a, b, he, ha, hb⟩
          cases a with
          | nil => cases ha
          | cons e a =>
            cases he
            simp only [matchItems, Bool.and_eq_true] at ha
            exact ⟨ha.1, a, b, rfl, ha.2, hb⟩

theorem matchItems_lit (s : List Char) : ∀ text : List Char,
    matchItems (s.map Item.lit ++ [.any]) text =
      (s.map asciiLowerChar).isPrefixOf (text.map asciiLowerChar) := by
  induction s with
  | nil =>
    intro text
    rw [map_nil, nil_append, matchItems_any_nil]
    rfl
  | cons c s ih =>
    intro text
    cases text with
    | nil => rfl
    | cons d text =>
      simp only [map_cons, cons_append, matchItems, ih, List.isPrefixOf]

theorem tails_any_prefix (p : List Char) : ∀ text : List Char,
    (text.tails.any fun rest => p.isPrefixOf (rest.map asciiLowerChar)) =
      containsList p (text.map asciiLowerChar) := by
  intro text
  induction text with
  | nil => cases p <;> simp [containsList]
  | cons d text ih =>
    rw [tails_cons, any_cons, ih]
    rfl

theorem like_containing (text s : String) :
    like text (containing s) = contains (toAsciiLowercase text) (toAsciiLowercase s) := by
  have hitems : items (containing s).toList = some (.any :: (s.toList.map Item.lit ++ [.any])) := by
    rw [containing, String.toList_ofList, cons_append]
    simp [items, items_escape]
  rw [like, hitems]
  simp only [matchItems, matchItems_lit, tails_any_prefix]
  simp [Text.contains, toAsciiLowercase]

variable {c : Char}

theorem toNat_asciiLowerChar (h : 65 ≤ c.toNat ∧ c.toNat ≤ 90) :
    (asciiLowerChar c).toNat = c.toNat + 32 := by
  have hlower : asciiLowerChar c = Char.ofNat (c.toNat + 32) := by simp [asciiLowerChar, h]
  have hvalid : (c.toNat + 32).isValidChar := Or.inl (by omega)
  rw [hlower, Char.ofNat, dif_pos hvalid]
  rfl

theorem asciiLowerChar_of_not (h : ¬ (65 ≤ c.toNat ∧ c.toNat ≤ 90)) : asciiLowerChar c = c := by
  have hc : (decide (65 ≤ c.toNat) && decide (c.toNat ≤ 90)) = false := by simpa using h
  simp [asciiLowerChar, hc]

theorem asciiLowerChar_idem (c : Char) : asciiLowerChar (asciiLowerChar c) = asciiLowerChar c := by
  by_cases h : 65 ≤ c.toNat ∧ c.toNat ≤ 90
  · refine asciiLowerChar_of_not ?_
    rw [toNat_asciiLowerChar h]
    omega
  · rw [asciiLowerChar_of_not h, asciiLowerChar_of_not h]

theorem asciiLowerChar_eq_slash : asciiLowerChar c = '/' ↔ c = '/' := by
  by_cases h : 65 ≤ c.toNat ∧ c.toNat ≤ 90
  · -- neither a capital letter nor its small one is a slash
    have hlower : asciiLowerChar c ≠ '/' := by
      intro he
      have hval := toNat_asciiLowerChar h
      rw [he] at hval
      have : ('/' : Char).toNat = 47 := rfl
      omega
    have hc : c ≠ '/' := by
      rintro rfl
      exact absurd h (by decide)
    exact iff_of_false hlower hc
  · rw [asciiLowerChar_of_not h]

theorem likePlain_below (path pre : String) :
    likePlain path (pre ++ "/%") = true ↔
      ∃ dir rest, path = dir ++ "/" ++ rest ∧ likePlain dir pre = true := by
  have hpattern : (pre ++ "/%").toList.map plainItem =
      pre.toList.map plainItem ++ [.lit '/', .any] := by
    rw [String.toList_append, map_append]
    rfl
  unfold likePlain
  rw [hpattern, matchItems_append]
  constructor
  · rintro ⟨a, b, hpath, ha, hb⟩
    cases b with
    | nil => cases hb
    | cons d rest =>
      simp only [matchItems, Bool.and_eq_true, beq_iff_eq] at hb
      obtain rfl : d = '/' := asciiLowerChar_eq_slash.mp hb.1.symm
      refine ⟨String.ofList a, String.ofList rest, String.toList_inj.mp ?_, by simpa using ha⟩
      simp [hpath]
  · rintro ⟨dir, rest, rfl, hdir⟩
    refine ⟨dir.toList, '/' :: rest.toList, by simp, hdir, ?_⟩
    exact matchItems_any_nil rest.toList

theorem toAsciiLowercase_idem (s : String) :
    toAsciiLowercase (toAsciiLowercase s) = toAsciiLowercase s := by
  simp [toAsciiLowercase, Function.comp_def, asciiLowerChar_idem]

end Lib.Like
