import Mathlib.Data.UInt

/-!
# Heads and bodies

A message is a head of lines, each ended by `\r\n`, then an empty line, then the body.  A reader
takes the head up to the first empty line and the rest as the body (`splitHead`).

    a message cut after `k` bytes:  the head did not arrive  →  no head is found
                                    it did                   →  the head and what came of the body
                                                                           (splitHead_take)

Nothing in what the reader sees tells a whole body from a part of it.
-/

namespace Lib.Wire

open List

/-! ## Text as bytes -/

def encode (s : String) : List UInt8 := s.toUTF8.data.toList

def decode (bytes : List UInt8) : Option String := String.fromUTF8? ⟨bytes.toArray⟩

theorem decode_encode (s : String) : decode (encode s) = some s := by
  have h : (⟨(encode s).toArray⟩ : ByteArray) = s.toByteArray := rfl
  unfold decode String.fromUTF8?
  rw [h, dif_pos s.isValidUTF8]
  rfl

theorem encode_append (a b : String) : encode (a ++ b) = encode a ++ encode b := by
  simp [encode]

theorem encode_eq (s : String) : encode s = s.toList.flatMap String.utf8EncodeChar := by
  unfold encode
  rw [String.toUTF8_eq_toByteArray, ← String.utf8Encode_toList, List.utf8Encode]
  simp

def newline : UInt8 := 10

theorem eq_newline_of_mem {c : Char} (h : newline ∈ String.utf8EncodeChar c) : c = '\n' := by
  have hbyte : ∀ n, newline = UInt8.ofNat n → n % 256 = 10 := by
    intro n hn
    have := congrArg UInt8.toNat hn
    simpa [newline] using this.symm
  have hval : c.val.toNat = 10 := by
    unfold String.utf8EncodeChar at h
    dsimp only at h
    split at h
    · have := hbyte _ (mem_singleton.mp h)
      omega
    · split at h
      · simp only [mem_cons, not_mem_nil, or_false] at h
        rcases h with h | h <;> have := hbyte _ h <;> omega
      · split at h
        · simp only [mem_cons, not_mem_nil, or_false] at h
          rcases h with h | h | h <;> have := hbyte _ h <;> omega
        · simp only [mem_cons, not_mem_nil, or_false] at h
          rcases h with h | h | h | h <;> have := hbyte _ h <;> omega
  exact Char.ext (UInt32.toNat_inj.mp hval)

theorem newline_not_mem_encode {s : String} (h : '\n' ∉ s.toList) : newline ∉ encode s := by
  rw [encode_eq, mem_flatMap]
  rintro ⟨c, hc, hmem⟩
  exact h (eq_newline_of_mem hmem ▸ hc)

/-! ## Lines -/

def crlf : List UInt8 := [13, newline]

def separator : List UInt8 := crlf ++ crlf

/-- The head up to the first empty line, and what follows it. -/
def splitHead : List UInt8 → Option (List UInt8 × List UInt8)
  | [] => none
  | b :: rest =>
    if separator.isPrefixOf (b :: rest) then some ([], (b :: rest).drop separator.length)
    else (splitHead rest).map fun x => (b :: x.1, x.2)

/-- Lines with their line ends. -/
def endedLines (lines : List (List UInt8)) : List UInt8 := lines.flatMap (· ++ crlf)

/-- Lines with line ends between them. -/
def joinedLines (lines : List (List UInt8)) : List UInt8 := crlf.intercalate lines

theorem encodedLines_plain {lines : List String}
    (h : ∀ line ∈ lines, line ≠ "" ∧ '\n' ∉ line.toList) :
    ∀ l ∈ lines.map encode, l ≠ [] ∧ newline ∉ l := by
  intro l hl
  obtain ⟨line, hline, rfl⟩ := mem_map.mp hl
  obtain ⟨hne, hplain⟩ := h line hline
  refine ⟨fun hnil => hne ?_, newline_not_mem_encode hplain⟩
  have := decode_encode line
  rw [hnil] at this
  exact (Option.some.inj this).symm

theorem joinedLines_encode (lines : List String) :
    joinedLines (lines.map encode) = encode (String.intercalate "\r\n" lines) := by
  induction lines with
  | nil => rfl
  | cons a lines ih =>
    cases lines with
    | nil => simp [joinedLines]
    | cons b lines =>
      rw [String.intercalate_cons_cons, encode_append, encode_append, ← ih]
      simp only [joinedLines, map_cons, intercalate_cons_cons]
      rfl

variable {line rest : List UInt8}

theorem not_separator {b : UInt8} (hline : newline ∉ b :: line) (rest : List UInt8) :
    ¬ separator <+: b :: line ++ crlf ++ rest := by
  rintro ⟨tail, ht⟩
  cases line with
  | nil => simp [separator, crlf, newline] at ht
  | cons c line =>
    simp only [separator, crlf, cons_append, List.cons.injEq] at ht
    rw [← ht.2.1] at hline
    exact hline (by simp)

theorem not_crlf (hne : line ≠ []) (hline : newline ∉ line) (rest : List UInt8) :
    ¬ crlf <+: line ++ crlf ++ rest := by
  rintro ⟨tail, ht⟩
  match line with
  | [] => exact hne rfl
  | [b] => simp [crlf, newline] at ht
  | b :: c :: line =>
    simp only [crlf, cons_append, List.cons.injEq] at ht
    rw [← ht.2.1] at hline
    exact hline (by simp)

theorem splitHead_of_not_separator {b : UInt8} (h : ¬ separator <+: b :: rest) :
    splitHead (b :: rest) = (splitHead rest).map fun x => (b :: x.1, x.2) := by
  rw [splitHead, if_neg (by rwa [List.isPrefixOf_iff_prefix])]

theorem splitHead_line (hline : newline ∉ line) (hrest : ¬ crlf <+: rest) :
    splitHead (line ++ crlf ++ rest) =
      (splitHead rest).map fun x => (line ++ crlf ++ x.1, x.2) := by
  induction line with
  | nil =>
    have h : ¬ separator <+: 13 :: newline :: rest := by
      rintro ⟨tail, ht⟩
      simp only [separator, crlf, cons_append, nil_append, List.cons.injEq, true_and] at ht
      exact hrest ⟨tail, ht⟩
    have h' : ¬ separator <+: newline :: rest := by
      rintro ⟨tail, ht⟩
      cases ht
    show splitHead (13 :: newline :: rest) = _
    rw [splitHead_of_not_separator h, splitHead_of_not_separator h', Option.map_map]
    rfl
  | cons b line ih =>
    have h := not_separator hline rest
    simp only [cons_append] at h ⊢
    rw [splitHead_of_not_separator h, ih fun hm => hline (mem_cons_of_mem _ hm), Option.map_map]
    rfl

theorem splitHead_last (hline : newline ∉ line) (body : List UInt8) :
    splitHead (line ++ crlf ++ (crlf ++ body)) = some (line, body) := by
  induction line with
  | nil => rfl
  | cons b line ih =>
    have h := not_separator hline (crlf ++ body)
    simp only [cons_append] at h ⊢
    rw [splitHead_of_not_separator h, ih fun hm => hline (mem_cons_of_mem _ hm)]
    rfl

theorem splitHead_prefix {a b : List UInt8} (h : splitHead (a ++ b) = none) :
    splitHead a = none := by
  induction a with
  | nil => rfl
  | cons c a ih =>
    have hsep : ¬ separator <+: c :: (a ++ b) := by
      intro hs
      rw [cons_append, splitHead, if_pos (by rwa [List.isPrefixOf_iff_prefix])] at h
      cases h
    rw [cons_append, splitHead_of_not_separator hsep, Option.map_eq_none_iff] at h
    rw [splitHead_of_not_separator, ih h]
    · rfl
    · intro hs
      exact hsep (hs.trans (prefix_append (c :: a) b))

section message

variable {lines : List (List UInt8)} (hlines : ∀ l ∈ lines, l ≠ [] ∧ newline ∉ l)

include hlines

theorem splitHead_lines (hne : lines ≠ []) (body : List UInt8) :
    splitHead (endedLines lines ++ (crlf ++ body)) = some (joinedLines lines, body) := by
  induction lines with
  | nil => exact absurd rfl hne
  | cons l lines ih =>
    have hl := (hlines l mem_cons_self).2
    have hrest := fun m hm => hlines m (mem_cons_of_mem l hm)
    cases lines with
    | nil => simpa [endedLines, joinedLines] using splitHead_last hl body
    | cons l' lines =>
      obtain ⟨hne', hl'⟩ := hlines l' (by simp)
      have hnot := not_crlf hne' hl' (endedLines lines ++ (crlf ++ body))
      have hsplit : endedLines (l :: l' :: lines) ++ (crlf ++ body) =
          l ++ crlf ++ (l' ++ crlf ++ (endedLines lines ++ (crlf ++ body))) := by
        simp [endedLines]
      have htail : endedLines (l' :: lines) ++ (crlf ++ body) =
          l' ++ crlf ++ (endedLines lines ++ (crlf ++ body)) := by
        simp [endedLines]
      rw [hsplit, splitHead_line hl hnot, ← htail, ih hrest (cons_ne_nil _ _),
        Option.map_some, joinedLines, joinedLines, intercalate_cons_cons]

theorem splitHead_cut : splitHead (endedLines lines ++ [13]) = none := by
  induction lines with
  | nil => rfl
  | cons l lines ih =>
    have hl := (hlines l mem_cons_self).2
    have hrest := fun m hm => hlines m (mem_cons_of_mem l hm)
    have hnot : ¬ crlf <+: endedLines lines ++ [13] := by
      cases lines with
      | nil =>
        rintro ⟨tail, ht⟩
        cases ht
      | cons l' lines =>
        obtain ⟨hne', hl'⟩ := hlines l' (by simp)
        simpa [endedLines] using not_crlf hne' hl' (endedLines lines ++ [13])
    have hsplit : endedLines (l :: lines) ++ [13] = l ++ crlf ++ (endedLines lines ++ [13]) := by
      simp [endedLines]
    rw [hsplit, splitHead_line hl hnot, ih hrest]
    rfl

/-- **A message cut after `k` bytes.** -/
theorem splitHead_take (hne : lines ≠ []) (body : List UInt8) (k : Nat) :
    splitHead ((endedLines lines ++ (crlf ++ body)).take k) =
      if (endedLines lines).length + 2 ≤ k then
        some (joinedLines lines, body.take (k - ((endedLines lines).length + 2)))
      else none := by
  split
  · rename_i hk
    obtain ⟨j, rfl⟩ := Nat.exists_eq_add_of_le hk
    have htake : (endedLines lines ++ (crlf ++ body)).take ((endedLines lines).length + 2 + j) =
        endedLines lines ++ (crlf ++ body.take j) := by
      rw [Nat.add_assoc, take_length_add_append, Nat.add_comm 2 j]
      rfl
    rw [htake, splitHead_lines hlines hne, Nat.add_sub_cancel_left]
  · have hcut : (endedLines lines ++ (crlf ++ body)).take k <+: endedLines lines ++ [13] := by
      have hpre : endedLines lines ++ [13] <+: endedLines lines ++ (crlf ++ body) :=
        ⟨newline :: body, by simp [crlf]⟩
      refine prefix_of_prefix_length_le (List.take_prefix _ _) hpre ?_
      simp only [length_take, length_append, length_singleton]
      omega
    obtain ⟨rest, hrest⟩ := hcut
    refine splitHead_prefix (b := rest) ?_
    rw [hrest]
    exact splitHead_cut hlines

end message

end Lib.Wire
