import WeaveGraph.Lib.Wire

/-!
# Hexadecimal text

Bytes as pairs of hexadecimal digits, the integer parser of a systems language's standard library
(`parseByte`, which takes a plus sign before the digits), and where the bytes of a text may be
cut: before the first byte of a character, never before a continuation byte.
-/

namespace Lib.Hex

open List

/-! ## Digits -/

/-- The value of the hexadecimal digit with this code. -/
def digitOf (n : Nat) : Option Nat :=
  if 48 ≤ n ∧ n ≤ 57 then some (n - 48)
  else if 97 ≤ n ∧ n ≤ 102 then some (n - 87)
  else if 65 ≤ n ∧ n ≤ 70 then some (n - 55)
  else none

theorem digitOf_lt {n d : Nat} (h : digitOf n = some d) : d < 16 ∧ n < 128 := by
  unfold digitOf at h
  split at h
  · cases h
    omega
  · split at h
    · cases h
      omega
    · split at h
      · cases h
        omega
      · cases h

def digitChar (d : Nat) : Char := if d < 10 then Char.ofNat (48 + d) else Char.ofNat (87 + d)

theorem digitOf_digitChar {d : Nat} (h : d < 16) : digitOf (digitChar d).toNat = some d := by
  have hall : ∀ d < 16, digitOf (digitChar d).toNat = some d := by decide
  exact hall d h

/-- A byte as two digits. -/
def byteChars (b : UInt8) : List Char := [digitChar (b.toNat / 16), digitChar (b.toNat % 16)]

def encodeHex (bytes : List UInt8) : String := String.ofList (bytes.flatMap byteChars)

/-- The bytes that an even number of hexadecimal digits stands for. -/
def bytesOf : List Char → Option (List UInt8)
  | [] => some []
  | [_] => none
  | a :: b :: l =>
    match digitOf a.toNat, digitOf b.toNat, bytesOf l with
    | some x, some y, some rest => some (UInt8.ofNat (16 * x + y) :: rest)
    | _, _, _ => none

theorem ofNat_digits (b : UInt8) : UInt8.ofNat (16 * (b.toNat / 16) + b.toNat % 16) = b := by
  rw [show 16 * (b.toNat / 16) + b.toNat % 16 = b.toNat by omega]
  exact UInt8.ofNat_toNat

theorem bytesOf_encodeHex (bytes : List UInt8) : bytesOf (encodeHex bytes).toList = some bytes := by
  rw [encodeHex, String.toList_ofList]
  induction bytes with
  | nil => rfl
  | cons b bytes ih =>
    have hb := b.toNat_lt
    have hhigh := digitOf_digitChar (d := b.toNat / 16) (by omega)
    have hlow := digitOf_digitChar (d := b.toNat % 16) (by omega)
    simp only [flatMap_cons, byteChars, cons_append, nil_append, bytesOf, hhigh,
      hlow, ih, ofNat_digits]

/-! ## The integer parser -/

/-- Digits that do not overflow a byte. -/
def parseDigits : Nat → List UInt8 → Option Nat
  | n, [] => some n
  | n, b :: l =>
    match digitOf b.toNat with
    | none => none
    | some d => if 16 * n + d < 256 then parseDigits (16 * n + d) l else none

/-- The digits after an optional plus sign; there must be one. -/
def parseByte : List UInt8 → Option UInt8
  | [] => none
  | b :: l =>
    if b = 43 then (if l = [] then none else (parseDigits 0 l).map UInt8.ofNat)
    else (parseDigits 0 (b :: l)).map UInt8.ofNat

/-- What the parser takes for the first of two digits. -/
def firstDigit (b : UInt8) : Option Nat := if b = 43 then some 0 else digitOf b.toNat

theorem parseByte_pair (a b : UInt8) :
    parseByte [a, b] =
      (firstDigit a).bind fun x => (digitOf b.toNat).map fun y => UInt8.ofNat (16 * x + y) := by
  simp only [parseByte, firstDigit]
  by_cases ha : a = 43
  · rw [if_pos ha, if_pos ha, if_neg (cons_ne_nil _ _)]
    cases hb : digitOf b.toNat with
    | none => simp [parseDigits, hb]
    | some y =>
      have hy := (digitOf_lt hb).1
      simp only [parseDigits, hb, Nat.mul_zero, Nat.zero_add]
      rw [if_pos (by omega)]
      simp
  · rw [if_neg ha, if_neg ha]
    cases hx : digitOf a.toNat with
    | none => simp [parseDigits, hx]
    | some x =>
      have hx16 := (digitOf_lt hx).1
      cases hb : digitOf b.toNat with
      | none => simp [parseDigits, hx, hb]
      | some y =>
        have hy := (digitOf_lt hb).1
        simp only [parseDigits, hx, hb, Nat.mul_zero, Nat.zero_add]
        rw [if_pos (by omega), if_pos (by omega)]
        rfl

/-! ## Boundaries of characters -/

def isContinuation (b : UInt8) : Bool := 128 ≤ b.toNat && b.toNat < 192

def utf8 (l : List Char) : List UInt8 := l.flatMap String.utf8EncodeChar

theorem utf8_toList (s : String) : utf8 s.toList = Wire.encode s := (Wire.encode_eq s).symm

/-- A character starts with a byte that is no continuation, and goes on with continuations. -/
theorem exists_utf8EncodeChar (c : Char) :
    ∃ b l, String.utf8EncodeChar c = b :: l ∧ isContinuation b = false ∧
      ∀ x ∈ l, isContinuation x = true := by
  have hhead : ∀ n, 192 ≤ n → n < 256 → isContinuation (UInt8.ofNat n) = false := by
    intro n h h'
    simp only [isContinuation, UInt8.toNat_ofNat', Nat.mod_eq_of_lt h']
    simp only [Bool.and_eq_false_iff, decide_eq_false_iff_not]
    omega
  have htail : ∀ n, isContinuation (UInt8.ofNat (n % 64 + 128)) = true := by
    intro n
    have hlt : n % 64 + 128 < 256 := by omega
    simp only [isContinuation, UInt8.toNat_ofNat', Nat.mod_eq_of_lt hlt, Bool.and_eq_true,
      decide_eq_true_eq]
    omega
  unfold String.utf8EncodeChar
  dsimp only
  split
  · refine ⟨_, [], rfl, ?_, fun x hx => absurd hx not_mem_nil⟩
    have hlt : c.val.toNat < 256 := by omega
    simp only [isContinuation, UInt8.toNat_ofNat', Nat.mod_eq_of_lt hlt, Bool.and_eq_false_iff,
      decide_eq_false_iff_not]
    omega
  · split
    · refine ⟨_, _, rfl, hhead _ (by omega) (by omega), fun x hx => ?_⟩
      obtain rfl := mem_singleton.mp hx
      exact htail _
    · split
      · refine ⟨_, _, rfl, hhead _ (by omega) (by omega), fun x hx => ?_⟩
        rcases mem_cons.mp hx with rfl | hx
        · exact htail _
        · obtain rfl := mem_singleton.mp hx
          exact htail _
      · refine ⟨_, _, rfl, hhead _ (by omega) (by omega), fun x hx => ?_⟩
        rcases mem_cons.mp hx with rfl | hx
        · exact htail _
        · rcases mem_cons.mp hx with rfl | hx
          · exact htail _
          · obtain rfl := mem_singleton.mp hx
            exact htail _

end Lib.Hex
