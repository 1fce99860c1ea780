import Mathlib.Data.Nat.Bitwise
import WeaveGraph.Lib.Framing
import WeaveGraph.Lib.Hex
import WeaveGraph.Hub.Registry

/-!
# Snapshot signatures

A signature travels as hexadecimal text in a header of the push.  `decodeHex` cuts the header into
pairs of bytes and hands each pair to the integer parser, which also takes a plus sign, and a pair
may end inside a character:

    decodeHex (encodeHex bytes) = .returns (some bytes)                      (decodeHex_encodeHex)
    decodeHex "+f" = .returns (some [15])
    decodeHex "aéb" panics

What is signed is a message of three framed fields after a fixed tag, so it tells the repository,
the commit and the payload apart (`snapshotMessage_inj`).  SHA-256 is a parameter.
-/

namespace WeaveGraph.Hub

open List Lib.Hex Lib.Wire

/-! ## Decoding the header -/

/-- How a call of `decode_hex` ends. -/
inductive Decoded where
  | panics
  | returns (bytes : Option Bytes)
deriving Repr, DecidableEq

def Decoded.prepend (byte : UInt8) : Decoded → Decoded
  | .returns (some bytes) => .returns (some (byte :: bytes))
  | .returns none => .returns none
  | .panics => .panics

/-- The pairs of bytes from left to right, up to the first one that is no number.  A slice that
starts or ends inside a character panics. -/
def decodePairs : Bytes → Decoded
  | [] => .returns (some [])
  | [_] => .panics
  | a :: b :: rest =>
    if isContinuation a || rest.head?.any isContinuation then .panics
    else
      match parseByte [a, b] with
      | none => .returns none
      | some byte => (decodePairs rest).prepend byte

def decodeHex (s : String) : Decoded :=
  if (encode s).length % 2 ≠ 0 then .returns none else decodePairs (encode s)

/-! ## What the decoder takes -/

/-- A hexadecimal digit after another one or after a plus sign. -/
def Accepted (a b : Char) : Prop :=
  (a = '+' ∨ (digitOf a.toNat).isSome) ∧ (digitOf b.toNat).isSome

def AcceptedPairs : List Char → Prop
  | [] => True
  | [_] => False
  | a :: b :: l => Accepted a b ∧ AcceptedPairs l

/-- The first two bytes of the text end inside a character. -/
def CutsCharacter : List Char → Prop
  | [] => False
  | [a] => 2 < a.utf8Size
  | a :: b :: _ => 2 < a.utf8Size ∨ (a.utf8Size = 1 ∧ b.utf8Size ≠ 1)

/-- After pairs that are taken there is one that ends inside a character. -/
def ReachesCut (l : List Char) : Prop :=
  ∃ pre rest, l = pre ++ rest ∧ AcceptedPairs pre ∧ CutsCharacter rest

theorem utf8Size_of_digit {c : Char} (h : (digitOf c.toNat).isSome) : c.utf8Size = 1 := by
  obtain ⟨d, hd⟩ := Option.isSome_iff_exists.mp h
  rw [Char.utf8Size_eq_one_iff, UInt32.le_iff_toNat_le]
  have hlt := (digitOf_lt hd).2
  exact Nat.le_of_lt_succ hlt

variable {a b : Char} {l : List Char}

theorem Accepted.utf8Size (h : Accepted a b) : a.utf8Size = 1 ∧ b.utf8Size = 1 := by
  refine ⟨?_, utf8Size_of_digit h.2⟩
  rcases h.1 with rfl | ha
  · rfl
  · exact utf8Size_of_digit ha

theorem head?_utf8 (l : List Char) : (utf8 l).head?.any isContinuation = false := by
  cases l with
  | nil => rfl
  | cons c l =>
    obtain ⟨b, rest, hc, hb, -⟩ := exists_utf8EncodeChar c
    rw [utf8, flatMap_cons, hc]
    exact hb

theorem utf8EncodeChar_one {c : Char} (h : c.utf8Size = 1) :
    ∃ b : UInt8, String.utf8EncodeChar c = [b] ∧ b.toNat = c.toNat ∧ isContinuation b = false := by
  obtain ⟨b, l, hc, hb, -⟩ := exists_utf8EncodeChar c
  have hle : c.val.toNat ≤ 127 := by
    rw [Char.utf8Size_eq_one_iff, UInt32.le_iff_toNat_le] at h
    exact h
  have hbyte : String.utf8EncodeChar c = [UInt8.ofNat c.val.toNat] := by
    unfold String.utf8EncodeChar
    rw [if_pos hle]
  rw [hbyte] at hc
  obtain ⟨rfl, rfl⟩ := List.cons.inj hc
  refine ⟨_, hbyte, ?_, hb⟩
  exact Nat.mod_eq_of_lt (by omega)

theorem decodePairs_cut (x y : UInt8) {z : UInt8} (hz : isContinuation z = true) (rest : Bytes) :
    decodePairs (x :: y :: z :: rest) = .panics := by
  rw [decodePairs, head?_cons, Option.any_some, hz, Bool.or_true, if_pos rfl]

theorem decodePairs_long (ha : 2 < a.utf8Size) (l : List Char) :
    decodePairs (utf8 (a :: l)) = .panics := by
  obtain ⟨b, m, hc, -, hm⟩ := exists_utf8EncodeChar a
  rw [← String.length_utf8EncodeChar, hc, length_cons] at ha
  obtain ⟨y, m, rfl⟩ := exists_cons_of_length_pos (show 0 < m.length by omega)
  rw [length_cons] at ha
  obtain ⟨z, m, rfl⟩ := exists_cons_of_length_pos (show 0 < m.length by omega)
  rw [utf8, flatMap_cons, hc]
  exact decodePairs_cut b y (hm z (by simp)) _

theorem decodePairs_of_cut (h : CutsCharacter l) : decodePairs (utf8 l) = .panics := by
  rcases l with _ | ⟨a, _ | ⟨b, l⟩⟩
  · exact absurd h id
  · exact decodePairs_long h []
  · rcases h with h | ⟨ha, hb⟩
    · exact decodePairs_long h (b :: l)
    · obtain ⟨x, hx, -, -⟩ := utf8EncodeChar_one ha
      obtain ⟨y, m, hc, -, hm⟩ := exists_utf8EncodeChar b
      have hlen : m ≠ [] := by
        rintro rfl
        rw [← String.length_utf8EncodeChar, hc] at hb
        exact hb rfl
      obtain ⟨z, m, rfl⟩ := exists_cons_of_ne_nil hlen
      rw [utf8, flatMap_cons, flatMap_cons, hx, hc]
      exact decodePairs_cut x y (hm z (by simp)) _

theorem decodePairs_two (ha : a.utf8Size = 2) (l : List Char) :
    decodePairs (utf8 (a :: l)) = .returns none := by
  obtain ⟨x, m, hc, hx, hm⟩ := exists_utf8EncodeChar a
  have hlen : m.length = 1 := by
    rw [← String.length_utf8EncodeChar, hc, length_cons] at ha
    omega
  obtain ⟨y, rfl⟩ := length_eq_one_iff.mp hlen
  have hy : 128 ≤ y.toNat := by
    have := hm y (mem_singleton_self y)
    simp only [isContinuation, Bool.and_eq_true, decide_eq_true_eq] at this
    exact this.1
  have hnone : digitOf y.toNat = none := by
    cases hd : digitOf y.toNat with
    | none => rfl
    | some d =>
      have := (digitOf_lt hd).2
      omega
  have hparse : parseByte [x, y] = none := by
    rw [parseByte_pair, hnone]
    simp
  rw [utf8, flatMap_cons, hc]
  show decodePairs (x :: y :: utf8 l) = _
  rw [decodePairs, hx, head?_utf8, hparse]
  rfl

def pairByte (a b : Char) : Option UInt8 :=
  (if a = '+' then some 0 else digitOf a.toNat).bind fun x =>
    (digitOf b.toNat).map fun y => UInt8.ofNat (16 * x + y)

theorem isSome_pairByte : (pairByte a b).isSome ↔ Accepted a b := by
  unfold pairByte Accepted
  by_cases ha : a = '+'
  · simp [ha]
  · cases digitOf a.toNat <;> simp [ha]

theorem decodePairs_pair (ha : a.utf8Size = 1) (hb : b.utf8Size = 1) (l : List Char) :
    decodePairs (utf8 (a :: b :: l)) =
      (pairByte a b).elim (.returns none) fun byte => (decodePairs (utf8 l)).prepend byte := by
  obtain ⟨x, hx, hxa, hcont⟩ := utf8EncodeChar_one ha
  obtain ⟨y, hy, hyb, -⟩ := utf8EncodeChar_one hb
  have hplus : x = 43 ↔ a = '+' := by
    rw [← UInt8.toNat_inj, hxa]
    exact ⟨fun h => Char.toNat_inj.mp h, fun h => h ▸ rfl⟩
  have hparse : parseByte [x, y] = pairByte a b := by
    rw [parseByte_pair, firstDigit, pairByte, hxa, hyb]
    simp only [hplus]
  rw [utf8, flatMap_cons, flatMap_cons, hx, hy]
  show decodePairs (x :: y :: utf8 l) = _
  rw [decodePairs, hcont, head?_utf8, hparse]
  cases pairByte a b with
  | none => rfl
  | some byte => rfl

/-! ## When the decoder is exact -/

theorem reachesCut_cons (h : Accepted a b) : ReachesCut (a :: b :: l) ↔ ReachesCut l := by
  obtain ⟨ha, hb⟩ := h.utf8Size
  constructor
  · rintro ⟨pre, rest, hl, hpre, hcut⟩
    rcases pre with _ | ⟨c, _ | ⟨d, pre⟩⟩
    · rw [nil_append] at hl
      rw [← hl] at hcut
      rcases hcut with hcut | ⟨-, hcut⟩
      · omega
      · exact absurd hb hcut
    · exact absurd hpre id
    · obtain ⟨-, hl⟩ := List.cons.inj hl
      obtain ⟨-, hl⟩ := List.cons.inj hl
      exact ⟨pre, rest, hl, hpre.2, hcut⟩
  · rintro ⟨pre, rest, rfl, hpre, hcut⟩
    exact ⟨a :: b :: pre, rest, rfl, ⟨h, hpre⟩, hcut⟩

theorem reachesCut_iff_of_not_accepted (h : ∀ b m, l = b :: m → ¬ Accepted a b) :
    ReachesCut (a :: l) ↔ CutsCharacter (a :: l) := by
  constructor
  · rintro ⟨pre, rest, hl, hpre, hcut⟩
    rcases pre with _ | ⟨c, _ | ⟨d, pre⟩⟩
    · rwa [hl]
    · exact absurd hpre id
    · obtain ⟨hc, hl⟩ := List.cons.inj hl
      rw [← hc] at hpre
      exact absurd hpre.1 (h d _ hl)
  · exact fun hcut => ⟨[], _, rfl, trivial, hcut⟩

theorem not_acceptedPairs_of_cut (h : CutsCharacter l) : ¬ AcceptedPairs l := by
  rcases l with _ | ⟨a, _ | ⟨b, l⟩⟩
  · exact absurd h id
  · exact id
  · rintro ⟨hab, -⟩
    obtain ⟨ha, hb⟩ := hab.utf8Size
    rcases h with h | ⟨-, h⟩
    · omega
    · exact h hb

/-- What the text says about the outcome. -/
def Told (l : List Char) : Prop :=
  (decodePairs (utf8 l) = .panics ↔ ReachesCut l) ∧
    ((∃ bytes, decodePairs (utf8 l) = .returns (some bytes)) ↔ AcceptedPairs l)

theorem told_of_cut (h : CutsCharacter l) : Told l := by
  have hpanics := decodePairs_of_cut h
  refine ⟨iff_of_true hpanics ⟨[], l, rfl, trivial, h⟩, iff_of_false ?_ ?_⟩
  · rintro ⟨bytes, hbytes⟩
    rw [hpanics] at hbytes
    cases hbytes
  · exact not_acceptedPairs_of_cut h

theorem told_of_none (h : decodePairs (utf8 l) = .returns none) (hcut : ¬ ReachesCut l)
    (hnot : ¬ AcceptedPairs l) : Told l := by
  refine ⟨iff_of_false ?_ hcut, iff_of_false ?_ hnot⟩
  · intro hpanics
    rw [h] at hpanics
    cases hpanics
  · rintro ⟨bytes, hbytes⟩
    rw [h] at hbytes
    cases hbytes

theorem not_accepted_of_size (ha : a.utf8Size ≠ 1) (b : Char) : ¬ Accepted a b :=
  fun h => ha h.utf8Size.1

theorem told_of_two (ha : a.utf8Size = 2) (l : List Char) : Told (a :: l) := by
  have hnot : ∀ b, ¬ Accepted a b := not_accepted_of_size (by omega)
  refine told_of_none (decodePairs_two ha l) ?_ ?_
  · rw [reachesCut_iff_of_not_accepted fun b _ _ => hnot b]
    rcases l with _ | ⟨b, l⟩
    · show ¬ 2 < a.utf8Size
      omega
    · rintro (h | ⟨h, -⟩) <;> omega
  · rcases l with _ | ⟨b, l⟩
    · exact id
    · exact fun h => hnot b h.1

theorem told_cons (hab : Accepted a b) (h : Told l) : Told (a :: b :: l) := by
  obtain ⟨ha, hb⟩ := hab.utf8Size
  obtain ⟨byte, hbyte⟩ := Option.isSome_iff_exists.mp (isSome_pairByte.mpr hab)
  have hstep : decodePairs (utf8 (a :: b :: l)) = (decodePairs (utf8 l)).prepend byte := by
    rw [decodePairs_pair ha hb, hbyte]
    rfl
  obtain ⟨hpanics, hsome⟩ := h
  unfold Told
  rw [hstep, reachesCut_cons hab, ← hpanics]
  have haccepted : AcceptedPairs (a :: b :: l) ↔ AcceptedPairs l :=
    ⟨fun h => h.2, fun h => ⟨hab, h⟩⟩
  rw [haccepted, ← hsome]
  cases decodePairs (utf8 l) with
  | panics => simp [Decoded.prepend]
  | returns bytes =>
    cases bytes with
    | none => simp [Decoded.prepend]
    | some bytes => simp [Decoded.prepend]

theorem told (l : List Char) (heven : (utf8 l).length % 2 = 0) : Told l := by
  induction l using List.twoStepInduction with
  | nil =>
    refine ⟨iff_of_false Decoded.noConfusion ?_, iff_of_true ⟨[], rfl⟩ trivial⟩
    rintro ⟨pre, rest, hl, -, hcut⟩
    obtain ⟨-, rfl⟩ := append_eq_nil_iff.mp hl.symm
    exact absurd hcut id
  | singleton a =>
    have hsize : (utf8 [a]).length = a.utf8Size := by simp [utf8]
    rcases Char.utf8Size_eq a with ha | ha | ha
    · omega
    · exact told_of_two ha []
    · exact told_of_cut (show 2 < a.utf8Size by omega)
  | cons_cons a b l ih _ =>
    rcases Char.utf8Size_eq a with ha | ha | ha
    · by_cases hb : b.utf8Size = 1
      · by_cases hab : Accepted a b
        · have hlen : (utf8 (a :: b :: l)).length = 2 + (utf8 l).length := by
            simp [utf8, ha, hb]
            omega
          exact told_cons hab (ih (by omega))
        · have hnone : pairByte a b = none := by
            rw [← Option.not_isSome_iff_eq_none, isSome_pairByte]
            exact hab
          refine told_of_none ?_ ?_ (fun h => hab h.1)
          · rw [decodePairs_pair ha hb, hnone]
            rfl
          · rw [reachesCut_iff_of_not_accepted fun c m hl => (List.cons.inj hl).1 ▸ hab]
            rintro (h | ⟨-, h⟩)
            · omega
            · exact h hb
      · exact told_of_cut (.inr ⟨ha, hb⟩)
    · exact told_of_two ha (b :: l)
    · exact told_of_cut (.inl (by omega))

theorem exists_bytesOf (h : AcceptedPairs l) (hplus : '+' ∉ l) :
    ∃ bytes, bytesOf l = some bytes := by
  induction l using List.twoStepInduction with
  | nil => exact ⟨[], rfl⟩
  | singleton a => exact absurd h id
  | cons_cons a b l ih _ =>
    obtain ⟨⟨ha, hb⟩, hl⟩ := h
    have ha := ha.resolve_left fun ha => hplus (ha ▸ mem_cons_self)
    obtain ⟨x, hx⟩ := Option.isSome_iff_exists.mp ha
    obtain ⟨y, hy⟩ := Option.isSome_iff_exists.mp hb
    obtain ⟨bytes, hbytes⟩ := ih hl fun hmem => hplus (by simp [hmem])
    refine ⟨UInt8.ofNat (16 * x + y) :: bytes, ?_⟩
    rw [bytesOf, hx, hy, hbytes]

theorem decodePairs_of_bytesOf {bytes : Bytes} (h : bytesOf l = some bytes) :
    decodePairs (utf8 l) = .returns (some bytes) ∧ AcceptedPairs l ∧ '+' ∉ l ∧
      (utf8 l).length % 2 = 0 := by
  induction l using List.twoStepInduction generalizing bytes with
  | nil =>
    cases h
    exact ⟨rfl, trivial, not_mem_nil, rfl⟩
  | singleton a => cases h
  | cons_cons a b l ih _ =>
    rw [bytesOf] at h
    split at h
    · rename_i x y rest hx hy hrest
      cases h
      obtain ⟨hdecode, hpairs, hplus, heven⟩ := ih hrest
      have hab : Accepted a b := ⟨.inr (by rw [hx]; rfl), by rw [hy]; rfl⟩
      have hne : ∀ c d, digitOf c = some d → c ≠ 43 := by
        rintro c d hc rfl
        cases hc
      have ha : a ≠ '+' := fun ha => hne _ _ hx (by rw [ha]; rfl)
      have hb : b ≠ '+' := fun hb => hne _ _ hy (by rw [hb]; rfl)
      have hbyte : pairByte a b = some (UInt8.ofNat (16 * x + y)) := by
        rw [pairByte, if_neg ha, hx, hy]
        rfl
      refine ⟨?_, ⟨hab, hpairs⟩, ?_, ?_⟩
      · rw [decodePairs_pair hab.utf8Size.1 hab.utf8Size.2, hbyte, hdecode]
        rfl
      · simp only [mem_cons, not_or]
        exact ⟨ha.symm, hb.symm, hplus⟩
      · have hlen : (utf8 (a :: b :: l)).length = 2 + (utf8 l).length := by
          simp [utf8, hab.utf8Size.1, hab.utf8Size.2]
          omega
        omega
    · cases h

/-- The decoder returns the bytes of hexadecimal text and `None` for every other one. -/
def DecodesExactly (s : String) : Prop := decodeHex s = .returns (bytesOf s.toList)

theorem decodeHex_even {s : String} (h : (utf8 s.toList).length % 2 = 0) :
    decodeHex s = decodePairs (utf8 s.toList) := by
  rw [utf8_toList] at h ⊢
  rw [decodeHex, if_neg (by omega)]

theorem decodesExactly_iff (s : String) :
    DecodesExactly s ↔
      ((encode s).length % 2 = 0 →
        ¬ ReachesCut s.toList ∧ (AcceptedPairs s.toList → '+' ∉ s.toList)) := by
  unfold DecodesExactly
  rw [← utf8_toList]
  by_cases heven : (utf8 s.toList).length % 2 = 0
  · obtain ⟨hpanics, hsome⟩ := told s.toList heven
    rw [decodeHex_even heven]
    constructor
    · intro h _
      refine ⟨fun hcut => ?_, fun hpairs => ?_⟩
      · rw [hpanics.mpr hcut] at h
        cases h
      · obtain ⟨bytes, hbytes⟩ := hsome.mpr hpairs
        rw [hbytes] at h
        exact (decodePairs_of_bytesOf (Decoded.returns.inj h).symm).2.2.1
    · intro h
      obtain ⟨hcut, hplus⟩ := h heven
      by_cases hpairs : AcceptedPairs s.toList
      · obtain ⟨bytes, hbytes⟩ := exists_bytesOf hpairs (hplus hpairs)
        rw [hbytes]
        exact (decodePairs_of_bytesOf hbytes).1
      · have hnone : bytesOf s.toList = none := by
          cases hbytes : bytesOf s.toList with
          | none => rfl
          | some bytes => exact absurd (decodePairs_of_bytesOf hbytes).2.1 hpairs
        rw [hnone]
        cases hdecode : decodePairs (utf8 s.toList) with
        | panics => exact absurd (hpanics.mp hdecode) hcut
        | returns bytes =>
          cases bytes with
          | none => rfl
          | some bytes => exact absurd (hsome.mp ⟨bytes, hdecode⟩) hpairs
  · have hnone : bytesOf s.toList = none := by
      cases hbytes : bytesOf s.toList with
      | none => rfl
      | some bytes => exact absurd (decodePairs_of_bytesOf hbytes).2.2.2 heven
    refine iff_of_true ?_ fun h => absurd h heven
    rw [hnone, decodeHex, if_pos]
    rwa [utf8_toList] at heven

theorem decodeHex_encodeHex (bytes : Bytes) :
    decodeHex (encodeHex bytes) = .returns (some bytes) := by
  have hbytes := bytesOf_encodeHex bytes
  obtain ⟨hdecode, -, -, heven⟩ := decodePairs_of_bytesOf hbytes
  rw [decodeHex_even heven, hdecode]

/-- A signature is decoded exactly unless its pairs of bytes hold a plus sign before a digit to
the end, or one of them that is reached ends inside a character; what the client sends is. -/
theorem decodeHex_exact (s : String) (bytes : Bytes) :
    (DecodesExactly s ↔
      ((encode s).length % 2 = 0 →
        ¬ ReachesCut s.toList ∧ (AcceptedPairs s.toList → '+' ∉ s.toList))) ∧
    decodeHex (encodeHex bytes) = .returns (some bytes) :=
  ⟨decodesExactly_iff s, decodeHex_encodeHex bytes⟩

theorem decodeHex_inexact :
    decodeHex "+f" = .returns (some [15]) ∧ decodeHex "aéb" = .panics ∧
      ¬ ∀ s : String, DecodesExactly s := by
  refine ⟨by decide, by decide, fun h => ?_⟩
  have hplus := h "+f"
  revert hplus
  unfold DecodesExactly
  decide

/-! ## Comparing secrets -/

/-- `bytes`, then zeros up to `length`. -/
def zeroFilled (length : Nat) (bytes : Bytes) : Bytes :=
  bytes ++ List.replicate (length - bytes.length) 0

/-- Goes over both texts to their end before it answers. -/
def constantTimeEq (left right : Bytes) : Bool :=
  let length := max left.length right.length
  let differences :=
    (zeroFilled length left).zipWith (fun l r => (l ^^^ r).toNat) (zeroFilled length right)
  differences.foldl (· ||| ·) (left.length ^^^ right.length) == 0

theorem foldl_or_eq_zero {l : List Nat} {n : Nat} :
    l.foldl (· ||| ·) n = 0 ↔ n = 0 ∧ ∀ d ∈ l, d = 0 := by
  induction l generalizing n with
  | nil => simp
  | cons d l ih =>
    rw [foldl_cons, ih, Nat.or_eq_zero_iff, forall_mem_cons, and_assoc]

theorem zipWith_xor_eq_zero {l r : Bytes} (hlen : l.length = r.length) :
    (∀ d ∈ l.zipWith (fun a b => (a ^^^ b).toNat) r, d = 0) ↔ l = r := by
  induction l generalizing r with
  | nil =>
    cases r with
    | nil => simp
    | cons b r => cases hlen
  | cons a l ih =>
    cases r with
    | nil => cases hlen
    | cons b r =>
      have hzero : (a ^^^ b).toNat = 0 ↔ a = b := by
        rw [← UInt8.xor_eq_zero_iff, ← UInt8.toNat_inj]
        rfl
      rw [zipWith_cons_cons, forall_mem_cons, ih (Nat.succ.inj hlen), hzero, List.cons.injEq]

theorem constantTimeEq_iff {left right : Bytes} :
    constantTimeEq left right = true ↔ left = right := by
  unfold constantTimeEq
  rw [beq_iff_eq, foldl_or_eq_zero, Nat.xor_eq_zero_iff]
  constructor
  · rintro ⟨hlen, hzero⟩
    have hfill : ∀ l : Bytes, l.length = left.length →
        zeroFilled (max left.length right.length) l = l := by
      intro l hl
      rw [zeroFilled, hl, hlen, Nat.max_self, Nat.sub_self]
      exact append_nil l
    rw [hfill left rfl, hfill right hlen.symm] at hzero
    exact (zipWith_xor_eq_zero hlen).mp hzero
  · rintro rfl
    exact ⟨rfl, (zipWith_xor_eq_zero rfl).mpr rfl⟩

/-! ## The signed message -/

def snapshotTag : Bytes := encode "weave-graph:snapshot:v1"

/-- Each field after its length in eight bytes. -/
def snapshotMessage (repoId commitSha : String) (payload : Bytes) : Bytes :=
  snapshotTag ++ Lib.Framing.frames 8 [encode repoId, encode commitSha, payload]

/-- What a signature is made for. -/
structure Snapshot where
  repoId : String
  commitSha : String
  payload : Bytes
deriving Repr, DecidableEq

namespace Snapshot

def message (t : Snapshot) : Bytes := snapshotMessage t.repoId t.commitSha t.payload

/-- Every field is shorter than `2 ^ 64` bytes. -/
structure Fits (t : Snapshot) : Prop where
  repoId : (encode t.repoId).length < 2 ^ 64
  commitSha : (encode t.commitSha).length < 2 ^ 64
  payload : t.payload.length < 2 ^ 64

end Snapshot

theorem encode_inj {a b : String} (h : encode a = encode b) : a = b := by
  have hdecode := decode_encode a
  rw [h, decode_encode] at hdecode
  exact (Option.some.inj hdecode).symm

theorem snapshotMessage_inj {t u : Snapshot} (ht : t.Fits) (hu : u.Fits)
    (h : t.message = u.message) : t = u := by
  have hfits : ∀ v : Snapshot, v.Fits →
      ∀ f ∈ [encode v.repoId, encode v.commitSha, v.payload], f.length < 256 ^ 8 := by
    intro v hv f hf
    simp only [mem_cons, not_mem_nil, or_false] at hf
    rcases hf with rfl | rfl | rfl
    · exact hv.repoId
    · exact hv.commitSha
    · exact hv.payload
  have hcount : [encode t.repoId, encode t.commitSha, t.payload].length =
      [encode u.repoId, encode u.commitSha, u.payload].length := rfl
  have hfields := Lib.Framing.frames_inj hcount (hfits t ht) (hfits u hu) (append_cancel_left h)
  simp only [List.cons.injEq, and_true] at hfields
  obtain ⟨hrepo, hsha, hpayload⟩ := hfields
  cases t
  cases u
  simp only [Snapshot.mk.injEq]
  exact ⟨encode_inj hrepo, encode_inj hsha, hpayload⟩

/-! ## The keyed hash -/

inductive ProvenanceError where
  | tampered (repoId commitSha : String)
  | weakKey
deriving Repr, DecidableEq

/-- `HmacSnapshotProvenanceVerifier`; `new` refuses a shorter key. -/
structure HmacVerifier where
  key : Bytes
  strong : 32 ≤ key.length

def HmacVerifier.new (key : Bytes) : Except ProvenanceError HmacVerifier :=
  if h : key.length < 32 then .error .weakKey else .ok ⟨key, Nat.le_of_not_lt h⟩

section hmac

variable (sha256 : Bytes → Bytes)

/-- The key, or its digest when it is longer than a block, as a block. -/
def normalizedKey (key : Bytes) : Bytes :=
  zeroFilled 64 (if key.length > 64 then sha256 key else key)

def padded (pad : UInt8) (key : Bytes) : Bytes :=
  (List.replicate 64 pad).zipWith (· ^^^ ·) (normalizedKey sha256 key)

def hmacSha256 (key message : Bytes) : Bytes :=
  sha256 (padded sha256 0x5c key ++ sha256 (padded sha256 0x36 key ++ message))

namespace HmacVerifier

def signSnapshot (v : HmacVerifier) (t : Snapshot) : Bytes := hmacSha256 sha256 v.key t.message

def verifySnapshot (v : HmacVerifier) (t : Snapshot) (signature : Bytes) :
    Except ProvenanceError Unit :=
  if constantTimeEq (v.signSnapshot sha256 t) signature then .ok ()
  else .error (.tampered t.repoId t.commitSha)

/-- What the client sends along: two digits for each byte. -/
def pushSignature (v : HmacVerifier) (t : Snapshot) : String :=
  encodeHex (v.signSnapshot sha256 t)

/-- What the registry asks of a push that comes with this signature. -/
def verified (v : HmacVerifier) (t : Snapshot) (signature : Option String) : Bool :=
  match signature.map decodeHex with
  | some (.returns (some sig)) => (v.verifySnapshot sha256 t sig).isOk
  | _ => false

end HmacVerifier

variable {sha256}

theorem verifySnapshot_iff {v : HmacVerifier} {t : Snapshot} {signature : Bytes} :
    v.verifySnapshot sha256 t signature = .ok () ↔ v.signSnapshot sha256 t = signature := by
  rw [← constantTimeEq_iff, HmacVerifier.verifySnapshot]
  split
  · simp [*]
  · simp [*]

theorem hmacSha256_injective (h : Function.Injective sha256) (key : Bytes) :
    Function.Injective (hmacSha256 sha256 key) := by
  intro m m' heq
  have hinner := h (append_cancel_left (h heq))
  exact append_cancel_left hinner

/-- A signature verifies for the snapshot it was made for and, as far as the keyed hash is
injective, for no other. -/
theorem verified_pushSignature (v : HmacVerifier) {t u : Snapshot}
    (hmac : Function.Injective (hmacSha256 sha256 v.key)) (ht : t.Fits) (hu : u.Fits) :
    v.verified sha256 u (some (v.pushSignature sha256 t)) = true ↔ u = t := by
  have hverified : v.verified sha256 u (some (v.pushSignature sha256 t)) =
      (v.verifySnapshot sha256 u (v.signSnapshot sha256 t)).isOk := by
    rw [HmacVerifier.verified, Option.map_some, HmacVerifier.pushSignature, decodeHex_encodeHex]
  have hok : (v.verifySnapshot sha256 u (v.signSnapshot sha256 t)).isOk = true ↔
      v.verifySnapshot sha256 u (v.signSnapshot sha256 t) = .ok () := by
    cases v.verifySnapshot sha256 u (v.signSnapshot sha256 t) with
    | error e => simp [Except.isOk, Except.toBool]
    | ok r => simp [Except.isOk, Except.toBool]
  rw [hverified, hok, verifySnapshot_iff]
  exact ⟨fun h => snapshotMessage_inj hu ht (hmac h), fun h => h ▸ rfl⟩

/-- The message binds the three fields, and so does the signature over it. -/
theorem signature_binds :
    (∀ t u : Snapshot, t.Fits → u.Fits → (t.message = u.message ↔ t = u)) ∧
    ∀ (sha256 : Bytes → Bytes) (v : HmacVerifier), Function.Injective (hmacSha256 sha256 v.key) →
      ∀ t u : Snapshot, t.Fits → u.Fits →
        (v.verifySnapshot sha256 u (v.signSnapshot sha256 t) = .ok () ↔ u = t) := by
  refine ⟨fun t u ht hu => ⟨snapshotMessage_inj ht hu, fun h => h ▸ rfl⟩, ?_⟩
  intro sha256 v hmac t u ht hu
  rw [verifySnapshot_iff]
  exact ⟨fun h => snapshotMessage_inj hu ht (hmac h), fun h => h ▸ rfl⟩

end hmac

def sampleKey : HmacVerifier := ⟨List.replicate 32 107, by decide⟩

def sampleSnapshot : Snapshot := ⟨"r", "a", [1]⟩

/-- The first of the two digests that signing the sample asks for. -/
def sampleInner : Bytes :=
  [85, 122, 148, 190, 35, 206, 76, 15, 213, 24, 252, 211, 131, 248, 162, 146, 94, 45, 141, 130, 29,
    74, 93, 94, 187, 23, 198, 54, 188, 48, 233, 42]

def sampleSignature : Bytes :=
  [229, 108, 159, 27, 158, 230, 30, 213, 30, 250, 223, 162, 67, 187, 127, 134, 71, 229, 70, 119, 55,
    204, 141, 140, 180, 44, 194, 200, 206, 250, 119, 81]

/-- SHA-256 on what signing the sample asks for, and injective elsewhere. -/
def sampleDigest (x : Bytes) : Bytes :=
  if x = padded id 0x36 sampleKey.key ++ sampleSnapshot.message then sampleInner
  else if x = padded id 0x5c sampleKey.key ++ sampleInner then sampleSignature
  else x ++ List.replicate 33 0

theorem sampleDigest_injective : Function.Injective sampleDigest := by
  have hlong : ∀ (x : Bytes) (y : Bytes), y.length = 32 → x ++ List.replicate 33 0 ≠ y := by
    rintro x y hy rfl
    rw [length_append, length_replicate] at hy
    omega
  have hinner : sampleInner.length = 32 := rfl
  have hsignature : sampleSignature.length = 32 := rfl
  have hne : sampleInner ≠ sampleSignature := by decide
  intro x y h
  unfold sampleDigest at h
  split at h
  · split at h
    · rename_i hx hy
      rw [hx, hy]
    · split at h
      · exact absurd h hne
      · exact absurd h.symm (hlong _ _ hinner)
  · split at h
    · split at h
      · exact absurd h.symm hne
      · split at h
        · rename_i hx _ hy
          rw [hx, hy]
        · exact absurd h.symm (hlong _ _ hsignature)
    · split at h
      · exact absurd h (hlong _ _ hinner)
      · split at h
        · exact absurd h (hlong _ _ hsignature)
        · exact append_cancel_right h

theorem verified_pushSignature_sample :
    sampleKey.verified sampleDigest ⟨"ra", "", [1]⟩
      (some (sampleKey.pushSignature sampleDigest sampleSnapshot)) = true ↔
        (⟨"ra", "", [1]⟩ : Snapshot) = sampleSnapshot :=
  verified_pushSignature sampleKey (hmacSha256_injective sampleDigest_injective _)
    ⟨by decide, by decide, by decide⟩ ⟨by decide, by decide, by decide⟩

/-- The sample signature, and that it is not taken for the same letters split elsewhere. -/
theorem signature_binds_sample :
    sampleKey.signSnapshot sampleDigest sampleSnapshot = sampleSignature ∧
      (sampleKey.verifySnapshot sampleDigest ⟨"ra", "", [1]⟩
        (sampleKey.signSnapshot sampleDigest sampleSnapshot) = .ok () ↔
          (⟨"ra", "", [1]⟩ : Snapshot) = sampleSnapshot) :=
  ⟨by decide +kernel,
    signature_binds.2 sampleDigest sampleKey (hmacSha256_injective sampleDigest_injective _) _ _
      ⟨by decide, by decide, by decide⟩ ⟨by decide, by decide, by decide⟩⟩

end WeaveGraph.Hub
