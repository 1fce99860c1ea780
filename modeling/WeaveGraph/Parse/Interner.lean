import Mathlib.Data.Nat.Log
import WeaveGraph.Lib.Dict
import WeaveGraph.Lib.Probing
import WeaveGraph.Lib.Wire

/-!
# The string interner

`StringInterner` keeps the text of all its strings in one arena, cuts it by the offsets in `ends`,
and finds the number of a string by open addressing.  Numbers, offsets and slots are `u32`, and the
largest one marks a vacant slot.

    arena    a b c │ d e │ f            names  ["abc", "de", "f"]
    ends           3     5   6
    buckets  · 2 · · 0 1 · ·            ids, each met from the slot of its hash

A result of `none` is a panic or a loop that does not end.  While the text is below `2 ^ 32` bytes
there is neither, and the interner is a list of distinct names (`Represents`, `intern_represents`);
nothing is assumed of the hash.
-/

namespace WeaveGraph

open List Lib Interner
open Lib.Probing (Holds place lookup)

/-- `EMPTY_SLOT`, `u32::MAX`. -/
def emptySlot : Nat := 2 ^ 32 - 1

def asU32 (n : Nat) : Nat := n % 2 ^ 32

structure StringInterner where
  arena : String
  ends : List Nat
  buckets : List Nat
deriving Repr, DecidableEq

namespace StringInterner

/-- `StringInterner::default`. -/
def empty : StringInterner := ⟨"", [], []⟩

/-- The byte range of a string; an id out of bounds panics. -/
def span (t : StringInterner) (id : Nat) : Option (Nat × Nat) := do
  let stop ← t.ends[id]?
  let start ← match id with
    | 0 => some 0
    | prev + 1 => t.ends[prev]?
  return (start, stop)

/-- A range that is not one of the arena, or that cuts a character, panics. -/
def get (t : StringInterner) (id : Nat) : Option String := do
  let (start, stop) ← t.span id
  if start ≤ stop ∧ stop ≤ t.arena.utf8ByteSize then
    Wire.decode (((Wire.encode t.arena).drop start).take (stop - start))
  else none

def resolve (t : StringInterner) (id : Nat) : Option String := t.get id

section hashed

variable (hashOf : String → UInt64)

/-- The first slot a string is looked for in, of a table of `n`. -/
def homeSlot (n : Nat) (s : String) : Nat := (hashOf s).toNat &&& (n - 1)

def reinsert (t : StringInterner) (slots : List Nat) (id : Nat) : Option (List Nat) := do
  let s ← t.get id
  place emptySlot slots (homeSlot hashOf slots.length s) id

def reserveBuckets (t : StringInterner) (additional : Nat) : Option StringInterner :=
  let needed := (t.ends.length + additional) * 10 / 7 + 1
  if needed ≤ t.buckets.length then some t
  else do
    let newLen := max (2 ^ Nat.clog 2 needed) 16
    let newBuckets ← (List.range (asU32 t.ends.length)).foldlM (t.reinsert hashOf)
      (List.replicate newLen emptySlot)
    return { t with buckets := newBuckets }

def withCapacity (capacity : Nat) : Option StringInterner :=
  empty.reserveBuckets hashOf (max capacity 1)

def find (t : StringInterner) (s : String) : Option (Option Nat) :=
  if t.buckets = [] then some none
  else lookup emptySlot t.get t.buckets (homeSlot hashOf t.buckets.length s) s

def getId (t : StringInterner) (s : String) : Option (Option Nat) := t.find hashOf s

/-- The second half of `intern`, for a string that was not found. -/
def internNew (t : StringInterner) (s : String) : Option (Nat × StringInterner) := do
  let t ← t.reserveBuckets hashOf 1
  let id := asU32 t.ends.length
  let arena := t.arena ++ s
  let buckets ← place emptySlot t.buckets (homeSlot hashOf t.buckets.length s) id
  return (id, ⟨arena, t.ends ++ [asU32 arena.utf8ByteSize], buckets⟩)

def intern (t : StringInterner) (s : String) : Option (Nat × StringInterner) := do
  let found ← t.find hashOf s
  match found with
  | some id => return (id, t)
  | none => t.internNew hashOf s

/-- A sequence of `intern` calls, with the ids they return. -/
def internAll (t : StringInterner) : List String → Option (List Nat × StringInterner)
  | [] => some ([], t)
  | s :: rest => do
    let (id, t) ← t.intern hashOf s
    let (ids, t) ← t.internAll rest
    return (id :: ids, t)

end hashed

end StringInterner

/-! ## Text -/

def textSize (names : List String) : Nat := (names.map String.utf8ByteSize).sum

@[simp] theorem textSize_append (a b : List String) :
    textSize (a ++ b) = textSize a + textSize b := by
  simp [textSize]

theorem length_encode (s : String) : (Wire.encode s).length = s.utf8ByteSize := by
  simp [Wire.encode]

theorem length_flatMap_encode (names : List String) :
    (names.flatMap Wire.encode).length = textSize names := by
  simp [textSize, length_encode]

theorem encode_injective : Function.Injective Wire.encode := fun a b h =>
  Option.some.inj ((Wire.decode_encode a).symm.trans
    ((congrArg Wire.decode h).trans (Wire.decode_encode b)))

variable {names : List String}

theorem length_short_le (hn : names.Nodup) (hs : ∀ s ∈ names, s.utf8ByteSize ≤ 1) :
    names.length ≤ 257 := by
  have hsub : names.map Wire.encode ⊆ [] :: (List.range 256).map fun n => [UInt8.ofNat n] := by
    intro bytes hb
    obtain ⟨s, hmem, rfl⟩ := mem_map.mp hb
    have hlen := hs s hmem
    rw [← length_encode] at hlen
    match henc : Wire.encode s, hlen with
    | [], _ => exact mem_cons_self
    | [b], _ =>
      refine mem_cons_of_mem _ (mem_map.mpr ⟨b.toNat, ?_, ?_⟩)
      · exact mem_range.mpr b.toNat_lt
      · rw [UInt8.ofNat_toNat]
  have := (subperm_of_subset (hn.map encode_injective) hsub).length_le
  simpa using this

theorem length_le_textSize (hn : names.Nodup) : names.length ≤ 257 + textSize names / 2 := by
  have hsplit := length_eq_countP_add_countP (fun s : String => s.utf8ByteSize ≤ 1) (l := names)
  have hshort : names.countP (fun s : String => s.utf8ByteSize ≤ 1) ≤ 257 := by
    rw [countP_eq_length_filter]
    refine length_short_le (hn.filter _) fun s hs => ?_
    simpa using (mem_filter.mp hs).2
  have hlong : ∀ l : List String,
      2 * l.countP (fun s => ¬ (decide (s.utf8ByteSize ≤ 1)) = true) ≤ textSize l := by
    intro l
    induction l with
    | nil => exact Nat.zero_le _
    | cons s l ih =>
      simp only [textSize, map_cons, sum_cons, countP_cons] at ih ⊢
      split
      · rename_i h
        simp only [decide_eq_true_eq, not_le] at h
        omega
      · omega
  have := hlong names
  omega

/-! ## The names an interner holds -/

namespace StringInterner

variable {hashOf : String → UInt64} {t : StringInterner} {n : Interner String}

/-- The home of an id, by the name it has. -/
def homeOf (hashOf : String → UInt64) (names : List String) (len id : Nat) : Nat :=
  homeSlot hashOf len (names.getD id "")

/-- The arena holds the names one after the other. -/
structure Spells (t : StringInterner) (names : List String) : Prop where
  arena : Wire.encode t.arena = names.flatMap Wire.encode
  ends : t.ends = (List.range names.length).map fun i => textSize (names.take (i + 1))

/-- The table is not made yet, or holds every id and has a slot to spare. -/
def Hashes (hashOf : String → UInt64) (t : StringInterner) (names : List String) : Prop :=
  t.buckets = [] ∧ names = [] ∨ (∃ k, t.buckets.length = 2 ^ k) ∧ names.length < t.buckets.length ∧
      Holds emptySlot (homeOf hashOf names t.buckets.length) t.buckets (List.range names.length)

/-- An interner that holds the names of `n`, under their numbers. -/
structure Represents (hashOf : String → UInt64) (t : StringInterner) (n : Interner String) :
    Prop where
  small : textSize n.names < 2 ^ 32
  spells : t.Spells n.names
  hashes : t.Hashes hashOf n.names

variable {names : List String} {i : Nat} {s : String}

theorem lt_emptySlot (hn : names.Nodup) (hs : textSize names < 2 ^ 32) :
    names.length < emptySlot := by
  have := length_le_textSize hn
  unfold emptySlot
  omega

section

variable (h : t.Spells names)

include h

theorem Spells.length_ends : t.ends.length = names.length := by
  rw [h.ends, length_map, length_range]

theorem Spells.getElem?_ends (hi : i < names.length) :
    t.ends[i]? = some (textSize (names.take (i + 1))) := by
  rw [h.ends, getElem?_map, getElem?_range hi]
  rfl

theorem Spells.span_eq (hi : i < names.length) :
    t.span i = some (textSize (names.take i), textSize (names.take (i + 1))) := by
  unfold span
  rw [h.getElem?_ends hi]
  cases i with
  | zero => rfl
  | succ i =>
    simp only [Option.bind_eq_bind, Option.bind_some, h.getElem?_ends (Nat.lt_of_succ_lt hi)]
    rfl

theorem Spells.get_eq (hi : names[i]? = some s) : t.get i = some s := by
  obtain ⟨hlt, hs⟩ := List.getElem?_eq_some_iff.mp hi
  have hsplit : names = names.take i ++ s :: names.drop (i + 1) := by
    rw [← hs, getElem_cons_drop, take_append_drop]
  have htake : textSize (names.take (i + 1)) = textSize (names.take i) + s.utf8ByteSize := by
    rw [take_add_one, hi, textSize_append]
    simp [textSize]
  have harena : Wire.encode t.arena = (names.take i).flatMap Wire.encode ++
      (Wire.encode s ++ (names.drop (i + 1)).flatMap Wire.encode) := by
    rw [h.arena]
    conv_lhs => rw [hsplit]
    rw [flatMap_append, flatMap_cons]
  have hsize : t.arena.utf8ByteSize = textSize (names.take i) + (s.utf8ByteSize +
      textSize (names.drop (i + 1))) := by
    rw [← length_encode, harena]
    simp only [length_append, length_flatMap_encode, length_encode]
  unfold get
  rw [h.span_eq hlt]
  simp only [Option.bind_eq_bind, Option.bind_some, htake]
  rw [if_pos (by omega), Nat.add_sub_cancel_left, harena,
    drop_left' (length_flatMap_encode _), take_left' (length_encode s),
    Wire.decode_encode]

theorem Spells.snoc (s : String) {buckets : List Nat} (hsmall : textSize (names ++ [s]) < 2 ^ 32) :
    Spells ⟨t.arena ++ s, t.ends ++ [asU32 (t.arena ++ s).utf8ByteSize], buckets⟩
      (names ++ [s]) := by
  have henc : Wire.encode (t.arena ++ s) = (names ++ [s]).flatMap Wire.encode := by
    rw [Wire.encode_append, h.arena, flatMap_append, flatMap_singleton]
  have hsize : (t.arena ++ s).utf8ByteSize = textSize (names ++ [s]) := by
    rw [← length_encode, henc, length_flatMap_encode]
  refine ⟨henc, ?_⟩
  show t.ends ++ [asU32 (t.arena ++ s).utf8ByteSize] = _
  rw [hsize, asU32, Nat.mod_eq_of_lt hsmall, h.ends, length_append, length_singleton,
    range_succ, map_append]
  congr 1
  · refine map_congr_left fun i hi => ?_
    rw [take_append_of_le_length (mem_range.mp hi)]
  · rw [map_singleton, take_of_length_le (by simp)]

end

/-! ## The table -/

theorem homeSlot_lt {n k : Nat} (hn : n = 2 ^ k) (s : String) : homeSlot hashOf n s < n := by
  subst hn
  rw [homeSlot, Nat.and_two_pow_sub_one_eq_mod]
  exact Nat.mod_lt _ (Nat.two_pow_pos k)

theorem reinsert_all (hashOf : String → UInt64) (h : t.Spells names) (hv : names.length < emptySlot)
    {len k : Nat} (hk : len = 2 ^ k) (hlen : names.length < len) :
    ∀ m ≤ names.length, ∃ slots : List Nat,
      (List.range m).foldlM (t.reinsert hashOf) (List.replicate len emptySlot) = some slots ∧
        slots.length = len ∧ Holds emptySlot (homeOf hashOf names len) slots (List.range m) := by
  intro m
  induction m with
  | zero =>
    intro _
    exact ⟨_, rfl, length_replicate, Probing.holds_replicate _ _ _⟩
  | succ m ih =>
    intro hm
    obtain ⟨slots, hfold, hl, hold⟩ := ih (Nat.le_of_succ_le hm)
    have hget : t.get m = some (names.getD m "") := by
      refine h.get_eq ?_
      rw [getD_eq_getElem?_getD, getElem?_eq_getElem hm, Option.getD_some]
    obtain ⟨slots', hplace, hl', hold'⟩ := hold.place_eq (b := m) (hl.trans hk)
      (by rw [length_range, hl]; omega) (by omega) not_mem_range_self
      (by rw [hl]; exact homeSlot_lt hk _)
    refine ⟨slots', ?_, hl'.trans hl, range_succ ▸ hold'⟩
    rw [range_succ, foldlM_append, hfold]
    simp only [Option.bind_eq_bind, Option.bind_some, foldlM_cons, foldlM_nil, reinsert, hget, hl]
    rw [show homeSlot hashOf len (names.getD m "") = homeOf hashOf names len m from rfl, hplace]
    rfl

theorem newLen_eq (needed : Nat) :
    ∃ k, max (2 ^ Nat.clog 2 needed) 16 = 2 ^ k ∧ needed ≤ max (2 ^ Nat.clog 2 needed) 16 := by
  have hle : needed ≤ 2 ^ Nat.clog 2 needed := Nat.le_pow_clog (by decide) needed
  refine ⟨max (Nat.clog 2 needed) 4, ?_, le_max_of_le_left hle⟩
  rcases Nat.le_total (Nat.clog 2 needed) 4 with h | h
  · rw [max_eq_right h, max_eq_right (Nat.pow_le_pow_right Nat.two_pos h)]
  · rw [max_eq_left h, max_eq_left (Nat.pow_le_pow_right Nat.two_pos h)]

theorem reserveBuckets_eq (hs : t.Spells names) (hh : t.Hashes hashOf names)
    (hv : names.length < emptySlot) {additional : Nat} (ha : 0 < additional) :
    ∃ t', t.reserveBuckets hashOf additional = some t' ∧ t'.arena = t.arena ∧ t'.ends = t.ends ∧
      (∃ k, t'.buckets.length = 2 ^ k) ∧ names.length + additional < t'.buckets.length ∧
      Holds emptySlot (homeOf hashOf names t'.buckets.length) t'.buckets
        (List.range names.length) := by
  unfold reserveBuckets
  rw [hs.length_ends]
  dsimp only
  split
  · rename_i hle
    rcases hh with ⟨hb, -⟩ | ⟨hk, -, hold⟩
    · rw [hb] at hle
      exact absurd hle (by simp)
    · exact ⟨t, rfl, rfl, rfl, hk, by omega, hold⟩
  · obtain ⟨k, hk, hle⟩ := newLen_eq ((names.length + additional) * 10 / 7 + 1)
    obtain ⟨slots, hfold, hl, hold⟩ := reinsert_all hashOf hs hv hk (by omega) names.length le_rfl
    have hmod : asU32 names.length = names.length := Nat.mod_eq_of_lt (by
      unfold emptySlot at hv
      omega)
    rw [hmod, hfold]
    refine ⟨{ t with buckets := slots }, rfl, rfl, rfl, ⟨k, hl.trans hk⟩, ?_, ?_⟩
    · show _ < slots.length
      omega
    · rw [hl]
      exact hold

theorem represents_empty (hashOf : String → UInt64) :
    Represents hashOf empty Interner.empty where
  small := Nat.two_pow_pos 32
  spells := ⟨rfl, rfl⟩
  hashes := .inl ⟨rfl, rfl⟩

theorem withCapacity_represents (hashOf : String → UInt64) (capacity : Nat) :
    ∃ t, withCapacity hashOf capacity = some t ∧ Represents hashOf t Interner.empty := by
  have h := represents_empty hashOf
  obtain ⟨t, ht, harena, hends, hk, hroom, hold⟩ := reserveBuckets_eq h.spells h.hashes
    (by decide) (Nat.lt_of_lt_of_le Nat.one_pos (Nat.le_max_right capacity 1))
  exact ⟨t, ht, h.small, ⟨by rw [harena, h.spells.arena], by rw [hends, h.spells.ends]⟩,
    .inr ⟨hk, by omega, hold⟩⟩

section

variable (h : Represents hashOf t n)

include h

theorem Represents.resolve_eq (hi : n.resolve i = some s) : t.resolve i = some s :=
  h.spells.get_eq hi

theorem Represents.getId_eq (s : String) : t.getId hashOf s = some (n.getId s) := by
  unfold getId find
  rcases h.hashes with ⟨hb, hn⟩ | ⟨⟨k, hk⟩, hroom, hold⟩
  · rw [if_pos hb, Interner.getId, hn, if_neg not_mem_nil]
  · have hne : t.buckets ≠ [] := by
      intro he
      rw [he] at hroom
      exact Nat.not_lt_zero _ hroom
    have hname : ∀ i ∈ List.range n.names.length, n.names[i]? = some (n.names.getD i "") := by
      intro i hi
      rw [getD_eq_getElem?_getD, getElem?_eq_getElem (mem_range.mp hi), Option.getD_some]
    obtain ⟨r, hr, hiff⟩ := hold.lookup_eq hk (by rw [length_range]; exact hroom)
      t.get (fun i hi => h.spells.get_eq (hname i hi))
      (fun i hi j hj hij => by
        have hi' := hname i hi
        rw [hij] at hi'
        exact Option.some.inj ((getId_eq_some.mpr hi').symm.trans
          (getId_eq_some.mpr (hname j hj))))
      s (homeSlot_lt hk s) (fun i _ hi => by rw [homeOf, hi])
    rw [if_neg hne, hr]
    refine congrArg some (Option.ext fun i => ?_)
    rw [hiff, getId_eq_some, Interner.resolve]
    constructor
    · rintro ⟨hi, rfl⟩
      exact hname i hi
    · intro hi
      have hmem := mem_range.mpr (List.getElem?_eq_some_iff.mp hi).1
      exact ⟨hmem, Option.some.inj ((hname i hmem).symm.trans hi)⟩

theorem Represents.internNew_eq (hs : s ∉ n.names)
    (hsmall : textSize (n.intern s).2.names < 2 ^ 32) :
    ∃ t', t.internNew hashOf s = some ((n.intern s).1, t') ∧
      Represents hashOf t' (n.intern s).2 := by
  have hintern : n.intern s = (n.names.length, (n.intern s).2) := by
    unfold Interner.intern
    rw [dif_neg hs]
  have hnames : (n.intern s).2.names = n.names ++ [s] := by
    unfold Interner.intern
    rw [dif_neg hs]
  have hv := lt_emptySlot n.nodup h.small
  obtain ⟨t₁, hreserve, harena, hends, ⟨k, hk⟩, hroom, hold⟩ :=
    reserveBuckets_eq h.spells h.hashes hv Nat.one_pos
  have hspells : t₁.Spells n.names :=
    ⟨by rw [harena, h.spells.arena], by rw [hends, h.spells.ends]⟩
  -- the ids before it keep their homes
  have hold' : Holds emptySlot (homeOf hashOf (n.names ++ [s]) t₁.buckets.length) t₁.buckets
      (List.range n.names.length) := by
    refine hold.congr fun i hi => ?_
    rw [homeOf, homeOf, getD_append _ _ _ _ (mem_range.mp hi)]
  have hhome : homeOf hashOf (n.names ++ [s]) t₁.buckets.length n.names.length =
      homeSlot hashOf t₁.buckets.length s := by
    rw [homeOf, getD_append_right _ _ _ _ le_rfl, Nat.sub_self]
    rfl
  obtain ⟨slots, hplace, hl, hheld⟩ := hold'.place_eq (b := n.names.length) hk
    (by rw [length_range]; omega) (by omega) not_mem_range_self
    (by rw [hhome]; exact homeSlot_lt hk s)
  have hid : asU32 t₁.ends.length = n.names.length := by
    rw [hspells.length_ends]
    exact Nat.mod_eq_of_lt (by unfold emptySlot at hv; omega)
  refine ⟨⟨t₁.arena ++ s, t₁.ends ++ [asU32 (t₁.arena ++ s).utf8ByteSize], slots⟩, ?_, hsmall,
    ?_, ?_⟩
  · rw [hhome] at hplace
    unfold internNew
    rw [hreserve, hintern]
    simp only [Option.bind_eq_bind, Option.bind_some, hid, hplace]
    rfl
  · rw [hnames]
    exact hspells.snoc s (hnames ▸ hsmall)
  · rw [hnames]
    refine .inr ⟨⟨k, hl.trans hk⟩, ?_, ?_⟩
    · show _ < slots.length
      rw [length_append, length_singleton]
      omega
    · rw [hl, length_append, length_singleton, range_succ]
      exact hheld

theorem Represents.intern_eq (s : String) (hsmall : textSize (n.intern s).2.names < 2 ^ 32) :
    ∃ t', t.intern hashOf s = some ((n.intern s).1, t') ∧ Represents hashOf t' (n.intern s).2 := by
  have hfind : t.find hashOf s = some (n.getId s) := h.getId_eq s
  unfold intern
  rw [hfind]
  by_cases hs : s ∈ n.names
  · have hintern : n.intern s = (n.names.idxOf s, n) := by
      unfold Interner.intern
      rw [dif_pos hs]
    rw [Interner.getId, if_pos hs, hintern]
    exact ⟨t, rfl, h⟩
  · rw [Interner.getId, if_neg hs]
    exact h.internNew_eq hs hsmall

end

/-! ## Sequences of calls -/

theorem textSize_le_of_prefix {a b : List String} (h : a <+: b) : textSize a ≤ textSize b := by
  obtain ⟨c, rfl⟩ := h
  rw [textSize_append]
  exact Nat.le_add_right _ _

theorem Represents.internAll_eq (h : Represents hashOf t n) (calls : List String)
    (hsmall : textSize (n.internAll calls).2.names < 2 ^ 32) :
    ∃ t', t.internAll hashOf calls = some ((n.internAll calls).1, t') ∧
      Represents hashOf t' (n.internAll calls).2 := by
  induction calls generalizing t n with
  | nil => exact ⟨t, rfl, h⟩
  | cons s rest ih =>
    have hpre := textSize_le_of_prefix (names_prefix_internAll (n.intern s).2 rest)
    obtain ⟨t₁, hintern, h₁⟩ := h.intern_eq s (Nat.lt_of_le_of_lt hpre hsmall)
    obtain ⟨t₂, hrest, h₂⟩ := ih h₁ hsmall
    refine ⟨t₂, ?_, h₂⟩
    simp only [internAll, hintern, hrest, Option.bind_eq_bind, Option.bind_some]
    rfl

/-- `StringInterner::default`, or with room for `capacity` strings. -/
def create (hashOf : String → UInt64) : Option Nat → Option StringInterner
  | none => some empty
  | some capacity => withCapacity hashOf capacity

theorem create_represents (hashOf : String → UInt64) (capacity : Option Nat) :
    ∃ t, create hashOf capacity = some t ∧ Represents hashOf t Interner.empty := by
  cases capacity with
  | none => exact ⟨empty, rfl, represents_empty hashOf⟩
  | some capacity => exact withCapacity_represents hashOf capacity

/-- With less than `2 ^ 32` bytes of distinct text, every call returns: a new string gets the next
number, equal strings equal numbers and different strings different ones, and at the end every
number stands for its string and every string is found under its number or not at all. -/
theorem internAll_numbers (hashOf : String → UInt64) (capacity : Option Nat) (calls : List String)
    (hsmall : textSize calls.dedup < 2 ^ 32) :
    ∃ start ids t, create hashOf capacity = some start ∧
      start.internAll hashOf calls = some (ids, t) ∧ ids.length = calls.length ∧
      (∀ (k : Nat) s, calls[k]? = some s → s ∉ calls.take k →
        ids[k]? = some (calls.take k).dedup.length) ∧
      (∀ (i j : Nat) a b, calls[i]? = some a → calls[j]? = some b → (ids[i]? = ids[j]? ↔ a = b)) ∧
      (∀ (k : Nat) s id, calls[k]? = some s → ids[k]? = some id →
        t.resolve id = some s ∧ t.getId hashOf s = some (some id)) ∧
      ∀ s, s ∉ calls → t.getId hashOf s = some none := by
  obtain ⟨start, hstart, h⟩ := create_represents hashOf capacity
  have hperm := internAll_empty_perm calls
  obtain ⟨t, hrun, ht⟩ := h.internAll_eq calls
    ((hperm.map String.utf8ByteSize).sum_nat.trans_lt hsmall)
  have hids := internAll_ids Interner.empty calls
  have hid : ∀ (k : Nat) s, calls[k]? = some s →
      ∃ id, (Interner.empty.internAll calls).1[k]? = some id ∧
        (Interner.empty.internAll calls).2.getId s = some id := by
    intro k s hk
    have := congrArg (fun l : List (Option Nat) => l[k]?) hids
    simpa [hk, eq_comm] using this
  refine ⟨start, _, t, hstart, hrun, ?_, ?_, ?_, ?_, ?_⟩
  · simpa using congrArg List.length hids
  · intro k s hk hfresh
    rw [internAll_fresh _ hk not_mem_nil hfresh,
      (internAll_empty_perm _).length_eq]
  · intro i j a b hi hj
    obtain ⟨x, hx, hxa⟩ := hid i a hi
    obtain ⟨y, hy, hyb⟩ := hid j b hj
    rw [hx, hy, ← hxa, ← hyb]
    refine ⟨fun he => ?_, fun he => he ▸ rfl⟩
    rw [hyb] at he
    exact Option.some.inj ((getId_eq_some.mp he).symm.trans
      (getId_eq_some.mp hyb))
  · intro k s id hk hkid
    obtain ⟨x, hx, hget⟩ := hid k s hk
    obtain rfl : x = id := Option.some.inj (hx.symm.trans hkid)
    exact ⟨ht.resolve_eq (getId_eq_some.mp hget), by rw [ht.getId_eq, hget]⟩
  · intro s hs
    rw [ht.getId_eq, Interner.getId, if_neg]
    rw [hperm.mem_iff, List.mem_dedup]
    exact hs

/-- Strings that all share one hash. -/
theorem internAll_numbers_colliding :
    ∃ start ids t, create (fun _ => 0) none = some start ∧
      start.internAll (fun _ => 0) ["a", "b", "a", ""] = some (ids, t) ∧ ids[2]? = some 0 ∧
      ids[3]? = some 2 ∧ t.getId (fun _ => 0) "c" = some none := by
  obtain ⟨start, ids, t, hstart, hrun, -, hnew, hsame, -, habsent⟩ :=
    internAll_numbers (fun _ => 0) none ["a", "b", "a", ""] (by decide)
  refine ⟨start, ids, t, hstart, hrun, ?_, hnew 3 "" rfl (by decide), habsent "c" (by decide)⟩
  rw [(hsame 2 0 "a" "a" rfl rfl).mpr rfl]
  exact hnew 0 "a" rfl (by decide)

end StringInterner

end WeaveGraph
