import Mathlib.Data.UInt

/-!
# Framed fields

A field of bytes is written after its length, and the length takes a fixed number of bytes.  A
sequence of such frames is read in one way only:

    frames width l = frames width l' → l = l'                                        (frames_inj)

as long as every length fits.
-/

namespace Lib.Framing

open List

/-- The lowest `width` bytes of a number, the highest one first. -/
def bigEndian : Nat → Nat → List UInt8
  | 0, _ => []
  | width + 1, n => bigEndian width (n / 256) ++ [UInt8.ofNat n]

/-- The number that bytes stand for. -/
def value (bytes : List UInt8) : Nat := bytes.foldl (fun n b => 256 * n + b.toNat) 0

theorem length_bigEndian (width n : Nat) : (bigEndian width n).length = width := by
  induction width generalizing n with
  | zero => rfl
  | succ width ih => rw [bigEndian, length_append, ih, length_singleton]

variable {width : Nat}

theorem value_bigEndian {n : Nat} (h : n < 256 ^ width) : value (bigEndian width n) = n := by
  induction width generalizing n with
  | zero =>
    have hn : n = 0 := by
      omega
    rw [hn]
    rfl
  | succ width ih =>
    have hdiv : n / 256 < 256 ^ width := by
      rw [Nat.div_lt_iff_lt_mul (by decide), ← Nat.pow_succ]
      exact h
    have hinit := ih hdiv
    unfold value at hinit ⊢
    rw [bigEndian, foldl_append, hinit]
    show 256 * (n / 256) + (UInt8.ofNat n).toNat = n
    rw [UInt8.toNat_ofNat']
    omega

theorem bigEndian_inj {m n : Nat} (hm : m < 256 ^ width) (hn : n < 256 ^ width)
    (h : bigEndian width m = bigEndian width n) : m = n := by
  rw [← value_bigEndian hm, h, value_bigEndian hn]

def frame (width : Nat) (field : List UInt8) : List UInt8 := bigEndian width field.length ++ field

def frames (width : Nat) (fields : List (List UInt8)) : List UInt8 := fields.flatMap (frame width)

theorem frame_append_inj {f f' rest rest' : List UInt8} (hf : f.length < 256 ^ width)
    (hf' : f'.length < 256 ^ width) (h : frame width f ++ rest = frame width f' ++ rest') :
    f = f' ∧ rest = rest' := by
  unfold frame at h
  rw [append_assoc, append_assoc] at h
  have hlen : (bigEndian width f.length).length = (bigEndian width f'.length).length := by
    rw [length_bigEndian, length_bigEndian]
  obtain ⟨hlength, htail⟩ := append_inj h hlen
  exact append_inj htail (bigEndian_inj hf hf' hlength)

theorem frames_inj {l l' : List (List UInt8)} (hcount : l.length = l'.length)
    (hl : ∀ f ∈ l, f.length < 256 ^ width) (hl' : ∀ f ∈ l', f.length < 256 ^ width)
    (h : frames width l = frames width l') : l = l' := by
  induction l generalizing l' with
  | nil =>
    cases l' with
    | nil => rfl
    | cons f' l' => cases hcount
  | cons f l ih =>
    cases l' with
    | nil => cases hcount
    | cons f' l' =>
      obtain ⟨rfl, htail⟩ := frame_append_inj (hl f mem_cons_self) (hl' f' mem_cons_self) h
      rw [ih (Nat.succ.inj hcount) (fun g hg => hl g (mem_cons_of_mem f hg))
        (fun g hg => hl' g (mem_cons_of_mem f hg)) htail]

end Lib.Framing
