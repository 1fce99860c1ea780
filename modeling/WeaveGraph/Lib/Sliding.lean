import Mathlib.Data.List.Basic

/-!
# Rolling windows

The times of events, in the order they happened.  However a window of a given width is placed, it
holds at most `bound` events (`AtMost`), as long as each event finds fewer than that in the width
before it (`AtMost.append`).
-/

namespace Lib.Sliding

open List

variable {bound width : Nat} {times : List Nat}

/-- The events of the window that starts at `t`. -/
def within (width t : Nat) (times : List Nat) : Nat :=
  times.countP fun a => decide (t ≤ a ∧ a < t + width)

/-- The events less than `width` ago. -/
def recent (width now : Nat) (times : List Nat) : Nat :=
  times.countP fun a => decide (now < a + width)

def AtMost (bound width : Nat) (times : List Nat) : Prop := ∀ t, within width t times ≤ bound

variable {now : Nat}

theorem recent_anti {later : Nat} (h : now ≤ later) :
    recent width later times ≤ recent width now times := by
  refine countP_mono_left fun a _ ha => ?_
  simp only [decide_eq_true_eq] at ha ⊢
  omega

theorem recent_append (hwidth : 0 < width) :
    recent width now (times ++ [now]) = recent width now times + 1 := by
  have hnow : decide (now < now + width) = true := decide_eq_true (by omega)
  rw [recent, countP_append, countP_singleton, if_pos hnow]
  rfl

theorem within_le_recent {t : Nat} (hnow : now < t + width) :
    within width t times ≤ recent width now times := by
  refine countP_mono_left fun a _ ha => ?_
  simp only [decide_eq_true_eq] at ha ⊢
  omega

theorem AtMost.append (h : AtMost bound width times) (hroom : recent width now times < bound) :
    AtMost bound width (times ++ [now]) := by
  intro t
  have ht := h t
  rw [within, countP_append, countP_singleton]
  change within width t times + _ ≤ bound
  by_cases hin : t ≤ now ∧ now < t + width
  · have hle : within width t times ≤ recent width now times := within_le_recent hin.2
    rw [if_pos (decide_eq_true hin)]
    omega
  · rw [if_neg (by simpa using hin)]
    omega

end Lib.Sliding
