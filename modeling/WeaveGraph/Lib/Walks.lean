import Mathlib.Data.List.Chain
import Mathlib.Data.Nat.Find

/-!
# Walks along a relation

`Walk r n a b` is a walk of `n` steps from `a` to `b`; `Within r h a b` says that there is one of at
most `h` steps, and `Dist r a n b` that the shortest one has `n`.  `IsPath r a b l` is a walk written
out as the list of its vertices, both ends included.
-/

namespace Lib

open List

section walks

variable {α : Type} (r : α → α → Prop)

inductive Walk : Nat → α → α → Prop
  | nil (a : α) : Walk 0 a a
  | snoc {n : Nat} {a b c : α} : Walk n a b → r b c → Walk (n + 1) a c

def Within (h : Nat) (a b : α) : Prop := ∃ n ≤ h, Walk r n a b

def Dist (a : α) (n : Nat) (b : α) : Prop := Walk r n a b ∧ ∀ m, Walk r m a b → n ≤ m

structure IsPath (a b : α) (l : List α) : Prop where
  head : l.head? = some a
  last : l.getLast? = some b
  steps : l.IsChain r

variable {r} {a b c : α} {n m h : Nat}

theorem walk_zero : Walk r 0 a b ↔ a = b := by
  constructor
  · intro hw
    cases hw
    rfl
  · rintro rfl
    exact .nil a

theorem walk_succ : Walk r (n + 1) a c ↔ ∃ b, Walk r n a b ∧ r b c := by
  constructor
  · intro hw
    cases hw with
    | snoc hw hr => exact ⟨_, hw, hr⟩
  · rintro ⟨b, hw, hr⟩
    exact .snoc hw hr

theorem Walk.cons (hr : r a b) (hw : Walk r n b c) : Walk r (n + 1) a c := by
  induction hw with
  | nil b => exact .snoc (.nil a) hr
  | snoc _ hstep ih => exact .snoc (ih hr) hstep

theorem Walk.swap (hw : Walk r n a b) : Walk (fun x y => r y x) n b a := by
  induction hw with
  | nil a => exact .nil a
  | snoc _ hstep ih => exact ih.cons hstep

theorem Walk.eq_or_step (hw : Walk r n a b) : a = b ∨ ∃ c, r a c := by
  induction hw with
  | nil a => exact Or.inl rfl
  | snoc _ hstep ih =>
    rcases ih with rfl | hc
    · exact Or.inr ⟨_, hstep⟩
    · exact Or.inr hc

theorem exists_walk_iff : (∃ n, Walk r n a b) ↔ Relation.ReflTransGen r a b := by
  constructor
  · rintro ⟨n, hw⟩
    induction hw with
    | nil a => exact .refl
    | snoc _ hstep ih => exact ih.tail hstep
  · intro hr
    induction hr with
    | refl => exact ⟨0, .nil a⟩
    | tail _ hstep ih =>
      obtain ⟨n, hw⟩ := ih
      exact ⟨n + 1, .snoc hw hstep⟩

/-! ## Distance -/

theorem within_zero : Within r 0 a b ↔ a = b := by
  constructor
  · rintro ⟨n, hn, hw⟩
    obtain rfl : n = 0 := by omega
    exact walk_zero.mp hw
  · rintro rfl
    exact ⟨0, le_rfl, .nil a⟩

theorem Within.mono (hh : h ≤ m) (hw : Within r h a b) : Within r m a b := by
  obtain ⟨n, hn, hw⟩ := hw
  exact ⟨n, by omega, hw⟩

theorem within_succ : Within r (h + 1) a c ↔ Within r h a c ∨ ∃ b, Within r h a b ∧ r b c := by
  constructor
  · rintro ⟨n, hn, hw⟩
    cases n with
    | zero => exact Or.inl ⟨0, by omega, hw⟩
    | succ n =>
      obtain ⟨b, hw, hr⟩ := walk_succ.mp hw
      exact Or.inr ⟨b, ⟨n, by omega, hw⟩, hr⟩
  · rintro (hw | ⟨b, ⟨n, hn, hw⟩, hr⟩)
    · exact hw.mono (by omega)
    · exact ⟨n + 1, by omega, .snoc hw hr⟩

theorem within_swap : Within (fun x y => r y x) h b a ↔ Within r h a b := by
  constructor
  · rintro ⟨n, hn, hw⟩
    exact ⟨n, hn, hw.swap⟩
  · rintro ⟨n, hn, hw⟩
    exact ⟨n, hn, hw.swap⟩

theorem dist_zero : Dist r a 0 b ↔ a = b := by
  constructor
  · exact fun hd => walk_zero.mp hd.1
  · rintro rfl
    exact ⟨.nil a, fun m _ => by omega⟩

theorem Dist.unique (hn : Dist r a n b) (hm : Dist r a m b) : n = m := by
  have h1 := hn.2 m hm.1
  have h2 := hm.2 n hn.1
  omega

theorem dist_succ_iff : Dist r a (n + 1) b ↔ Within r (n + 1) a b ∧ ¬ Within r n a b := by
  constructor
  · rintro ⟨hw, hmin⟩
    refine ⟨⟨n + 1, le_rfl, hw⟩, ?_⟩
    rintro ⟨m, hm, hw'⟩
    have := hmin m hw'
    omega
  · rintro ⟨⟨m, hm, hw⟩, hno⟩
    have hle : ∀ k, Walk r k a b → n + 1 ≤ k := by
      intro k hk
      by_contra hlt
      exact hno ⟨k, by omega, hk⟩
    obtain rfl : m = n + 1 := by
      have := hle m hw
      omega
    exact ⟨hw, hle⟩

theorem dist_succ_iff_exists :
    Dist r a (n + 1) c ↔ (∃ b, Dist r a n b ∧ r b c) ∧ ¬ Within r n a c := by
  constructor
  · intro hd
    obtain ⟨b, hw, hr⟩ := walk_succ.mp hd.1
    refine ⟨⟨b, ⟨hw, fun m hm => ?_⟩, hr⟩, (dist_succ_iff.mp hd).2⟩
    exact Nat.le_of_succ_le_succ (hd.2 (m + 1) (.snoc hm hr))
  · rintro ⟨⟨b, hb, hr⟩, hno⟩
    exact dist_succ_iff.mpr ⟨⟨n + 1, le_rfl, .snoc hb.1 hr⟩, hno⟩

theorem Walk.exists_dist (hw : Walk r n a b) : ∃ m ≤ n, Dist r a m b := by
  classical
  have hex : ∃ m, Walk r m a b := ⟨n, hw⟩
  exact ⟨Nat.find hex, Nat.find_min' hex hw, Nat.find_spec hex, fun m => Nat.find_min' hex⟩

/-! ## Paths -/

theorem isPath_singleton : IsPath r a b [a] ↔ a = b := by
  constructor
  · intro hp
    have := hp.last
    simpa using this
  · rintro rfl
    exact ⟨rfl, rfl, .singleton a⟩

variable {l : List α}

theorem IsPath.ne_nil (hp : IsPath r a b l) : l ≠ [] := by
  rintro rfl
  cases hp.head

theorem IsPath.snoc (hp : IsPath r a b l) (hr : r b c) : IsPath r a c (l ++ [c]) where
  head := by
    rw [head?_append_of_ne_nil _ hp.ne_nil, hp.head]
  last := getLast?_concat
  steps := by
    refine isChain_append.mpr ⟨hp.steps, .singleton c, ?_⟩
    intro x hx y hy
    rw [hp.last] at hx
    cases hx
    cases hy
    exact hr

theorem IsPath.cons {l : List α} (hr : r a b) (hp : IsPath r b c l) : IsPath r a c (a :: l) where
  head := rfl
  last := by
    rw [getLast?_cons, hp.last]
    rfl
  steps := by
    refine isChain_cons.mpr ⟨fun y hy => ?_, hp.steps⟩
    rw [hp.head] at hy
    cases hy
    exact hr

theorem Walk.exists_path (hw : Walk r n a b) : ∃ l, IsPath r a b l ∧ l.length = n + 1 := by
  induction hw with
  | nil a => exact ⟨[a], isPath_singleton.mpr rfl, rfl⟩
  | snoc _ hstep ih =>
    obtain ⟨l, hp, hlen⟩ := ih
    refine ⟨_, hp.snoc hstep, ?_⟩
    rw [length_append, hlen]
    rfl

theorem IsPath.walk : ∀ {l : List α} {a : α}, IsPath r a b l →
    ∃ n, l.length = n + 1 ∧ Walk r n a b := by
  intro l
  induction l with
  | nil =>
    intro a hp
    exact absurd rfl hp.ne_nil
  | cons x l ih =>
    intro a hp
    obtain rfl : x = a := Option.some.inj hp.head
    cases l with
    | nil => exact ⟨0, rfl, walk_zero.mpr (isPath_singleton.mp hp)⟩
    | cons y l =>
      obtain ⟨hxy, hsteps⟩ := isChain_cons_cons.mp hp.steps
      have hlast := hp.last
      obtain ⟨n, hlen, hw⟩ := ih ⟨rfl, hlast, hsteps⟩
      exact ⟨n + 1, by rw [length_cons, hlen], hw.cons hxy⟩

theorem IsPath.dist_iff (hp : IsPath r a b l) (hlen : l.length = n + 1) :
    Dist r a n b ↔ ∀ l', IsPath r a b l' → l.length ≤ l'.length := by
  constructor
  · intro hd l' hp'
    obtain ⟨m, hm, hw⟩ := hp'.walk
    have := hd.2 m hw
    omega
  · intro hmin
    obtain ⟨k, hk, hw⟩ := hp.walk
    obtain rfl : k = n := by omega
    refine ⟨hw, fun m hm => ?_⟩
    obtain ⟨l', hp', hl'⟩ := hm.exists_path
    have := hmin l' hp'
    omega

end walks

end Lib
