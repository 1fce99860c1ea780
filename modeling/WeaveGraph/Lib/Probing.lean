import Mathlib.Data.List.Nodup
import Mathlib.Data.List.Perm.Subperm
import Mathlib.Data.Nat.Find
import Mathlib.Data.Nat.ModEq
import Mathlib.Data.Nat.Bitwise

/-!
# Open addressing with linear probing

A table of a power of two of slots, some of them vacant.  A search starts at a home slot and goes
round until it meets a slot it can answer at; `probe` is that loop, with the number of slots it
may look at, and has no result when it looks at more or when a slot cannot be read.

    lookup :  stop at a vacant slot (absent) or at the key's own entry
    place  :  stop at a vacant slot, and write there

`Holds` says that every entry is met from its home before a vacant slot is.  It holds of an empty
table and `place` keeps it, and with a slot to spare `lookup` is a search of the entries.
-/

namespace Lib.Probing

open List

variable {β κ ρ : Type}

/-- The slot `d` steps after `home` on a ring of `n`. -/
def ring (n home d : Nat) : Nat := (home + d) % n

variable {n home k d : Nat} {slots : List β} {judge : β → Option (Option ρ)} {b : β} {r : ρ}

theorem exists_ring {i : Nat} (hi : i < n) (hh : home < n) : ∃ d < n, ring n home d = i := by
  refine ⟨(i + n - home) % n, Nat.mod_lt _ (by omega), ?_⟩
  unfold ring
  rw [Nat.add_mod_mod, show home + (i + n - home) = i + n by omega, Nat.add_mod_right,
    Nat.mod_eq_of_lt hi]

/-! ## The loop -/

/-- Look at the slots from `slot` on until one has a verdict. -/
def probe (slots : List β) (judge : β → Option (Option ρ)) : Nat → Nat → Option (Nat × ρ)
  | 0, _ => none
  | fuel + 1, slot =>
    match slots[slot]? with
    | none => none
    | some b =>
      match judge b with
      | none => none
      | some (some r) => some (slot, r)
      | some none => probe slots judge fuel ((slot + 1) &&& (slots.length - 1))

/-- The first slot met from `home` that has a verdict, and the verdict. -/
structure Met (slots : List β) (judge : β → Option (Option ρ)) (home d : Nat) (b : β) (r : ρ) :
    Prop where
  read : slots[ring slots.length home d]? = some b
  verdict : judge b = some (some r)
  passed : ∀ e < d, ∃ c, slots[ring slots.length home e]? = some c ∧ judge c = some none

theorem next_ring (hn : n = 2 ^ k) : (ring n home d + 1) &&& (n - 1) = ring n home (d + 1) := by
  subst hn
  rw [Nat.and_two_pow_sub_one_eq_mod]
  unfold ring
  rw [Nat.mod_add_mod, Nat.add_assoc]

theorem probe_of_met (hn : slots.length = 2 ^ k) (h : Met slots judge home d b r) :
    ∀ (fuel s : Nat), s ≤ d → d - s < fuel →
      probe slots judge fuel (ring slots.length home s) = some (ring slots.length home d, r) := by
  intro fuel
  induction fuel with
  | zero =>
    omega
  | succ fuel ih =>
    intro s hs hlt
    unfold probe
    rcases Nat.lt_or_eq_of_le hs with hsd | rfl
    · obtain ⟨c, hc, hj⟩ := h.passed s hsd
      simp only [hc, hj]
      rw [next_ring hn]
      exact ih (s + 1) hsd (by omega)
    · simp only [h.read, h.verdict]

theorem exists_met (judge : β → Option (Option ρ)) {i : Nat} (hh : home < slots.length)
    (hjudge : ∀ c ∈ slots, judge c ≠ none) (hi : slots[i]? = some b) (hb : judge b = some (some r))
    :
    ∃ d c r', d < slots.length ∧ Met slots judge home d c r' := by
  classical
  have hpos : 0 < slots.length := Nat.zero_lt_of_lt hh
  have hread : ∀ e, ∃ c, slots[ring slots.length home e]? = some c :=
    fun e => ⟨_, getElem?_eq_getElem (Nat.mod_lt _ hpos)⟩
  obtain ⟨e, hlt, he⟩ := exists_ring (List.getElem?_eq_some_iff.mp hi).1 hh
  have hex : ∃ d, ∃ c r', slots[ring slots.length home d]? = some c ∧ judge c = some (some r') :=
    ⟨e, b, r, he ▸ hi, hb⟩
  obtain ⟨c, r', hc, hj⟩ := Nat.find_spec hex
  refine ⟨Nat.find hex, c, r', lt_of_le_of_lt (Nat.find_min' hex ⟨b, r, he ▸ hi, hb⟩) hlt, hc, hj,
    fun e' he' => ?_⟩
  obtain ⟨c', hc'⟩ := hread e'
  refine ⟨c', hc', ?_⟩
  cases hv : judge c' with
  | none => exact absurd hv (hjudge c' (mem_of_getElem? hc'))
  | some v =>
    cases v with
    | none => rfl
    | some r'' => exact absurd ⟨c', r'', hc', hv⟩ (Nat.find_min hex he')

/-- Started at its home with a round of fuel, the loop ends at the first verdict. -/
theorem probe_eq (hn : slots.length = 2 ^ k) (hh : home < slots.length) (hd : d < slots.length)
    (h : Met slots judge home d b r) :
    probe slots judge slots.length home = some (ring slots.length home d, r) := by
  have hstart : ring slots.length home 0 = home := Nat.mod_eq_of_lt hh
  have := probe_of_met hn h slots.length 0 (Nat.zero_le d) (by omega)
  rwa [hstart] at this

/-! ## Entries -/

/-- The table holds exactly these entries, each of them once, and each is met from its home. -/
structure Holds (vacant : β) (home : β → Nat) (slots ids : List β) : Prop where
  genuine : vacant ∉ ids
  only : ∀ b ∈ slots, b = vacant ∨ b ∈ ids
  once : ∀ {i j : Nat} {b : β}, slots[i]? = some b → slots[j]? = some b → b ≠ vacant → i = j
  met : ∀ b ∈ ids, ∃ d < slots.length, slots[ring slots.length (home b) d]? = some b ∧
    ∀ e < d, ∃ c ∈ ids, slots[ring slots.length (home b) e]? = some c

section holds

variable {vacant : β} {home : β → Nat} {slots ids : List β}

theorem holds_replicate (vacant : β) (home : β → Nat) (n : Nat) :
    Holds vacant home (List.replicate n vacant) [] where
  genuine := not_mem_nil
  only := fun _ hb => .inl (eq_of_mem_replicate hb)
  once := fun hi _ hb => absurd (eq_of_mem_replicate (mem_of_getElem? hi)) hb
  met := fun _ hb => absurd hb not_mem_nil

theorem Holds.congr (h : Holds vacant home slots ids) {home' : β → Nat}
    (he : ∀ b ∈ ids, home b = home' b) : Holds vacant home' slots ids where
  genuine := h.genuine
  only := h.only
  once := h.once
  met := fun b hb => he b hb ▸ h.met b hb

variable {b : β}

theorem Holds.ne_vacant (h : Holds vacant home slots ids) (hb : b ∈ ids) : b ≠ vacant :=
  fun he => h.genuine (he ▸ hb)

theorem Holds.exists_vacant (h : Holds vacant home slots ids) (hlt : ids.length < slots.length) :
    vacant ∈ slots := by
  by_contra hv
  have hmem : ∀ b ∈ slots, b ∈ ids := fun b hb =>
    (h.only b hb).resolve_left fun he => hv (he ▸ hb)
  have hnodup : slots.Nodup := by
    rw [nodup_iff_getElem?_ne_getElem?]
    intro i j hij hj he
    have hb := getElem?_eq_getElem hj
    have : i = j := h.once (he.trans hb) hb fun hv' => hv (hv' ▸ getElem_mem hj)
    omega
  have := (subperm_of_subset hnodup hmem).length_le
  omega

theorem getElem?_set_passed {i j : Nat} {c : β} (hc : c ≠ vacant) (hi : slots[i]? = some vacant)
    (hj : slots[j]? = some c) : (slots.set i b)[j]? = some c := by
  rw [getElem?_set_ne]
  · exact hj
  · rintro rfl
    exact hc (Option.some.inj (hj.symm.trans hi))

theorem Holds.set (h : Holds vacant home slots ids) {d : Nat} (hb : b ≠ vacant) (hfresh : b ∉ ids)
    (hd : d < slots.length) (hv : slots[ring slots.length (home b) d]? = some vacant)
    (hp : ∀ e < d, ∃ c ∈ ids, slots[ring slots.length (home b) e]? = some c) :
    Holds vacant home (slots.set (ring slots.length (home b) d) b) (ids ++ [b]) := by
  have hself : (slots.set (ring slots.length (home b) d) b)[ring slots.length (home b) d]? =
      some b := by
    rw [getElem?_set_self]
    exact (List.getElem?_eq_some_iff.mp hv).1
  have hread : ∀ {i : Nat} {c : β}, (slots.set (ring slots.length (home b) d) b)[i]? = some c →
      i = ring slots.length (home b) d ∧ c = b ∨ slots[i]? = some c ∧ c ≠ b := by
    intro i c hi
    by_cases hid : i = ring slots.length (home b) d
    · subst hid
      exact .inl ⟨rfl, (Option.some.inj (hself.symm.trans hi)).symm⟩
    · rw [getElem?_set_ne (Ne.symm hid)] at hi
      refine .inr ⟨hi, ?_⟩
      rintro rfl
      exact (h.only c (mem_of_getElem? hi)).elim hb hfresh
  have hmem : ∀ {c : β}, c ∈ ids → c ∈ ids ++ [b] := mem_append_left _
  refine ⟨?_, fun c hc => ?_, fun {i j c} hi hj hc => ?_, fun c hc => ?_⟩
  · simp [h.genuine, Ne.symm hb]
  · obtain ⟨i, hi⟩ := getElem?_of_mem hc
    rcases hread hi with ⟨-, rfl⟩ | ⟨hi, -⟩
    · exact .inr (mem_append_right _ (mem_singleton_self c))
    · exact (h.only c (mem_of_getElem? hi)).imp_right hmem
  · rcases hread hi with ⟨hi, hcb⟩ | ⟨hi, hcb⟩ <;> rcases hread hj with ⟨hj, hcb'⟩ | ⟨hj, hcb'⟩
    · exact hi.trans hj.symm
    · exact absurd hcb hcb'
    · exact absurd hcb' hcb
    · exact h.once hi hj hc
  · rw [length_set]
    rcases mem_append.mp hc with hc | hc
    · obtain ⟨e, he, hat, hpass⟩ := h.met c hc
      refine ⟨e, he, getElem?_set_passed (h.ne_vacant hc) hv hat, fun e' he' => ?_⟩
      obtain ⟨c', hc', hat'⟩ := hpass e' he'
      exact ⟨c', hmem hc', getElem?_set_passed (h.ne_vacant hc') hv hat'⟩
    · obtain rfl := mem_singleton.mp hc
      refine ⟨d, hd, hself, fun e he => ?_⟩
      obtain ⟨c', hc', hat'⟩ := hp e he
      exact ⟨c', hmem hc', getElem?_set_passed (h.ne_vacant hc') hv hat'⟩

end holds

/-! ## Placing and looking up -/

section entries

variable [DecidableEq β] [DecidableEq κ] (vacant : β)

/-- Stop at a vacant slot. -/
def atVacant (b : β) : Option (Option Unit) := some (if b = vacant then some () else none)

/-- Stop at a vacant slot, and at the entry of the key. -/
def atKey (read : β → Option κ) (key : κ) (b : β) : Option (Option (Option β)) :=
  if b = vacant then some (some none)
  else (read b).map fun k => if k = key then some (some b) else none

/-- The entry of a key whose home is given. -/
def lookup (read : β → Option κ) (slots : List β) (home : Nat) (key : κ) : Option (Option β) :=
  (probe slots (atKey vacant read key) slots.length home).map Prod.snd

/-- The table with an entry at the first vacant slot from its home on. -/
def place (slots : List β) (home : Nat) (b : β) : Option (List β) :=
  (probe slots (atVacant vacant) slots.length home).map fun p => slots.set p.1 b

variable {vacant} {home : β → Nat} {slots ids : List β}

variable {b : β}

theorem atVacant_eq_some {r : Unit} : atVacant vacant b = some (some r) ↔ b = vacant := by
  simp [atVacant]

theorem atVacant_eq_none : atVacant vacant b = some none ↔ b ≠ vacant := by
  simp [atVacant]

theorem Holds.place_eq {k : Nat} (h : Holds vacant home slots ids) (hn : slots.length = 2 ^ k)
    (hlt : ids.length < slots.length) (hb : b ≠ vacant) (hfresh : b ∉ ids)
    (hhome : home b < slots.length) :
    ∃ slots', place vacant slots (home b) b = some slots' ∧ slots'.length = slots.length ∧
      Holds vacant home slots' (ids ++ [b]) := by
  obtain ⟨i, hi⟩ := getElem?_of_mem (h.exists_vacant hlt)
  have hstop : atVacant vacant vacant = some (some ()) := atVacant_eq_some.mpr rfl
  obtain ⟨d, c, r, hd, hm⟩ := exists_met (atVacant vacant) hhome
    (fun c _ => Option.some_ne_none _) hi hstop
  have hplace : place vacant slots (home b) b =
      some (slots.set (ring slots.length (home b) d) b) := by
    rw [place, probe_eq hn hhome hd hm]
    rfl
  refine ⟨_, hplace, length_set, ?_⟩
  refine h.set hb hfresh hd (atVacant_eq_some.mp hm.verdict ▸ hm.read) fun e he => ?_
  obtain ⟨c', hc', hj⟩ := hm.passed e he
  have hne := atVacant_eq_none.mp hj
  exact ⟨c', (h.only c' (mem_of_getElem? hc')).resolve_left hne, hc'⟩

/-- With a slot to spare, a lookup ends and finds the entry of the key, if there is one. -/
theorem Holds.lookup_eq {k start : Nat} (h : Holds vacant home slots ids)
    (hn : slots.length = 2 ^ k) (hlt : ids.length < slots.length) (read : β → Option κ)
    {name : β → κ} (hread : ∀ b ∈ ids, read b = some (name b))
    (hinj : ∀ b ∈ ids, ∀ c ∈ ids, name b = name c → b = c) (key : κ)
    (hstart : start < slots.length) (hhome : ∀ b ∈ ids, name b = key → home b = start) :
    ∃ r, lookup vacant read slots start key = some r ∧ ∀ b, r = some b ↔ b ∈ ids ∧ name b = key := by
  have hkey : ∀ b ∈ ids, atKey vacant read key b =
      some (if name b = key then some (some b) else none) := by
    intro b hb
    rw [atKey, if_neg (h.ne_vacant hb), hread b hb]
    rfl
  have hvac : atKey vacant read key vacant = some (some none) := if_pos rfl
  have hjudge : ∀ c ∈ slots, atKey vacant read key c ≠ none := by
    intro c hc
    rcases h.only c hc with rfl | hc
    · simp [hvac]
    · simp [hkey c hc]
  obtain ⟨i, hi⟩ := getElem?_of_mem (h.exists_vacant hlt)
  obtain ⟨d, c, r, hd, hm⟩ := exists_met _ hstart hjudge hi hvac
  refine ⟨r, by rw [lookup, probe_eq hn hstart hd hm]; rfl, fun b => ?_⟩
  -- a vacant slot comes first only where no entry has the key
  rcases h.only c (mem_of_getElem? hm.read) with rfl | hc
  · obtain rfl : none = r := by simpa [hvac] using hm.verdict
    refine ⟨fun hb => by simp at hb, fun ⟨hb, hname⟩ => ?_⟩
    exfalso
    obtain ⟨e, -, hat, hpass⟩ := h.met b hb
    rw [hhome b hb hname] at hat hpass
    rcases Nat.lt_trichotomy d e with hde | rfl | hed
    · obtain ⟨c', hc', hat'⟩ := hpass d hde
      exact h.ne_vacant hc' (Option.some.inj (hat'.symm.trans hm.read))
    · exact h.ne_vacant hb (Option.some.inj (hat.symm.trans hm.read))
    · obtain ⟨c', hc', hj⟩ := hm.passed e hed
      obtain rfl : b = c' := Option.some.inj (hat.symm.trans hc')
      simp [hkey b hb, hname] at hj
  · have hv := (hkey c hc).symm.trans hm.verdict
    by_cases hname : name c = key
    · obtain rfl : some c = r := by simpa [hname] using hv
      rw [Option.some.injEq]
      refine ⟨fun he => he ▸ ⟨hc, hname⟩, fun ⟨hb, hb'⟩ => hinj c hc b hb (hname.trans hb'.symm)⟩
    · simp [hname] at hv

end entries

end Lib.Probing
