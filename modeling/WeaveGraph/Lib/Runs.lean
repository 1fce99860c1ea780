import Mathlib.Data.List.Basic

/-!
# Loops and runs

What a loop with a fallible body preserves, and what a transition system preserves along a run.
A run is a list of labels, each enabled in the state it is taken in; `Guarded` says that every
label of a run meets a condition in the state it is taken in, and `Along` that every state of it
has a property.  A worklist loop takes fuel; `Ends` says that it ends by itself before the fuel
does.  Where every step lowers a rank, runs end (`exec_length_le`) and can be run until they do
(`exists_stuck`).
-/

namespace Lib

open List

section loops

variable {ε σ α : Type}

variable {x : Except ε α} {P : σ → Prop} {l : List α}

theorem bind_eq_ok {β : Type} {f : α → Except ε β} {b : β} :
    (x >>= f) = .ok b ↔ ∃ a, x = .ok a ∧ f a = .ok b := by
  cases x with
  | error e => simp [bind, Except.bind]
  | ok a => simp [bind, Except.bind]

theorem exists_ok {P : α → Prop} [DecidablePred P]
    (h : (x.toOption.any fun a => decide (P a)) = true) : ∃ a, x = .ok a ∧ P a := by
  cases x with
  | error e => cases h
  | ok a => exact ⟨a, rfl, of_decide_eq_true h⟩

/-- What the body preserves, a loop that does not fail preserves. -/
theorem foldlM_invariant {f : σ → α → Except ε σ}
    (hf : ∀ a ∈ l, ∀ s s', P s → f s a = .ok s' → P s') :
    ∀ {s s' : σ}, P s → l.foldlM f s = .ok s' → P s' := by
  induction l with
  | nil =>
    intro s s' hs h
    cases h
    exact hs
  | cons a l ih =>
    intro s s' hs h
    rw [foldlM_cons, bind_eq_ok] at h
    obtain ⟨t, ht, h⟩ := h
    exact ih (fun b hb => hf b (mem_cons_of_mem _ hb)) (hf a mem_cons_self s t hs ht) h

theorem foldl_invariant {f : σ → α → σ} (hf : ∀ a ∈ l, ∀ s, P s → P (f s a)) :
    ∀ {s : σ}, P s → P (l.foldl f s) := by
  induction l with
  | nil => exact fun hs => hs
  | cons a l ih =>
    intro s hs
    exact ih (fun b hb => hf b (mem_cons_of_mem _ hb)) (hf a mem_cons_self s hs)

/-- A loop whose steps can only raise a flag raises it exactly when one of them does. -/
theorem foldl_iff_exists {f : σ → α → σ} {Q : α → Prop} (hf : ∀ a ∈ l, ∀ s, P (f s a) ↔ P s ∨ Q a) :
    ∀ {s : σ}, P (l.foldl f s) ↔ P s ∨ ∃ a ∈ l, Q a := by
  induction l with
  | nil =>
    simp
  | cons a l ih =>
    intro s
    rw [foldl_cons, ih fun b hb => hf b (mem_cons_of_mem _ hb),
      hf a mem_cons_self s, or_assoc, exists_mem_cons_iff]

end loops

section worklist

variable {σ α β : Type} (step : σ → α → β ⊕ (List α × σ)) (done : σ → β)

/-- Takes the first element of the queue until a step answers or the queue is empty; a step adds
elements at the queue's end. -/
def worklist : Nat → List α → σ → β
  | 0, _, s => done s
  | _ + 1, [], s => done s
  | n + 1, a :: queue, s =>
    match step s a with
    | .inl b => b
    | .inr (next, t) => worklist n (queue ++ next) t

/-- The loop ends within the fuel: a step answers, or the queue is emptied. -/
def Ends : Nat → List α → σ → Prop
  | _, [], _ => True
  | 0, _ :: _, _ => False
  | n + 1, a :: queue, s =>
    match step s a with
    | .inl _ => True
    | .inr (next, t) => Ends n (queue ++ next) t

/-- The elements of `l` that are not visited yet. -/
def unseen [DecidableEq α] (l visited : List α) : Nat := (l.filter fun a => a ∉ visited).length

variable {step done}

/-- When every element a step adds uses up some of `μ`, fuel for the queue and `μ` is enough. -/
theorem ends_of_measure {μ : σ → Nat}
    (hμ : ∀ s a next t, step s a = .inr (next, t) → next.length + μ t ≤ μ s) :
    ∀ {n : Nat} {queue : List α} {s : σ}, queue.length + μ s ≤ n → Ends step n queue s := by
  intro n
  induction n with
  | zero =>
    intro queue s hn
    obtain rfl : queue = [] := length_eq_zero_iff.1 (by omega)
    exact trivial
  | succ n ih =>
    intro queue s hn
    cases queue with
    | nil => exact trivial
    | cons a queue =>
      unfold Ends
      cases hs : step s a with
      | inl b => exact trivial
      | inr r =>
        have h := hμ s a r.1 r.2 hs
        rw [length_cons] at hn
        exact ih (by rw [length_append]; omega)

/-- Once the loop ends, more fuel changes nothing. -/
theorem Ends.worklist_eq : ∀ {n m : Nat} {queue : List α} {s : σ}, Ends step n queue s → n ≤ m →
    worklist step done m queue s = worklist step done n queue s := by
  intro n
  induction n with
  | zero =>
    intro m queue s h _
    cases queue with
    | nil => cases m <;> rfl
    | cons a queue => exact h.elim
  | succ n ih =>
    intro m queue s h hm
    obtain ⟨m, rfl⟩ : ∃ k, m = k + 1 := ⟨m - 1, by omega⟩
    cases queue with
    | nil => rfl
    | cons a queue =>
      unfold Ends at h
      simp only [worklist]
      cases hs : step s a with
      | inl b => rfl
      | inr r =>
        rw [hs] at h
        exact ih h (by omega)

/-- Loops whose steps keep their states related give related answers; the queue of one is the image
of the other's. -/
theorem worklist_rel {τ α' β' : Type} {step' : τ → α' → β' ⊕ (List α' × τ)} {done' : τ → β'}
    {R : σ → τ → Prop} {Q : β → β' → Prop} (f : α' → α)
    (hdone : ∀ s t, R s t → Q (done s) (done' t))
    (hstep : ∀ s t a, R s t →
      Sum.LiftRel Q (fun x y => x.1 = y.1.map f ∧ R x.2 y.2) (step s (f a)) (step' t a)) :
    ∀ {n : Nat} (queue : List α') {s : σ} {t : τ}, R s t →
      Q (worklist step done n (queue.map f) s) (worklist step' done' n queue t) := by
  intro n
  induction n with
  | zero => exact fun _ _ _ h => hdone _ _ h
  | succ n ih =>
    intro queue s t h
    cases queue with
    | nil => exact hdone s t h
    | cons a queue =>
      have hst := hstep s t a h
      simp only [worklist, map_cons]
      cases hs : step s (f a) with
      | inl b =>
        cases ht : step' t a with
        | inl b' =>
          rw [hs, ht, Sum.liftRel_inl_inl] at hst
          exact hst
        | inr y =>
          rw [hs, ht] at hst
          cases hst
      | inr x =>
        cases ht : step' t a with
        | inl b' =>
          rw [hs, ht] at hst
          cases hst
        | inr y =>
          rw [hs, ht, Sum.liftRel_inr_inr] at hst
          dsimp only
          rw [hst.1, ← map_append]
          exact ih _ hst.2

theorem worklist_congr {τ : Type} {step' : τ → α → β ⊕ (List α × τ)} {done' : τ → β}
    {R : σ → τ → Prop} (hdone : ∀ s t, R s t → done s = done' t)
    (hstep : ∀ s t a, R s t →
      Sum.LiftRel Eq (fun x y => x.1 = y.1 ∧ R x.2 y.2) (step s a) (step' t a))
    {n : Nat} {queue : List α} {s : σ} {t : τ} (h : R s t) :
    worklist step done n queue s = worklist step' done' n queue t := by
  have hmap : worklist step done n (queue.map id) s = worklist step' done' n queue t :=
    worklist_rel id hdone (by simpa using hstep) queue h
  rwa [map_id] at hmap

theorem unseen_congr [DecidableEq α] {l visited visited' : List α}
    (h : ∀ a, a ∈ visited' ↔ a ∈ visited) : unseen l visited' = unseen l visited := by
  simp only [unseen, h]

theorem unseen_insert [DecidableEq α] {l visited visited' : List α} {a : α} (ha : a ∈ l)
    (hv : a ∉ visited) (h : ∀ b, b ∈ visited' ↔ b = a ∨ b ∈ visited) :
    unseen l visited' + 1 ≤ unseen l visited := by
  have hsub : l.filter (fun b => b ∉ visited') =
      (l.filter fun b => b ∉ visited).filter fun b => b ≠ a := by
    rw [filter_filter]
    refine filter_congr fun b _ => ?_
    simp [h]
  have hmem : a ∈ l.filter fun b => b ∉ visited := by simp [ha, hv]
  unfold unseen
  rw [hsub]
  exact length_filter_lt_length_iff_exists.2 ⟨a, hmem, by simp⟩

end worklist

section runs

variable {σ ι : Type} (step : σ → ι → Option σ) (guard : σ → ι → Prop)

/-- The state a run ends in; `none` when one of its labels is not enabled. -/
def exec : σ → List ι → Option σ
  | s, [] => some s
  | s, i :: l =>
    match step s i with
    | some t => exec t l
    | none => none

/-- Every label of the run meets the condition in the state it is taken in. -/
def Guarded : σ → List ι → Prop
  | _, [] => True
  | s, i :: l =>
    guard s i ∧ match step s i with
      | some t => Guarded t l
      | none => True

instance decidableGuarded [∀ s i, Decidable (guard s i)] :
    ∀ (l : List ι) (s : σ), Decidable (Guarded step guard s l)
  | [], _ => isTrue trivial
  | i :: l, s =>
    have : Decidable (match step s i with
        | some t => Guarded step guard t l
        | none => True) :=
      match step s i with
      | some t => decidableGuarded l t
      | none => isTrue trivial
    inferInstanceAs (Decidable (_ ∧ _))

variable {step guard}

variable {s : σ} {P : σ → Prop}

theorem exec_cons {t : σ} {i : ι} {l : List ι} :
    exec step s (i :: l) = some t ↔ ∃ u, step s i = some u ∧ exec step u l = some t := by
  simp only [exec]
  cases step s i with
  | none => simp
  | some u => simp

theorem exec_append {t u : σ} {l l' : List ι} (h : exec step s l = some t)
    (h' : exec step t l' = some u) : exec step s (l ++ l') = some u := by
  induction l generalizing s with
  | nil =>
    cases h
    exact h'
  | cons i l ih =>
    obtain ⟨v, hv, h⟩ := exec_cons.mp h
    exact exec_cons.mpr ⟨v, hv, ih h⟩

/-- What every step that meets the condition preserves, every run of such steps preserves. -/
theorem exec_invariant (hstep : ∀ s i t, P s → guard s i → step s i = some t → P t) :
    ∀ (l : List ι) {s t : σ}, P s → Guarded step guard s l → exec step s l = some t → P t := by
  intro l
  induction l with
  | nil =>
    intro s t hs _ h
    cases h
    exact hs
  | cons i l ih =>
    intro s t hs hg h
    obtain ⟨hgi, hg⟩ := hg
    obtain ⟨u, hu, h⟩ := exec_cons.mp h
    simp only [hu] at hg
    exact ih (hstep s i u hs hgi hu) hg h

theorem exists_exec [DecidablePred P] {l : List ι}
    (h : ((exec step s l).any fun t => decide (P t)) = true) :
    ∃ t, exec step s l = some t ∧ P t := by
  obtain ⟨t, ht, hP⟩ := (Option.any_eq_true _ _).mp h
  exact ⟨t, ht, of_decide_eq_true hP⟩

variable (step) in
/-- Every state of the run has the property, up to a label that is not enabled. -/
def Along (P : σ → Prop) : σ → List ι → Prop
  | s, [] => P s
  | s, i :: l =>
    P s ∧ match step s i with
      | some t => Along P t l
      | none => True

instance decidableAlong {P : σ → Prop} [DecidablePred P] :
    ∀ (l : List ι) (s : σ), Decidable (Along step P s l)
  | [], s => inferInstanceAs (Decidable (P s))
  | i :: l, s =>
    have : Decidable (match step s i with
        | some t => Along step P t l
        | none => True) :=
      match step s i with
      | some t => decidableAlong l t
      | none => isTrue trivial
    inferInstanceAs (Decidable (_ ∧ _))

/-- Where a step keeps a property exactly if it meets a condition, a run has the property all along
exactly if all its steps meet the condition.  `I` is what the steps that meet it preserve, and
`allowed` is asked of all steps of the run. -/
theorem along_iff_guarded_of_allowed {I : σ → Prop} {allowed : σ → ι → Prop}
    (hI : ∀ s i t, I s → allowed s i → guard s i → step s i = some t → I t)
    (hnone : ∀ s i, step s i = none → guard s i)
    (hP : ∀ s i t, I s → P s → allowed s i → step s i = some t → (P t ↔ guard s i)) :
    ∀ (l : List ι) {s : σ}, I s → P s → Guarded step allowed s l →
      (Along step P s l ↔ Guarded step guard s l) := by
  intro l
  induction l with
  | nil => exact fun _ hs _ => iff_of_true hs trivial
  | cons i l ih =>
    intro s hi hs ha
    obtain ⟨hai, hal⟩ := ha
    unfold Along Guarded
    cases hsi : step s i with
    | none => exact iff_of_true ⟨hs, trivial⟩ ⟨hnone s i hsi, trivial⟩
    | some t =>
      rw [hsi] at hal
      have hstep := hP s i t hi hs hai hsi
      have hrest : P t → (Along step P t l ↔ Guarded step guard t l) :=
        fun ht => ih (hI s i t hi hai (hstep.mp ht) hsi) ht hal
      constructor
      · rintro ⟨-, hl⟩
        have ht : P t := by
          cases l with
          | nil => exact hl
          | cons j l => exact hl.1
        exact ⟨hstep.mp ht, (hrest ht).mp hl⟩
      · rintro ⟨hg, hl⟩
        exact ⟨hs, (hrest (hstep.mpr hg)).mpr hl⟩

theorem guarded_of_forall (h : ∀ s i, guard s i) :
    ∀ (l : List ι) (s : σ), Guarded step guard s l := by
  intro l
  induction l with
  | nil => exact fun _ => trivial
  | cons i l ih =>
    intro s
    refine ⟨h s i, ?_⟩
    cases step s i with
    | none => trivial
    | some t => exact ih t

theorem exec_preserves (hstep : ∀ s i t, P s → step s i = some t → P t) (l : List ι) {t : σ}
    (hs : P s) (h : exec step s l = some t) : P t :=
  exec_invariant (fun s i t hs _ => hstep s i t hs) l hs
    (guarded_of_forall (fun _ _ => trivial) l s) h

theorem along_iff_guarded {I : σ → Prop} (hI : ∀ s i t, I s → guard s i → step s i = some t → I t)
    (hnone : ∀ s i, step s i = none → guard s i)
    (hP : ∀ s i t, I s → P s → step s i = some t → (P t ↔ guard s i)) (l : List ι) (hi : I s)
    (hs : P s) : Along step P s l ↔ Guarded step guard s l :=
  along_iff_guarded_of_allowed (fun s i t h _ => hI s i t h) hnone
    (fun s i t h hp _ => hP s i t h hp) l hi hs (guarded_of_forall (fun _ _ => trivial) l s)

end runs

section stuck

variable {σ ι : Type} {step : σ → ι → Option σ} {rank : σ → Nat}

/-- No label is enabled. -/
def Stuck (step : σ → ι → Option σ) (s : σ) : Prop := ∀ i, step s i = none

/-- Where every step lowers a rank, no run is longer than the rank of its first state. -/
theorem exec_length_le (hrank : ∀ s i t, step s i = some t → rank t < rank s) :
    ∀ (l : List ι) {s t : σ}, exec step s l = some t → l.length + rank t ≤ rank s := by
  intro l
  induction l with
  | nil =>
    intro s t h
    cases h
    simp
  | cons i l ih =>
    intro s t h
    obtain ⟨u, hu, h⟩ := exec_cons.mp h
    have hlt := hrank s i u hu
    have hl := ih h
    rw [length_cons]
    omega

theorem exists_stuck (hrank : ∀ s i t, step s i = some t → rank t < rank s) (s : σ) :
    ∃ l t, exec step s l = some t ∧ Stuck step t := by
  induction hn : rank s using Nat.strongRecOn generalizing s with
  | _ n ih =>
    by_cases hs : Stuck step s
    · exact ⟨[], s, rfl, hs⟩
    · obtain ⟨i, hi⟩ := not_forall.mp hs
      obtain ⟨u, hu⟩ := Option.ne_none_iff_exists'.mp hi
      obtain ⟨l, t, hl, ht⟩ := ih (rank u) (hn ▸ hrank s i u hu) u rfl
      exact ⟨i :: l, t, exec_cons.mpr ⟨u, hu, hl⟩, ht⟩

end stuck

end Lib
