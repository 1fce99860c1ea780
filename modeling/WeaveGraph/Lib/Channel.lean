import WeaveGraph.Lib.Runs

/-!
# A bounded channel between two threads

A producer sends the items of a list, in order, over a channel that holds at most `cap` of them; a
consumer takes an item, works on it step by step, and either leaves its loop or waits for the next
one.  Both run in a scope that returns when both have ended, and the receiver is dropped only then:
a send waits while the channel is full, and fails once the receiver is gone.

`Move` is the step relation and `step` decides it (`step_eq_some_iff`).  Every run ends
(`rank_lt`); a run that cannot go on has returned, or the consumer has left and the producer holds
an item for a full channel (`dropped_or_blocked`).
-/

namespace Lib.Channel

variable {α γ : Type}

/-- What the consumer does with an item, and when it leaves without waiting for another.  `cost`
bounds the work it still has, `weight` the work an item gives it. -/
structure Consumer (α γ : Type) where
  take : γ → α → γ
  work : γ → Option γ
  done : γ → Bool
  cost : γ → Nat
  weight : α → Nat
  cost_work : ∀ {c c'}, work c = some c' → cost c' < cost c
  cost_take : ∀ c a, cost (take c a) ≤ cost c + weight a

/-- `todo` and `hand` are the producer's, `taken` lists what the consumer has taken so far;
`closed`: the sender is dropped, `left`: the consumer is out of its loop, `dropped`: the scope has
returned and the receiver is dropped. -/
structure Pipe (α γ : Type) where
  todo : List α
  hand : Option α
  closed : Bool
  buffer : List α
  taken : List α
  consumer : γ
  left : Bool
  dropped : Bool
deriving DecidableEq

inductive Action where
  | produce
  | send
  | refuse
  | close
  | work
  | leave
  | take
  | hangUp
  | drop
deriving Repr, DecidableEq

def start (items : List α) (consumer : γ) : Pipe α γ :=
  ⟨items, none, false, [], [], consumer, false, false⟩

/-- What the consumer has not taken yet. -/
def Pipe.untaken (p : Pipe α γ) : List α := p.buffer ++ (p.hand.toList ++ p.todo)

/-! ## Steps -/

variable (cap : Nat) (k : Consumer α γ)

inductive Move (p : Pipe α γ) : Action → Pipe α γ → Prop where
  | produce {a rest} : p.closed = false → p.hand = none → p.todo = a :: rest →
      Move p .produce { p with hand := some a, todo := rest }
  | send {a} : p.dropped = false → p.hand = some a → p.buffer.length < cap →
      Move p .send { p with hand := none, buffer := p.buffer ++ [a] }
  | refuse {a} : p.dropped = true → p.hand = some a →
      Move p .refuse { p with hand := none, closed := true }
  | close : p.closed = false → p.hand = none → p.todo = [] →
      Move p .close { p with closed := true }
  | work {c} : p.left = false → k.work p.consumer = some c →
      Move p .work { p with consumer := c }
  | leave : p.left = false → k.work p.consumer = none → k.done p.consumer = true →
      Move p .leave { p with left := true }
  | take {a rest} : p.left = false → k.work p.consumer = none → k.done p.consumer = false →
      p.buffer = a :: rest →
      Move p .take
        { p with buffer := rest, taken := p.taken ++ [a], consumer := k.take p.consumer a }
  | hangUp : p.left = false → k.work p.consumer = none → k.done p.consumer = false →
      p.buffer = [] → p.closed = true → Move p .hangUp { p with left := true }
  | drop : p.left = true → p.closed = true → p.dropped = false →
      Move p .drop { p with dropped := true }

/-- The consumer is in its loop and between two items. -/
def waiting (p : Pipe α γ) : Bool := !p.left && (k.work p.consumer).isNone

def step (p : Pipe α γ) : Action → Option (Pipe α γ)
  | .produce =>
    match p.closed, p.hand, p.todo with
    | false, none, a :: rest => some { p with hand := some a, todo := rest }
    | _, _, _ => none
  | .send =>
    match p.dropped, p.hand with
    | false, some a =>
      if p.buffer.length < cap then some { p with hand := none, buffer := p.buffer ++ [a] }
      else none
    | _, _ => none
  | .refuse =>
    match p.dropped, p.hand with
    | true, some _ => some { p with hand := none, closed := true }
    | _, _ => none
  | .close =>
    match p.closed, p.hand, p.todo with
    | false, none, [] => some { p with closed := true }
    | _, _, _ => none
  | .work => if p.left then none else (k.work p.consumer).map fun c => { p with consumer := c }
  | .leave => if waiting k p && k.done p.consumer then some { p with left := true } else none
  | .take =>
    match p.buffer with
    | a :: rest =>
      if waiting k p && !k.done p.consumer then
        some { p with
          buffer := rest, taken := p.taken ++ [a], consumer := k.take p.consumer a }
      else none
    | [] => none
  | .hangUp =>
    if waiting k p && !k.done p.consumer && p.buffer.isEmpty && p.closed then
      some { p with left := true }
    else none
  | .drop => if p.left && p.closed && !p.dropped then some { p with dropped := true } else none

variable {cap k}

variable {p q : Pipe α γ} {a : Action} {items : List α} {run : List Action}

theorem step_eq_some_iff : step cap k p a = some q ↔ Move cap k p a q := by
  constructor
  · intro h
    cases a with
    | produce =>
      simp only [step] at h
      split at h
      · cases h
        exact .produce ‹_› ‹_› ‹_›
      · cases h
    | send =>
      simp only [step] at h
      split at h
      · split at h
        · cases h
          exact .send ‹_› ‹_› ‹_›
        · cases h
      · cases h
    | refuse =>
      simp only [step] at h
      split at h
      · cases h
        exact .refuse ‹_› ‹_›
      · cases h
    | close =>
      simp only [step] at h
      split at h
      · cases h
        exact .close ‹_› ‹_› ‹_›
      · cases h
    | work =>
      simp only [step] at h
      split at h
      · cases h
      · rename_i hleft
        obtain ⟨c, hc, rfl⟩ := Option.map_eq_some_iff.mp h
        exact .work (Bool.not_eq_true _ ▸ hleft) hc
    | leave =>
      simp only [step, waiting, Option.ite_none_right_eq_some, Bool.and_eq_true,
        Bool.not_eq_true', Option.isNone_iff_eq_none, Option.some.injEq] at h
      obtain ⟨⟨⟨hleft, hwork⟩, hdone⟩, rfl⟩ := h
      exact .leave hleft hwork hdone
    | take =>
      simp only [step] at h
      split at h
      · rename_i b rest hbuffer
        simp only [waiting, Option.ite_none_right_eq_some, Bool.and_eq_true,
          Bool.not_eq_true', Option.isNone_iff_eq_none, Option.some.injEq] at h
        obtain ⟨⟨⟨hleft, hwork⟩, hdone⟩, rfl⟩ := h
        exact .take hleft hwork hdone hbuffer
      · cases h
    | hangUp =>
      simp only [step, waiting, Option.ite_none_right_eq_some, Bool.and_eq_true,
        Bool.not_eq_true', Option.isNone_iff_eq_none, Option.some.injEq, List.isEmpty_iff] at h
      obtain ⟨⟨⟨⟨⟨hleft, hwork⟩, hdone⟩, hbuffer⟩, hclosed⟩, rfl⟩ := h
      exact .hangUp hleft hwork hdone hbuffer hclosed
    | drop =>
      simp only [step, Option.ite_none_right_eq_some, Bool.and_eq_true, Bool.not_eq_true',
        Option.some.injEq] at h
      obtain ⟨⟨⟨hleft, hclosed⟩, hdropped⟩, rfl⟩ := h
      exact .drop hleft hclosed hdropped
  · intro h
    cases h with
    | produce hclosed hhand htodo => simp [step, hclosed, hhand, htodo]
    | send hdropped hhand hroom => simp [step, hdropped, hhand, hroom]
    | refuse hdropped hhand => simp [step, hdropped, hhand]
    | close hclosed hhand htodo => simp [step, hclosed, hhand, htodo]
    | work hleft hwork => simp [step, hleft, hwork]
    | leave hleft hwork hdone => simp [step, waiting, hleft, hwork, hdone]
    | take hleft hwork hdone hbuffer => simp [step, waiting, hleft, hwork, hdone, hbuffer]
    | hangUp hleft hwork hdone hbuffer hclosed =>
      simp [step, waiting, hleft, hwork, hdone, hbuffer, hclosed]
    | drop hleft hclosed hdropped => simp [step, hleft, hclosed, hdropped]

/-! ## Runs end -/

variable (k) in
/-- The work in a list of items, with `n` more steps for each. -/
def load (n : Nat) : List α → Nat
  | [] => 0
  | a :: l => k.weight a + n + load n l

@[simp] theorem load_append (n : Nat) (l l' : List α) :
    load k n (l ++ l') = load k n l + load k n l' := by
  induction l with
  | nil => simp [load]
  | cons a l ih =>
    simp only [List.cons_append, load, ih]
    omega

variable (k) in
/-- The steps that are left, at most. -/
def rank (p : Pipe α γ) : Nat :=
  load k 3 p.todo + load k 2 p.hand.toList + load k 1 p.buffer + k.cost p.consumer +
    (!p.closed).toNat + (!p.left).toNat + (!p.dropped).toNat

theorem rank_lt (h : step cap k p a = some q) : rank k q < rank k p := by
  cases step_eq_some_iff.mp h with
  | produce hclosed hhand htodo =>
    simp [rank, load, hhand, htodo]
    omega
  | send hdropped hhand hroom =>
    simp [rank, load, hhand]
    omega
  | refuse hdropped hhand =>
    simp [rank, load, hhand]
    omega
  | close hclosed hhand htodo =>
    simp [rank, hclosed]
  | work hleft hwork =>
    have := k.cost_work hwork
    simp only [rank]
    omega
  | leave hleft hwork hdone =>
    simp [rank, hleft]
  | take hleft hwork hdone hbuffer =>
    rename_i b rest
    have := k.cost_take p.consumer b
    simp [rank, load, hbuffer]
    omega
  | hangUp hleft hwork hdone hbuffer hclosed =>
    simp [rank, hleft]
  | drop hleft hclosed hdropped =>
    simp [rank, hdropped]

/-! ## What every run keeps -/

variable (cap k) in
/-- Items keep their order and none is lost, the channel is never over full, a producer that has
ended has sent everything, and a consumer has left for a reason. -/
structure Inv (items : List α) (p : Pipe α γ) : Prop where
  items : p.taken ++ p.untaken = items
  room : p.buffer.length ≤ cap
  sent : p.closed = true → p.hand = none ∧ p.todo = []
  ended : p.dropped = true → p.left = true ∧ p.closed = true
  reason : p.left = true → k.work p.consumer = none ∧
    (k.done p.consumer = true ∨ p.buffer = [] ∧ p.closed = true)

theorem inv_start (items : List α) (c : γ) : Inv cap k items (start items c) where
  items := rfl
  room := Nat.zero_le _
  sent h := by cases h
  ended h := by cases h
  reason h := by cases h

theorem inv_step (hp : Inv cap k items p) (h : step cap k p a = some q) : Inv cap k items q := by
  have hitems := hp.items
  cases step_eq_some_iff.mp h with
  | produce hclosed hhand htodo =>
    refine ⟨?_, hp.room, fun hc => ?_, hp.ended, hp.reason⟩
    · simpa [Pipe.untaken, hhand, htodo] using hitems
    · exact absurd (hclosed.symm.trans hc) Bool.false_ne_true
  | send hdropped hhand hroom =>
    -- a producer that still holds an item has not ended
    have hopen : p.closed = false := by
      cases hc : p.closed with
      | false => rfl
      | true =>
        rw [(hp.sent hc).1] at hhand
        cases hhand
    refine ⟨?_, ?_, fun hc => ?_, hp.ended, fun hleft => ?_⟩
    · simpa [Pipe.untaken, hhand] using hitems
    · simpa using Nat.succ_le_of_lt hroom
    · exact absurd (hopen.symm.trans hc) Bool.false_ne_true
    · obtain ⟨hwork, hwhy⟩ := hp.reason hleft
      refine ⟨hwork, hwhy.imp_right fun hc => ?_⟩
      exact absurd (hopen.symm.trans hc.2) Bool.false_ne_true
  | refuse hdropped hhand =>
    rw [(hp.sent (hp.ended hdropped).2).1] at hhand
    cases hhand
  | close hclosed hhand htodo =>
    refine ⟨hitems, hp.room, fun _ => ⟨hhand, htodo⟩, fun hd => ?_, fun hleft => ?_⟩
    · exact absurd (hclosed.symm.trans (hp.ended hd).2) Bool.false_ne_true
    · obtain ⟨hwork, hwhy⟩ := hp.reason hleft
      exact ⟨hwork, hwhy.imp_right fun hc => ⟨hc.1, rfl⟩⟩
  | work hleft hwork =>
    refine ⟨hitems, hp.room, hp.sent, hp.ended, fun hl => ?_⟩
    exact absurd (hleft.symm.trans hl) Bool.false_ne_true
  | leave hleft hwork hdone =>
    refine ⟨hitems, hp.room, hp.sent, fun hd => ⟨rfl, (hp.ended hd).2⟩, fun _ => ?_⟩
    exact ⟨hwork, Or.inl hdone⟩
  | take hleft hwork hdone hbuffer =>
    refine ⟨?_, ?_, hp.sent, hp.ended, fun hl => ?_⟩
    · simpa [Pipe.untaken, hbuffer] using hitems
    · have hroom := hp.room
      rw [hbuffer, List.length_cons] at hroom
      exact Nat.le_of_succ_le hroom
    · exact absurd (hleft.symm.trans hl) Bool.false_ne_true
  | hangUp hleft hwork hdone hbuffer hclosed =>
    refine ⟨hitems, hp.room, hp.sent, fun hd => ⟨rfl, (hp.ended hd).2⟩, fun _ => ?_⟩
    exact ⟨hwork, Or.inr ⟨hbuffer, hclosed⟩⟩
  | drop hleft hclosed hdropped =>
    exact ⟨hitems, hp.room, hp.sent, fun _ => ⟨hleft, hclosed⟩, hp.reason⟩

theorem inv_exec {c : γ} (h : exec (step cap k) (start items c) run = some p) : Inv cap k items p :=
  exec_preserves (P := Inv cap k items) (fun _ _ _ hp => inv_step hp) run (inv_start items c) h

/-- What working and taking an item keep, relates the consumer to what it has taken. -/
theorem consumer_exec {P : γ → List α → Prop} {c : γ} (hstart : P c [])
    (hwork : ∀ c c' taken, P c taken → k.work c = some c' → P c' taken)
    (htake : ∀ c taken a, P c taken → k.work c = none → k.done c = false →
      P (k.take c a) (taken ++ [a])) (h : exec (step cap k) (start items c) run = some p) :
    P p.consumer p.taken := by
  refine exec_preserves (P := fun p : Pipe α γ => P p.consumer p.taken) ?_ run hstart h
  intro p a q hp hstep
  cases step_eq_some_iff.mp hstep with
  | produce hclosed hhand htodo => exact hp
  | send hdropped hhand hroom => exact hp
  | refuse hdropped hhand => exact hp
  | close hclosed hhand htodo => exact hp
  | work hleft hc => exact hwork _ _ _ hp hc
  | leave hleft hc hdone => exact hp
  | take hleft hc hdone hbuffer => exact htake _ _ _ hp hc hdone
  | hangUp hleft hc hdone hbuffer hclosed => exact hp
  | drop hleft hclosed hdropped => exact hp

/-! ## Where runs end -/

theorem not_move (hstuck : Stuck (step cap k) p) : ¬ Move cap k p a q := by
  intro h
  have hsome := step_eq_some_iff.mpr h
  rw [hstuck a] at hsome
  cases hsome

theorem left_of_stuck (hstuck : Stuck (step cap k) p) (hready : p.buffer ≠ [] ∨ p.closed = true) :
    p.left = true := by
  by_contra hleft
  rw [Bool.not_eq_true] at hleft
  cases hwork : k.work p.consumer with
  | some c => exact not_move hstuck (.work hleft hwork)
  | none =>
    cases hdone : k.done p.consumer with
    | true => exact not_move hstuck (.leave hleft hwork hdone)
    | false =>
      cases hbuffer : p.buffer with
      | cons b rest => exact not_move hstuck (.take hleft hwork hdone hbuffer)
      | nil =>
        have hclosed := hready.resolve_left (not_not_intro hbuffer)
        exact not_move hstuck (.hangUp hleft hwork hdone hbuffer hclosed)

/-- A run that cannot go on has returned, or the consumer has left while the producer waits. -/
theorem dropped_or_blocked (hcap : 0 < cap) (hstuck : Stuck (step cap k) p) :
    p.dropped = true ∨ p.left = true ∧ p.hand.isSome ∧ cap ≤ p.buffer.length := by
  cases hdropped : p.dropped with
  | true => exact Or.inl rfl
  | false =>
    refine Or.inr ?_
    cases hclosed : p.closed with
    | true =>
      have hleft := left_of_stuck hstuck (Or.inr hclosed)
      exact absurd (.drop hleft hclosed hdropped) (not_move hstuck)
    | false =>
      cases hhand : p.hand with
      | none =>
        cases htodo : p.todo with
        | nil => exact absurd (.close hclosed hhand htodo) (not_move hstuck)
        | cons b rest => exact absurd (.produce hclosed hhand htodo) (not_move hstuck)
      | some b =>
        have hfull : cap ≤ p.buffer.length := by
          by_contra hroom
          exact not_move hstuck (.send hdropped hhand (Nat.lt_of_not_le hroom))
        have hne : p.buffer ≠ [] := List.ne_nil_of_length_pos (Nat.lt_of_lt_of_le hcap hfull)
        exact ⟨left_of_stuck hstuck (Or.inl hne), rfl, hfull⟩

end Lib.Channel
