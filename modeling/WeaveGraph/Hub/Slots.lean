import WeaveGraph.Hub.Sections

/-!
# Reservations and queue slots

`begin_upload` reserves a place in the queue; the completion takes the reservation under the head
lock, verifies the upload, and counts the push under the head lock again.  In between the place is
counted nowhere, so another client can get it and the completion is answered `429`
(`exec_loses_slot`).

Kept beside the run: the completions whose reservation was there when they started, and those that
took one and are not decided.  Where nobody else is given their places, no completion that started
with a reservation is answered `429` (`exec_slots_kept`).
-/

namespace WeaveGraph.Hub

open List Lib Registry

/-! ## Completions with a reservation -/

structure Holding where
  /-- The completions whose reservation was there when they started. -/
  live : List Nat
  /-- The completions that took a reservation and are not decided. -/
  holds : List Nat
deriving Repr, DecidableEq

def Holding.empty : Holding := ⟨[], []⟩

def Registry.isReserved (r : Registry) (sha : String) : Bool :=
  r.currentState.any fun st => st.head.hasUpload sha

/-- After task `i` went from `phase` to `phase'`. -/
def Holding.afterPut (g : Holding) (i : Nat) (r : Registry) (p : Put) (phase phase' : Phase) :
    Holding where
  live := if phase = .takeState ∧ r.isReserved p.sha = true then i :: g.live else g.live
  holds :=
    match phase' with
    | .verify true => i :: g.holds
    | .finishState _ | .finishHead _ => g.holds
    | _ => g.holds.erase i

def Holding.after (cfg : RegistryConfig) (g : Holding) (h : Server) : Label → Holding
  | .task i =>
    match h.tasks[i]? with
    | some (.put p phase) => g.afterPut i h.registry p phase (p.advance cfg h.registry phase).2
    | _ => g
  | .restart => { g with holds := [] }
  | _ => g

/-- The system with the reservations of its completions beside it. -/
def heldStep (cfg : RegistryConfig) (x : Server × Holding) (label : Label) :
    Option (Server × Holding) :=
  (step cfg x.1 label).map fun h => (h, x.2.after cfg x.1 label)

/-- The request is, or is going to be, answered `429`. -/
def Phase.rateLimited : Phase → Bool
  | .abandonState response | .abandonHead _ response | .abandonFile response | .done response =>
    response.status == 429
  | _ => false

/-- No completion that started with a reservation is answered `429`. -/
def SlotsKept (x : Server × Holding) : Prop :=
  ∀ i ∈ x.2.live, ∀ t ∈ x.1.tasks[i]?, t.phase.rateLimited = false

/-! ## Where slots are kept -/

/-- A slot is given away only beside those of all reservations and of all completions that hold one.
A completion finds the reservation it started with, takes it and uses it in the current state, and a
state that is created meanwhile has room for it. -/
def Phase.LeavesSlots (cfg : RegistryConfig) (x : Server × Holding) (i : Nat) (p : Put) :
    Phase → Prop
  | .beginState | .finishState _ =>
    x.1.registry.current = none → x.2.holds.length = 0 ∨
      x.1.registry.disk.jobs.length + x.2.holds.length ≤ cfg.maxQueueDepthPerRepo
  | .reserve o =>
    x.1.registry.current = some o → ∀ st ∈ x.1.registry.objects[o]?,
      st.head.occupied < cfg.maxQueueDepthPerRepo →
        st.head.pending + st.head.uploads.length + x.2.holds.length < cfg.maxQueueDepthPerRepo
  | .takeReservation o =>
    ∀ st ∈ x.1.registry.objects[o]?, (i ∈ x.2.live → st.head.hasUpload p.sha = true) ∧
        (st.head.hasUpload p.sha = true → x.1.registry.current = some o)
  | .finishHead o =>
    (i ∈ x.2.holds → x.1.registry.current = some o) ∧
      (i ∉ x.2.holds → x.1.registry.current = some o → ∀ st ∈ x.1.registry.objects[o]?,
        st.head.pending < cfg.maxQueueDepthPerRepo →
          st.head.pending + st.head.uploads.length + x.2.holds.length < cfg.maxQueueDepthPerRepo)
  | _ => True

def Worker.CountsDown (r : Registry) (w : Worker) : Prop :=
  match w.phase with
  | .decrement _ => ∀ st ∈ r.objects[w.state]?, st.head.pending ≠ 0
  | _ => True

def LeavesSlots (cfg : RegistryConfig) (x : Server × Holding) : Label → Prop
  | .task i =>
    match x.1.tasks[i]? with
    | some (.put p phase) => phase.LeavesSlots cfg x i p
    | _ => True
  | .worker _ => ∀ w ∈ x.1.registry.worker, w.CountsDown x.1.registry
  | _ => True

instance decidablePhaseLeavesSlots (cfg : RegistryConfig) (x : Server × Holding) (i : Nat)
    (p : Put) : (phase : Phase) → Decidable (phase.LeavesSlots cfg x i p)
  | .beginState | .finishState _ => inferInstanceAs (Decidable (_ = none → _ ∨ _))
  | .reserve _ => inferInstanceAs (Decidable (_ = some _ → ∀ st ∈ _, _ → _))
  | .takeReservation _ => inferInstanceAs (Decidable (∀ st ∈ _, _ ∧ _))
  | .finishHead _ => inferInstanceAs (Decidable (_ ∧ _))
  | .arrived | .expire _ | .expireFiles _ _ | .reserveCheck _ | .reserveRate _ | .chunkLength
  | .chunkWrite | .takeState | .verify _ | .finishRate _ | .writeSig _ _ | .rename _ _ | .wake _
  | .abandonState _ | .abandonHead _ _ | .abandonFile _ | .done _ | .lost => isTrue trivial

instance decidableCountsDown (r : Registry) (w : Worker) : Decidable (w.CountsDown r) := by
  unfold Worker.CountsDown
  split <;> infer_instance

instance decidableLeavesSlots (cfg : RegistryConfig) (x : Server × Holding) :
    DecidablePred (LeavesSlots cfg x)
  | .task i => by
    unfold LeavesSlots
    dsimp only
    split <;> infer_instance
  | .worker _ => inferInstanceAs (Decidable (∀ w ∈ x.1.registry.worker, _))
  | .tick _ | .request _ | .scan _ | .restart => isTrue trivial

/-! ## The invariant -/

/-- The current state has room for its pending jobs, its reservations and `held` completions, or
there are none of the latter two. -/
def Room (cfg : RegistryConfig) (r : Registry) (held : Nat) : Prop :=
  ∀ st, r.currentState = some st → st.head.uploads.length + held = 0 ∨
    st.head.pending + st.head.uploads.length + held ≤ cfg.maxQueueDepthPerRepo

/-- How a completion that started with a reservation stands. -/
def Phase.Keeps (holds : List Nat) (i : Nat) : Phase → Prop
  | .takeReservation _ => True
  | .verify reserved | .finishState reserved => reserved = true ∧ i ∈ holds
  | .finishHead _ => i ∈ holds
  | phase => phase.settled = true

structure Promised (cfg : RegistryConfig) (x : Server × Holding) : Prop where
  room : Room cfg x.1.registry x.2.holds.length
  keeps : ∀ i ∈ x.2.live, ∃ p phase, x.1.tasks[i]? = some (.put p phase) ∧ phase.Keeps x.2.holds i

variable {phase : Phase} {holds : List Nat} {i : Nat} {cfg : RegistryConfig} {x : Server × Holding}
  {h : Server} {g : Holding}

theorem Phase.rateLimited_of_settled (h : phase.settled = true) : phase.rateLimited = false := by
  cases phase <;> simp_all [Phase.settled, Phase.rateLimited]

theorem Phase.Keeps.not_rateLimited (h : phase.Keeps holds i) : phase.rateLimited = false := by
  cases phase with
  | takeReservation _ | verify _ | finishState _ | finishHead _ => rfl
  | _ => exact Phase.rateLimited_of_settled h

theorem Phase.Keeps.closing (h : phase.Keeps holds i) : phase.closing = true := by
  cases phase with
  | takeReservation _ | verify _ | finishState _ | finishHead _ => rfl
  | finishRate _ => rfl
  | _ => exact h

theorem Phase.Keeps.of_settled (h : phase.settled = true) : phase.Keeps holds i := by
  cases phase with
  | takeReservation _ | verify _ | finishState _ | finishHead _ => cases h
  | _ => exact h

theorem Promised.slotsKept (h : Promised cfg x) : SlotsKept x := by
  intro i hi t ht
  obtain ⟨p, phase, hput, hkeeps⟩ := h.keeps i hi
  obtain rfl := Option.some.inj (hput.symm.trans ht)
  exact hkeeps.not_rateLimited

/-! ## Room after a section -/

section room

variable {cfg : RegistryConfig} {r r' : Registry} {held held' : Nat}

theorem Room.frame (h : Room cfg r held) (hheld : held' ≤ held)
    (hstate : ∀ st', r'.currentState = some st' → ∃ st, r.currentState = some st ∧
      st'.head.pending ≤ st.head.pending ∧
      st'.head.uploads.length ≤ st.head.uploads.length) : Room cfg r' held' := by
  intro st' hst'
  obtain ⟨st, hst, hpending, huploads⟩ := hstate st' hst'
  have := h st hst
  omega

theorem Room.releases (h : Room cfg r held) (hheld : held' ≤ held) (hr : Releases r r') :
    Room cfg r' held' := by
  refine h.frame hheld fun st' hst' => ?_
  obtain ⟨st, hst, -, hpending, huploads⟩ := hr.state st' hst'
  exact ⟨st, hst, hpending.le, huploads⟩

theorem Room.lookup (h : Room cfg r held) (hheld : held' ≤ held)
    (hnew : r.current = none → held = 0 ∨ r.disk.jobs.length + held ≤ cfg.maxQueueDepthPerRepo) :
    Room cfg r.repoState.2 held' := by
  intro st' hst'
  obtain ⟨-, -, hst | ⟨hcur, hst⟩⟩ := r.currentState_repoState
  · have := h st' (hst.symm.trans hst')
    omega
  · obtain rfl := Option.some.inj (hst.symm.trans hst')
    have hroom := hnew hcur
    dsimp only [Registry.recovered]
    rw [length_nil, length_map]
    omega

theorem Room.modifyRate {o : Nat} {f : RateWindow → RateWindow} (h : Room cfg r held)
    (hheld : held' ≤ held) : Room cfg (r.modifyRate o f) held' := by
  refine h.frame hheld fun st' hst' => ?_
  rcases @currentState_modifyRate r o f with ⟨st, -, -, hst, hmod⟩ | ⟨-, hmod⟩
  · obtain rfl := Option.some.inj (hmod.symm.trans hst')
    exact ⟨st, hst, Nat.le_refl _, Nat.le_refl _⟩
  · exact ⟨st', hmod.symm.trans hst', Nat.le_refl _, Nat.le_refl _⟩

theorem Room.modifyHead {o : Nat} {f : RepoHead → RepoHead} (h : Room cfg r held)
    (hcur : ∀ st, r.current = some o → r.objects[o]? = some st →
      (f st.head).uploads.length + held' = 0 ∨
        (f st.head).pending + (f st.head).uploads.length + held' ≤ cfg.maxQueueDepthPerRepo)
    (hother : r.current ≠ some o → held' ≤ held) : Room cfg (r.modifyHead o f) held' := by
  intro st' hst'
  rcases @currentState_modifyHead r o f with ⟨st, hc, hst, -, hmod⟩ | ⟨hnone, hmod⟩
  · obtain rfl := Option.some.inj (hmod.symm.trans hst')
    exact hcur st hc hst
  · have hst := hmod.symm.trans hst'
    have hne : r.current ≠ some o := by
      intro hc
      rw [currentState_of_current hc, hnone hc] at hst
      cases hst
    have := h st' hst
    have := hother hne
    omega

end room

/-! ## Steps of a request -/

section requests

variable {cfg : RegistryConfig} {h : Server} {g : Holding} {i : Nat} {p : Put}
  {phase phase' : Phase} {r' : Registry}

theorem Holding.length_afterPut_le (hphase : phase' ≠ .verify true) (r : Registry) :
    (g.afterPut i r p phase phase').holds.length ≤ g.holds.length := by
  unfold Holding.afterPut
  dsimp only
  split
  · exact absurd rfl hphase
  · exact Nat.le_refl _
  · exact Nat.le_refl _
  · exact length_erase_le

theorem Holding.mem_afterPut {j : Nat} (hj : j ≠ i) (r : Registry) :
    j ∈ (g.afterPut i r p phase phase').holds ↔ j ∈ g.holds := by
  unfold Holding.afterPut
  dsimp only
  split
  · simp [hj]
  · rfl
  · rfl
  · exact mem_erase_of_ne hj

theorem room_put (hp : Promised cfg (h, g)) (hg : phase.LeavesSlots cfg (h, g) i p)
    (hadv : Advanced cfg p h.registry phase r' phase') :
    Room cfg r' (g.afterPut i h.registry p phase phase').holds.length := by
  have hroom : Room cfg h.registry g.holds.length := hp.room
  cases hadv with
  | plain hr hto _ =>
    refine hroom.releases (g.length_afterPut_le ?_ _) hr
    rintro rfl
    cases hto
  | begin => exact hroom.lookup (g.length_afterPut_le (by simp) _) hg
  | @finish reserved =>
    exact hroom.lookup (g.length_afterPut_le (by cases reserved <;> simp) _) hg
  | grant _ _ hphase =>
    refine hroom.modifyRate (g.length_afterPut_le ?_ _)
    rcases hphase with ⟨-, rfl⟩ | ⟨-, rfl⟩ <;> simp
  | full _ hphase =>
    refine hroom.modifyRate (g.length_afterPut_le ?_ _)
    rcases hphase with ⟨-, rfl⟩ | ⟨-, rfl⟩ <;> simp
  | @insert o st hst hfree =>
    have hheld : (g.afterPut i h.registry p (.reserve o) .chunkLength).holds.length ≤
        g.holds.length := g.length_afterPut_le (by simp) _
    refine hroom.modifyHead (fun st' hcur hst' => .inr ?_) fun _ => hheld
    obtain rfl := Option.some.inj (hst.symm.trans hst')
    have hleft := hg hcur st hst hfree
    have huploads := st.head.length_insertUpload_le p.sha h.registry.now
    have hpending : (st.head.insertUpload p.sha h.registry.now).pending = st.head.pending := rfl
    dsimp only at hleft
    omega
  | @take o st hst =>
    cases hhas : st.head.hasUpload p.sha with
    | false => exact hroom.releases (g.length_afterPut_le (by simp) _) (.removeUpload _ _ _)
    | true =>
      have hcur := (hg st hst).2 hhas
      refine hroom.modifyHead (fun st' _ hst' => .inr ?_) fun hne => absurd hcur hne
      obtain rfl := Option.some.inj (hst.symm.trans hst')
      have hone := RepoHead.length_removeUpload_lt hhas
      have hpending : (st.head.removeUpload p.sha).pending = st.head.pending := rfl
      have hst := hroom st ((currentState_of_current hcur).trans hst)
      dsimp only [Holding.afterPut]
      rw [length_cons]
      omega
  | verified => exact hroom.releases (Nat.le_refl _) (.refl _)
  | @accept o st hst hfree =>
    have hheld : (g.afterPut i h.registry p (.finishHead o)
        (.writeSig o st.head.nextSeq)).holds.length ≤ g.holds.length :=
      g.length_afterPut_le (by simp) _
    change Room cfg (h.registry.modifyHead o fun head => head.advance p.sha) _
    refine hroom.modifyHead (fun st' hcur hst' => .inr ?_) fun _ => hheld
    obtain rfl := Option.some.inj (hst.symm.trans hst')
    have hpending : (st.head.advance p.sha).pending ≤ st.head.pending + 1 := Nat.mod_le _ _
    have huploads : (st.head.advance p.sha).uploads = st.head.uploads := rfl
    rw [huploads]
    by_cases hi : i ∈ g.holds
    · -- its own slot becomes a pending job
      have hst := hroom st ((currentState_of_current hcur).trans hst)
      have hpos := length_pos_of_mem hi
      dsimp only [Holding.afterPut]
      rw [length_erase_of_mem hi]
      omega
    · have hleft := hg.2 hi hcur st hst hfree
      dsimp only at hleft
      omega
  | refused _ _ => exact hroom.releases (g.length_afterPut_le (by simp) _) (.refl _)

theorem keeps_put (hp : Promised cfg (h, g)) (hg : phase.LeavesSlots cfg (h, g) i p)
    (hi : i ∈ g.live) (hkeeps : phase.Keeps g.holds i)
    (hadv : Advanced cfg p h.registry phase r' phase') :
    phase'.Keeps (g.afterPut i h.registry p phase phase').holds i := by
  have hroom : Room cfg h.registry g.holds.length := hp.room
  cases hadv with
  | plain _ _ hsettled => exact .of_settled (hsettled hkeeps.closing)
  | begin => cases hkeeps
  | @finish reserved =>
    obtain ⟨rfl, hmem⟩ := hkeeps
    exact hmem
  | grant _ _ hphase =>
    rcases hphase with ⟨rfl, -⟩ | ⟨rfl, -⟩ <;> cases hkeeps
  | full _ hphase =>
    rcases hphase with ⟨rfl, -⟩ | ⟨rfl, -⟩ <;> cases hkeeps
  | insert _ _ => cases hkeeps
  | @take o st hst =>
    rw [(hg st hst).1 hi]
    exact ⟨rfl, mem_cons_self⟩
  | verified => exact hkeeps
  | accept _ _ => rfl
  | @refused o st response hst hrefuse =>
    have hi : i ∈ g.holds := hkeeps
    have hfree := hroom st ((currentState_of_current (hg.1 hi)).trans hst)
    have hpos := length_pos_of_mem hi
    rw [refusal, if_neg (by omega)] at hrefuse
    split at hrefuse
    · cases hrefuse
      rfl
    · cases hrefuse

end requests

theorem advance_takeState {cfg : RegistryConfig} {r : Registry} {p : Put}
    (h : r.isReserved p.sha = true) : ∃ o, (p.advance cfg r .takeState).2 = .takeReservation o := by
  unfold Registry.isReserved Registry.currentState at h
  dsimp only [Put.advance]
  cases hc : r.current with
  | none => simp [hc] at h
  | some o => exact ⟨o, rfl⟩

theorem Phase.Keeps.of_mem {holds' : List Nat} (h : phase.Keeps holds i)
    (hmem : i ∈ holds → i ∈ holds') : phase.Keeps holds' i := by
  cases phase with
  | verify _ | finishState _ => exact ⟨h.1, hmem h.2⟩
  | finishHead _ => exact hmem h
  | _ => exact h

theorem promised_put {p : Put} (hp : Promised cfg (h, g)) (ht : h.tasks[i]? = some (.put p phase))
    (hg : phase.LeavesSlots cfg (h, g) i p) : Promised cfg (⟨(p.advance cfg h.registry phase).1,
      h.tasks.set i (.put p (p.advance cfg h.registry phase).2)⟩,
      g.afterPut i h.registry p phase (p.advance cfg h.registry phase).2) := by
  have hadv := p.advanced cfg h.registry phase
  have hlt := (List.getElem?_eq_some_iff.mp ht).1
  refine ⟨room_put hp hg hadv, fun j hj => ?_⟩
  by_cases hji : j = i
  · subst hji
    refine ⟨p, _, getElem?_set_self hlt, ?_⟩
    by_cases hstart : phase = .takeState ∧ h.registry.isReserved p.sha = true
    · obtain ⟨rfl, hreserved⟩ := hstart
      obtain ⟨o, ho⟩ := @advance_takeState cfg h.registry p hreserved
      rw [ho]
      trivial
    · have hlive : j ∈ g.live := by
        simpa only [Holding.afterPut, if_neg hstart] using hj
      obtain ⟨q, phase', hput, hkeeps⟩ := hp.keeps j hlive
      cases Option.some.inj (ht.symm.trans hput)
      exact keeps_put hp hg hlive hkeeps hadv
  · have hlive : j ∈ g.live := by
      dsimp only [Holding.afterPut] at hj
      split at hj
      · exact (mem_cons.mp hj).resolve_left hji
      · exact hj
    obtain ⟨q, phase', hput, hkeeps⟩ := hp.keeps j hlive
    refine ⟨q, phase', (getElem?_set_ne (Ne.symm hji)).trans hput, ?_⟩
    exact hkeeps.of_mem (Holding.mem_afterPut hji _).mpr

/-! ## Every run -/

theorem Promised.frame {r : Registry} (hp : Promised cfg (h, g)) (hroom : Room cfg r g.holds.length)
    :
    Promised cfg (⟨r, h.tasks⟩, g) :=
  ⟨hroom, hp.keeps⟩

theorem promised_worker {w : Worker} {ok : Bool} {r : Registry} {phase : WorkerPhase}
    {worker : Option Worker} (hp : Promised cfg (h, g)) (hg : w.CountsDown h.registry)
    (hs : h.registry.workerStep w ok = some (r, phase)) :
    Promised cfg ({ h with registry := { r with worker := worker } }, g) := by
  have hroom : Room cfg h.registry g.holds.length := hp.room
  rcases workerStep_releases hs with hr | ⟨rest, hphase, rfl⟩
  · exact hp.frame (hroom.releases (Nat.le_refl _) ⟨hr.now, hr.accepted, hr.state⟩)
  · refine hp.frame ?_
    refine hroom.modifyHead (fun st hcur hst => ?_) fun _ => Nat.le_refl _
    simp only [Worker.CountsDown, hphase] at hg
    have hne := hg st hst
    have hold := hroom st ((currentState_of_current hcur).trans hst)
    simp only [RepoHead.decrement, if_neg hne]
    omega

theorem promised_step {x' : Server × Holding} {label : Label} (hp : Promised cfg x)
    (hg : LeavesSlots cfg x label) (hs : heldStep cfg x label = some x') : Promised cfg x' := by
  obtain ⟨h, g⟩ := x
  obtain ⟨h', hstep, rfl⟩ := Option.map_eq_some_iff.mp hs
  have hroom : Room cfg h.registry g.holds.length := hp.room
  cases step_cases hstep with
  | tick => exact hp.frame hroom
  | request hnew =>
    refine ⟨hroom, fun i hi => ?_⟩
    obtain ⟨p, phase, hput, hkeeps⟩ := hp.keeps i hi
    have hlt := (List.getElem?_eq_some_iff.mp hput).1
    exact ⟨p, phase, (getElem?_append_left hlt).trans hput, hkeeps⟩
  | @task i t ht =>
    cases t with
    | put p phase =>
      simp only [LeavesSlots, ht] at hg
      simp only [Holding.after, ht]
      exact promised_put hp ht hg
    | head sha phase =>
      have hsame := (Task.step_head cfg h.registry sha phase).1
      simp only [Holding.after, ht, hsame]
      refine ⟨hroom, fun j hj => ?_⟩
      obtain ⟨p, phase', hput, hkeeps⟩ := hp.keeps j hj
      have hji : i ≠ j := by
        rintro rfl
        cases ht.symm.trans hput
      exact ⟨p, phase', (getElem?_set_ne hji).trans hput, hkeeps⟩
  | scan _ _ _ => exact hp.frame hroom
  | worker hw hworker => exact promised_worker hp (hg _ hw) hworker
  | restart =>
    refine ⟨fun st hst => .inl ?_, fun i hi => ?_⟩
    · rcases h.registry.currentState_restart.2 with hnone | hnew
      · rw [hnone] at hst
        cases hst
      · obtain rfl := Option.some.inj (hnew.symm.trans hst)
        rfl
    · obtain ⟨p, phase, hput, hkeeps⟩ := hp.keeps i hi
      refine ⟨p, phase.drop, ?_, ?_⟩
      · rw [getElem?_map, hput]
        rfl
      · cases phase with
        | done response => exact hkeeps
        | _ => rfl

/-- Where slots are only given away beside those that are held, a completion that starts with a
reservation is never answered `429`. -/
theorem exec_slots_kept (cfg : RegistryConfig) (labels : List Label) (x : Server × Holding)
    (hg : Guarded (heldStep cfg) (LeavesSlots cfg) (Server.empty, .empty) labels)
    (hx : exec (heldStep cfg) (Server.empty, .empty) labels = some x) : SlotsKept x := by
  have hempty : Promised cfg (Server.empty, .empty) :=
    ⟨fun st hst => (by cases hst), fun i hi => (by cases hi)⟩
  exact (exec_invariant (fun _ _ _ hp hg hs => promised_step hp hg hs) labels hempty hg
    hx).slotsKept

def oneSlot : RegistryConfig := ⟨1, 60, 1024, none⟩

theorem exec_slots_push :
    Guarded (heldStep oneSlot) (LeavesSlots oneSlot) (Server.empty, .empty) (pushRun 0 "a1" none) ∧
      ∃ x, exec (heldStep oneSlot) (Server.empty, .empty) (pushRun 0 "a1" none) = some x ∧
        0 ∈ x.2.live ∧ SlotsKept x := by
  have hg : Guarded (heldStep oneSlot) (LeavesSlots oneSlot) (Server.empty, .empty)
      (pushRun 0 "a1" none) := by decide +kernel
  obtain ⟨x, hx, hlive⟩ : ∃ x, exec (heldStep oneSlot) (Server.empty, .empty)
      (pushRun 0 "a1" none) = some x ∧ 0 ∈ x.2.live := exists_exec (by decide +kernel)
  exact ⟨hg, x, hx, hlive, exec_slots_kept _ _ x hg hx⟩

/-- A completion takes its reservation, another client's push gets the slot, and the completion goes
on. -/
def stolenRun : List Label :=
  .request (.put (onePut "a1" none) .arrived) :: List.replicate 11 (.task 0) ++
    pushRun 1 "b2" none ++ List.replicate 6 (.task 0)

theorem exec_loses_slot :
    ∃ x, exec (heldStep oneSlot) (Server.empty, .empty) stolenRun = some x ∧ 0 ∈ x.2.live ∧
      x.1.tasks[0]? = some (.put (onePut "a1" none) (.done (.tooManyRequests 5))) ∧
      ¬ SlotsKept x := by
  obtain ⟨x, hx, hlive, htask⟩ : ∃ x, exec (heldStep oneSlot) (Server.empty, .empty) stolenRun =
      some x ∧ 0 ∈ x.2.live ∧
        x.1.tasks[0]? = some (.put (onePut "a1" none) (.done (.tooManyRequests 5))) :=
    exists_exec (by decide +kernel)
  refine ⟨x, hx, hlive, htask, fun h => ?_⟩
  cases h 0 hlive _ htask

end WeaveGraph.Hub
