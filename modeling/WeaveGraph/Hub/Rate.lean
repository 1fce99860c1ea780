import WeaveGraph.Lib.Sliding
import WeaveGraph.Hub.Sections

/-!
# The rate of pushes

The rate section counts a push in a window that starts anew once it is a minute old, before the
push has a reservation or, without one, before it is decided.  The times of the accepted pushes are
kept beside the run.

A window that starts anew knows nothing of the pushes accepted just before it, nor of the slots
that were counted and are not used yet; a state that is created anew starts a window too.  Two
bursts around the edge of a window exceed the cap within seconds (`exec_exceeds_rate`).  Where a
window only starts counting when there is nothing of either, the cap holds over every minute
(`exec_rate_holds`).
-/

namespace WeaveGraph.Hub

open Lib Lib.Sliding Registry

def minute : Nat := 60 * second

/-- The times of the accepted pushes after a step. -/
def acceptedTimes (r r' : Registry) (times : List Nat) : List Nat :=
  if r'.log.accepted.length = r.log.accepted.length then times else times ++ [r'.now]

/-- The system with the times of the accepted pushes beside it. -/
def clockedStep (cfg : RegistryConfig) (x : Server × List Nat) (label : Label) :
    Option (Server × List Nat) :=
  (step cfg x.1 label).map fun h => (h, acceptedTimes x.1.registry h.registry x.2)

/-- In every minute at most so many pushes are accepted. -/
def RateHolds (cfg : RegistryConfig) (acceptedAt : List Nat) : Prop :=
  AtMost cfg.maxPushesPerMinutePerRepo minute acceptedAt

/-! ## Slots -/

def Task.granted (t : Task) : Bool := t.phase.granted

/-- The slots that were counted and are not used yet: reservations, and requests on the way to or
from one. -/
def Server.outstanding (h : Server) : Nat := h.registry.reserved + h.tasks.countP Task.granted

/-- The pushes accepted in the last minute. -/
def recentPushes (x : Server × List Nat) : Nat := recent minute x.1.registry.now x.2

/-- A window counts its first push when none was accepted in the last minute and no slot is
outstanding, and slots are counted and reservations taken in the current state. -/
def Phase.CountsFromRest (cfg : RegistryConfig) (x : Server × List Nat) (p : Put) : Phase → Prop
  | .reserveRate o | .finishRate o =>
    ∀ st ∈ x.1.registry.objects[o]?,
      (st.rate.refresh x.1.registry.now).count < cfg.maxPushesPerMinutePerRepo →
        x.1.registry.current = some o ∧ ((st.rate.refresh x.1.registry.now).count = 0 →
            recentPushes x = 0 ∧ x.1.outstanding = 0)
  | .takeReservation o =>
    ∀ st ∈ x.1.registry.objects[o]?, st.head.hasUpload p.sha = true →
      x.1.registry.current = some o
  | _ => True

def CountsFromRest (cfg : RegistryConfig) (x : Server × List Nat) : Label → Prop
  | .task i =>
    match x.1.tasks[i]? with
    | some (.put p phase) => phase.CountsFromRest cfg x p
    | _ => True
  | _ => True

instance decidablePhaseCountsFromRest (cfg : RegistryConfig) (x : Server × List Nat) (p : Put)
    (phase : Phase) : Decidable (phase.CountsFromRest cfg x p) := by
  unfold Phase.CountsFromRest
  split <;> infer_instance

instance decidableCountsFromRest (cfg : RegistryConfig) (x : Server × List Nat) :
    DecidablePred (CountsFromRest cfg x)
  | .task i => by
    unfold CountsFromRest
    dsimp only
    split <;> infer_instance
  | .tick _ | .request _ | .scan _ | .worker _ | .restart => isTrue trivial

/-! ## The invariant -/

structure Paced (cfg : RegistryConfig) (x : Server × List Nat) : Prop where
  holds : RateHolds cfg x.2
  room : recentPushes x + x.1.outstanding ≤ cfg.maxPushesPerMinutePerRepo
  /-- A window that counts at all has counted all of it. -/
  counted : ∀ st, x.1.registry.currentState = some st →
    st.rate.count = 0 ∨ recentPushes x + x.1.outstanding ≤ st.rate.count

variable {cfg : RegistryConfig} {x x' : Server × List Nat}

theorem Paced.frame (hp : Paced cfg x) (htimes : x'.2 = x.2)
    (hnow : x.1.registry.now ≤ x'.1.registry.now) (hout : x'.1.outstanding ≤ x.1.outstanding)
    (hcount : ∀ st', x'.1.registry.currentState = some st' → st'.rate.count = 0 ∨
      ∃ st, x.1.registry.currentState = some st ∧ st'.rate.count = st.rate.count) :
    Paced cfg x' := by
  have hrecent : recentPushes x' ≤ recentPushes x := by
    unfold recentPushes
    rw [htimes]
    exact recent_anti hnow
  have hroom := hp.room
  refine ⟨htimes ▸ hp.holds, by omega, fun st' hst' => ?_⟩
  rcases hcount st' hst' with hzero | ⟨st, hst, heq⟩
  · exact .inl hzero
  · rcases hp.counted st hst with hzero | hle
    · exact .inl (heq.trans hzero)
    · exact .inr (by omega)

/-! ## Steps of a request -/

theorem acceptedTimes_same {r r' : Registry} {times : List Nat}
    (h : r'.log.accepted = r.log.accepted) : acceptedTimes r r' times = times :=
  if_pos (by rw [h])

theorem RateWindow.refresh_cases (w : RateWindow) (now : Nat) :
    (w.refresh now).count = 0 ∨ w.refresh now = w := by
  unfold RateWindow.refresh
  split
  · exact .inl rfl
  · exact .inr rfl

section requests

variable {cfg : RegistryConfig} {h : Server} {times : List Nat} {i : Nat} {p : Put}
  {phase phase' : Phase} {r' : Registry}

theorem outstanding_set (ht : h.tasks[i]? = some (.put p phase)) :
    Server.outstanding ⟨r', h.tasks.set i (.put p phase')⟩ + h.registry.reserved +
        phase.granted.toNat = h.outstanding + r'.reserved + phase'.granted.toNat := by
  have hset := @countP_set_add _ Task.granted _ _ _ (.put p phase') ht
  have hold : (Task.put p phase).granted = phase.granted := rfl
  have hnew : (Task.put p phase').granted = phase'.granted := rfl
  rw [hold, hnew] at hset
  unfold Server.outstanding
  dsimp only
  omega

theorem Paced.put_frame (hp : Paced cfg (h, times)) (ht : h.tasks[i]? = some (.put p phase))
    (hnow : r'.now = h.registry.now) (hlog : r'.log.accepted = h.registry.log.accepted)
    (hslot : r'.reserved + phase'.granted.toNat ≤ h.registry.reserved + phase.granted.toNat)
    (hcount : ∀ st', r'.currentState = some st' → st'.rate.count = 0 ∨
      ∃ st, h.registry.currentState = some st ∧ st'.rate.count = st.rate.count) :
    Paced cfg (⟨r', h.tasks.set i (.put p phase')⟩, acceptedTimes h.registry r' times) := by
  have hset := @outstanding_set h i p phase phase' r' ht
  exact hp.frame (acceptedTimes_same hlog) hnow.ge (by dsimp only; omega) hcount

theorem Paced.grant {st : RepoState} (hp : Paced cfg (h, times))
    (ht : h.tasks[i]? = some (.put p phase)) (hfrom : phase.granted = false)
    (hto : phase'.granted = true) (hstate : h.registry.currentState = some st)
    (hroom : (st.rate.refresh h.registry.now).count < cfg.maxPushesPerMinutePerRepo)
    (hrest : (st.rate.refresh h.registry.now).count = 0 →
      recentPushes (h, times) = 0 ∧ h.outstanding = 0)
    (hnow : r'.now = h.registry.now) (hlog : r'.log.accepted = h.registry.log.accepted)
    (hstate' : r'.currentState = some { st with rate := (st.rate.refresh h.registry.now).bump }) :
    Paced cfg (⟨r', h.tasks.set i (.put p phase')⟩, acceptedTimes h.registry r' times) := by
  rw [acceptedTimes_same hlog]
  have hcovered : recentPushes (h, times) + h.outstanding ≤
      (st.rate.refresh h.registry.now).count := by
    by_cases hzero : (st.rate.refresh h.registry.now).count = 0
    · omega
    · have hsame := (st.rate.refresh_cases h.registry.now).resolve_left hzero
      rw [hsame] at hzero ⊢
      exact (hp.counted st hstate).resolve_left hzero
  have hrecent : recentPushes (⟨r', h.tasks.set i (.put p phase')⟩, times) =
      recentPushes (h, times) := by
    unfold recentPushes
    rw [hnow]
  have hset := @outstanding_set h i p phase phase' r' ht
  rw [reserved_of_state hstate, reserved_of_state hstate', hfrom, hto,
    Bool.toNat_false, Bool.toNat_true] at hset
  refine ⟨hp.holds, ?_, fun st' hst' => .inr ?_⟩
  · dsimp only at hset ⊢
    omega
  · obtain rfl := Option.some.inj (hstate'.symm.trans hst')
    dsimp only [RateWindow.bump] at hset ⊢
    omega

theorem Paced.accept {o : Nat} {seq : Nat} (hp : Paced cfg (h, times))
    (ht : h.tasks[i]? = some (.put p (.finishHead o))) :
    Paced cfg (⟨h.registry.accept o p, h.tasks.set i (.put p (.writeSig o seq))⟩,
      times ++ [h.registry.now]) := by
  have hstate : ∀ st', (h.registry.accept o p).currentState = some st' →
      ∃ st, h.registry.currentState = some st ∧ st'.rate = st.rate ∧
        st'.head.uploads = st.head.uploads := by
    intro st' hst'
    rcases @currentState_modifyHead h.registry o (fun head => head.advance p.sha) with
      ⟨st, -, -, hst, hmod⟩ | ⟨-, hmod⟩
    · obtain rfl := Option.some.inj (hmod.symm.trans hst')
      exact ⟨st, hst, rfl, rfl⟩
    · exact ⟨st', hmod.symm.trans hst', rfl, rfl⟩
  have hreserved : (h.registry.accept o p).reserved ≤ h.registry.reserved := by
    cases hst' : (h.registry.accept o p).currentState with
    | none => simp [Registry.reserved, hst']
    | some st' =>
      obtain ⟨st, hst, -, huploads⟩ := hstate st' hst'
      rw [reserved_of_state hst', reserved_of_state hst, huploads]
  have hset := @outstanding_set h i p (.finishHead o) (.writeSig o seq) (h.registry.accept o p) ht
  have hrecent : recentPushes (⟨h.registry.accept o p, h.tasks.set i (.put p (.writeSig o seq))⟩,
      times ++ [h.registry.now]) = recentPushes (h, times) + 1 := recent_append (by decide)
  have hroom := hp.room
  dsimp only [Phase.granted, Bool.toNat_false, Bool.toNat_true] at hset hroom
  refine ⟨hp.holds.append ?_, ?_, fun st' hst' => ?_⟩
  · change recentPushes (h, times) < _
    omega
  · dsimp only
    omega
  · obtain ⟨st, hst, hrate, -⟩ := hstate st' hst'
    rw [hrate]
    rcases hp.counted st hst with hzero | hle
    · exact .inl hzero
    · dsimp only at hle ⊢
      omega

theorem rate_count_repoState (r : Registry) (st' : RepoState)
    (hst' : r.repoState.2.currentState = some st') : st'.rate.count = 0 ∨
      ∃ st, r.currentState = some st ∧ st'.rate.count = st.rate.count := by
  obtain ⟨-, -, hst | ⟨-, hst⟩⟩ := r.currentState_repoState
  · exact .inr ⟨st', hst.symm.trans hst', rfl⟩
  · obtain rfl := Option.some.inj (hst.symm.trans hst')
    exact .inl rfl

theorem reserved_repoState_le (r : Registry) : r.repoState.2.reserved ≤ r.reserved := by
  obtain ⟨-, -, hst | ⟨-, hst⟩⟩ := r.currentState_repoState
  · exact (reserved_congr hst).le
  · rw [reserved_of_state hst]
    exact Nat.zero_le _

theorem paced_put (hp : Paced cfg (h, times)) (ht : h.tasks[i]? = some (.put p phase))
    (hg : phase.CountsFromRest cfg (h, times) p)
    (hadv : Advanced cfg p h.registry phase r' phase') :
    Paced cfg (⟨r', h.tasks.set i (.put p phase')⟩, acceptedTimes h.registry r' times) := by
  cases hadv with
  | plain hr hto _ =>
    refine hp.put_frame ht hr.now hr.accepted ?_ fun st' hst' => ?_
    · have hle := hr.reserved_le
      rw [hto, Bool.toNat_false]
      omega
    · obtain ⟨st, hst, hrate, -⟩ := hr.state st' hst'
      exact .inr ⟨st, hst, by rw [hrate]⟩
  | begin =>
    obtain ⟨hnow, hlog, -⟩ := h.registry.currentState_repoState
    exact hp.put_frame ht hnow (by rw [hlog])
      (Nat.add_le_add (reserved_repoState_le _) (Nat.zero_le _)) (rate_count_repoState _)
  | @finish reserved =>
    obtain ⟨hnow, hlog, -⟩ := h.registry.currentState_repoState
    refine hp.put_frame ht hnow (by rw [hlog]) (Nat.add_le_add (reserved_repoState_le _) ?_)
      (rate_count_repoState _)
    cases reserved <;> exact Nat.le_refl _
  | @grant o st _ _ hst hroom hphase =>
    have hguard : h.registry.current = some o ∧ ((st.rate.refresh h.registry.now).count = 0 →
          recentPushes (h, times) = 0 ∧ h.outstanding = 0) := by
      rcases hphase with ⟨rfl, -⟩ | ⟨rfl, -⟩
      · exact hg st hst hroom
      · exact hg st hst hroom
    have hstate := (currentState_of_current hguard.1).trans hst
    have hstate' := currentState_modify_current (f := fun x : RepoState =>
      { x with rate := (st.rate.refresh h.registry.now).bump }) hguard.1 hst
    rcases hphase with ⟨rfl, rfl⟩ | ⟨rfl, rfl⟩
    · exact hp.grant ht rfl rfl hstate hroom hguard.2 rfl rfl hstate'
    · exact hp.grant ht rfl rfl hstate hroom hguard.2 rfl rfl hstate'
  | @full o st _ _ hst hphase =>
    have hslot : phase'.granted.toNat ≤ phase.granted.toNat := by
      rcases hphase with ⟨rfl, rfl⟩ | ⟨rfl, rfl⟩ <;> exact Nat.le_refl _
    rcases @currentState_modifyRate h.registry o
        (fun _ => st.rate.refresh h.registry.now) with
      ⟨st', -, hst', hcur, hmod⟩ | ⟨-, hmod⟩
    · obtain rfl := Option.some.inj (hst.symm.trans hst')
      refine hp.put_frame ht rfl rfl ?_ fun st' hst' => ?_
      · rw [reserved_of_state hcur, reserved_of_state hmod]
        exact Nat.add_le_add_left hslot _
      · obtain rfl := Option.some.inj (hmod.symm.trans hst')
        rcases st.rate.refresh_cases h.registry.now with hzero | hsame
        · exact .inl hzero
        · exact .inr ⟨st, hcur, by rw [hsame]⟩
    · refine hp.put_frame ht rfl rfl ?_ fun st' hst' => .inr ⟨st', hmod.symm.trans hst', rfl⟩
      rw [reserved_congr hmod]
      exact Nat.add_le_add_left hslot _
  | @insert o st hst _ =>
    rcases @currentState_modifyHead h.registry o
        (fun head => head.insertUpload p.sha h.registry.now) with
      ⟨st', -, hst', hcur, hmod⟩ | ⟨-, hmod⟩
    · refine hp.put_frame ht rfl rfl ?_ fun st'' hst'' => ?_
      · rw [reserved_of_state hcur, reserved_of_state hmod]
        exact st'.head.length_insertUpload_le p.sha h.registry.now
      · obtain rfl := Option.some.inj (hmod.symm.trans hst'')
        exact .inr ⟨st', hcur, rfl⟩
    · refine hp.put_frame ht rfl rfl ?_ fun st' hst' => .inr ⟨st', hmod.symm.trans hst', rfl⟩
      rw [reserved_congr hmod]
      exact Nat.le_succ _
  | @take o st hst =>
    have hr := Releases.removeUpload h.registry o p.sha
    refine hp.put_frame ht rfl rfl ?_ fun st' hst' => ?_
    · cases hhas : st.head.hasUpload p.sha with
      | false => exact Nat.add_le_add hr.reserved_le (Nat.zero_le _)
      | true =>
        have hcur := hg st hst hhas
        have hmod : (h.registry.modifyHead o fun head => head.removeUpload p.sha).currentState =
            some { st with head := st.head.removeUpload p.sha } :=
          currentState_modify_current hcur hst
        rw [reserved_of_state ((currentState_of_current hcur).trans hst),
          reserved_of_state hmod]
        exact RepoHead.length_removeUpload_lt hhas
    · obtain ⟨st, hst, hrate, -⟩ := hr.state st' hst'
      exact .inr ⟨st, hst, by rw [hrate]⟩
  | @verified reserved =>
    refine hp.put_frame ht rfl rfl ?_ fun st' hst' => .inr ⟨st', hst', rfl⟩
    cases reserved <;> exact Nat.le_refl _
  | accept _ _ =>
    rw [acceptedTimes, if_neg (by simp [Registry.accept])]
    exact hp.accept ht
  | refused _ _ =>
    exact hp.put_frame ht rfl rfl (Nat.le_succ _) fun st' hst' => .inr ⟨st', hst', rfl⟩

end requests

/-! ## Every run -/

theorem paced_worker {h : Server} {times : List Nat} {w : Worker} {ok : Bool} {r : Registry}
    {phase : WorkerPhase} {worker : Option Worker} (hp : Paced cfg (h, times))
    (hs : h.registry.workerStep w ok = some (r, phase)) :
    Paced cfg ({ h with registry := { r with worker := worker } },
      acceptedTimes h.registry { r with worker := worker } times) := by
  rcases workerStep_releases hs with hr | ⟨rest, -, rfl⟩
  · refine hp.frame (acceptedTimes_same hr.accepted) hr.now.ge ?_ fun st' hst' => ?_
    · exact Nat.add_le_add_right hr.reserved_le _
    · obtain ⟨st, hst, hrate, -⟩ := hr.state st' hst'
      exact .inr ⟨st, hst, by rw [hrate]⟩
  · rcases @currentState_modifyHead h.registry w.state RepoHead.decrement with
      ⟨st, -, -, hst, hmod⟩ | ⟨-, hmod⟩
    · refine hp.frame (acceptedTimes_same rfl) (Nat.le_refl _) ?_ fun st' hst' => ?_
      · have hreserved : (h.registry.modifyHead w.state RepoHead.decrement).reserved =
            h.registry.reserved := by
          rw [reserved_of_state hmod, reserved_of_state hst]
          rfl
        exact Nat.add_le_add_right hreserved.le _
      · obtain rfl := Option.some.inj (hmod.symm.trans hst')
        exact .inr ⟨st, hst, rfl⟩
    · exact hp.frame (acceptedTimes_same rfl) (Nat.le_refl _)
        (Nat.add_le_add_right (reserved_congr hmod).le _)
        fun st' hst' => .inr ⟨st', hmod.symm.trans hst', rfl⟩

theorem paced_step {label : Label} (hp : Paced cfg x) (hg : CountsFromRest cfg x label)
    (hs : clockedStep cfg x label = some x') : Paced cfg x' := by
  obtain ⟨h, times⟩ := x
  obtain ⟨h', hstep, rfl⟩ := Option.map_eq_some_iff.mp hs
  cases step_cases hstep with
  | tick =>
    exact hp.frame (acceptedTimes_same rfl) (Nat.le_add_right _ _) (Nat.le_refl _)
      fun st' hst' => .inr ⟨st', hst', rfl⟩
  | @request t hnew =>
    refine hp.frame (acceptedTimes_same rfl) (Nat.le_refl _) ?_
      fun st' hst' => .inr ⟨st', hst', rfl⟩
    have hgranted : t.granted = false := by
      rw [Task.granted, Task.phase_of_isNew hnew]
      rfl
    simp [Server.outstanding, List.countP_append, hgranted]
  | @task i t ht =>
    cases t with
    | put p phase =>
      simp only [CountsFromRest, ht] at hg
      exact paced_put hp ht hg (p.advanced cfg h.registry phase)
    | head sha phase =>
      have hsame := (Task.step_head cfg h.registry sha phase).1
      have hgranted : ((Task.head sha phase).step cfg h.registry).2.granted =
          (Task.head sha phase).granted := by
        cases phase <;> rfl
      have hset := @countP_set_add _ Task.granted _ _ _
        ((Task.head sha phase).step cfg h.registry).2 ht
      rw [hgranted] at hset
      rw [hsame]
      refine hp.frame (acceptedTimes_same rfl) (Nat.le_refl _) ?_
        fun st' hst' => .inr ⟨st', hst', rfl⟩
      dsimp only [Server.outstanding] at hset ⊢
      omega
  | scan _ _ _ =>
    exact hp.frame (acceptedTimes_same rfl) (Nat.le_refl _) (Nat.le_refl _)
      fun st' hst' => .inr ⟨st', hst', rfl⟩
  | worker _ hw => exact paced_worker hp hw
  | restart =>
    obtain ⟨hnow, hstate⟩ := h.registry.currentState_restart
    refine hp.frame (acceptedTimes_same (by rw [restart_log])) hnow.ge ?_
      fun st' hst' => ?_
    · have htasks : (h.tasks.map Task.drop).countP Task.granted = 0 := by
        refine List.countP_eq_zero.mpr fun t ht => ?_
        obtain ⟨u, -, rfl⟩ := List.mem_map.mp ht
        cases u <;> simp [Task.granted, Task.drop, Task.phase, Phase.granted_drop]
      have hreserved : h.registry.restart.reserved = 0 := by
        rcases hstate with hst | hst
        · simp [Registry.reserved, hst]
        · rw [reserved_of_state hst]
          rfl
      dsimp only [Server.outstanding]
      omega
    · rcases hstate with hst | hst
      · rw [hst] at hst'
        cases hst'
      · obtain rfl := Option.some.inj (hst.symm.trans hst')
        exact .inl rfl

/-- Where a window only starts counting from rest, in the state that is current, every minute of a
run sees at most the cap of accepted pushes. -/
theorem exec_rate_holds (cfg : RegistryConfig) (labels : List Label) (x : Server × List Nat)
    (hg : Guarded (clockedStep cfg) (CountsFromRest cfg) (Server.empty, []) labels)
    (hx : exec (clockedStep cfg) (Server.empty, []) labels = some x) : RateHolds cfg x.2 := by
  have hempty : Paced cfg (Server.empty, []) :=
    ⟨fun t => Nat.zero_le _, Nat.zero_le _, fun st hst => by cases hst⟩
  exact (exec_invariant (fun _ _ _ hp hg hs => paced_step hp hg hs) labels hempty hg hx).holds

def onePerMinute : RegistryConfig := ⟨8, 1, 1024, none⟩

def minuteRun : List Label :=
  pushRun 0 "a1" none ++ [.tick minute] ++ pushRun 1 "b2" (some "a1")

theorem exec_rate_minute :
    Guarded (clockedStep onePerMinute) (CountsFromRest onePerMinute) (Server.empty, []) minuteRun ∧
      ∃ x, exec (clockedStep onePerMinute) (Server.empty, []) minuteRun = some x ∧
        x.2 = [0, minute] ∧ RateHolds onePerMinute x.2 := by
  have hg : Guarded (clockedStep onePerMinute) (CountsFromRest onePerMinute)
      (Server.empty, []) minuteRun := by decide +kernel
  obtain ⟨x, hx, htimes⟩ : ∃ x, exec (clockedStep onePerMinute) (Server.empty, []) minuteRun =
      some x ∧ x.2 = [0, minute] := exists_exec (by decide +kernel)
  exact ⟨hg, x, hx, htimes, exec_rate_holds _ _ x hg hx⟩

def twoPerMinute : RegistryConfig := ⟨8, 2, 1024, none⟩

/-- A push that starts the window, one at its end and two at the start of the next. -/
def burstRun : List Label :=
  pushRun 0 "a1" none ++ [.tick (59 * second)] ++ pushRun 1 "b2" (some "a1") ++
    [.tick second] ++ pushRun 2 "c3" (some "b2") ++ pushRun 3 "d4" (some "c3")

/-- Three pushes within a second, with a cap of two a minute. -/
theorem exec_exceeds_rate :
    ∃ x, exec (clockedStep twoPerMinute) (Server.empty, []) burstRun = some x ∧
      x.2 = [0, 59 * second, minute, minute] ∧ ¬ RateHolds twoPerMinute x.2 := by
  obtain ⟨x, hx, htimes⟩ : ∃ x, exec (clockedStep twoPerMinute) (Server.empty, []) burstRun =
      some x ∧ x.2 = [0, 59 * second, minute, minute] := exists_exec (by decide +kernel)
  refine ⟨x, hx, htimes, fun h => ?_⟩
  have hthree := h (59 * second)
  rw [htimes] at hthree
  exact absurd hthree (by decide +kernel)

end WeaveGraph.Hub
