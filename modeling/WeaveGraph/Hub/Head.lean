import Mathlib.Data.List.Chain
import WeaveGraph.Hub.Steps

/-!
# The head of a repository

The registry accepts a push when its base is the head it knows.  The head is kept in memory and
recovered from the persisted `HEAD`, which only advances as jobs are committed, so a state that is
dropped with a job still in the spool, or with a completion still waiting for its head lock,
forgets the latest accepted push (`exec_forgets_head`).  Along runs where this does not happen
every accepted base is the push accepted before it (`exec_noLostUpdate`).
-/

namespace WeaveGraph.Hub

open List Lib

/-! ## Lost updates -/

/-- A push that names its base was accepted onto the one accepted before it. -/
def NoLostUpdate (accepted : List (String × Option String)) : Prop :=
  accepted.IsChain fun before push => ∀ base, push.2 = some base → base = before.1

/-- What the next completion compares its base with. -/
def Registry.headSha (r : Registry) : Option String :=
  match r.current with
  | some o => (r.objects[o]?).bind fun st => st.head.sha
  | none => r.disk.readPersistedHead

/-- The persisted head is the one kept in memory. -/
def Registry.HeadPersisted (r : Registry) : Prop := r.disk.readPersistedHead = r.headSha
deriving Decidable

/-- A state is dropped only when the persisted head names the latest accepted push, and a worker
that exits leaves no completion behind that still waits for the head lock of its state. -/
def DropsSettled (h : Server) : Label → Prop
  | .restart => h.registry.HeadPersisted
  | .worker _ =>
    match h.registry.worker with
    | none => True
    | some w =>
      w.phase = .exit →
        h.registry.HeadPersisted ∧ ∀ t ∈ h.tasks, t.phase.deciding ≠ some w.state
  | _ => True

instance (h : Server) : DecidablePred (DropsSettled h)
  | .restart => inferInstanceAs (Decidable h.registry.HeadPersisted)
  | .worker _ =>
    match hw : h.registry.worker with
    | none => isTrue (by simp [DropsSettled, hw])
    | some w =>
      decidable_of_iff (w.phase = .exit →
        h.registry.HeadPersisted ∧ ∀ t ∈ h.tasks, t.phase.deciding ≠ some w.state)
        (by simp [DropsSettled, hw])
  | .tick _ | .request _ | .task _ | .scan _ => isTrue trivial

/-! ## The invariant -/

structure HeadKnown (h : Server) : Prop where
  chain : NoLostUpdate h.registry.log.accepted
  latest : ∀ push, h.registry.log.accepted.getLast? = some push →
    h.registry.headSha = some push.1
  deciding : ∀ t ∈ h.tasks, ∀ o, t.phase.deciding = some o → h.registry.current = some o
  worker : ∀ w, h.registry.worker = some w → h.registry.current = some w.state

theorem headSha_eq_marks (r : Registry) :
    r.headSha = match r.current with
      | some o => (r.marks[o]?).bind Prod.fst
      | none => r.disk.readPersistedHead := by
  unfold Registry.headSha Registry.marks
  cases r.current with
  | none => rfl
  | some o => cases h : r.objects[o]? <;> simp [h]

theorem Quiet.headSha {r r' : Registry} (h : Quiet r r') : r'.headSha = r.headSha := by
  rw [headSha_eq_marks, headSha_eq_marks, h.current, h.marks, h.readPersistedHead]

theorem Quiet.worker {r r' : Registry} (h : Quiet r r') {w' : Worker} (hw : r'.worker = some w') :
    ∃ w, r.worker = some w ∧ w.state = w'.state ∧ w.phase = w'.phase := by
  have hv := h.workerView
  unfold Registry.workerView at hv
  rw [hw] at hv
  cases hr : r.worker with
  | none => simp [hr] at hv
  | some w => simp_all

theorem headSha_repoState (r : Registry) : r.repoState.2.headSha = r.headSha := by
  unfold Registry.repoState
  cases hc : r.current with
  | some o => rfl
  | none => simp [Registry.headSha, hc, Registry.recovered]

theorem worker_repoState {r : Registry}
    (h : ∀ w, r.worker = some w → r.current = some w.state) {w : Worker}
    (hw : r.repoState.2.worker = some w) : r.repoState.2.current = some w.state := by
  unfold Registry.repoState at hw ⊢
  cases hc : r.current with
  | some o =>
    rw [hc] at hw
    exact h w hw
  | none =>
    rw [hc] at hw
    cases hw
    rfl

theorem noLostUpdate_accept {accepted : List (String × Option String)} {head : RepoHead}
    {sha : String} {base : Option String} (hchain : NoLostUpdate accepted)
    (hlatest : ∀ push, accepted.getLast? = some push → head.sha = some push.1)
    (hc : head.conflicts base = false) : NoLostUpdate (accepted ++ [(sha, base)]) := by
  refine isChain_append.2 ⟨hchain, isChain_singleton _, ?_⟩
  intro before hb push hp b hbase
  cases hp
  have hsha := hlatest before hb
  subst hbase
  simp only [RepoHead.conflicts, hsha] at hc
  exact Eq.symm (by simpa using hc)

/-! ## Steps -/

section steps

variable {cfg : RegistryConfig} {h : Server}

variable {r : Registry} {phase : WorkerPhase}

theorem headKnown_quiet {tasks : List Task} (hi : HeadKnown h) (hq : Quiet h.registry r)
    (ht : ∀ t ∈ tasks, ∀ o, t.phase.deciding = some o → ∃ t₀ ∈ h.tasks, t₀.phase.deciding = some o)
    :
    HeadKnown ⟨r, tasks⟩ where
  chain := by
    rw [show r.log = h.registry.log from hq.log]
    exact hi.chain
  latest := by
    intro push hp
    rw [show r.log = h.registry.log from hq.log] at hp
    rw [hq.headSha]
    exact hi.latest push hp
  deciding := by
    intro t hmem o ho
    obtain ⟨t₀, hmem₀, ho₀⟩ := ht t hmem o ho
    rw [hq.current]
    exact hi.deciding t₀ hmem₀ o ho₀
  worker := by
    intro w hw
    obtain ⟨w₀, hw₀, hs, -⟩ := hq.worker hw
    rw [hq.current, hi.worker w₀ hw₀, hs]

theorem headKnown_put {i : Nat} {p : Put} {phase : Phase} (hi : HeadKnown h)
    (hi' : h.tasks[i]? = some (.put p phase)) :
    HeadKnown ⟨(p.advance cfg h.registry phase).1,
      h.tasks.set i (.put p (p.advance cfg h.registry phase).2)⟩ := by
  have hmem : Task.put p phase ∈ h.tasks := mem_of_getElem? hi'
  rcases p.advance_cases cfg h.registry phase with
    ⟨hq, hon⟩ | ⟨hr, -, -, hp⟩ | ⟨o, st, rfl, hst, hc, hr, hp⟩ | ⟨o, seq, bytes, rfl, -, hr, hp⟩
  · refine headKnown_quiet hi hq fun t ht o ho => ?_
    rcases mem_or_eq_of_mem_set ht with ht | rfl
    · exact ⟨t, ht, ho⟩
    · exact ⟨_, hmem, hon.deciding o ho⟩
  · rw [hr]
    refine ⟨?_, ?_, ?_, fun w hw => worker_repoState hi.worker hw⟩
    · rw [log_repoState]
      exact hi.chain
    · intro push hlast
      rw [log_repoState] at hlast
      rw [headSha_repoState]
      exact hi.latest push hlast
    · intro t ht o ho
      rcases mem_or_eq_of_mem_set ht with ht | rfl
      · have hcur := hi.deciding t ht o ho
        rw [current_of_repoState hcur]
        exact hcur
      · rw [current_repoState, hp o (Phase.holder_of_deciding ho)]
  · have hcur : h.registry.current = some o := hi.deciding _ hmem o rfl
    have hhead : h.registry.headSha = st.head.sha := by
      simp [Registry.headSha, hcur, hst]
    rw [hr, hp]
    refine ⟨?_, ?_, ?_, hi.worker⟩
    · refine noLostUpdate_accept hi.chain (fun push hlast => ?_) hc
      rw [← hhead]
      exact hi.latest push hlast
    · intro push hlast
      simp only [Registry.accept, getLast?_append, getLast?_singleton,
        Option.some_or, Option.some.injEq] at hlast
      subst hlast
      simp [Registry.headSha, Registry.accept, Registry.modifyHead, hcur, hst, RepoHead.advance]
    · intro t ht o' ho'
      rcases mem_or_eq_of_mem_set ht with ht | rfl
      · exact hi.deciding t ht o' ho'
      · cases ho'
  · rw [hr, hp]
    refine ⟨hi.chain, hi.latest, ?_, hi.worker⟩
    intro t ht o' ho'
    rcases mem_or_eq_of_mem_set ht with ht | rfl
    · exact hi.deciding t ht o' ho'
    · cases ho'

theorem headKnown_task {i : Nat} {t : Task} (hi : HeadKnown h) (ht : h.tasks[i]? = some t) :
    HeadKnown ⟨(t.step cfg h.registry).1, h.tasks.set i (t.step cfg h.registry).2⟩ := by
  cases t with
  | put p phase => exact headKnown_put hi ht
  | head sha phase =>
    obtain ⟨hr, hon⟩ := Task.step_head cfg h.registry sha phase
    rw [hr]
    refine headKnown_quiet hi (.refl _) fun t ht' o ho => ?_
    rcases mem_or_eq_of_mem_set ht' with ht' | rfl
    · exact ⟨t, ht', ho⟩
    · exact ⟨_, mem_of_getElem? ht, hon.deciding o ho⟩

theorem workerStep_headSha {r' : Registry} {w : Worker} {ok : Bool}
    (hs : r.workerStep w ok = some (r', phase)) (hw : r.current = some w.state)
    (he : w.phase ≠ .exit) :
    r'.current = r.current ∧ r'.headSha = r.headSha ∧ r'.log.accepted = r.log.accepted := by
  rcases Registry.workerStep_cases hs with
    ⟨hq, -⟩ | ⟨hp, -⟩ | ⟨job, rest, blob, -, rfl, -⟩ | ⟨job, rest, -, rfl, -⟩ |
    ⟨job, rest, -, rfl, -⟩
  · exact ⟨hq.current, hq.headSha, by rw [hq.log]⟩
  · exact absurd hp he
  · exact ⟨rfl, by simp [Registry.headSha, Registry.commit, hw], rfl⟩
  · exact ⟨rfl, by simp [Registry.headSha, Registry.setDisk, hw], rfl⟩
  · exact ⟨rfl, by simp [Registry.headSha, Registry.setDisk, hw], rfl⟩

theorem headKnown_worker {w : Worker} {ok : Bool} (hi : HeadKnown h)
    (hw : h.registry.worker = some w) (hs : h.registry.workerStep w ok = some (r, phase))
    (hg : DropsSettled h (.worker ok)) :
    HeadKnown ⟨{ r with worker := w.after ok phase }, h.tasks⟩ := by
  have hcur := hi.worker w hw
  by_cases he : w.phase = .exit
  · simp only [DropsSettled, hw] at hg
    obtain ⟨hpersisted, hfree⟩ := hg he
    have hr : r = { h.registry with current := none } := by
      simp only [Registry.workerStep, he, Option.some.injEq, Prod.mk.injEq] at hs
      exact hs.1.symm
    subst hr
    refine ⟨hi.chain, ?_, ?_, ?_⟩
    · intro push hlast
      exact hpersisted.trans (hi.latest push hlast)
    · intro t ht o ho
      obtain rfl : o = w.state := by
        have := (hi.deciding t ht o ho).symm.trans hcur
        exact Option.some.inj this
      exact absurd ho (hfree t ht)
    · intro w' hw'
      exact absurd he (Worker.after_state hw').2.2
  · obtain ⟨hc, hsha, hlog⟩ := workerStep_headSha hs hcur he
    refine ⟨?_, ?_, ?_, ?_⟩
    · rw [hlog]
      exact hi.chain
    · intro push hlast
      rw [hlog] at hlast
      exact hsha.trans (hi.latest push hlast)
    · intro t ht o ho
      exact hc.trans (hi.deciding t ht o ho)
    · intro w' hw'
      rw [(Worker.after_state hw').1]
      exact hc.trans hcur

theorem headKnown_restart (hi : HeadKnown h) (hg : DropsSettled h .restart) :
    HeadKnown ⟨h.registry.restart, h.tasks.map Task.drop⟩ := by
  have hdropped : (Registry.headSha { h.registry with current := none, worker := none }) =
      h.registry.headSha := hg
  have hfree : ∀ t ∈ h.tasks.map Task.drop, t.phase.deciding = none := by
    intro t ht
    obtain ⟨t₀, -, rfl⟩ := mem_map.1 ht
    cases t₀ <;> rename_i phase <;> cases phase <;> rfl
  unfold Registry.restart
  dsimp only
  split
  · refine ⟨?_, ?_, ?_, fun w hw => worker_repoState (fun w hw => by cases hw) hw⟩
    · exact hi.chain
    · intro push hlast
      rw [headSha_repoState, hdropped]
      exact hi.latest push hlast
    · intro t ht o ho
      rw [hfree t ht] at ho
      cases ho
  · refine ⟨hi.chain, fun push hlast => hdropped.trans (hi.latest push hlast), ?_, ?_⟩
    · intro t ht o ho
      rw [hfree t ht] at ho
      cases ho
    · intro w hw
      cases hw

theorem headKnown_step {h' : Server} {l : Label} (hi : HeadKnown h) (hg : DropsSettled h l)
    (hs : step cfg h l = some h') : HeadKnown h' := by
  cases step_cases hs with
  | tick => exact ⟨hi.chain, hi.latest, hi.deciding, hi.worker⟩
  | request hnew =>
    refine headKnown_quiet hi (.refl _) fun t' ht' o ho => ?_
    rcases mem_append.1 ht' with ht' | ht'
    · exact ⟨t', ht', ho⟩
    · obtain rfl := mem_singleton.1 ht'
      rw [Task.phase_of_isNew hnew] at ho
      cases ho
  | task ht => exact headKnown_task hi ht
  | @scan listing w hw =>
    refine ⟨hi.chain, hi.latest, hi.deciding, ?_⟩
    intro w' hw'
    cases hw'
    exact hi.worker w hw
  | worker hw hstep => exact headKnown_worker hi hw hstep hg
  | restart => exact headKnown_restart hi hg

end steps

theorem headKnown_empty : HeadKnown Server.empty := by
  refine ⟨isChain_nil, ?_, ?_, ?_⟩
  · intro push hp
    cases hp
  · intro t ht
    cases ht
  · intro w hw
    cases hw

/-! ## Runs -/

/-- As long as no state is dropped early, every push that names its base is accepted onto the push
accepted before it. -/
theorem exec_noLostUpdate {cfg : RegistryConfig} {run : List Label} {h : Server}
    (hg : Guarded (step cfg) DropsSettled Server.empty run)
    (hr : exec (step cfg) Server.empty run = some h) : NoLostUpdate h.registry.log.accepted :=
  (exec_invariant (fun _ _ _ hi hg hs => headKnown_step hi hg hs) run headKnown_empty hg hr).chain

/-- Two pushes with the worker and a restart between them. -/
theorem exec_noLostUpdate_restart :
    let run := pushRun 0 "a" none ++ commitRun ⟨0, "a", 20⟩ ++ [.restart] ++ pushRun 1 "b" (some "a")
    (exec (step smallHub) Server.empty run).map (fun h => h.registry.log.accepted) =
      some [("a", none), ("b", some "a")] ∧
    ∀ h, exec (step smallHub) Server.empty run = some h → NoLostUpdate h.registry.log.accepted :=
  ⟨by decide +kernel, fun _ => exec_noLostUpdate (by decide +kernel)⟩

/-- A restart before the worker commits: the recovered state has no head, and a push onto a commit
the registry has never seen is accepted. -/
theorem exec_forgets_head :
    ∃ run h, exec (step smallHub) Server.empty run = some h ∧
      h.tasks = [.put (onePut "a" none) (.done (.plain 202)),
        .put (onePut "c" (some "b")) (.done (.plain 202))] ∧
      ¬ NoLostUpdate h.registry.log.accepted := by
  have hrun : (exec (step smallHub) Server.empty
      (pushRun 0 "a" none ++ [.restart] ++ pushRun 1 "c" (some "b"))).map (fun h =>
        h.tasks == [.put (onePut "a" none) (.done (.plain 202)),
          .put (onePut "c" (some "b")) (.done (.plain 202))] &&
        h.registry.log.accepted == [("a", none), ("c", some "b")]) = some true := by
    decide +kernel
  obtain ⟨h, hr, heq⟩ := Option.map_eq_some_iff.1 hrun
  simp only [Bool.and_eq_true, beq_iff_eq] at heq
  refine ⟨_, h, hr, heq.1, ?_⟩
  rw [heq.2]
  simp [NoLostUpdate]

end WeaveGraph.Hub
