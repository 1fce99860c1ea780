import WeaveGraph.Hub.Numbers

/-!
# Jobs in the spool

The worker deletes a job file after `commit_job`, whatever that returned: a read, a write or a
rename that fails loses an accepted push (`exec_loses_job`).  Where these succeed, and no worker
exits under a completion that has not spooled its job, every accepted push is in the spool or has
been stored under its sha (`exec_jobs_kept`).
-/

namespace WeaveGraph.Hub

open List Lib

/-- Every job that was spooled is in the spool, or its payload was stored under its sha. -/
def NoJobLost (r : Registry) : Prop :=
  ∀ j ∈ r.log.spooled, j ∈ r.disk.jobs ∨ (j.1.sha, j.2) ∈ r.log.committed

/-- Every completion answered with `202 Accepted` has spooled its job. -/
def AnswersSpooled (h : Server) : Prop :=
  ∀ p phase, Task.put p phase ∈ h.tasks → p.final = true → phase.accepting = true →
    ∃ seq bytes, (p.job seq, bytes) ∈ h.registry.log.spooled

/-- The read, the write and the rename of a commit succeed; a worker that exits leaves no completion
behind that still works with its state. -/
def CommitsSucceed (h : Server) : Label → Prop
  | .worker ok =>
    match h.registry.worker.map Worker.phase with
    | some (.readJob _ _) | some (.writeBlob _ _ _) | some (.renameBlob _ _ _) => ok = true
    | some .exit => ∀ t ∈ h.tasks, t.phase.holder = none
    | _ => True
  | _ => True

instance (h : Server) : DecidablePred (CommitsSucceed h)
  | .worker ok => by
    unfold CommitsSucceed
    dsimp only
    split <;> infer_instance
  | .tick _ | .request _ | .task _ | .scan _ | .restart => isTrue trivial

/-! ## The invariant -/

def WorkerPhase.Holds (jobs : List (SpoolJob × Bytes)) (committed : List (String × Bytes)) :
    WorkerPhase → Prop
  | .writeBlob job _ bytes => ∀ b, (job, b) ∈ jobs → b = bytes
  | .renameBlob job _ blob => blob.sha = job.sha ∧ ∀ b, (job, b) ∈ jobs → b = blob.bytes
  | .copySig job _ | .writeHead job _ | .renameHead job _ | .prune job _ | .removeJob job _ =>
    ∀ b, (job, b) ∈ jobs → (job.sha, b) ∈ committed
  | _ => True

/-- Every completion that works with a state works with the current one. -/
def Held (h : Server) : Prop :=
  ∀ t ∈ h.tasks, ∀ o, t.phase.holder = some o → h.registry.current = some o

structure JobsKept (h : Server) : Prop extends Numbered h where
  held : Held h
  kept : NoJobLost h.registry
  holds : ∀ o phase, h.registry.workerView = some (o, phase) →
    phase.Holds h.registry.disk.jobs h.registry.log.committed

/-! ## Small lemmas -/

variable {d : Disk} {phase : WorkerPhase} {committed : List (String × Bytes)} {r : Registry}
  {cfg : RegistryConfig} {h' : Server}

theorem Disk.readJob_eq_none {job : SpoolJob} (h : d.readJob job = none) (b : Bytes) :
    (job, b) ∉ d.jobs := by
  intro hb
  simp only [Disk.readJob, Option.map_eq_none_iff, find?_eq_none, decide_eq_true_eq] at h
  exact h _ hb rfl

theorem Disk.readJob_eq_some {job : SpoolJob} {bytes b : Bytes} (hd : (d.jobs.map Prod.fst).Nodup)
    (h : d.readJob job = some bytes) (hb : (job, b) ∈ d.jobs) : b = bytes := by
  obtain ⟨j, hj, rfl⟩ := Option.map_eq_some_iff.1 h
  have hname : j.1 = job := by simpa using find?_some hj
  have hmem := mem_of_find?_eq_some hj
  have := inj_on_of_nodup_map hd hmem hb hname
  rw [this]

theorem WorkerPhase.Holds.mono {jobs jobs' : List (SpoolJob × Bytes)}
    {committed' : List (String × Bytes)} (h : phase.Holds jobs committed)
    (hjobs : ∀ job ∈ phase.listed, ∀ b, (job, b) ∈ jobs' → (job, b) ∈ jobs)
    (hc : ∀ c ∈ committed, c ∈ committed') : phase.Holds jobs' committed' := by
  cases phase with
  | writeBlob job rest bytes => exact fun b hb => h b (hjobs job mem_cons_self b hb)
  | renameBlob job rest blob =>
    exact ⟨h.1, fun b hb => h.2 b (hjobs job mem_cons_self b hb)⟩
  | copySig job rest => exact fun b hb => hc _ (h b (hjobs job mem_cons_self b hb))
  | writeHead job rest => exact fun b hb => hc _ (h b (hjobs job mem_cons_self b hb))
  | renameHead job rest => exact fun b hb => hc _ (h b (hjobs job mem_cons_self b hb))
  | prune job rest => exact fun b hb => hc _ (h b (hjobs job mem_cons_self b hb))
  | removeJob job rest => exact fun b hb => hc _ (h b (hjobs job mem_cons_self b hb))
  | scan => trivial
  | recv => trivial
  | exit => trivial
  | readJob job rest => trivial
  | removeSig job rest => trivial
  | decrement rest => trivial

/-! ## Steps of a request -/

variable {h : Server}

theorem held_of_free (hfree : ∀ t ∈ h.tasks, t.phase.holder = none) : Held h := by
  intro t ht o ho
  rw [hfree t ht] at ho
  cases ho

theorem held_set {i : Nat} {t' : Task} (hi : Held h)
    (hc : ∀ o, h.registry.current = some o → r.current = some o)
    (ht : ∀ o, t'.phase.holder = some o → r.current = some o) : Held ⟨r, h.tasks.set i t'⟩ := by
  intro t hmem o ho
  rcases mem_or_eq_of_mem_set hmem with hmem | rfl
  · exact hc o (hi t hmem o ho)
  · exact ht o ho

theorem jobsKept_quiet {tasks : List Task} (hi : JobsKept h) (hq : Quiet h.registry r)
    (ht : TasksFrom h.tasks tasks) : JobsKept ⟨r, tasks⟩ := by
  refine .mk (numbered_quiet hi.toNumbered hq ht) ?_ ?_ ?_
  · intro t' ht' o ho
    obtain ⟨k, hk⟩ := mem_iff_getElem?.1 ht'
    obtain ⟨t, hk', ho'⟩ := (ht k t' hk).1 o ho
    rw [hq.current]
    exact hi.held t (mem_of_getElem? hk') o ho'
  · unfold NoJobLost
    rw [hq.log, hq.jobs]
    exact hi.kept
  · intro o phase hw
    rw [hq.workerView] at hw
    rw [hq.jobs, hq.log]
    exact hi.holds o phase hw

theorem jobsKept_repoState {tasks : List Task} (hi : JobsKept h)
    (hn : Numbered ⟨h.registry.repoState.2, tasks⟩) (hheld : Held ⟨h.registry.repoState.2, tasks⟩) :
    JobsKept ⟨h.registry.repoState.2, tasks⟩ := by
  rcases repoState_cases h.registry with hr | ⟨-, hjobs, hlog, hview, -⟩
  · rw [hr] at hn hheld ⊢
    exact .mk hn hheld hi.kept hi.holds
  · refine .mk hn hheld ?_ ?_
    · unfold NoJobLost
      rw [hlog, hjobs]
      exact hi.kept
    · intro o phase hw
      rw [hview] at hw
      cases hw
      trivial

section completion

variable {i o : Nat} {p : Put}

theorem jobsKept_spool {seq : Nat} {bytes : Bytes} (hi : JobsKept h)
    (ht : h.tasks[i]? = some (.put p (.rename o seq))) :
    JobsKept ⟨h.registry.spool (p.job seq) bytes, h.tasks.set i (.put p (.wake o))⟩ := by
  refine .mk (numbered_spool hi.toNumbered ht)
    (held_set hi.held (fun _ hc => hc) fun o ho => by cases ho) ?_ ?_
  · intro j hj
    rcases mem_append.1 hj with hj | hj
    · rcases hi.kept j hj with hk | hk
      · exact .inl (mem_spool.2 (.inl ⟨hk, (hi.used j hk).ne_job ht⟩))
      · exact .inr hk
    · obtain rfl := mem_singleton.1 hj
      exact .inl (mem_spool.2 (.inr rfl))
  · intro o' phase hw
    refine (hi.holds o' phase hw).mono (fun job hjob b hb => ?_) fun _ hc => hc
    rcases mem_spool.1 hb with ⟨hb, -⟩ | heq
    · exact hb
    · exact absurd (Prod.mk.inj heq).1 ((hi.listed o' phase hw job hjob).ne_job ht)

variable {cfg : RegistryConfig}

theorem jobsKept_put {phase : Phase} (hi : JobsKept h) (ht : h.tasks[i]? = some (.put p phase)) :
    JobsKept ⟨(p.advance cfg h.registry phase).1,
      h.tasks.set i (.put p (p.advance cfg h.registry phase).2)⟩ := by
  rcases p.advance_cases cfg h.registry phase with
    ⟨hq, hon⟩ | ⟨hr, hs, -, hh⟩ | ⟨o, st, rfl, hst, -, hr, hp⟩ | ⟨o, seq, bytes, rfl, -, hr, hp⟩
  · exact jobsKept_quiet hi hq (.set ht hon.holder hon.seq)
  · rw [hr]
    refine jobsKept_repoState hi (numbered_lookup hi.toNumbered ht hs)
      (held_set hi.held (fun o hc => ?_) fun o ho => ?_)
    · rw [current_of_repoState hc]
      exact hc
    · rw [hh o ho]
      exact current_repoState h.registry
  · rw [hr, hp]
    have hcur := hi.held _ (mem_of_getElem? ht) o rfl
    refine .mk (numbered_accept hi.toNumbered hcur hst)
      (held_set hi.held (fun _ hc => hc) fun o' ho => ?_) hi.kept hi.holds
    cases ho
    exact hcur
  · rw [hr, hp]
    exact jobsKept_spool hi ht

theorem jobsKept_task {t : Task} (hi : JobsKept h) (ht : h.tasks[i]? = some t) :
    JobsKept ⟨(t.step cfg h.registry).1, h.tasks.set i (t.step cfg h.registry).2⟩ := by
  cases t with
  | put p phase => exact jobsKept_put hi ht
  | head sha phase =>
    obtain ⟨hr, hon⟩ := Task.step_head cfg h.registry sha phase
    rw [hr]
    exact jobsKept_quiet hi (.refl _) (.set ht hon.holder hon.seq)

end completion

/-! ## The worker -/

theorem jobsKept_scan {w : Worker} {listing : List SpoolJob} (hi : JobsKept h)
    (hw : h.registry.worker = some w) (hl : h.registry.disk.Listing listing) :
    JobsKept ⟨{ h.registry with worker := some { w with
      phase := if listing.isEmpty then .recv else nextJob listing } }, h.tasks⟩ := by
  refine .mk (numbered_scan hi.toNumbered hw hl) hi.held hi.kept ?_
  intro o phase hv
  cases hv
  cases listing <;> trivial

/-- The worker's moves keep what it knows about its job, as long as its file operations succeed. -/
theorem Moves.holds {ok : Bool} {phase' : WorkerPhase} (hm : Moves d ok phase phase')
    (hd : (d.jobs.map Prod.fst).Nodup) (hh : phase.Holds d.jobs committed)
    (hok : ∀ job rest, (phase = .readJob job rest ∨ (∃ bytes, phase = .writeBlob job rest bytes) ∨
      ∃ blob, phase = .renameBlob job rest blob) → ok = true) : phase'.Holds d.jobs committed := by
  cases hm with
  | recv h =>
    rcases h with rfl | rfl
    · trivial
    · trivial
  | read h => exact fun b hb => Disk.readJob_eq_some hd h hb
  | @unread _ job rest h =>
    have := h (hok job rest (.inl rfl))
    exact fun b hb => absurd hb (Disk.readJob_eq_none this b)
  | written => exact ⟨rfl, hh⟩
  | @unwritten job rest bytes => cases hok job rest (.inr (.inl ⟨bytes, rfl⟩))
  | @unrenamed job rest blob => cases hok job rest (.inr (.inr ⟨blob, rfl⟩))
  | copySig => exact hh
  | writeHead h =>
    rcases h with rfl | rfl
    · exact hh
    · exact hh
  | renameHead => exact hh
  | prune => exact hh
  | removeJob => trivial
  | removeSig => trivial
  | @decrement _ rest => cases rest <;> trivial

theorem jobsKept_worker {w : Worker} {ok : Bool} (hi : JobsKept h) (hw : h.registry.worker = some w)
    (hs : h.registry.workerStep w ok = some (r, phase)) (hg : CommitsSucceed h (.worker ok)) :
    JobsKept ⟨{ r with worker := w.after ok phase }, h.tasks⟩ := by
  have hview := workerView_of_worker hw
  have hholds := hi.holds _ _ hview
  simp only [CommitsSucceed, hw, Option.map_some] at hg
  refine .mk (numbered_worker hi.toNumbered hw hs fun hp t ht => ?_) ?_ ?_ ?_
  · rw [hp] at hg
    exact Phase.seq_of_free (hg t ht)
  · by_cases hexit : w.phase = .exit
    · rw [hexit] at hg
      exact held_of_free hg
    · intro t ht o ho
      exact (Registry.workerStep_spool hs hexit).1.trans (hi.held t ht o ho)
  · rcases Registry.workerStep_cases hs with
      ⟨hq, -⟩ | ⟨-, rfl⟩ | ⟨job, rest, blob, -, rfl, -⟩ | ⟨job, rest, -, rfl, -⟩ |
      ⟨job, rest, hp, rfl, -⟩
    · have hj : r.disk.jobs = h.registry.disk.jobs := hq.jobs
      have hl : r.log = h.registry.log := hq.log
      unfold NoJobLost
      rw [hl, hj]
      exact hi.kept
    · exact hi.kept
    · exact fun j hj => (hi.kept j hj).imp_right fun hc => mem_append_left _ hc
    · exact hi.kept
    · -- the job file goes: its payload is known to be in the store
      rw [hp] at hholds
      intro j hj
      rcases hi.kept j hj with hk | hk
      · by_cases hjob : j.1 = job
        · subst hjob
          exact .inr (hholds j.2 hk)
        · exact .inl (Disk.mem_removeJob.2 ⟨hk, hjob⟩)
      · exact .inr hk
  · intro o phase' hv
    obtain ⟨-, rfl, hexit⟩ := workerView_after hv
    rcases Registry.workerStep_cases hs with
      ⟨hq, hm⟩ | ⟨hp, -⟩ | ⟨job, rest, blob, hp, rfl, rfl⟩ | ⟨job, rest, hp, rfl, rfl⟩ |
      ⟨job, rest, hp, rfl, rfl⟩
    · have hj : r.disk.jobs = h.registry.disk.jobs := hq.jobs
      have hl : r.log = h.registry.log := hq.log
      rw [hj, hl]
      refine hm.holds hi.names hholds ?_
      rintro job rest (hp | ⟨bytes, hp⟩ | ⟨blob, hp⟩)
      · rw [hp] at hg
        exact hg
      · rw [hp] at hg
        exact hg
      · rw [hp] at hg
        exact hg
    · exact absurd hp hexit
    · -- the blob is in the store
      rw [hp] at hholds
      intro b hb
      refine mem_append_right _ (mem_singleton.2 ?_)
      rw [hholds.1, hholds.2 b hb]
    · rw [hp] at hholds
      exact hholds
    · trivial

/-! ## Every step -/

theorem jobsKept_restart (hi : JobsKept h) :
    JobsKept ⟨h.registry.restart, h.tasks.map Task.drop⟩ := by
  have hn := numbered_restart hi.toNumbered
  have hfree := Task.drop_free h.tasks
  have hdown : JobsKept ⟨{ h.registry with current := none, worker := none },
      h.tasks.map Task.drop⟩ := by
    refine .mk (numbered_of_free ?_ hi.names ?_ ?_) (held_of_free hfree) hi.kept ?_
    · exact fun t ht => Phase.seq_of_free (hfree t ht)
    · intro j hj m hm
      cases hm
    · intro o phase hv
      cases hv
    · intro o phase hv
      cases hv
  unfold Registry.restart at hn ⊢
  dsimp only at hn ⊢
  split
  · rename_i hd
    rw [if_pos hd] at hn
    exact jobsKept_repoState hdown hn (held_of_free hfree)
  · exact hdown

theorem jobsKept_step {l : Label} (hi : JobsKept h) (hg : CommitsSucceed h l)
    (hs : step cfg h l = some h') : JobsKept h' := by
  cases step_cases hs with
  | tick => exact jobsKept_quiet hi ⟨rfl, rfl, rfl, rfl, rfl, rfl⟩ (.refl _)
  | request hnew =>
    have harrived := Task.phase_of_isNew hnew
    exact jobsKept_quiet hi (.refl _) (.append (by rw [harrived]; rfl) (by rw [harrived]; rfl))
  | task ht => exact jobsKept_task hi ht
  | scan hw _ hlist => exact jobsKept_scan hi hw hlist
  | worker hw hstep => exact jobsKept_worker hi hw hstep hg
  | restart => exact jobsKept_restart hi

theorem jobsKept_empty : JobsKept Server.empty := by
  refine .mk numbered_empty (held_of_free fun t ht => ?_) (fun j hj => ?_)
    fun o phase hv => ?_
  · cases ht
  · cases hj
  · cases hv

/-! ## Answers -/

theorem answersSpooled_frame (hi : AnswersSpooled h)
    (hlog : ∀ j ∈ h.registry.log.spooled, j ∈ h'.registry.log.spooled)
    (ht : ∀ p phase, Task.put p phase ∈ h'.tasks → p.final = true → phase.accepting = true →
      (∃ phase₀, Task.put p phase₀ ∈ h.tasks ∧ phase₀.accepting = true) ∨
      ∃ seq bytes, (p.job seq, bytes) ∈ h'.registry.log.spooled) : AnswersSpooled h' := by
  intro p phase hmem hf ha
  rcases ht p phase hmem hf ha with ⟨phase₀, hmem₀, ha₀⟩ | hj
  · obtain ⟨seq, bytes, hj⟩ := hi p phase₀ hmem₀ hf ha₀
    exact ⟨seq, bytes, hlog _ hj⟩
  · exact hj

theorem answersSpooled_put {i : Nat} {p : Put} {phase : Phase} (hi : AnswersSpooled h)
    (ht : h.tasks[i]? = some (.put p phase)) : AnswersSpooled ⟨(p.advance cfg h.registry phase).1,
      h.tasks.set i (.put p (p.advance cfg h.registry phase).2)⟩ := by
  have hmem : Task.put p phase ∈ h.tasks := mem_of_getElem? ht
  rcases p.advance_spooled cfg h.registry phase with
    ⟨o, seq, bytes, -, -, hlog⟩ | ⟨hlog, haccepting⟩
  · refine answersSpooled_frame hi (fun j hj => ?_) fun p' phase' hmem' _ ha => ?_
    · rw [hlog]
      exact mem_append_left _ hj
    · rcases mem_or_eq_of_mem_set hmem' with hmem' | heq
      · exact .inl ⟨phase', hmem', ha⟩
      · cases heq
        refine .inr ⟨seq, bytes, ?_⟩
        rw [hlog]
        exact mem_append_right _ (mem_singleton_self _)
  · refine answersSpooled_frame hi (fun j hj => hlog ▸ hj) fun p' phase' hmem' hf ha => ?_
    rcases mem_or_eq_of_mem_set hmem' with hmem' | heq
    · exact .inl ⟨phase', hmem', ha⟩
    · cases heq
      rcases haccepting ha with ha₀ | hnf
      · exact .inl ⟨phase, hmem, ha₀⟩
      · rw [hf] at hnf
        cases hnf

theorem answersSpooled_step {l : Label} (hi : AnswersSpooled h) (hs : step cfg h l = some h') :
    AnswersSpooled h' := by
  cases step_cases hs with
  | tick => exact hi
  | request hnew =>
    refine answersSpooled_frame hi (fun _ hj => hj) fun p phase hmem _ ha => ?_
    rcases mem_append.1 hmem with hmem | hmem
    · exact .inl ⟨phase, hmem, ha⟩
    · obtain rfl := mem_singleton.1 hmem
      have : phase = .arrived := Task.phase_of_isNew hnew
      rw [this] at ha
      cases ha
  | @task i t ht =>
    cases t with
    | put p phase => exact answersSpooled_put hi ht
    | head sha phase =>
      rw [(Task.step_head cfg h.registry sha phase).1]
      refine answersSpooled_frame hi (fun _ hj => hj) fun p phase' hmem _ ha => ?_
      rcases mem_or_eq_of_mem_set hmem with hmem | heq
      · exact .inl ⟨phase', hmem, ha⟩
      · cases phase <;> cases heq
  | scan => exact hi
  | @worker ok w r phase hw hstep =>
    refine answersSpooled_frame hi (fun j hj => ?_) fun p phase hmem _ ha =>
      .inl ⟨phase, hmem, ha⟩
    rw [show r.log.spooled = _ from Registry.workerStep_spooled hstep]
    exact hj
  | restart =>
    refine answersSpooled_frame hi (fun j hj => ?_) fun p phase hmem _ ha => ?_
    · rw [Registry.restart_log]
      exact hj
    · obtain ⟨t, ht, heq⟩ := mem_map.1 hmem
      cases t with
      | head sha phase₀ => cases heq
      | put p₀ phase₀ =>
        cases heq
        refine .inl ⟨phase₀, ht, ?_⟩
        cases phase₀ <;> first | exact ha | cases ha

/-! ## Runs -/

/-- As long as commits succeed, no accepted push is lost. -/
theorem exec_jobs_kept {cfg : RegistryConfig} {run : List Label} {h : Server}
    (hg : Guarded (step cfg) CommitsSucceed Server.empty run)
    (hr : exec (step cfg) Server.empty run = some h) :
    AnswersSpooled h ∧ NoJobLost h.registry := by
  have hi := exec_invariant (P := fun h => AnswersSpooled h ∧ JobsKept h)
    (fun _ _ _ hi hg hs => ⟨answersSpooled_step hi.1 hs, jobsKept_step hi.2 hg hs⟩) run
    ⟨fun _ _ hmem => (by cases hmem), jobsKept_empty⟩ hg hr
  exact ⟨hi.1, hi.2.kept⟩

theorem exec_jobs_kept_restart :
    let run := pushRun 0 "a" none ++ [.restart] ++ commitRun ⟨0, "a", 20⟩
    (exec (step smallHub) Server.empty run).map (fun h =>
      h.registry.disk.jobs.isEmpty && h.registry.log.committed == [("a", [7])]) = some true ∧
    ∀ h, exec (step smallHub) Server.empty run = some h → AnswersSpooled h ∧ NoJobLost h.registry :=
  ⟨by decide +kernel, fun _ => exec_jobs_kept (by decide +kernel)⟩

/-- The disk is full while the only push is committed: it was answered with `202`, and afterwards it
is neither in the spool nor in the store. -/
theorem exec_loses_job :
    ∃ run h, exec (step smallHub) Server.empty run = some h ∧
      h.tasks = [.put (onePut "a" none) (.done (.plain 202))] ∧ ¬ NoJobLost h.registry := by
  have hrun : (exec (step smallHub) Server.empty (pushRun 0 "a" none ++
        [.scan [⟨0, "a", 20⟩], .worker true, .worker false, .worker true])).map (fun h =>
          h.tasks == [.put (onePut "a" none) (.done (.plain 202))] &&
          h.registry.log.spooled == [(⟨0, "a", 20⟩, [7])] && h.registry.disk.jobs.isEmpty &&
          h.registry.log.committed.isEmpty) = some true := by
    decide +kernel
  obtain ⟨h, hr, heq⟩ := Option.map_eq_some_iff.1 hrun
  simp only [Bool.and_eq_true, beq_iff_eq, List.isEmpty_iff] at heq
  obtain ⟨⟨⟨htasks, hspooled⟩, hjobs⟩, hcommitted⟩ := heq
  refine ⟨_, h, hr, htasks, fun hk => ?_⟩
  have := hk (⟨0, "a", 20⟩, [7]) (by simp [hspooled])
  simp [hjobs, hcommitted] at this

end WeaveGraph.Hub
