import WeaveGraph.Hub.Completion

/-!
# The pending count

`finish_upload` counts a push under the head lock, before its job is in the spool, and the worker
counts it down after it has deleted the job.  In between three things go wrong: the rename finds no
upload, the worker cannot delete the job and finds it again, and a completion is accepted by a state
whose idle worker has removed it.  Then the count of the current state can even wrap around
(`exec_pending_wraps`).

    in every state of a run pending is the number of enqueued jobs, at most the queue depth
      ↔  pushes are accepted by the current state, renames find their upload, job files can be
         deleted, and no worker exits under an accepted push           (exec_pendingExact_iff)
-/

namespace WeaveGraph.Hub

open Lib

def Task.spooling (t : Task) : Bool := t.phase.seq.isSome

/-- The job whose file the worker has deleted and which it has not counted down. -/
def WorkerPhase.due : WorkerPhase → Nat
  | .removeSig _ _ | .decrement _ => 1
  | _ => 0

def Registry.due (r : Registry) : Nat := r.workerView.elim 0 fun v => v.2.due

/-- The jobs that are enqueued and not yet processed: accepted pushes on their way to the spool, the
spool itself, and the job the worker has not counted down. -/
def Server.enqueued (h : Server) : Nat :=
  h.tasks.countP Task.spooling + h.registry.disk.jobs.length + h.registry.due

/-- The pending count of the repository: that of its current state, or of the state it gets when it
is looked up. -/
def Registry.pending (r : Registry) : Option Nat := r.headView.map fun counts => counts.2.2

structure PendingExact (cfg : RegistryConfig) (h : Server) : Prop where
  count : h.registry.pending = some h.enqueued
  positive : ∀ o rest st, h.registry.workerView = some (o, .decrement rest) →
    h.registry.objects[o]? = some st → 0 < st.head.pending
  bounded : ∀ n, h.registry.pending = some n → n ≤ cfg.maxQueueDepthPerRepo

/-- A push is accepted by the current state, a rename finds its upload, a job file can be deleted,
and a worker that exits leaves no accepted push behind that is not in the spool yet. -/
def KeepsCount (cfg : RegistryConfig) (h : Server) : Label → Prop
  | .task i =>
    match h.tasks[i]? with
    | some (.put p (.finishHead o)) =>
      match h.registry.objects[o]? with
      | some st => refusal cfg st.head st.head.pending p = none → h.registry.current = some o
      | none => True
    | some (.put p (.rename _ _)) => (h.registry.disk.uploads p.sha).isSome
    | _ => True
  | .worker ok =>
    match h.registry.worker.map Worker.phase with
    | some (.removeJob _ _) => ok = true
    | some .exit => ∀ t ∈ h.tasks, t.phase.seq = none
    | _ => True
  | _ => True

instance (cfg : RegistryConfig) (h : Server) : DecidablePred (KeepsCount cfg h)
  | .task i => by
    unfold KeepsCount
    dsimp only
    repeat' split
    all_goals infer_instance
  | .worker ok => by
    unfold KeepsCount
    dsimp only
    exact match h.registry.worker.map Worker.phase with
    | some (.removeJob _ _) => inferInstanceAs (Decidable (ok = true))
    | some .exit => inferInstanceAs (Decidable (∀ t ∈ h.tasks, _))
    | none | some .scan | some .recv | some (.readJob _ _) | some (.writeBlob _ _ _)
    | some (.renameBlob _ _ _) | some (.copySig _ _) | some (.writeHead _ _)
    | some (.renameHead _ _) | some (.prune _ _) | some (.removeSig _ _)
    | some (.decrement _) => isTrue trivial
  | .tick _ | .request _ | .scan _ | .restart => isTrue trivial

/-! ## Counting -/

theorem countP_set_add {α : Type} {p : α → Bool} {l : List α} {i : Nat} {a b : α}
    (h : l[i]? = some a) : (l.set i b).countP p + (p a).toNat = l.countP p + (p b).toNat := by
  obtain ⟨hlt, ha⟩ := List.getElem?_eq_some_iff.1 h
  have hpos : p a = true → 0 < l.countP p :=
    fun hp => List.countP_pos_iff.2 ⟨a, List.mem_of_getElem? h, hp⟩
  rw [List.countP_set hlt, ha]
  cases hpa : p a with
  | false => cases p b <;> simp
  | true =>
    have := hpos hpa
    cases p b <;> simp <;> omega

theorem spooling_eq_zero {tasks : List Task} :
    tasks.countP Task.spooling = 0 ↔ ∀ t ∈ tasks, t.phase.seq = none := by
  simp [List.countP_eq_zero, Task.spooling]

theorem Disk.length_removeJob {d : Disk} {job : SpoolJob} (hd : (d.jobs.map Prod.fst).Nodup)
    (hj : job ∈ d.jobs.map Prod.fst) : (d.removeJob job).jobs.length + 1 = d.jobs.length := by
  have herase : (d.removeJob job).jobs.map Prod.fst = (d.jobs.map Prod.fst).erase job := by
    rw [hd.erase_eq_filter, Disk.removeJob, List.filter_map]
    congr 1
    refine List.filter_congr fun j _ => ?_
    simp [bne, beq_eq_decide]
  have hlen := congrArg List.length herase
  rw [List.length_map, List.length_erase_of_mem hj, List.length_map] at hlen
  have := List.length_pos_of_mem hj
  rw [List.length_map] at this
  omega

theorem Disk.length_addJob {d : Disk} {job : SpoolJob} {bytes : Bytes}
    (hj : ∀ j ∈ d.jobs, j.1 ≠ job) : (d.addJob job bytes).jobs.length = d.jobs.length + 1 := by
  have hkeep : d.jobs.filter (fun j => j.1 ≠ job) = d.jobs :=
    List.filter_eq_self.2 fun j hmem => by simpa using hj j hmem
  simp only [Disk.addJob, Disk.setUpload, hkeep, List.length_append, List.length_singleton]

variable {r : Registry} {h h' : Server} {w : Worker} {ok : Bool} {phase : WorkerPhase}
  {cfg : RegistryConfig} {l : Label}

theorem pending_of_current {o : Nat} (hc : r.current = some o) :
    r.pending = (r.objects[o]?).map fun st => st.head.pending := by
  simp only [Registry.pending, Registry.headView, hc, Registry.counts, List.getElem?_map,
    Option.map_map]
  rfl

theorem pending_of_free (hc : r.current = none) : r.pending = some r.disk.jobs.length := by
  simp [Registry.pending, Registry.headView, hc, Registry.recovered, RepoHead.counts]

theorem due_of_free (hi : Numbered h) (hc : h.registry.current = none) : h.registry.due = 0 := by
  cases hv : h.registry.workerView with
  | none => simp [Registry.due, hv]
  | some v =>
    have := hi.worker v.1 v.2 hv
    rw [hc] at this
    cases this

/-! ## The worker's listing -/

def Listed (r : Registry) : Prop :=
  ∀ o phase, r.workerView = some (o, phase) →
    phase.listed.Nodup ∧ ∀ job ∈ phase.listed, job ∈ r.disk.jobs.map Prod.fst

theorem Listed.of_scan (hv : ∀ o phase, r.workerView = some (o, phase) → phase = .scan) :
    Listed r := by
  intro o phase hw
  rw [hv o phase hw]
  exact ⟨List.nodup_nil, fun _ hj => by cases hj⟩

theorem Listed.frame {r' : Registry} (hl : Listed r) (hv : r'.workerView = r.workerView)
    (hj : ∀ o phase, r.workerView = some (o, phase) → ∀ job ∈ phase.listed,
      job ∈ r.disk.jobs.map Prod.fst → job ∈ r'.disk.jobs.map Prod.fst) : Listed r' := by
  intro o phase hw
  rw [hv] at hw
  obtain ⟨hnodup, hmem⟩ := hl o phase hw
  exact ⟨hnodup, fun job hjob => hj o phase hw job hjob (hmem job hjob)⟩

theorem listed_repoState (hl : Listed r) : Listed r.repoState.2 := by
  rcases repoState_cases r with hr | ⟨-, -, -, hview, -⟩
  · rw [hr]
    exact hl
  · refine Listed.of_scan fun o phase hw => ?_
    rw [hview] at hw
    cases hw
    rfl

section requests

variable {cfg : RegistryConfig} {h : Server} {i : Nat} {p : Put} {phase : Phase}

theorem listed_put (hi : Numbered h) (hl : Listed h.registry)
    (ht : h.tasks[i]? = some (.put p phase)) : Listed (p.advance cfg h.registry phase).1 := by
  rcases p.advance_cases cfg h.registry phase with
    ⟨hq, -⟩ | ⟨hr, -⟩ | ⟨o, st, -, -, -, hr, -⟩ | ⟨o, seq, bytes, rfl, -, hr, -⟩
  · refine hl.frame hq.workerView fun _ _ _ _ _ hmem => ?_
    rw [hq.jobs]
    exact hmem
  · rw [hr]
    exact listed_repoState hl
  · rw [hr]
    exact hl
  · rw [hr]
    refine hl.frame rfl fun o' phase' hw job hjob hmem => ?_
    obtain ⟨j, hj, rfl⟩ := List.mem_map.1 hmem
    exact List.mem_map_of_mem (mem_spool.2 (.inl ⟨hj, (hi.used j hj).ne_job ht⟩))

end requests

theorem view_after (hexit : w.phase ≠ .exit) :
    Registry.workerView { r with worker := w.after ok phase } = some (w.state, phase) := by
  unfold Registry.workerView Worker.after
  split
  · rename_i hp
    exact absurd hp hexit
  · rfl
  · rfl

theorem listed_worker (hl : Listed h.registry) (hw : h.registry.worker = some w)
    (hs : h.registry.workerStep w ok = some (r, phase)) :
    Listed { r with worker := w.after ok phase } := by
  intro o phase' hv
  obtain ⟨rfl, rfl, hexit⟩ := workerView_after hv
  obtain ⟨hnodup, hmem⟩ := hl w.state w.phase (workerView_of_worker hw)
  obtain ⟨-, -, hsuffix, hjobs⟩ := Registry.workerStep_spool hs hexit
  refine ⟨hnodup.sublist hsuffix.sublist, fun job hjob => ?_⟩
  have hold := hmem job (hsuffix.subset hjob)
  rcases hjobs with hj | ⟨job', rest, hp, rfl, hj⟩
  · dsimp only
    rw [hj]
    exact hold
  · -- the job that goes is the first one listed, and no other has its name
    rw [hp] at hnodup
    rw [hj]
    obtain ⟨j, hjmem, rfl⟩ := List.mem_map.1 hold
    refine List.mem_map_of_mem (Disk.mem_removeJob.2 ⟨hjmem, ?_⟩)
    rintro rfl
    exact (List.nodup_cons.1 hnodup).1 hjob

theorem listed_step (hi : Numbered h) (hl : Listed h.registry) (hs : step cfg h l = some h') :
    Listed h'.registry := by
  cases step_cases hs with
  | tick => exact hl
  | request => exact hl
  | @task i t ht =>
    cases t with
    | put p phase => exact listed_put hi hl ht
    | head sha phase =>
      rw [(Task.step_head cfg h.registry sha phase).1]
      exact hl
  | scan _ _ hlist =>
    intro o phase hv
    cases hv
    rw [listed_of_listing]
    exact ⟨hlist.1.nodup_iff.2 hi.names, fun job hjob => hlist.1.mem_iff.1 hjob⟩
  | worker hw hstep => exact listed_worker hl hw hstep
  | restart =>
    refine Listed.of_scan fun o phase hv => ?_
    dsimp only [Registry.restart] at hv
    split at hv
    · cases hv
      rfl
    · cases hv

/-! ## What a step does to the count -/

/-- The count is right and within the queue depth. -/
def Counted (cfg : RegistryConfig) (h : Server) : Prop :=
  h.registry.pending = some h.enqueued ∧ h.enqueued ≤ cfg.maxQueueDepthPerRepo

theorem pendingExact_iff (hi : Numbered h) : PendingExact cfg h ↔ Counted cfg h := by
  constructor
  · exact fun he => ⟨he.count, he.bounded _ he.count⟩
  · rintro ⟨hcount, hbound⟩
    refine ⟨hcount, fun o rest st hv hst => ?_, fun n hn => ?_⟩
    · have hpending := pending_of_current (hi.worker o _ hv)
      rw [hcount, hst] at hpending
      have hdue : h.registry.due = 1 := by simp [Registry.due, hv, WorkerPhase.due]
      have heq : h.enqueued = st.head.pending := Option.some.inj hpending
      unfold Server.enqueued at heq
      omega
    · rw [hcount] at hn
      cases hn
      exact hbound

theorem Counted.frame (hc : Counted cfg h) (hp : h'.registry.pending = h.registry.pending)
    (he : h'.enqueued = h.enqueued) : Counted cfg h' := by
  unfold Counted
  rw [hp, he]
  exact hc

section requests

variable {cfg : RegistryConfig} {h : Server} {i o : Nat} {p : Put} {phase : Phase}

theorem enqueued_set {r : Registry} {t t' : Task} (ht : h.tasks[i]? = some t)
    (hj : r.disk.jobs = h.registry.disk.jobs) (hd : r.due = h.registry.due) :
    Server.enqueued ⟨r, h.tasks.set i t'⟩ + t.spooling.toNat = h.enqueued + t'.spooling.toNat := by
  have hset := @countP_set_add _ Task.spooling _ _ _ t' ht
  unfold Server.enqueued
  dsimp only
  rw [hj, hd]
  omega

theorem refusal_pending {head : RepoHead} {depth : Nat} (hr : refusal cfg head depth p = none) :
    depth < cfg.maxQueueDepthPerRepo := by
  unfold refusal at hr
  split at hr
  · cases hr
  · rename_i hlt
    exact Nat.lt_of_not_le hlt

theorem counted_accept {st : RepoState} (hmax : cfg.maxQueueDepthPerRepo < 2 ^ 64)
    (hc : Counted cfg h) (ht : h.tasks[i]? = some (.put p (.finishHead o)))
    (hst : h.registry.objects[o]? = some st)
    (hr : refusal cfg st.head st.head.pending p = none) :
    Counted cfg ⟨h.registry.accept o p, h.tasks.set i (.put p (.writeSig o st.head.nextSeq))⟩ ↔
      h.registry.current = some o := by
  have henq : Server.enqueued ⟨h.registry.accept o p,
      h.tasks.set i (.put p (.writeSig o st.head.nextSeq))⟩ = h.enqueued + 1 :=
    enqueued_set ht rfl rfl
  unfold Counted
  rw [henq]
  constructor
  · rintro ⟨hcount, -⟩
    by_contra hne
    -- the count of another state went up
    have hsame : (h.registry.accept o p).pending = h.registry.pending := by
      cases hcur : h.registry.current with
      | none =>
        rw [pending_of_free hcur]
        exact pending_of_free (r := h.registry.accept o p) hcur
      | some o' =>
        rw [pending_of_current hcur, pending_of_current (r := h.registry.accept o p) hcur]
        have hoo : o ≠ o' := fun heq => hne (heq ▸ hcur)
        simp [Registry.accept, Registry.modifyHead, hoo]
    rw [hsame, hc.1] at hcount
    have := Option.some.inj hcount
    omega
  · intro hcur
    have hpending : h.registry.pending = some st.head.pending := by
      rw [pending_of_current hcur, hst]
      rfl
    have heq : h.enqueued = st.head.pending := Option.some.inj (hc.1.symm.trans hpending)
    have hlt := refusal_pending hr
    have hnext : (st.head.advance p.sha).pending = st.head.pending + 1 :=
      Nat.mod_eq_of_lt (by omega)
    refine ⟨?_, by omega⟩
    rw [pending_of_current (r := h.registry.accept o p) hcur, heq]
    simp [Registry.accept, Registry.modifyHead, hst, hnext]

theorem counted_spool {seq : Nat} {bytes : Bytes} (hi : Numbered h) (hc : Counted cfg h)
    (ht : h.tasks[i]? = some (.put p (.rename o seq))) :
    Counted cfg ⟨h.registry.spool (p.job seq) bytes, h.tasks.set i (.put p (.wake o))⟩ := by
  have hmem := List.mem_of_getElem? ht
  refine hc.frame ?_ ?_
  · cases hcur : h.registry.current with
    | none => cases hi.settled hcur _ hmem
    | some o' =>
      rw [pending_of_current hcur]
      exact pending_of_current (r := h.registry.spool (p.job seq) bytes) hcur
  · have hset : (h.tasks.set i (.put p (.wake o))).countP Task.spooling + 1 =
        h.tasks.countP Task.spooling + 0 := countP_set_add ht
    have hjobs : (h.registry.spool (p.job seq) bytes).disk.jobs.length =
        h.registry.disk.jobs.length + 1 :=
      Disk.length_addJob fun j hj => (hi.used j hj).ne_job ht
    unfold Server.enqueued
    dsimp only
    rw [hjobs, show (h.registry.spool (p.job seq) bytes).due = h.registry.due from rfl]
    omega

theorem Put.advance_spooling (hhead : ∀ o, phase ≠ .finishHead o)
    (hrename : ∀ o seq, phase ≠ .rename o seq) :
    (Task.put p (p.advance cfg h.registry phase).2).spooling = (Task.put p phase).spooling := by
  unfold Task.spooling Task.phase
  cases hseq : phase.seq with
  | some n =>
    cases phase with
    | writeSig o seq =>
      simp only [Put.advance]
      cases p.signature <;> rfl
    | rename o seq => exact absurd rfl (hrename o seq)
    | _ => cases hseq
  | none =>
    rcases p.advance_cases cfg h.registry phase with
      ⟨-, hon⟩ | ⟨-, hs, -⟩ | ⟨o, st, hp, -⟩ | ⟨o, seq, bytes, hp, -⟩
    · cases hs : (p.advance cfg h.registry phase).2.seq with
      | none => rfl
      | some n =>
        rw [hon.seq n hs] at hseq
        cases hseq
    · rw [hs]
    · exact absurd hp (hhead o)
    · exact absurd hp (hrename o seq)

theorem due_repoState (hi : Numbered h) : h.registry.repoState.2.due = h.registry.due := by
  rcases repoState_cases h.registry with hr | ⟨hc, -, -, hview, -⟩
  · rw [hr]
  · rw [due_of_free hi hc, Registry.due, hview]
    rfl

theorem jobs_repoState (r : Registry) : r.repoState.2.disk.jobs = r.disk.jobs := by
  rcases repoState_cases r with hr | ⟨-, hjobs, -⟩
  · rw [hr]
  · exact hjobs

theorem counted_onward (hi : Numbered h) (hc : Counted cfg h)
    (ht : h.tasks[i]? = some (.put p phase)) (hhead : ∀ o, phase ≠ .finishHead o)
    (hrename : ∀ o seq, phase ≠ .rename o seq) :
    Counted cfg ⟨(p.advance cfg h.registry phase).1,
      h.tasks.set i (.put p (p.advance cfg h.registry phase).2)⟩ := by
  have hspool := @Put.advance_spooling cfg h p phase hhead hrename
  have henq : ∀ r : Registry, r.disk.jobs = h.registry.disk.jobs → r.due = h.registry.due →
      Server.enqueued ⟨r, h.tasks.set i (.put p (p.advance cfg h.registry phase).2)⟩ =
        h.enqueued := by
    intro r hj hd
    have := @enqueued_set h i r _ (.put p (p.advance cfg h.registry phase).2) ht hj hd
    rw [hspool] at this
    omega
  by_cases hlookup : (p.advance cfg h.registry phase).1 = h.registry.repoState.2
  · rw [hlookup]
    refine hc.frame ?_ (henq _ (jobs_repoState _) (due_repoState hi))
    exact congrArg (Option.map _) (headView_repoState h.registry).1
  · rcases p.advance_cases cfg h.registry phase with
      ⟨hq, -⟩ | ⟨hr, -⟩ | ⟨o, st, hp, -⟩ | ⟨o, seq, bytes, hp, -⟩
    · refine hc.frame ?_ (henq _ hq.jobs ?_)
      · exact congrArg (Option.map _)
          (hq.headView (p.advance_counts cfg h.registry phase hhead hlookup))
      · unfold Registry.due
        rw [hq.workerView]
    · exact absurd hr hlookup
    · exact absurd hp (hhead o)
    · exact absurd hp (hrename o seq)

theorem counted_put (hmax : cfg.maxQueueDepthPerRepo < 2 ^ 64) (hi : Numbered h)
    (hc : Counted cfg h) (ht : h.tasks[i]? = some (.put p phase)) :
    Counted cfg ⟨(p.advance cfg h.registry phase).1,
      h.tasks.set i (.put p (p.advance cfg h.registry phase).2)⟩ ↔ KeepsCount cfg h (.task i) := by
  have hdrop : ∀ response : Phase, response.seq = none →
      (Task.put p phase).spooling = false →
      Counted cfg ⟨h.registry, h.tasks.set i (.put p response)⟩ := by
    intro response hseq hnot
    have := @enqueued_set h i h.registry _ (.put p response) ht rfl rfl
    rw [hnot, show (Task.put p response).spooling = false by simp [Task.spooling, Task.phase, hseq]]
      at this
    exact hc.frame rfl this
  cases phase with
  | finishHead o =>
    simp only [KeepsCount, ht, Put.advance, withState]
    cases hst : h.registry.objects[o]? with
    | none => exact iff_of_true (hdrop .lost rfl rfl) trivial
    | some st =>
      dsimp only
      cases hr : refusal cfg st.head st.head.pending p with
      | some response =>
        refine iff_of_true (hdrop _ rfl rfl) fun hnone => ?_
        cases hnone
      | none =>
        rw [counted_accept hmax hc ht hst hr]
        exact ⟨fun hcur _ => hcur, fun hcur => hcur rfl⟩
  | rename o seq =>
    simp only [KeepsCount, ht, Put.advance]
    cases hu : h.registry.disk.uploads p.sha with
    | some bytes => exact iff_of_true (counted_spool hi hc ht) rfl
    | none =>
      refine iff_of_false (fun hcount => ?_) Bool.false_ne_true
      -- the push stays counted, and it is on its way no more
      have henq := @enqueued_set h i h.registry _ (.put p (.abandonState (.plain 500))) ht rfl rfl
      have := hcount.1.symm.trans hc.1
      have heq := Option.some.inj this
      rw [heq] at henq
      simp [Task.spooling, Task.phase, Phase.seq] at henq
  | _ =>
    simp only [KeepsCount, ht]
    exact iff_true_intro (counted_onward hi hc ht (fun _ => by simp) fun _ _ => by simp)

end requests

/-! ## The worker -/

theorem Registry.workerStep_due {r' : Registry} (hs : r.workerStep w ok = some (r', phase)) :
    (w.phase = .exit ∧ r' = { r with current := none }) ∨
    (∃ rest, w.phase = .decrement rest ∧ r' = r.modifyHead w.state RepoHead.decrement ∧
      phase = nextJob rest) ∨
    (∃ job rest, w.phase = .removeJob job rest ∧ phase = .removeSig job rest ∧
      r' = if ok then r.setDisk (r.disk.removeJob job) else r) ∨
    (w.phase ≠ .exit ∧ (∀ job rest, w.phase ≠ .removeJob job rest) ∧
      r'.objects = r.objects ∧ r'.current = r.current ∧ r'.disk.jobs = r.disk.jobs ∧
      phase.due = w.phase.due) := by
  unfold Registry.workerStep at hs
  generalize w.phase = p at hs ⊢
  cases p with
  | scan => cases hs
  | exit =>
    cases hs
    exact .inl ⟨rfl, rfl⟩
  | decrement rest =>
    cases hs
    exact .inr (.inl ⟨rest, rfl, rfl, rfl⟩)
  | removeJob job rest =>
    cases hs
    exact .inr (.inr (.inl ⟨job, rest, rfl, rfl, rfl⟩))
  | recv =>
    dsimp only at hs
    split at hs <;> cases hs
    refine .inr (.inr (.inr ⟨nofun, nofun, rfl, rfl, rfl, ?_⟩))
    cases ok <;> rfl
  | prune job rest | removeSig job rest =>
    cases hs
    exact .inr (.inr (.inr ⟨nofun, nofun, by cases ok <;> rfl, by cases ok <;> rfl,
      by cases ok <;> rfl, rfl⟩))
  | readJob job rest =>
    dsimp only at hs
    split at hs <;> cases hs <;> exact .inr (.inr (.inr ⟨nofun, nofun, rfl, rfl, rfl, rfl⟩))
  | copySig job rest =>
    dsimp only at hs
    split at hs <;> cases hs <;> exact .inr (.inr (.inr ⟨nofun, nofun, rfl, rfl, rfl, rfl⟩))
  | _ =>
    cases ok <;> cases hs <;> exact .inr (.inr (.inr ⟨nofun, nofun, rfl, rfl, rfl, rfl⟩))

section worker

variable {cfg : RegistryConfig} {h : Server} {w : Worker} {ok : Bool} {phase : WorkerPhase}

theorem counted_of_worker (hw : h.registry.worker = some w) :
    Counted cfg h ↔
      h.registry.pending = some (h.tasks.countP Task.spooling + h.registry.disk.jobs.length +
        w.phase.due) ∧
      h.tasks.countP Task.spooling + h.registry.disk.jobs.length + w.phase.due ≤
        cfg.maxQueueDepthPerRepo := by
  have hdue : h.registry.due = w.phase.due := by simp [Registry.due, Registry.workerView, hw]
  unfold Counted Server.enqueued
  rw [hdue]

theorem counted_after {r : Registry} {tasks : List Task} (hexit : w.phase ≠ .exit) :
    Counted cfg ⟨{ r with worker := w.after ok phase }, tasks⟩ ↔
      r.pending = some (tasks.countP Task.spooling + r.disk.jobs.length + phase.due) ∧
      tasks.countP Task.spooling + r.disk.jobs.length + phase.due ≤ cfg.maxQueueDepthPerRepo := by
  have hdue : Registry.due { r with worker := w.after ok phase } = phase.due := by
    unfold Registry.due
    rw [view_after hexit]
    rfl
  unfold Counted Server.enqueued
  rw [hdue]
  rfl

theorem counted_exit (hc : Counted cfg h) (hexit : w.phase = .exit) :
    Counted cfg ⟨{ h.registry with current := none, worker := w.after ok phase }, h.tasks⟩ ↔
      ∀ t ∈ h.tasks, t.phase.seq = none := by
  have hpending : Registry.pending { h.registry with current := none, worker := w.after ok phase } =
      some h.registry.disk.jobs.length := pending_of_free rfl
  have hdue : Registry.due { h.registry with current := none, worker := w.after ok phase } = 0 := by
    simp [Registry.due, Registry.workerView, Worker.after, hexit]
  have hbound := hc.2
  unfold Server.enqueued at hbound
  unfold Counted Server.enqueued
  dsimp only
  rw [hpending, hdue, ← spooling_eq_zero, Option.some.injEq]
  omega

theorem pending_decrement {o n : Nat} (hcur : h.registry.current = some o)
    (hn : h.registry.pending = some (n + 1)) :
    (h.registry.modifyHead o RepoHead.decrement).pending = some n := by
  rw [pending_of_current hcur] at hn
  obtain ⟨st, hst, hcount⟩ := Option.map_eq_some_iff.1 hn
  rw [pending_of_current (r := h.registry.modifyHead o RepoHead.decrement) hcur]
  simp [Registry.modifyHead, hst, RepoHead.decrement, hcount]

theorem counted_worker {r : Registry} (hi : Numbered h) (hl : Listed h.registry)
    (hc : Counted cfg h) (hw : h.registry.worker = some w)
    (hs : h.registry.workerStep w ok = some (r, phase)) :
    Counted cfg ⟨{ r with worker := w.after ok phase }, h.tasks⟩ ↔
      KeepsCount cfg h (.worker ok) := by
  have hcur := hi.worker _ _ (workerView_of_worker hw)
  obtain ⟨hcount, hbound⟩ := (counted_of_worker hw).1 hc
  simp only [KeepsCount, hw, Option.map_some]
  rcases Registry.workerStep_due hs with
    ⟨hp, rfl⟩ | ⟨rest, hp, rfl, rfl⟩ | ⟨job, rest, hp, rfl, rfl⟩ |
    ⟨hexit, hremove, hobjects, hcurrent, hjobs, hdue⟩
  · rw [hp]
    exact counted_exit hc hp
  · have hnext : (nextJob rest).due = 0 := by cases rest <;> rfl
    rw [hp] at hcount hbound ⊢
    refine iff_true_intro ((counted_after (by simp [hp])).2 ?_)
    rw [hnext]
    exact ⟨pending_decrement hcur hcount, Nat.le_of_succ_le hbound⟩
  · rw [counted_after (by simp [hp])]
    rw [hp] at hcount hbound ⊢
    dsimp only [WorkerPhase.due] at hcount hbound ⊢
    cases ok with
    | true =>
      -- the file of a listed job is in the spool, and no other has its name
      have hmem : job ∈ h.registry.disk.jobs.map Prod.fst :=
        (hl w.state w.phase (workerView_of_worker hw)).2 job (by simp [hp, WorkerPhase.listed])
      have hlen := Disk.length_removeJob hi.names hmem
      have hpending : (h.registry.setDisk (h.registry.disk.removeJob job)).pending =
          h.registry.pending := by
        rw [pending_of_current hcur]
        exact pending_of_current (r := h.registry.setDisk _) hcur
      refine iff_of_true ?_ rfl
      rw [if_pos rfl, hpending, hcount, Option.some.injEq]
      dsimp only [Registry.setDisk]
      omega
    | false =>
      refine iff_of_false (fun hbad => ?_) Bool.false_ne_true
      rw [if_neg Bool.false_ne_true, hcount, Option.some.injEq] at hbad
      omega
  · have hpending : r.pending = h.registry.pending := by
      rw [pending_of_current hcur, pending_of_current (hcurrent.trans hcur), hobjects]
    have hkeep : Counted cfg ⟨{ r with worker := w.after ok phase }, h.tasks⟩ := by
      rw [counted_after hexit, hpending, hjobs, hdue]
      exact ⟨hcount, hbound⟩
    refine iff_of_true hkeep ?_
    cases hp : w.phase with
    | exit => exact absurd hp hexit
    | removeJob job rest => exact absurd hp (hremove job rest)
    | _ => trivial

end worker

/-! ## Every step -/

theorem counted_restart (hc : Counted cfg h) :
    Counted cfg ⟨h.registry.restart, h.tasks.map Task.drop⟩ := by
  have hfree : (h.tasks.map Task.drop).countP Task.spooling = 0 :=
    spooling_eq_zero.2 fun t ht => Phase.seq_of_free (Task.drop_free h.tasks t ht)
  have hpending : h.registry.restart.pending = some h.registry.disk.jobs.length := by
    unfold Registry.restart
    dsimp only
    split
    · exact (congrArg (Option.map _) (headView_repoState _).1).trans (pending_of_free rfl)
    · exact pending_of_free rfl
  have hjobs : h.registry.restart.disk.jobs = h.registry.disk.jobs := by
    unfold Registry.restart
    dsimp only
    split
    · exact jobs_repoState _
    · rfl
  have hdue : h.registry.restart.due = 0 := by
    unfold Registry.restart
    dsimp only
    split <;> rfl
  have hbound := hc.2
  unfold Server.enqueued at hbound
  unfold Counted Server.enqueued
  rw [hpending, hjobs, hdue, hfree, Option.some.injEq]
  omega

theorem counted_step (hmax : cfg.maxQueueDepthPerRepo < 2 ^ 64) (hi : Numbered h)
    (hl : Listed h.registry) (hc : Counted cfg h) (hs : step cfg h l = some h') :
    Counted cfg h' ↔ KeepsCount cfg h l := by
  cases step_cases hs with
  | tick =>
    refine iff_of_true (hc.frame ?_ rfl) trivial
    rfl
  | @request t hnew =>
    refine iff_of_true (hc.frame rfl ?_) trivial
    have hnot : t.spooling = false := by
      simp [Task.spooling, Task.phase_of_isNew hnew, Phase.seq]
    simp [Server.enqueued, hnot]
  | @task i t ht =>
    cases t with
    | put p phase => exact counted_put hmax hi hc ht
    | head sha phase =>
      have hspool : ((Task.head sha phase).step cfg h.registry).2.spooling =
          (Task.head sha phase).spooling := by cases phase <;> rfl
      have henq := @enqueued_set h i h.registry _ ((Task.head sha phase).step cfg h.registry).2
        ht rfl rfl
      rw [hspool] at henq
      simp only [KeepsCount, ht]
      rw [(Task.step_head cfg h.registry sha phase).1]
      exact iff_true_intro (hc.frame rfl (by omega))
  | @scan listing w hw hphase =>
    refine iff_of_true (hc.frame rfl ?_) trivial
    have hdue : h.registry.due = 0 := by
      simp [Registry.due, Registry.workerView, hw, hphase, WorkerPhase.due]
    unfold Server.enqueued
    rw [hdue]
    cases listing <;> rfl
  | worker hw hstep => exact counted_worker hi hl hc hw hstep
  | restart => exact iff_of_true (counted_restart hc) trivial

/-! ## Runs -/

theorem Put.advance_writeSig {p : Put} {phase : Phase} {o n : Nat}
    (hp : (p.advance cfg r phase).2 = .writeSig o n) : phase = .finishHead o ∧
      ∃ st, r.objects[o]? = some st ∧ refusal cfg st.head st.head.pending p = none := by
  rcases p.advance_cases cfg r phase with
    ⟨-, hon⟩ | ⟨-, hs, -⟩ | ⟨o', st, rfl, hst, -, -, hp'⟩ | ⟨o', seq, bytes, -, -, -, hp'⟩
  · -- a push that has its number already goes on to the rename or fails
    have hseq := hon.seq n (by rw [hp]; rfl)
    cases phase with
    | writeSig o' seq =>
      simp only [Put.advance] at hp
      split at hp <;> cases hp
    | rename o' seq =>
      simp only [Put.advance] at hp
      split at hp <;> cases hp
    | _ => cases hseq
  · rw [hp] at hs
    cases hs
  · rw [hp'] at hp
    cases hp
    refine ⟨rfl, st, hst, ?_⟩
    simp only [Put.advance, withState, hst] at hp'
    split at hp'
    · cases hp'
    · assumption
  · rw [hp'] at hp
    cases hp

theorem KeepsCount.acceptsCurrent (hg : KeepsCount cfg h l) : AcceptsCurrent cfg h l := by
  cases l with
  | task i =>
    intro p phase ht o n hp
    obtain ⟨rfl, st, hst, hr⟩ := Put.advance_writeSig hp
    simp only [KeepsCount, ht, hst] at hg
    exact hg hr
  | worker ok =>
    intro hexit
    simp only [KeepsCount, hexit] at hg
    exact hg
  | _ => trivial

theorem keepsCount_of_disabled (hs : step cfg h l = none) : KeepsCount cfg h l := by
  cases l with
  | task i =>
    simp only [step] at hs
    split at hs
    · rename_i ht
      simp only [KeepsCount, ht]
    · cases hs
  | worker ok =>
    cases hw : h.registry.worker with
    | none => simp only [KeepsCount, hw, Option.map_none]
    | some w =>
      rcases phase_of_disabled hs hw with hp | hp
      · simp only [KeepsCount, hw, Option.map_some, hp]
      · simp only [KeepsCount, hw, Option.map_some, hp]
  | _ => trivial

/-- Along a run the pending count is the number of enqueued jobs, is not counted down at zero and
stays within the queue depth, exactly if every step keeps the count. -/
theorem exec_pendingExact_iff {cfg : RegistryConfig} (hmax : cfg.maxQueueDepthPerRepo < 2 ^ 64)
    (run : List Label) :
    Along (step cfg) (PendingExact cfg) Server.empty run ↔
      Guarded (step cfg) (KeepsCount cfg) Server.empty run := by
  have hkeep : ∀ h l h', Numbered h ∧ Listed h.registry → KeepsCount cfg h l →
      step cfg h l = some h' → Numbered h' ∧ Listed h'.registry :=
    fun h l h' hi hg hs =>
      ⟨numbered_step hi.1 hg.acceptsCurrent hs, listed_step hi.1 hi.2 hs⟩
  have hempty : Listed Server.empty.registry := fun o phase hv => by cases hv
  refine along_iff_guarded hkeep (fun _ _ => keepsCount_of_disabled) ?_ run
    ⟨numbered_empty, hempty⟩ ?_
  · intro h l h' hi he hs
    have hstep := counted_step hmax hi.1 hi.2 ((pendingExact_iff hi.1).1 he) hs
    constructor
    · exact fun he' => hstep.1 ⟨he'.count, he'.bounded _ he'.count⟩
    · exact fun hg => (pendingExact_iff (hkeep h l h' hi hg hs).1).2 (hstep.2 hg)
  · exact (pendingExact_iff numbered_empty).2 ⟨rfl, Nat.zero_le _⟩

theorem exec_pendingExact_commit :
    Along (step smallHub) (PendingExact smallHub) Server.empty
      (pushRun 0 "a" none ++ commitRun ⟨0, "a", 20⟩) :=
  (exec_pendingExact_iff (by decide) _).mpr (by decide +kernel)

/-- The worker is idle and removes the state while a push of `a` is about to be accepted by it; a
push of `b` creates the next state, whose worker commits the push of `a`. -/
def idleExit : List Label :=
  Label.request (.put (onePut "a" none) .arrived) :: List.replicate 13 (Label.task 0) ++
    [Label.scan [], Label.worker false, Label.worker false] ++
    Label.request (.put (onePut "b" none) .arrived) :: List.replicate 2 (Label.task 1) ++
    List.replicate 4 (Label.task 0) ++ commitRun ⟨0, "a", 20⟩

theorem exec_pending_wraps :
    (exec (step smallHub) Server.empty idleExit).map (fun h =>
      (h.registry.pending, h.enqueued)) = some (some (2 ^ 64 - 1), 0) := by
  decide +kernel

end WeaveGraph.Hub
