import WeaveGraph.Hub.Steps

/-!
# Sequence numbers

A completion takes its sequence number from the head of its state, and the job file carries it.  As
long as pushes are accepted by the current state, and no worker exits under a push that was accepted
and not spooled yet, every number is below the next one, no two completions have the same, and
neither the spool nor the worker's listing has a number that a completion still holds (`Numbered`);
so no job file replaces another.
-/

namespace WeaveGraph.Hub

open List

def Registry.nextSeq (r : Registry) : Option Nat :=
  r.current.bind fun o => (r.marks[o]?).map Prod.snd

/-- The jobs the worker has still to remove. -/
def WorkerPhase.listed : WorkerPhase → List SpoolJob
  | .scan | .recv | .exit => []
  | .readJob job rest | .writeBlob job rest _ | .renameBlob job rest _ | .copySig job rest
  | .writeHead job rest | .renameHead job rest | .prune job rest | .removeJob job rest =>
    job :: rest
  | .removeSig _ rest | .decrement rest => rest

/-- A sequence number that no completion will use again. -/
structure Used (h : Server) (n : Nat) : Prop where
  below : ∀ m, h.registry.nextSeq = some m → n < m
  unheld : ∀ t ∈ h.tasks, t.phase.seq ≠ some n

structure Numbered (h : Server) : Prop where
  names : (h.registry.disk.jobs.map Prod.fst).Nodup
  settled : h.registry.current = none → ∀ t ∈ h.tasks, t.phase.seq = none
  bounded : ∀ t ∈ h.tasks, ∀ n, t.phase.seq = some n → ∀ m, h.registry.nextSeq = some m → n < m
  distinct : ∀ (i k : Nat) (t t' : Task) (n : Nat), h.tasks[i]? = some t → t.phase.seq = some n →
    h.tasks[k]? = some t' → t'.phase.seq = some n → i = k
  used : ∀ j ∈ h.registry.disk.jobs, Used h j.1.seq
  worker : ∀ o phase, h.registry.workerView = some (o, phase) → h.registry.current = some o
  listed : ∀ o phase, h.registry.workerView = some (o, phase) → ∀ j ∈ phase.listed, Used h j.seq

/-! ## Small lemmas -/

theorem Phase.holder_of_seq {phase : Phase} {n : Nat} (h : phase.seq = some n) :
    ∃ o, phase.holder = some o := by
  cases phase <;> simp_all [Phase.seq, Phase.holder]

theorem Phase.seq_of_free {phase : Phase} (h : phase.holder = none) : phase.seq = none := by
  cases hn : phase.seq with
  | none => rfl
  | some n =>
    obtain ⟨o, ho⟩ := Phase.holder_of_seq hn
    rw [h] at ho
    cases ho

variable {i : Nat} {job : SpoolJob} {r : Registry} {d : Disk} {j : SpoolJob × Bytes}
  {tasks : List Task} {t : Task} {w : Worker} {ok : Bool} {phase : WorkerPhase}

theorem getElem?_set_cases {α : Type} {l : List α} {k : Nat} {a b : α}
    (h : (l.set i a)[k]? = some b) : (k = i ∧ b = a) ∨ l[k]? = some b := by
  by_cases hik : i = k
  · subst hik
    rw [getElem?_set_self'] at h
    obtain ⟨_, -, hb⟩ := Option.map_eq_some_iff.1 h
    exact .inl ⟨rfl, hb.symm⟩
  · rw [getElem?_set_ne hik] at h
    exact .inr h

theorem lt_nextSeqAfter {l : List SpoolJob} (h : job ∈ l) : job.seq < Registry.nextSeqAfter l := by
  unfold Registry.nextSeqAfter
  induction l with
  | nil => cases h
  | cons a l ih =>
    simp only [map_cons, foldr_cons]
    rcases mem_cons.1 h with rfl | h
    · omega
    · have := ih h
      omega

theorem Quiet.nextSeq {r' : Registry} (h : Quiet r r') : r'.nextSeq = r.nextSeq := by
  unfold Registry.nextSeq
  rw [h.current, h.marks]

theorem Disk.mem_addJob {bytes : Bytes} :
    j ∈ (d.addJob job bytes).jobs ↔ (j ∈ d.jobs ∧ j.1 ≠ job) ∨ j = (job, bytes) := by
  simp [Disk.addJob, Disk.setUpload]

theorem Disk.mem_removeJob : j ∈ (d.removeJob job).jobs ↔ j ∈ d.jobs ∧ j.1 ≠ job := by
  simp [Disk.removeJob]

theorem Disk.addJob_names {bytes : Bytes} (h : (d.jobs.map Prod.fst).Nodup) :
    ((d.addJob job bytes).jobs.map Prod.fst).Nodup := by
  simp only [Disk.addJob, Disk.setUpload, map_append, map_cons, map_nil]
  refine nodup_append.2 ⟨h.sublist (filter_sublist.map _), nodup_singleton _, ?_⟩
  intro a ha b hb
  obtain ⟨j, hj, rfl⟩ := mem_map.1 ha
  obtain rfl := mem_singleton.1 hb
  simpa using (mem_filter.1 hj).2

/-! ## Steps that spool nothing -/

/-- Every task goes on with the state and the number it had, or has none. -/
def TasksFrom (tasks tasks' : List Task) : Prop :=
  ∀ (k : Nat) (t' : Task), tasks'[k]? = some t' →
    (∀ o, t'.phase.holder = some o → ∃ t : Task, tasks[k]? = some t ∧ t.phase.holder = some o) ∧
    (∀ n, t'.phase.seq = some n → ∃ t : Task, tasks[k]? = some t ∧ t.phase.seq = some n)

theorem TasksFrom.set {t' : Task} (ht : tasks[i]? = some t)
    (hh : ∀ o, t'.phase.holder = some o → t.phase.holder = some o)
    (hs : ∀ n, t'.phase.seq = some n → t.phase.seq = some n) :
    TasksFrom tasks (tasks.set i t') := by
  intro k t₁ h₁
  rcases getElem?_set_cases h₁ with ⟨rfl, rfl⟩ | h₁
  · exact ⟨fun o ho => ⟨t, ht, hh o ho⟩, fun n hn => ⟨t, ht, hs n hn⟩⟩
  · exact ⟨fun o ho => ⟨t₁, h₁, ho⟩, fun n hn => ⟨t₁, h₁, hn⟩⟩

theorem TasksFrom.append (hh : t.phase.holder = none) (hs : t.phase.seq = none) :
    TasksFrom tasks (tasks ++ [t]) := by
  intro k t₁ h₁
  rcases mem_append.1 (mem_of_getElem? h₁) with hm | hm
  all_goals rw [getElem?_append] at h₁
  all_goals split at h₁
  · exact ⟨fun o ho => ⟨t₁, h₁, ho⟩, fun n hn => ⟨t₁, h₁, hn⟩⟩
  · obtain rfl := mem_singleton.1 (mem_of_getElem? h₁)
    exact ⟨fun o ho => by simp [hh] at ho, fun n hn => by simp [hs] at hn⟩
  · exact ⟨fun o ho => ⟨t₁, h₁, ho⟩, fun n hn => ⟨t₁, h₁, hn⟩⟩
  · obtain rfl := mem_singleton.1 hm
    exact ⟨fun o ho => by simp [hh] at ho, fun n hn => by simp [hs] at hn⟩

variable {h : Server}

theorem Used.mono {h' : Server} {n : Nat} (hu : Used h n)
    (hn : ∀ m', h'.registry.nextSeq = some m' → ∃ m ≤ m', h.registry.nextSeq = some m)
    (ht : TasksFrom h.tasks h'.tasks) : Used h' n := by
  refine ⟨?_, ?_⟩
  · intro m' hm'
    obtain ⟨m, hle, hm⟩ := hn m' hm'
    exact lt_of_lt_of_le (hu.below m hm) hle
  · intro t' ht' hs
    obtain ⟨k, hk⟩ := mem_iff_getElem?.1 ht'
    obtain ⟨t, hk', hs'⟩ := (ht k t' hk).2 n hs
    exact hu.unheld t (mem_of_getElem? hk') hs'

theorem numbered_quiet (hi : Numbered h) (hq : Quiet h.registry r) (ht : TasksFrom h.tasks tasks) :
    Numbered ⟨r, tasks⟩ := by
  have hused : ∀ n, Used h n → Used ⟨r, tasks⟩ n := by
    intro n hu
    refine hu.mono (fun m hm => ⟨m, le_rfl, ?_⟩) ht
    rwa [hq.nextSeq] at hm
  have hmem : ∀ t' ∈ tasks, ∃ k, tasks[k]? = some t' := fun t' => mem_iff_getElem?.1
  refine ⟨?_, ?_, ?_, ?_, ?_, ?_, ?_⟩
  · rw [hq.jobs]
    exact hi.names
  · intro hc t' ht'
    rw [hq.current] at hc
    obtain ⟨k, hk⟩ := hmem t' ht'
    rw [Option.eq_none_iff_forall_ne_some]
    intro n hn
    obtain ⟨t, hk', hn'⟩ := (ht k t' hk).2 n hn
    rw [hi.settled hc t (mem_of_getElem? hk')] at hn'
    cases hn'
  · intro t' ht' n hn m hm
    obtain ⟨k, hk⟩ := hmem t' ht'
    obtain ⟨t, hk', hn'⟩ := (ht k t' hk).2 n hn
    rw [hq.nextSeq] at hm
    exact hi.bounded t (mem_of_getElem? hk') n hn' m hm
  · intro i k t t' n hi' hn hk hn'
    obtain ⟨t₁, hi₁, hn₁⟩ := (ht i t hi').2 n hn
    obtain ⟨t₂, hk₂, hn₂⟩ := (ht k t' hk).2 n hn'
    exact hi.distinct i k t₁ t₂ n hi₁ hn₁ hk₂ hn₂
  · rw [hq.jobs]
    exact fun j hj => hused _ (hi.used j hj)
  · intro o phase hw
    rw [hq.workerView] at hw
    rw [hq.current]
    exact hi.worker o phase hw
  · intro o phase hw j hj
    rw [hq.workerView] at hw
    exact hused _ (hi.listed o phase hw j hj)

theorem TasksFrom.refl (tasks : List Task) : TasksFrom tasks tasks :=
  fun _ t' h => ⟨fun _ ho => ⟨t', h, ho⟩, fun _ hn => ⟨t', h, hn⟩⟩

/-- When no task has a number, it is enough that the numbers in the spool are below the next one and
that the worker, if there is one, is about to scan the spool. -/
theorem numbered_of_free (hfree : ∀ t ∈ h.tasks, t.phase.seq = none)
    (hnames : (h.registry.disk.jobs.map Prod.fst).Nodup)
    (hbelow : ∀ j ∈ h.registry.disk.jobs, ∀ m, h.registry.nextSeq = some m → j.1.seq < m)
    (hworker : ∀ o phase, h.registry.workerView = some (o, phase) →
      h.registry.current = some o ∧ phase = .scan) : Numbered h := by
  have hne : ∀ t ∈ h.tasks, ∀ n, t.phase.seq ≠ some n := by
    intro t ht n
    rw [hfree t ht]
    exact (Option.some_ne_none n).symm
  exact {
    names := hnames
    settled := fun _ => hfree
    bounded := fun t ht n hn => absurd hn (hne t ht n)
    distinct := fun i k t t' n hi hn => absurd hn (hne t (mem_of_getElem? hi) n)
    used := fun j hj => ⟨hbelow j hj, fun t ht => hne t ht _⟩
    worker := fun o phase hw => (hworker o phase hw).1
    listed := fun o phase hw j hj => by
      rw [(hworker o phase hw).2] at hj
      cases hj }

/-! ## Looking up a state -/

/-- What looking up a state does: nothing where there is one, else the new state starts a scan. -/
theorem repoState_cases (r : Registry) :
    r.repoState.2 = r ∨
    (r.current = none ∧ r.repoState.2.disk.jobs = r.disk.jobs ∧ r.repoState.2.log = r.log ∧
      r.repoState.2.workerView = some (r.objects.length, .scan) ∧
      r.repoState.2.nextSeq = some (Registry.nextSeqAfter (r.disk.jobs.map Prod.fst))) := by
  cases hc : r.current with
  | some o => exact .inl (by simp [Registry.repoState, hc])
  | none =>
    refine .inr ⟨rfl, ?_, ?_, ?_, ?_⟩
    · simp [Registry.repoState, hc]
    · simp [Registry.repoState, hc]
    · simp [Registry.repoState, hc, Registry.workerView]
    · simp [Registry.repoState, hc, Registry.nextSeq, Registry.marks, Registry.recovered]

theorem numbered_repoState (hi : Numbered h) : Numbered ⟨h.registry.repoState.2, h.tasks⟩ := by
  rcases repoState_cases h.registry with hr | ⟨hc, hjobs, -, hview, hnext⟩
  · rw [hr]
    exact hi
  · refine numbered_of_free (hi.settled hc) ?_ ?_ ?_
    · rw [hjobs]
      exact hi.names
    · intro j hj m hm
      rw [hjobs] at hj
      rw [hnext] at hm
      cases hm
      exact lt_nextSeqAfter (mem_map_of_mem hj)
    · intro o phase hw
      rw [hview] at hw
      cases hw
      exact ⟨by simp [Registry.repoState, hc], rfl⟩

theorem numbered_lookup {t' : Task} (hi : Numbered h) (ht : h.tasks[i]? = some t)
    (hs : t'.phase.seq = none) : Numbered ⟨h.registry.repoState.2, h.tasks.set i t'⟩ := by
  have hr := numbered_repoState hi
  -- the task lets go of what it had, if anything, and then takes the current state
  have hfree : Numbered ⟨h.registry.repoState.2, h.tasks.set i (.head t'.sha .lost)⟩ :=
    numbered_quiet hr (.refl _) (.set ht (fun _ ho => by cases ho) fun _ hn => by cases hn)
  have hseq : ∀ (k : Nat) (t₁ : Task) (n : Nat), (h.tasks.set i t')[k]? = some t₁ →
      t₁.phase.seq = some n → (h.tasks.set i (.head t'.sha .lost))[k]? = some t₁ := by
    intro k t₁ n hk hn
    by_cases hik : i = k
    · subst hik
      rw [getElem?_set_self (List.getElem?_eq_some_iff.1 ht).1] at hk
      cases hk
      rw [hs] at hn
      cases hn
    · rw [getElem?_set_ne hik] at hk ⊢
      exact hk
  have hused : ∀ n, Used ⟨h.registry.repoState.2, h.tasks.set i (.head t'.sha .lost)⟩ n →
      Used ⟨h.registry.repoState.2, h.tasks.set i t'⟩ n := by
    intro n hu
    refine ⟨hu.below, fun t₁ h₁ hn => ?_⟩
    obtain ⟨k, hk⟩ := mem_iff_getElem?.1 h₁
    exact hu.unheld t₁ (mem_of_getElem? (hseq k t₁ n hk hn)) hn
  refine ⟨hr.names, ?_, ?_, ?_, fun j hj => hused _ (hfree.used j hj), hr.worker,
    fun o phase hw j hj => hused _ (hfree.listed o phase hw j hj)⟩
  · intro hc
    rw [current_repoState] at hc
    cases hc
  · intro t₁ h₁ n hn
    obtain ⟨k, hk⟩ := mem_iff_getElem?.1 h₁
    exact hfree.bounded t₁ (mem_of_getElem? (hseq k t₁ n hk hn)) n hn
  · intro a b t₁ t₂ n ha hn hb hn'
    exact hfree.distinct a b t₁ t₂ n (hseq a t₁ n ha hn) hn (hseq b t₂ n hb hn') hn'

/-! ## Accepting and spooling -/

section completion

variable {i o : Nat} {p : Put}

theorem numbered_accept {st : RepoState} (hi : Numbered h) (hcur : h.registry.current = some o)
    (hst : h.registry.objects[o]? = some st) :
    Numbered ⟨h.registry.accept o p, h.tasks.set i (.put p (.writeSig o st.head.nextSeq))⟩ := by
  have hnext : h.registry.nextSeq = some st.head.nextSeq := by
    simp [Registry.nextSeq, hcur, Registry.marks, hst]
  have hnext' : (h.registry.accept o p).nextSeq = some (st.head.nextSeq + 1) := by
    simp [Registry.nextSeq, Registry.accept, Registry.modifyHead, hcur, Registry.marks, hst,
      RepoHead.advance]
  have hlt : ∀ t ∈ h.tasks, ∀ n, t.phase.seq = some n → n < st.head.nextSeq :=
    fun t ht n hn => hi.bounded t ht n hn _ hnext
  -- every other task is where it was, and the new number is above all others
  have hmem : ∀ t ∈ h.tasks.set i (.put p (.writeSig o st.head.nextSeq)),
      t = .put p (.writeSig o st.head.nextSeq) ∨ t ∈ h.tasks :=
    fun t ht => (mem_or_eq_of_mem_set ht).symm
  have hused : ∀ n, Used h n →
      Used ⟨h.registry.accept o p, h.tasks.set i (.put p (.writeSig o st.head.nextSeq))⟩ n := by
    intro n hu
    have hn := hu.below _ hnext
    refine ⟨?_, ?_⟩
    · intro m hm
      rw [hnext'] at hm
      cases hm
      omega
    · intro t ht hs
      rcases hmem t ht with rfl | ht
      · cases hs
        omega
      · exact hu.unheld t ht hs
  refine ⟨hi.names, ?_, ?_, ?_, fun j hj => hused _ (hi.used j hj), hi.worker,
    fun o phase hw j hj => hused _ (hi.listed o phase hw j hj)⟩
  · intro hc
    rw [show (h.registry.accept o p).current = some o from hcur] at hc
    cases hc
  · intro t ht n hn m hm
    rw [hnext'] at hm
    cases hm
    rcases hmem t ht with rfl | ht
    · cases hn
      omega
    · have := hlt t ht n hn
      omega
  · intro a b t t' n ha hn hb hn'
    rcases getElem?_set_cases ha with ⟨rfl, rfl⟩ | ha₀
    · rcases getElem?_set_cases hb with ⟨rfl, rfl⟩ | hb₀
      · rfl
      · cases hn
        have := hlt t' (mem_of_getElem? hb₀) _ hn'
        omega
    · rcases getElem?_set_cases hb with ⟨rfl, rfl⟩ | hb₀
      · cases hn'
        have := hlt t (mem_of_getElem? ha₀) _ hn
        omega
      · exact hi.distinct a b t t' n ha₀ hn hb₀ hn'

variable {seq : Nat}

theorem Used.ne_job {job : SpoolJob} (hu : Used h job.seq)
    (ht : h.tasks[i]? = some (.put p (.rename o seq))) : job ≠ p.job seq := by
  rintro rfl
  exact hu.unheld _ (mem_of_getElem? ht) rfl

theorem mem_spool {r : Registry} {bytes : Bytes} {j : SpoolJob × Bytes} :
    j ∈ (r.spool (p.job seq) bytes).disk.jobs ↔
      (j ∈ r.disk.jobs ∧ j.1 ≠ p.job seq) ∨ j = (p.job seq, bytes) :=
  Disk.mem_addJob

theorem numbered_spool {bytes : Bytes} (hi : Numbered h)
    (ht : h.tasks[i]? = some (.put p (.rename o seq))) :
    Numbered ⟨h.registry.spool (p.job seq) bytes, h.tasks.set i (.put p (.wake o))⟩ := by
  have hfrom : TasksFrom h.tasks (h.tasks.set i (.put p (.wake o))) :=
    .set ht (fun _ ho => by cases ho) (fun _ hn => by cases hn)
  have hquiet := numbered_quiet hi (.refl _) hfrom
  have hused : ∀ n, Used h n →
      Used ⟨h.registry.spool (p.job seq) bytes, h.tasks.set i (.put p (.wake o))⟩ n :=
    fun n hu => hu.mono (fun m hm => ⟨m, le_rfl, hm⟩) hfrom
  -- the number of the new job is used now: its task has let it go and no other task has it
  have hnew : Used ⟨h.registry.spool (p.job seq) bytes, h.tasks.set i (.put p (.wake o))⟩ seq := by
    refine ⟨fun m hm => hi.bounded _ (mem_of_getElem? ht) seq rfl m hm, ?_⟩
    intro t' ht' hs
    obtain ⟨k, hk⟩ := mem_iff_getElem?.1 ht'
    obtain ⟨t₁, hk₁, hs₁⟩ := (hfrom k t' hk).2 seq hs
    obtain rfl := hi.distinct i k _ t₁ seq ht rfl hk₁ hs₁
    rw [getElem?_set_self (List.getElem?_eq_some_iff.1 ht).1] at hk
    cases hk
    cases hs
  refine ⟨Disk.addJob_names hi.names, hquiet.settled, hquiet.bounded, hquiet.distinct, ?_,
    hi.worker, fun o' phase hw j hj => hused _ (hi.listed o' phase hw j hj)⟩
  intro j hj
  rcases mem_spool.1 hj with ⟨hj, -⟩ | rfl
  · exact hused _ (hi.used j hj)
  · exact hnew

theorem numbered_put {cfg : RegistryConfig} {phase : Phase} (hi : Numbered h)
    (ht : h.tasks[i]? = some (.put p phase))
    (hacc : ∀ o n, (p.advance cfg h.registry phase).2 = .writeSig o n →
      h.registry.current = some o) :
    Numbered ⟨(p.advance cfg h.registry phase).1,
      h.tasks.set i (.put p (p.advance cfg h.registry phase).2)⟩ := by
  rcases p.advance_cases cfg h.registry phase with
    ⟨hq, hon⟩ | ⟨hr, hs, -⟩ | ⟨o, st, -, hst, -, hr, hp⟩ | ⟨o, seq, bytes, rfl, -, hr, hp⟩
  · exact numbered_quiet hi hq (.set ht hon.holder hon.seq)
  · rw [hr]
    exact numbered_lookup hi ht hs
  · rw [hr, hp]
    exact numbered_accept hi (hacc o _ hp) hst
  · rw [hr, hp]
    exact numbered_spool hi ht

end completion

/-! ## The worker -/

theorem numbered_worker_frame (hi : Numbered h) (hc : r.current = h.registry.current)
    (hm : r.marks = h.registry.marks) (hjobs : (r.disk.jobs).Sublist h.registry.disk.jobs)
    (hw : ∀ o phase, r.workerView = some (o, phase) → h.registry.current = some o ∧
      ∀ j ∈ phase.listed, Used h j.seq) : Numbered ⟨r, h.tasks⟩ := by
  have hn : r.nextSeq = h.registry.nextSeq := by
    unfold Registry.nextSeq
    rw [hc, hm]
  have hused : ∀ n, Used h n → Used ⟨r, h.tasks⟩ n := fun n hu =>
    hu.mono (fun m hm => ⟨m, le_rfl, hn ▸ hm⟩) (.refl _)
  refine ⟨hi.names.sublist (hjobs.map _), ?_, ?_, hi.distinct, ?_, ?_, ?_⟩
  · exact fun hnone => hi.settled (hc.symm.trans hnone)
  · intro t ht n hs m hm'
    exact hi.bounded t ht n hs m (hn ▸ hm')
  · exact fun j hj => hused _ (hi.used j (hjobs.subset hj))
  · intro o phase hv
    exact hc.trans (hw o phase hv).1
  · exact fun o phase hv j hj => hused _ ((hw o phase hv).2 j hj)

theorem listed_of_listing (listing : List SpoolJob) :
    WorkerPhase.listed (if listing.isEmpty then .recv else nextJob listing) = listing := by
  cases listing <;> rfl

theorem numbered_scan {listing : List SpoolJob} (hi : Numbered h) (hw : h.registry.worker = some w)
    (hl : h.registry.disk.Listing listing) : Numbered ⟨{ h.registry with worker := some { w with
      phase := if listing.isEmpty then .recv else nextJob listing } }, h.tasks⟩ := by
  have hcur : h.registry.current = some w.state :=
    hi.worker w.state w.phase (workerView_of_worker hw)
  refine numbered_worker_frame hi rfl rfl (.refl _) ?_
  intro o phase hv
  cases hv
  refine ⟨hcur, fun j hj => ?_⟩
  rw [listed_of_listing] at hj
  obtain ⟨x, hx, rfl⟩ := mem_map.1 (hl.1.mem_iff.1 hj)
  exact hi.used x hx

theorem Moves.listed {phase' : WorkerPhase} (hm : Moves d ok phase phase') :
    phase'.listed <:+ phase.listed := by
  cases hm with
  | recv h =>
    rcases h with rfl | rfl
    · exact suffix_rfl
    · exact suffix_rfl
  | writeHead h =>
    rcases h with rfl | rfl
    · exact suffix_rfl
    · exact suffix_rfl
  | removeJob => exact suffix_cons _ _
  | @decrement _ rest => cases rest <;> exact suffix_rfl
  | _ => exact suffix_rfl

/-- What the worker does to the spool, and to what it has listed, as long as it does not exit. -/
theorem Registry.workerStep_spool {r' : Registry} (hs : r.workerStep w ok = some (r', phase))
    (hexit : w.phase ≠ .exit) :
    r'.current = r.current ∧ r'.marks = r.marks ∧ phase.listed <:+ w.phase.listed ∧
      (r'.disk.jobs = r.disk.jobs ∨ ∃ job rest, w.phase = .removeJob job rest ∧
        phase = .removeSig job rest ∧ r'.disk.jobs = (r.disk.removeJob job).jobs) := by
  rcases Registry.workerStep_cases hs with
    ⟨hq, hm⟩ | ⟨hp, -⟩ | ⟨job, rest, blob, hp, rfl, rfl⟩ | ⟨job, rest, hp, rfl, rfl⟩ |
    ⟨job, rest, hp, rfl, rfl⟩
  · exact ⟨hq.current, hq.marks, hm.listed, .inl hq.jobs⟩
  · exact absurd hp hexit
  · rw [hp]
    exact ⟨rfl, rfl, suffix_rfl, .inl rfl⟩
  · rw [hp]
    exact ⟨rfl, rfl, suffix_rfl, .inl rfl⟩
  · rw [hp]
    exact ⟨rfl, rfl, suffix_cons _ _, .inr ⟨job, rest, rfl, rfl, rfl⟩⟩

theorem numbered_worker (hi : Numbered h) (hw : h.registry.worker = some w)
    (hs : h.registry.workerStep w ok = some (r, phase))
    (hg : w.phase = .exit → ∀ t ∈ h.tasks, t.phase.seq = none) :
    Numbered ⟨{ r with worker := w.after ok phase }, h.tasks⟩ := by
  have hview := workerView_of_worker hw
  by_cases hexit : w.phase = .exit
  · -- the worker is gone, and no accepted push is on its way to the spool
    have hr : r = { h.registry with current := none } := by
      simp only [Registry.workerStep, hexit] at hs
      cases hs
      rfl
    subst hr
    refine numbered_of_free (hg hexit) hi.names ?_ ?_
    · intro j hj m hm
      cases hm
    · exact fun o phase' hv => absurd hexit (workerView_after (r := h.registry) hv).2.2
  · obtain ⟨hc, hm, hlisted, hjobs⟩ := Registry.workerStep_spool hs hexit
    refine numbered_worker_frame hi hc hm ?_ ?_
    · rcases hjobs with hj | ⟨job, rest, -, -, hj⟩
      · exact hj ▸ List.Sublist.refl _
      · exact hj ▸ filter_sublist
    · intro o phase' hv
      obtain ⟨rfl, rfl, -⟩ := workerView_after hv
      exact ⟨hi.worker _ _ hview, fun j hj => hi.listed _ _ hview j (hlisted.subset hj)⟩

/-! ## Every step -/

/-- A push is accepted by the current state, and a worker that exits leaves no accepted push behind
that is not in the spool yet. -/
def AcceptsCurrent (cfg : RegistryConfig) (h : Server) : Label → Prop
  | .task i => ∀ p phase, h.tasks[i]? = some (.put p phase) →
    ∀ o n, (p.advance cfg h.registry phase).2 = .writeSig o n → h.registry.current = some o
  | .worker _ => h.registry.worker.map Worker.phase = some .exit →
    ∀ t ∈ h.tasks, t.phase.seq = none
  | _ => True

theorem Task.drop_free (tasks : List Task) : ∀ t ∈ tasks.map Task.drop, t.phase.holder = none := by
  intro t ht
  obtain ⟨t₀, -, rfl⟩ := mem_map.1 ht
  cases t₀ <;> rename_i phase <;> cases phase <;> rfl

theorem numbered_restart (hi : Numbered h) :
    Numbered ⟨h.registry.restart, h.tasks.map Task.drop⟩ := by
  have hdown : Numbered ⟨{ h.registry with current := none, worker := none },
      h.tasks.map Task.drop⟩ := by
    refine numbered_of_free (fun t ht => ?_) hi.names ?_ ?_
    · exact Phase.seq_of_free (Task.drop_free h.tasks t ht)
    · intro j hj m hm
      cases hm
    · intro o phase hv
      cases hv
  unfold Registry.restart
  dsimp only
  split
  · exact numbered_repoState hdown
  · exact hdown

theorem numbered_step {cfg : RegistryConfig} {h' : Server} {l : Label} (hi : Numbered h)
    (hg : AcceptsCurrent cfg h l) (hs : step cfg h l = some h') : Numbered h' := by
  cases step_cases hs with
  | tick => exact numbered_quiet hi ⟨rfl, rfl, rfl, rfl, rfl, rfl⟩ (.refl _)
  | request hnew =>
    have harrived := Task.phase_of_isNew hnew
    exact numbered_quiet hi (.refl _) (.append (by rw [harrived]; rfl) (by rw [harrived]; rfl))
  | @task i t ht =>
    cases t with
    | put p phase => exact numbered_put hi ht (hg p phase ht)
    | head sha phase =>
      obtain ⟨hr, hon⟩ := Task.step_head cfg h.registry sha phase
      rw [hr]
      exact numbered_quiet hi (.refl _) (.set ht hon.holder hon.seq)
  | scan hw _ hlist => exact numbered_scan hi hw hlist
  | worker hw hstep =>
    exact numbered_worker hi hw hstep fun hexit => hg (by rw [hw, Option.map_some, hexit])
  | restart => exact numbered_restart hi

theorem numbered_empty : Numbered Server.empty := by
  refine numbered_of_free ?_ nodup_nil ?_ ?_
  · exact fun t ht => by cases ht
  · exact fun j hj => by cases hj
  · exact fun o phase hv => by cases hv

end WeaveGraph.Hub
