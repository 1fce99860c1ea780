import WeaveGraph.Hub.Upload
import WeaveGraph.Hub.Signatures

/-!
# From the client to the store

The client, the spool and the store along one run:

* `exec_success_durable`: a push that is not disturbed and reports success is in the spool or has
  been stored, at every later moment, as long as commits succeed;
* `exec_recovers`: from there on a restart and the worker bring it to the store;
* `exec_pull_pushed`: what a pull returns is the payload of the push of its sha that was stored
  last, whatever fails and whenever the server restarts.
-/

namespace WeaveGraph.Hub

open List Lib

/-! ## A push that succeeds -/

namespace Call

variable {cfg : RegistryConfig} {c : Push} {s s' : Call}

/-- `Hub.CommitsSucceed` of the steps the server takes. -/
def CommitsSucceed (s : Call) : Event → Prop
  | .server l => Hub.CommitsSucceed s.server l
  | _ => True

instance (s : Call) : DecidablePred s.CommitsSucceed
  | .server l => inferInstanceAs (Decidable (Hub.CommitsSucceed s.server l))
  | .send | .receive | .fail | .finish => isTrue trivial

theorem send_server (h : s.send cfg c = some s') :
    ∃ t, Hub.step cfg s.server (.request t) = some s'.server := by
  have hhead : ∀ {phase}, s.sendHead cfg c phase = some s' →
      ∃ t, Hub.step cfg s.server (.request t) = some s'.server := by
    intro phase h
    obtain ⟨server, hserver, rfl⟩ := Option.map_eq_some_iff.mp h
    exact ⟨_, hserver⟩
  have hput : ∀ {offset phase}, s.sendPut cfg c offset phase = some s' →
      ∃ t, Hub.step cfg s.server (.request t) = some s'.server := by
    intro offset phase h
    obtain ⟨server, hserver, rfl⟩ := Option.map_eq_some_iff.mp h
    exact ⟨_, hserver⟩
  unfold send at h
  split at h
  · split at h
    · exact hput h
    · exact hhead h
  · split at h
    · exact hput h
    · cases h
  · exact hhead h
  · cases h

theorem jobsKept_call {e : Event} (hi : JobsKept s.server) (hg : s.CommitsSucceed e)
    (hs : Call.step cfg c s e = some s') : JobsKept s'.server := by
  cases e with
  | server l =>
    obtain ⟨server, hserver, rfl⟩ := Option.map_eq_some_iff.mp hs
    exact jobsKept_step hi hg hserver
  | send =>
    obtain ⟨t, ht⟩ := send_server hs
    exact jobsKept_step (l := .request t) hi trivial ht
  | receive | fail | finish =>
    obtain ⟨phase, -, rfl⟩ := Option.map_eq_some_iff.mp hs
    exact hi

/-- **A push that succeeds is not lost**: its payload is in the spool, or was stored under its sha.
-/
theorem exec_success_durable {run : List Event}
    (hg : Guarded (Call.step cfg c) (fun s e => s.Undisturbed c e ∧ s.CommitsSucceed e)
      (begin Server.empty) run)
    (hr : exec (Call.step cfg c) (begin Server.empty) run = some s) (hs : s.Succeeded) :
    (∃ job : SpoolJob, job.sha = c.targetCommitSha ∧
      (job, c.payload) ∈ s.server.registry.disk.jobs) ∨
    (c.targetCommitSha, c.payload) ∈ s.server.registry.log.committed := by
  obtain ⟨hup, hkept⟩ := exec_invariant (P := fun s => Uploading c 0 s ∧ JobsKept s.server)
    (fun _ _ _ hi hg hs => ⟨uploading_step hi.1 hg.1 hs, jobsKept_call hi.2 hg.2 hs⟩) run
    ⟨uploading_begin Server.empty, jobsKept_empty⟩ hg hr
  have hspooled : Spooled c 0 s.server := by
    have hclient := hup.client
    rcases hs with hs | hs
    · rw [ClientWell, hs] at hclient
      exact hclient (.inl rfl)
    · rw [ClientWell, hs] at hclient
      exact hclient (.inr rfl)
  obtain ⟨⟨job, bytes⟩, hj, hsha, hbytes⟩ := hspooled
  dsimp only at hsha hbytes
  subst hbytes
  rcases hkept.kept _ hj with hjob | hcommitted
  · exact .inl ⟨job, hsha, hjob⟩
  · exact .inr (hsha ▸ hcommitted)

/-- The server goes down after the answer, and the worker commits the job when it is up again. -/
theorem exec_success_durable_restart :
    let run := [.send, .server (.task 0), .receive, .send] ++
      List.replicate 18 (Event.server (.task 1)) ++ [.receive, .finish, .server .restart] ++
      (commitRun ⟨0, "a", 20⟩).map Event.server
    (exec (Call.step smallHub twoBytes) (begin Server.empty) run).map (fun s =>
      s.phase == .finished (.ok .accepted) && s.server.registry.disk.jobs.isEmpty) = some true ∧
    ∀ s, exec (Call.step smallHub twoBytes) (begin Server.empty) run = some s →
      s.Succeeded → (∃ job : SpoolJob, job.sha = "a" ∧
        (job, twoBytes.payload) ∈ s.server.registry.disk.jobs) ∨
      ("a", twoBytes.payload) ∈ s.server.registry.log.committed :=
  ⟨by decide +kernel, fun _ => exec_success_durable (by decide +kernel)⟩

end Call

/-! ## Recovery -/

section recovery

variable {cfg : RegistryConfig} {h : Server} {w : Worker} {job : SpoolJob} {rest : List SpoolJob}
  {bytes : Bytes}

/-- Ten steps of the worker commit the job it is about to read. -/
theorem exec_commit (hw : h.registry.worker = some w) (hphase : w.phase = .readJob job rest)
    (hread : h.registry.disk.readJob job = some bytes) :
    ∃ h' : Server, exec (step cfg) h (List.replicate 10 (.worker true)) = some h' ∧
      h'.registry.worker = some { w with phase := nextJob rest } ∧
      h'.registry.disk.jobs = (h.registry.disk.removeJob job).jobs ∧
      h'.registry.log.committed = h.registry.log.committed ++ [(job.sha, bytes)] := by
  obtain ⟨o, wakes, phase⟩ := w
  dsimp only at hphase
  subst hphase
  -- the two cases differ in the signature that is copied only
  cases hsig : h.registry.disk.jobSigs job <;>
    simp [List.replicate, exec, step, Registry.workerStep, Worker.after, hw, hread, hsig,
      Registry.commit, Registry.setDisk, Registry.modifyHead, Disk.removeJob, Disk.putBlob,
      Disk.pruneRetention, Disk.setJobSig]

/-- The worker commits the jobs it has listed, one after another. -/
theorem exec_commits : ∀ (listing : List SpoolJob) {h : Server} {w : Worker},
    h.registry.worker = some w → w.phase = nextJob listing →
    (h.registry.disk.jobs.map Prod.fst).Nodup →
    listing.Perm (h.registry.disk.jobs.map Prod.fst) →
    ∃ run h', exec (step cfg) h run = some h' ∧ h'.registry.disk.jobs = [] ∧
      ∀ p, p ∈ h.registry.log.committed ∨ (∃ j ∈ h.registry.disk.jobs, p = (j.1.sha, j.2)) →
        p ∈ h'.registry.log.committed := by
  intro listing
  induction listing with
  | nil =>
    intro h w _ _ _ hperm
    have hjobs : h.registry.disk.jobs = [] := map_eq_nil_iff.mp hperm.symm.eq_nil
    exact ⟨[], h, rfl, hjobs, by simp [hjobs]⟩
  | cons job rest ih =>
    intro h w hw hphase hnames hperm
    obtain ⟨bytes, hread⟩ : ∃ bytes, h.registry.disk.readJob job = some bytes := by
      obtain ⟨⟨_, b⟩, hb, rfl⟩ := mem_map.mp (hperm.subset mem_cons_self)
      exact Option.ne_none_iff_exists'.mp fun hnone => Disk.readJob_eq_none hnone b hb
    obtain ⟨h₁, hrun, hw₁, hjobs, hcommitted⟩ := exec_commit hw hphase hread
    have hperm₁ : rest.Perm (h₁.registry.disk.jobs.map Prod.fst) := by
      have hfresh := (nodup_cons.mp (hperm.nodup_iff.mpr hnames)).1
      have hrest : rest.filter (· ≠ job) = rest := by
        refine filter_eq_self.mpr fun a ha => ?_
        have hne : a ≠ job := fun he => hfresh (he ▸ ha)
        exact decide_eq_true hne
      have hfilter := hperm.filter (· ≠ job)
      rw [filter_cons_of_neg (by simp), hrest, filter_map] at hfilter
      rw [hjobs]
      exact hfilter
    obtain ⟨run, h', hrun', hempty, hkept⟩ := ih hw₁ rfl
      (hjobs ▸ hnames.sublist (filter_sublist.map _)) hperm₁
    refine ⟨_, h', exec_append hrun hrun', hempty, fun p hp => hkept p ?_⟩
    rw [hcommitted, hjobs]
    rcases hp with hp | ⟨j, hj, rfl⟩
    · exact .inl (mem_append_left _ hp)
    · by_cases he : j.1 = job
      · subst he
        rw [Disk.readJob_eq_some hnames hread hj]
        exact .inl (mem_append_right _ (mem_singleton_self _))
      · exact .inr ⟨j, Disk.mem_removeJob.mpr ⟨hj, he⟩, rfl⟩

/-- **No accepted push is beyond recovery**: after a restart the worker can bring everything that
was ever spooled to the store. -/
theorem exec_recovers {run : List Label}
    (hg : Guarded (step cfg) CommitsSucceed Server.empty run)
    (hr : exec (step cfg) Server.empty run = some h) (hdir : h.registry.disk.spoolDir = true) :
    ∃ run' h', exec (step cfg) h run' = some h' ∧ h'.registry.disk.jobs = [] ∧
      ∀ j ∈ h.registry.log.spooled, (j.1.sha, j.2) ∈ h'.registry.log.committed := by
  have hi := exec_invariant (fun _ _ _ => jobsKept_step) run jobsKept_empty hg hr
  by_cases hjobs : h.registry.disk.jobs = []
  · refine ⟨[], h, rfl, hjobs, fun j hj => (hi.kept j hj).resolve_left ?_⟩
    rw [hjobs]
    exact not_mem_nil
  · let listing := (h.registry.disk.jobs.map Prod.fst).insertionSort fun a b => a.seq ≤ b.seq
    have hperm : listing.Perm (h.registry.disk.jobs.map Prod.fst) := perm_insertionSort _ _
    have hsorted : listing.Pairwise fun a b => a.seq ≤ b.seq := by
      have htrans : IsTrans SpoolJob fun a b => a.seq ≤ b.seq := ⟨fun _ _ _ => Nat.le_trans⟩
      have htotal : Std.Total fun a b : SpoolJob => a.seq ≤ b.seq := ⟨fun _ _ => Nat.le_total _ _⟩
      exact pairwise_insertionSort _ _
    have hne : listing ≠ [] := fun hnil =>
      hjobs (map_eq_nil_iff.mp (hnil ▸ hperm).symm.eq_nil)
    -- the registry opens the repository again, and its worker lists the spool
    obtain ⟨h₁, w, hrun, hw, hphase, hdisk, hlog⟩ : ∃ h₁ w,
        exec (step cfg) h [.restart, .scan listing] = some h₁ ∧
        h₁.registry.worker = some w ∧ w.phase = nextJob listing ∧
        h₁.registry.disk.jobs = h.registry.disk.jobs ∧ h₁.registry.log = h.registry.log := by
      simp [exec, step, Registry.restart, Registry.repoState, hdir, Disk.Listing, hperm,
        hsorted, hne]
    obtain ⟨run', h', hrun', hempty, hkept⟩ := exec_commits listing hw hphase
      (hdisk ▸ hi.names) (hdisk ▸ hperm)
    refine ⟨_, h', exec_append hrun hrun', hempty, fun j hj => hkept _ ?_⟩
    rw [hlog, hdisk]
    rcases hi.kept j hj with hj | hj
    · exact .inr ⟨j, hj, rfl⟩
    · exact .inl hj

theorem exec_recovers_push :
    let run := pushRun 0 "a" none
    (exec (step smallHub) Server.empty run).map (fun h =>
      h.registry.disk.spoolDir && h.registry.log.spooled == [(⟨0, "a", 20⟩, [7])]) = some true ∧
    ∀ h, exec (step smallHub) Server.empty run = some h → h.registry.disk.spoolDir = true →
      ∃ run' h', exec (step smallHub) h run' = some h' ∧ h'.registry.disk.jobs = [] ∧
        ∀ j ∈ h.registry.log.spooled, (j.1.sha, j.2) ∈ h'.registry.log.committed :=
  ⟨by decide +kernel, fun _ => exec_recovers (by decide +kernel)⟩

end recovery

/-! ## Pulls -/

/-- **A pull returns a payload that was pushed**: that of the push of its sha stored last. -/
theorem exec_pull_pushed {cfg : RegistryConfig} {run : List Label} {x : Server × History}
    (hr : exec (recordedStep cfg) (Server.empty, History.empty) run = some x)
    {commitSha : String} {bytes : Bytes} {sig : Option String}
    (hpull : x.1.registry.disk.pull commitSha = some (bytes, sig)) :
    ∃ sha sig', x.1.registry.disk.resolve commitSha = some sha ∧
      x.2.latest sha = some ⟨sha, bytes, sig'⟩ := by
  have htraced : Traced x.1.registry x.2 := by
    refine exec_preserves (P := fun x : Server × History => Traced x.1.registry x.2)
      (fun _ _ _ ht => traced_step ht) run ⟨?_, ?_, fun _ => rfl, fun _ _ h => by cases h⟩ hr
    · exact fun _ hj => absurd hj not_mem_nil
    · exact fun _ hb => absurd hb not_mem_nil
  obtain ⟨sha, hsha, hread⟩ := Option.bind_eq_some_iff.mp hpull
  obtain ⟨b, hb, heq⟩ := Option.map_eq_some_iff.mp hread
  cases heq
  have hbsha : b.sha = sha := by simpa using find?_some hb
  obtain ⟨sig', hlatest⟩ := htraced.stored b (mem_of_find?_eq_some hb)
  exact ⟨sha, sig', hsha, hbsha ▸ hlatest⟩

theorem exec_pull_pushed_again :
    (exec (recordedStep smallHub) (Server.empty, History.empty) resignedRun).map (fun x =>
      x.1.registry.disk.pull "latest") = some (some ([8], some "5167")) ∧
    ∀ x, exec (recordedStep smallHub) (Server.empty, History.empty) resignedRun = some x →
      ∀ bytes sig, x.1.registry.disk.pull "latest" = some (bytes, sig) →
        ∃ sha sig', x.1.registry.disk.resolve "latest" = some sha ∧
          x.2.latest sha = some ⟨sha, bytes, sig'⟩ :=
  ⟨by decide +kernel, fun _ hr _ _ => exec_pull_pushed hr⟩

end WeaveGraph.Hub
