import WeaveGraph.Hub.Jobs

/-!
# Completions that fail

`finish_upload` advances the head and counts the push before it renames the upload into the spool.
Every refusal comes before that, so a completion that is refused leaves head, next sequence number
and pending count alone.  A rename that finds no upload (another completion of the same sha took it)
is answered with an error after they have advanced (`exec_counts_failed`).

    no step of a failed completion changes head, next sequence number or pending count
      ↔  its rename, if it comes to one, finds its upload           (exec_leavesHead_iff)
-/

namespace WeaveGraph.Hub

open List Lib

/-- Head, next sequence number and pending count. -/
def RepoHead.counts (h : RepoHead) : Option String × Nat × Nat := (h.sha, h.nextSeq, h.pending)

namespace Registry

def counts (r : Registry) : List (Option String × Nat × Nat) :=
  r.objects.map fun st => st.head.counts

/-- The counts of the repository: those of its current state, or of the state it gets when it is
looked up. -/
def headView (r : Registry) : Option (Option String × Nat × Nat) :=
  match r.current with
  | some o => r.counts[o]?
  | none => some (recovered r.disk r.now).head.counts

theorem counts_modifyHead {r : Registry} {o : Nat} {f : RepoHead → RepoHead}
    (hf : ∀ h, (f h).counts = h.counts) : (r.modifyHead o f).counts = r.counts :=
  map_modify_of_eq (fun st => hf st.head) _ _

theorem counts_modifyRate {r : Registry} {o : Nat} {f : RateWindow → RateWindow} :
    (r.modifyRate o f).counts = r.counts :=
  map_modify_of_eq (fun _ => by rfl) _ _

theorem counts_takeRate (cfg : RegistryConfig) (r : Registry) (o : Nat) (st : RepoState) :
    (r.takeRate cfg o st).2.counts = r.counts := by
  unfold takeRate
  dsimp only
  split <;> exact counts_modifyRate

end Registry

theorem RepoHead.counts_expire (l : List String) (h : RepoHead) :
    (l.foldl RepoHead.removeUpload h).counts = h.counts := by
  induction l generalizing h with
  | nil => rfl
  | cons a l ih => exact ih _

/-! ## What a step of a request does to the counts -/

theorem counts_withState {r : Registry} {o : Nat} {f : RepoState → Registry × Phase}
    (hf : ∀ st, (f st).1.counts = r.counts) : (withState r o f).1.counts = r.counts := by
  rcases @withState_cases r o f with h | ⟨st, -, h⟩
  · rw [h]
  · rw [h]
    exact hf st

theorem Put.advance_counts (cfg : RegistryConfig) (p : Put) (r : Registry) (phase : Phase)
    (hhead : ∀ o, phase ≠ .finishHead o)
    (hlookup : (p.advance cfg r phase).1 ≠ r.repoState.2) :
    (p.advance cfg r phase).1.counts = r.counts := by
  unfold Put.advance at hlookup ⊢
  split
  all_goals try (refine counts_withState fun st => ?_)
  all_goals (repeat' split)
  all_goals first
    | rfl
    | exact Registry.counts_modifyHead fun _ => rfl
    | exact Registry.counts_modifyHead fun h => RepoHead.counts_expire (h.expired r.now) h
    | exact absurd rfl hlookup
    | exact absurd rfl (hhead _)
    | rename_i h
      exact (congrArg (fun x => x.2.counts) h).symm.trans (Registry.counts_takeRate cfg r _ st)

theorem Quiet.headView {r r' : Registry} (hq : Quiet r r') (hc : r'.counts = r.counts) :
    r'.headView = r.headView := by
  unfold Registry.headView
  rw [hq.current, hc]
  split
  · rfl
  · simp only [Registry.recovered, RepoHead.counts, hq.readPersistedHead, hq.jobs]

theorem headView_repoState (r : Registry) :
    r.repoState.2.headView = r.headView ∧ r.counts <+: r.repoState.2.counts := by
  unfold Registry.repoState
  cases hc : r.current with
  | some o => exact ⟨rfl, prefix_rfl⟩
  | none =>
    refine ⟨?_, ?_⟩
    · simp [Registry.headView, hc, Registry.counts]
    · simp [Registry.counts]

theorem Put.advance_headView (cfg : RegistryConfig) (p : Put) (r : Registry) (phase : Phase)
    (hhead : ∀ o seq, (p.advance cfg r phase).2 ≠ .writeSig o seq)
    (hrename : ∀ o, (p.advance cfg r phase).2 ≠ .wake o) :
    (p.advance cfg r phase).1.headView = r.headView ∧
      r.counts <+: (p.advance cfg r phase).1.counts := by
  by_cases hlookup : (p.advance cfg r phase).1 = r.repoState.2
  · rw [hlookup]
    exact headView_repoState r
  · rcases p.advance_cases cfg r phase with
      ⟨hq, -⟩ | ⟨hr, -⟩ | ⟨o, st, -, -, -, -, hp⟩ | ⟨o, seq, bytes, -, -, -, hp⟩
    · have hcounts : (p.advance cfg r phase).1.counts = r.counts := by
        by_cases hfin : ∃ o, phase = .finishHead o
        · -- refused under the head lock, or the push would be on its way to the spool
          obtain ⟨o, rfl⟩ := hfin
          simp only [Put.advance] at hhead ⊢
          rcases @withState_cases r o _ with h | ⟨st, -, h⟩
          · rw [h]
          · rw [h] at hhead ⊢
            split
            · rfl
            · rename_i hrefuse
              simp only [hrefuse] at hhead
              exact absurd rfl (hhead _ _)
        · exact p.advance_counts cfg r phase (fun o ho => hfin ⟨o, ho⟩) hlookup
      rw [hcounts]
      exact ⟨hq.headView hcounts, prefix_rfl⟩
    · exact absurd hr hlookup
    · exact absurd hp (hhead _ _)
    · exact absurd hp (hrename _)

/-! ## One request along a run -/

def phaseAfter (cfg : RegistryConfig) (h : Server) (i : Nat) (p : Put) (phase : Phase) :
    Label → Phase
  | .task j => if j = i then (p.advance cfg h.registry phase).2 else phase
  | .restart => phase.drop
  | _ => phase

theorem task_step {cfg : RegistryConfig} {h h' : Server} {i : Nat} {p : Put} {phase : Phase}
    {label : Label} (ht : h.tasks[i]? = some (.put p phase)) (hs : step cfg h label = some h') :
    h'.tasks[i]? = some (.put p (phaseAfter cfg h i p phase label)) := by
  cases step_cases hs with
  | tick => exact ht
  | request => exact (getElem?_append_left (List.getElem?_eq_some_iff.1 ht).1).trans ht
  | @task j t hj =>
    by_cases hij : j = i
    · subst hij
      rw [ht] at hj
      cases hj
      simp only [phaseAfter, if_true]
      exact getElem?_set_self (List.getElem?_eq_some_iff.1 ht).1
    · simp only [phaseAfter, if_neg hij]
      exact (getElem?_set_ne hij).trans ht
  | scan => exact ht
  | worker => exact ht
  | restart =>
    simp only [phaseAfter, getElem?_map, ht, Option.map_some]
    rfl

/-- A step of task `i` leaves head, next sequence number and pending count of the repository and of
every state that is still in use. -/
def LeavesHead (cfg : RegistryConfig) (i : Nat) (h : Server) : Label → Prop
  | .task j => j = i → ∀ t, h.tasks[i]? = some t →
    (t.step cfg h.registry).1.headView = h.registry.headView ∧
      h.registry.counts <+: (t.step cfg h.registry).1.counts
  | _ => True

/-- The rename of task `i` finds the upload. -/
def FindsUpload (i : Nat) (h : Server) : Label → Prop
  | .task j => j = i →
    match h.tasks[i]? with
    | some (.put p (.rename _ _)) => (h.registry.disk.uploads p.sha).isSome
    | _ => True
  | _ => True

instance (i : Nat) (h : Server) : DecidablePred (FindsUpload i h)
  | .task j => by
    unfold FindsUpload
    dsimp only
    split <;> infer_instance
  | .tick _ | .request _ | .worker _ | .scan _ | .restart => isTrue trivial

/-- The push is accepted, and nothing but a failing rename or a crash can keep the answer from being
`202 Accepted`. -/
def Phase.committed : Phase → Bool
  | .writeSig _ _ | .rename _ _ | .wake _ | .lost => true
  | .done response => response.status == 202
  | _ => false

section run

variable {cfg : RegistryConfig} {i : Nat} {p : Put}

theorem committed_after {h : Server} {phase : Phase} {label : Label}
    (ht : h.tasks[i]? = some (.put p phase)) (hg : FindsUpload i h label)
    (hc : phase.committed = true) : (phaseAfter cfg h i p phase label).committed = true := by
  cases label with
  | task j =>
    by_cases hij : j = i
    · simp only [phaseAfter, if_pos hij]
      cases phase with
      | writeSig o seq =>
        simp only [Put.advance]
        cases p.signature <;> rfl
      | rename o seq =>
        have hsome := hg hij
        rw [ht] at hsome
        obtain ⟨bytes, hu⟩ := Option.isSome_iff_exists.mp hsome
        simp only [Put.advance, hu]
        rfl
      | wake o => rfl
      | done response => exact hc
      | lost => rfl
      | _ => cases hc
    · simp only [phaseAfter, if_neg hij]
      exact hc
  | restart =>
    cases phase with
    | done response => exact hc
    | _ => rfl
  | _ => exact hc

theorem exec_committed : ∀ (l : List Label) {h h' : Server} {phase : Phase},
    h.tasks[i]? = some (.put p phase) → phase.committed = true →
    exec (step cfg) h l = some h' → Guarded (step cfg) (FindsUpload i) h l →
    ∃ phase', h'.tasks[i]? = some (.put p phase') ∧ phase'.committed = true := by
  intro l h h' phase ht hc hrun hg
  refine exec_invariant (P := fun h => ∃ phase', h.tasks[i]? = some (.put p phase') ∧
    phase'.committed = true) ?_ l ⟨phase, ht, hc⟩ hg hrun
  rintro s label t ⟨phase', ht', hc'⟩ hgs hs
  exact ⟨_, task_step ht' hs, committed_after ht' hgs hc'⟩

theorem not_leavesHead_accept {r : Registry} {o : Nat} {st : RepoState}
    (hst : r.objects[o]? = some st) : ¬ r.counts <+: (r.accept o p).counts := by
  intro hpre
  have hold : r.counts[o]? = some st.head.counts := by simp [Registry.counts, hst]
  have hnew : (r.accept o p).counts[o]? = some (st.head.advance p.sha).counts := by
    simp [Registry.counts, Registry.accept, Registry.modifyHead, hst]
  obtain ⟨t, hext⟩ := hpre
  rw [← hext, getElem?_append_left (List.getElem?_eq_some_iff.1 hold).1, hold] at hnew
  simp [RepoHead.counts, RepoHead.advance] at hnew

theorem seq_after {h : Server} {phase : Phase} {label : Label}
    (ht : h.tasks[i]? = some (.put p phase)) (hg : LeavesHead cfg i h label)
    (hn : phase.seq = none) : (phaseAfter cfg h i p phase label).seq = none := by
  cases label with
  | task j =>
    by_cases hij : j = i
    · simp only [phaseAfter, if_pos hij]
      rcases p.advance_cases cfg h.registry phase with
        ⟨-, hon⟩ | ⟨-, hseq, -⟩ | ⟨o, st, -, hst, -, hr, -⟩ | ⟨o, seq, bytes, rfl, -⟩
      · cases hs : (p.advance cfg h.registry phase).2.seq with
        | none => rfl
        | some n =>
          rw [hon.seq n hs] at hn
          cases hn
      · exact hseq
      · have hleaves : h.registry.counts <+: (p.advance cfg h.registry phase).1.counts :=
          (hg hij _ ht).2
        rw [hr] at hleaves
        exact absurd hleaves (not_leavesHead_accept hst)
      · cases hn
    · simp only [phaseAfter, if_neg hij]
      exact hn
  | restart => cases phase <;> rfl
  | _ => exact hn

theorem guarded_findsUpload : ∀ (l : List Label) {h h' : Server} {phase : Phase},
    h.tasks[i]? = some (.put p phase) → phase.seq = none →
    exec (step cfg) h l = some h' → Guarded (step cfg) (LeavesHead cfg i) h l →
    Guarded (step cfg) (FindsUpload i) h l := by
  intro l
  induction l with
  | nil => exact fun _ _ _ _ => trivial
  | cons label l ih =>
    intro h h' phase ht hn hrun hg
    obtain ⟨hglabel, hg⟩ := hg
    refine ⟨?_, ?_⟩
    · cases label with
      | task j =>
        intro _
        rw [ht]
        cases phase with
        | rename o seq => cases hn
        | _ => trivial
      | _ => trivial
    · unfold exec at hrun
      cases hs : step cfg h label with
      | none => trivial
      | some t =>
        simp only [hs] at hrun hg
        exact ih (task_step ht hs) (seq_after ht hglabel hn) hrun hg

theorem guarded_leavesHead : ∀ (l : List Label) {h h' : Server} {phase : Phase}
    {response : Response}, h.tasks[i]? = some (.put p phase) →
    exec (step cfg) h l = some h' → h'.tasks[i]? = some (.put p (.done response)) →
    response.status ≠ 202 → Guarded (step cfg) (FindsUpload i) h l →
    Guarded (step cfg) (LeavesHead cfg i) h l := by
  intro l
  induction l with
  | nil => exact fun _ _ _ _ _ => trivial
  | cons label l ih =>
    intro h h' phase response ht hrun hend hfail hg
    obtain ⟨hglabel, hg⟩ := hg
    unfold exec at hrun
    cases hs : step cfg h label with
    | none =>
      simp only [hs] at hrun
      cases hrun
    | some t =>
      simp only [hs] at hrun hg
      have hnext := task_step ht hs
      -- once it is accepted the request cannot be answered with a failure any more
      have hopen : (phaseAfter cfg h i p phase label).committed = false := by
        rw [← Bool.not_eq_true]
        intro hc
        obtain ⟨phase', hp', hc'⟩ := exec_committed l hnext hc hrun hg
        rw [hend] at hp'
        cases hp'
        exact hfail (by simpa [Phase.committed] using hc')
      refine ⟨?_, by simp only [hs]; exact ih hnext hrun hend hfail hg⟩
      cases label with
      | task j =>
        rintro hij t' ht'
        rw [ht] at ht'
        cases ht'
        simp only [phaseAfter, if_pos hij] at hopen
        refine p.advance_headView cfg h.registry phase (fun o seq heq => ?_) fun o heq => ?_
        · rw [heq] at hopen
          cases hopen
        · rw [heq] at hopen
          cases hopen
      | _ => trivial

end run

/-- No step of a completion that is answered with a failure changes head, next sequence number or
pending count, exactly if its rename, should it come to one, finds its upload. -/
theorem exec_leavesHead_iff {cfg : RegistryConfig} {h h' : Server} {l : List Label} {i : Nat}
    {p : Put} {response : Response} (hstart : h.tasks[i]? = some (.put p .takeState))
    (hrun : exec (step cfg) h l = some h')
    (hend : h'.tasks[i]? = some (.put p (.done response))) (hfail : response.status ≠ 202) :
    Guarded (step cfg) (LeavesHead cfg i) h l ↔ Guarded (step cfg) (FindsUpload i) h l :=
  ⟨guarded_findsUpload l hstart rfl hrun, guarded_leavesHead l hstart hrun hend hfail⟩

/-- The head is `a`, and a push of `c` on base `b` is about to be completed. -/
def staleBase : Server where
  registry := { Registry.empty with
    disk := { Disk.empty with uploads := fun sha => if sha = "c" then some [7] else none }
    objects := [⟨⟨some "a", 1, 0, []⟩, ⟨0, 0⟩⟩]
    current := some 0 }
  tasks := [.put (onePut "c" (some "b")) .takeState]

theorem exec_leavesHead_conflict :
    Guarded (step smallHub) (LeavesHead smallHub 0) staleBase (List.replicate 9 (.task 0)) :=
  (exec_leavesHead_iff rfl rfl rfl (by decide)).mpr (by decide)

/-- Two uploads of `a`, and the completion of the first. -/
def twinUploads : List Label :=
  Label.request (.put (onePut "a" none) .arrived) :: List.replicate 9 (Label.task 0) ++
    Label.request (.put (onePut "a" none) .arrived) :: List.replicate 7 (Label.task 1) ++
    List.replicate 8 (Label.task 0)

/-- The second completion finds no upload: it is answered with an error, and its push stays
counted. -/
theorem exec_counts_failed :
    (exec (step smallHub) Server.empty twinUploads).map (fun h =>
      (h.tasks.map Task.phase, h.registry.headView)) =
        some ([.done (.plain 202), .takeState], some (some "a", 1, 1)) ∧
    (exec (step smallHub) Server.empty (twinUploads ++ List.replicate 11 (.task 1))).map (fun h =>
      (h.tasks.map Task.phase, h.registry.headView)) =
        some ([.done (.plain 202), .done (.plain 500)], some (some "a", 2, 2)) := by
  constructor
  · decide +kernel
  · decide +kernel

end WeaveGraph.Hub
