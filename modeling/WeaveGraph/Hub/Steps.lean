import WeaveGraph.Hub.Registry

/-!
# What a step of the registry can do

Most steps of a request and of the worker leave alone what the registry's promises are about: the
current state, the recorded heads and sequence numbers, the job files, the persisted head and the
log (`Quiet`).  `Put.advance_cases` and `Registry.workerStep_cases` name the others, and
`step_cases` what a label can do.
-/

namespace WeaveGraph.Hub

/-! ## Small lemmas -/

namespace Registry

/-- Head and next sequence number of every state object. -/
def marks (r : Registry) : List (Option String × Nat) :=
  r.objects.map fun st => (st.head.sha, st.head.nextSeq)

/-- The worker without its pending wake-ups. -/
def workerView (r : Registry) : Option (Nat × WorkerPhase) :=
  r.worker.map fun w => (w.state, w.phase)

theorem map_modify_of_eq {α β : Type} {f : α → α} {g : α → β} (hfg : ∀ a, g (f a) = g a)
    (l : List α) (i : Nat) : (l.modify i f).map g = l.map g := by
  induction l generalizing i with
  | nil => simp
  | cons a l ih =>
    cases i with
    | zero => simp [hfg]
    | succ i => simp [ih]

theorem marks_modifyHead {r : Registry} {o : Nat} {f : RepoHead → RepoHead}
    (hf : ∀ h, (f h).sha = h.sha ∧ (f h).nextSeq = h.nextSeq) :
    (r.modifyHead o f).marks = r.marks :=
  map_modify_of_eq (fun st => by simp [hf]) _ _

theorem marks_modifyRate {r : Registry} {o : Nat} {f : RateWindow → RateWindow} :
    (r.modifyRate o f).marks = r.marks :=
  map_modify_of_eq (fun _ => by rfl) _ _

end Registry

theorem RepoHead.foldl_removeUpload (l : List String) (h : RepoHead) :
    (l.foldl RepoHead.removeUpload h).sha = h.sha ∧
      (l.foldl RepoHead.removeUpload h).nextSeq = h.nextSeq := by
  induction l generalizing h with
  | nil => exact ⟨rfl, rfl⟩
  | cons a l ih => exact ih _

/-! ## Looking up the state -/

theorem current_repoState (r : Registry) : r.repoState.2.current = some r.repoState.1 := by
  unfold Registry.repoState
  cases hc : r.current with
  | some o => exact hc
  | none => rfl

theorem log_repoState (r : Registry) : r.repoState.2.log = r.log := by
  unfold Registry.repoState
  cases r.current <;> rfl

variable {r : Registry} {o : Nat} {cfg : RegistryConfig} {w : Worker} {ok : Bool} {h : Server}

theorem current_of_repoState (h : r.current = some o) : r.repoState = (o, r) := by
  unfold Registry.repoState
  rw [h]

/-! ## Quiet steps -/

structure Quiet (r r' : Registry) : Prop where
  current : r'.current = r.current
  marks : r'.marks = r.marks
  workerView : r'.workerView = r.workerView
  jobs : r'.disk.jobs = r.disk.jobs
  head : r'.disk.head = r.disk.head
  log : r'.log = r.log

namespace Quiet

theorem refl (r : Registry) : Quiet r r := ⟨rfl, rfl, rfl, rfl, rfl, rfl⟩

variable {r : Registry}

theorem modifyHead {o : Nat} {f : RepoHead → RepoHead}
    (hf : ∀ h, (f h).sha = h.sha ∧ (f h).nextSeq = h.nextSeq) : Quiet r (r.modifyHead o f) :=
  ⟨rfl, Registry.marks_modifyHead hf, rfl, rfl, rfl, rfl⟩

theorem removeUpload (r : Registry) (o : Nat) (sha : String) :
    Quiet r (r.modifyHead o fun h => h.removeUpload sha) :=
  modifyHead fun _ => ⟨rfl, rfl⟩

theorem insertUpload (r : Registry) (o : Nat) (sha : String) (now : Nat) :
    Quiet r (r.modifyHead o fun h => h.insertUpload sha now) :=
  modifyHead fun _ => ⟨rfl, rfl⟩

theorem expire (r : Registry) (o now : Nat) :
    Quiet r (r.modifyHead o fun h => (h.expired now).foldl RepoHead.removeUpload h) :=
  modifyHead fun h => RepoHead.foldl_removeUpload (h.expired now) h

theorem takeRate (cfg : RegistryConfig) (r : Registry) (o : Nat) (st : RepoState) :
    Quiet r (r.takeRate cfg o st).2 := by
  unfold Registry.takeRate
  dsimp only
  split
  · exact ⟨rfl, Registry.marks_modifyRate, rfl, rfl, rfl, rfl⟩
  · exact ⟨rfl, Registry.marks_modifyRate, rfl, rfl, rfl, rfl⟩

theorem setDisk {d : Disk} (hj : d.jobs = r.disk.jobs) (hh : d.head = r.disk.head) :
    Quiet r (r.setDisk d) :=
  ⟨rfl, rfl, rfl, hj, hh, rfl⟩

theorem sendWake (r : Registry) (o : Nat) : Quiet r (r.sendWake o) := by
  refine ⟨rfl, rfl, ?_, rfl, rfl, rfl⟩
  unfold Registry.workerView Registry.sendWake
  cases r.worker with
  | none => rfl
  | some w =>
    simp only [Option.map_some, Option.some.injEq, Prod.mk.injEq]
    split <;> exact ⟨rfl, rfl⟩

theorem readPersistedHead {r' : Registry} (h : Quiet r r') :
    r'.disk.readPersistedHead = r.disk.readPersistedHead := by
  unfold Disk.readPersistedHead
  rw [h.head]

end Quiet

/-! ## Phases of a completion -/

/-- The state object of a completion that has not taken the head lock yet. -/
def Phase.deciding : Phase → Option Nat
  | .finishRate o => some o
  | .finishHead o => some o
  | _ => none

/-- The sequence number of an accepted push whose job file is not in the spool yet. -/
def Phase.seq : Phase → Option Nat
  | .writeSig _ seq => some seq
  | .rename _ seq => some seq
  | _ => none

/-- The state object a completion works with until its job file is in the spool. -/
def Phase.holder : Phase → Option Nat
  | .finishRate o => some o
  | .finishHead o => some o
  | .writeSig o _ => some o
  | .rename o _ => some o
  | _ => none

/-- The answer is, or is going to be, `202 Accepted`. -/
def Phase.accepting : Phase → Bool
  | .wake _ => true
  | .abandonState response | .abandonHead _ response | .abandonFile response | .done response =>
    response.status == 202
  | _ => false

def Task.phase : Task → Phase
  | .head _ phase => phase
  | .put _ phase => phase

theorem Phase.holder_of_deciding {phase : Phase} (h : phase.deciding = some o) :
    phase.holder = some o := by
  cases phase <;> simp_all [Phase.deciding, Phase.holder]

/-- A quiet move of a request: it goes on with the state and the number it has, or has none, and a
completion is not accepted by it. -/
structure Onward (final : Bool) (phase phase' : Phase) : Prop where
  deciding : ∀ o, phase'.deciding = some o → phase.deciding = some o
  holder : ∀ o, phase'.holder = some o → phase.holder = some o
  seq : ∀ n, phase'.seq = some n → phase.seq = some n
  accepting : phase'.accepting = true → phase.accepting = true ∨ final = false

theorem Onward.of_free {final : Bool} {phase phase' : Phase} (h : phase'.holder = none)
    (ha : phase'.accepting = true → phase.accepting = true ∨ final = false) :
    Onward final phase phase' := by
  refine ⟨?_, ?_, ?_, ha⟩ <;> cases phase' <;>
    simp_all [Phase.deciding, Phase.holder, Phase.seq]

theorem refusal_status {h : RepoHead} {depth : Nat} {p : Put} {response : Response}
    (hr : refusal cfg h depth p = some response) : response.status ≠ 202 := by
  unfold refusal at hr
  split at hr
  · cases hr
    decide
  · split at hr
    · cases hr
      decide
    · cases hr

theorem withState_cases {r : Registry} {o : Nat} {f : RepoState → Registry × Phase} :
    withState r o f = (r, .lost) ∨ ∃ st, r.objects[o]? = some st ∧ withState r o f = f st := by
  unfold withState
  cases h : r.objects[o]? with
  | none => exact .inl rfl
  | some st => exact .inr ⟨st, rfl, rfl⟩

/-- A quiet step of a `PUT`. -/
def Quietly (p : Put) (r : Registry) (phase : Phase) (x : Registry × Phase) : Prop :=
  Quiet r x.1 ∧ Onward p.final phase x.2

section quietly

variable {cfg : RegistryConfig} {p : Put} {r r' : Registry} {phase phase' : Phase}

theorem Quietly.same (hq : Quiet r r') (hp : phase'.holder = none)
    (ha : phase'.accepting = phase.accepting) : Quietly p r phase (r', phase') :=
  ⟨hq, .of_free hp fun h => .inl (ha ▸ h)⟩

theorem Quietly.free (hq : Quiet r r') (hp : phase'.holder = none)
    (ha : phase'.accepting = false) : Quietly p r phase (r', phase') :=
  ⟨hq, .of_free hp fun h => by rw [ha] at h; cases h⟩

theorem Quietly.withState {o : Nat} {f : RepoState → Registry × Phase}
    (hf : ∀ st, Quietly p r phase (f st)) : Quietly p r phase (withState r o f) := by
  rcases withState_cases (r := r) (o := o) (f := f) with h | ⟨st, -, h⟩
  · rw [h]
    exact .free (.refl r) rfl rfl
  · rw [h]
    exact hf st

theorem Quietly.refused {h : RepoHead} {depth : Nat} {response : Response}
    (hr : refusal cfg h depth p = some response) (hp : phase'.holder = none)
    (ha : phase'.accepting = (response.status == 202)) : Quietly p r phase (r, phase') :=
  .free (.refl r) hp (by simpa [ha] using refusal_status hr)

/-- The sections that take no state, accept nothing and spool nothing. -/
theorem Put.advance_quietly (hbegin : phase ≠ .beginState) (hfinish : ∀ b, phase ≠ .finishState b)
    (haccept : ∀ o, phase ≠ .finishHead o) (hspool : ∀ o seq, phase ≠ .rename o seq) :
    Quietly p r phase (p.advance cfg r phase) := by
  cases phase with
  | beginState => exact absurd rfl hbegin
  | finishState b => exact absurd rfl (hfinish b)
  | finishHead o => exact absurd rfl (haccept o)
  | rename o seq => exact absurd rfl (hspool o seq)
  | arrived =>
    dsimp only [Put.advance]
    split
    · exact .free (.refl r) rfl rfl
    · split
      · exact .free (.refl r) rfl rfl
      · exact .free (.refl r) rfl rfl
  | expire o => exact .withState fun st => .free (.expire r o r.now) rfl rfl
  | expireFiles o expired =>
    cases expired with
    | nil => exact .free (.refl r) rfl rfl
    | cons sha rest => exact .free (.setDisk rfl rfl) rfl rfl
  | reserveCheck o =>
    refine .withState fun st => ?_
    split
    · exact .free (.refl r) rfl rfl
    · split
      · exact .refused ‹_› rfl rfl
      · exact .free (.refl r) rfl rfl
  | reserveRate o =>
    refine .withState fun st => ?_
    have hq := Quiet.takeRate cfg r o st
    split
    · rename_i heq
      rw [heq] at hq
      exact .free hq rfl rfl
    · rename_i heq
      rw [heq] at hq
      exact .free hq rfl rfl
  | reserve o =>
    refine .withState fun st => ?_
    split
    · exact .refused ‹_› rfl rfl
    · exact .free (.insertUpload r o p.sha r.now) rfl rfl
  | chunkLength =>
    dsimp only [Put.advance]
    split
    · exact .free (.refl r) rfl rfl
    · split
      · exact .free (.refl r) rfl rfl
      · exact .free (.refl r) rfl rfl
  | chunkWrite =>
    dsimp only [Put.advance]
    split
    · exact .free (.setDisk rfl rfl) rfl rfl
    · rename_i hfinal
      exact ⟨.setDisk rfl rfl, .of_free rfl fun _ => .inr (by simpa using hfinal)⟩
  | takeState =>
    dsimp only [Put.advance]
    split
    · exact .free (.refl r) rfl rfl
    · exact .free (.refl r) rfl rfl
  | takeReservation o => exact .withState fun st => .free (.removeUpload r o p.sha) rfl rfl
  | verify reserved =>
    dsimp only [Put.advance]
    split
    · exact .free (.refl r) rfl rfl
    · split
      · exact .free (.refl r) rfl rfl
      · split
        · exact .free (.refl r) rfl rfl
        · exact .free (.refl r) rfl rfl
  | finishRate o =>
    refine .withState fun st => ?_
    have hq := Quiet.takeRate cfg r o st
    split
    · rename_i heq
      rw [heq] at hq
      exact .free hq rfl rfl
    · rename_i heq
      rw [heq] at hq
      exact ⟨hq, fun _ h => h, fun _ h => h, fun _ h => (by cases h), fun h => by cases h⟩
  | writeSig o seq =>
    dsimp only [Put.advance]
    split
    · exact ⟨.refl r, fun _ h => h, fun _ h => h, fun _ h => h, fun h => by cases h⟩
    · exact ⟨.setDisk rfl rfl, fun _ h => h, fun _ h => h, fun _ h => h, fun h => by cases h⟩
  | wake o => exact .same (.sendWake r o) rfl rfl
  | abandonState response =>
    dsimp only [Put.advance]
    split
    · exact .same (.refl r) rfl rfl
    · exact .same (.refl r) rfl rfl
  | abandonHead o response => exact .withState fun st => .same (.removeUpload r o p.sha) rfl rfl
  | abandonFile response => exact .same (.setDisk rfl rfl) rfl rfl
  | done response => exact .same (.refl r) rfl rfl
  | lost => exact .same (.refl r) rfl rfl

end quietly

/-- What a step of a `PUT` does. -/
theorem Put.advance_cases (cfg : RegistryConfig) (p : Put) (r : Registry) (phase : Phase) :
    let r' := (p.advance cfg r phase).1
    let phase' := (p.advance cfg r phase).2
    (Quiet r r' ∧ Onward p.final phase phase') ∨
    (r' = r.repoState.2 ∧ phase'.seq = none ∧ phase'.accepting = false ∧
      ∀ o, phase'.holder = some o → o = r.repoState.1) ∨
    (∃ o st, phase = .finishHead o ∧ r.objects[o]? = some st ∧
      st.head.conflicts p.baseSha = false ∧ r' = r.accept o p ∧
      phase' = .writeSig o st.head.nextSeq) ∨
    (∃ o seq bytes, phase = .rename o seq ∧ r.disk.uploads p.sha = some bytes ∧
      r' = r.spool (p.job seq) bytes ∧ phase' = .wake o) := by
  intro r' phase'
  cases phase with
  | beginState =>
    refine .inr (.inl ⟨rfl, rfl, rfl, ?_⟩)
    intro o ho
    cases ho
  | finishState reserved =>
    refine .inr (.inl ⟨rfl, ?_, ?_, ?_⟩)
    · cases reserved <;> rfl
    · cases reserved <;> rfl
    · intro o ho
      cases reserved <;> exact (Option.some.inj ho).symm
  | finishHead o =>
    dsimp only [r', phase', Put.advance]
    rcases withState_cases (r := r) (o := o) with h | ⟨st, hst, h⟩
    · rw [h]
      exact .inl (Quietly.free (.refl r) rfl rfl)
    · rw [h]
      split
      · exact .inl (Quietly.refused ‹_› rfl rfl)
      · rename_i hr
        unfold refusal at hr
        split at hr
        · cases hr
        · split at hr
          · cases hr
          · rename_i hc
            exact .inr (.inr (.inl ⟨o, st, rfl, hst, by simpa using hc, rfl, rfl⟩))
  | rename o seq =>
    dsimp only [r', phase', Put.advance]
    cases hu : r.disk.uploads p.sha with
    | none => exact .inl (Quietly.free (.refl r) rfl rfl)
    | some bytes => exact .inr (.inr (.inr ⟨o, seq, bytes, rfl, rfl, rfl, rfl⟩))
  | _ => exact .inl (Put.advance_quietly nofun nofun nofun nofun)

theorem Task.step_head (cfg : RegistryConfig) (r : Registry) (sha : String) (phase : Phase) :
    ((Task.head sha phase).step cfg r).1 = r ∧
      Onward true phase ((Task.head sha phase).step cfg r).2.phase := by
  cases phase with
  | arrived =>
    refine ⟨rfl, .of_free rfl fun h => ?_⟩
    simp only [Task.step, Task.phase, offsetResponse, Phase.accepting] at h
    split at h <;> cases h
  | _ => exact ⟨rfl, fun _ h => h, fun _ h => h, fun _ h => h, fun h => .inl h⟩

theorem Task.phase_of_isNew {t : Task} (h : t.isNew = true) : t.phase = .arrived := by
  cases t <;> simp_all [Task.isNew, Task.phase]

/-! ## The worker -/

/-- How the worker moves on where it changes no job file, no blob and no head. -/
inductive Moves (d : Disk) : Bool → WorkerPhase → WorkerPhase → Prop where
  | recv {ok : Bool} {phase : WorkerPhase} (h : phase = .scan ∨ phase = .exit) :
      Moves d ok .recv phase
  | read {job : SpoolJob} {rest : List SpoolJob} {bytes : Bytes} (h : d.readJob job = some bytes) :
      Moves d true (.readJob job rest) (.writeBlob job rest bytes)
  | unread {ok : Bool} {job : SpoolJob} {rest : List SpoolJob}
      (h : ok = true → d.readJob job = none) : Moves d ok (.readJob job rest) (.removeJob job rest)
  | written {job : SpoolJob} {rest : List SpoolJob} {bytes : Bytes} {now : Nat} :
      Moves d true (.writeBlob job rest bytes) (.renameBlob job rest ⟨job.sha, bytes, now⟩)
  | unwritten {job : SpoolJob} {rest : List SpoolJob} {bytes : Bytes} :
      Moves d false (.writeBlob job rest bytes) (.removeJob job rest)
  | unrenamed {job : SpoolJob} {rest : List SpoolJob} {blob : Blob} :
      Moves d false (.renameBlob job rest blob) (.removeJob job rest)
  | copySig {ok : Bool} {job : SpoolJob} {rest : List SpoolJob} :
      Moves d ok (.copySig job rest) (.writeHead job rest)
  | writeHead {ok : Bool} {job : SpoolJob} {rest : List SpoolJob} {phase : WorkerPhase}
      (h : phase = .renameHead job rest ∨ phase = .removeJob job rest) :
      Moves d ok (.writeHead job rest) phase
  | renameHead {ok : Bool} {job : SpoolJob} {rest : List SpoolJob} :
      Moves d ok (.renameHead job rest) (.removeJob job rest)
  | prune {ok : Bool} {job : SpoolJob} {rest : List SpoolJob} :
      Moves d ok (.prune job rest) (.removeJob job rest)
  | removeJob {job : SpoolJob} {rest : List SpoolJob} :
      Moves d false (.removeJob job rest) (.removeSig job rest)
  | removeSig {ok : Bool} {job : SpoolJob} {rest : List SpoolJob} :
      Moves d ok (.removeSig job rest) (.decrement rest)
  | decrement {ok : Bool} {rest : List SpoolJob} : Moves d ok (.decrement rest) (nextJob rest)

theorem Quiet.decrement (r : Registry) (o : Nat) : Quiet r (r.modifyHead o RepoHead.decrement) :=
  modifyHead fun h => by simp only [RepoHead.decrement, and_self]

theorem Worker.after_state {w' : Worker} {phase : WorkerPhase} (h : w.after ok phase = some w') :
    w'.state = w.state ∧ w'.phase = phase ∧ w.phase ≠ .exit := by
  unfold Worker.after at h
  split at h
  · cases h
  · rename_i hp
    cases h
    exact ⟨rfl, rfl, by simp [hp]⟩
  · rename_i hp _
    cases h
    exact ⟨rfl, rfl, hp⟩

theorem workerView_after {phase phase' : WorkerPhase}
    (h : Registry.workerView { r with worker := w.after ok phase } = some (o, phase')) :
    o = w.state ∧ phase' = phase ∧ w.phase ≠ .exit := by
  obtain ⟨w', hw', heq⟩ := Option.map_eq_some_iff.1 h
  obtain ⟨hs, hp, he⟩ := Worker.after_state hw'
  cases heq
  exact ⟨hs, hp, he⟩

theorem Registry.workerStep_cases {r' : Registry} {phase : WorkerPhase}
    (hs : r.workerStep w ok = some (r', phase)) : (Quiet r r' ∧ Moves r.disk ok w.phase phase) ∨
    (w.phase = .exit ∧ r' = { r with current := none }) ∨
    (∃ job rest blob, w.phase = .renameBlob job rest blob ∧ r' = r.commit blob ∧
      phase = .copySig job rest) ∨
    (∃ job rest, w.phase = .renameHead job rest ∧
      r' = r.setDisk { r.disk with head := some job.sha } ∧ phase = .prune job rest) ∨
    (∃ job rest, w.phase = .removeJob job rest ∧ r' = r.setDisk (r.disk.removeJob job) ∧
      phase = .removeSig job rest) := by
  unfold Registry.workerStep at hs
  generalize w.phase = p at hs ⊢
  cases p with
  | scan => cases hs
  | recv =>
    dsimp only at hs
    split at hs
    · cases hs
      refine .inl ⟨.refl r, .recv ?_⟩
      cases ok
      · exact .inr rfl
      · exact .inl rfl
    · cases hs
  | exit =>
    cases hs
    exact .inr (.inl ⟨rfl, rfl⟩)
  | readJob job rest =>
    dsimp only at hs
    split at hs
    · rename_i hread
      cases hs
      exact .inl ⟨.refl r, .read hread⟩
    · rename_i hread
      cases hs
      refine .inl ⟨.refl r, .unread fun hok => ?_⟩
      cases hd : r.disk.readJob job with
      | none => rfl
      | some bytes => exact absurd hd (hread bytes hok)
  | writeBlob job rest bytes =>
    cases ok <;> cases hs
    · exact .inl ⟨.refl r, .unwritten⟩
    · exact .inl ⟨.refl r, .written⟩
  | renameBlob job rest blob =>
    cases ok <;> cases hs
    · exact .inl ⟨.refl r, .unrenamed⟩
    · exact .inr (.inr (.inl ⟨job, rest, blob, rfl, rfl, rfl⟩))
  | copySig job rest =>
    dsimp only at hs
    split at hs
    · cases hs
      exact .inl ⟨.setDisk rfl rfl, .copySig⟩
    · cases hs
      exact .inl ⟨.refl r, .copySig⟩
  | writeHead job rest =>
    cases ok <;> cases hs
    · exact .inl ⟨.refl r, .writeHead (.inr rfl)⟩
    · exact .inl ⟨.refl r, .writeHead (.inl rfl)⟩
  | renameHead job rest =>
    cases ok <;> cases hs
    · exact .inl ⟨.refl r, .renameHead⟩
    · exact .inr (.inr (.inr (.inl ⟨job, rest, rfl, rfl, rfl⟩)))
  | prune job rest =>
    cases ok <;> cases hs
    · exact .inl ⟨.refl r, .prune⟩
    · exact .inl ⟨.setDisk rfl rfl, .prune⟩
  | removeJob job rest =>
    cases ok <;> cases hs
    · exact .inl ⟨.refl r, .removeJob⟩
    · exact .inr (.inr (.inr (.inr ⟨job, rest, rfl, rfl, rfl⟩)))
  | removeSig job rest =>
    cases ok <;> cases hs
    · exact .inl ⟨.refl r, .removeSig⟩
    · exact .inl ⟨.setDisk rfl rfl, .removeSig⟩
  | decrement rest =>
    cases hs
    exact .inl ⟨.decrement r w.state, .decrement⟩

/-! ## The log of spooled jobs -/

/-- A request spools its job by renaming its upload, and no other step makes its answer `202`. -/
theorem Put.advance_spooled (cfg : RegistryConfig) (p : Put) (r : Registry) (phase : Phase) :
    (∃ o seq bytes, phase = .rename o seq ∧ r.disk.uploads p.sha = some bytes ∧
      (p.advance cfg r phase).1.log.spooled = r.log.spooled ++ [(p.job seq, bytes)]) ∨
    ((p.advance cfg r phase).1.log.spooled = r.log.spooled ∧
      ((p.advance cfg r phase).2.accepting = true → phase.accepting = true ∨ p.final = false)) := by
  rcases p.advance_cases cfg r phase with
    ⟨hq, hon⟩ | ⟨hr, -, hna, -⟩ | ⟨o, st, -, -, -, hr, hp⟩ | ⟨o, seq, bytes, rfl, hu, hr, -⟩
  · exact .inr ⟨by rw [hq.log], hon.accepting⟩
  · refine .inr ⟨by rw [hr, log_repoState], fun ha => ?_⟩
    rw [hna] at ha
    cases ha
  · refine .inr ⟨by rw [hr]; rfl, fun ha => ?_⟩
    rw [hp] at ha
    cases ha
  · exact .inl ⟨o, seq, bytes, rfl, hu, by rw [hr]; rfl⟩

theorem Registry.workerStep_spooled {r' : Registry} {phase : WorkerPhase}
    (hs : r.workerStep w ok = some (r', phase)) : r'.log.spooled = r.log.spooled := by
  rcases Registry.workerStep_cases hs with
    ⟨hq, -⟩ | ⟨-, rfl⟩ | ⟨job, rest, blob, -, rfl, -⟩ | ⟨job, rest, -, rfl, -⟩ |
    ⟨job, rest, -, rfl, -⟩
  · rw [hq.log]
  · rfl
  · rfl
  · rfl
  · rfl

theorem Registry.restart_log (r : Registry) : r.restart.log = r.log := by
  unfold Registry.restart
  dsimp only
  split
  · rw [log_repoState]
  · rfl

/-! ## Every step -/

theorem workerView_of_worker (hw : r.worker = some w) : r.workerView = some (w.state, w.phase) := by
  simp [Registry.workerView, hw]

/-- What the step of a label can be, with what enables it. -/
inductive Stepped (cfg : RegistryConfig) (h : Server) : Label → Server → Prop where
  | tick {elapsed : Nat} :
      Stepped cfg h (.tick elapsed)
        { h with registry := { h.registry with now := h.registry.now + elapsed } }
  | request {t : Task} (hnew : t.isNew = true) :
      Stepped cfg h (.request t) { h with tasks := h.tasks ++ [t] }
  | task {i : Nat} {t : Task} (ht : h.tasks[i]? = some t) :
      Stepped cfg h (.task i) ⟨(t.step cfg h.registry).1, h.tasks.set i (t.step cfg h.registry).2⟩
  | scan {listing : List SpoolJob} {w : Worker} (hw : h.registry.worker = some w)
      (hphase : w.phase = .scan) (hlist : h.registry.disk.Listing listing) :
      Stepped cfg h (.scan listing) { h with registry := { h.registry with
            worker := some { w with
              phase := if listing.isEmpty then .recv else nextJob listing } } }
  | worker {ok : Bool} {w : Worker} {r : Registry} {phase : WorkerPhase}
      (hw : h.registry.worker = some w) (hstep : h.registry.workerStep w ok = some (r, phase)) :
      Stepped cfg h (.worker ok) { h with registry := { r with worker := w.after ok phase } }
  | restart : Stepped cfg h .restart ⟨h.registry.restart, h.tasks.map Task.drop⟩

theorem step_cases {h' : Server} {l : Label} (hs : step cfg h l = some h') :
    Stepped cfg h l h' := by
  cases l with
  | tick elapsed =>
    cases hs
    exact .tick
  | request t =>
    simp only [step] at hs
    split at hs <;> cases hs
    exact .request ‹_›
  | task i =>
    simp only [step] at hs
    split at hs <;> cases hs
    exact .task ‹_›
  | scan listing =>
    simp only [step] at hs
    split at hs
    · cases hs
    · rename_i w hw
      split at hs <;> cases hs
      rename_i hscan
      exact .scan hw hscan.1 hscan.2
  | worker ok =>
    simp only [step] at hs
    split at hs
    · cases hs
    · rename_i w hw
      split at hs <;> cases hs
      exact .worker hw ‹_›
  | restart =>
    cases hs
    exact .restart

theorem phase_of_disabled (hs : step cfg h (.worker ok) = none) (hw : h.registry.worker = some w) :
    w.phase = .scan ∨ w.phase = .recv := by
  simp only [step, hw] at hs
  split at hs
  · rename_i hstep
    unfold Registry.workerStep at hstep
    cases hp : w.phase with
    | scan => exact .inl rfl
    | recv => exact .inr rfl
    | readJob job rest | copySig job rest =>
      simp only [hp] at hstep
      split at hstep <;> cases hstep
    | _ =>
      simp only [hp] at hstep
      cases ok <;> cases hstep
  · cases hs

theorem view_of_disabled {phase : WorkerPhase} (hs : step cfg h (.worker ok) = none)
    (hview : h.registry.workerView = some (o, phase)) : phase = .scan ∨ phase = .recv := by
  obtain ⟨w, hw, hphase⟩ := Option.map_eq_some_iff.mp hview
  cases hphase
  exact phase_of_disabled hs hw

/-! ## Building blocks of runs -/

def smallHub : RegistryConfig := ⟨8, 60, 1024, none⟩

def onePut (sha : String) (baseSha : Option String) : Put :=
  ⟨sha, baseSha, 20, none, 0, 0, 1, [7]⟩

/-- A push from its arrival to its answer, as task `i`. -/
def pushRun (i : Nat) (sha : String) (baseSha : Option String) : List Label :=
  .request (.put (onePut sha baseSha) .arrived) :: List.replicate 18 (.task i)

/-- The worker commits the only job in the spool and looks again. -/
def commitRun (job : SpoolJob) : List Label :=
  .scan [job] :: List.replicate 10 (.worker true)

end WeaveGraph.Hub
