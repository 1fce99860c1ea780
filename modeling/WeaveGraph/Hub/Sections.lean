import WeaveGraph.Hub.Pending

/-!
# What a section does to capacity

Two figures limit what a repository takes in: the count of its rate window and the depth of its
queue, pending jobs and reservations together.  `Advanced` says what each section of a request does
to them in the state that is current, and which slot the request holds afterwards; every other step
can only release reservations (`Releases`).
-/

namespace WeaveGraph.Hub

open List

/-! ## The current state -/

namespace Registry

def currentState (r : Registry) : Option RepoState := r.current.bind fun o => r.objects[o]?

def reserved (r : Registry) : Nat := r.currentState.elim 0 fun st => st.head.uploads.length

variable {r : Registry}

theorem currentState_of_current {o : Nat} (h : r.current = some o) :
    r.currentState = r.objects[o]? := by
  rw [currentState, h, Option.bind_some]

theorem reserved_congr {r' : Registry} (h : r'.currentState = r.currentState) :
    r'.reserved = r.reserved := by
  rw [reserved, h, reserved]

theorem reserved_of_state {st : RepoState} (h : r.currentState = some st) :
    r.reserved = st.head.uploads.length := by
  rw [reserved, h, Option.elim_some]

theorem currentState_modify {r : Registry} {o : Nat} {f : RepoState → RepoState} :
    (∃ st, r.current = some o ∧ r.objects[o]? = some st ∧ r.currentState = some st ∧
      Registry.currentState { r with objects := r.objects.modify o f } = some (f st)) ∨
    ((r.current = some o → r.objects[o]? = none) ∧
      Registry.currentState { r with objects := r.objects.modify o f } = r.currentState) := by
  unfold currentState
  cases hc : r.current with
  | none => exact .inr ⟨fun h => (by cases h), rfl⟩
  | some c =>
    simp only [Option.bind_some, getElem?_modify]
    by_cases hco : o = c
    · subst hco
      cases hst : r.objects[o]? with
      | none => exact .inr ⟨fun _ => rfl, by simp⟩
      | some st => exact .inl ⟨st, rfl, rfl, rfl, by simp⟩
    · refine .inr ⟨fun h => absurd (Option.some.inj h).symm hco, ?_⟩
      cases r.objects[c]? <;> simp [hco]

theorem currentState_modifyHead {r : Registry} {o : Nat} {f : RepoHead → RepoHead} :
    (∃ st, r.current = some o ∧ r.objects[o]? = some st ∧ r.currentState = some st ∧
      (r.modifyHead o f).currentState = some { st with head := f st.head }) ∨
    ((r.current = some o → r.objects[o]? = none) ∧
      (r.modifyHead o f).currentState = r.currentState) :=
  currentState_modify

theorem currentState_modifyRate {r : Registry} {o : Nat} {f : RateWindow → RateWindow} :
    (∃ st, r.current = some o ∧ r.objects[o]? = some st ∧ r.currentState = some st ∧
      (r.modifyRate o f).currentState = some { st with rate := f st.rate }) ∨
    ((r.current = some o → r.objects[o]? = none) ∧
      (r.modifyRate o f).currentState = r.currentState) :=
  currentState_modify

theorem currentState_modify_current {o : Nat} {f : RepoState → RepoState} {st : RepoState}
    (hcur : r.current = some o) (hst : r.objects[o]? = some st) :
    Registry.currentState { r with objects := r.objects.modify o f } = some (f st) := by
  rcases @currentState_modify r o f with ⟨st', -, hst', -, hmod⟩ | ⟨hnone, -⟩
  · obtain rfl := Option.some.inj (hst.symm.trans hst')
    exact hmod
  · rw [hnone hcur] at hst
    cases hst

theorem currentState_repoState (r : Registry) :
    r.repoState.2.now = r.now ∧ r.repoState.2.log = r.log ∧
      (r.repoState.2.currentState = r.currentState ∨
        r.current = none ∧ r.repoState.2.currentState = some (recovered r.disk r.now)) := by
  unfold repoState
  cases hc : r.current with
  | some o => exact ⟨rfl, rfl, .inl rfl⟩
  | none => exact ⟨rfl, rfl, .inr ⟨rfl, by simp [currentState]⟩⟩

theorem currentState_restart (r : Registry) :
    r.restart.now = r.now ∧ (r.restart.currentState = none ∨
        r.restart.currentState = some (recovered r.disk r.now)) := by
  unfold restart
  dsimp only
  split
  · obtain ⟨hnow, -, hst | ⟨-, hst⟩⟩ :=
      currentState_repoState { r with current := none, worker := none }
    · exact ⟨hnow, .inl hst⟩
    · exact ⟨hnow, .inr hst⟩
  · exact ⟨rfl, .inl rfl⟩

end Registry

/-! ## Releasing reservations -/

/-- At most reservations of the current state went, or the state itself. -/
structure Releases (r r' : Registry) : Prop where
  now : r'.now = r.now
  accepted : r'.log.accepted = r.log.accepted
  state : ∀ st', r'.currentState = some st' → ∃ st, r.currentState = some st ∧
    st'.rate = st.rate ∧ st'.head.pending = st.head.pending ∧
    st'.head.uploads.length ≤ st.head.uploads.length

namespace Releases

variable {r : Registry}

theorem of_same {r' : Registry} (hnow : r'.now = r.now) (hlog : r'.log.accepted = r.log.accepted)
    (hst : r'.currentState = r.currentState) : Releases r r' :=
  ⟨hnow, hlog, fun st' h => ⟨st', hst ▸ h, rfl, rfl, Nat.le_refl _⟩⟩

theorem refl (r : Registry) : Releases r r := of_same rfl rfl rfl

theorem setDisk (r : Registry) (d : Disk) : Releases r (r.setDisk d) := of_same rfl rfl rfl

theorem modifyHead {o : Nat} {f : RepoHead → RepoHead} (hpending : ∀ h, (f h).pending = h.pending)
    (huploads : ∀ h, (f h).uploads.length ≤ h.uploads.length) : Releases r (r.modifyHead o f) := by
  refine ⟨rfl, rfl, fun st' h => ?_⟩
  rcases @Registry.currentState_modifyHead r o f with
    ⟨st, -, -, hst, hmod⟩ | ⟨-, hmod⟩
  · obtain rfl := Option.some.inj (hmod.symm.trans h)
    exact ⟨st, hst, rfl, hpending _, huploads _⟩
  · exact ⟨st', hmod.symm.trans h, rfl, rfl, Nat.le_refl _⟩

theorem reserved_le {r' : Registry} (h : Releases r r') : r'.reserved ≤ r.reserved := by
  cases hst' : r'.currentState with
  | none => simp [Registry.reserved, hst']
  | some st' =>
    obtain ⟨st, hst, -, -, hle⟩ := h.state st' hst'
    rw [Registry.reserved_of_state hst', Registry.reserved_of_state hst]
    exact hle

end Releases

theorem RepoHead.length_removeUpload_lt {h : RepoHead} {sha : String}
    (hsha : h.hasUpload sha = true) : (h.removeUpload sha).uploads.length < h.uploads.length := by
  obtain ⟨u, hu, heq⟩ := any_eq_true.mp hsha
  refine length_filter_lt_length_iff_exists.mpr ⟨u, hu, ?_⟩
  simpa using heq

theorem RepoHead.length_insertUpload_le (h : RepoHead) (sha : String) (now : Nat) :
    (h.insertUpload sha now).uploads.length ≤ h.uploads.length + 1 := by
  rw [RepoHead.insertUpload, length_append, length_singleton]
  exact Nat.succ_le_succ (length_filter_le _ _)

theorem RepoHead.expire_uploads (l : List String) (h : RepoHead) :
    (l.foldl RepoHead.removeUpload h).pending = h.pending ∧
      (l.foldl RepoHead.removeUpload h).uploads.length ≤ h.uploads.length := by
  induction l generalizing h with
  | nil => exact ⟨rfl, Nat.le_refl _⟩
  | cons a l ih =>
    obtain ⟨hpending, hle⟩ := ih (h.removeUpload a)
    exact ⟨hpending, hle.trans (length_filter_le _ _)⟩

theorem Releases.removeUpload (r : Registry) (o : Nat) (sha : String) :
    Releases r (r.modifyHead o fun h => h.removeUpload sha) :=
  .modifyHead (fun _ => rfl) fun _ => length_filter_le _ _

theorem Releases.expire (r : Registry) (o now : Nat) :
    Releases r (r.modifyHead o fun h => (h.expired now).foldl RepoHead.removeUpload h) :=
  .modifyHead (fun h => (RepoHead.expire_uploads (h.expired now) h).1)
    fun h => (RepoHead.expire_uploads (h.expired now) h).2

/-! ## Sections of a request -/

/-- The rate window has counted the request, which has neither a reservation nor an answer yet. -/
def Phase.granted : Phase → Bool
  | .reserve _ | .verify true | .finishState true | .finishHead _ => true
  | _ => false

/-- The completion is decided, and not refused for want of a slot. -/
def Phase.settled : Phase → Bool
  | .writeSig _ _ | .rename _ _ | .wake _ | .lost => true
  | .abandonState response | .abandonHead _ response | .abandonFile response | .done response =>
    response.status != 429
  | _ => false

/-- A completion under way, or decided in this way. -/
def Phase.closing : Phase → Bool
  | .takeReservation _ | .verify _ | .finishState _ | .finishRate _ | .finishHead _ => true
  | phase => phase.settled

inductive Advanced (cfg : RegistryConfig) (p : Put) (r : Registry) :
    Phase → Registry → Phase → Prop where
  | plain {phase phase' : Phase} {r' : Registry} (hr : Releases r r')
      (hto : phase'.granted = false) (hsettled : phase.closing = true → phase'.settled = true) :
      Advanced cfg p r phase r' phase'
  | begin : Advanced cfg p r .beginState r.repoState.2 (.expire r.repoState.1)
  | finish {reserved : Bool} :
      Advanced cfg p r (.finishState reserved) r.repoState.2
        (if reserved then .finishHead r.repoState.1 else .finishRate r.repoState.1)
  | grant {o : Nat} {st : RepoState} {phase phase' : Phase} (hst : r.objects[o]? = some st)
      (hroom : (st.rate.refresh r.now).count < cfg.maxPushesPerMinutePerRepo)
      (hphase : phase = .reserveRate o ∧ phase' = .reserve o ∨
        phase = .finishRate o ∧ phase' = .finishHead o) :
      Advanced cfg p r phase (r.modifyRate o fun _ => (st.rate.refresh r.now).bump) phase'
  | full {o : Nat} {st : RepoState} {phase phase' : Phase} (hst : r.objects[o]? = some st)
      (hphase : phase = .reserveRate o ∧ phase' = .done (.tooManyRequests 60) ∨
        phase = .finishRate o ∧ phase' = .abandonState (.tooManyRequests 60)) :
      Advanced cfg p r phase (r.modifyRate o fun _ => st.rate.refresh r.now) phase'
  | insert {o : Nat} {st : RepoState} (hst : r.objects[o]? = some st)
      (hroom : st.head.occupied < cfg.maxQueueDepthPerRepo) :
      Advanced cfg p r (.reserve o) (r.modifyHead o fun h => h.insertUpload p.sha r.now)
        .chunkLength
  | take {o : Nat} {st : RepoState} (hst : r.objects[o]? = some st) :
      Advanced cfg p r (.takeReservation o) (r.modifyHead o fun h => h.removeUpload p.sha)
        (.verify (st.head.hasUpload p.sha))
  | verified {reserved : Bool} : Advanced cfg p r (.verify reserved) r (.finishState reserved)
  | accept {o : Nat} {st : RepoState} (hst : r.objects[o]? = some st)
      (hroom : st.head.pending < cfg.maxQueueDepthPerRepo) :
      Advanced cfg p r (.finishHead o) (r.accept o p) (.writeSig o st.head.nextSeq)
  | refused {o : Nat} {st : RepoState} {response : Response} (hst : r.objects[o]? = some st)
      (hrefuse : refusal cfg st.head st.head.pending p = some response) :
      Advanced cfg p r (.finishHead o) r (.abandonState response)

section advanced

variable {cfg : RegistryConfig} {p : Put} {r : Registry}

theorem Advanced.withState {phase : Phase} {o : Nat} {f : RepoState → Registry × Phase}
    (hf : ∀ st, r.objects[o]? = some st → Advanced cfg p r phase (f st).1 (f st).2) :
    Advanced cfg p r phase (withState r o f).1 (withState r o f).2 := by
  rcases @withState_cases r o f with h | ⟨st, hst, h⟩
  · rw [h]
    exact .plain (.refl r) rfl fun _ => rfl
  · rw [h]
    exact hf st hst

theorem takeRate_cases {o : Nat} {st : RepoState} :
    (cfg.maxPushesPerMinutePerRepo ≤ (st.rate.refresh r.now).count ∧
      r.takeRate cfg o st = (false, r.modifyRate o fun _ => st.rate.refresh r.now)) ∨
    ((st.rate.refresh r.now).count < cfg.maxPushesPerMinutePerRepo ∧
      r.takeRate cfg o st = (true, r.modifyRate o fun _ => (st.rate.refresh r.now).bump)) := by
  unfold Registry.takeRate
  dsimp only
  split
  · exact .inl ⟨‹_›, rfl⟩
  · exact .inr ⟨Nat.lt_of_not_le ‹_›, rfl⟩

end advanced

theorem Put.advanced (cfg : RegistryConfig) (p : Put) (r : Registry) (phase : Phase) :
    Advanced cfg p r phase (p.advance cfg r phase).1 (p.advance cfg r phase).2 := by
  have early : ∀ {phase' : Phase} {r' : Registry}, Releases r r' → phase'.granted = false →
      phase.closing = false → Advanced cfg p r phase r' phase' :=
    fun hr hto hfrom => .plain hr hto fun h => by rw [hfrom] at h; cases h
  cases phase with
  | arrived =>
    dsimp only [Put.advance]
    split
    · exact early (.refl r) rfl rfl
    · split
      · exact early (.refl r) rfl rfl
      · exact early (.refl r) rfl rfl
  | beginState => exact .begin
  | expire o => exact .withState fun st _ => early (.expire r o r.now) rfl rfl
  | expireFiles o expired =>
    cases expired with
    | nil => exact early (.refl r) rfl rfl
    | cons sha rest => exact early (.setDisk r _) rfl rfl
  | reserveCheck o =>
    refine .withState fun st _ => ?_
    split
    · exact early (.refl r) rfl rfl
    · split
      · exact early (.refl r) rfl rfl
      · exact early (.refl r) rfl rfl
  | reserveRate o =>
    refine .withState fun st hst => ?_
    rcases @takeRate_cases cfg r o st with ⟨-, h⟩ | ⟨hroom, h⟩
    · rw [h]
      exact .full hst (.inl ⟨rfl, rfl⟩)
    · rw [h]
      exact .grant hst hroom (.inl ⟨rfl, rfl⟩)
  | reserve o =>
    refine .withState fun st hst => ?_
    split
    · exact early (.refl r) rfl rfl
    · exact .insert hst (refusal_pending ‹_›)
  | chunkLength =>
    dsimp only [Put.advance]
    split
    · exact early (.refl r) rfl rfl
    · split
      · exact early (.refl r) rfl rfl
      · exact early (.refl r) rfl rfl
  | chunkWrite =>
    dsimp only [Put.advance]
    split
    · exact early (.setDisk r _) rfl rfl
    · exact early (.setDisk r _) rfl rfl
  | takeState =>
    dsimp only [Put.advance]
    split
    · exact early (.refl r) rfl rfl
    · exact early (.refl r) rfl rfl
  | takeReservation o => exact .withState fun st hst => .take hst
  | verify reserved =>
    dsimp only [Put.advance]
    split
    · exact .verified
    · split
      · exact .plain (.refl r) rfl fun _ => rfl
      · split
        · exact .verified
        · exact .plain (.refl r) rfl fun _ => rfl
  | finishState reserved => exact .finish
  | finishRate o =>
    refine .withState fun st hst => ?_
    rcases @takeRate_cases cfg r o st with ⟨-, h⟩ | ⟨hroom, h⟩
    · rw [h]
      exact .full hst (.inr ⟨rfl, rfl⟩)
    · rw [h]
      exact .grant hst hroom (.inr ⟨rfl, rfl⟩)
  | finishHead o =>
    refine .withState fun st hst => ?_
    split
    · exact .refused hst ‹_›
    · exact .accept hst (refusal_pending ‹_›)
  | writeSig o seq =>
    dsimp only [Put.advance]
    split
    · exact .plain (.refl r) rfl fun _ => rfl
    · exact .plain (.setDisk r _) rfl fun _ => rfl
  | rename o seq =>
    dsimp only [Put.advance]
    split
    · exact .plain (.refl r) rfl fun _ => rfl
    · exact .plain (.of_same rfl rfl rfl) rfl fun _ => rfl
  | wake o => exact .plain (.of_same rfl rfl rfl) rfl fun _ => rfl
  | abandonState response =>
    dsimp only [Put.advance]
    split
    · exact .plain (.refl r) rfl id
    · exact .plain (.refl r) rfl id
  | abandonHead o response =>
    refine .withState fun st _ => ?_
    exact .plain (.removeUpload r o p.sha) rfl id
  | abandonFile response => exact .plain (.setDisk r _) rfl id
  | done response => exact .plain (.refl r) rfl id
  | lost => exact .plain (.refl r) rfl id

/-! ## The other steps -/

theorem Registry.workerStep_releases {r r' : Registry} {w : Worker} {ok : Bool}
    {phase : WorkerPhase} (hs : r.workerStep w ok = some (r', phase)) :
    Releases r r' ∨
      ∃ rest, w.phase = .decrement rest ∧ r' = r.modifyHead w.state RepoHead.decrement := by
  unfold Registry.workerStep at hs
  generalize w.phase = p at hs ⊢
  cases p with
  | decrement rest =>
    cases hs
    exact .inr ⟨rest, rfl, rfl⟩
  | exit =>
    cases hs
    exact .inl ⟨rfl, rfl, fun st' h => by cases h⟩
  | scan => cases hs
  | recv =>
    dsimp only at hs
    split at hs <;> cases hs
    exact .inl (.refl r)
  | readJob job rest | copySig job rest =>
    dsimp only at hs
    split at hs <;> cases hs <;> exact .inl (.of_same rfl rfl rfl)
  | _ =>
    cases ok <;> cases hs <;> exact .inl (.of_same rfl rfl rfl)

theorem Phase.granted_drop (phase : Phase) : phase.drop.granted = false := by
  cases phase <;> rfl

end WeaveGraph.Hub
