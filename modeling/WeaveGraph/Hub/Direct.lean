import WeaveGraph.Hub.Client
import WeaveGraph.Hub.Completion

/-!
# A push in one call

`Registry::push` reserves, spools and completes an upload in one call.  Here it is a function of the
repository, of its state in memory and its files, and every step of it is one of the steps a request
takes (`push_reaches`).  The id of the repository is taken to be a safe file name, and the clock to
stand still within a call.

A push whose signature does not verify is meant to leave no trace.  Its reservation, its upload and
its place in the queue are undone, the slot it took of the rate limit is not:

    a forged push leaves no trace  ↔  it is turned away before its signature is read
                                                            (push_leavesNoTrace_iff)
-/

namespace WeaveGraph.Hub

open List

/-! ## Decisions -/

inductive PushDecision where
  | accepted
  | conflict
  | rateLimited (retryAfterSecs : Nat)
  | signatureInvalid
deriving Repr, DecidableEq

/-- The errors of a call, without their texts. -/
inductive PushError where
  | unsafePath
  | offsetMismatch (expected got : Nat)
  | tooLarge
  | notFound
deriving Repr, DecidableEq

/-- A repository between two calls; it has no state in memory before the first. -/
structure Repo where
  state : Option RepoState
  disk : Disk

section calls

variable (cfg : RegistryConfig) (now : Nat)

/-- What `refusal` answers with, as a decision. -/
def refuse (h : RepoHead) (depth : Nat) (baseSha : Option String) : Option PushDecision :=
  if depth ≥ cfg.maxQueueDepthPerRepo then some (.rateLimited 5)
  else if h.conflicts baseSha then some .conflict
  else none

/-- The head without the reservations that have expired. -/
def RepoHead.live (h : RepoHead) : RepoHead := (h.expired now).foldl RepoHead.removeUpload h

namespace Repo

def repoState (x : Repo) : RepoState × Disk :=
  match x.state with
  | some st => (st, x.disk)
  | none => (Registry.recovered x.disk now, { x.disk with spoolDir := true })

def expireUploads (st : RepoState) (d : Disk) : RepoState × Disk :=
  ({ st with head := st.head.live now },
    (st.head.expired now).foldl (fun d sha => d.setUpload sha none) d)

/-- The sections under a lock of `begin_upload`: the head is checked before and after the rate. -/
def reserve (st : RepoState) (targetSha : String) (baseSha : Option String) :
    PushDecision × RepoState :=
  if st.head.hasUpload targetSha then (.accepted, st)
  else
    match refuse cfg st.head st.head.occupied baseSha with
    | some decision => (decision, st)
    | none =>
      let window := st.rate.refresh now
      if window.count ≥ cfg.maxPushesPerMinutePerRepo then
        (.rateLimited 60, { st with rate := window })
      else
        match refuse cfg st.head st.head.occupied baseSha with
        | some decision => (decision, { st with rate := window.bump })
        | none => (.accepted, ⟨st.head.insertUpload targetSha now, window.bump⟩)

def beginUpload (x : Repo) (targetSha : String) (baseSha : Option String) :
    Except PushError PushDecision × Repo :=
  if !isSafePathComponent targetSha then (.error .unsafePath, x)
  else
    let (st, d) := x.repoState now
    let (st, d) := expireUploads now st d
    let (decision, st) := reserve cfg now st targetSha baseSha
    (.ok decision, ⟨some st, d⟩)

def release (x : Repo) (targetSha : String) : Repo :=
  { x with state := x.state.map fun st => { st with head := st.head.removeUpload targetSha } }

def abandonUpload (x : Repo) (targetSha : String) : Repo :=
  if !isSafePathComponent targetSha then x
  else { x.release targetSha with disk := x.disk.setUpload targetSha none }

def spoolChunk (x : Repo) (targetSha : String) (startOffset : Nat) (chunk : Bytes) :
    Except PushError Nat × Repo :=
  let existingLen := x.disk.spoolOffset targetSha
  if !isSafePathComponent targetSha then (.error .unsafePath, x)
  else if startOffset ≠ 0 ∧ existingLen ≠ startOffset then
    (.error (.offsetMismatch existingLen startOffset), x)
  else if startOffset + chunk.length > cfg.maxSnapshotBytes then (.error .tooLarge, x)
  else
    let d := x.disk.appendChunk targetSha startOffset chunk
    (.ok (d.spoolOffset targetSha), { x with disk := d })

def verifyUpload (d : Disk) (c : Push) : Except PushError Bool :=
  match cfg.provenanceVerifier with
  | none => .ok true
  | some verified =>
    match d.uploads c.targetCommitSha with
    | none => .error .notFound
    | some payload => .ok (verified c.targetCommitSha payload c.signature)

/-- `finish_upload` once the head has advanced. -/
def spoolJob (st : RepoState) (d : Disk) (c : Push) : Except PushError PushDecision × Repo :=
  let job : SpoolJob := ⟨st.head.nextSeq, c.targetCommitSha, c.retention⟩
  let st := { st with head := st.head.advance c.targetCommitSha }
  let d := c.signature.elim d fun sig => d.setJobSig job (some sig)
  match d.uploads c.targetCommitSha with
  | none => (.error .notFound, ⟨some st, d⟩)
  | some bytes => (.ok .accepted, ⟨some st, d.addJob job bytes⟩)

/-- `finish_upload` from its head section on. -/
def admitPush (st : RepoState) (d : Disk) (c : Push) : Except PushError PushDecision × Repo :=
  match refuse cfg st.head st.head.pending c.baseCommitSha with
  | some decision => (.ok decision, ⟨some st, d⟩)
  | none => spoolJob st d c

/-- `finish_upload` behind the verification. -/
def enqueue (st : RepoState) (d : Disk) (c : Push) (reserved : Bool) :
    Except PushError PushDecision × Repo :=
  let window := st.rate.refresh now
  if reserved then admitPush cfg st d c
  else if window.count ≥ cfg.maxPushesPerMinutePerRepo then
    (.ok (.rateLimited 60), ⟨some { st with rate := window }, d⟩)
  else admitPush cfg { st with rate := window.bump } d c

def finishUpload (x : Repo) (c : Push) (reserved : Bool) : Except PushError PushDecision × Repo :=
  if !isSafePathComponent c.targetCommitSha then (.error .unsafePath, x)
  else
    match verifyUpload cfg x.disk c with
    | .error e => (.error e, x)
    | .ok false => (.ok .signatureInvalid, x)
    | .ok true => enqueue cfg now (x.repoState now).1 (x.repoState now).2 c reserved

def pushComplete (x : Repo) (c : Push) : Except PushError PushDecision × Repo :=
  let reserved := x.state.any fun st => st.head.hasUpload c.targetCommitSha
  let (result, y) := (x.release c.targetCommitSha).finishUpload cfg now c reserved
  (result, if result = .ok .accepted then y else y.abandonUpload c.targetCommitSha)

/-- `push` behind its reservation. -/
def spoolWhole (x : Repo) (c : Push) : Except PushError PushDecision × Repo :=
  match x.spoolChunk cfg c.targetCommitSha 0 c.payload with
  | (.error e, y) => (.error e, y.abandonUpload c.targetCommitSha)
  | (.ok _, y) => y.pushComplete cfg now c

/-- `Registry::push`, at one instant of the clock. -/
def push (x : Repo) (c : Push) : Except PushError PushDecision × Repo :=
  match x.beginUpload cfg now c.targetCommitSha c.baseCommitSha with
  | (.ok .accepted, y) => y.spoolWhole cfg now c
  | refused => refused

end Repo

end calls

/-! ## The steps of a call -/

def PushDecision.response : PushDecision → Response
  | .accepted => .plain 202
  | .conflict => .plain 409
  | .rateLimited secs => .tooManyRequests secs
  | .signatureInvalid => .plain 400

def answer : Except PushError PushDecision → Response
  | .ok decision => decision.response
  | .error _ => .plain 500

/-- The push as a request of one chunk. -/
def Push.whole (c : Push) : Put where
  sha := c.targetCommitSha
  baseSha := c.baseCommitSha
  retention := c.retention
  signature := c.signature
  start := 0
  stop := c.total - 1
  total := c.total
  body := c.payload

def Put.Reaches (cfg : RegistryConfig) (p : Put) : Registry × Phase → Registry × Phase → Prop :=
  Relation.ReflTransGen fun a b => b = p.advance cfg a.1 a.2

/-- The current state is the object `o`, which holds `st`, next to the files `d`. -/
structure Registry.At (r : Registry) (now o : Nat) (st : RepoState) (d : Disk) : Prop where
  now : r.now = now
  current : r.current = some o
  object : r.objects[o]? = some st
  disk : r.disk = d

namespace Registry.At

variable {r : Registry} {now o : Nat} {st : RepoState} {d : Disk}

section

variable (h : r.At now o st d)

include h

theorem modifyHead (f : RepoHead → RepoHead) :
    (r.modifyHead o f).At now o { st with head := f st.head } d where
  now := h.now
  current := h.current
  object := by
    rw [Registry.modifyHead, getElem?_modify_eq, h.object]
    rfl
  disk := h.disk

theorem modifyRate (f : RateWindow → RateWindow) :
    (r.modifyRate o f).At now o { st with rate := f st.rate } d where
  now := h.now
  current := h.current
  object := by
    rw [Registry.modifyRate, getElem?_modify_eq, h.object]
    rfl
  disk := h.disk

theorem setDisk (d' : Disk) : (r.setDisk d').At now o st d' :=
  ⟨h.now, h.current, h.object, rfl⟩

theorem withState (f : RepoState → Registry × Phase) : withState r o f = f st := by
  unfold Hub.withState
  rw [h.object]

theorem repoState : r.repoState = (o, r) := current_of_repoState h.current

end

end Registry.At

theorem not_not_safe {sha : String} (hsafe : isSafePathComponent sha = true) :
    ¬ (!isSafePathComponent sha) = true := by
  simp [hsafe]

theorem refusal_eq (cfg : RegistryConfig) (h : RepoHead) (depth : Nat) (p : Put) :
    refusal cfg h depth p = (refuse cfg h depth p.baseSha).map PushDecision.response := by
  unfold refusal refuse
  split
  · rfl
  · split <;> rfl

variable {cfg : RegistryConfig} {h : RepoHead} {depth : Nat} {baseSha : Option String}
  {decision : PushDecision}

theorem refuse_eq_some (hrefuse : refuse cfg h depth baseSha = some decision) :
    (decision = .rateLimited 5 ∧ cfg.maxQueueDepthPerRepo ≤ depth) ∨
      (decision = .conflict ∧ h.conflicts baseSha = true) := by
  unfold refuse at hrefuse
  split at hrefuse
  · rename_i hfull
    exact .inl ⟨(Option.some.inj hrefuse).symm, hfull⟩
  · split at hrefuse
    · rename_i hconflict
      exact .inr ⟨(Option.some.inj hrefuse).symm, hconflict⟩
    · cases hrefuse

theorem refuse_eq_none (hrefuse : refuse cfg h depth baseSha = none) :
    depth < cfg.maxQueueDepthPerRepo ∧ h.conflicts baseSha = false := by
  unfold refuse at hrefuse
  split at hrefuse
  · cases hrefuse
  · rename_i hfull
    split at hrefuse
    · cases hrefuse
    · rename_i hconflict
      exact ⟨Nat.lt_of_not_le hfull, Bool.eq_false_iff.mpr hconflict⟩

theorem ne_accepted_of_refuse (hrefuse : refuse cfg h depth baseSha = some decision) :
    decision ≠ .accepted := by
  rcases refuse_eq_some hrefuse with ⟨rfl, -⟩ | ⟨rfl, -⟩ <;> exact PushDecision.noConfusion

section phases

variable {cfg : RegistryConfig} {p : Put} {r : Registry} {now o : Nat} {st : RepoState} {d : Disk}

variable {b : Registry × Phase} {decision : PushDecision}

theorem Put.Reaches.advance {phase : Phase} (h : p.Reaches cfg (p.advance cfg r phase) b) :
    p.Reaches cfg (r, phase) b :=
  Relation.ReflTransGen.head rfl h

theorem Put.Reaches.trans {a e : Registry × Phase} (hab : p.Reaches cfg a b)
    (hbe : p.Reaches cfg b e) : p.Reaches cfg a e :=
  Relation.ReflTransGen.trans hab hbe

variable (cfg p)

theorem reaches_abandon (h : r.At now o st d) (response : Response) :
    ∃ r', p.Reaches cfg (r, .abandonState response) (r', .done response) ∧
      r'.At now o { st with head := st.head.removeUpload p.sha } (d.setUpload p.sha none) := by
  have hreleased := h.modifyHead fun x => x.removeUpload p.sha
  refine ⟨_, .advance ?_, hreleased.setDisk (d.setUpload p.sha none)⟩
  simp only [Put.advance, h.current]
  refine .advance ?_
  simp only [Put.advance, h.withState]
  refine .advance ?_
  simp only [Put.advance, hreleased.disk]
  exact .refl

theorem reaches_expireFiles (expired : List String) (h : r.At now o st d) :
    ∃ r', p.Reaches cfg (r, .expireFiles o expired) (r', .reserveCheck o) ∧
      r'.At now o st (expired.foldl (fun d sha => d.setUpload sha none) d) := by
  induction expired generalizing r d with
  | nil => exact ⟨r, .advance .refl, h⟩
  | cons sha expired ih =>
    obtain ⟨r', hreach, hat⟩ := ih (h.setDisk (d.setUpload sha none))
    refine ⟨r', .advance ?_, hat⟩
    simp only [Put.advance, h.disk]
    exact hreach

theorem reaches_expire (h : r.At now o st d) :
    ∃ r', p.Reaches cfg (r, .expire o) (r', .reserveCheck o) ∧
      r'.At now o (Repo.expireUploads now st d).1 (Repo.expireUploads now st d).2 := by
  have hlive := h.modifyHead (RepoHead.live now)
  obtain ⟨r', hreach, hat⟩ := reaches_expireFiles cfg p (st.head.expired now) hlive
  refine ⟨r', .advance ?_, hat⟩
  simp only [Put.advance, h.withState, h.now]
  exact hreach

/-- Where a request stands after `begin_upload`. -/
def PushDecision.begun : PushDecision → Phase
  | .accepted => .chunkLength
  | decision => .done decision.response

theorem PushDecision.begun_of_ne (h : decision ≠ .accepted) :
    decision.begun = .done decision.response := by
  cases decision with
  | accepted => exact absurd rfl h
  | _ => rfl

theorem reaches_reserve (h : r.At now o st d) :
    ∃ r', p.Reaches cfg (r, .reserveCheck o)
        (r', (Repo.reserve cfg now st p.sha p.baseSha).1.begun) ∧
      r'.At now o (Repo.reserve cfg now st p.sha p.baseSha).2 d := by
  unfold Repo.reserve
  by_cases hhas : st.head.hasUpload p.sha = true
  · rw [if_pos hhas]
    refine ⟨r, .advance ?_, h⟩
    simp only [Put.advance, h.withState, if_pos hhas]
    exact .refl
  rw [if_neg hhas]
  cases hrefuse : refuse cfg st.head st.head.occupied p.baseSha with
  | some decision =>
    refine ⟨r, .advance ?_, h⟩
    simp only [Put.advance, h.withState, if_neg hhas, refusal_eq, hrefuse, Option.map_some,
      PushDecision.begun_of_ne (ne_accepted_of_refuse hrefuse)]
    exact .refl
  | none =>
    by_cases hfull : (st.rate.refresh now).count ≥ cfg.maxPushesPerMinutePerRepo
    · rw [if_pos hfull]
      refine ⟨_, .advance ?_, h.modifyRate fun _ => st.rate.refresh now⟩
      simp only [Put.advance, h.withState, if_neg hhas, refusal_eq, hrefuse, Option.map_none]
      refine .advance ?_
      simp only [Put.advance, h.withState, Registry.takeRate, h.now, if_pos hfull]
      exact .refl
    · rw [if_neg hfull]
      have hrate := h.modifyRate fun _ => (st.rate.refresh now).bump
      refine ⟨_, .advance ?_, hrate.modifyHead fun x => x.insertUpload p.sha now⟩
      simp only [Put.advance, h.withState, if_neg hhas, refusal_eq, hrefuse, Option.map_none]
      refine .advance ?_
      simp only [Put.advance, h.withState, Registry.takeRate, h.now, if_neg hfull]
      refine .advance ?_
      simp only [Put.advance, hrate.withState, refusal_eq, hrefuse, Option.map_none, hrate.now]
      exact .refl

/-- Where a request stands after `finish_upload`. -/
def finished (result : Except PushError PushDecision) : Phase :=
  if result = .ok .accepted then .done (answer result) else .abandonState (answer result)

def Registry.Shows (r : Registry) (now : Nat) (x : Repo) : Prop :=
  ∃ o st, x.state = some st ∧ r.At now o st x.disk

theorem shows_abandonUpload {sha : String} {x : Repo} (hsafe : isSafePathComponent sha = true)
    (hstate : x.state = some st)
    (h : r.At now o { st with head := st.head.removeUpload sha } (x.disk.setUpload sha none)) :
    r.Shows now (x.abandonUpload sha) := by
  unfold Repo.abandonUpload Repo.release
  rw [if_neg (not_not_safe hsafe), hstate]
  exact ⟨o, _, rfl, h⟩

theorem finished_of_ne (h : decision ≠ .accepted) :
    finished (.ok decision) = .abandonState decision.response :=
  if_neg fun he => h (Except.ok.inj he)

end phases

section completion

variable (cfg : RegistryConfig) (c : Push) {r : Registry} {now o : Nat} {st : RepoState} {d : Disk}

theorem reaches_writeSig (h : r.At now o st d) (seq : Nat) :
    ∃ r', c.whole.Reaches cfg (r, .writeSig o seq) (r', .rename o seq) ∧
      r'.At now o st (c.signature.elim d fun sig => d.setJobSig (c.whole.job seq) (some sig)) := by
  have hsignature : c.whole.signature = c.signature := rfl
  cases hsig : c.signature with
  | none =>
    refine ⟨r, .advance ?_, h⟩
    simp only [Put.advance, hsignature, hsig]
    exact .refl
  | some sig =>
    refine ⟨_, .advance ?_, h.setDisk (d.setJobSig (c.whole.job seq) (some sig))⟩
    simp only [Put.advance, hsignature, hsig, h.disk]
    exact .refl

theorem reaches_spoolJob (h : r.At now o st d)
    (hrefuse : refuse cfg st.head st.head.pending c.baseCommitSha = none) :
    ∃ r', c.whole.Reaches cfg (r, .finishHead o) (r', finished (Repo.spoolJob st d c).1) ∧
      r'.Shows now (Repo.spoolJob st d c).2 := by
  have haccepted : (r.accept o c.whole).At now o
      { st with head := st.head.advance c.targetCommitSha } d := by
    have hadvance := h.modifyHead fun x => x.advance c.targetCommitSha
    exact ⟨hadvance.now, hadvance.current, hadvance.object, hadvance.disk⟩
  obtain ⟨r', hreach, hat⟩ := reaches_writeSig cfg c haccepted st.head.nextSeq
  have hrename : c.whole.Reaches cfg (r, .finishHead o) (r', .rename o st.head.nextSeq) := by
    refine .advance ?_
    have hbase : c.whole.baseSha = c.baseCommitSha := rfl
    simp only [Put.advance, h.withState, refusal_eq, hbase, hrefuse, Option.map_none]
    exact hreach
  unfold Repo.spoolJob
  dsimp only
  cases hupload : (c.signature.elim d fun sig =>
      d.setJobSig ⟨st.head.nextSeq, c.targetCommitSha, c.retention⟩ (some sig)).uploads
        c.targetCommitSha with
  | none =>
    refine ⟨r', hrename.trans (.advance ?_), o, _, rfl, hat⟩
    have hgone : r'.disk.uploads c.whole.sha = none := hat.disk ▸ hupload
    simp only [Put.advance, hgone]
    exact .refl
  | some bytes =>
    have hfound : r'.disk.uploads c.whole.sha = some bytes := hat.disk ▸ hupload
    refine ⟨((r'.spool (c.whole.job st.head.nextSeq) bytes).sendWake o),
      hrename.trans (.advance ?_), o, _, rfl, ?_⟩
    · simp only [Put.advance, hfound]
      exact .advance .refl
    · exact ⟨hat.now, hat.current, hat.object,
        congrArg (fun d : Disk => d.addJob (c.whole.job st.head.nextSeq) bytes) hat.disk⟩

theorem reaches_finishHead (h : r.At now o st d) :
    ∃ r', c.whole.Reaches cfg (r, .finishHead o) (r', finished (Repo.admitPush cfg st d c).1) ∧
      r'.Shows now (Repo.admitPush cfg st d c).2 := by
  unfold Repo.admitPush
  cases hrefuse : refuse cfg st.head st.head.pending c.baseCommitSha with
  | none => exact reaches_spoolJob cfg c h hrefuse
  | some decision =>
    refine ⟨r, .advance ?_, o, st, rfl, h⟩
    have hbase : c.whole.baseSha = c.baseCommitSha := rfl
    simp only [Put.advance, h.withState, refusal_eq, hbase, hrefuse, Option.map_some,
      finished_of_ne (ne_accepted_of_refuse hrefuse)]
    exact .refl

theorem reaches_enqueue (h : r.At now o st d) (reserved : Bool) :
    ∃ r', c.whole.Reaches cfg (r, .finishState reserved)
        (r', finished (Repo.enqueue cfg now st d c reserved).1) ∧
      r'.Shows now (Repo.enqueue cfg now st d c reserved).2 := by
  unfold Repo.enqueue
  cases reserved with
  | true =>
    obtain ⟨r', hreach, hshows⟩ := reaches_finishHead cfg c h
    refine ⟨r', .advance ?_, hshows⟩
    simp only [Put.advance, h.repoState, if_true]
    exact hreach
  | false =>
    by_cases hfull : (st.rate.refresh now).count ≥ cfg.maxPushesPerMinutePerRepo
    · rw [if_neg Bool.false_ne_true, if_pos hfull]
      refine ⟨_, .advance ?_, o, _, rfl, h.modifyRate fun _ => st.rate.refresh now⟩
      simp only [Put.advance, h.repoState, Bool.false_eq_true, if_false]
      refine .advance ?_
      simp only [Put.advance, h.withState, Registry.takeRate, h.now, if_pos hfull]
      exact .refl
    · rw [if_neg Bool.false_ne_true, if_neg hfull]
      have hrate := h.modifyRate fun _ => (st.rate.refresh now).bump
      obtain ⟨r', hreach, hshows⟩ := reaches_finishHead cfg c hrate
      refine ⟨r', .advance ?_, hshows⟩
      simp only [Put.advance, h.repoState, Bool.false_eq_true, if_false]
      refine .advance ?_
      simp only [Put.advance, h.withState, Registry.takeRate, h.now, if_neg hfull]
      exact hreach

theorem reaches_finishUpload (h : r.At now o st d) (reserved : Bool)
    (hsafe : isSafePathComponent c.targetCommitSha = true) :
    ∃ r', c.whole.Reaches cfg (r, .verify reserved)
        (r', finished (Repo.finishUpload cfg now ⟨some st, d⟩ c reserved).1) ∧
      r'.Shows now (Repo.finishUpload cfg now ⟨some st, d⟩ c reserved).2 := by
  unfold Repo.finishUpload
  rw [if_neg (not_not_safe hsafe)]
  obtain ⟨r', hreach, hshows⟩ := reaches_enqueue cfg c h reserved
  unfold Repo.verifyUpload
  cases hverifier : cfg.provenanceVerifier with
  | none =>
    refine ⟨r', .advance ?_, hshows⟩
    simp only [Put.advance, hverifier]
    exact hreach
  | some verified =>
    cases hupload : d.uploads c.targetCommitSha with
    | none =>
      have hgone : r.disk.uploads c.whole.sha = none := h.disk ▸ hupload
      refine ⟨r, .advance ?_, o, st, rfl, h⟩
      simp only [Put.advance, hverifier, hgone]
      exact .refl
    | some payload =>
      have hfound : r.disk.uploads c.whole.sha = some payload := h.disk ▸ hupload
      dsimp only
      cases hverified : verified c.targetCommitSha payload c.signature with
      | false =>
        have hforged : ¬ verified c.whole.sha payload c.whole.signature = true :=
          Bool.not_eq_true _ ▸ hverified
        refine ⟨r, .advance ?_, o, st, rfl, h⟩
        simp only [Put.advance, hverifier, hfound, if_neg hforged]
        exact .refl
      | true =>
        have hgenuine : verified c.whole.sha payload c.whole.signature = true := hverified
        refine ⟨r', .advance ?_, hshows⟩
        simp only [Put.advance, hverifier, hfound, if_pos hgenuine]
        exact hreach

theorem reaches_pushComplete (h : r.At now o st d)
    (hsafe : isSafePathComponent c.targetCommitSha = true) :
    ∃ r', c.whole.Reaches cfg (r, .takeState)
        (r', .done (answer (Repo.pushComplete cfg now ⟨some st, d⟩ c).1)) ∧
      r'.Shows now (Repo.pushComplete cfg now ⟨some st, d⟩ c).2 := by
  have htaken := h.modifyHead fun x => x.removeUpload c.targetCommitSha
  have hreserved : c.whole.Reaches cfg (r, .takeState)
      (r.modifyHead o fun x => x.removeUpload c.targetCommitSha,
        .verify (st.head.hasUpload c.targetCommitSha)) := by
    refine .advance ?_
    simp only [Put.advance, h.current]
    refine .advance ?_
    simp only [Put.advance, h.withState]
    exact .refl
  obtain ⟨r', hreach, o', st', hstate, hat⟩ :=
    reaches_finishUpload cfg c htaken (st.head.hasUpload c.targetCommitSha) hsafe
  have hend := hreserved.trans hreach
  have hcomplete : Repo.pushComplete cfg now ⟨some st, d⟩ c =
      let result := Repo.finishUpload cfg now
        ⟨some { st with head := st.head.removeUpload c.targetCommitSha }, d⟩ c
        (st.head.hasUpload c.targetCommitSha)
      (result.1,
        if result.1 = .ok .accepted then result.2 else result.2.abandonUpload c.targetCommitSha) :=
    rfl
  rw [hcomplete]
  dsimp only
  generalize Repo.finishUpload cfg now
    ⟨some { st with head := st.head.removeUpload c.targetCommitSha }, d⟩ c
    (st.head.hasUpload c.targetCommitSha) = result at hend hstate hat ⊢
  unfold finished at hend
  by_cases haccepted : result.1 = .ok .accepted
  · rw [if_pos haccepted] at hend ⊢
    exact ⟨r', hend, o', st', hstate, hat⟩
  · rw [if_neg haccepted] at hend ⊢
    obtain ⟨r'', habandon, hat'⟩ := reaches_abandon cfg c.whole hat (answer result.1)
    refine ⟨r'', hend.trans habandon, ?_⟩
    exact shows_abandonUpload hsafe hstate hat'

theorem reaches_spoolChunk (h : r.At now o st d)
    (hsafe : isSafePathComponent c.targetCommitSha = true) :
    ∃ r', c.whole.Reaches cfg (r, .chunkLength)
        (r', .done (answer (Repo.spoolWhole cfg now ⟨some st, d⟩ c).1)) ∧
      r'.Shows now (Repo.spoolWhole cfg now ⟨some st, d⟩ c).2 := by
  have hstart : c.whole.start = 0 := rfl
  have hbody : c.whole.body = c.payload := rfl
  unfold Repo.spoolWhole Repo.spoolChunk
  rw [if_neg (not_not_safe hsafe), if_neg (fun h => h.1 rfl)]
  by_cases hlarge : 0 + c.payload.length > cfg.maxSnapshotBytes
  · rw [if_pos hlarge]
    obtain ⟨r', hreach, hat⟩ := reaches_abandon cfg c.whole h (.plain 500)
    refine ⟨r', .advance ?_, shows_abandonUpload hsafe rfl hat⟩
    simp only [Put.advance, hstart, hbody, ne_eq, not_true_eq_false, false_and, if_false,
      if_pos hlarge]
    exact hreach
  · rw [if_neg hlarge]
    obtain ⟨r', hreach, hshows⟩ := reaches_pushComplete cfg c
      (h.setDisk (d.appendChunk c.targetCommitSha 0 c.payload)) hsafe
    refine ⟨r', .advance ?_, hshows⟩
    simp only [Put.advance, hstart, hbody, ne_eq, not_true_eq_false, false_and, if_false,
      if_neg hlarge]
    refine .advance ?_
    have hfinal : c.whole.final = true := decide_eq_true (Nat.le_add_left _ _)
    simp only [Put.advance, hfinal, if_true, h.disk]
    exact hreach

structure Registry.Holds (r : Registry) (now : Nat) (x : Repo) : Prop where
  now : r.now = now
  state : (r.current.map fun o => r.objects[o]?) = x.state.map some
  disk : r.disk = x.disk

variable {x : Repo}

theorem Registry.Shows.holds (h : r.Shows now x) : r.Holds now x := by
  obtain ⟨o, st, hstate, hat⟩ := h
  refine ⟨hat.now, ?_, hat.disk⟩
  rw [hat.current, hstate, Option.map_some, Option.map_some, hat.object]

theorem Registry.Holds.repoState (h : r.Holds now x) :
    r.repoState.2.At now r.repoState.1 (x.repoState now).1 (x.repoState now).2 := by
  have hstate := h.state
  unfold Registry.repoState Repo.repoState
  cases hcurrent : r.current with
  | none =>
    rw [hcurrent, Option.map_none] at hstate
    rw [Option.map_eq_none_iff.mp hstate.symm]
    refine ⟨h.now, rfl, ?_, ?_⟩
    · rw [getElem?_concat_length, h.disk, h.now]
    · rw [h.disk]
  | some o =>
    rw [hcurrent, Option.map_some] at hstate
    obtain ⟨st, hst, hobject⟩ := Option.map_eq_some_iff.mp hstate.symm
    rw [hst]
    exact ⟨h.now, hcurrent, hobject.symm, h.disk⟩

/-- **A push in one call takes the steps of a request**, one after another. -/
theorem push_reaches (h : r.Holds now x) (hsafe : isSafePathComponent c.targetCommitSha = true) :
    ∃ r', c.whole.Reaches cfg (r, .beginState) (r', .done (answer (x.push cfg now c).1)) ∧
      r'.Holds now (x.push cfg now c).2 := by
  obtain ⟨r₁, hexpire, hlive⟩ := reaches_expire cfg c.whole h.repoState
  obtain ⟨r₂, hreserve, hat⟩ := reaches_reserve cfg c.whole hlive
  have hbegin : c.whole.Reaches cfg (r, .beginState) _ := .advance (hexpire.trans hreserve)
  unfold Repo.push Repo.beginUpload
  rw [if_neg (not_not_safe hsafe)]
  dsimp only
  have hsha : c.whole.sha = c.targetCommitSha := rfl
  have hbase : c.whole.baseSha = c.baseCommitSha := rfl
  rw [hsha, hbase] at hbegin hat
  generalize Repo.reserve cfg now _ c.targetCommitSha c.baseCommitSha = result at hbegin hat ⊢
  obtain ⟨decision, st⟩ := result
  cases decision with
  | accepted =>
    obtain ⟨r₃, hspool, hshows⟩ := reaches_spoolChunk cfg c hat hsafe
    exact ⟨r₃, hbegin.trans hspool, hshows.holds⟩
  | _ => exact ⟨r₂, hbegin, Registry.Shows.holds ⟨_, st, rfl, hat⟩⟩

end completion

theorem push_reaches_fresh :
    let c : Push := ⟨"a", none, 20, none, [1]⟩
    let x : Repo := ⟨none, .empty⟩
    let result := x.push smallHub 0 c
    ∃ r', c.whole.Reaches smallHub (.empty, .beginState) (r', .done (answer result.1)) ∧
      r'.Holds 0 result.2 :=
  push_reaches smallHub _ ⟨rfl, rfl, rfl⟩ (by decide)

/-! ## Forged pushes -/

section forged

variable (cfg : RegistryConfig) (now : Nat)

/-- Head, next sequence number, pending count, reservations, the count of the rate window and the
job files are the same. -/
structure Repo.LeavesNoTrace (x y : Repo) : Prop where
  head : (y.repoState now).1.head = (x.repoState now).1.head
  rate : ((y.repoState now).1.rate.refresh now).count =
    ((x.repoState now).1.rate.refresh now).count
  jobs : y.disk.jobs = x.disk.jobs
  jobSigs : y.disk.jobSigs = x.disk.jobSigs

/-- The head once expired reservations are gone. -/
def Repo.liveHead (x : Repo) : RepoHead := (x.repoState now).1.head.live now

/-- The sha is no file name, the queue is full, the head has moved on, the window has no slot left,
or the payload is too large. -/
def Repo.TurnedAway (x : Repo) (c : Push) : Prop :=
  isSafePathComponent c.targetCommitSha = false ∨
    cfg.maxQueueDepthPerRepo ≤ (x.liveHead now).occupied ∨
    (x.liveHead now).conflicts c.baseCommitSha = true ∨
    cfg.maxPushesPerMinutePerRepo ≤ ((x.repoState now).1.rate.refresh now).count ∨
    cfg.maxSnapshotBytes < c.payload.length

variable {h : RepoHead}

theorem RepoHead.removeUpload_of_not {sha : String} (hidle : h.hasUpload sha = false) :
    h.removeUpload sha = h := by
  unfold RepoHead.removeUpload
  rw [filter_eq_self.mpr]
  intro u hu
  have hne := any_eq_false.mp hidle u hu
  simpa using hne

theorem RepoHead.removeUpload_insertUpload {sha : String} (hidle : h.hasUpload sha = false) :
    (h.insertUpload sha now).removeUpload sha = h := by
  have hkept : (h.uploads.filter fun u => u.1 ≠ sha) = h.uploads :=
    congrArg RepoHead.uploads (RepoHead.removeUpload_of_not hidle)
  unfold RepoHead.removeUpload RepoHead.insertUpload
  rw [filter_append, hkept, hkept]
  simp

theorem RateWindow.refresh_bump (w : RateWindow) :
    ((w.refresh now).bump.refresh now).count = (w.refresh now).count + 1 := by
  by_cases hover : now - w.windowStart ≥ 60 * second
  · have hnew : ¬ now - now ≥ 60 * second := by rw [Nat.sub_self]; decide
    simp only [RateWindow.refresh, if_pos hover, RateWindow.bump, if_neg hnew]
  · simp only [RateWindow.refresh, if_neg hover, RateWindow.bump]

theorem Disk.jobs_expire (expired : List String) (d : Disk) :
    (expired.foldl (fun d sha => d.setUpload sha none) d).jobs = d.jobs ∧
      (expired.foldl (fun d sha => d.setUpload sha none) d).jobSigs = d.jobSigs := by
  induction expired generalizing d with
  | nil => exact ⟨rfl, rfl⟩
  | cons sha expired ih => exact ih (d.setUpload sha none)

theorem Repo.jobs_repoState (x : Repo) :
    (x.repoState now).2.jobs = x.disk.jobs ∧ (x.repoState now).2.jobSigs = x.disk.jobSigs := by
  unfold Repo.repoState
  cases x.state <;> exact ⟨rfl, rfl⟩

variable {cfg now} {verified : String → Bytes → Option String → Bool} {c : Push}

theorem pushComplete_forged (hcfg : cfg.provenanceVerifier = some verified)
    (hforged : verified c.targetCommitSha c.payload c.signature = false)
    (hsafe : isSafePathComponent c.targetCommitSha = true)
    (hidle : h.hasUpload c.targetCommitSha = false) (w : RateWindow) {d : Disk}
    (hupload : d.uploads c.targetCommitSha = some c.payload) :
    Repo.pushComplete cfg now ⟨some ⟨h.insertUpload c.targetCommitSha now, w⟩, d⟩ c =
      (.ok .signatureInvalid, ⟨some ⟨h, w⟩, d.setUpload c.targetCommitSha none⟩) := by
  have hverify : Repo.verifyUpload cfg d c = .ok false := by
    simp only [Repo.verifyUpload, hcfg, hupload, hforged]
  have hrefused : ¬ (Except.ok PushDecision.signatureInvalid : Except PushError PushDecision) =
      .ok .accepted := by decide
  simp only [Repo.pushComplete, Repo.release, Option.map_some,
    RepoHead.removeUpload_insertUpload now hidle, Repo.finishUpload, if_neg (not_not_safe hsafe),
    hverify, if_neg hrefused, Repo.abandonUpload, RepoHead.removeUpload_of_not hidle]

theorem spoolWhole_large (x : Repo) (hsafe : isSafePathComponent c.targetCommitSha = true)
    (hlarge : cfg.maxSnapshotBytes < c.payload.length) :
    (x.spoolWhole cfg now c).1 = .error .tooLarge := by
  have hover : 0 + c.payload.length > cfg.maxSnapshotBytes := by omega
  simp only [Repo.spoolWhole, Repo.spoolChunk, if_neg (not_not_safe hsafe), ne_eq,
    not_true_eq_false, false_and, if_false, if_pos hover]

theorem spoolWhole_forged (hcfg : cfg.provenanceVerifier = some verified)
    (hforged : verified c.targetCommitSha c.payload c.signature = false)
    (hsafe : isSafePathComponent c.targetCommitSha = true)
    (hidle : h.hasUpload c.targetCommitSha = false) (w : RateWindow) (d : Disk)
    (hsmall : c.payload.length ≤ cfg.maxSnapshotBytes) :
    Repo.spoolWhole cfg now ⟨some ⟨h.insertUpload c.targetCommitSha now, w⟩, d⟩ c =
      (.ok .signatureInvalid, ⟨some ⟨h, w⟩,
        (d.appendChunk c.targetCommitSha 0 c.payload).setUpload c.targetCommitSha none⟩) := by
  have hfits : ¬ 0 + c.payload.length > cfg.maxSnapshotBytes := by omega
  have hupload : (d.appendChunk c.targetCommitSha 0 c.payload).uploads c.targetCommitSha =
      some c.payload := by
    simp [Disk.appendChunk, Disk.setUpload]
  simp only [Repo.spoolWhole, Repo.spoolChunk, if_neg (not_not_safe hsafe), ne_eq,
    not_true_eq_false, false_and, if_false, if_neg hfits]
  exact pushComplete_forged hcfg hforged hsafe hidle w hupload

/-- The files once those of expired uploads are gone. -/
def Repo.liveDisk (now : Nat) (x : Repo) : Disk :=
  ((x.repoState now).1.head.expired now).foldl (fun d sha => d.setUpload sha none)
    (x.repoState now).2

theorem Repo.beginUpload_safe (cfg : RegistryConfig) (now : Nat) (x : Repo) {targetSha : String}
    (hsafe : isSafePathComponent targetSha = true) (baseSha : Option String) :
    x.beginUpload cfg now targetSha baseSha =
      (.ok (Repo.reserve cfg now ⟨x.liveHead now, (x.repoState now).1.rate⟩ targetSha baseSha).1,
        ⟨some (Repo.reserve cfg now ⟨x.liveHead now, (x.repoState now).1.rate⟩ targetSha baseSha).2,
          x.liveDisk now⟩) := by
  unfold Repo.beginUpload
  rw [if_neg (not_not_safe hsafe)]
  rfl

/-- A push that is not turned away reads its signature, and the slot it took stays taken. -/
theorem push_forged (hcfg : cfg.provenanceVerifier = some verified) (x : Repo)
    (hforged : verified c.targetCommitSha c.payload c.signature = false)
    (hidle : (x.liveHead now).hasUpload c.targetCommitSha = false) :
    (x.TurnedAway cfg now c ∧ (x.push cfg now c).1 ≠ .ok .signatureInvalid) ∨
      (¬ x.TurnedAway cfg now c ∧ ∃ d : Disk, d.jobs = x.disk.jobs ∧ d.jobSigs = x.disk.jobSigs ∧
        x.push cfg now c = (.ok .signatureInvalid,
          ⟨some ⟨x.liveHead now, ((x.repoState now).1.rate.refresh now).bump⟩, d⟩)) := by
  by_cases hsafe : isSafePathComponent c.targetCommitSha = true
  swap
  · have hunsafe : isSafePathComponent c.targetCommitSha = false := Bool.eq_false_iff.mpr hsafe
    refine .inl ⟨.inl hunsafe, ?_⟩
    simp [Repo.push, Repo.beginUpload, hunsafe]
  have hnone : ¬ (x.liveHead now).hasUpload c.targetCommitSha = true :=
    Bool.eq_false_iff.mp hidle
  unfold Repo.push
  rw [Repo.beginUpload_safe cfg now x hsafe]
  unfold Repo.reserve
  rw [if_neg hnone]
  cases hrefuse : refuse cfg (x.liveHead now) (x.liveHead now).occupied c.baseCommitSha with
  | some decision =>
    rcases refuse_eq_some hrefuse with ⟨rfl, hfull⟩ | ⟨rfl, hconflict⟩
    · exact .inl ⟨.inr (.inl hfull), by simp⟩
    · exact .inl ⟨.inr (.inr (.inl hconflict)), by simp⟩
  | none =>
    obtain ⟨hroom, hhead⟩ := refuse_eq_none hrefuse
    by_cases hfull : ((x.repoState now).1.rate.refresh now).count ≥ cfg.maxPushesPerMinutePerRepo
    · rw [if_pos hfull]
      exact .inl ⟨.inr (.inr (.inr (.inl hfull))), by simp⟩
    rw [if_neg hfull]
    by_cases hlarge : cfg.maxSnapshotBytes < c.payload.length
    · refine .inl ⟨.inr (.inr (.inr (.inr hlarge))), ?_⟩
      rw [spoolWhole_large _ hsafe hlarge]
      intro h
      cases h
    have hsmall : c.payload.length ≤ cfg.maxSnapshotBytes := Nat.le_of_not_lt hlarge
    refine .inr ⟨?_, _, ?_, ?_, spoolWhole_forged hcfg hforged hsafe hidle _ _ hsmall⟩
    · rintro (h | h | h | h | h)
      · exact Bool.noConfusion (hsafe.symm.trans h)
      · omega
      · exact Bool.noConfusion (hhead.symm.trans h)
      · exact hfull h
      · exact hlarge h
    · exact (Disk.jobs_expire _ _).1.trans (x.jobs_repoState now).1
    · exact (Disk.jobs_expire _ _).2.trans (x.jobs_repoState now).2

/-- **A forged push leaves no trace when and only when it is turned away** before its signature is
read.  Any other leaves the repository as it was, without expired reservations, but for the slot it
took of the rate limit. -/
theorem push_leavesNoTrace_iff (hcfg : cfg.provenanceVerifier = some verified) (x : Repo)
    (hforged : verified c.targetCommitSha c.payload c.signature = false)
    (hidle : (x.liveHead now).hasUpload c.targetCommitSha = false) :
    (((x.push cfg now c).1 = .ok .signatureInvalid → x.LeavesNoTrace now (x.push cfg now c).2) ↔
      x.TurnedAway cfg now c) ∧
    ((x.push cfg now c).1 = .ok .signatureInvalid →
      (x.push cfg now c).2.state =
        some ⟨x.liveHead now, ((x.repoState now).1.rate.refresh now).bump⟩ ∧
      (x.push cfg now c).2.disk.jobs = x.disk.jobs ∧
      (x.push cfg now c).2.disk.jobSigs = x.disk.jobSigs) := by
  rcases push_forged hcfg x hforged hidle with ⟨haway, hne⟩ | ⟨hnot, d, hjobs, hsigs, hpush⟩
  · exact ⟨⟨fun _ => haway, fun _ h => absurd h hne⟩, fun h => absurd h hne⟩
  · refine ⟨⟨fun h => ?_, fun h => absurd h hnot⟩, fun _ => ?_⟩
    · -- the slot is still counted
      have hrate := (h (by rw [hpush])).rate
      rw [hpush] at hrate
      have hcount := RateWindow.refresh_bump now (x.repoState now).1.rate
      exact absurd (hcount.symm.trans hrate) (Nat.succ_ne_self _)
    · rw [hpush]
      exact ⟨rfl, hjobs, hsigs⟩

/-- One push a minute, signed `ok`. -/
def signedConfig : RegistryConfig := ⟨4, 1, 100, some fun _ _ sig => sig == some "ok"⟩

/-- Without a slot left the forged push is turned away; in a fresh repository it takes one. -/
theorem push_leavesNoTrace_fresh :
    let full : Repo := ⟨some ⟨⟨none, 0, 0, []⟩, ⟨0, 1⟩⟩, .empty⟩
    let fresh : Repo := ⟨none, .empty⟩
    let forged : Push := ⟨"a", none, 20, some "bad", [1]⟩
    ((full.push signedConfig 0 forged).1 = .ok .signatureInvalid →
      full.LeavesNoTrace 0 (full.push signedConfig 0 forged).2) ∧
    (fresh.push signedConfig 0 forged).2.state = some ⟨⟨none, 0, 0, []⟩, ⟨0, 1⟩⟩ :=
  ⟨(push_leavesNoTrace_iff rfl _ (by decide) (by decide)).1.mpr
      (.inr (.inr (.inr (.inl (by decide))))),
    ((push_leavesNoTrace_iff rfl _ (by decide) (by decide)).2 (by decide +kernel)).1⟩

/-- A forged push uses up the minute of the repository: the signed one behind it is refused. -/
theorem forged_push_takes_slot :
    let x : Repo := ⟨none, .empty⟩
    let forged := x.push signedConfig 0 ⟨"a", none, 20, some "bad", [1]⟩
    forged.1 = .ok .signatureInvalid ∧
    ¬ x.LeavesNoTrace 0 forged.2 ∧
    (x.push signedConfig 0 ⟨"b", none, 20, some "ok", [2]⟩).1 = .ok .accepted ∧
    (forged.2.push signedConfig 0 ⟨"b", none, 20, some "ok", [2]⟩).1 = .ok (.rateLimited 60) := by
  refine ⟨by decide +kernel, fun h => ?_, by decide +kernel, by decide +kernel⟩
  exact absurd h.rate (by decide +kernel)

end forged

end WeaveGraph.Hub
