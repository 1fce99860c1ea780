import Mathlib.Data.List.MinMax
import WeaveGraph.Lib.Runs
import WeaveGraph.Lib.Text

/-!
# The registry

The server side of `weave-graph-hub` for one repository: the spool and the store on disk, the
per-repository state in memory, the requests being handled and the worker that drains the spool.
Every critical section under a lock and every file operation is one step; requests, the worker
and restarts interleave freely.  Appending a chunk (open, truncate, seek to the end, write) counts
as one file operation.

A state in memory is an entry of `objects`; `current` is the entry of the registry's map, so a
request that looked the state up before it was dropped still holds the old object.  Sequence
numbers are natural numbers, clock times are nanoseconds, and the pending count wraps as `usize`
does in release builds.  Lock poisoning and webhooks are left out.

`log` records what happened and is never read by a step.
-/

namespace WeaveGraph.Hub

abbrev Bytes := List UInt8

/-- What a repository id or a sha may look like: it becomes part of a path. -/
def isSafePathComponent (s : String) : Bool :=
  s != "" && s.toList.length ≤ 128 && s != "." && s != ".." &&
    s.toList.all fun c => c.isAlphanum || c == '-' || c == '_' || c == '.'

theorem not_mem_of_safe {s : String} (h : isSafePathComponent s = true) {c : Char}
    (hc : (c.isAlphanum || c == '-' || c == '_' || c == '.') = false) : c ∉ s.toList := by
  intro hmem
  simp only [isSafePathComponent, Bool.and_eq_true, List.all_eq_true] at h
  rw [h.2 c hmem] at hc
  cases hc

/-! ## Disk -/

/-- `{seq:020}_{sha}_{retention}.tar.zst`: the fields of a job file's name. -/
structure SpoolJob where
  seq : Nat
  sha : String
  retention : Nat
deriving Repr, DecidableEq

structure Blob where
  sha : String
  bytes : Bytes
  modified : Nat
deriving Repr, DecidableEq

structure Disk where
  spoolDir : Bool
  /-- `{sha}.tmp` in the spool. -/
  uploads : String → Option Bytes
  jobs : List (SpoolJob × Bytes)
  /-- `{seq:020}_{sha}_{retention}.sig` in the spool. -/
  jobSigs : SpoolJob → Option String
  blobs : List Blob
  sigs : String → Option String
  /-- `HEAD` in the store. -/
  head : Option String

namespace Disk

def empty : Disk := ⟨false, fun _ => none, [], fun _ => none, [], fun _ => none, none⟩

def readPersistedHead (d : Disk) : Option String :=
  d.head.bind fun s => if Lib.Text.trim s = "" then none else some (Lib.Text.trim s)

/-- The length of the partial upload, `0` without one. -/
def spoolOffset (d : Disk) (sha : String) : Nat := (d.uploads sha).elim 0 List.length

def setUpload (d : Disk) (sha : String) (bytes : Option Bytes) : Disk :=
  { d with uploads := Function.update d.uploads sha bytes }

/-- Appends to the partial upload; an upload that starts anew truncates it first. -/
def appendChunk (d : Disk) (sha : String) (start : Nat) (chunk : Bytes) : Disk :=
  let existing := if start = 0 then [] else (d.uploads sha).getD []
  { d.setUpload sha (some (existing ++ chunk)) with spoolDir := true }

/-- `rename(tmp, dest)` into the spool; an existing job file of that name is replaced. -/
def addJob (d : Disk) (job : SpoolJob) (bytes : Bytes) : Disk :=
  { d.setUpload job.sha none with jobs := d.jobs.filter (fun j => j.1 ≠ job) ++ [(job, bytes)] }

def removeJob (d : Disk) (job : SpoolJob) : Disk :=
  { d with jobs := d.jobs.filter fun j => j.1 ≠ job }

def readJob (d : Disk) (job : SpoolJob) : Option Bytes :=
  (d.jobs.find? fun j => j.1 = job).map Prod.snd

def setJobSig (d : Disk) (job : SpoolJob) (sig : Option String) : Disk :=
  { d with jobSigs := Function.update d.jobSigs job sig }

/-- `rename(tmp, dest)` into the store. -/
def putBlob (d : Disk) (blob : Blob) : Disk :=
  { d with blobs := d.blobs.filter (fun b => b.sha ≠ blob.sha) ++ [blob] }

def olderBlob (a b : Blob) : Prop :=
  a.modified < b.modified ∨ (a.modified = b.modified ∧ a.sha ++ ".tar.zst" ≤ b.sha ++ ".tar.zst")

instance : DecidableRel olderBlob := fun _ _ => inferInstanceAs (Decidable (_ ∨ _))

/-- Keeps the `retention` newest blobs; a blob's signature goes with it. -/
def pruneRetention (d : Disk) (retention : Nat) : Disk :=
  let evicted := ((d.blobs.insertionSort olderBlob).take (d.blobs.length - retention)).map Blob.sha
  { d with
    blobs := d.blobs.filter fun b => b.sha ∉ evicted
    sigs := fun sha => if sha ∈ evicted then none else d.sigs sha }

end Disk

/-! ## Memory -/

structure RegistryConfig where
  maxQueueDepthPerRepo : Nat
  maxPushesPerMinutePerRepo : Nat
  maxSnapshotBytes : Nat
  /-- Does the signature (if any) of a payload under a sha verify? -/
  provenanceVerifier : Option (String → Bytes → Option String → Bool)

def second : Nat := 10 ^ 9

def uploadReservationTtl : Nat := 15 * 60 * second

structure RepoHead where
  sha : Option String
  nextSeq : Nat
  pending : Nat
  uploads : List (String × Nat)
deriving Repr, DecidableEq

structure RateWindow where
  windowStart : Nat
  count : Nat
deriving Repr, DecidableEq

structure RepoState where
  head : RepoHead
  rate : RateWindow
deriving Repr, DecidableEq

namespace RepoHead

def hasUpload (h : RepoHead) (sha : String) : Bool := h.uploads.any fun u => u.1 == sha

def removeUpload (h : RepoHead) (sha : String) : RepoHead :=
  { h with uploads := h.uploads.filter fun u => u.1 ≠ sha }

def insertUpload (h : RepoHead) (sha : String) (now : Nat) : RepoHead :=
  { h with uploads := h.uploads.filter (fun u => u.1 ≠ sha) ++ [(sha, now)] }

def expired (h : RepoHead) (now : Nat) : List String :=
  (h.uploads.filter fun u => now - u.2 ≥ uploadReservationTtl).map Prod.fst

/-- `head.pending + head.uploads.len()`, a `usize`. -/
def occupied (h : RepoHead) : Nat := (h.pending + h.uploads.length) % 2 ^ 64

/-- `base_sha` is given, there is a head and it is another one. -/
def conflicts (h : RepoHead) (baseSha : Option String) : Bool :=
  match baseSha with
  | none => false
  | some base => h.sha.isSome && h.sha != some base

/-- The push is accepted: the next sequence number is taken and the head advances. -/
def advance (h : RepoHead) (targetSha : String) : RepoHead :=
  { h with nextSeq := h.nextSeq + 1, pending := (h.pending + 1) % 2 ^ 64, sha := some targetSha }

def decrement (h : RepoHead) : RepoHead :=
  { h with pending := if h.pending = 0 then 2 ^ 64 - 1 else h.pending - 1 }

end RepoHead

namespace RateWindow

/-- A window that is over starts anew. -/
def refresh (w : RateWindow) (now : Nat) : RateWindow :=
  if now - w.windowStart ≥ 60 * second then ⟨now, 0⟩ else w

def bump (w : RateWindow) : RateWindow := { w with count := w.count + 1 }

end RateWindow

/-! ## Requests -/

structure Response where
  status : Nat
  uploadOffset : Option Nat
  retryAfter : Option Nat
deriving Repr, DecidableEq

def Response.plain (status : Nat) : Response := ⟨status, none, none⟩

def Response.tooManyRequests (retryAfterSecs : Nat) : Response := ⟨429, none, some retryAfterSecs⟩

/-- `PUT .../snapshots/{repo}/{sha}.tar.zst`, with its `Content-Range`. -/
structure Put where
  sha : String
  baseSha : Option String
  retention : Nat
  signature : Option String
  start : Nat
  stop : Nat
  total : Nat
  body : Bytes
deriving Repr, DecidableEq

namespace Put

/-- `end - start + 1` is a `u64`: the whole range of it wraps to `0`. -/
def validRange (p : Put) : Bool :=
  if p.total = 0 then p.start == 0 && p.stop == 0 && p.body.length == 0
  else
    p.stop ≥ p.start && (p.stop - p.start + 1) % 2 ^ 64 == p.body.length &&
      p.start + p.body.length ≤ p.total

/-- The chunk reaches the end of the snapshot, so the handler completes the upload. -/
def final (p : Put) : Bool := p.start + p.body.length ≥ p.total

def job (p : Put) (seq : Nat) : SpoolJob := ⟨seq, p.sha, p.retention⟩

end Put

/-- Where the handler of a request stands.  `o` is the state object it looked up. -/
inductive Phase where
  | arrived
  -- `begin_upload`
  | beginState
  | expire (o : Nat)
  | expireFiles (o : Nat) (expired : List String)
  | reserveCheck (o : Nat)
  | reserveRate (o : Nat)
  | reserve (o : Nat)
  -- `spool_chunk`
  | chunkLength
  | chunkWrite
  -- `push_complete`, `finish_upload`
  | takeState
  | takeReservation (o : Nat)
  | verify (reserved : Bool)
  | finishState (reserved : Bool)
  | finishRate (o : Nat)
  | finishHead (o : Nat)
  | writeSig (o seq : Nat)
  | rename (o seq : Nat)
  | wake (o : Nat)
  -- `abandon_upload`, before answering with `r`
  | abandonState (r : Response)
  | abandonHead (o : Nat) (r : Response)
  | abandonFile (r : Response)
  | done (r : Response)
  /-- The process went down. -/
  | lost
deriving Repr, DecidableEq

/-- A request being handled. -/
inductive Task where
  | head (sha : String) (phase : Phase)
  | put (p : Put) (phase : Phase)
deriving Repr, DecidableEq

/-! ## The worker -/

/-- Where the worker stands; `job` is being committed and `rest` is what the listing held after
it. -/
inductive WorkerPhase where
  | scan
  | recv
  | exit
  -- `commit_job`
  | readJob (job : SpoolJob) (rest : List SpoolJob)
  | writeBlob (job : SpoolJob) (rest : List SpoolJob) (bytes : Bytes)
  | renameBlob (job : SpoolJob) (rest : List SpoolJob) (blob : Blob)
  | copySig (job : SpoolJob) (rest : List SpoolJob)
  | writeHead (job : SpoolJob) (rest : List SpoolJob)
  | renameHead (job : SpoolJob) (rest : List SpoolJob)
  | prune (job : SpoolJob) (rest : List SpoolJob)
  -- the rest of the loop body
  | removeJob (job : SpoolJob) (rest : List SpoolJob)
  | removeSig (job : SpoolJob) (rest : List SpoolJob)
  | decrement (rest : List SpoolJob)
deriving Repr, DecidableEq

structure Worker where
  state : Nat
  wakes : Nat
  phase : WorkerPhase
deriving Repr, DecidableEq

/-! ## The system -/

structure Log where
  /-- Target and base of every push accepted under the head lock. -/
  accepted : List (String × Option String)
  /-- Every job renamed into the spool. -/
  spooled : List (SpoolJob × Bytes)
  /-- Every payload renamed into the store, under its sha. -/
  committed : List (String × Bytes)

structure Registry where
  disk : Disk
  objects : List RepoState
  current : Option Nat
  worker : Option Worker
  now : Nat
  log : Log

structure Server where
  registry : Registry
  tasks : List Task

namespace Registry

def empty : Registry := ⟨Disk.empty, [], none, none, 0, ⟨[], [], []⟩⟩

def nextSeqAfter (leftover : List SpoolJob) : Nat :=
  (leftover.map fun j => j.seq + 1).foldr max 0

/-- The state built from what is on disk. -/
def recovered (d : Disk) (now : Nat) : RepoState :=
  let leftover := d.jobs.map Prod.fst
  ⟨⟨d.readPersistedHead, nextSeqAfter leftover, leftover.length, []⟩, ⟨now, 0⟩⟩

/-- The current state, which is created together with its worker when there is none. -/
def repoState (r : Registry) : Nat × Registry :=
  match r.current with
  | some o => (o, r)
  | none =>
    (r.objects.length, { r with
        disk := { r.disk with spoolDir := true }
        objects := r.objects ++ [recovered r.disk r.now]
        current := some r.objects.length
        worker := some ⟨r.objects.length, 0, .scan⟩ })

def modifyHead (r : Registry) (o : Nat) (f : RepoHead → RepoHead) : Registry :=
  { r with objects := r.objects.modify o fun st => { st with head := f st.head } }

def modifyRate (r : Registry) (o : Nat) (f : RateWindow → RateWindow) : Registry :=
  { r with objects := r.objects.modify o fun st => { st with rate := f st.rate } }

def setDisk (r : Registry) (d : Disk) : Registry := { r with disk := d }

/-- Rate section: the refreshed window, counted up unless it is full. -/
def takeRate (cfg : RegistryConfig) (r : Registry) (o : Nat) (st : RepoState) : Bool × Registry :=
  let window := st.rate.refresh r.now
  if window.count ≥ cfg.maxPushesPerMinutePerRepo then (false, r.modifyRate o fun _ => window)
  else (true, r.modifyRate o fun _ => window.bump)

/-- Accepts a push under the head lock. -/
def accept (r : Registry) (o : Nat) (p : Put) : Registry :=
  { r.modifyHead o fun h => h.advance p.sha with
    log := { r.log with accepted := r.log.accepted ++ [(p.sha, p.baseSha)] } }

def spool (r : Registry) (job : SpoolJob) (bytes : Bytes) : Registry :=
  { r with
    disk := r.disk.addJob job bytes
    log := { r.log with spooled := r.log.spooled ++ [(job, bytes)] } }

def commit (r : Registry) (blob : Blob) : Registry :=
  { r with
    disk := r.disk.putBlob blob
    log := { r.log with committed := r.log.committed ++ [(blob.sha, blob.bytes)] } }

/-- A wake-up is received by the worker of that state. -/
def sendWake (r : Registry) (o : Nat) : Registry :=
  { r with
    worker := r.worker.map fun w => if w.state = o then { w with wakes := w.wakes + 1 } else w }

end Registry

/-! ## Steps of a request -/

section requests

variable (cfg : RegistryConfig)

/-- Both head sections of `begin_upload` and the one of `finish_upload` refuse in this order. -/
def refusal (h : RepoHead) (depth : Nat) (p : Put) : Option Response :=
  if depth ≥ cfg.maxQueueDepthPerRepo then some (.tooManyRequests 5)
  else if h.conflicts p.baseSha then some (.plain 409)
  else none

/-- A phase under a lock of object `o`. -/
def withState (r : Registry) (o : Nat) (f : RepoState → Registry × Phase) : Registry × Phase :=
  match r.objects[o]? with
  | none => (r, .lost)
  | some st => f st

def Put.advance (p : Put) (r : Registry) : Phase → Registry × Phase
  | .arrived =>
    if !p.validRange || p.total > cfg.maxSnapshotBytes then (r, .done (.plain 400))
    else if p.start = 0 then (r, .beginState)
    else (r, .chunkLength)
  | .beginState => (r.repoState.2, .expire r.repoState.1)
  | .expire o => withState r o fun st =>
    (r.modifyHead o fun h => (h.expired r.now).foldl RepoHead.removeUpload h,
      .expireFiles o (st.head.expired r.now))
  | .expireFiles o (sha :: rest) => (r.setDisk (r.disk.setUpload sha none), .expireFiles o rest)
  | .expireFiles o [] => (r, .reserveCheck o)
  | .reserveCheck o => withState r o fun st =>
    if st.head.hasUpload p.sha then (r, .chunkLength)
    else
      match refusal cfg st.head st.head.occupied p with
      | some response => (r, .done response)
      | none => (r, .reserveRate o)
  | .reserveRate o => withState r o fun st =>
    match r.takeRate cfg o st with
    | (false, r) => (r, .done (.tooManyRequests 60))
    | (true, r) => (r, .reserve o)
  | .reserve o => withState r o fun st =>
    match refusal cfg st.head st.head.occupied p with
    | some response => (r, .done response)
    | none => (r.modifyHead o fun h => h.insertUpload p.sha r.now, .chunkLength)
  | .chunkLength =>
    if p.start ≠ 0 ∧ r.disk.spoolOffset p.sha ≠ p.start then (r, .abandonState (.plain 500))
    else if p.start + p.body.length > cfg.maxSnapshotBytes then (r, .abandonState (.plain 500))
    else (r, .chunkWrite)
  | .chunkWrite =>
    (r.setDisk (r.disk.appendChunk p.sha p.start p.body),
      if p.final then .takeState else .done (.plain 202))
  | .takeState =>
    match r.current with
    | none => (r, .verify false)
    | some o => (r, .takeReservation o)
  | .takeReservation o => withState r o fun st =>
    (r.modifyHead o fun h => h.removeUpload p.sha, .verify (st.head.hasUpload p.sha))
  | .verify reserved =>
    match cfg.provenanceVerifier with
    | none => (r, .finishState reserved)
    | some verified =>
      match r.disk.uploads p.sha with
      | none => (r, .abandonState (.plain 500))
      | some payload =>
        if verified p.sha payload p.signature then (r, .finishState reserved)
        else (r, .abandonState (.plain 400))
  | .finishState reserved =>
    (r.repoState.2, if reserved then .finishHead r.repoState.1 else .finishRate r.repoState.1)
  | .finishRate o => withState r o fun st =>
    match r.takeRate cfg o st with
    | (false, r) => (r, .abandonState (.tooManyRequests 60))
    | (true, r) => (r, .finishHead o)
  | .finishHead o => withState r o fun st =>
    match refusal cfg st.head st.head.pending p with
    | some response => (r, .abandonState response)
    | none => (r.accept o p, .writeSig o st.head.nextSeq)
  | .writeSig o seq =>
    match p.signature with
    | none => (r, .rename o seq)
    | some sig => (r.setDisk (r.disk.setJobSig (p.job seq) (some sig)), .rename o seq)
  | .rename o seq =>
    match r.disk.uploads p.sha with
    | none => (r, .abandonState (.plain 500))
    | some bytes => (r.spool (p.job seq) bytes, .wake o)
  | .wake o => (r.sendWake o, .done (.plain 202))
  | .abandonState response =>
    match r.current with
    | none => (r, .abandonFile response)
    | some o => (r, .abandonHead o response)
  | .abandonHead o response => withState r o fun _ =>
    (r.modifyHead o fun h => h.removeUpload p.sha, .abandonFile response)
  | .abandonFile response => (r.setDisk (r.disk.setUpload p.sha none), .done response)
  | .done response => (r, .done response)
  | .lost => (r, .lost)

/-- The answer to `HEAD`. -/
def offsetResponse (offset : Nat) : Response :=
  if offset > 0 then ⟨200, some offset, none⟩ else .plain 404

def Task.step (r : Registry) : Task → Registry × Task
  | .head sha .arrived => (r, .head sha (.done (offsetResponse (r.disk.spoolOffset sha))))
  | .head sha phase => (r, .head sha phase)
  | .put p phase => ((p.advance cfg r phase).1, .put p (p.advance cfg r phase).2)

end requests

/-! ## Steps of the worker -/

/-- `jobs` as a listing of the spool: every job file, by increasing sequence number. -/
def Disk.Listing (d : Disk) (jobs : List SpoolJob) : Prop :=
  jobs.Perm (d.jobs.map Prod.fst) ∧ jobs.Pairwise fun a b => a.seq ≤ b.seq
deriving Decidable

/-- The next job of a listing, or a new listing. -/
def nextJob : List SpoolJob → WorkerPhase
  | [] => .scan
  | job :: rest => .readJob job rest

/-- One file operation or critical section of the worker; `ok` is whether the file operation
succeeds, or whether `recv_timeout` returns a wake-up. -/
def Registry.workerStep (r : Registry) (w : Worker) (ok : Bool) : Option (Registry × WorkerPhase) :=
  match w.phase with
  | .scan => none
  | .recv => if ok = decide (0 < w.wakes) then some (r, if ok then .scan else .exit) else none
  | .exit => some ({ r with current := none }, .exit)
  | .readJob job rest =>
    match ok, r.disk.readJob job with
    | true, some bytes => some (r, .writeBlob job rest bytes)
    | _, _ => some (r, .removeJob job rest)
  | .writeBlob job rest bytes =>
    some (r, if ok then .renameBlob job rest ⟨job.sha, bytes, r.now⟩ else .removeJob job rest)
  | .renameBlob job rest blob =>
    if ok then some (r.commit blob, .copySig job rest) else some (r, .removeJob job rest)
  | .copySig job rest =>
    match ok, r.disk.jobSigs job with
    | true, some sig =>
      some (r.setDisk { r.disk with sigs := Function.update r.disk.sigs job.sha (some sig) },
        .writeHead job rest)
    | _, _ => some (r, .writeHead job rest)
  | .writeHead job rest => some (r, if ok then .renameHead job rest else .removeJob job rest)
  | .renameHead job rest =>
    if ok then some (r.setDisk { r.disk with head := some job.sha }, .prune job rest)
    else some (r, .removeJob job rest)
  | .prune job rest =>
    some (if ok then r.setDisk (r.disk.pruneRetention job.retention) else r, .removeJob job rest)
  | .removeJob job rest =>
    some (if ok then r.setDisk (r.disk.removeJob job) else r, .removeSig job rest)
  | .removeSig job rest =>
    some (if ok then r.setDisk (r.disk.setJobSig job none) else r, .decrement rest)
  | .decrement rest => some (r.modifyHead w.state RepoHead.decrement, nextJob rest)

/-- What the worker leaves: its wake-ups count down as it receives them, and it is gone once it has
removed the map entry. -/
def Worker.after (w : Worker) (ok : Bool) (phase : WorkerPhase) : Option Worker :=
  match w.phase with
  | .exit => none
  | .recv => some { w with wakes := if ok then w.wakes - 1 else w.wakes, phase := phase }
  | _ => some { w with phase := phase }

/-! ## Steps of the system -/

inductive Label where
  | tick (elapsed : Nat)
  | request (t : Task)
  | task (i : Nat)
  | scan (listing : List SpoolJob)
  | worker (ok : Bool)
  | restart
deriving Repr, DecidableEq

def Task.sha : Task → String
  | .head sha _ => sha
  | .put p _ => p.sha

/-- A request as it arrives; the path of an unsafe one is unknown to the server. -/
def Task.isNew (t : Task) : Bool :=
  isSafePathComponent t.sha && match t with
    | .head _ phase | .put _ phase => phase == .arrived

/-- An answer that was written may still be delivered. -/
def Phase.drop : Phase → Phase
  | .done response => .done response
  | _ => .lost

def Task.drop : Task → Task
  | .head sha phase => .head sha phase.drop
  | .put p phase => .put p phase.drop

/-- The process goes down; it opens the registry again, and a repository with a spool directory
gets its state back before any request. -/
def Registry.restart (r : Registry) : Registry :=
  let r := { r with current := none, worker := none }
  if r.disk.spoolDir then r.repoState.2 else r

def step (cfg : RegistryConfig) (h : Server) : Label → Option Server
  | .tick elapsed => some { h with registry := { h.registry with now := h.registry.now + elapsed } }
  | .request t => if t.isNew then some { h with tasks := h.tasks ++ [t] } else none
  | .task i =>
    match h.tasks[i]? with
    | none => none
    | some t => some ⟨(t.step cfg h.registry).1, h.tasks.set i (t.step cfg h.registry).2⟩
  | .scan listing =>
    match h.registry.worker with
    | none => none
    | some w =>
      if w.phase = .scan ∧ h.registry.disk.Listing listing then
        let phase := if listing.isEmpty then .recv else nextJob listing
        some { h with registry := { h.registry with worker := some { w with phase := phase } } }
      else none
  | .worker ok =>
    match h.registry.worker with
    | none => none
    | some w =>
      match h.registry.workerStep w ok with
      | none => none
      | some (r, phase) => some { h with registry := { r with worker := w.after ok phase } }
  | .restart => some ⟨h.registry.restart, h.tasks.map Task.drop⟩

def Server.empty : Server := ⟨Registry.empty, []⟩

end WeaveGraph.Hub
