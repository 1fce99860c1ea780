import WeaveGraph.Hub.Client

/-!
# What a successful push means

The server tells a client only how many bytes of an upload it has, not whose they are.  A partial
upload that is as long as the new payload makes the client report success without sending a byte
(`exec_success_unsent`).  Where the offsets the client is told lie inside its payload, its chunks
land behind its own bytes and nobody touches the upload while it is being completed, a reported
success means that the server spooled exactly the payload during the call (`exec_success_spooled`).
-/

namespace WeaveGraph.Hub

open List Lib

/-! ## Steps and the partial upload -/

/-- The request is completing its upload: the last chunk is written and the job is not spooled. -/
def Phase.completing : Phase → Bool
  | .takeState | .takeReservation _ | .verify _ | .finishState _ | .finishRate _ | .finishHead _
  | .writeSig _ _ | .rename _ _ => true
  | _ => false

/-- The answer is, or is going to be, one of the success codes the server never sends to `PUT`. -/
def Phase.publishing : Phase → Bool
  | .abandonState r | .abandonHead _ r | .abandonFile r | .done r =>
    r.status == 200 || r.status == 201 || r.status == 204
  | _ => false

/-- The next step of the request writes, moves or removes the partial upload of `sha`. -/
def Task.touches (sha : String) : Task → Bool
  | .head _ _ => false
  | .put p phase =>
    match phase with
    | .chunkWrite | .rename _ _ | .abandonFile _ => p.sha == sha
    | .expireFiles _ (expired :: _) => expired == sha
    | _ => false

section steps

variable {cfg : RegistryConfig} {p : Put} {r : Registry} {phase : Phase}

theorem uploads_repoState (r : Registry) : r.repoState.2.disk.uploads = r.disk.uploads := by
  unfold Registry.repoState
  split <;> rfl

theorem uploads_takeRate (cfg : RegistryConfig) (r : Registry) (o : Nat) (st : RepoState) :
    (r.takeRate cfg o st).2.disk = r.disk := by
  unfold Registry.takeRate
  dsimp only
  split <;> rfl

theorem refusal_not_publishing {h : RepoHead} {depth : Nat} {response : Response}
    (hr : refusal cfg h depth p = some response) : (Phase.done response).publishing = false := by
  unfold refusal at hr
  split at hr
  · cases hr
    rfl
  · split at hr
    · cases hr
      rfl
    · cases hr

theorem advance_publishing (h : (p.advance cfg r phase).2.publishing = true) :
    phase.publishing = true := by
  have hrefused : ∀ {h : RepoHead} {depth : Nat} {response : Response},
      refusal cfg h depth p = some response → (Phase.done response).publishing = true → False := by
    intro h depth response hr hp
    rw [refusal_not_publishing hr] at hp
    cases hp
  cases phase with
  | expireFiles o expired => cases expired <;> cases h
  | abandonState response =>
    simp only [Put.advance] at h
    split at h <;> exact h
  | abandonHead o response =>
    simp only [Put.advance, withState] at h
    split at h
    · cases h
    · exact h
  | abandonFile response => exact h
  | done response => exact h
  | reserveCheck o =>
    simp only [Put.advance, withState] at h
    split at h
    · cases h
    · split at h
      · cases h
      · split at h
        · rename_i hr
          exact (hrefused hr h).elim
        · cases h
  | reserve o =>
    simp only [Put.advance, withState] at h
    split at h
    · cases h
    · split at h
      · rename_i hr
        exact (hrefused hr h).elim
      · cases h
  | finishHead o =>
    simp only [Put.advance, withState] at h
    split at h
    · cases h
    · split at h
      · rename_i hr
        exact (hrefused hr h).elim
      · cases h
  | _ => simp only [Put.advance, withState] at h; (repeat' split at h) <;> cases h

/-- A request begins to complete its upload by writing the last chunk, and from then on leaves the
uploads alone until it spools its own. -/
theorem advance_completing (h : (p.advance cfg r phase).2.completing = true) :
    (phase.completing = true ∧ ∀ sha, (Task.put p phase).touches sha = false) ∨
      (phase = .chunkWrite ∧ p.final = true) := by
  cases phase with
  | expireFiles o expired => cases expired <;> cases h
  | chunkWrite =>
    simp only [Put.advance] at h
    split at h
    · rename_i hf
      exact .inr ⟨rfl, hf⟩
    · cases h
  | rename o seq =>
    simp only [Put.advance] at h
    split at h <;> cases h
  | takeState => exact .inl ⟨rfl, fun _ => rfl⟩
  | takeReservation o => exact .inl ⟨rfl, fun _ => rfl⟩
  | verify reserved => exact .inl ⟨rfl, fun _ => rfl⟩
  | finishState reserved => exact .inl ⟨rfl, fun _ => rfl⟩
  | finishRate o => exact .inl ⟨rfl, fun _ => rfl⟩
  | finishHead o => exact .inl ⟨rfl, fun _ => rfl⟩
  | writeSig o seq => exact .inl ⟨rfl, fun _ => rfl⟩
  | _ => simp only [Put.advance, withState] at h; (repeat' split at h) <;> cases h

theorem advance_uploads {sha : String} (h : (Task.put p phase).touches sha = false) :
    (p.advance cfg r phase).1.disk.uploads sha = r.disk.uploads sha := by
  have hset : ∀ {x : String}, (x == sha) = false → ∀ bytes : Option Bytes,
      (r.disk.setUpload x bytes).uploads sha = r.disk.uploads sha := by
    intro x hx bytes
    have hne : sha ≠ x := Ne.symm (by simpa using hx)
    exact Function.update_of_ne hne _ _
  cases phase with
  | expireFiles o expired =>
    cases expired with
    | nil => rfl
    | cons x rest => exact hset h none
  | chunkWrite => exact hset h _
  | rename o seq =>
    simp only [Put.advance]
    split
    · rfl
    · exact hset h none
  | abandonFile response => exact hset h none
  | beginState => exact congrFun (uploads_repoState r) sha
  | finishState reserved => exact congrFun (uploads_repoState r) sha
  | reserveRate o | finishRate o =>
    simp only [Put.advance, withState]
    split
    · rfl
    · rename_i st _
      have hd := uploads_takeRate cfg r o st
      split <;> rename_i heq <;> rw [heq] at hd <;> exact congrFun (congrArg Disk.uploads hd) sha
  | _ => simp only [Put.advance, withState] <;> (repeat' split) <;> rfl

end steps

theorem workerStep_uploads {r r' : Registry} {w : Worker} {ok : Bool} {phase : WorkerPhase}
    (hs : r.workerStep w ok = some (r', phase)) : r'.disk.uploads = r.disk.uploads := by
  unfold Registry.workerStep at hs
  (repeat' split at hs) <;> cases hs <;> rfl

/-! ## The conditions -/

namespace Call

/-- The offset the client is about to be told. -/
def toldOffset (s : Call) : Option Nat :=
  match s.phase with
  | .waitHead task | .waitRetry task _ _ => (s.response task).bind Response.offset
  | _ => none

def appending (s : Call) (i : Nat) : Option Nat :=
  match s.server.tasks[i]? with
  | some (.put p .chunkWrite) => if i ∈ s.sent ∧ p.start ≠ 0 then some p.start else none
  | _ => none

/-- Task `j` has written the last chunk and completes the upload. -/
def completes (s : Call) (j : Nat) : Bool :=
  match s.server.tasks[j]? with
  | some (.put p phase) => p.final && phase.completing
  | _ => false

def touches (c : Push) (s : Call) (i : Nat) : Bool :=
  (s.server.tasks[i]?).any (Task.touches c.targetCommitSha)

/-- Told offsets lie inside the payload; a later chunk lands behind the payload's own bytes; and
while a request of the call completes the upload, no other request touches it. -/
def Undisturbed (c : Push) (s : Call) : Event → Prop
  | .receive => ∀ offset ∈ s.toldOffset, offset < c.total
  | .server (.task i) =>
    (∀ start ∈ s.appending i,
      s.server.registry.disk.uploads c.targetCommitSha = some (c.payload.take start)) ∧
    ∀ j ∈ s.sent, j ≠ i → s.completes j = true → s.touches c i = false
  | _ => True

instance (c : Push) (s : Call) : DecidablePred (s.Undisturbed c)
  | .receive => inferInstanceAs (Decidable (∀ offset ∈ s.toldOffset, offset < c.total))
  | .server (.task _) => inferInstanceAs (Decidable (_ ∧ _))
  | .server (.tick _) | .server (.request _) | .server (.scan _) | .server (.worker _)
  | .server .restart | .send | .fail | .finish => isTrue trivial

/-- The server has spooled the payload under its sha since its log held `n` jobs. -/
def Spooled (c : Push) (n : Nat) (server : Server) : Prop :=
  ∃ j ∈ server.registry.log.spooled.drop n, j.1.sha = c.targetCommitSha ∧ j.2 = c.payload

/-! ## The invariant -/

/-- What is known of a request of the call. -/
structure SentWell (c : Push) (n : Nat) (server : Server) (p : Put) (phase : Phase) : Prop where
  publishing : phase.publishing = false
  completing : p.final = true → phase.completing = true →
    server.registry.disk.uploads c.targetCommitSha = some c.payload
  accepting : p.final = true → phase.accepting = true → Spooled c n server

/-- What is known of the client. -/
def ClientWell (c : Push) (n : Nat) (s : Call) : Prop :=
  match s.phase with
  | .start => True
  | .waitEmpty task => c.total = 0 ∧ task ∈ s.sent ∧
      ∃ phase, s.server.tasks[task]? = some (.put (c.put 0) phase)
  | .waitHead _ => 0 < c.total
  | .waitPut task offset _ => offset < c.total ∧ task ∈ s.sent ∧
      ∃ phase, s.server.tasks[task]? = some (.put (c.put offset) phase)
  | .loop offset _ => offset < c.total ∨ Spooled c n s.server
  | .retry offset _ | .waitRetry _ offset _ => offset < c.total
  | .finished result =>
    result = .ok .accepted ∨ result = .ok .published → Spooled c n s.server

structure Uploading (c : Push) (n : Nat) (s : Call) : Prop where
  since : n ≤ s.server.registry.log.spooled.length
  sent : ∀ i ∈ s.sent, ∃ offset phase, s.server.tasks[i]? = some (.put (c.put offset) phase) ∧
    SentWell c n s.server (c.put offset) phase
  client : ClientWell c n s

variable {cfg : RegistryConfig} {c : Push} {n : Nat} {s : Call}

/-! ## Chunks -/

variable {offset i : Nat} {server' : Server} {s' : Call} {phase : ClientPhase} {r : Response}

theorem put_body_length (h : offset ≤ c.total) :
    offset + (c.put offset).body.length = max offset (c.chunkEnd offset) := by
  unfold Push.put Push.chunkEnd Push.total at *
  simp only [length_take, length_drop]
  omega

theorem put_final_append (h : (c.put offset).final = true) :
    c.payload.take offset ++ (c.put offset).body = c.payload := by
  have hlen : (c.payload.drop offset).length ≤ c.chunkEnd offset - offset := by
    simp only [Put.final, Push.put, Push.total, length_take, length_drop,
      decide_eq_true_eq, ge_iff_le] at h
    rw [length_drop]
    omega
  simp only [Push.put]
  rw [take_of_length_le hlen, take_append_drop]

/-! ## Steps of the server -/

theorem Spooled.append {server : Server} (h : Spooled c n server)
    (hlog : ∃ new, server'.registry.log.spooled = server.registry.log.spooled ++ new) :
    Spooled c n server' := by
  obtain ⟨j, hj, hsha, hbytes⟩ := h
  obtain ⟨new, hnew⟩ := hlog
  refine ⟨j, ?_, hsha, hbytes⟩
  rw [hnew, drop_append]
  exact mem_append_left _ hj

theorem ClientWell.server (h : ClientWell c n s)
    (hlog : ∃ new, server'.registry.log.spooled = s.server.registry.log.spooled ++ new)
    (ht : ∀ i ∈ s.sent, ∀ p phase, s.server.tasks[i]? = some (.put p phase) →
      ∃ phase', server'.tasks[i]? = some (.put p phase')) :
    ClientWell c n { s with server := server' } := by
  unfold ClientWell at h ⊢
  dsimp only
  generalize s.phase = p at h ⊢
  cases p with
  | start => trivial
  | waitEmpty task | waitPut task offset attempts =>
    obtain ⟨h0, hmem, phase, hphase⟩ := h
    exact ⟨h0, hmem, ht task hmem _ phase hphase⟩
  | loop offset attempts => exact h.imp_right fun hs => hs.append hlog
  | finished result => exact fun hr => (h hr).append hlog
  | waitHead task | retry offset attempts | waitRetry task offset attempts => exact h

section

variable (hi : Uploading c n s)

include hi

theorem uploading_frame (hlog : server'.registry.log.spooled = s.server.registry.log.spooled)
    (hup : server'.registry.disk.uploads = s.server.registry.disk.uploads)
    (ht : ∀ i ∈ s.sent, ∀ p phase, s.server.tasks[i]? = some (.put p phase) →
      ∃ phase', server'.tasks[i]? = some (.put p phase') ∧ (phase' = phase ∨
        (phase'.publishing = false ∧ phase'.completing = false ∧
          (phase'.accepting = true → phase.accepting = true)))) :
    Uploading c n { s with server := server' } := by
  have happend : ∃ new, server'.registry.log.spooled = s.server.registry.log.spooled ++ new :=
    ⟨[], by simp [hlog]⟩
  refine ⟨by rw [hlog]; exact hi.since, ?_, ?_⟩
  · intro i hmem
    obtain ⟨offset, phase, hphase, hw⟩ := hi.sent i hmem
    obtain ⟨phase', hphase', heq⟩ := ht i hmem _ phase hphase
    refine ⟨offset, phase', hphase', ?_⟩
    rcases heq with rfl | ⟨hp, hc, ha⟩
    · refine ⟨hw.publishing, fun hf hc => ?_, fun hf ha => (hw.accepting hf ha).append happend⟩
      rw [hup]
      exact hw.completing hf hc
    · refine ⟨hp, fun hf hc' => ?_,
        fun hf ha' => (hw.accepting hf (ha ha')).append happend⟩
      rw [hc] at hc'
      cases hc'
  · refine hi.client.server happend fun i hmem p phase hphase => ?_
    obtain ⟨phase', hphase', -⟩ := ht i hmem p phase hphase
    exact ⟨phase', hphase'⟩

theorem sentWell_advance {phase : Phase} (hmem : i ∈ s.sent)
    (ht : s.server.tasks[i]? = some (.put (c.put offset) phase))
    (hw : SentWell c n s.server (c.put offset) phase) (hg : s.Undisturbed c (.server (.task i)))
    {tasks : List Task} :
    SentWell c n ⟨((c.put offset).advance cfg s.server.registry phase).1, tasks⟩ (c.put offset)
      ((c.put offset).advance cfg s.server.registry phase).2 := by
  refine ⟨?_, fun hf hc => ?_, fun hf ha => ?_⟩
  · refine Bool.eq_false_iff.2 fun hp => ?_
    have := advance_publishing hp
    rw [hw.publishing] at this
    cases this
  · rcases advance_completing hc with ⟨hc₀, hnt⟩ | ⟨rfl, -⟩
    · exact (advance_uploads (hnt _)).trans (hw.completing hf hc₀)
    · -- the last chunk: what is there already is the payload up to the chunk
      have hhead : offset ≠ 0 → s.server.registry.disk.uploads c.targetCommitSha =
          some (c.payload.take offset) := by
        intro hne
        refine hg.1 offset ?_
        simp [appending, ht, hmem, Push.put, hne]
      have hbytes : (if offset = 0 then [] else
          (s.server.registry.disk.uploads c.targetCommitSha).getD []) = c.payload.take offset := by
        split
        · rename_i h0
          simp [h0]
        · rename_i hne
          rw [hhead hne]
          rfl
      have happended : ((c.put offset).advance cfg s.server.registry .chunkWrite).1.disk.uploads
          c.targetCommitSha = some ((if offset = 0 then [] else
            (s.server.registry.disk.uploads c.targetCommitSha).getD []) ++
              (c.put offset).body) :=
        Function.update_self _ _ _
      rw [happended, hbytes, put_final_append hf]
  · rcases (c.put offset).advance_spooled cfg s.server.registry phase with
      ⟨o, seq, bytes, rfl, hu, hlog⟩ | ⟨hlog, haccepting⟩
    · have hpayload := hw.completing hf rfl
      obtain rfl : bytes = c.payload := Option.some.inj (hu.symm.trans hpayload)
      refine ⟨((c.put offset).job seq, c.payload), ?_, rfl, rfl⟩
      rw [hlog, drop_append_of_le_length hi.since]
      exact mem_append_right _ (mem_singleton_self _)
    · rcases haccepting ha with ha₀ | hnf
      · exact (hw.accepting hf ha₀).append ⟨[], by simp [hlog]⟩
      · rw [hf] at hnf
        cases hnf

theorem uploading_put {p : Put} {phase : Phase} (ht : s.server.tasks[i]? = some (.put p phase))
    (hg : s.Undisturbed c (.server (.task i))) :
    Uploading c n { s with server := ⟨(p.advance cfg s.server.registry phase).1,
      s.server.tasks.set i (.put p (p.advance cfg s.server.registry phase).2)⟩ } := by
  have hlt : i < s.server.tasks.length := (List.getElem?_eq_some_iff.1 ht).1
  have hlog : ∃ new, (p.advance cfg s.server.registry phase).1.log.spooled =
      s.server.registry.log.spooled ++ new := by
    rcases p.advance_spooled cfg s.server.registry phase with ⟨o, seq, bytes, -, -, h⟩ | ⟨h, -⟩
    · exact ⟨_, h⟩
    · exact ⟨[], by simp [h]⟩
  refine ⟨?_, ?_, ?_⟩
  · obtain ⟨new, hnew⟩ := hlog
    rw [hnew, length_append]
    exact Nat.le_add_right_of_le hi.since
  · intro k hk
    obtain ⟨offset, phase₀, hphase, hw⟩ := hi.sent k hk
    by_cases hik : i = k
    · subst hik
      obtain ⟨rfl, rfl⟩ : c.put offset = p ∧ phase₀ = phase := by
        rw [ht] at hphase
        cases hphase
        exact ⟨rfl, rfl⟩
      exact ⟨offset, _, getElem?_set_self hlt, sentWell_advance hi hk ht hw hg⟩
    · refine ⟨offset, phase₀, ?_, hw.publishing, fun hf hc => ?_,
        fun hf ha => (hw.accepting hf ha).append hlog⟩
      · rw [getElem?_set_ne hik]
        exact hphase
      · have hcompletes : s.completes k = true := by
          simp [completes, hphase, hf, hc]
        have hnt := hg.2 k hk (Ne.symm hik) hcompletes
        rw [touches, ht] at hnt
        exact (advance_uploads hnt).trans (hw.completing hf hc)
  · refine hi.client.server hlog fun k _ p' phase' hphase => ?_
    by_cases hik : i = k
    · subst hik
      rw [ht] at hphase
      cases hphase
      exact ⟨_, getElem?_set_self hlt⟩
    · exact ⟨phase', by dsimp only; rw [getElem?_set_ne hik]; exact hphase⟩

theorem uploading_task {t : Task} (ht : s.server.tasks[i]? = some t)
    (hg : s.Undisturbed c (.server (.task i))) :
    Uploading c n { s with server := ⟨(t.step cfg s.server.registry).1,
      s.server.tasks.set i (t.step cfg s.server.registry).2⟩ } := by
  cases t with
  | put p phase => exact uploading_put hi ht hg
  | head sha phase =>
    rw [(Task.step_head cfg s.server.registry sha phase).1]
    refine uploading_frame hi rfl rfl fun k _ p phase' hphase => ⟨phase', ?_, .inl rfl⟩
    rw [getElem?_set_ne]
    · exact hphase
    · rintro rfl
      rw [ht] at hphase
      cases hphase

theorem uploading_server {l : Label} (hg : s.Undisturbed c (.server l))
    (hs : Hub.step cfg s.server l = some server') : Uploading c n { s with server := server' } := by
  have same : ∀ i ∈ s.sent, ∀ p phase, s.server.tasks[i]? = some (.put p phase) →
      ∃ phase', s.server.tasks[i]? = some (.put p phase') ∧ (phase' = phase ∨
        (phase'.publishing = false ∧ phase'.completing = false ∧
          (phase'.accepting = true → phase.accepting = true))) :=
    fun i _ p phase h => ⟨phase, h, .inl rfl⟩
  cases step_cases hs with
  | tick => exact uploading_frame hi rfl rfl same
  | request =>
    refine uploading_frame hi rfl rfl fun i _ p phase h => ⟨phase, ?_, .inl rfl⟩
    rw [getElem?_append_left (List.getElem?_eq_some_iff.1 h).1]
    exact h
  | task ht => exact uploading_task hi ht hg
  | scan => exact uploading_frame hi rfl rfl same
  | @worker ok w r phase hw hstep =>
    have hup : r.disk.uploads = s.server.registry.disk.uploads := workerStep_uploads hstep
    have hlog : r.log.spooled = s.server.registry.log.spooled := Registry.workerStep_spooled hstep
    exact uploading_frame hi hlog hup same
  | restart =>
    refine uploading_frame hi (by rw [Registry.restart_log]) ?_ fun i _ p phase h =>
      ⟨phase.drop, by simp [h, Task.drop], ?_⟩
    · unfold Registry.restart
      dsimp only
      split
      · rw [uploads_repoState]
      · rfl
    · cases phase with
      | done response => exact .inl rfl
      | _ => exact .inr ⟨rfl, rfl, fun ha => by cases ha⟩

end

/-! ## Steps of the client -/

theorem uploading_sendHead (hi : Uploading c n s) (hs : s.sendHead cfg c phase = some s')
    (hc : ∀ s' : Call, s'.phase = phase → ClientWell c n s') : Uploading c n s' := by
  obtain ⟨server', hstep, rfl⟩ := Option.map_eq_some_iff.1 hs
  have hframe := uploading_server (l := .request _) hi trivial hstep
  exact ⟨hframe.since, hframe.sent, hc _ rfl⟩

theorem uploading_sendPut (hi : Uploading c n s) (hs : s.sendPut cfg c offset phase = some s')
    (hc : ∀ s' : Call, s'.phase = phase → s.server.tasks.length ∈ s'.sent →
      s'.server.tasks[s.server.tasks.length]? = some (.put (c.put offset) .arrived) →
      ClientWell c n s') : Uploading c n s' := by
  obtain ⟨server', hstep, rfl⟩ := Option.map_eq_some_iff.1 hs
  have hframe := uploading_server (l := .request _) hi trivial hstep
  have hnew : server'.tasks[s.server.tasks.length]? = some (.put (c.put offset) .arrived) := by
    simp only [Hub.step] at hstep
    split at hstep
    · cases hstep
      simp
    · cases hstep
  refine ⟨hframe.since, ?_, hc _ rfl mem_cons_self hnew⟩
  intro i hi'
  rcases mem_cons.1 hi' with rfl | hi'
  · exact ⟨offset, .arrived, hnew, rfl, fun _ h => (by cases h), fun _ h => by cases h⟩
  · exact hframe.sent i hi'

theorem uploading_send (hi : Uploading c n s) (hs : s.send cfg c = some s') : Uploading c n s' := by
  unfold send at hs
  split at hs
  · split at hs
    · rename_i h0
      refine uploading_sendPut hi hs fun s' hp hmem ht => ?_
      rw [ClientWell, hp]
      exact ⟨h0, hmem, _, ht⟩
    · rename_i h0
      refine uploading_sendHead hi hs fun s' hp => ?_
      rw [ClientWell, hp]
      exact Nat.pos_of_ne_zero h0
  · split at hs
    · rename_i hlt
      refine uploading_sendPut hi hs fun s' hp hmem ht => ?_
      rw [ClientWell, hp]
      exact ⟨hlt, hmem, _, ht⟩
    · cases hs
  · rename_i offset attempts hphase
    have hclient := hi.client
    rw [ClientWell, hphase] at hclient
    refine uploading_sendHead hi hs fun s' hp => ?_
    rw [ClientWell, hp]
    exact hclient
  · cases hs

theorem response_sent {task : Nat} {phase : Phase} (hi : Uploading c n s) (hmem : task ∈ s.sent)
    (ht : s.server.tasks[task]? = some (.put (c.put offset) phase)) (hr : s.response task = some r)
    :
    r.status ≠ 200 ∧ r.status ≠ 201 ∧ r.status ≠ 204 ∧
      ((c.put offset).final = true → r.status = 202 → Spooled c n s.server) := by
  obtain ⟨offset', phase', ht', hw⟩ := hi.sent task hmem
  rw [ht] at ht'
  obtain ⟨hput, rfl⟩ : c.put offset = c.put offset' ∧ phase = phase' := by
    cases ht'
    exact ⟨rfl, rfl⟩
  obtain rfl : phase = .done r := by
    simp only [response, ht, Task.phase] at hr
    split at hr
    · cases hr
      rfl
    · cases hr
  have hp := hw.publishing
  simp only [Phase.publishing, Bool.or_eq_false_iff, beq_eq_false_iff_ne] at hp
  refine ⟨hp.1.1, hp.1.2, hp.2, fun hf h202 => ?_⟩
  rw [hput] at hf
  exact hw.accepting hf (by simp [Phase.accepting, h202])

theorem mapStatus_success (h : mapStatus r = .ok .accepted ∨ mapStatus r = .ok .published) :
    (r.status = 200 ∨ r.status = 201 ∨ r.status = 204) ∨ r.status = 202 := by
  unfold mapStatus at h
  by_cases h200 : r.status = 200 ∨ r.status = 201 ∨ r.status = 204
  · exact .inl h200
  · refine .inr (Classical.byContradiction fun h202 => ?_)
    simp only [h200, h202, if_false] at h
    split at h
    · simp at h
    · split at h <;> simp at h

theorem clientWell_mapStatus (hp : s'.phase = .finished (mapStatus r)) (h200 : r.status ≠ 200)
    (h201 : r.status ≠ 201) (h204 : r.status ≠ 204) (h202 : r.status = 202 → Spooled c n s'.server)
    : ClientWell c n s' := by
  rw [ClientWell, hp]
  intro hsuccess
  rcases mapStatus_success hsuccess with (h | h | h) | h
  · exact absurd h h200
  · exact absurd h h201
  · exact absurd h h204
  · exact h202 h

theorem offset_lt {told : Option Nat} {total : Nat} (hlt : offset < total)
    (htold : ∀ o, told = some o → o < total) : told.getD offset < total := by
  cases told with
  | none => exact hlt
  | some o => exact htold o rfl

theorem uploading_receive (hi : Uploading c n s) (hg : s.Undisturbed c .receive)
    (hs : s.receive c = some phase) : Uploading c n { s with phase := phase } := by
  refine ⟨hi.since, hi.sent, ?_⟩
  have hclient := hi.client
  unfold ClientWell at hclient
  unfold receive at hs
  split at hs
  · rename_i task hphase
    simp only [hphase] at hclient
    obtain ⟨h0, hmem, ph, ht⟩ := hclient
    obtain ⟨r, hr, rfl⟩ := Option.map_eq_some_iff.1 hs
    obtain ⟨h200, h201, h204, h202⟩ := response_sent hi hmem ht hr
    refine clientWell_mapStatus rfl h200 h201 h204 fun h => h202 ?_ h
    simp [Put.final, Push.put, h0]
  · rename_i task hphase
    simp only [hphase] at hclient
    obtain ⟨r, hr, rfl⟩ := Option.map_eq_some_iff.1 hs
    exact .inl (offset_lt hclient fun offset ho => hg offset (by simp [toldOffset, hphase, hr, ho]))
  · rename_i task offset attempts hphase
    simp only [hphase] at hclient
    obtain ⟨hlt, hmem, ph, ht⟩ := hclient
    obtain ⟨r, hr, rfl⟩ := Option.map_eq_some_iff.1 hs
    obtain ⟨h200, h201, h204, h202⟩ := response_sent hi hmem ht hr
    unfold putAnswered
    by_cases h : r.status = 202
    · simp only [h, if_true]
      -- either there is more to send or this was the last chunk
      rcases Nat.lt_or_ge (c.chunkEnd offset) c.total with hmore | hlast
      · exact .inl hmore
      · refine .inr (h202 ?_ h)
        have := put_body_length (Nat.le_of_lt hlt)
        have hend : max offset (c.chunkEnd offset) = c.total := by
          unfold Push.chunkEnd at hlast ⊢
          omega
        simp only [Put.final, decide_eq_true_eq, ge_iff_le]
        rw [show (c.put offset).start = offset from rfl, this, hend]
        exact Nat.le_refl _
    · simp only [h, if_false]
      exact clientWell_mapStatus rfl h200 h201 h204 fun h' => absurd h' h
  · rename_i task offset attempts hphase
    simp only [hphase] at hclient
    obtain ⟨r, hr, rfl⟩ := Option.map_eq_some_iff.1 hs
    exact .inl (offset_lt hclient fun told ho => hg told (by simp [toldOffset, hphase, hr, ho]))
  · cases hs

theorem clientWell_putFailed {attempts : Nat} (hlt : offset < c.total)
    (hp : s'.phase = putFailed offset attempts) : ClientWell c n s' := by
  rw [ClientWell, hp, putFailed]
  by_cases h3 : attempts + 1 > 3
  · rw [if_pos h3]
    rintro (h | h) <;> cases h
  · rw [if_neg h3]
    exact hlt

theorem uploading_fail (hi : Uploading c n s) (hs : s.fail c = some phase) :
    Uploading c n { s with phase := phase } := by
  refine ⟨hi.since, hi.sent, ?_⟩
  have hclient := hi.client
  unfold ClientWell at hclient
  unfold fail at hs
  generalize s.phase = p at hclient hs
  cases p with
  | start =>
    cases hs
    split
    · rintro (h | h) <;> cases h
    · rename_i h0
      exact .inl (Nat.pos_of_ne_zero h0)
  | waitEmpty task =>
    cases hs
    rintro (h | h) <;> cases h
  | loop offset attempts =>
    dsimp only at hs
    split at hs
    · rename_i hlt
      cases hs
      exact clientWell_putFailed hlt rfl
    · cases hs
  | waitPut task offset attempts =>
    cases hs
    exact clientWell_putFailed hclient.1 rfl
  | waitHead task | retry offset attempts | waitRetry task offset attempts =>
    cases hs
    exact .inl hclient
  | finished result => cases hs

theorem uploading_finish (hi : Uploading c n s) (hs : s.finish c = some phase) :
    Uploading c n { s with phase := phase } := by
  refine ⟨hi.since, hi.sent, ?_⟩
  have hclient := hi.client
  unfold ClientWell at hclient
  unfold finish at hs
  split at hs
  · rename_i offset attempts hphase
    simp only [hphase] at hclient
    split at hs
    · cases hs
    · rename_i hge
      cases hs
      exact fun _ => hclient.resolve_left hge
  · cases hs

theorem uploading_step {e : Event} (hi : Uploading c n s) (hg : s.Undisturbed c e)
    (hs : s.step cfg c e = some s') : Uploading c n s' := by
  cases e with
  | server l =>
    obtain ⟨server', hstep, rfl⟩ := Option.map_eq_some_iff.1 hs
    exact uploading_server hi hg hstep
  | send => exact uploading_send hi hs
  | receive =>
    obtain ⟨phase, hphase, rfl⟩ := Option.map_eq_some_iff.1 hs
    exact uploading_receive hi hg hphase
  | fail =>
    obtain ⟨phase, hphase, rfl⟩ := Option.map_eq_some_iff.1 hs
    exact uploading_fail hi hphase
  | finish =>
    obtain ⟨phase, hphase, rfl⟩ := Option.map_eq_some_iff.1 hs
    exact uploading_finish hi hphase

theorem uploading_begin (server : Server) :
    Uploading c server.registry.log.spooled.length (begin server) :=
  ⟨Nat.le_refl _, fun _ h => (by cases h), trivial⟩

/-- A push that is not disturbed and reports success has been spooled, byte for byte, since it
began. -/
theorem exec_success_spooled {server : Server} {run : List Event}
    (hg : Guarded (Call.step cfg c) (fun s e => s.Undisturbed c e) (begin server) run)
    (hr : exec (Call.step cfg c) (begin server) run = some s) (hs : s.Succeeded) :
    Spooled c server.registry.log.spooled.length s.server := by
  have hi := exec_invariant (fun _ _ _ hi hg hs => uploading_step hi hg hs) run
    (uploading_begin server) hg hr
  have hclient := hi.client
  rcases hs with hs | hs
  · rw [ClientWell, hs] at hclient
    exact hclient (.inl rfl)
  · rw [ClientWell, hs] at hclient
    exact hclient (.inr rfl)

def twoBytes : Push := ⟨"a", none, 20, none, [1, 2]⟩

theorem exec_success_spooled_fresh :
    let run := [.send, .server (.task 0), .receive, .send] ++
      List.replicate 18 (Event.server (.task 1)) ++ [.receive, .finish]
    (exec (Call.step smallHub twoBytes) (begin Server.empty) run).map Call.phase =
      some (.finished (.ok .accepted)) ∧
    ∀ s, exec (Call.step smallHub twoBytes) (begin Server.empty) run = some s →
      s.Succeeded → Spooled twoBytes 0 s.server :=
  ⟨by decide +kernel, fun _ => exec_success_spooled (by decide +kernel)⟩

/-- Someone else has left the first two bytes of a longer upload under the same sha: the client is
told the offset `2`, which is the end of its own payload, and reports success at once. -/
theorem exec_success_unsent :
    ∃ run s, exec (Call.step smallHub twoBytes) (begin Server.empty) run = some s ∧
      s.Succeeded ∧ s.sent = [] ∧ ¬ Spooled twoBytes 0 s.server := by
  have hrun : (exec (Call.step smallHub twoBytes) (begin Server.empty)
      (.server (.request (.put ⟨"a", none, 20, none, 0, 1, 4, [9, 9]⟩ .arrived)) ::
        List.replicate 10 (Event.server (.task 0)) ++
        [.send, .server (.task 1), .receive, .finish])).map (fun s =>
          s.phase == .finished (.ok .accepted) && s.sent.isEmpty &&
          s.server.registry.log.spooled.isEmpty) = some true := by
    decide +kernel
  obtain ⟨s, hr, heq⟩ := Option.map_eq_some_iff.1 hrun
  simp only [Bool.and_eq_true, beq_iff_eq, List.isEmpty_iff] at heq
  obtain ⟨⟨hphase, hsent⟩, hspooled⟩ := heq
  refine ⟨_, s, hr, .inl hphase, hsent, ?_⟩
  rintro ⟨j, hj, -⟩
  simp [hspooled] at hj

end Call

end WeaveGraph.Hub
