import WeaveGraph.Hub.Steps

/-!
# The chunked push of the client

`push_chunks` asks the server where to resume, sends the payload chunk by chunk and asks again
after a failed exchange.  The client takes its steps next to those of the server, which handles
other requests meanwhile.  An exchange delivers the whole answer or fails; when it fails the
server may have handled the request, may still be handling it, or may never have seen it.
-/

namespace WeaveGraph.Hub

inductive PushOutcome where
  | published
  | accepted
  | conflict
  | rateLimited (retryAfterSecs : Option Nat)
deriving Repr, DecidableEq

inductive HubError where
  | io
  | malformedResponse (message : String)
deriving Repr, DecidableEq

structure Push where
  targetCommitSha : String
  baseCommitSha : Option String
  retention : Nat
  signature : Option String
  payload : Bytes

namespace Push

def total (c : Push) : Nat := c.payload.length

def chunkSize : Nat := 5 * 1024 * 1024

def chunkEnd (c : Push) (offset : Nat) : Nat := min (offset + chunkSize) c.total

/-- The request for the chunk at `offset`; an empty payload is sent as `bytes 0-0/0`. -/
def put (c : Push) (offset : Nat) : Put where
  sha := c.targetCommitSha
  baseSha := c.baseCommitSha
  retention := c.retention
  signature := c.signature
  start := offset
  stop := c.chunkEnd offset - 1
  total := c.total
  body := (c.payload.drop offset).take (c.chunkEnd offset - offset)

end Push

def unexpectedStatus (status : Nat) : HubError :=
  .malformedResponse ("unexpected status " ++ toString status ++ " on push")

def mapStatus (r : Response) : Except HubError PushOutcome :=
  if r.status = 200 ∨ r.status = 201 ∨ r.status = 204 then .ok .published
  else if r.status = 202 then .ok .accepted
  else if r.status = 409 then .ok .conflict
  else if r.status = 429 then .ok (.rateLimited r.retryAfter)
  else .error (unexpectedStatus r.status)

/-- The `Upload-Offset` of an answer to `HEAD`. -/
def Response.offset (r : Response) : Option Nat := if r.status = 200 then r.uploadOffset else none

/-- Where the client stands; `task` is the request it waits for. -/
inductive ClientPhase where
  | start
  | waitEmpty (task : Nat)
  | waitHead (task : Nat)
  | loop (offset attempts : Nat)
  | waitPut (task offset attempts : Nat)
  | retry (offset attempts : Nat)
  | waitRetry (task offset attempts : Nat)
  | finished (result : Except HubError PushOutcome)
deriving DecidableEq

/-- The server, one client call and the `PUT` requests it has sent. -/
structure Call where
  server : Server
  phase : ClientPhase
  sent : List Nat

namespace Call

variable (cfg : RegistryConfig) (c : Push)

def response (s : Call) (task : Nat) : Option Response :=
  match s.server.tasks[task]? with
  | none => none
  | some t =>
    match t.phase with
    | .done r => some r
    | _ => none

def sendHead (s : Call) (phase : ClientPhase) : Option Call :=
  (step cfg s.server (.request (.head c.targetCommitSha .arrived))).map fun server =>
    { s with server := server, phase := phase }

def sendPut (s : Call) (offset : Nat) (phase : ClientPhase) : Option Call :=
  (step cfg s.server (.request (.put (c.put offset) .arrived))).map fun server =>
    ⟨server, phase, s.server.tasks.length :: s.sent⟩

def send (s : Call) : Option Call :=
  match s.phase with
  | .start =>
    if c.total = 0 then s.sendPut cfg c 0 (.waitEmpty s.server.tasks.length)
    else s.sendHead cfg c (.waitHead s.server.tasks.length)
  | .loop offset attempts =>
    if offset < c.total then
      s.sendPut cfg c offset (.waitPut s.server.tasks.length offset attempts)
    else none
  | .retry offset attempts =>
    s.sendHead cfg c (.waitRetry s.server.tasks.length offset attempts)
  | _ => none

def putAnswered (r : Response) (offset : Nat) : ClientPhase :=
  if r.status = 202 then .loop (c.chunkEnd offset) 0 else .finished (mapStatus r)

/-- A chunk was not answered: at most three attempts in a row are repeated. -/
def putFailed (offset attempts : Nat) : ClientPhase :=
  if attempts + 1 > 3 then .finished (.error .io) else .retry offset (attempts + 1)

def receive (s : Call) : Option ClientPhase :=
  match s.phase with
  | .waitEmpty task => (s.response task).map fun r => .finished (mapStatus r)
  | .waitHead task => (s.response task).map fun r => .loop (r.offset.getD 0) 0
  | .waitPut task offset _ => (s.response task).map fun r => putAnswered c r offset
  | .waitRetry task offset attempts =>
    (s.response task).map fun r => .loop (r.offset.getD offset) attempts
  | _ => none

def fail (s : Call) : Option ClientPhase :=
  match s.phase with
  | .start => some (if c.total = 0 then .finished (.error .io) else .loop 0 0)
  | .waitEmpty _ => some (.finished (.error .io))
  | .waitHead _ => some (.loop 0 0)
  | .loop offset attempts => if offset < c.total then some (putFailed offset attempts) else none
  | .waitPut _ offset attempts => some (putFailed offset attempts)
  | .retry offset attempts => some (.loop offset attempts)
  | .waitRetry _ offset attempts => some (.loop offset attempts)
  | .finished _ => none

def finish (s : Call) : Option ClientPhase :=
  match s.phase with
  | .loop offset _ => if offset < c.total then none else some (.finished (.ok .accepted))
  | _ => none

inductive Event where
  | server (l : Label)
  | send
  | receive
  | fail
  | finish
deriving DecidableEq

def step (s : Call) : Event → Option Call
  | .server l => (Hub.step cfg s.server l).map fun server => { s with server := server }
  | .send => s.send cfg c
  | .receive => (s.receive c).map fun phase => { s with phase := phase }
  | .fail => (s.fail c).map fun phase => { s with phase := phase }
  | .finish => (s.finish c).map fun phase => { s with phase := phase }

def begin (server : Server) : Call := ⟨server, .start, []⟩

def Succeeded (s : Call) : Prop :=
  s.phase = .finished (.ok .accepted) ∨ s.phase = .finished (.ok .published)

end Call

end WeaveGraph.Hub
