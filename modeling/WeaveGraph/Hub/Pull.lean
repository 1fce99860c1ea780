import WeaveGraph.Lib.Joined
import WeaveGraph.Lib.Wire
import WeaveGraph.Hub.Client

/-!
# Pulling a snapshot

`write_response` of the server writes the length of the body into the head and closes the
connection behind the body; `parse_response` of the client takes whatever came before the
connection was closed and does not look at the length.  So what a pull finds is decided by how much
of the response was delivered (`pull_eq`): once the head is there, any part of the body is a
snapshot.
-/

namespace WeaveGraph.Hub

open List Lib.Text Lib.Wire

/-! ## The server's side -/

/-- The status lines of the server. -/
inductive Status where
  | ok
  | accepted
  | badRequest
  | unauthorized
  | forbidden
  | notFound
  | methodNotAllowed
  | conflict
  | payloadTooLarge
  | tooManyRequests
  | internalServerError
  | serviceUnavailable
deriving Repr, DecidableEq

def Status.code : Status → Nat
  | .ok => 200
  | .accepted => 202
  | .badRequest => 400
  | .unauthorized => 401
  | .forbidden => 403
  | .notFound => 404
  | .methodNotAllowed => 405
  | .conflict => 409
  | .payloadTooLarge => 413
  | .tooManyRequests => 429
  | .internalServerError => 500
  | .serviceUnavailable => 503

def Status.reason : Status → String
  | .ok => "OK"
  | .accepted => "Accepted"
  | .badRequest => "Bad Request"
  | .unauthorized => "Unauthorized"
  | .forbidden => "Forbidden"
  | .notFound => "Not Found"
  | .methodNotAllowed => "Method Not Allowed"
  | .conflict => "Conflict"
  | .payloadTooLarge => "Payload Too Large"
  | .tooManyRequests => "Too Many Requests"
  | .internalServerError => "Internal Server Error"
  | .serviceUnavailable => "Service Unavailable"

/-- The arguments of `write_response`; a header is one line. -/
structure Served where
  status : Status
  extraHeaders : List (String × String)
  body : Bytes
  oneLine : ∀ h ∈ extraHeaders, '\n' ∉ h.1.toList ∧ '\n' ∉ h.2.toList

namespace Served

def statusLine (status : Status) : String :=
  "HTTP/1.1 " ++ toString status.code ++ " " ++ status.reason

def headerLine (h : String × String) : String := h.1 ++ ": " ++ h.2

def headLines (r : Served) : List String :=
  statusLine r.status :: "Connection: close" :: r.extraHeaders.map headerLine ++
    ["Content-Length: " ++ toString r.body.length]

/-- The bytes of the head with the empty line. -/
def headLength (r : Served) : Nat :=
  (endedLines (r.headLines.map encode)).length + 2

end Served

def writeResponse (r : Served) : Bytes :=
  endedLines (r.headLines.map encode) ++ (crlf ++ r.body)

/-! ## The client's side -/

/-- The second word of the first line. -/
def statusOf (head : String) : Option Nat :=
  (lines head).head?.bind fun line =>
    (splitWhitespace line)[1]?.bind (parseUnsigned 16)

def parseResponse (raw : Bytes) : Except HubError (Nat × String × Bytes) :=
  match splitHead raw with
  | none => .error (.malformedResponse "no header/body separator")
  | some (head, body) =>
    match decode head with
    | none => .error (.malformedResponse "non-utf8 headers")
    | some head =>
      match statusOf head with
      | none => .error (.malformedResponse "no status line")
      | some status => .ok (status, head, body)

inductive PullOutcome where
  | found (bytes : Bytes) (signature : Option String)
  | notFound
deriving Repr, DecidableEq

def signatureOf (headers : String) : Option String :=
  ((lines headers).find? fun l =>
    startsWith (toAsciiLowercase l) "x-weave-signature:").bind fun l =>
      ((splitChar ':' l)[1]?).map trim

/-- `HubClient::pull` on what the request came back with. -/
def pull (reply : Except HubError Bytes) : Except HubError PullOutcome :=
  match reply.bind parseResponse with
  | .error e => .error e
  | .ok (status, headers, body) =>
    if status = 200 then .ok (.found body (signatureOf headers))
    else if status = 404 then .ok .notFound
    else .error (.malformedResponse ("unexpected status " ++ toString status ++ " on pull"))

/-- A response and how many of its bytes came before the connection was closed; `none` when reading
failed. -/
structure Exchange where
  served : Served
  delivered : Option Nat

namespace Exchange

def received (e : Exchange) : Except HubError Bytes :=
  match e.delivered with
  | none => .error .io
  | some k => .ok ((writeResponse e.served).take k)

def HeadArrives (e : Exchange) : Prop := ∃ k, e.delivered = some k ∧ e.served.headLength ≤ k

def Whole (e : Exchange) : Prop := ∃ k, e.delivered = some k ∧ (writeResponse e.served).length ≤ k

end Exchange

/-! ## Reading a head back -/

theorem toString_plain (n : Nat) : '\n' ∉ (toString n).toList := by
  intro h
  have hdigits : (toString n).toList = Nat.toDigits 10 n := by simp [toString, Nat.repr]
  rw [hdigits] at h
  have := Nat.isDigit_of_mem_toDigits (b := 10) (by decide) (by decide) h
  revert this
  decide

theorem reason_plain (status : Status) : '\n' ∉ status.reason.toList := by
  cases status <;> decide

theorem statusLine_plain (status : Status) : '\n' ∉ (Served.statusLine status).toList := by
  simp only [Served.statusLine, String.toList_append, mem_append, not_or]
  exact ⟨⟨⟨by decide, toString_plain _⟩, by decide⟩, reason_plain status⟩

theorem headerLine_plain {h : String × String} (h1 : '\n' ∉ h.1.toList) (h2 : '\n' ∉ h.2.toList) :
    '\n' ∉ (Served.headerLine h).toList := by
  simp [Served.headerLine, String.toList_append, h1, h2]

theorem headLines_plain (r : Served) {line : String} (h : line ∈ r.headLines) :
    line ≠ "" ∧ '\n' ∉ line.toList := by
  simp only [Served.headLines, cons_append, mem_cons, mem_append, mem_map,
    not_mem_nil, or_false] at h
  have hne : ∀ {a b c : String}, b ≠ "" → a ++ b ++ c ≠ "" := by
    intro a b c hb hnil
    simp at hnil
    exact hb hnil.1.2
  rcases h with rfl | rfl | ⟨h, hh, rfl⟩ | rfl
  · exact ⟨hne (by decide), statusLine_plain _⟩
  · decide
  · obtain ⟨h1, h2⟩ := r.oneLine h hh
    exact ⟨hne (by decide), headerLine_plain h1 h2⟩
  · refine ⟨by simp, ?_⟩
    rw [String.toList_append, mem_append, not_or]
    exact ⟨by decide, toString_plain _⟩

def Served.head (r : Served) : String := String.intercalate "\r\n" r.headLines

theorem statusOf_line {head reason : String} {status : Nat} (hstatus : status < 2 ^ 16)
    (hhead : (lines head).head? =
      some ("HTTP/1.1 " ++ toString status ++ " " ++ reason)) : statusOf head = some status := by
  have hline : "HTTP/1.1 " ++ toString status ++ " " ++ reason =
      "HTTP/1.1" ++ " " ++ (toString status ++ " " ++ reason) := by
    rfl
  have hversion : ∀ c ∈ "HTTP/1.1".toList, isWhitespace c = false :=
    not_isWhitespace_of_all (by decide)
  obtain ⟨hne, hdigits⟩ := toString_word status
  rw [statusOf, hhead, Option.bind_some, hline, splitWhitespace_append (by decide) hversion,
    splitWhitespace_append hne hdigits]
  exact parseUnsigned_toString hstatus

theorem statusOf_head (r : Served) : statusOf r.head = some r.status.code := by
  have hhead : (lines r.head).head? = some (Served.statusLine r.status) := by
    unfold Served.head Served.headLines
    rw [cons_append, cons_append, String.intercalate_cons_cons]
    exact head?_lines (statusLine_plain _) _
  have hcode : r.status.code < 2 ^ 16 := by cases r.status <;> decide
  exact statusOf_line hcode hhead

/-- What the client makes of a head of these lines and a body, cut after `k` bytes. -/
theorem parseResponse_lines {lines : List String} (hne : lines ≠ [])
    (hlines : ∀ line ∈ lines, line ≠ "" ∧ '\n' ∉ line.toList) {status : Nat}
    (hstatus : statusOf (String.intercalate "\r\n" lines) = some status) (body : Bytes) (k : Nat) :
    parseResponse ((endedLines (lines.map encode) ++ (crlf ++ body)).take k) =
      if (endedLines (lines.map encode)).length + 2 ≤ k then
        .ok (status, String.intercalate "\r\n" lines,
          body.take (k - ((endedLines (lines.map encode)).length + 2)))
      else .error (.malformedResponse "no header/body separator") := by
  rw [parseResponse, splitHead_take (encodedLines_plain hlines) (by simpa using hne),
    joinedLines_encode]
  by_cases hk : (endedLines (lines.map encode)).length + 2 ≤ k
  · rw [if_pos hk, if_pos hk]
    simp only [decode_encode, hstatus]
  · rw [if_neg hk, if_neg hk]

theorem parseResponse_take (r : Served) (k : Nat) :
    parseResponse ((writeResponse r).take k) =
      if r.headLength ≤ k then .ok (r.status.code, r.head, r.body.take (k - r.headLength))
      else .error (.malformedResponse "no header/body separator") :=
  parseResponse_lines (cons_ne_nil _ _) (fun _ => headLines_plain r) (statusOf_head r) r.body k

/-- **What a pull finds.**  The length the head announces is not compared with what came. -/
theorem pull_eq (e : Exchange) : pull e.received =
    match e.delivered with
    | none => .error .io
    | some k =>
      if e.served.headLength ≤ k then
        if e.served.status = .ok then
          .ok (.found (e.served.body.take (k - e.served.headLength)) (signatureOf e.served.head))
        else if e.served.status = .notFound then .ok .notFound
        else .error (.malformedResponse
          ("unexpected status " ++ toString e.served.status.code ++ " on pull"))
      else .error (.malformedResponse "no header/body separator") := by
  unfold pull Exchange.received
  cases e.delivered with
  | none => rfl
  | some k =>
    simp only [Except.bind, parseResponse_take]
    by_cases hk : e.served.headLength ≤ k
    · rw [if_pos hk, if_pos hk]
      cases e.served.status <;> rfl
    · rw [if_neg hk, if_neg hk]

theorem length_writeResponse (r : Served) :
    (writeResponse r).length = r.headLength + r.body.length := by
  simp only [writeResponse, Served.headLength, length_append]
  have : crlf.length = 2 := rfl
  omega

namespace Exchange

variable {e : Exchange}

theorem pull_found {bytes : Bytes} {signature : Option String} :
    pull e.received = .ok (.found bytes signature) ↔ ∃ k, e.delivered = some k ∧
      e.served.headLength ≤ k ∧ e.served.status = .ok ∧
        bytes = e.served.body.take (k - e.served.headLength) ∧
          signature = signatureOf e.served.head := by
  rw [pull_eq]
  cases e.delivered with
  | none => simp
  | some k =>
    by_cases hk : e.served.headLength ≤ k
    · by_cases hs : e.served.status = .ok
      · simp [hk, hs, eq_comm]
      · by_cases hn : e.served.status = .notFound <;> simp [hk, hs, hn]
    · simp [hk]

theorem pull_notFound : pull e.received = .ok .notFound ↔
    e.HeadArrives ∧ e.served.status = .notFound := by
  rw [pull_eq]
  unfold HeadArrives
  cases e.delivered with
  | none => simp
  | some k =>
    by_cases hk : e.served.headLength ≤ k
    · by_cases hs : e.served.status = .ok
      · simp [hk, hs]
      · by_cases hn : e.served.status = .notFound <;> simp [hk, hs, hn]
    · simp [hk]

theorem take_eq_body {k : Nat} (hd : e.delivered = some k) (hk : e.served.headLength ≤ k) :
    e.served.body.take (k - e.served.headLength) = e.served.body ↔ e.Whole := by
  rw [take_eq_self_iff]
  unfold Whole
  rw [hd, length_writeResponse]
  simp only [Option.some.injEq, exists_eq_left']
  omega

end Exchange

end WeaveGraph.Hub
