import WeaveGraph.Mcp.Handler

/-!
# The HTTP transport of the MCP server

A connection is the bytes its client sends, what follows them, and whether the answer can be
written.  Lines are read one at a time, so the reader is the list of the lines that are left; a
line without its line end can only be the last.

`handleClient` answers one connection and the accept loop of `HttpTransport::run` ends with the
first error it returns, so the server goes on exactly as long as every client is `Answerable`
(`stillServes_iff`).  `handleClient_guard_iff` says whose guard a request runs under.

What the JSON grammar makes of a body is a parameter.
-/

namespace WeaveGraph.Mcp

open List Lib.Json Lib.Text

def maxHttpHeaderBytes : Nat := 16 * 1024

def maxHttpRequestBodyBytes : Nat := 1024 * 1024

/-- `McpError::Io`, by what failed. -/
inductive McpError where
  | invalidData (message : String)
  | read
  | unexpectedEof
  | write
  | configure
deriving Repr, DecidableEq

/-- One accepted connection.  After its bytes the client has closed its side, or the next read
fails: a time-out, or a reset. -/
structure Connection where
  bytes : List UInt8
  closed : Bool
  writable : Bool
  configurable : Bool
deriving Repr, DecidableEq

/-! ## Reading the head -/

def newline : UInt8 := 10

/-- The bytes, cut after each line end. -/
def cutLines : List UInt8 → List (List UInt8)
  | [] => []
  | b :: bytes =>
    if b = newline then [b] :: cutLines bytes
    else
      match cutLines bytes with
      | [] => [[b]]
      | line :: lines => (b :: line) :: lines

def utf8 (bytes : List UInt8) : Option String := String.fromUTF8? ⟨bytes.toArray⟩

/-- The text of the next line: at most `limit` bytes, with its line end. -/
def readLimitedLine (limit : Nat) (closed : Bool) (line : List UInt8) : Except McpError String :=
  if limit < line.length then .error (.invalidData "HTTP line too large")
  else if line.getLast? = some newline then
    match utf8 line with
    | some text => .ok text
    | none => .error (.invalidData "non-UTF-8 HTTP headers")
  else if closed then .error (.invalidData "HTTP line too large")
  else .error .read

structure Head where
  contentLength : Option Nat := none
  authorization : Option String := none
deriving Repr, DecidableEq

def readHeader (head : Head) (text : String) : Except McpError Head :=
  match splitOnce ':' text with
  | none => .ok head
  | some (name, value) =>
    if eqIgnoreAsciiCase name "content-length" then
      match parseUnsigned 64 (trim value) with
      | some n => .ok { head with contentLength := some n }
      | none => .error (.invalidData "invalid Content-Length")
    else if eqIgnoreAsciiCase name "authorization" then
      .ok { head with authorization := some (trim value) }
    else .ok head

/-- The header lines up to a blank one or to the end of the input. -/
def readHeaders (closed : Bool) :
    List (List UInt8) → Nat → Head → Except McpError (Head × List (List UInt8))
  | [], _, head => if closed then .ok (head, []) else .error .read
  | line :: lines, headerBytes, head =>
    match readLimitedLine maxHttpHeaderBytes closed line with
    | .error e => .error e
    | .ok text =>
      if maxHttpHeaderBytes < headerBytes + line.length then
        .error (.invalidData "HTTP headers too large")
      else if text = "\r\n" ∨ text = "\n" then .ok (head, lines)
      else
        match readHeader head text with
        | .error e => .error e
        | .ok head => readHeaders closed lines (headerBytes + line.length) head

/-- A request up to its body; `rest` is what has arrived after the head. -/
structure Request where
  requestLine : String
  head : Head
  rest : List UInt8
deriving Repr, DecidableEq

def readHead (c : Connection) : Except McpError (Option Request) :=
  match cutLines c.bytes with
  | [] => if c.closed then .ok none else .error .read
  | line :: lines =>
    match readLimitedLine maxHttpHeaderBytes c.closed line with
    | .error e => .error e
    | .ok requestLine =>
      match readHeaders c.closed lines line.length {} with
      | .error e => .error e
      | .ok (head, lines) => .ok (some ⟨requestLine, head, lines.flatten⟩)

namespace Request

def bearerToken (req : Request) : Option String :=
  req.head.authorization.bind fun value => stripPrefix value "Bearer "

def contentLength (req : Request) : Nat := req.head.contentLength.getD 0

def isPost (req : Request) : Bool := startsWith req.requestLine "POST "

end Request

/-! ## Answering -/

inductive HttpBody where
  | text (s : String)
  | reply (r : Reply)

structure HttpResponse where
  status : Nat
  reason : String
  body : HttpBody

section client

variable (h : McpHandler) (grammar : List UInt8 → Option Raw)

def respond (closed : Bool) (req : Request) : Except McpError HttpResponse :=
  if !h.acceptsRequestToken req.bearerToken then
    .ok ⟨401, "Unauthorized", .text "\x7b\"error\":\"unauthorized\"\x7d"⟩
  else if maxHttpRequestBodyBytes < req.contentLength then
    .ok ⟨413, "Payload Too Large", .text "\x7b\"error\":\"request body exceeds limit\"\x7d"⟩
  else if req.isPost && 0 < req.contentLength then
    if req.rest.length < req.contentLength then
      .error (if closed then .unexpectedEof else .read)
    else
      match h.handleMessageWithToken (grammar (req.rest.take req.contentLength))
          req.bearerToken with
      | some reply => .ok ⟨200, "OK", .reply reply⟩
      | none => .ok ⟨200, "OK", .text "\x7b\"status\":\"ok\"\x7d"⟩
  else .ok ⟨200, "OK", .text "\x7b\"status\":\"ok\"\x7d"⟩

/-- Without a request there is no answer. -/
def handleClient (c : Connection) : Except McpError (Option HttpResponse) :=
  match readHead c with
  | .error e => .error e
  | .ok none => .ok none
  | .ok (some req) =>
    match respond h grammar c.closed req with
    | .error e => .error e
    | .ok response => if c.writable then .ok (some response) else .error .write

end client

/-! ## The accept loop -/

structure HttpTransport where
  maxRequests : Option Nat

/-- `HttpTransport::new` sets no limit. -/
def HttpTransport.new : HttpTransport := ⟨none⟩

/-- What each connection was answered, and the error that ended the loop. -/
structure Served where
  answers : List (Option HttpResponse)
  stopped : Option McpError

def serveClient (h : McpHandler) (grammar : List UInt8 → Option Raw) (c : Connection) :
    Except McpError (Option HttpResponse) :=
  if c.configurable then handleClient h grammar c else .error .configure

/-- The loop of `run` over the connections the listener accepts. -/
def HttpTransport.run (t : HttpTransport) (h : McpHandler) (grammar : List UInt8 → Option Raw) :
    Nat → List Connection → Served
  | _, [] => ⟨[], none⟩
  | count, c :: conns =>
    match serveClient h grammar c with
    | .error e => ⟨[], some e⟩
    | .ok answer =>
      if t.maxRequests.any fun max => max ≤ count + 1 then ⟨[answer], none⟩
      else
        let served := run t h grammar (count + 1) conns
        ⟨answer :: served.answers, served.stopped⟩

/-! ## Lines -/

/-- A line: nothing but its last byte is a line end. -/
def IsLine (line : List UInt8) : Prop := ∃ init, line = init ++ [newline] ∧ newline ∉ init

theorem cutLines_flatten (bytes : List UInt8) : (cutLines bytes).flatten = bytes := by
  induction bytes with
  | nil => rfl
  | cons b bytes ih =>
    simp only [cutLines]
    split
    · rw [flatten_cons, ih]
      rfl
    · cases hl : cutLines bytes with
      | nil =>
        rw [hl] at ih
        rw [← ih]
        rfl
      | cons line lines =>
        rw [hl, flatten_cons] at ih
        rw [← ih]
        rfl

variable {bytes line : List UInt8} {text : String} {headers : List (List UInt8)} {atEnd : Prop}
  {c : Connection}

theorem newline_notMem_of_cutLines (h : line ∈ cutLines bytes) : newline ∉ line.dropLast := by
  induction bytes generalizing line with
  | nil => cases h
  | cons b bytes ih =>
    simp only [cutLines] at h
    split at h
    · rcases mem_cons.mp h with rfl | h
      · exact not_mem_nil
      · exact ih h
    · rename_i hb
      cases hl : cutLines bytes with
      | nil =>
        rw [hl] at h
        rw [mem_singleton.mp h]
        exact not_mem_nil
      | cons first lines =>
        rw [hl] at h ih
        rcases mem_cons.mp h with rfl | h
        · have hfirst := ih mem_cons_self
          cases first with
          | nil => exact not_mem_nil
          | cons x first =>
            exact not_mem_cons_of_ne_of_not_mem (Ne.symm hb) hfirst
        · exact ih (mem_cons_of_mem _ h)

theorem cutLines_append (h : IsLine line) (bytes : List UInt8) :
    cutLines (line ++ bytes) = line :: cutLines bytes := by
  obtain ⟨init, rfl, hinit⟩ := h
  induction init with
  | nil => simp [cutLines]
  | cons b init ih =>
    rw [mem_cons, not_or] at hinit
    simp only [cons_append, cutLines]
    rw [if_neg (Ne.symm hinit.1), ih hinit.2]

theorem cutLines_flatten_append {lines : List (List UInt8)} (h : ∀ l ∈ lines, IsLine l)
    (bytes : List UInt8) : cutLines (lines.flatten ++ bytes) = lines ++ cutLines bytes := by
  induction lines with
  | nil => rfl
  | cons line lines ih =>
    rw [flatten_cons, append_assoc, cutLines_append (h line mem_cons_self),
      ih fun l hl => h l (mem_cons_of_mem _ hl)]
    rfl

theorem isLine_of_getLast (h : line ∈ cutLines bytes) (hlast : line.getLast? = some newline) :
    IsLine line := by
  obtain ⟨init, rfl⟩ := getLast?_eq_some_iff.mp hlast
  have := newline_notMem_of_cutLines h
  rw [dropLast_concat] at this
  exact ⟨init, rfl, this⟩

/-! ## Clients that are answered -/

def isBlank (line : List UInt8) : Prop := utf8 line = some "\r\n" ∨ utf8 line = some "\n"

/-- What the header lines say, the last line of a name deciding. -/
def Head.ofLines (head : Head) (lines : List (List UInt8)) : Head :=
  lines.foldl (fun head line =>
    ((utf8 line).bind fun text => (readHeader head text).toOption).getD head) head

/-- The line is UTF-8 and, if it is a `Content-Length` header, its value is a `usize`. -/
def Readable (line : List UInt8) : Prop :=
  ∃ text, utf8 line = some text ∧ ∀ name value, splitOnce ':' text = some (name, value) →
    eqIgnoreAsciiCase name "content-length" = true →
    (parseUnsigned 64 (trim value)).isSome

/-- The header lines end with the first blank one, or with the input. -/
def EndsHead (headers : List (List UInt8)) (atEnd : Prop) : Prop :=
  (∃ init blank, headers = init ++ [blank] ∧ isBlank blank ∧ ∀ l ∈ init, ¬ isBlank l) ∨
    ((∀ l ∈ headers, ¬ isBlank l) ∧ atEnd)

/-- The head of a request: whole readable lines within the limit, up to a blank one or to the end of
the input. -/
structure WholeHead (c : Connection) (requestLine : List UInt8) (headers : List (List UInt8))
    (rest : List UInt8) : Prop where
  bytes : c.bytes = requestLine ++ (headers.flatten ++ rest)
  lines : ∀ l ∈ requestLine :: headers, IsLine l
  requestText : (utf8 requestLine).isSome
  readable : ∀ l ∈ headers, Readable l
  size : requestLine.length + headers.flatten.length ≤ maxHttpHeaderBytes
  ends : EndsHead headers (rest = [] ∧ c.closed = true)

/-- A body that is read at all has arrived in full. -/
def BodyArrives (h : McpHandler) (req : Request) : Prop :=
  h.acceptsRequestToken req.bearerToken = true → req.contentLength ≤ maxHttpRequestBodyBytes →
    req.isPost = true → req.contentLength ≤ req.rest.length

/-- The socket takes its time-outs, and the client closes without a word, or sends a whole head and
the body it announces and takes the answer. -/
def Answerable (h : McpHandler) (c : Connection) : Prop :=
  c.configurable = true ∧ ((c.bytes = [] ∧ c.closed = true) ∨
      (c.writable = true ∧ ∃ requestLine headers rest, WholeHead c requestLine headers rest ∧
        ∀ text, utf8 requestLine = some text →
          BodyArrives h ⟨text, Head.ofLines {} headers, rest⟩))

theorem readLimitedLine_eq_ok {limit : Nat} {closed : Bool} :
    readLimitedLine limit closed line = .ok text ↔
      line.length ≤ limit ∧ line.getLast? = some newline ∧ utf8 line = some text := by
  unfold readLimitedLine
  by_cases hlen : limit < line.length
  · rw [if_pos hlen]
    exact iff_of_false (by simp) fun h => absurd h.1 (by omega)
  · rw [if_neg hlen]
    by_cases hlast : line.getLast? = some newline
    · rw [if_pos hlast]
      cases hu : utf8 line with
      | none => simp
      | some t => simpa [hlast] using fun _ => Nat.le_of_not_lt hlen
    · rw [if_neg hlast]
      refine iff_of_false ?_ fun h => hlast h.2.1
      split <;> simp

theorem readHeader_ok_iff (h : utf8 line = some text) (head : Head) :
    (∃ head', readHeader head text = .ok head') ↔ Readable line := by
  have hr : Readable line ↔ ∀ name value, splitOnce ':' text = some (name, value) →
      eqIgnoreAsciiCase name "content-length" = true →
      (parseUnsigned 64 (trim value)).isSome := by
    constructor
    · rintro ⟨t, ht, hv⟩
      obtain rfl : text = t := Option.some.inj (h.symm.trans ht)
      exact hv
    · exact fun hv => ⟨text, h, hv⟩
  rw [hr]
  unfold readHeader
  cases hs : splitOnce ':' text with
  | none => simp
  | some nv =>
    obtain ⟨name, value⟩ := nv
    by_cases hn : eqIgnoreAsciiCase name "content-length" = true
    · simp only [hn, if_true]
      cases hp : parseUnsigned 64 (trim value) with
      | none =>
        refine iff_of_false (by simp) fun hall => ?_
        have := hall name value rfl hn
        rw [hp] at this
        cases this
      | some n =>
        refine iff_of_true ⟨_, rfl⟩ fun n' v' he _ => ?_
        cases he
        rw [hp]
        rfl
    · simp only [hn]
      refine iff_of_true ?_ fun n' v' he hn' => ?_
      · split
        · rename_i hfalse
          cases hfalse
        · split <;> exact ⟨_, rfl⟩
      · cases he
        exact absurd hn' hn

theorem ofLines_cons (h : utf8 line = some text) {head head' : Head}
    (hr : readHeader head text = .ok head') (lines : List (List UInt8)) :
    head.ofLines (line :: lines) = head'.ofLines lines := by
  unfold Head.ofLines
  rw [foldl_cons, h, Option.bind_some, hr]
  rfl

theorem isBlank_iff (h : utf8 line = some text) : isBlank line ↔ text = "\r\n" ∨ text = "\n" := by
  unfold isBlank
  rw [h, Option.some.injEq, Option.some.injEq]

theorem readHeader_blank (h : text = "\r\n" ∨ text = "\n") (head : Head) :
    readHeader head text = .ok head := by
  have hnone : splitOnce ':' text = none := by
    rcases h with rfl | rfl
    · decide
    · decide
  unfold readHeader
  rw [hnone]

theorem endsHead_cons (h : ¬ isBlank line) :
    EndsHead (line :: headers) atEnd ↔ EndsHead headers atEnd := by
  refine or_congr ?_ ?_
  · constructor
    · rintro ⟨init, blank, he, hb, hi⟩
      cases init with
      | nil =>
        cases he
        exact absurd hb h
      | cons l init =>
        cases he
        exact ⟨init, blank, rfl, hb, fun l hl => hi l (mem_cons_of_mem _ hl)⟩
    · rintro ⟨init, blank, rfl, hb, hi⟩
      refine ⟨line :: init, blank, rfl, hb, fun l hl => ?_⟩
      rcases mem_cons.mp hl with rfl | hl
      · exact h
      · exact hi l hl
  · rw [forall_mem_cons, and_iff_right h]

theorem endsHead_blank (h : isBlank line) : EndsHead (line :: headers) atEnd ↔ headers = [] := by
  constructor
  · rintro (⟨init, blank, he, -, hi⟩ | ⟨hall, -⟩)
    · cases init with
      | nil =>
        cases he
        rfl
      | cons l init =>
        cases he
        exact absurd h (hi _ mem_cons_self)
    · exact absurd h (hall _ mem_cons_self)
  · rintro rfl
    exact Or.inl ⟨[], line, rfl, h, fun l hl => by cases hl⟩

theorem endsHead_nil : EndsHead [] atEnd ↔ atEnd := by
  constructor
  · rintro (⟨init, blank, he, -⟩ | ⟨-, h⟩)
    · exact absurd he.symm (by simp)
    · exact h
  · exact fun h => Or.inr ⟨fun l hl => (by cases hl), h⟩

/-- What the header lines `headers` of the input are, counted from `n` bytes, and what they make of
a head. -/
structure HeaderLines (closed : Bool) (n : Nat) (head : Head) (headers : List (List UInt8))
    (rest : List (List UInt8)) (head' : Head) : Prop where
  lines : ∀ l ∈ headers, l.getLast? = some newline ∧ Readable l
  size : n + headers.flatten.length ≤ maxHttpHeaderBytes
  ends : EndsHead headers (rest = [] ∧ closed = true)
  head : head' = head.ofLines headers

section headers

variable {closed : Bool} {n : Nat} {head head' head₁ : Head} {line : List UInt8} {text : String}
  {headers rest : List (List UInt8)}

theorem HeaderLines.cons_blank (hlast : line.getLast? = some newline) (ht : utf8 line = some text)
    (hb : text = "\r\n" ∨ text = "\n") (hsize : n + line.length ≤ maxHttpHeaderBytes) :
    HeaderLines closed n head (line :: headers) rest head' ↔ headers = [] ∧ head' = head := by
  have hblank := (isBlank_iff ht).mpr hb
  have hread := readHeader_blank hb head
  constructor
  · intro h
    obtain rfl := (endsHead_blank hblank).mp h.ends
    refine ⟨rfl, h.head.trans ?_⟩
    rw [ofLines_cons ht hread]
    rfl
  · rintro ⟨rfl, rfl⟩
    refine ⟨fun l hl => ?_, by simpa using hsize, (endsHead_blank hblank).mpr rfl, ?_⟩
    · rw [mem_singleton.mp hl]
      exact ⟨hlast, (readHeader_ok_iff ht head').mp ⟨head', hread⟩⟩
    · rw [ofLines_cons ht hread]
      rfl

theorem HeaderLines.cons_field (hlast : line.getLast? = some newline) (ht : utf8 line = some text)
    (hb : ¬ (text = "\r\n" ∨ text = "\n")) (hr : readHeader head text = .ok head₁) :
    HeaderLines closed n head (line :: headers) rest head' ↔
      HeaderLines closed (n + line.length) head₁ headers rest head' := by
  have hblank := (isBlank_iff ht).not.mpr hb
  have hline : line.getLast? = some newline ∧ Readable line :=
    ⟨hlast, (readHeader_ok_iff ht head).mp ⟨head₁, hr⟩⟩
  have hflat : n + (line :: headers).flatten.length = n + line.length + headers.flatten.length := by
    rw [flatten_cons, length_append, Nat.add_assoc]
  constructor
  · intro h
    exact ⟨fun l hl => h.lines l (mem_cons_of_mem _ hl), hflat ▸ h.size,
      (endsHead_cons hblank).mp h.ends, h.head.trans (ofLines_cons ht hr headers)⟩
  · intro h
    refine ⟨forall_mem_cons.mpr ⟨hline, h.lines⟩, hflat ▸ h.size,
      (endsHead_cons hblank).mpr h.ends, h.head.trans (ofLines_cons ht hr headers).symm⟩

theorem HeaderLines.readLimitedLine_ok (h : HeaderLines closed n head (line :: headers) rest head') :
    ∃ text, readLimitedLine maxHttpHeaderBytes closed line = .ok text ∧
      n + line.length ≤ maxHttpHeaderBytes ∧ ∃ head₁, readHeader head text = .ok head₁ := by
  obtain ⟨hlast, hread⟩ := h.lines line mem_cons_self
  have hsize := h.size
  rw [flatten_cons, length_append] at hsize
  obtain ⟨text, ht, -⟩ := id hread
  refine ⟨text, readLimitedLine_eq_ok.mpr ⟨by omega, hlast, ht⟩, by omega, ?_⟩
  exact (readHeader_ok_iff ht head).mpr hread

theorem readHeaders_eq_ok {lines : List (List UInt8)} (hn : n ≤ maxHttpHeaderBytes) :
    readHeaders closed lines n head = .ok (head', rest) ↔
      ∃ headers, lines = headers ++ rest ∧ HeaderLines closed n head headers rest head' := by
  induction lines generalizing n head with
  | nil =>
    simp only [readHeaders]
    constructor
    · intro h
      split at h
      · rename_i hc
        cases h
        exact ⟨[], rfl, ⟨by simp, by simpa using hn, endsHead_nil.mpr ⟨rfl, hc⟩, rfl⟩⟩
      · cases h
    · rintro ⟨headers, he, h⟩
      obtain ⟨rfl, rfl⟩ := append_eq_nil_iff.mp he.symm
      rw [if_pos (endsHead_nil.mp h.ends).2, h.head]
      rfl
  | cons line lines ih =>
    -- the header lines are not empty, since there is input left
    have hcons : (∃ headers, line :: lines = headers ++ rest ∧
        HeaderLines closed n head headers rest head') ↔
        ∃ headers, lines = headers ++ rest ∧
          HeaderLines closed n head (line :: headers) rest head' := by
      constructor
      · rintro ⟨headers, he, h⟩
        cases headers with
        | nil =>
          rw [(endsHead_nil.mp h.ends).1] at he
          cases he
        | cons l headers =>
          cases he
          exact ⟨headers, rfl, h⟩
      · rintro ⟨headers, rfl, h⟩
        exact ⟨line :: headers, rfl, h⟩
    rw [hcons]
    simp only [readHeaders]
    cases hline : readLimitedLine maxHttpHeaderBytes closed line with
    | error e =>
      refine iff_of_false (by simp) ?_
      rintro ⟨headers, -, h⟩
      obtain ⟨text, ht, -⟩ := h.readLimitedLine_ok
      rw [ht] at hline
      cases hline
    | ok text =>
      obtain ⟨-, hlast, ht⟩ := readLimitedLine_eq_ok.mp hline
      dsimp only
      by_cases hbig : maxHttpHeaderBytes < n + line.length
      · rw [if_pos hbig]
        refine iff_of_false (by simp) ?_
        rintro ⟨headers, -, h⟩
        obtain ⟨-, -, hsize, -⟩ := h.readLimitedLine_ok
        omega
      rw [if_neg hbig]
      by_cases hb : text = "\r\n" ∨ text = "\n"
      · rw [if_pos hb]
        simp only [HeaderLines.cons_blank hlast ht hb (Nat.le_of_not_lt hbig)]
        constructor
        · intro h
          cases h
          exact ⟨[], rfl, rfl, rfl⟩
        · rintro ⟨headers, rfl, rfl, rfl⟩
          rfl
      · rw [if_neg hb]
        cases hr : readHeader head text with
        | error e =>
          refine iff_of_false (by simp) ?_
          rintro ⟨headers, -, h⟩
          obtain ⟨text', ht', -, head₁, hr'⟩ := h.readLimitedLine_ok
          rw [hline] at ht'
          cases ht'
          rw [hr] at hr'
          cases hr'
        | ok head₁ =>
          simp only [HeaderLines.cons_field hlast ht hb hr]
          exact ih (Nat.le_of_not_lt hbig)

end headers

theorem readHead_eq_none : readHead c = .ok none ↔ c.bytes = [] ∧ c.closed = true := by
  unfold readHead
  have hnil : cutLines c.bytes = [] ↔ c.bytes = [] := by
    refine ⟨fun h => ?_, fun h => by rw [h]; rfl⟩
    rw [← cutLines_flatten c.bytes, h]
    rfl
  cases hl : cutLines c.bytes with
  | nil =>
    rw [and_iff_right (hnil.mp hl)]
    cases c.closed <;> simp
  | cons line lines =>
    refine iff_of_false ?_ fun h => ?_
    · dsimp only
      split
      · simp
      · split <;> simp
    · rw [hnil.mpr h.1] at hl
      cases hl

theorem readHead_eq_some (req : Request) : readHead c = .ok (some req) ↔
      ∃ requestLine headers, WholeHead c requestLine headers req.rest ∧
        utf8 requestLine = some req.requestLine ∧ req.head = Head.ofLines {} headers := by
  constructor
  · intro h
    unfold readHead at h
    cases hl : cutLines c.bytes with
    | nil =>
      rw [hl] at h
      dsimp only at h
      split at h <;> cases h
    | cons line lines =>
      rw [hl] at h
      dsimp only at h
      cases hline : readLimitedLine maxHttpHeaderBytes c.closed line with
      | error e =>
        rw [hline] at h
        cases h
      | ok requestLine =>
        rw [hline] at h
        obtain ⟨hlen, hlast, ht⟩ := readLimitedLine_eq_ok.mp hline
        cases hr : readHeaders c.closed lines line.length {} with
        | error e =>
          rw [hr] at h
          cases h
        | ok out =>
          rw [hr] at h
          cases h
          obtain ⟨headers, rfl, hh⟩ := (readHeaders_eq_ok hlen).mp hr
          refine ⟨line, headers, ⟨?_, ?_, by rw [ht]; rfl, fun l hm => (hh.lines l hm).2, hh.size,
            ?_⟩, ht, hh.head⟩
          · rw [← cutLines_flatten c.bytes, hl, flatten_cons, flatten_append]
          · have hmem : ∀ l ∈ line :: headers, l ∈ cutLines c.bytes := fun l hm => by
              rw [hl, ← cons_append]
              exact mem_append_left _ hm
            exact forall_mem_cons.mpr ⟨isLine_of_getLast (hmem _ mem_cons_self) hlast,
              fun l hm => isLine_of_getLast (hmem l (mem_cons_of_mem _ hm)) (hh.lines l hm).1⟩
          · have hends := hh.ends
            rcases hends with hb | ⟨hnb, hrest, hc⟩
            · exact Or.inl hb
            · exact Or.inr ⟨hnb, by simp [hrest], hc⟩
  · rintro ⟨line, headers, hw, ht, hhead⟩
    obtain ⟨hline, hheaders⟩ := forall_mem_cons.mp hw.lines
    have hlast : ∀ l, IsLine l → l.getLast? = some newline := by
      rintro l ⟨init, rfl, -⟩
      exact getLast?_concat
    have hcut : cutLines c.bytes = line :: (headers ++ cutLines req.rest) := by
      rw [hw.bytes, cutLines_append hline, cutLines_flatten_append hheaders]
    have hsize := hw.size
    have hl : readLimitedLine maxHttpHeaderBytes c.closed line = .ok req.requestLine :=
      readLimitedLine_eq_ok.mpr ⟨show line.length ≤ maxHttpHeaderBytes by omega, hlast _ hline, ht⟩
    have hr : readHeaders c.closed (headers ++ cutLines req.rest) line.length {} =
        .ok (req.head, cutLines req.rest) := by
      refine (readHeaders_eq_ok (by omega)).mpr ⟨headers, rfl, ?_, hsize, ?_, hhead⟩
      · exact fun l hm => ⟨hlast _ (hheaders l hm), hw.readable l hm⟩
      · rcases hw.ends with hb | ⟨hnb, hrest, hc⟩
        · exact Or.inl hb
        · exact Or.inr ⟨hnb, by rw [hrest]; rfl, hc⟩
    unfold readHead
    rw [hcut]
    dsimp only
    rw [hl]
    rw [hr]
    dsimp only
    rw [cutLines_flatten]

/-! ## One client cannot stop the server, if it is answerable -/

section loop

variable {h : McpHandler} {grammar : List UInt8 → Option Raw}

theorem respond_ok_iff (h : McpHandler) (grammar : List UInt8 → Option Raw) (closed : Bool)
    (req : Request) :
    (∃ response, respond h grammar closed req = .ok response) ↔ BodyArrives h req := by
  unfold respond BodyArrives
  by_cases hacc : h.acceptsRequestToken req.bearerToken = true
  · rw [hacc]
    by_cases hbig : maxHttpRequestBodyBytes < req.contentLength
    · rw [if_neg (by decide), if_pos hbig]
      exact iff_of_true ⟨_, rfl⟩ fun _ hle => absurd hle (by omega)
    · rw [if_neg (by decide), if_neg hbig]
      by_cases hpost : req.isPost = true
      · by_cases hrest : req.rest.length < req.contentLength
        · rw [if_pos (by simp [hpost]; omega), if_pos hrest]
          refine iff_of_false (by simp) fun hb => ?_
          have := hb rfl (by omega) hpost
          omega
        · refine iff_of_true ?_ fun _ _ _ => by omega
          split
          · split <;> exact ⟨_, rfl⟩
          · exact ⟨_, rfl⟩
      · rw [if_neg (by simp [hpost])]
        exact iff_of_true ⟨_, rfl⟩ fun _ _ hp => absurd hp hpost
  · rw [if_pos (by simpa using hacc)]
    exact iff_of_true ⟨_, rfl⟩ fun hp => absurd hp hacc

variable {c : Connection}

theorem readHead_of_whole {line : List UInt8} {headers : List (List UInt8)} {rest : List UInt8}
    (hw : WholeHead c line headers rest) : ∃ text, utf8 line = some text ∧
      readHead c = .ok (some ⟨text, Head.ofLines {} headers, rest⟩) := by
  obtain ⟨text, ht⟩ := Option.isSome_iff_exists.mp hw.requestText
  exact ⟨text, ht, (readHead_eq_some _).mpr ⟨line, headers, hw, ht, rfl⟩⟩

theorem serveClient_ok_iff (grammar : List UInt8 → Option Raw) :
    (∃ answer, serveClient h grammar c = .ok answer) ↔ Answerable h c := by
  unfold serveClient Answerable
  by_cases hconf : c.configurable = true
  · rw [if_pos hconf, and_iff_right hconf, ← readHead_eq_none]
    unfold handleClient
    cases hr : readHead c with
    | error e =>
      refine iff_of_false (by simp) ?_
      rintro (hn | ⟨-, line, headers, rest, hw, -⟩)
      · cases hn
      · obtain ⟨text, -, hread⟩ := readHead_of_whole hw
        rw [hr] at hread
        cases hread
    | ok out =>
      cases out with
      | none => exact iff_of_true ⟨none, rfl⟩ (Or.inl rfl)
      | some req =>
        have hbody : (∃ line headers rest, WholeHead c line headers rest ∧
            ∀ text, utf8 line = some text →
              BodyArrives h ⟨text, Head.ofLines {} headers, rest⟩) ↔ BodyArrives h req := by
          constructor
          · rintro ⟨line, headers, rest, hw, hb⟩
            obtain ⟨text, ht, hread⟩ := readHead_of_whole hw
            rw [hr] at hread
            cases hread
            exact hb text ht
          · intro hb
            obtain ⟨line, headers, hw, ht, hhead⟩ := (readHead_eq_some req).mp hr
            refine ⟨line, headers, req.rest, hw, fun text ht' => ?_⟩
            rw [ht] at ht'
            cases ht'
            rw [← hhead]
            exact hb
        rw [hbody, ← respond_ok_iff h grammar c.closed]
        dsimp only
        cases hresp : respond h grammar c.closed req with
        | error e => simp
        | ok response => cases c.writable <;> simp
  · rw [if_neg hconf]
    exact iff_of_false (by simp) fun ha => hconf ha.1

/-- Whatever the next request is, it gets its response. -/
def StillServes (h : McpHandler) (grammar : List UInt8 → Option Raw) (conns : List Connection) :
    Prop :=
  ∀ c response, serveClient h grammar c = .ok (some response) →
    (HttpTransport.new.run h grammar 0 (conns ++ [c])).answers[conns.length]? =
      some (some response)

def plainRequest : Connection where
  bytes := "GET / HTTP/1.1\r\n\r\n".toUTF8.toList
  closed := false
  writable := true
  configurable := true

theorem plainRequest_served (h : McpHandler) (grammar : List UInt8 → Option Raw) :
    ∃ response, serveClient h grammar plainRequest = .ok (some response) := by
  have hread : readHead plainRequest = .ok (some ⟨"GET / HTTP/1.1\r\n", {}, []⟩) := by
    decide +kernel
  obtain ⟨response, hr⟩ :=
    (respond_ok_iff h grammar false ⟨"GET / HTTP/1.1\r\n", {}, []⟩).mpr fun _ _ _ => by decide
  refine ⟨response, ?_⟩
  unfold serveClient handleClient
  rw [if_pos (show plainRequest.configurable = true from rfl), hread]
  dsimp only
  rw [show plainRequest.closed = false from rfl, hr]
  rfl

theorem run_answers {answer : Option HttpResponse} (hc : serveClient h grammar c = .ok answer)
    {conns : List Connection} {count : Nat} :
    (HttpTransport.new.run h grammar count (conns ++ [c])).answers[conns.length]? = some answer ↔
      ∀ d ∈ conns, ∃ a, serveClient h grammar d = .ok a := by
  induction conns generalizing count with
  | nil =>
    refine iff_of_true ?_ fun d hd => by cases hd
    simp [HttpTransport.run, hc, HttpTransport.new]
  | cons d conns ih =>
    rw [forall_mem_cons]
    simp only [cons_append, HttpTransport.run]
    cases hd : serveClient h grammar d with
    | error e => simp
    | ok a =>
      rw [and_iff_right ⟨a, rfl⟩]
      exact ih

/-- **The server goes on exactly if every client before was answerable.** -/
theorem stillServes_iff (h : McpHandler) (grammar : List UInt8 → Option Raw)
    (conns : List Connection) :
    StillServes h grammar conns ↔ ∀ c ∈ conns, Answerable h c := by
  simp only [← serveClient_ok_iff grammar]
  constructor
  · intro hs
    obtain ⟨response, hr⟩ := plainRequest_served h grammar
    exact (run_answers hr).mp (hs plainRequest response hr)
  · intro hall c response hc
    exact (run_answers hc).mpr hall

/-- A client that closes in the middle of its request line. -/
def cutRequest : Connection where
  bytes := "GET / HT".toUTF8.toList
  closed := true
  writable := true
  configurable := true

/-- The request after a client that closed early is never accepted. -/
theorem cutRequest_stops : ¬ StillServes ⟨none, none, false⟩ (fun _ => none) [cutRequest] := by
  intro hs
  obtain ⟨response, hr⟩ := plainRequest_served ⟨none, none, false⟩ fun _ => none
  have hall := (run_answers hr).mp (hs plainRequest response hr)
  obtain ⟨a, ha⟩ := hall cutRequest mem_cons_self
  have hread : readHead cutRequest = .error (.invalidData "HTTP line too large") := by
    decide +kernel
  unfold serveClient handleClient at ha
  rw [if_pos (show cutRequest.configurable = true from rfl), hread] at ha
  cases ha

end loop

/-! ## Whose guard a request runs under -/

/-- The body the handler is given: that of a `POST` within the limit which has arrived in full. -/
def Request.message (req : Request) : Option (List UInt8) :=
  if req.isPost = true ∧ 0 < req.contentLength ∧ req.contentLength ≤ maxHttpRequestBodyBytes ∧
      req.contentLength ≤ req.rest.length then
    some (req.rest.take req.contentLength)
  else none

section guard

variable (provider : String → Option RbacGuard) (grammar : List UInt8 → Option Raw)

/-- Every answer but 401 is given to a bearer token the provider accepts, and a tool runs under the
guard of that token. -/
def GuardFromBearer (c : Connection) : Prop :=
  ∀ req response, readHead c = .ok (some req) →
    handleClient (tokenHandler provider) grammar c = .ok (some response) →
    response.status = 401 ∨ ∃ token, req.bearerToken = some token ∧ (provider token).isSome ∧
      ∀ id call, response.body = .reply (.call id call) → call.guard = provider token

/-- The body is a message the bearer token is put into, or its own token has no other guard. -/
def NoOtherToken (c : Connection) : Prop :=
  ∀ req body token g, readHead c = .ok (some req) → c.writable = true → req.message = some body →
    req.bearerToken = some token → provider token = some g →
    TokenReplaced (grammar body) ∨
      ∀ t g', ownToken (grammar body) = some t → provider t = some g' → g' = g

variable {provider grammar}

theorem accepts_tokenHandler {token : Option String} :
    (tokenHandler provider).acceptsRequestToken token = true ↔
      ∃ t, token = some t ∧ (provider t).isSome := by
  cases token with
  | none => simp [McpHandler.acceptsRequestToken, tokenHandler]
  | some t => simp [McpHandler.acceptsRequestToken, tokenHandler]

variable {h : McpHandler} {req : Request} {response : HttpResponse}

theorem respond_of_message (grammar : List UInt8 → Option Raw) (closed : Bool) {body : List UInt8}
    (hacc : h.acceptsRequestToken req.bearerToken = true) (hm : req.message = some body) :
    respond h grammar closed req = .ok ⟨200, "OK",
      match h.handleMessageWithToken (grammar body) req.bearerToken with
      | some reply => .reply reply
      | none => .text "\x7b\"status\":\"ok\"\x7d"⟩ := by
  unfold Request.message at hm
  split at hm
  · rename_i hc
    cases hm
    obtain ⟨hpost, hpos, hmax, hrest⟩ := hc
    unfold respond
    rw [hacc, if_neg (by decide), if_neg (by omega), if_pos (by simp [hpost, hpos]),
      if_neg (by omega)]
    cases h.handleMessageWithToken (grammar (req.rest.take req.contentLength)) req.bearerToken with
    | none => rfl
    | some reply => rfl
  · cases hm

theorem message_of_call {closed : Bool} {id : Option Value} {call : ToolsCall}
    (hr : respond h grammar closed req = .ok response) (hb : response.body = .reply (.call id call))
    :
    ∃ body, req.message = some body ∧
      h.handleMessageWithToken (grammar body) req.bearerToken = some (.call id call) := by
  unfold respond at hr
  split at hr
  · cases hr
    cases hb
  split at hr
  · cases hr
    cases hb
  split at hr
  · rename_i hmax hpost
    split at hr
    · cases hr
    · rename_i hrest
      simp only [Bool.and_eq_true, decide_eq_true_eq] at hpost
      refine ⟨req.rest.take req.contentLength,
        if_pos ⟨hpost.1, hpost.2, Nat.le_of_not_lt hmax, Nat.le_of_not_lt hrest⟩, ?_⟩
      split at hr
      · rename_i reply hreply
        cases hr
        cases hb
        exact hreply
      · cases hr
        cases hb
  · cases hr
    cases hb

theorem status_or_accepted {closed : Bool} (hr : respond h grammar closed req = .ok response) :
    response.status = 401 ∨ h.acceptsRequestToken req.bearerToken = true := by
  by_cases hacc : h.acceptsRequestToken req.bearerToken = true
  · exact Or.inr hacc
  · unfold respond at hr
    rw [if_pos (by simpa using hacc)] at hr
    cases hr
    exact Or.inl rfl

theorem handleClient_eq_some {c : Connection} (hread : readHead c = .ok (some req)) :
    handleClient h grammar c = .ok (some response) ↔
      respond h grammar c.closed req = .ok response ∧ c.writable = true := by
  unfold handleClient
  rw [hread]
  dsimp only
  cases respond h grammar c.closed req with
  | error e => simp
  | ok r => cases c.writable <;> simp

/-- **The bearer token alone decides the guard exactly if the body brings no other.** -/
theorem handleClient_guard_iff (provider : String → Option RbacGuard)
    (grammar : List UInt8 → Option Raw) (c : Connection) :
    GuardFromBearer provider grammar c ↔ NoOtherToken provider grammar c := by
  constructor
  · intro h req body token g hread hw hm htok hg
    refine (handleMessageWithToken_guard_iff hg).mp fun id call hcall => ?_
    have hacc : (tokenHandler provider).acceptsRequestToken req.bearerToken = true :=
      accepts_tokenHandler.mpr ⟨token, htok, by rw [hg]; rfl⟩
    have hresp := respond_of_message grammar c.closed hacc hm
    rw [htok, hcall] at hresp
    rcases h req _ hread ((handleClient_eq_some hread).mpr ⟨hresp, hw⟩) with hs | ⟨t, ht, -, hall⟩
    · cases hs
    · rw [htok] at ht
      cases ht
      exact hall id call rfl
  · intro h req response hread hclient
    obtain ⟨hresp, hw⟩ := (handleClient_eq_some hread).mp hclient
    rcases status_or_accepted hresp with hs | hacc
    · exact Or.inl hs
    · obtain ⟨token, htok, hsome⟩ := accepts_tokenHandler.mp hacc
      refine Or.inr ⟨token, htok, hsome, fun id call hb => ?_⟩
      obtain ⟨g, hg⟩ := Option.isSome_iff_exists.mp hsome
      obtain ⟨body, hm, hcall⟩ := message_of_call hresp hb
      rw [htok] at hcall
      exact (handleMessageWithToken_guard_iff hg).mpr (h req body token g hread hw hm htok hg)
        id call hcall

end guard

/-- Two tokens, one of which sees only what is public. -/
def twoTokens (token : String) : Option RbacGuard :=
  if token = "reader" then some ⟨⟨"reader", [], []⟩, fun _ => false⟩
  else if token = "admin" then some ⟨⟨"admin", ["internal"], []⟩, fun _ => false⟩
  else none

/-- A request whose fields stand in an array, in order. -/
def positionalText : String :=
  "[\"2.0\",1,\"tools/call\",\x7b\"name\":\"weave_repo_map\",\"arguments\":" ++
    "\x7b\"_meta\":\x7b\"token\":\"admin\"\x7d\x7d\x7d]"

def positionalRaw : Raw :=
  .arr [.str (some "2.0"), .num (some (.posInt 1)), .str (some "tools/call"),
    .obj [(some "name", .str (some "weave_repo_map")),
      (some "arguments", .obj [(some "_meta", .obj [(some "token", .str (some "admin"))])])]]

/-- What the grammar makes of `positionalText`. -/
def positionalGrammar (body : List UInt8) : Option Raw :=
  if body = positionalText.toUTF8.toList then some positionalRaw else none

def positionalConnection : Connection where
  bytes := ("POST / HTTP/1.1\r\nAuthorization: Bearer reader\r\nContent-Length: 88\r\n\r\n" ++
    positionalText).toUTF8.toList
  closed := false
  writable := true
  configurable := true

def positionalHead : Request where
  requestLine := "POST / HTTP/1.1\r\n"
  head := ⟨some 88, some "Bearer reader"⟩
  rest := positionalText.toUTF8.toList

/-- The bearer is `reader`, but the tool runs under the guard of `admin`. -/
theorem positionalRequest_guard :
    ¬ GuardFromBearer twoTokens positionalGrammar positionalConnection := by
  intro h
  have hread : readHead positionalConnection = .ok (some positionalHead) := by decide +kernel
  have hm : positionalHead.message = some positionalText.toUTF8.toList := by decide +kernel
  have hbearer : positionalHead.bearerToken = some "reader" := by decide +kernel
  have hacc : (tokenHandler twoTokens).acceptsRequestToken positionalHead.bearerToken = true := by
    rfl
  have hresp := respond_of_message positionalGrammar false hacc hm
  have hcall : (tokenHandler twoTokens).handleMessageWithToken (some positionalRaw)
      (some "reader") = some (.call (some (.num (.posInt 1)))
        ⟨twoTokens "admin", "weave_repo_map", .obj []⟩) := by rfl
  rw [show positionalGrammar positionalText.toUTF8.toList = some positionalRaw from if_pos rfl,
    hbearer, hcall] at hresp
  rcases h _ _ hread ((handleClient_eq_some hread).mpr ⟨hresp, rfl⟩) with hs | ⟨t, ht, -, hall⟩
  · cases hs
  · obtain rfl : "reader" = t := Option.some.inj (hbearer.symm.trans ht)
    have hguard := congrArg (Option.map fun g => g.identity.subject) (hall _ _ rfl)
    exact absurd hguard (by decide)

end WeaveGraph.Mcp
