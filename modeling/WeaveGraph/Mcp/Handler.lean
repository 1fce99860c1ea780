import WeaveGraph.Lib.Json
import WeaveGraph.Core.Rbac

/-!
# The MCP message handler

`McpHandler` reads a JSON-RPC message and decides under which guard a tool runs.  A message is the
`Raw` tree of its text, `none` when the text is no JSON.  The handler reads it twice, and the two
readers do not accept the same texts:

* `Raw.read` (`serde_json::from_str::<Value>`) reads the whole text as a value;
* `JsonRpcRequest.read` (the derived reader of the request type) skips fields it does not know
  whatever they hold, refuses a repeated field, and takes an array of the fields in order.

A tool that is to run is kept as a `ToolsCall`; what the tools answer is modelled elsewhere.
-/

namespace WeaveGraph.Mcp

open Lib.Json Option

/-- How deep `serde_json` follows arrays and objects. -/
def recursionLimit : Nat := 128

/-! ## Requests -/

structure JsonRpcRequest where
  jsonrpc : String
  id : Option Value
  method : String
  params : Option Value

/-- The fields of a request read so far. -/
structure RequestFields where
  jsonrpc : Option String := none
  id : Option (Option Value) := none
  method : Option String := none
  params : Option (Option Value) := none

def readString : Raw → Option String
  | .str s => s
  | _ => none

/-- `Option<Value>`: `null` is `None`. -/
def readOptional : Raw → Option (Option Value)
  | .null => some none
  | r => (r.read (recursionLimit - 1)).map some

/-- A field that was read already is a duplicate field. -/
def fill {α : Type} (slot value : Option α) : Option (Option α) :=
  match slot with
  | some _ => none
  | none => value.map some

/-- One field of an object; unknown fields are skipped. -/
def RequestFields.readField (p : RequestFields) : Option String × Raw → Option RequestFields
  | (none, _) => none
  | (some key, r) =>
    if key = "jsonrpc" then (fill p.jsonrpc (readString r)).map fun s => { p with jsonrpc := s }
    else if key = "id" then (fill p.id (readOptional r)).map fun v => { p with id := v }
    else if key = "method" then (fill p.method (readString r)).map fun s => { p with method := s }
    else if key = "params" then
      (fill p.params (readOptional r)).map fun v => { p with params := v }
    else some p

def RequestFields.finish (p : RequestFields) : Option JsonRpcRequest :=
  match p.jsonrpc, p.method with
  | some jsonrpc, some method => some ⟨jsonrpc, p.id.getD none, method, p.params.getD none⟩
  | _, _ => none

/-- The reader `Deserialize` derives for the request: an object, or an array of its fields. -/
def JsonRpcRequest.read : Raw → Option JsonRpcRequest
  | .obj fields => (fields.foldlM RequestFields.readField {}).bind RequestFields.finish
  | .arr [jsonrpc, id, method] => do
    some ⟨← readString jsonrpc, ← readOptional id, ← readString method, none⟩
  | .arr [jsonrpc, id, method, params] => do
    some ⟨← readString jsonrpc, ← readOptional id, ← readString method, ← readOptional params⟩
  | _ => none

/-! ## The handler -/

/-- What a session knows about its callers. -/
structure McpHandler where
  rbacGuard : Option RbacGuard
  tokenAuthProvider : Option (String → Option RbacGuard)
  requireAuth : Bool

/-- A tool to run, the guard to run it under and its arguments. -/
structure ToolsCall where
  guard : Option RbacGuard
  name : String
  args : Value

/-- The answer to a message; `call` is the result of the tool. -/
inductive Reply where
  | parseError
  | error (id : Option Value) (code : Int) (message : String)
  | initializeResult (id : Option Value)
  | ping (id : Option Value)
  | toolsList (id : Option Value)
  | call (id : Option Value) (call : ToolsCall)

/-- The token in the `_meta` field of a tool's arguments. -/
def metaToken (args : Value) : Option String :=
  ((args.get "_meta").bind fun m => m.get "token").bind Value.asStr

/-- `obj.remove("_meta")`. -/
def removeMeta : Value → Value
  | .obj fields => .obj (fields.filter fun f => f.1 ≠ "_meta")
  | v => v

def callName (params : Value) : Option String := (params.get "name").bind Value.asStr

def callArguments (params : Value) : Value := (params.get "arguments").getD (.obj [])

namespace McpHandler

/-- The guard of the token a call carries; a session with a guard of its own does not ask. -/
def resolvedGuard (h : McpHandler) (token : Option String) : Option RbacGuard :=
  match token, h.rbacGuard, h.tokenAuthProvider with
  | some t, none, some provider => provider t
  | _, _, _ => none

def unauthorized (id : Option Value) : Reply :=
  .error id (-32000) "Unauthorized: valid _meta.token required (SEC-07)"

def handleToolsCall (h : McpHandler) (id params : Option Value) : Reply :=
  match params with
  | none => .error id (-32602) "Missing params for tools/call"
  | some params =>
    match callName params with
    | none => .error id (-32602) "Missing tool name in tools/call"
    | some name =>
      let args := callArguments params
      let resolved := h.resolvedGuard (metaToken args)
      if h.requireAuth && h.rbacGuard.isNone && resolved.isNone then unauthorized id
      else .call id ⟨resolved.or h.rbacGuard, name, removeMeta args⟩

def handleMessage (h : McpHandler) (raw : Option Raw) : Option Reply :=
  match raw.bind JsonRpcRequest.read with
  | none => some .parseError
  | some req =>
    if req.method = "initialize" then some (.initializeResult req.id)
    else if req.method = "notifications/initialized" then none
    else if req.method = "ping" then some (.ping req.id)
    else if req.method = "tools/list" then some (.toolsList req.id)
    else if req.method = "tools/call" then some (h.handleToolsCall req.id req.params)
    else if req.id.isSome then some (.error req.id (-32601) ("Method not found: " ++ req.method))
    else none

end McpHandler

/-- The request with `_meta` of its arguments set to the token; `none` when it is no `tools/call`
with object parameters and object arguments. -/
def attachToken (token : String) (request : Value) : Option Value :=
  match request with
  | .obj fields =>
    if (fields.lookup "method").bind Value.asStr ≠ some "tools/call" then none
    else
      match (fields.lookup "params").bind Value.asObject with
      | none => none
      | some params =>
        match ((params.lookup "arguments").getD (.obj [])).asObject with
        | none => none
        | some arguments =>
          let arguments := insertField "_meta" (.obj [("token", .str token)]) arguments
          let params := insertField "arguments" (.obj arguments) params
          some (.obj (insertField "params" (.obj params) fields))
  | _ => none

namespace McpHandler

/-- Applies the credential of the transport; a message it does not apply to is handled as it
came. -/
def handleMessageWithToken (h : McpHandler) (raw : Option Raw) (token : Option String) :
    Option Reply :=
  match token with
  | none => h.handleMessage raw
  | some token =>
    match (raw.bind fun r => r.read recursionLimit).bind (attachToken token) with
    | none => h.handleMessage raw
    | some request => h.handleMessage (some request.toRaw)

def acceptsRequestToken (h : McpHandler) (token : Option String) : Bool :=
  if !h.requireAuth || h.rbacGuard.isSome then true
  else
    match token, h.tokenAuthProvider with
    | some t, some provider => (provider t).isSome
    | _, _ => false

end McpHandler

/-! ## Reading a request -/

theorem fill_eq_some {α : Type} {slot value filled : Option α} (h : fill slot value = some filled) :
    slot = none ∧ ∃ a, value = some a ∧ filled = some a := by
  cases slot with
  | some a => cases h
  | none =>
    obtain ⟨a, ha, rfl⟩ := map_eq_some_iff.mp h
    exact ⟨rfl, a, ha, rfl⟩

theorem readField_eq_some {p p' : RequestFields} {f : Option String × Raw}
    (h : p.readField f = some p') :
    (p'.method = p.method ∨ p.method = none) ∧ (p'.params = p.params ∨ p.params = none) ∧
      (f.1 = some "method" → ∃ s, readString f.2 = some s ∧ p'.method = some s) ∧
      (f.1 = some "params" → ∃ v, readOptional f.2 = some v ∧ p'.params = some v) := by
  obtain ⟨key, r⟩ := f
  cases key with
  | none => cases h
  | some key =>
    simp only [RequestFields.readField] at h
    split at h
    · rename_i hk
      obtain ⟨x, -, rfl⟩ := map_eq_some_iff.mp h
      exact ⟨Or.inl rfl, Or.inl rfl, by simp [hk], by simp [hk]⟩
    split at h
    · rename_i hk
      obtain ⟨x, -, rfl⟩ := map_eq_some_iff.mp h
      exact ⟨Or.inl rfl, Or.inl rfl, by simp [hk], by simp [hk]⟩
    split at h
    · rename_i hk
      obtain ⟨x, hx, rfl⟩ := map_eq_some_iff.mp h
      obtain ⟨hnone, s, hs, rfl⟩ := fill_eq_some hx
      exact ⟨Or.inr hnone, Or.inl rfl, fun _ => ⟨s, hs, rfl⟩, by simp [hk]⟩
    split at h
    · rename_i hk
      obtain ⟨x, hx, rfl⟩ := map_eq_some_iff.mp h
      obtain ⟨hnone, v, hv, rfl⟩ := fill_eq_some hx
      exact ⟨Or.inl rfl, Or.inr hnone, by simp [hk], fun _ => ⟨v, hv, rfl⟩⟩
    · rename_i hm hp
      cases h
      exact ⟨Or.inl rfl, Or.inl rfl, fun he => absurd (some.inj he) hm,
        fun he => absurd (some.inj he) hp⟩

variable {fields : List (Option String × Raw)}

theorem readField_keeps :
    ∀ {p p' : RequestFields}, fields.foldlM RequestFields.readField p = some p' →
      (∀ s, p.method = some s → p'.method = some s) ∧
        ∀ v, p.params = some v → p'.params = some v := by
  induction fields with
  | nil =>
    intro p p' h
    cases h
    exact ⟨fun _ hs => hs, fun _ hv => hv⟩
  | cons f fields ih =>
    intro p p' h
    obtain ⟨q, hq, h⟩ := bind_eq_some_iff.mp h
    obtain ⟨hm, hp, -, -⟩ := readField_eq_some hq
    obtain ⟨ihm, ihp⟩ := ih h
    refine ⟨fun s hs => ihm s ?_, fun v hv => ihp v ?_⟩
    · rcases hm with hm | hm
      · rw [hm, hs]
      · rw [hm] at hs
        cases hs
    · rcases hp with hp | hp
      · rw [hp, hv]
      · rw [hp] at hv
        cases hv

theorem read_obj_eq_some {req : JsonRpcRequest} (h : JsonRpcRequest.read (.obj fields) = some req) :
    (∀ r, (some "method", r) ∈ fields → readString r = some req.method) ∧
      ∀ r, (some "params", r) ∈ fields → readOptional r = some req.params := by
  obtain ⟨p, hp, hfin⟩ := bind_eq_some_iff.mp (show (fields.foldlM
    RequestFields.readField {}).bind RequestFields.finish = some req from h)
  have hslots : (∀ s, p.method = some s → req.method = s) ∧
      ∀ v, p.params = some v → req.params = v := by
    unfold RequestFields.finish at hfin
    split at hfin
    · rename_i hm
      cases hfin
      exact ⟨fun s hs => some.inj (hm.symm.trans hs), fun v hv => by rw [hv]; rfl⟩
    · cases hfin
  -- the fold up to and including a field leaves its slot filled
  have hsplit : ∀ f ∈ fields, ∃ q q', RequestFields.readField q f = some q' ∧
      ∃ rest : List (Option String × Raw), rest.foldlM RequestFields.readField q' = some p := by
    intro f hf
    obtain ⟨l₁, l₂, rfl⟩ := List.append_of_mem hf
    rw [List.foldlM_append] at hp
    obtain ⟨q, -, hq⟩ := bind_eq_some_iff.mp hp
    obtain ⟨q', hq', hrest⟩ := bind_eq_some_iff.mp hq
    exact ⟨q, q', hq', l₂, hrest⟩
  constructor
  · intro r hr
    obtain ⟨q, q', hq, rest, hrest⟩ := hsplit _ hr
    obtain ⟨s, hs, hs'⟩ := (readField_eq_some hq).2.2.1 rfl
    rw [hs, hslots.1 s ((readField_keeps hrest).1 s hs')]
  · intro r hr
    obtain ⟨q, q', hq, rest, hrest⟩ := hsplit _ hr
    obtain ⟨v, hv, hv'⟩ := (readField_eq_some hq).2.2.2 rfl
    rw [hv, hslots.2 v ((readField_keeps hrest).2 v hv')]

/-! ## The guard of a call -/

/-- The message is a `tools/call` under an object the value reader accepts, with object parameters
and no other arguments than an object: the credential of the transport is put into it. -/
def TokenReplaced (raw : Option Raw) : Prop :=
  ∃ fields params, (raw.bind fun r => r.read recursionLimit) = some (.obj fields) ∧
    (fields.lookup "method").bind Value.asStr = some "tools/call" ∧
    (fields.lookup "params").bind Value.asObject = some params ∧
    (((params.lookup "arguments").getD (.obj [])).asObject).isSome

/-- The token a `tools/call` message spells itself. -/
def ownToken (raw : Option Raw) : Option String :=
  (raw.bind JsonRpcRequest.read).bind fun req =>
    if req.method = "tools/call" then
      req.params.bind fun params =>
        if (callName params).isSome then metaToken (callArguments params) else none
    else none

theorem attachToken_isSome_iff (token : String) {raw : Option Raw} :
    ((raw.bind fun r => r.read recursionLimit).bind (attachToken token)).isSome ↔
      TokenReplaced raw := by
  unfold TokenReplaced
  cases (raw.bind fun r => r.read recursionLimit) with
  | none => simp
  | some v =>
    cases v with
    | obj fields =>
      simp only [bind_some, attachToken, some.injEq, Value.obj.injEq]
      constructor
      · intro h
        split at h
        · cases h
        · rename_i hm
          split at h
          · cases h
          · rename_i params hp
            split at h
            · cases h
            · rename_i arguments ha
              exact ⟨fields, params, rfl, not_not.mp hm, hp, by rw [ha]; rfl⟩
      · rintro ⟨_, params, rfl, hm, hp, ha⟩
        obtain ⟨arguments, ha⟩ := isSome_iff_exists.mp ha
        rw [if_neg (not_not.mpr hm), hp]
        dsimp only
        rw [ha]
        rfl
    | _ => simp [attachToken]

section guarded

variable (provider : String → Option RbacGuard)

/-- A handler that requires a token and has a provider, but no guard of the session. -/
def tokenHandler : McpHandler := ⟨none, some provider, true⟩

variable {provider}

variable {id : Option Value} {g : RbacGuard} {raw : Option Raw}

/-- A call is made only with a token the provider accepts, under the guard it gives. -/
theorem handleToolsCall_eq_call {id' params : Option Value} {c : ToolsCall}
    (h : (tokenHandler provider).handleToolsCall id params = .call id' c) :
    ∃ ps t g, params = some ps ∧ (callName ps).isSome ∧ metaToken (callArguments ps) = some t ∧
      provider t = some g ∧ c.guard = some g := by
  unfold McpHandler.handleToolsCall at h
  cases params with
  | none => cases h
  | some ps =>
    cases hname : callName ps with
    | none =>
      simp only [hname] at h
      cases h
    | some name =>
      simp only [hname] at h
      cases htok : metaToken (callArguments ps) with
      | none =>
        simp only [htok, McpHandler.resolvedGuard] at h
        cases h
      | some t =>
        cases hg : provider t with
        | none =>
          simp only [htok, McpHandler.resolvedGuard, tokenHandler, hg] at h
          cases h
        | some g =>
          simp only [htok, McpHandler.resolvedGuard, tokenHandler, hg] at h
          cases h
          exact ⟨ps, t, g, rfl, by rw [hname]; rfl, htok, hg, rfl⟩

theorem handleToolsCall_of_token (id : Option Value) {ps : Value} {t : String}
    (hname : (callName ps).isSome) (ht : metaToken (callArguments ps) = some t)
    (hg : provider t = some g) :
    ∃ c, (tokenHandler provider).handleToolsCall id (some ps) = .call id c ∧ c.guard = some g := by
  obtain ⟨name, hname⟩ := isSome_iff_exists.mp hname
  refine ⟨⟨some g, name, removeMeta (callArguments ps)⟩, ?_, rfl⟩
  simp [McpHandler.handleToolsCall, hname, McpHandler.resolvedGuard, tokenHandler, ht, hg]

theorem handleMessage_eq_call {c : ToolsCall}
    (h : (tokenHandler provider).handleMessage raw = some (.call id c)) :
    ∃ req, raw.bind JsonRpcRequest.read = some req ∧ req.method = "tools/call" ∧
      (tokenHandler provider).handleToolsCall req.id req.params = .call id c := by
  unfold McpHandler.handleMessage at h
  cases hreq : raw.bind JsonRpcRequest.read with
  | none =>
    rw [hreq] at h
    cases h
  | some req =>
    simp only [hreq] at h
    split at h
    · cases h
    split at h
    · cases h
    split at h
    · cases h
    split at h
    · cases h
    split at h
    · rename_i hm
      exact ⟨req, rfl, hm, some.inj h⟩
    split at h
    · cases h
    · cases h

/-- The handler makes a call under exactly the guard of the message's own token. -/
theorem handleMessage_call_iff :
    (∃ id c, (tokenHandler provider).handleMessage raw = some (.call id c) ∧ c.guard = some g) ↔
      ∃ t, ownToken raw = some t ∧ provider t = some g := by
  constructor
  · rintro ⟨id, c, h, hc⟩
    obtain ⟨req, hreq, hm, hcall⟩ := handleMessage_eq_call h
    obtain ⟨ps, t, g', hps, hname, ht, hg', hcg⟩ := handleToolsCall_eq_call hcall
    refine ⟨t, ?_, hg'.trans (hcg.symm.trans hc)⟩
    simp [ownToken, hreq, hm, hps, hname, ht]
  · rintro ⟨t, ht, hg⟩
    obtain ⟨req, hreq, ht⟩ := bind_eq_some_iff.mp ht
    split at ht
    · rename_i hm
      obtain ⟨ps, hps, ht⟩ := bind_eq_some_iff.mp ht
      split at ht
      · rename_i hname
        obtain ⟨c, hcall, hc⟩ := handleToolsCall_of_token req.id hname ht hg
        refine ⟨req.id, c, ?_, hc⟩
        simp [McpHandler.handleMessage, hreq, hm, hps, hcall]
      · cases ht
    · cases ht

theorem ownToken_attached {token t : String} {v request : Value} {raw : Raw}
    (hread : raw.read recursionLimit = some v) (hatt : attachToken token v = some request)
    (ht : ownToken (some request.toRaw) = some t) : t = token := by
  have hfits := fits_of_read raw hread
  cases v with
  | obj fields =>
    simp only [attachToken] at hatt
    split at hatt
    · cases hatt
    split at hatt
    · cases hatt
    rename_i params hp
    split at hatt
    · cases hatt
    rename_i arguments ha
    cases hatt
    obtain ⟨req, hreq, ht⟩ := bind_eq_some_iff.mp ht
    split at ht
    · obtain ⟨ps, hps, ht⟩ := bind_eq_some_iff.mp ht
      split at ht
      · obtain ⟨-, -, hfields⟩ := hfits
        obtain ⟨pv, hpv, hpo⟩ := bind_eq_some_iff.mp hp
        have hparams := fits_of_asObject (fits_of_lookup hfields hpv) hpo
        have hargs : (Value.obj arguments).Fits (recursionLimit - 2) := by
          cases hl : params.lookup "arguments" with
          | none =>
            rw [hl] at ha
            cases ha
            exact ⟨by decide, by simp, trivial⟩
          | some av =>
            rw [hl] at ha
            exact fits_of_asObject (fits_of_lookup hparams.2.2 hl) ha
        have hmeta : (Value.obj [("token", .str token)]).Fits (recursionLimit - 3) :=
          ⟨by decide, by simp, trivial, trivial⟩
        have hnew : (Value.obj (insertField "arguments"
            (.obj (insertField "_meta" (.obj [("token", .str token)]) arguments)) params)).Fits
              (recursionLimit - 1) :=
          fits_insertField hparams (fits_insertField hargs hmeta)
        -- what the rewritten text reads as
        have hraw := mem_fieldsToRaw (lookup_insertField_self "params" (.obj (insertField
          "arguments" (.obj (insertField "_meta" (.obj [("token", .str token)]) arguments))
          params)) fields)
        have hopt := (read_obj_eq_some hreq).2 _ hraw
        rw [hps] at hopt
        have hread' := read_toRaw _ hnew
        simp only [Value.toRaw, readOptional] at hopt hread'
        rw [hread'] at hopt
        cases hopt
        simp only [callArguments, Value.get, lookup_insertField_self, getD_some,
          metaToken] at ht
        exact (some.inj ht).symm
      · cases ht
    · cases ht
  | _ => cases hatt

/-- **Whose guard a call runs under.**  With a credential the provider accepts, every call runs
under the guard of that credential exactly if the credential is put into the message, or the
message's own token has no other guard. -/
theorem handleMessageWithToken_guard_iff {token : String} (hg : provider token = some g) :
    (∀ id c, (tokenHandler provider).handleMessageWithToken raw (some token) =
        some (.call id c) → c.guard = provider token) ↔
      TokenReplaced raw ∨ ∀ t g', ownToken raw = some t → provider t = some g' → g' = g := by
  have hcases : ∀ raw' : Option Raw,
      (∀ id c, (tokenHandler provider).handleMessage raw' = some (.call id c) →
        c.guard = provider token) ↔
        ∀ t g', ownToken raw' = some t → provider t = some g' → g' = g := by
    intro raw'
    constructor
    · intro h t g' ht hg'
      obtain ⟨id, c, hcall, hc⟩ := handleMessage_call_iff.mpr ⟨t, ht, hg'⟩
      have := h id c hcall
      rw [hc, hg] at this
      exact some.inj this
    · intro h id c hcall
      obtain ⟨req, hreq, -, hc⟩ := handleMessage_eq_call hcall
      obtain ⟨ps, t, g', -, -, -, -, hcg⟩ := handleToolsCall_eq_call hc
      obtain ⟨t, ht, hg'⟩ := handleMessage_call_iff.mp ⟨id, c, hcall, hcg⟩
      rw [hcg, hg, h t g' ht hg']
  simp only [McpHandler.handleMessageWithToken]
  cases hatt : (raw.bind fun r => r.read recursionLimit).bind (attachToken token) with
  | none =>
    have hnot : ¬ TokenReplaced raw := by
      rw [← attachToken_isSome_iff token, hatt]
      exact Bool.false_ne_true
    simp only [hcases, hnot, false_or]
  | some request =>
    have hrep : TokenReplaced raw := by
      rw [← attachToken_isSome_iff token, hatt]
      rfl
    refine iff_of_true ((hcases _).mpr fun t g' ht hg' => ?_) (Or.inl hrep)
    obtain ⟨v, hv, hvatt⟩ := bind_eq_some_iff.mp hatt
    obtain ⟨r, -, hread⟩ := bind_eq_some_iff.mp hv
    obtain rfl := ownToken_attached hread hvatt ht
    exact some.inj (hg'.symm.trans hg)

end guarded

end WeaveGraph.Mcp
