import AethelDB.Pageserver.LineProtocol

/-!
# The HTTP control endpoint

`read_request`, `route` and `handle` of `pageserver/src/httpapi.rs`: one request on a
connection, from the pieces in which its bytes arrive to the response. `serde_json` is a
parameter (`Json`): how bodies are read, and how a reply prints.

The header ends at the first blank line, wherever the pieces are cut: `readHeader_eq` says what
is read in terms of all the bytes.

As on the line endpoint, reading an id can panic; there is then no response, and what was done
before stays done.
-/

namespace AethelDB.Pageserver

open AethelDB.Lib AethelDB.Text

/-! ## Bodies and replies -/

structure TenantBody where
  id : String

structure CreateBody where
  id : String
  tenant : Option String

structure BranchBody where
  timeline : String
  parent : String
  lsn : UInt64
  tenant : Option String

structure ReceiveBody where
  timeline : String
  safekeeper : String
  startLsn : UInt64
  tenant : Option String

structure GcBody where
  horizonLsn : UInt64
  tenant : Option String

/-- The JSON documents of the responses. -/
inductive HttpBody where
  | error (msg : String)
  | healthy
  | deleted (id : TenantId)
  | tenants (ids : List String)
  | createdTenant (id : TenantId)
  | timelines (ids : List String)
  | created (id : TimelineId)
  | branched (new parent : TimelineId) (lsn : UInt64)
  | receiving (timeline : TimelineId) (safekeeper : String)
  | collected (horizon : UInt64) (c : ControlState.Collected)

/-- `serde_json`: `from_slice` at the type of each body, and `to_string`. -/
structure Json where
  tenantBody : List UInt8 → Except String TenantBody
  createBody : List UInt8 → Except String CreateBody
  branchBody : List UInt8 → Except String BranchBody
  receiveBody : List UInt8 → Except String ReceiveBody
  gcBody : List UInt8 → Except String GcBody
  print : HttpBody → String

abbrev HttpReply := Nat × HttpBody

def err (status : Nat) (msg : String) : HttpReply := (status, .error msg)

/-! ## Routing -/

/-- What a handler comes to: the state, and the reply unless it panicked. -/
abbrev Handled := ControlState × Option HttpReply

/-- Go on with a body, or refuse it. -/
def withBody {α : Type} (s : ControlState) (body : Except String α) (k : α → Handled) : Handled :=
  match body with
  | .ok b => k b
  | .error e => (s, some (err 400 ("invalid body: " ++ e)))

/-- Go on with an id, or refuse its text. -/
def withId {α : Type} (s : ControlState) (id : Parsed α) (msg : String) (k : α → Handled) :
    Handled :=
  match id with
  | .ok id => k id
  | .error _ => (s, some (err 400 msg))
  | .panicked => (s, none)

/-- Resolve an optional tenant id, provisioning the tenant on first use. -/
def resolveTenant (s : ControlState) (raw : Option String)
    (k : ControlState → TenantId → Handled) : Handled :=
  match raw with
  | none => k (s.reference TenantId.ZERO) TenantId.ZERO
  | some text =>
    withId s (TenantId.parse text) "tenant must be 32 hex chars" fun id => k (s.reference id) id

/-- The `tenant` parameter of a query string. -/
def queryTenant (query : List Char) : Option String :=
  ((query.splitOn '&').findSome? (stripStart "tenant=".toList)).map String.ofList

/-- Answer what a change of a tenant came to. -/
def timelineCreated (s : ControlState) (body : HttpBody) :
    Except TenantError ControlState → Handled
  | .ok s' => (s', some (201, body))
  | .error e => (s, some (err 409 e.display))

def deleteTenant (s : ControlState) (id : String) : Handled :=
  withId s (TenantId.parse id) "tenant id must be 32 hex chars" fun id =>
    let (manager, existed) := s.manager.remove id
    ({ s with manager := manager },
      some (if existed then (200, .deleted id) else err 404 ("unknown tenant " ++ id.id.display)))

def postTenant (json : Json) (s : ControlState) (body : List UInt8) : Handled :=
  withBody s (json.tenantBody body) fun b =>
    withId s (TenantId.parse b.id) "id must be 32 hex chars" fun id =>
      match s.manager.create id with
      | .ok (manager, _) => ({ s with manager := manager }, some (201, .createdTenant id))
      | .error e => (s, some (err 409 e.display))

def getTimelines (s : ControlState) (query : List Char) : Handled :=
  resolveTenant s (queryTenant query) fun s tenant =>
    (s, some (200, .timelines (s.timelineIds tenant)))

def postTimeline (json : Json) (s : ControlState) (body : List UInt8) : Handled :=
  withBody s (json.createBody body) fun b =>
    resolveTenant s b.tenant fun s tenant =>
      withId s (TimelineId.parse b.id) "id must be 32 hex chars" fun id =>
        timelineCreated s (.created id) (s.perform tenant (.create id))

/-- `POST /v1/branches`. Both ids are read before either is refused. -/
def postBranch (json : Json) (s : ControlState) (body : List UInt8) : Handled :=
  withBody s (json.branchBody body) fun b =>
    resolveTenant s b.tenant fun s tenant =>
      match TimelineId.parse b.timeline, TimelineId.parse b.parent with
      | .panicked, _ => (s, none)
      | _, .panicked => (s, none)
      | .ok new, .ok parent =>
        timelineCreated s (.branched new parent b.lsn)
          (s.perform tenant (.branch new parent ⟨b.lsn⟩))
      | _, _ => (s, some (err 400 "timeline and parent must be 32 hex chars"))

def postReceive (json : Json) (answers : Answers) (s : ControlState) (body : List UInt8) :
    Handled :=
  withBody s (json.receiveBody body) fun b =>
    resolveTenant s b.tenant fun s tenant =>
      withId s (TimelineId.parse b.timeline) "timeline must be 32 hex chars" fun timeline =>
        match answers.socketAddr b.safekeeper with
        | none => (s, some (err 400 "safekeeper must be host:port"))
        | some addr =>
          match (s.tenant tenant).getTimeline timeline with
          | none => (s, some (err 404 ("unknown timeline " ++ timeline.id.display)))
          | some _ =>
            match s.receive answers addr tenant timeline ⟨b.startLsn⟩ with
            | .ok s' => (s', some (200, .receiving timeline b.safekeeper))
            | .error e => (s, some (err 502 ("connecting to safekeeper: " ++ e)))

def postGc (json : Json) (answers : Answers) (s : ControlState) (body : List UInt8) : Handled :=
  withBody s (json.gcBody body) fun b =>
    resolveTenant s b.tenant fun s tenant =>
      let (s', c) := s.collect answers.deletes tenant ⟨b.horizonLsn⟩
      (s', some (200, .collected b.horizonLsn c))

/-- The id in the path of a request to delete a tenant. -/
def deletedId (method path : String) : Option String :=
  if method = "DELETE" then
    (stripStart "/v1/tenants/".toList path.toList).map String.ofList
  else none

def route (json : Json) (answers : Answers) (s : ControlState) (method path : String)
    (query : List Char) (body : List UInt8) : Handled :=
  match deletedId method path with
  | some id => deleteTenant s id
  | none =>
    match method, path with
    | "GET", "/healthz" => (s, some (200, .healthy))
    | "GET", "/v1/tenants" => (s, some (200, .tenants s.tenantIds))
    | "POST", "/v1/tenants" => postTenant json s body
    | "GET", "/v1/timelines" => getTimelines s query
    | "POST", "/v1/timelines" => postTimeline json s body
    | "POST", "/v1/branches" => postBranch json s body
    | "POST", "/v1/timelines/receive" => postReceive json answers s body
    | "POST", "/v1/gc" => postGc json answers s body
    | _, _ => (s, some (err 404 "not found"))

/-! ## Reading a request -/

/-- The place of the first occurrence of `needle`, which is not empty. -/
def findSubsequence (needle : List UInt8) : List UInt8 → Option Nat
  | [] => none
  | b :: bytes =>
    if needle.isPrefixOf (b :: bytes) then some 0
    else (findSubsequence needle bytes).map (· + 1)

/-- `\r\n\r\n`. -/
def headerTerminator : List UInt8 := [13, 10, 13, 10]

/-- What the peer sends: the pieces that reads return, an empty one at the end of the stream.
After the last piece the stream ends, or reading fails with an error. -/
structure Incoming where
  chunks : List (List UInt8)
  failure : Option String

/-- The read that returns no bytes, while the header is incomplete. -/
def headerCut (failure : Option String) (buf : List UInt8) :
    Except String (Option (Nat × List UInt8 × List (List UInt8))) :=
  match failure with
  | some e => .error e
  | none => if buf.isEmpty then .ok none else .error "incomplete request"

/-- Read until the header terminator is in the buffer: its place, the buffer, and the pieces
still to come. -/
def readHeader (failure : Option String) :
    List UInt8 → List (List UInt8) → Except String (Option (Nat × List UInt8 × List (List UInt8)))
  | buf, [] =>
    match findSubsequence headerTerminator buf with
    | some pos => .ok (some (pos, buf, []))
    | none => headerCut failure buf
  | buf, chunk :: chunks =>
    match findSubsequence headerTerminator buf with
    | some pos => .ok (some (pos, buf, chunk :: chunks))
    | none =>
      if chunk.isEmpty then headerCut none buf
      else if (buf ++ chunk).length < 2 ^ 20 then readHeader failure (buf ++ chunk) chunks
      else .error "request headers too large"

/-- Read until the body has `length` bytes. -/
def readBody (failure : Option String) (length : Nat) :
    List UInt8 → List (List UInt8) → Except String (List UInt8)
  | body, [] =>
    if body.length < length then
      match failure with
      | some e => .error e
      | none => .ok body
    else .ok (body.take length)
  | body, chunk :: chunks =>
    if body.length < length then
      if chunk.isEmpty then .ok body else readBody failure length (body ++ chunk) chunks
    else .ok (body.take length)

/-- What is kept of the header lines. -/
structure Headers where
  contentLength : Nat
  authorization : Option String

def headerField (line : List Char) : Option (List Char × List Char) :=
  (splitOnce ':' line).map fun field => (trim field.1, trim field.2)

/-- One header line. A header that is repeated counts as its last occurrence. -/
def Headers.add (h : Headers) (line : List Char) : Headers :=
  match headerField line with
  | none => h
  | some (name, value) =>
    if eqIgnoreAsciiCase name "content-length".toList then
      { h with contentLength := ((parseU64 (String.ofList value)).map UInt64.toNat).getD 0 }
    else if eqIgnoreAsciiCase name "authorization".toList then
      { h with authorization := some (String.ofList value) }
    else h

/-- The lines of a header: the request line and the fields. -/
def headerLines (header : List UInt8) : List (List Char) := splitCrlf (fromUtf8Lossy header)

structure HttpRequest where
  method : String
  path : String
  authorization : Option String
  body : List UInt8

/-- Read one request; `none` if the stream ends before any bytes. -/
def readRequest (incoming : Incoming) : Except String (Option HttpRequest) :=
  match readHeader incoming.failure [] incoming.chunks with
  | .error e => .error e
  | .ok none => .ok none
  | .ok (some (headerEnd, buf, chunks)) =>
    let lines := headerLines (buf.take headerEnd)
    let words := splitWhitespace (lines.headD [])
    let headers := lines.tail.foldl Headers.add ⟨0, none⟩
    match readBody incoming.failure headers.contentLength (buf.drop (headerEnd + 4)) chunks with
    | .error e => .error e
    | .ok body =>
      .ok (some ⟨words[0]?.getD "", words[1]?.getD "", headers.authorization, body⟩)

/-! ## A connection -/

def splitQuery (path : String) : String × List Char :=
  match splitOnce '?' path.toList with
  | some (path, query) => (String.ofList path, query)
  | none => (path, [])

/-- Whether a request may go on to its route. -/
def authorized (token : Option String) (path : String) (authorization : Option String) : Bool :=
  match token with
  | none => true
  | some expected => path == "/healthz" || authorization == some ("Bearer " ++ expected)

/-- Whether the topology is persisted before the response is sent. -/
def persistsOn (method : String) (status : Nat) : Bool :=
  status == 201 || (method == "DELETE" && 200 ≤ status && status < 300)

def response (json : Json) (reply : HttpReply) : String :=
  let text := json.print reply.2
  "HTTP/1.1 " ++ toString reply.1 ++ " "
    ++ (if 200 ≤ reply.1 ∧ reply.1 < 300 then "OK" else "Error")
    ++ "\r\nContent-Type: application/json\r\nContent-Length: "
    ++ toString (byteLen text.toList) ++ "\r\nConnection: close\r\n\r\n" ++ text

def respond (token : Option String) (json : Json) (answers : Answers) (s : ControlState)
    (req : HttpRequest) : ControlState × Option String :=
  let (path, query) := splitQuery req.path
  let (s', reply) :=
    if authorized token path req.authorization then
      route json answers s req.method path query req.body
    else (s, some (err 401 "missing or invalid bearer token"))
  match reply with
  | none => (s', none)
  | some reply =>
    (if persistsOn req.method reply.1 then s'.persist answers.put else s',
      some (response json reply))

/-- A connection: the state it leaves, and the response if there is one. -/
def handle (token : Option String) (json : Json) (answers : Answers) (s : ControlState)
    (incoming : Incoming) : ControlState × Option String :=
  match readRequest incoming with
  | .ok (some req) => respond token json answers s req
  | _ => (s, none)

/-! ## The header does not depend on how the bytes arrive -/

variable {value : String}

theorem length_le_of_findSubsequence {needle bytes : List UInt8} {pos : Nat}
    (h : findSubsequence needle bytes = some pos) : needle.length + pos ≤ bytes.length := by
  induction bytes generalizing pos with
  | nil => simp [findSubsequence] at h
  | cons b bytes ih =>
    unfold findSubsequence at h
    split at h
    · next hstart =>
      rw [← Option.some.inj h]
      exact (List.isPrefixOf_iff_prefix.mp hstart).length_le
    · obtain ⟨p, hp, rfl⟩ := Option.map_eq_some_iff.mp h
      have := ih hp
      rw [List.length_cons]
      omega

theorem findSubsequence_append {needle bytes : List UInt8} {pos : Nat}
    (h : findSubsequence needle bytes = some pos) (more : List UInt8) :
    findSubsequence needle (bytes ++ more) = some pos := by
  induction bytes generalizing pos with
  | nil => simp [findSubsequence] at h
  | cons b bytes ih =>
    have hlen := length_le_of_findSubsequence h
    -- `needle` fits into what is there, so it starts here with more bytes only if it did before
    have hstart : needle <+: b :: (bytes ++ more) ↔ needle <+: b :: bytes := by
      refine ⟨fun hp => ?_, fun hp => hp.trans (List.prefix_append (b :: bytes) more)⟩
      exact List.prefix_of_prefix_length_le hp (List.prefix_append (b :: bytes) more) (by omega)
    rw [List.cons_append]
    unfold findSubsequence at h ⊢
    simp only [List.isPrefixOf_iff_prefix, hstart] at h ⊢
    split at h
    · next hp => rw [if_pos hp, h]
    · next hp =>
      obtain ⟨p, hp', rfl⟩ := Option.map_eq_some_iff.mp h
      rw [if_neg hp, ih hp', Option.map_some]

/-- The header that is read ends at the first terminator among all the bytes. -/
theorem readHeader_eq {failure : Option String} {chunks rest : List (List UInt8)}
    {buf buf' : List UInt8} {pos : Nat}
    (h : readHeader failure buf chunks = .ok (some (pos, buf', rest))) :
    findSubsequence headerTerminator (buf ++ chunks.flatten) = some pos ∧
      (buf ++ chunks.flatten).take pos = buf'.take pos := by
  have hfound : ∀ {buf : List UInt8} {pos : Nat} (more : List UInt8),
      findSubsequence headerTerminator buf = some pos →
      findSubsequence headerTerminator (buf ++ more) = some pos ∧
        (buf ++ more).take pos = buf.take pos := by
    intro buf pos more hpos
    refine ⟨findSubsequence_append hpos more, List.take_append_of_le_length ?_⟩
    exact (Nat.le_add_left _ _).trans (length_le_of_findSubsequence hpos)
  have hcut : ∀ failure buf, headerCut failure buf ≠ .ok (some (pos, buf', rest)) := by
    intro failure buf hc
    unfold headerCut at hc
    split at hc
    · simp at hc
    · split at hc <;> exact absurd hc (by simp)
  induction chunks generalizing buf with
  | nil =>
    unfold readHeader at h
    split at h
    · next p hp =>
      obtain ⟨rfl, rfl, rfl⟩ : p = pos ∧ buf = buf' ∧ [] = rest := by simpa using h
      exact hfound _ hp
    · exact absurd h (hcut _ _)
  | cons chunk chunks ih =>
    unfold readHeader at h
    split at h
    · next p hp =>
      obtain ⟨rfl, rfl, rfl⟩ : p = pos ∧ buf = buf' ∧ chunk :: chunks = rest := by simpa using h
      exact hfound _ hp
    · split at h
      · exact absurd h (hcut _ _)
      · split at h
        · rw [List.flatten_cons, ← List.append_assoc]
          exact ih h
        · simp at h

/-- The header fields in the bytes of a request. -/
def headerFields (bytes : List UInt8) : List (List Char × List Char) :=
  match findSubsequence headerTerminator bytes with
  | none => []
  | some pos => (headerLines (bytes.take pos)).tail.filterMap headerField

/-- The bytes have a header field `Authorization` with this value. -/
def SendsAuthorization (value : String) (bytes : List UInt8) : Prop :=
  ∃ field ∈ headerFields bytes,
    eqIgnoreAsciiCase field.1 "authorization".toList = true ∧ String.ofList field.2 = value

instance (value : String) (bytes : List UInt8) : Decidable (SendsAuthorization value bytes) :=
  inferInstanceAs (Decidable (∃ field ∈ headerFields bytes, _ ∧ _))

/-- An authorization that is kept was there before, or is the one of a line. -/
theorem authorization_add {h : Headers} {line : List Char}
    (hadd : (h.add line).authorization = some value) :
    h.authorization = some value ∨ ∃ field, headerField line = some field ∧
      eqIgnoreAsciiCase field.1 "authorization".toList = true ∧ String.ofList field.2 = value := by
  unfold Headers.add at hadd
  split at hadd
  · exact Or.inl hadd
  · next name val hfield =>
    split at hadd
    · exact Or.inl hadd
    · split at hadd
      · next hname => exact Or.inr ⟨_, hfield, hname, Option.some.inj hadd⟩
      · exact Or.inl hadd

theorem authorization_foldl {lines : List (List Char)} {h : Headers}
    (hfold : (lines.foldl Headers.add h).authorization = some value) :
    h.authorization = some value ∨ ∃ field ∈ lines.filterMap headerField,
      eqIgnoreAsciiCase field.1 "authorization".toList = true ∧ String.ofList field.2 = value := by
  induction lines generalizing h with
  | nil => exact Or.inl hfold
  | cons line lines ih =>
    rcases ih hfold with hadd | ⟨field, hmem, hfield⟩
    · rcases authorization_add hadd with hold | ⟨field, hline, hfield⟩
      · exact Or.inl hold
      · exact Or.inr ⟨field, List.mem_filterMap.mpr ⟨line, List.mem_cons_self, hline⟩, hfield⟩
    · obtain ⟨l, hl, hf⟩ := List.mem_filterMap.mp hmem
      exact Or.inr
        ⟨field, List.mem_filterMap.mpr ⟨l, List.mem_cons_of_mem _ hl, hf⟩, hfield⟩

/-- **The authorization of a request is one of its header fields.** -/
theorem sendsAuthorization_of_readRequest {incoming : Incoming} {req : HttpRequest}
    (h : readRequest incoming = .ok (some req)) (hauth : req.authorization = some value) :
    SendsAuthorization value incoming.chunks.flatten := by
  unfold readRequest at h
  split at h
  · simp at h
  · simp at h
  · next pos buf chunks hread =>
    obtain ⟨hfind, htake⟩ := readHeader_eq hread
    rw [List.nil_append] at hfind htake
    simp only at h
    split at h
    · simp at h
    · next body _ =>
      obtain rfl := Option.some.inj (Except.ok.inj h)
      rcases authorization_foldl hauth with hnone | hfield
      · simp at hnone
      · unfold SendsAuthorization headerFields
        rw [hfind]
        simp only [htake]
        exact hfield

end AethelDB.Pageserver
