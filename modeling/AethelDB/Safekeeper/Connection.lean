import AethelDB.Common.WalCodec
import AethelDB.Lib.Run

/-!
# A safekeeper's connection

`serve_connection` of `safekeeper/src/server.rs`: take the common prefix of a message off the
stream, read on according to its type (`serve_append`, `serve_replicate`, `serve_read`,
`serve_vote`), hand the request to the handler of that type and write its response. The handlers are
parameters here; they may fail, which ends the connection.

The lengths to read come out of what has been read already. That every message is found where the
one before it ends is by induction over the messages, from `takes_readMessage`; that nothing is made
of a part of one is the steadiness of the same reader.
-/

namespace AethelDB.Safekeeper

open AethelDB.Lib AethelDB.WalService

/-- A message to a safekeeper, by the handler it is for. -/
inductive WalMessage where
  | append (r : AppendRequest)
  | replicate (r : AppendRequest)
  | read (r : ReadRequest)
  | vote (r : VoteRequest)

namespace WalMessage

def encode : WalMessage → List UInt8
  | .append r => r.encode
  | .replicate r => r.encodeReplicate
  | .read r => r.encode
  | .vote r => r.encode

/-- The length of a payload fits its field. -/
def Fits : WalMessage → Prop
  | .append r => r.payload.length < 2 ^ 32
  | .replicate r => r.payload.length < 2 ^ 32
  | _ => True

end WalMessage

/-- `Context::context` on an error. -/
def inContext {α : Type} (what : String) : Except String α → Reader UInt8 String α
  | .ok a => pure a
  | .error e => throw (what ++ ": " ++ e)

/-- `read_exact` in a context. -/
def readExact (n : Nat) (what : String) : Reader UInt8 String (List UInt8) :=
  Reader.exactly n (what ++ ": early eof")

/-- The rest of an append or a replicate, whose errors are told apart by `what`. -/
def readAppend (what : String) (start : List UInt8) : Reader UInt8 String AppendRequest := do
  let header ← readExact (REQUEST_HEADER_LEN - PREFIX_LEN) ("reading " ++ what ++ " header")
  let plen ← inContext ("parsing " ++ what ++ " header") (AppendRequest.payloadLen (start ++ header))
  let payload ← readExact plen ("reading " ++ what ++ " payload")
  inContext ("decoding " ++ what ++ " request") (AppendRequest.decode (start ++ header ++ payload))

def readRead (start : List UInt8) : Reader UInt8 String ReadRequest := do
  let rest ← readExact (READ_REQUEST_LEN - PREFIX_LEN) "reading read request"
  inContext "decoding read request" (ReadRequest.decode (start ++ rest))

def readVote (start : List UInt8) : Reader UInt8 String VoteRequest := do
  let rest ← readExact (VOTE_REQUEST_LEN - PREFIX_LEN) "reading vote request"
  inContext "decoding vote request" (VoteRequest.decode (start ++ rest))

/-- What follows a prefix. -/
def readTyped (start : List UInt8) (msgType : UInt8) : Reader UInt8 String WalMessage :=
  if msgType = TYPE_APPEND then .append <$> readAppend "append" start
  else if msgType = TYPE_REPLICATE then .replicate <$> readAppend "replicate" start
  else if msgType = TYPE_READ then .read <$> readRead start
  else if msgType = TYPE_VOTE then .vote <$> readVote start
  else throw ("unknown WAL message type " ++ toString msgType.toNat)

def readFramed : Reader UInt8 String WalMessage := do
  let start ← readExact PREFIX_LEN "reading message prefix"
  let msgType ← inContext "parsing message prefix" (messageType start)
  readTyped start msgType

/-- One message, or `none` when the stream ends in or before a prefix. -/
def readMessage : Reader UInt8 String (Option WalMessage) := fun input =>
  if input.length < PREFIX_LEN then .ok (none, []) else (some <$> readFramed) input

/-- The handlers of a safekeeper with state `σ`. -/
structure Handlers (σ : Type) where
  append : σ → AppendRequest → Except String (σ × WalService.AppendResponse)
  replicate : σ → AppendRequest → Except String (σ × WalService.AppendResponse)
  read : σ → ReadRequest → Except String (σ × WalService.ReadResponse)
  vote : σ → VoteRequest → σ × VoteResponse

/-- A message to its handler, and the bytes of the response. -/
def Handlers.dispatch {σ : Type} (h : Handlers σ) (s : σ) : WalMessage → Except String (σ × List UInt8)
  | .append r => (fun (s, resp) => (s, resp.encode)) <$> h.append s r
  | .replicate r => (fun (s, resp) => (s, resp.encode)) <$> h.replicate s r
  | .read r => (fun (s, resp) => (s, resp.encode)) <$> h.read s r
  | .vote r =>
    let (s, resp) := h.vote s r
    .ok (s, resp.encode)

/-- What a connection came to. -/
structure Served (σ : Type) where
  /-- The messages handed to the handlers, in order. -/
  dispatched : List WalMessage
  responses : List (List UInt8)
  state : σ
  result : Except String Unit

/-- `serve_connection` on everything the peer sends; no message is empty, so the length of the
input bounds their number. -/
def serveFrom {σ : Type} (h : Handlers σ) : Nat → σ → List UInt8 → Served σ
  | 0, s, _ => ⟨[], [], s, .ok ()⟩
  | fuel + 1, s, input =>
    match readMessage input with
    | .error e => ⟨[], [], s, .error e⟩
    | .ok (none, _) => ⟨[], [], s, .ok ()⟩
    | .ok (some msg, rest) =>
      match h.dispatch s msg with
      | .error e => ⟨[msg], [], s, .error e⟩
      | .ok (s', resp) =>
        let later := serveFrom h fuel s' rest
        ⟨msg :: later.dispatched, resp :: later.responses, later.state, later.result⟩

def serveConnection {σ : Type} (h : Handlers σ) (s : σ) (input : List UInt8) : Served σ :=
  serveFrom h (input.length + 1) s input

/-! ## One message -/

variable {msg : WalMessage}

theorem takes_inContext {α : Type} {what : String} {res : Except String α} {a : α} (h : res = .ok a) :
    Takes (inContext what res) [] a := by
  rw [h]
  exact Takes.pure a

theorem steady_inContext {α : Type} (what : String) (res : Except String α) :
    Steady (inContext what res) := by
  cases res with
  | ok a => exact Steady.pure a
  | error e => exact Steady.throw _

theorem steady_readAppend (what : String) (start : List UInt8) : Steady (readAppend what start) :=
  (steady_exactly _ _).bind fun _ => (steady_inContext _ _).bind fun _ => (steady_exactly _ _).bind fun _ =>
    steady_inContext _ _

theorem steady_readFramed : Steady readFramed := by
  refine (steady_exactly _ _).bind fun start => (steady_inContext _ _).bind fun msgType => ?_
  unfold readTyped
  split
  · exact (steady_readAppend _ _).map _
  · split
    · exact (steady_readAppend _ _).map _
    · split
      · exact ((steady_exactly _ _).bind fun _ => steady_inContext _ _).map _
      · split
        · exact ((steady_exactly _ _).bind fun _ => steady_inContext _ _).map _
        · exact Steady.throw _

def start (tag : UInt8) : List UInt8 := (prefixParts tag).flatten

/-- Whatever starts with a prefix is read on according to its type. -/
theorem takes_readFramed {tag : UInt8} {body : List UInt8}
    (h : Takes (readTyped (start tag) tag) body msg) :
    Takes readFramed (start tag ++ body) msg := by
  have htype : messageType (start tag) = .ok tag := messageType_prefixParts List.prefix_rfl
  refine (takes_exactly (show (start tag).length = PREFIX_LEN from rfl) _).bind ?_
  exact (takes_inContext htype).bind h

theorem takes_readAppend {r : AppendRequest} {tag : UInt8} (what : String)
    (htag : tag = TYPE_APPEND ∨ tag = TYPE_REPLICATE) (hlen : r.payload.length < 2 ^ 32) :
    ∃ body, r.encodeAs tag = start tag ++ body ∧ Takes (readAppend what (start tag)) body r := by
  obtain ⟨header, hheader⟩ : ∃ header, (r.headerParts tag).flatten = start tag ++ header :=
    ⟨_, List.flatten_append⟩
  have hsize : header.length = REQUEST_HEADER_LEN - PREFIX_LEN := by
    have htotal := r.length_headerParts tag
    rw [hheader, List.length_append] at htotal
    have hstart : (start tag).length = PREFIX_LEN := rfl
    omega
  have hplen := AppendRequest.payloadLen_headerParts htag hlen List.prefix_rfl
  have hdecode := AppendRequest.decode_encodeAs htag hlen
  rw [hheader] at hplen
  rw [AppendRequest.encodeAs, hheader] at hdecode
  refine ⟨header ++ r.payload, by rw [AppendRequest.encodeAs, hheader, List.append_assoc], ?_⟩
  refine (takes_exactly hsize _).bind fun rest => ?_
  refine (Reader.bind_of_ok _ (takes_inContext hplen (r.payload ++ rest))).trans ?_
  refine (Reader.bind_of_ok _ (takes_exactly rfl _ rest)).trans ?_
  exact takes_inContext hdecode rest

/-- A message of fixed size, from its decoder. -/
theorem takes_fixed {α : Type} {tag : UInt8} {n : Nat} {decode : List UInt8 → Except String α}
    {parts : List (List UInt8)} {r : α} (what what' : String)
    (hlen : ((prefixParts tag ++ parts).flatten).length = n)
    (hdecode : decode (prefixParts tag ++ parts).flatten = .ok r) :
    Takes (do
        let rest ← readExact (n - PREFIX_LEN) what
        inContext what' (decode (start tag ++ rest))) parts.flatten r := by
  rw [List.flatten_append] at hdecode
  have hsize : parts.flatten.length = n - PREFIX_LEN := by
    rw [length_prefixParts] at hlen
    rw [← hlen, PREFIX_LEN]
    omega
  have htake := (takes_exactly hsize (what ++ ": early eof")).bind (f := fun rest =>
    inContext what' (decode (start tag ++ rest))) (takes_inContext hdecode)
  rwa [List.append_nil] at htake

/-- **A message is taken off the stream as it was put there.** -/
theorem takes_readMessage (h : msg.Fits) : Takes readFramed msg.encode msg := by
  cases msg with
  | append r =>
    obtain ⟨body, hbody, htake⟩ := takes_readAppend (r := r) "append" (.inl rfl) h
    rw [WalMessage.encode, AppendRequest.encode, hbody]
    exact takes_readFramed (htake.map WalMessage.append)
  | replicate r =>
    obtain ⟨body, hbody, htake⟩ := takes_readAppend (r := r) "replicate" (.inr rfl) h
    rw [WalMessage.encode, AppendRequest.encodeReplicate, hbody]
    exact takes_readFramed (htake.map WalMessage.replicate)
  | read r =>
    rw [WalMessage.encode, ReadRequest.encode, ReadRequest.parts, List.flatten_append]
    exact takes_readFramed ((takes_fixed _ _ r.length_encode r.decode_encode).map WalMessage.read)
  | vote r =>
    rw [WalMessage.encode, VoteRequest.encode, VoteRequest.parts, List.flatten_append]
    exact takes_readFramed ((takes_fixed _ _ r.length_encode r.decode_encode).map WalMessage.vote)

theorem encode_length (msg : WalMessage) : PREFIX_LEN ≤ msg.encode.length := by
  cases msg with
  | append r => rw [WalMessage.encode, AppendRequest.encode, AppendRequest.encodeAs, List.length_append,
      AppendRequest.length_headerParts, REQUEST_HEADER_LEN, PREFIX_LEN]; omega
  | replicate r => rw [WalMessage.encode, AppendRequest.encodeReplicate, AppendRequest.encodeAs,
      List.length_append, AppendRequest.length_headerParts, REQUEST_HEADER_LEN, PREFIX_LEN]; omega
  | read r => rw [WalMessage.encode, r.length_encode, READ_REQUEST_LEN, PREFIX_LEN]; omega
  | vote r => rw [WalMessage.encode, r.length_encode, VOTE_REQUEST_LEN, PREFIX_LEN]; omega

theorem readMessage_encode (h : msg.Fits) (rest : List UInt8) :
    readMessage (msg.encode ++ rest) = .ok (some msg, rest) := by
  have hlen : ¬(msg.encode ++ rest).length < PREFIX_LEN := by
    have hmsg := encode_length msg
    rw [List.length_append]
    omega
  rw [readMessage, if_neg hlen]
  exact (takes_readMessage h).map some rest

theorem readMessage_part (h : msg.Fits) {part missing : List UInt8}
    (hsplit : msg.encode = part ++ missing) (hmissing : missing ≠ []) :
    readMessage part = .ok (none, []) ∨ ∃ e, readMessage part = .error e := by
  unfold readMessage
  split
  · exact .inl rfl
  · have htake := (takes_readMessage h).map some
    rw [hsplit] at htake
    exact .inr (htake.error_of_prefix (steady_readFramed.map some) hmissing)

/-! ## The stream -/

/-- The handlers on one message after the other: the state they leave and their responses. -/
def Handlers.all {σ : Type} (h : Handlers σ) : σ → List WalMessage → Except String (σ × List (List UInt8))
  | s, [] => .ok (s, [])
  | s, msg :: msgs => do
    let (s, resp) ← h.dispatch s msg
    let (s, resps) ← h.all s msgs
    return (s, resp :: resps)

section Stream

variable {σ : Type} {h : Handlers σ} {msgs : List WalMessage} {resps : List (List UInt8)}

theorem all_cons {s : σ} {s' : σ} (hall : h.all s (msg :: msgs) = .ok (s', resps)) :
    ∃ mid resp later, h.dispatch s msg = .ok (mid, resp) ∧ h.all mid msgs = .ok (s', later)
      ∧ resps = resp :: later := by
  rw [Handlers.all] at hall
  cases hmsg : h.dispatch s msg with
  | error e =>
    rw [hmsg] at hall
    simp [Bind.bind, Except.bind] at hall
  | ok first =>
    obtain ⟨mid, resp⟩ := first
    rw [hmsg] at hall
    cases hrest : h.all mid msgs with
    | error e => simp [Bind.bind, Except.bind, hrest] at hall
    | ok rest =>
      obtain ⟨s'', later⟩ := rest
      simp only [Bind.bind, Except.bind, hrest, pure, Except.pure, Except.ok.injEq, Prod.mk.injEq] at hall
      obtain ⟨rfl, rfl⟩ := hall
      exact ⟨mid, resp, later, rfl, hrest, rfl⟩

/-- Handlers that succeed on some messages succeed on the first ones of them. -/
theorem all_append {s : σ} {more : List WalMessage} {s' : σ}
    (hall : h.all s (msgs ++ more) = .ok (s', resps)) :
    ∃ mid done, h.all s msgs = .ok (mid, done) ∧ done <+: resps := by
  induction msgs generalizing s resps with
  | nil => exact ⟨s, [], rfl, List.nil_prefix⟩
  | cons msg msgs ih =>
    obtain ⟨mid, resp, later, hmsg, hlater, rfl⟩ := all_cons hall
    obtain ⟨mid', done, hdone, hprefix⟩ := ih hlater
    refine ⟨mid', resp :: done, ?_, List.cons_prefix_cons.mpr ⟨rfl, hprefix⟩⟩
    simp only [Handlers.all, hmsg, Bind.bind, Except.bind, hdone]
    rfl

/-- Whole messages and something that is none: the messages are dispatched, and how the connection
ends is a matter of the rest. -/
theorem serveFrom_messages (hfits : ∀ m ∈ msgs, m.Fits) {part : List UInt8}
    {result : Except String Unit} (hpart : readMessage part = .ok (none, []) ∧ result = .ok ()
      ∨ ∃ e, readMessage part = .error e ∧ result = .error e) {s s' : σ}
    (hall : h.all s msgs = .ok (s', resps)) {fuel : Nat} (hfuel : msgs.length < fuel) :
    serveFrom h fuel s (msgs.flatMap WalMessage.encode ++ part) = ⟨msgs, resps, s', result⟩ := by
  induction msgs generalizing s resps fuel with
  | nil =>
    obtain ⟨fuel, rfl⟩ : ∃ n, fuel = n + 1 := ⟨fuel - 1, by simp at hfuel; omega⟩
    obtain ⟨rfl, rfl⟩ := Prod.mk.inj (Except.ok.inj hall)
    rw [List.flatMap_nil, List.nil_append, serveFrom]
    rcases hpart with ⟨hread, rfl⟩ | ⟨e, hread, rfl⟩
    · rw [hread]
    · rw [hread]
  | cons msg msgs ih =>
    obtain ⟨fuel, rfl⟩ : ∃ n, fuel = n + 1 := ⟨fuel - 1, by simp at hfuel; omega⟩
    obtain ⟨mid, resp, later, hmsg, hlater, rfl⟩ := all_cons hall
    have hnext := ih (fun m hm => hfits m (List.mem_cons_of_mem _ hm)) hlater
      (Nat.lt_of_succ_lt_succ hfuel)
    rw [List.flatMap_cons, List.append_assoc, serveFrom,
      readMessage_encode (hfits msg List.mem_cons_self)]
    simp only [hmsg, hnext]

theorem length_le_flatMap (msgs : List WalMessage) :
    msgs.length ≤ (msgs.flatMap WalMessage.encode).length := by
  induction msgs with
  | nil => exact Nat.le_refl 0
  | cons msg msgs ih =>
    have hmsg := encode_length msg
    rw [List.flatMap_cons, List.length_append, List.length_cons, PREFIX_LEN] at *
    omega

end Stream

/-- A safekeeper that refuses every vote and has nothing to be read. -/
def idleHandlers : Handlers Unit where
  append _ _ := .error "no"
  replicate _ _ := .error "no"
  read s r := .ok (s, ⟨0, 0, r.startLsn, []⟩)
  vote s r := (s, ⟨false, r.term, 0⟩)

end AethelDB.Safekeeper
