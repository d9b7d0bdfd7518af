import AethelDB.Pageserver.HttpApi

/-!
# Clients without the control token

With a control token configured, both endpoints refuse a client that does not present it:
the line endpoint until a line `auth <token>` has been sent, the HTTP endpoint every request but
`/healthz` whose `Authorization` is not `Bearer <token>`. What is refused should change nothing.

The HTTP gate stands before the route, and a refused request leaves the whole state as it is
(`handle_unauthenticated`). The line gate stands inside the loop over the lines, and the
connection refers to the root tenant before the loop, which provisions it. So a connection is
enough to bring back a root tenant that an operator has deleted; whatever is sent on it adds
nothing to that (`handleConn_unauthenticated`). The stored catalog is not touched either way,
until someone else's request persists the registry.
-/

namespace AethelDB.Pageserver

open AethelDB.Lib AethelDB.Text

/-- The tenants, and the timelines of each. -/
def TenantManager.topology (m : TenantManager) (id : TenantId) : Option (List Timeline) :=
  (m.get id).map Tenant.timelines

/-- The topology and the stored catalog are the same. -/
structure ControlState.Unchanged (s s' : ControlState) : Prop where
  topology : s'.manager.topology = s.manager.topology
  catalog : s'.object = s.object

/-! ## Presenting the token -/

/-- A line that begins with the words `auth <token>`. -/
def IsAuthLine (token : String) (line : List Char) : Prop :=
  ["auth", token] <+: splitWhitespace line

instance (token : String) (line : List Char) : Decidable (IsAuthLine token line) :=
  inferInstanceAs (Decidable (["auth", token] <+: splitWhitespace line))

/-- One of the lines that were sent is `auth <token>`. -/
def PresentsLine (token : String) (bytes : List UInt8) : Prop :=
  ∃ line ∈ (rawLines true bytes).filterMap fromUtf8, IsAuthLine token line

instance (token : String) (bytes : List UInt8) : Decidable (PresentsLine token bytes) :=
  inferInstanceAs (Decidable (∃ line ∈ _, IsAuthLine token line))

/-- One of the header fields that were sent is `Authorization: Bearer <token>`. -/
def PresentsHttp (token : String) (bytes : List UInt8) : Prop :=
  SendsAuthorization ("Bearer " ++ token) bytes

instance (token : String) (bytes : List UInt8) : Decidable (PresentsHttp token bytes) :=
  inferInstanceAs (Decidable (SendsAuthorization _ bytes))

theorem mem_sent_of_mem_decodeLines {raws : List (List UInt8)} {line : List Char}
    (h : line ∈ decodeLines raws) : line ∈ raws.filterMap fromUtf8 := by
  induction raws with
  | nil => nomatch h
  | cons raw raws ih =>
    unfold decodeLines at h
    split at h
    · nomatch h
    · next first hfirst =>
      rw [List.filterMap_cons_some hfirst]
      exact List.mem_cons.mpr ((List.mem_cons.mp h).imp_right ih)

/-- A stream that breaks off has no line that the closed stream does not have. -/
theorem rawLines_subset (closed : Bool) (bytes : List UInt8) :
    rawLines closed bytes ⊆ rawLines true bytes := by
  cases closed with
  | true => exact List.Subset.refl _
  | false =>
    unfold rawLines
    simp only [Bool.false_and, Bool.false_eq_true, if_false, List.append_nil]
    exact List.subset_append_left _ _

/-! ## The line endpoint -/

variable {token : String}

/-- A line that is not the token is refused, from any state. -/
theorem handleLine_unauthenticated {c : LineConn} {line : List Char} (hc : c.authed = false)
    (hline : ¬ IsAuthLine token line) (answers : Answers) (s : ControlState) :
    ∃ reply, handleLine (some token) answers s c line = (s, c, some reply) := by
  have hgate : ¬ ((splitWhitespace line).head? = some "auth" ∧
      (splitWhitespace line)[1]? = some token) := by
    rintro ⟨hauth, htoken⟩
    unfold IsAuthLine at hline
    revert hline hauth htoken
    generalize splitWhitespace line = words
    intro hline hauth htoken
    match words with
    | [] => simp at hauth
    | [_] => simp at htoken
    | first :: second :: rest =>
      obtain rfl : first = "auth" := by simpa using hauth
      obtain rfl : second = token := by simpa using htoken
      exact hline ⟨rest, rfl⟩
  unfold handleLine
  simp only [hc, Bool.false_eq_true, if_false]
  split
  · next hauth =>
    rw [if_neg fun h => hgate ⟨hauth, h.2.symm⟩]
    exact ⟨_, rfl⟩
  · exact ⟨_, rfl⟩

theorem handleLines_unauthenticated {answers : Nat → Answers} {lines : List (List Char)}
    {c : LineConn} {s : ControlState} (hc : c.authed = false)
    (hlines : ∀ line ∈ lines, ¬ IsAuthLine token line) (n : Nat) :
    (handleLines (some token) answers n s c lines).1 = s := by
  induction lines generalizing n with
  | nil => rfl
  | cons line lines ih =>
    obtain ⟨reply, hreply⟩ :=
      handleLine_unauthenticated hc (hlines line List.mem_cons_self) (answers n) s
    unfold handleLines
    simp only [hreply]
    split
    · exact ih (fun l hl => hlines l (List.mem_cons_of_mem _ hl)) (n + 1)
    · rfl

/-- **A line connection without the token does one thing**: it refers to the root tenant. -/
theorem handleConn_unauthenticated {bytes : List UInt8} (h : ¬ PresentsLine token bytes)
    (answers : Nat → Answers) (s : ControlState) (closed : Bool) :
    (handleConn (some token) answers s closed bytes).1 = s.reference TenantId.ZERO := by
  refine handleLines_unauthenticated rfl (fun line hline hauth => h ⟨line, ?_, hauth⟩) 0
  obtain ⟨raw, hraw, hdecoded⟩ := List.mem_filterMap.mp (mem_sent_of_mem_decodeLines hline)
  exact List.mem_filterMap.mpr ⟨raw, rawLines_subset closed bytes hraw, hdecoded⟩

/-- Referring to a tenant changes the topology exactly if it is not registered. -/
theorem unchanged_reference_iff (s : ControlState) (id : TenantId) :
    s.Unchanged (s.reference id) ↔ (s.manager.get id).isSome := by
  constructor
  · intro h
    have hid := congrFun h.topology id
    unfold TenantManager.topology ControlState.reference at hid
    rw [TenantManager.get_getOrCreate] at hid
    cases hget : s.manager.get id with
    | some t => rfl
    | none =>
      rw [if_pos ⟨rfl, hget⟩, hget] at hid
      simp at hid
  · intro h
    obtain ⟨t, ht⟩ := Option.isSome_iff_exists.mp h
    have heq : s.reference id = s := by
      unfold ControlState.reference
      rw [TenantManager.getOrCreate_of_some ht]
    rw [heq]
    exact ⟨rfl, rfl⟩

/-! ## The HTTP endpoint -/

/-- The one route that needs no token leaves everything as it is. -/
theorem route_healthz (json : Json) (answers : Answers) (s : ControlState) (method : String)
    (query : List Char) (body : List UInt8) :
    ∃ reply, route json answers s method "/healthz" query body = (s, some reply) ∧
      persistsOn method reply.1 = false := by
  have hdelete : deletedId method "/healthz" = none := by
    unfold deletedId
    split
    · decide
    · rfl
  unfold route
  rw [hdelete]
  by_cases hget : method = "GET"
  · subst hget
    exact ⟨(200, .healthy), rfl, by decide⟩
  · refine ⟨err 404 "not found", ?_, ?_⟩
    · simp [hget]
    · simp [persistsOn, err]

/-- A request that is not let through, and one for `/healthz`, changes nothing. -/
theorem respond_unauthenticated {req : HttpRequest}
    (h : req.authorization ≠ some ("Bearer " ++ token)) (json : Json) (answers : Answers)
    (s : ControlState) : (respond (some token) json answers s req).1 = s := by
  unfold respond
  cases hsplit : splitQuery req.path with
  | mk path query =>
    simp only
    by_cases hpath : path = "/healthz"
    · subst hpath
      obtain ⟨reply, hroute, hpersists⟩ :=
        route_healthz json answers s req.method query req.body
      simp [authorized, hroute, hpersists]
    · have hrefused : authorized (some token) path req.authorization = false := by
        simp [authorized, hpath, h]
      simp [hrefused, persistsOn, err]

/-- **An HTTP request without the token changes nothing**, however its bytes arrive. -/
theorem handle_unauthenticated {incoming : Incoming}
    (h : ¬ PresentsHttp token incoming.chunks.flatten) (json : Json) (answers : Answers)
    (s : ControlState) : (handle (some token) json answers s incoming).1 = s := by
  unfold handle
  split
  · next req hread =>
    exact respond_unauthenticated
      (fun hauth => h (sendsAuthorization_of_readRequest hread hauth)) json answers s
  · rfl

/-! ## Both endpoints -/

/-- **What a client that never presents the token changes.** Over HTTP nothing, and nothing in the
stored catalog. On the line endpoint the tenants and timelines stay the same exactly if the root
tenant is registered. -/
theorem unauthenticated_unchanged_iff (token : String) (s : ControlState) :
    (∀ answers closed bytes, ¬ PresentsLine token bytes →
      (handleConn (some token) answers s closed bytes).1.object = s.object ∧
        (s.Unchanged (handleConn (some token) answers s closed bytes).1 ↔
          (s.manager.get TenantId.ZERO).isSome)) ∧
      ∀ json answers incoming, ¬ PresentsHttp token incoming.chunks.flatten →
        s.Unchanged (handle (some token) json answers s incoming).1 := by
  refine ⟨fun answers closed bytes h => ?_, fun json answers incoming h => ?_⟩
  · rw [handleConn_unauthenticated h]
    exact ⟨rfl, unchanged_reference_iff s TenantId.ZERO⟩
  · rw [handle_unauthenticated h]
    exact ⟨rfl, rfl⟩

def asciiBytes (text : String) : List UInt8 := text.toList.map fun c => UInt8.ofNat c.toNat

/-- A server as it is after its first start. -/
def startedServer : ControlState where
  manager := (TenantManager.new 8 none).provisionRoot
  object := none
  objects := ObjectStore.empty
  receivers := []

def workingAnswers : Answers where
  put := .ok
  deletes := some fun _ => true
  socketAddr := some
  connect := .ok ()
  written := true

/-- A JSON library that reads no body. -/
def refusingJson : Json where
  tenantBody := fun _ => .error "EOF while parsing a value"
  createBody := fun _ => .error "EOF while parsing a value"
  branchBody := fun _ => .error "EOF while parsing a value"
  receiveBody := fun _ => .error "EOF while parsing a value"
  gcBody := fun _ => .error "EOF while parsing a value"
  print := fun _ => ""

/-- A guess at the token, and a command. -/
def lineAttempt : List UInt8 := asciiBytes "auth guess\ntenants\n"

/-- A request with another token, in two pieces. -/
def httpAttempt : Incoming where
  chunks := [asciiBytes "GET /v1/timelines HTTP/1.1\r\nAuthorization: Bearer gue",
    asciiBytes "ss\r\n\r\n"]
  failure := none

theorem unauthenticated_unchanged_sample :
    (¬ PresentsLine "token" lineAttempt ∧ ¬ PresentsHttp "token" httpAttempt.chunks.flatten) ∧
      startedServer.Unchanged
        (handleConn (some "token") (fun _ => workingAnswers) startedServer true lineAttempt).1 ∧
      startedServer.Unchanged
        (handle (some "token") refusingJson workingAnswers startedServer httpAttempt).1 := by
  have hline : ¬ PresentsLine "token" lineAttempt := by decide
  have hhttp : ¬ PresentsHttp "token" httpAttempt.chunks.flatten := by decide
  obtain ⟨hlines, hrequests⟩ := unauthenticated_unchanged_iff "token" startedServer
  exact ⟨⟨hline, hhttp⟩,
    (hlines (fun _ => workingAnswers) true lineAttempt hline).2.mpr (by decide),
    hrequests refusingJson workingAnswers httpAttempt hhttp⟩

/-- The same server after `DELETE` of its root tenant. -/
def rootDeleted : ControlState := (deleteTenant startedServer TenantId.ZERO.id.display).1

/-- The root tenant has been deleted. A client guesses, is refused twice, and the tenant is
back. -/
theorem unauthenticated_recreates_root :
    ¬ PresentsLine "token" lineAttempt ∧
      (handleConn (some "token") (fun _ => workingAnswers) rootDeleted true lineAttempt).2
        = ["err invalid token", "err unauthorized: send 'auth <token>' first"] ∧
      ¬ rootDeleted.Unchanged
        (handleConn (some "token") (fun _ => workingAnswers) rootDeleted true lineAttempt).1 := by
  have hline : ¬ PresentsLine "token" lineAttempt := by decide
  refine ⟨hline, by decide, ?_⟩
  rw [handleConn_unauthenticated hline, unchanged_reference_iff]
  decide

end AethelDB.Pageserver
