import AethelDB.Common.Text
import AethelDB.Pageserver.Control
import AethelDB.Pageserver.Walreceiver

/-!
# The line-oriented control endpoint

`handle_conn`, `gc_command`, `receive_command` and `exec` of `pageserver/src/control.rs`,
from the bytes a client sends to the reply lines. `Control` has the same requests with their
arguments parsed and lets them interleave; here one connection runs alone, so its current
tenant stays registered and is named by its id.

The state also has what commands that leave the topology alone write: the layer objects a
collection deletes, and the receivers that were started. The layer objects and the catalog lie
in one store, under different keys (`layerKey_ne_CATALOG_KEY`).

Reading an id can panic (`Parsed`). The task then ends without a reply, and keeps what it had
done.
-/

namespace AethelDB.Pageserver

open AethelDB.Lib AethelDB.Text

/-- What both control endpoints work on. -/
structure ControlState where
  manager : TenantManager
  object : Option CatalogObject
  /-- The other objects of the store. -/
  objects : ObjectStore
  /-- The WAL receivers that were started, with the safekeeper each is connected to. -/
  receivers : List (String × WalReceiver)

theorem layerKey_ne_CATALOG_KEY (id : LayerId) : layerKey id ≠ CATALOG_KEY := by
  intro h
  have hlist := congrArg String.toList h
  simp only [layerKey, String.toList_append, List.append_assoc] at hlist
  have hhead : 'l' = 'c' := (List.cons.inj hlist).1
  exact absurd hhead (by decide)

/-- What the outside answers while one command runs. Without a store, every `put` counts as
failed. -/
structure Answers where
  put : PutOutcome
  /-- Whether the deletions go through, in their order; `none` without a store. -/
  deletes : Option (Nat → Bool)
  /-- `SocketAddr::from_str`, with the address as it prints. -/
  socketAddr : String → Option String
  /-- `WalReceiver::connect`. -/
  connect : Except String Unit
  /-- Whether the reply reaches the socket. -/
  written : Bool

namespace ControlState

/-- `get_or_create`. -/
def reference (s : ControlState) (id : TenantId) : ControlState :=
  { s with manager := (s.manager.getOrCreate id).1 }

def persist (s : ControlState) (put : PutOutcome) : ControlState :=
  { s with object := s.manager.persist put s.object }

/-- A tenant that was referenced before. -/
def tenant (s : ControlState) (id : TenantId) : Tenant := (s.manager.getOrCreate id).2

def perform (s : ControlState) (id : TenantId) (op : TimelineOp) :
    Except TenantError ControlState :=
  (op.apply (s.tenant id)).map fun r => { s with manager := s.manager.onTenant id fun _ => r.1 }

/-- Delete the layers a collection removed, one by one; how many deletions went through. -/
def deleteLayers (deletes : Nat → Bool) : Nat → List LayerId → ObjectStore → ObjectStore × Nat
  | _, [], objects => (objects, 0)
  | n, id :: ids, objects =>
    if deletes n then
      let (objects', count) := deleteLayers deletes (n + 1) ids (objects.delete (layerKey id))
      (objects', count + 1)
    else deleteLayers deletes (n + 1) ids objects

structure Collected where
  timelines : Nat
  versions : Nat
  objectsDeleted : Nat

/-- Collect a tenant and, with a store, delete the layers this removed. -/
def collect (s : ControlState) (deletes : Option (Nat → Bool)) (id : TenantId) (horizon : Lsn) :
    ControlState × Collected :=
  let collected := (s.tenant id).gc horizon
  let removed := collected.2.flatMap fun e => e.2.removedLayerIds
  let (objects, deleted) := match deletes with
    | none => (s.objects, 0)
    | some deletes => deleteLayers deletes 0 removed s.objects
  ({ s with manager := s.manager.onTenant id fun _ => collected.1, objects := objects },
    ⟨collected.2.length, (collected.2.map fun e => e.2.versionsRemoved).sum, deleted⟩)

def receive (s : ControlState) (answers : Answers) (addr : String) (id : TenantId)
    (timeline : TimelineId) (startLsn : Lsn) : Except String ControlState :=
  answers.connect.map fun _ =>
    { s with
      receivers := s.receivers ++ [(addr, .connect ⟨id, timeline, startLsn, 1048576⟩)] }

def tenantIds (s : ControlState) : List String :=
  sortOn id (s.manager.tenants.map fun e => e.1.id.display)

def timelineIds (s : ControlState) (tenant : TenantId) : List String :=
  sortOn id ((s.tenant tenant).timelineIds.map fun i => i.id.display)

end ControlState

/-! ## Commands -/

/-- `next().and_then(|s| s.parse().ok())` where an id is expected. The outer `none` is a panic. -/
def parseWord {α : Type} (parse : String → Parsed α) : Option String → Option (Option α)
  | none => some none
  | some word =>
    match parse word with
    | .ok a => some (some a)
    | .error _ => some none
    | .panicked => none

/-- Answer what a change of a tenant came to. -/
def timelineReply (s : ControlState) (done : String) :
    Except TenantError ControlState → ControlState × Option String
  | .ok s' => (s', some done)
  | .error e => (s, some ("err " ++ e.display))

def gcCommand (answers : Answers) (s : ControlState) (tenant : TenantId) (args : List String) :
    ControlState × Option String :=
  match args[0]?.bind parseU64 with
  | none => (s, some "err usage: gc <horizon-lsn>")
  | some horizon =>
    let (s', c) := s.collect answers.deletes tenant ⟨horizon⟩
    (s', some ("ok gc @ " ++ toString horizon ++ ": " ++ toString c.timelines ++ " timelines, "
      ++ toString c.versions ++ " versions removed, " ++ toString c.objectsDeleted
      ++ " objects deleted"))

/-- Attach a WAL receiver to a timeline of the current tenant. -/
def receiveCommand (answers : Answers) (s : ControlState) (tenant : TenantId)
    (args : List String) : ControlState × Option String :=
  match parseWord TimelineId.parse args[0]? with
  | none => (s, none)
  | some timeline? =>
    match timeline?, args[1]?.bind answers.socketAddr, args[2]?.bind parseU64 with
    | some timeline, some addr, some startLsn =>
      match (s.tenant tenant).getTimeline timeline with
      | none => (s, some ("err unknown timeline " ++ timeline.id.display))
      | some _ =>
        match s.receive answers addr tenant timeline ⟨startLsn⟩ with
        | .ok s' =>
          (s', some ("ok receiving " ++ timeline.id.display ++ " from " ++ addr ++ " @ "
            ++ toString startLsn))
        | .error e => (s, some ("err connecting to safekeeper: " ++ e))
    | _, _, _ =>
      (s, some "err usage: receive <timeline-hex> <safekeeper-host:port> <start-lsn>")

/-- Execute one of the other commands in the current tenant. -/
def exec (s : ControlState) (tenant : TenantId) : List String → ControlState × Option String
  | "create" :: args =>
    match parseWord TimelineId.parse args[0]? with
    | none => (s, none)
    | some none => (s, some "err usage: create <timeline-hex>")
    | some (some id) =>
      timelineReply s ("ok created " ++ id.id.display) (s.perform tenant (.create id))
  | "branch" :: args =>
    match parseWord TimelineId.parse args[0]?, parseWord TimelineId.parse args[1]? with
    | some new?, some parent? =>
      match new?, parent?, args[2]?.bind parseU64 with
      | some new, some parent, some lsn =>
        timelineReply s
          ("ok branched " ++ new.id.display ++ " from " ++ parent.id.display ++ " @ "
            ++ toString lsn)
          (s.perform tenant (.branch new parent ⟨lsn⟩))
      | _, _, _ => (s, some "err usage: branch <new-hex> <parent-hex> <lsn>")
    | _, _ => (s, none)
  | "list" :: _ => (s, some ("ok " ++ " ".intercalate (s.timelineIds tenant)))
  -- not reached from a connection, which runs `gcCommand`: this one deletes no objects
  | "gc" :: args =>
    match args[0]?.bind parseU64 with
    | none => (s, some "err usage: gc <horizon-lsn>")
    | some horizon =>
      let (s', c) := s.collect none tenant ⟨horizon⟩
      (s', some ("ok gc @ " ++ toString horizon ++ ": " ++ toString c.timelines
        ++ " timelines, " ++ toString c.versions ++ " versions removed"))
  | other :: _ => (s, some ("err unknown command '" ++ other ++ "'"))
  | [] => (s, some "err empty command")

/-! ## A connection -/

/-- The variables of `handle_conn`. -/
structure LineConn where
  tenantId : TenantId
  authed : Bool

/-- A command of a connection that is let through. -/
def command (answers : Answers) (s : ControlState) (c : LineConn) (words : List String) :
    ControlState × LineConn × Option String :=
  match words with
  | "tenants" :: _ => (s, c, some ("ok " ++ " ".intercalate s.tenantIds))
  | "tenant" :: args =>
    match parseWord TenantId.parse args[0]? with
    | none => (s, c, none)
    | some none => (s, c, some "err usage: tenant <tenant-hex>")
    | some (some id) =>
      (s.reference id, { c with tenantId := id }, some ("ok tenant " ++ id.id.display))
  | "gc" :: args =>
    let (s', reply) := gcCommand answers s c.tenantId args
    (s', c, reply)
  | "receive" :: args =>
    let (s', reply) := receiveCommand answers s c.tenantId args
    (s', c, reply)
  | words =>
    let (s', reply) := exec s c.tenantId words
    (s', c, reply)

/-- Whether the topology is persisted before the reply is sent. -/
def persistsAfter (words : List String) (reply : Option String) : Bool :=
  match reply with
  | none => false
  | some reply =>
    (words.head? == some "create" || words.head? == some "branch" || words.head? == some "tenant")
      && "ok".toList.isPrefixOf reply.toList

/-- The body of the loop: one line. Until the connection has authenticated, only
`auth <token>` is accepted. -/
def handleLine (token : Option String) (answers : Answers) (s : ControlState) (c : LineConn)
    (line : List Char) : ControlState × LineConn × Option String :=
  let words := splitWhitespace line
  if c.authed then
    let (s', c', reply) := command answers s c words
    (if persistsAfter words reply then s'.persist answers.put else s', c', reply)
  else if words.head? = some "auth" then
    if words[1]?.isSome ∧ token = words[1]? then
      (s, { c with authed := true }, some "ok authenticated")
    else (s, c, some "err invalid token")
  else (s, c, some "err unauthorized: send 'auth <token>' first")

/-- The loop: the state it leaves, and the lines it replied. A panic and a reply that cannot be
written end it. -/
def handleLines (token : Option String) (answers : Nat → Answers) :
    Nat → ControlState → LineConn → List (List Char) → ControlState × List String
  | _, s, _, [] => (s, [])
  | n, s, c, line :: lines =>
    match handleLine token (answers n) s c line with
    | (s', _, none) => (s', [])
    | (s', c', some reply) =>
      if (answers n).written then
        let (s'', replies) := handleLines token answers (n + 1) s' c' lines
        (s'', reply :: replies)
      else (s', [])

/-- The lines of a stream as bytes. Bytes after the last line feed are a line too if the client
closes the stream, and none if reading fails. -/
def rawLines (closed : Bool) (bytes : List UInt8) : List (List UInt8) :=
  let pieces := bytes.splitOnP (· == 10)
  let rest := pieces.getLastD []
  pieces.dropLast.map (fun l => if l.getLast? = some 13 then l.dropLast else l)
    ++ if closed && !rest.isEmpty then [rest] else []

/-- `next_line`, until it ends or fails: the lines up to the first that is not text. -/
def decodeLines : List (List UInt8) → List (List Char)
  | [] => []
  | raw :: raws =>
    match fromUtf8 raw with
    | none => []
    | some line => line :: decodeLines raws

/-- A connection on which a client sends `bytes`. It begins by referring to the root tenant. -/
def handleConn (token : Option String) (answers : Nat → Answers) (s : ControlState)
    (closed : Bool) (bytes : List UInt8) : ControlState × List String :=
  handleLines token answers 0 (s.reference TenantId.ZERO) ⟨TenantId.ZERO, token.isNone⟩
    (decodeLines (rawLines closed bytes))

end AethelDB.Pageserver
