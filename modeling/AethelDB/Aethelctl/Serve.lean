import AethelDB.Pageserver.HttpApi

/-!
# Branching a database from the console

`branch_database` of `aethelctl/src/serve.rs`, with the registry file of
`aethelctl/src/databases.rs`, the client of `aethelctl/src/lib.rs` and, behind it, the page
server's `POST /v1/branches`. A call asks the page server for a timeline whose id is a digest of
the names of the database and of the branch, branched off the tenant's root; it then writes the
restore point into the registry and reports it.

`ignore_conflict` takes every answer that has `409` or `exists` in it for success. The page server
answers a request for a branch with 409 in two cases: the timeline exists, whatever its branch
point, and the root does not exist. So a call succeeds whenever the tenant's id can be read and the
registry written (`branchDatabase_eq`). What the request does is `timelineAt_branch`, what a call
can do is `branchDatabase_cases`.

SHA-256 and `serde_json` are parameters.
-/

namespace AethelDB.Aethelctl

open AethelDB.Lib AethelDB.Text AethelDB.Pageserver

/-! ## The registry -/

structure RestorePoint where
  name : String
  timeline : String
  lsn : UInt64
deriving DecidableEq

structure Database where
  name : String
  id : String
  branches : List RestorePoint
  /-- The timeline the database serves from, if it is not the root. -/
  current : Option String
deriving DecidableEq

/-- The registry file, as `load` reads it. -/
abbrev Registry := List Database

/-- What writing the file comes to. After a failure anything may be read. -/
inductive Saved where
  | ok
  | failed (error : String) (left : Registry)

/-- `load().into_iter().find(|d| d.name == name)`. -/
def Registry.find (dbs : Registry) (name : String) : Option Database :=
  List.find? (fun d => decide (d.name = name)) dbs

/-- Add a restore point to the first database of this name. -/
def Registry.push (name : String) (point : RestorePoint) : Registry → Registry
  | [] => []
  | d :: dbs =>
    if d.name = name then { d with branches := d.branches ++ [point] } :: dbs
    else d :: Registry.push name point dbs

/-- Record a restore point, unless the database has one of this name. -/
def addBranch (saved : Saved) (dbs : Registry) (name : String) (point : RestorePoint) :
    Registry × Except String Unit :=
  match dbs.find name with
  | none => (dbs, .ok ())
  | some d =>
    if d.branches.any fun b => decide (b.name = point.name) then (dbs, .ok ())
    else
      match saved with
      | .ok => (dbs.push name point, .ok ())
      | .failed error left => (left, .error error)

structure Digest where
  bytes : List UInt8
  size : bytes.length = 32

/-- The first 16 bytes of the digest of a name, without the blanks around it. -/
def nameId (sha256 : List UInt8 → Digest) (name : String) : HexId :=
  let digest := sha256 (utf8 (trim name.toList))
  ⟨digest.bytes.take 16, by rw [List.length_take, digest.size]; rfl⟩

def idFromName (sha256 : List UInt8 → Digest) (name : String) : String := (nameId sha256 name).display

/-! ## The client -/

/-- The JSON of the client: the page server reads a request as it was meant, and the message of
an error is found in the answer. -/
structure Wire where
  json : Json
  encodeBranch : BranchBody → List UInt8
  errorOf : String → Option String
  branchBody_encodeBranch : ∀ b, json.branchBody (encodeBranch b) = .ok b
  errorOf_print : ∀ msg, errorOf (json.print (.error msg)) = some msg

structure Client where
  base : String
  wire : Wire

/-- What the outside does during one call. -/
structure Outside where
  /-- What the page server gets from its own outside. -/
  answers : Answers
  /-- The error of a request without an answer. -/
  transport : String
  saved : Saved

namespace Client

/-- The result of a request, from its answer. -/
def run (client : Client) (transport : String) : Option HttpReply → Except String Unit
  | none => .error ("request to " ++ client.base ++ " failed: " ++ transport)
  | some (status, body) =>
    if status < 400 then .ok ()
    else
      let raw := client.wire.json.print body
      .error ("server returned " ++ toString status ++ ": " ++ (client.wire.errorOf raw).getD raw)

/-- `POST /v1/branches`, answered by the page server. -/
def branch (client : Client) (o : Outside) (s : ControlState) (new parent : String) (lsn : UInt64)
    (tenant : Option String) : ControlState × Except String Unit :=
  let (s', reply) := route client.wire.json o.answers s "POST" "/v1/branches" []
    (client.wire.encodeBranch ⟨new, parent, lsn, tenant⟩)
  let persists := reply.any fun reply => persistsOn "POST" reply.1
  (if persists then s'.persist o.answers.put else s', client.run o.transport reply)

end Client

/-! ## Branching a database -/

/-- Take an answer that says 409, or that something exists, for success. No other character than
an ASCII letter becomes a letter of `exists` in lower case. -/
def ignoreConflict : Except String Unit → Except String Unit
  | .ok () => .ok ()
  | .error m =>
    if containsText "409".toList m.toList || containsText "exists".toList (toLowercase m.toList) then .ok ()
    else .error m

def ROOT_TIMELINE : String := "00000000000000000000000000000000"

/-- A request to the console: the name in its path, and the fields of its body that are there and
have the right type. -/
structure BranchCall where
  name : String
  branch : Option String
  lsn : Option UInt64

namespace BranchCall

def branchName (call : BranchCall) : String := (call.branch.filter fun s => !s.isEmpty).getD "restore"

def position (call : BranchCall) : UInt64 := call.lsn.getD 0

def timeline (sha256 : List UInt8 → Digest) (call : BranchCall) : TimelineId :=
  ⟨nameId sha256 (call.name ++ "/" ++ call.branchName)⟩

end BranchCall

structure Report where
  database : String
  branch : String
  timeline : String
  lsn : UInt64
deriving DecidableEq

/-- The registry of the console and the page server. -/
structure Console where
  registry : Registry
  server : ControlState

section Model

variable (sha256 : List UInt8 → Digest) (client : Client)

def branchDatabase (o : Outside) (c : Console) (call : BranchCall) : Console × Except String Report :=
  match c.registry.find call.name with
  | none => (c, .error ("unknown database " ++ call.name))
  | some db =>
    let branch := call.branchName
    let lsn := call.position
    let timeline := idFromName sha256 (call.name ++ "/" ++ branch)
    let (server, answer) := client.branch o c.server timeline ROOT_TIMELINE lsn (some db.id)
    match ignoreConflict answer with
    | .error e => ({ c with server := server }, .error e)
    | .ok () =>
      let (registry, recorded) := addBranch o.saved c.registry call.name ⟨branch, timeline, lsn⟩
      (⟨registry, server⟩, recorded.map fun _ => ⟨call.name, branch, timeline, lsn⟩)

/-- The console and the page server after some calls. -/
def after (c : Console) (calls : List (BranchCall × Outside)) : Console :=
  run (fun c x => (branchDatabase sha256 client x.2 c x.1).1) c calls

end Model

/-! ## What a request for a branch does -/

/-- A timeline of a tenant of the page server. -/
def timelineAt (m : TenantManager) (tenant : TenantId) (timeline : TimelineId) : Option Timeline :=
  (m.get tenant).bind fun t => t.getTimeline timeline

/-- A tenant that is provisioned on first use has no timelines. -/
theorem timelineAt_getOrCreate (m : TenantManager) (id i : TenantId) (x : TimelineId) :
    timelineAt (m.getOrCreate id).1 i x = timelineAt m i x := by
  unfold timelineAt
  rw [m.get_getOrCreate]
  split
  · next h =>
    rw [h.2]
    rfl
  · rfl

theorem getTimeline_getOrCreate (m : TenantManager) (id : TenantId) (x : TimelineId) :
    (m.getOrCreate id).2.getTimeline x = timelineAt m id x := by
  rw [← timelineAt_getOrCreate m id id x]
  unfold timelineAt
  rw [m.get_getOrCreate_self]
  rfl

theorem timelineAt_onTenant {m : TenantManager} {id : TenantId} {t : Tenant} (h : m.get id = some t)
    (t' : Tenant) (i : TenantId) (x : TimelineId) :
    timelineAt (m.onTenant id fun _ => t') i x = if i = id then t'.getTimeline x else timelineAt m i x := by
  unfold timelineAt
  rw [m.get_onTenant]
  split
  · next hi =>
    subst hi
    rw [h]
    rfl
  · rfl

/-- The timelines of a tenant that was asked to branch. -/
def branchedTimelines (t : Tenant) (new parent : TimelineId) (lsn : Lsn) (x : TimelineId) :
    Option Timeline :=
  if x = new ∧ t.getTimeline new = none then (t.getTimeline parent).map fun p => .branched new p lsn
  else t.getTimeline x

theorem branchTimeline_cases (t : Tenant) (new parent : TimelineId) (lsn : Lsn) :
    (∃ e, t.branchTimeline new parent lsn = .error e ∧
        branchedTimelines t new parent lsn = t.getTimeline) ∨
      ∃ t' tl, t.branchTimeline new parent lsn = .ok (t', tl) ∧
        branchedTimelines t new parent lsn = t'.getTimeline := by
  unfold branchedTimelines
  cases hn : t.getTimeline new with
  | some tl =>
    refine Or.inl ⟨_, Tenant.branchTimeline_of_some parent lsn hn, ?_⟩
    funext x
    simp
  | none =>
    cases hp : t.getTimeline parent with
    | none =>
      refine Or.inl ⟨_, Tenant.branchTimeline_of_noParent lsn hn hp, ?_⟩
      funext x
      by_cases hx : x = new <;> simp [hx, hn]
    | some p =>
      refine Or.inr ⟨_, _, Tenant.branchTimeline_of_none lsn hn hp, ?_⟩
      have hfresh : t.getTimeline (Timeline.branched new p lsn).id = none := hn
      funext x
      refine Eq.trans ?_ (Tenant.getTimeline_register hfresh (Tenant.branched_parent_mem hp new lsn) x).symm
      by_cases hx : x = new <;> simp [hx, Timeline.id]

theorem ignoreConflict_conflict (client : Client) (transport : String) (body : HttpBody) :
    ignoreConflict (client.run transport (some (409, body))) = .ok () := by
  unfold Client.run
  simp only
  rw [if_neg (by decide)]
  simp only [ignoreConflict]
  rw [if_pos]
  rw [Bool.or_eq_true]
  left
  rw [String.toList_append]
  exact containsText_append (by decide +kernel) _

theorem ROOT_TIMELINE_eq : ROOT_TIMELINE = TimelineId.ZERO.id.display := by decide +kernel

section Request

variable (client : Client) (o : Outside) (s : ControlState)

/-- The request reaches its handler, whose answer is read; storing the catalog changes no tenant. -/
theorem branch_eq (new parent : String) (lsn : UInt64) (tenant : Option String) :
    let handled := postBranch client.wire.json s (client.wire.encodeBranch ⟨new, parent, lsn, tenant⟩)
    (client.branch o s new parent lsn tenant).1.manager = handled.1.manager ∧
      (client.branch o s new parent lsn tenant).2 = client.run o.transport handled.2 := by
  refine ⟨?_, rfl⟩
  unfold Client.branch
  simp only
  split <;> rfl

variable (new parent : TimelineId) (lsn : UInt64) (tenant : String)

/-- With a tenant id that can be read, the tenant is asked to branch. -/
theorem postBranch_of_parsed {id : TenantId} (h : TenantId.parse tenant = .ok id) :
    postBranch client.wire.json s
        (client.wire.encodeBranch ⟨new.id.display, parent.id.display, lsn, some tenant⟩)
      = timelineCreated (s.reference id) (.branched new parent lsn)
          (((s.manager.getOrCreate id).2.branchTimeline new parent ⟨lsn⟩).map fun r =>
            { s.reference id with manager := (s.reference id).manager.onTenant id fun _ => r.1 }) := by
  unfold postBranch
  rw [client.wire.branchBody_encodeBranch]
  simp only [withBody, resolveTenant, withId, h, TimelineId.parse_display]
  unfold ControlState.perform ControlState.tenant
  rw [(s.reference id).manager.getOrCreate_of_some (s.manager.get_getOrCreate_self id)]
  rfl

/-- Without one, the request is refused or the handler panics. -/
theorem postBranch_of_refused (h : ∀ id, TenantId.parse tenant ≠ .ok id) :
    (postBranch client.wire.json s
      (client.wire.encodeBranch ⟨new.id.display, parent.id.display, lsn, some tenant⟩)).1 = s := by
  unfold postBranch
  rw [client.wire.branchBody_encodeBranch]
  simp only [withBody, resolveTenant]
  cases hparse : TenantId.parse tenant with
  | ok id => exact absurd hparse (h id)
  | error e => rfl
  | panicked => rfl

/-- **One request.** The timeline is branched off if it is absent and its parent is not, and
nothing else changes. -/
theorem timelineAt_branch (i : TenantId) (x : TimelineId) :
    timelineAt (client.branch o s new.id.display parent.id.display lsn (some tenant)).1.manager i x
      = if TenantId.parse tenant = .ok i ∧ x = new ∧ timelineAt s.manager i new = none then
          (timelineAt s.manager i parent).map fun p => .branched new p ⟨lsn⟩
        else timelineAt s.manager i x := by
  rw [(branch_eq client o s new.id.display parent.id.display lsn (some tenant)).1]
  by_cases hparse : ∃ id, TenantId.parse tenant = .ok id
  · obtain ⟨id, hid⟩ := hparse
    rw [postBranch_of_parsed client s new parent lsn tenant hid]
    have hget := getTimeline_getOrCreate s.manager id
    have hself := s.manager.get_getOrCreate_self id
    have hold := timelineAt_getOrCreate s.manager id i x
    obtain ⟨t, ht⟩ : ∃ t, (s.manager.getOrCreate id).2 = t := ⟨_, rfl⟩
    rw [ht] at hget hself ⊢
    have hspec : (if TenantId.parse tenant = .ok i ∧ x = new ∧ timelineAt s.manager i new = none then
        (timelineAt s.manager i parent).map fun p => .branched new p ⟨lsn⟩ else timelineAt s.manager i x)
          = if i = id then branchedTimelines t new parent ⟨lsn⟩ x else timelineAt s.manager i x := by
      by_cases hi : i = id
      · simp [hi, hid, branchedTimelines, hget]
      · simp [hi, hid, Ne.symm hi]
    rw [hspec]
    rcases branchTimeline_cases t new parent ⟨lsn⟩ with ⟨e, hbranch, hkeep⟩ | ⟨t', tl, hbranch, hnew⟩
    · rw [hbranch, hkeep]
      refine hold.trans ?_
      split
      · next hi => rw [hi, hget]
      · rfl
    · rw [hbranch, hnew, ← hold]
      exact timelineAt_onTenant hself t' i x
  · have hrefused : ∀ id, TenantId.parse tenant ≠ .ok id := fun id hid => hparse ⟨id, hid⟩
    rw [postBranch_of_refused client s new parent lsn tenant hrefused, if_neg fun h => hrefused i h.1]

/-- Whatever the tenant answers, the console takes it for success. -/
theorem ignoreConflict_branch {id : TenantId} (h : TenantId.parse tenant = .ok id) :
    ignoreConflict (client.branch o s new.id.display parent.id.display lsn (some tenant)).2 = .ok () := by
  rw [(branch_eq client o s new.id.display parent.id.display lsn (some tenant)).2,
    postBranch_of_parsed client s new parent lsn tenant h]
  cases (s.manager.getOrCreate id).2.branchTimeline new parent ⟨lsn⟩ with
  | ok r => rfl
  | error e => exact ignoreConflict_conflict client o.transport _

end Request

/-! ## What a call does -/

theorem Registry.mem_of_find {dbs : Registry} {name : String} {d : Database} (h : dbs.find name = some d) :
    d ∈ dbs ∧ d.name = name :=
  ⟨List.mem_of_find?_eq_some h, by simpa using List.find?_some h⟩

/-- Only the database that is found by its name gets the restore point. -/
theorem Registry.mem_push {dbs : Registry} {name : String} {d db : Database} {point : RestorePoint}
    (hfind : dbs.find name = some d) (h : db ∈ dbs.push name point) :
    db ∈ dbs ∨ db = { d with branches := d.branches ++ [point] } := by
  induction dbs with
  | nil => nomatch h
  | cons e dbs ih =>
    unfold Registry.push at h
    unfold Registry.find at hfind ih
    rw [List.find?_cons] at hfind
    split at h
    · next hname =>
      rw [decide_eq_true hname] at hfind
      obtain rfl := Option.some.inj hfind
      rcases List.mem_cons.mp h with rfl | hmem
      · exact Or.inr rfl
      · exact Or.inl (List.mem_cons_of_mem _ hmem)
    · next hname =>
      rw [decide_eq_false hname] at hfind
      rcases List.mem_cons.mp h with rfl | hmem
      · exact Or.inl List.mem_cons_self
      · exact (ih hfind hmem).imp_left (List.mem_cons_of_mem _)

section Calls

variable (sha256 : List UInt8 → Digest) (client : Client)

theorem idFromName_eq (call : BranchCall) :
    idFromName sha256 (call.name ++ "/" ++ call.branchName) = (call.timeline sha256).id.display := rfl

def BranchCall.point (call : BranchCall) : RestorePoint :=
  ⟨call.branchName, (call.timeline sha256).id.display, call.position⟩

def BranchCall.report (call : BranchCall) : Report :=
  ⟨call.name, call.branchName, (call.timeline sha256).id.display, call.position⟩

/-- **Everything a call can do.** A call on a database that is registered sends its request; the
registry then has the restore point, or had one of this name, or could not be written. -/
theorem branchDatabase_cases (o : Outside) (c : Console) (call : BranchCall) :
    (c.registry.find call.name = none ∧ (branchDatabase sha256 client o c call).1 = c ∧
        ∃ e, (branchDatabase sha256 client o c call).2 = .error e) ∨
      ∃ db, c.registry.find call.name = some db ∧
        (branchDatabase sha256 client o c call).1.server
          = (client.branch o c.server (call.timeline sha256).id.display ROOT_TIMELINE call.position
              (some db.id)).1 ∧
        ((branchDatabase sha256 client o c call).1.registry = c.registry ∨
          (branchDatabase sha256 client o c call).1.registry
            = c.registry.push call.name (call.point sha256) ∨
          ∃ e left, o.saved = .failed e left ∧ (branchDatabase sha256 client o c call).2 = .error e) ∧
        ∀ report, (branchDatabase sha256 client o c call).2 = .ok report →
          report = call.report sha256 := by
  unfold branchDatabase
  cases hfind : c.registry.find call.name with
  | none => exact Or.inl ⟨rfl, rfl, _, rfl⟩
  | some db =>
    refine Or.inr ⟨db, rfl, ?_⟩
    simp only [idFromName_eq]
    generalize client.branch o c.server (call.timeline sha256).id.display ROOT_TIMELINE call.position
      (some db.id) = r
    obtain ⟨server, answer⟩ := r
    cases hanswer : ignoreConflict answer with
    | error e => exact ⟨rfl, Or.inl rfl, fun report h => absurd h (by simp)⟩
    | ok u =>
      simp only [addBranch, hfind]
      split
      · exact ⟨trivial, Or.inl rfl, fun report h => (Except.ok.inj h).symm⟩
      · cases hsaved : o.saved with
        | ok => exact ⟨trivial, Or.inr (Or.inl rfl), fun report h => (Except.ok.inj h).symm⟩
        | failed e left =>
          exact ⟨trivial, Or.inr (Or.inr ⟨e, left, rfl, rfl⟩),
            fun report h => absurd h (by simp [Except.map])⟩

variable {sha256 client} {o : Outside} {c : Console} {call : BranchCall} {report : Report}

theorem addBranch_ok (dbs : Registry) (name : String) (point : RestorePoint) :
    (addBranch .ok dbs name point).2 = .ok () := by
  unfold addBranch
  split
  · rfl
  · split <;> rfl

/-- A call succeeds whatever the page server answers, if the tenant's id can be read and the
registry written. -/
theorem branchDatabase_eq {db : Database} (hfind : c.registry.find call.name = some db) {id : TenantId}
    (hid : TenantId.parse db.id = .ok id) (hsaved : o.saved = .ok) :
    branchDatabase sha256 client o c call
      = (⟨(addBranch .ok c.registry call.name (call.point sha256)).1,
          (client.branch o c.server (call.timeline sha256).id.display ROOT_TIMELINE call.position
            (some db.id)).1⟩, .ok (call.report sha256)) := by
  have hanswer := ignoreConflict_branch client o c.server (call.timeline sha256) TimelineId.ZERO
    call.position db.id hid
  rw [← ROOT_TIMELINE_eq] at hanswer
  unfold branchDatabase
  rw [hfind]
  simp only
  rw [idFromName_eq, hanswer, hsaved]
  simp only
  rw [addBranch_ok]
  rfl

end Calls

end AethelDB.Aethelctl
