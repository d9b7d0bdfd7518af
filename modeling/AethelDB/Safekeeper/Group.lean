import AethelDB.Common.WalService
import AethelDB.Lib.Run
import AethelDB.Safekeeper.Consensus
import AethelDB.Safekeeper.Storage

/-!
# A group of safekeepers

`safekeeper/src/{server,replicator}.rs`. A node keeps its store and its consensus state
behind two locks, so a handler is a sequence of lock-delimited steps between
which the handlers of other requests run. Each request in progress is a task with
a program counter:

* `AppendTask`: `handle_append`, which checks the term, stores the run, records its
  own flush, forwards the run to the peers one after the other while it holds the
  node's connection lock, and folds in the acknowledgements;
* `ReplicateTask`: `handle_replicate` on a peer, started by a forwarded run. The
  sender may give up waiting for the reply at any time, and the peer then goes on
  by itself;
* `ElectionTask`: `run_election`.

A peer that is unreachable is a `send` that does not get through. A node may be
restarted at any time: its store reopens its directory, its consensus state
starts from nothing and its requests are gone. Segments are not recycled (no
handler calls `remove_segments_before`) and file operations succeed.
-/

namespace AethelDB.Safekeeper

open AethelDB.Lib

/-- What is fixed for a run: the member list every node is started with, which
peers each node forwards to and the stores' configurations. -/
structure GroupConfig where
  members : List NodeId
  peers : NodeId → List NodeId
  wal : NodeId → WalConfig
  nodup : members.Nodup

/-- One peer's acknowledgement: it has durably flushed up to `lsn`. -/
structure PeerAck where
  node : NodeId
  lsn : Lsn

/-- What `handle_read` comes to. Without an answer the connection is closed. -/
inductive ReadReply where
  | ok (resp : ReadResponse)
  | error (e : StorageError)
  | panicked
deriving DecidableEq

/-! ## One node: the lock-delimited steps -/

structure Node where
  storage : WalStorage
  consensus : Consensus

namespace Node

def new (cfg : GroupConfig) (i : NodeId) : Node :=
  ⟨WalStorage.new (cfg.wal i), Consensus.new i cfg.members⟩

def commitLsn (n : Node) : Lsn := n.consensus.commitLsn

/-- The reply to a proposer whose term is behind ours. -/
def staleReply (n : Node) (req : AppendRequest) : Option AppendResponse :=
  if req.term < n.consensus.term then
    some ⟨.staleTerm, n.consensus.term, n.storage.flushLsn, n.commitLsn⟩
  else none

/-- Durably append and flush, under the storage lock. -/
def store (n : Node) (req : AppendRequest) : Except StorageError Node :=
  (n.storage.store req.startLsn req.payload).map fun s => { n with storage := s }

def recordFlush (n : Node) (node : NodeId) (lsn : Lsn) : Node :=
  { n with consensus := n.consensus.recordFlush node lsn }

def recordAcks (n : Node) (acks : List PeerAck) : Node :=
  acks.foldl (fun n a => n.recordFlush a.node a.lsn) n

/-- `handle_vote`, as far as it changes the node, and whether it grants. -/
def handleVote (n : Node) (term : Term) (candidate : NodeId) : Node × Bool :=
  ({ n with consensus := (n.consensus.handleVoteRequest term candidate).1 },
    (n.consensus.handleVoteRequest term candidate).2)

/-- `handle_read`, with the commit position it has read under the consensus lock; this is
what it does under the storage lock. -/
def handleRead (n : Node) (commitLsn : Lsn) (req : ReadRequest) : ReadReply :=
  let start := max req.startLsn n.storage.startLsn
  let available := min (commitLsn.raw.toNat - start.raw.toNat) req.maxBytes.toNat
  if available = 0 then .ok ⟨.ok, commitLsn, start, []⟩
  else match n.storage.readAt start available with
    | .ok payload => .ok ⟨.ok, commitLsn, start, payload⟩
    | .error e => .error e
    | .panicked => .panicked

/-- The process ends and is started again on the same directory. -/
def restart (n : Node) : Node :=
  ⟨n.storage.restart, Consensus.new n.consensus.nodeId n.consensus.members⟩

/-- Only a proposer of an older term is turned away, and told so. -/
theorem staleReply_some {n : Node} {req : AppendRequest} {resp : AppendResponse}
    (h : n.staleReply req = some resp) :
    req.term < n.consensus.term ∧
      resp = ⟨.staleTerm, n.consensus.term, n.storage.flushLsn, n.commitLsn⟩ := by
  unfold staleReply at h
  split at h
  · next hlt => exact ⟨hlt, (Option.some.inj h).symm⟩
  · simp at h

/-- What recording one acknowledgement keeps, recording all of them keeps. -/
theorem recordAcks_induction {P : Node → Prop} {acks : List PeerAck} {n : Node} (h : P n)
    (hstep : ∀ m, ∀ a ∈ acks, P m → P (m.recordFlush a.node a.lsn)) : P (n.recordAcks acks) := by
  unfold recordAcks
  induction acks generalizing n with
  | nil => exact h
  | cons a acks ih =>
    exact ih (hstep n a List.mem_cons_self h) fun m b hb => hstep m b (List.mem_cons_of_mem _ hb)

/-- A store that goes through touches the WAL store only. -/
theorem store_ok {n n' : Node} {req : AppendRequest} (h : n.store req = .ok n') :
    ∃ s, n.storage.store req.startLsn req.payload = .ok s ∧ n' = { n with storage := s } := by
  unfold store at h
  cases hs : n.storage.store req.startLsn req.payload with
  | error e =>
    rw [hs] at h
    simp [Except.map] at h
  | ok s =>
    rw [hs] at h
    exact ⟨s, rfl, (Except.ok.inj h).symm⟩

end Node

/-- The request `NetworkReplicator::replicate` makes of a run that ends at
`endLsn`. -/
def replicateRequest (term : Term) (endLsn : Lsn) (data : List UInt8) : AppendRequest where
  tenant := TenantId.ZERO
  timeline := TimelineId.ZERO
  term := term
  startLsn := ⟨UInt64.ofNat (endLsn.raw.toNat - data.length)⟩
  payload := data

/-! ## Requests in progress -/

inductive AppendPc where
  | received
  | checked
  | stored
  /-- Own flush recorded; the connection lock comes next. -/
  | recorded
  /-- Holding the lock, with the peers still to send to. -/
  | sending (rest : List NodeId) (acks : List PeerAck)
  /-- Waiting for `peer` to answer replicate request number `msg`. -/
  | waiting (peer : NodeId) (msg : Nat) (rest : List NodeId) (acks : List PeerAck)
  | replicated (acks : List PeerAck)
  /-- Answered, or given up without an answer. -/
  | done (resp : Option AppendResponse)

structure AppendTask where
  node : NodeId
  req : AppendRequest
  /-- The local variable `flush_lsn`. -/
  flushLsn : Lsn
  pc : AppendPc

/-- The task holds its node's connection lock. -/
def AppendTask.holdsLock (t : AppendTask) : Bool :=
  match t.pc with
  | .sending _ _ => true
  | .waiting _ _ _ _ => true
  | _ => false

inductive ReplicatePc where
  | received
  | checked (term : Term)
  | stored (term : Term) (flushLsn : Lsn)
  | replied (resp : AppendResponse)
  /-- The connection was closed without a reply. -/
  | closed

/-- A call of `handle_replicate` on `node`, for a run that `sender` forwarded. -/
structure ReplicateTask where
  sender : NodeId
  node : NodeId
  req : AppendRequest
  pc : ReplicatePc

structure ElectionTask where
  node : NodeId
  term : Term
  /-- Peers still to ask. -/
  rest : List NodeId
  /-- The answer of the peer asked last, on its way back. -/
  reply : Option (NodeId × Bool)

structure Group where
  nodes : NodeId → Node
  appends : List AppendTask
  replicates : List ReplicateTask
  elections : List ElectionTask

inductive GroupAction where
  | append (i : NodeId) (req : AppendRequest)
  /-- The next local step of append task `k`. -/
  | appendStep (k : Nat)
  /-- Append task `k` sends to its next peer, which is reached or not. -/
  | send (k : Nat) (reached : Bool)
  /-- Append task `k` gets the answer it waits for, or gives up. -/
  | response (k : Nat) (lost : Bool)
  /-- The next step of replicate task `k`. -/
  | replicateStep (k : Nat)
  /-- A vote request from a candidate outside the elections below. -/
  | vote (i : NodeId) (term : Term) (candidate : NodeId)
  | startElection (i : NodeId)
  | requestVote (k : Nat) (reached : Bool)
  | voteReply (k : Nat) (lost : Bool)
  | restart (i : NodeId)

namespace Group

def new (cfg : GroupConfig) : Group := ⟨Node.new cfg, [], [], []⟩

def setNode (g : Group) (i : NodeId) (n : Node) : Group :=
  { g with nodes := Function.update g.nodes i n }

def setAppend (g : Group) (k : Nat) (t : AppendTask) (pc : AppendPc) : Group :=
  { g with appends := g.appends.set k { t with pc := pc } }

def setReplicate (g : Group) (k : Nat) (r : ReplicateTask) (pc : ReplicatePc) : Group :=
  { g with replicates := g.replicates.set k { r with pc := pc } }

/-- No append task of node `i` is talking to peers. -/
def lockFree (g : Group) (i : NodeId) : Bool :=
  g.appends.all fun t => !(decide (t.node = i) && t.holdsLock)

def stepAppend (cfg : GroupConfig) (g : Group) (k : Nat) (t : AppendTask) : Group :=
  let n := g.nodes t.node
  match t.pc with
  | .received =>
    match n.staleReply t.req with
    | some resp => g.setAppend k t (.done (some resp))
    | none => g.setAppend k t .checked
  | .checked =>
    match n.store t.req with
    | .ok n' =>
      (g.setNode t.node n').setAppend k { t with flushLsn := n'.storage.flushLsn } .stored
    | .error _ => g.setAppend k t (.done none)
  | .stored => (g.setNode t.node (n.recordFlush t.node t.flushLsn)).setAppend k t .recorded
  | .recorded =>
    if g.lockFree t.node then g.setAppend k t (.sending (cfg.peers t.node) []) else g
  | .sending [] acks => g.setAppend k t (.replicated acks)
  | .replicated acks =>
    let n' := n.recordAcks acks
    (g.setNode t.node n').setAppend k t
      (.done (some ⟨.ok, n'.consensus.term, t.flushLsn, n'.commitLsn⟩))
  | _ => g

/-- What the sender makes of the answer it was waiting for, `none` while there
is none. -/
def answerOf (peer : NodeId) (acks : List PeerAck) : ReplicatePc → Option (List PeerAck)
  | .replied resp =>
    match resp.status with
    | .ok => some (acks ++ [⟨peer, resp.flushLsn⟩])
    | _ => some acks
  | .closed => some acks
  | _ => none

def stepReplicate (g : Group) (k : Nat) (r : ReplicateTask) : Group :=
  let n := g.nodes r.node
  match r.pc with
  | .received =>
    match n.staleReply r.req with
    | some resp => g.setReplicate k r (.replied resp)
    | none => g.setReplicate k r (.checked n.consensus.term)
  | .checked term =>
    match n.store r.req with
    | .ok n' => (g.setNode r.node n').setReplicate k r (.stored term n'.storage.flushLsn)
    | .error _ => g.setReplicate k r .closed
  | .stored term flushLsn =>
    let n' := n.recordFlush r.node flushLsn
    (g.setNode r.node n').setReplicate k r (.replied ⟨.ok, term, flushLsn, n'.commitLsn⟩)
  | _ => g

def killAppend (i : NodeId) (t : AppendTask) : AppendTask :=
  if t.node = i then { t with pc := .done none } else t

/-- A reply that is out already stays out. -/
def killReplicate (i : NodeId) (r : ReplicateTask) : ReplicateTask :=
  match r.pc with
  | .replied _ => r
  | _ => if r.node = i then { r with pc := .closed } else r

/-- One step; one that cannot be taken changes nothing. -/
def step (cfg : GroupConfig) (g : Group) : GroupAction → Group
  | .append i req =>
    if i ∈ cfg.members then
      { g with appends := g.appends ++ [⟨i, req, Lsn.INVALID, .received⟩] }
    else g
  | .appendStep k =>
    match g.appends[k]? with
    | some t => g.stepAppend cfg k t
    | none => g
  | .send k reached =>
    match g.appends[k]? with
    | some t =>
      match t.pc with
      | .sending (p :: rest) acks =>
        if reached then
          { g.setAppend k t (.waiting p g.replicates.length rest acks) with
            replicates := g.replicates ++
              [⟨t.node, p, replicateRequest t.req.term t.req.endLsn t.req.payload, .received⟩] }
        else g.setAppend k t (.sending rest acks)
      | _ => g
    | none => g
  | .response k lost =>
    match g.appends[k]? with
    | some t =>
      match t.pc with
      | .waiting p msg rest acks =>
        if lost then g.setAppend k t (.sending rest acks)
        else
          match (g.replicates[msg]?).bind fun r => answerOf p acks r.pc with
          | some acks' => g.setAppend k t (.sending rest acks')
          | none => g
      | _ => g
    | none => g
  | .replicateStep k =>
    match g.replicates[k]? with
    | some r => g.stepReplicate k r
    | none => g
  | .vote i term candidate =>
    if i ∈ cfg.members then g.setNode i ((g.nodes i).handleVote term candidate).1 else g
  | .startElection i =>
    if i ∈ cfg.members then
      let c := (g.nodes i).consensus.startElection
      { g.setNode i { g.nodes i with consensus := c } with
        elections := g.elections ++ [⟨i, c.term, cfg.peers i, none⟩] }
    else g
  | .requestVote k reached =>
    match g.elections[k]? with
    | some ⟨i, term, p :: rest, none⟩ =>
      if reached then
        { g.setNode p ((g.nodes p).handleVote term i).1 with
          elections := g.elections.set k
            ⟨i, term, rest, some (p, ((g.nodes p).handleVote term i).2)⟩ }
      else { g with elections := g.elections.set k ⟨i, term, rest, none⟩ }
    | _ => g
  | .voteReply k lost =>
    match g.elections[k]? with
    | some ⟨i, term, rest, some (p, granted)⟩ =>
      let c := (g.nodes i).consensus
      let c' := if granted && !lost then c.handleVoteGranted p term else c
      { g.setNode i { g.nodes i with consensus := c' } with
        elections := g.elections.set k ⟨i, term, rest, none⟩ }
    | _ => g
  | .restart i =>
    { nodes := Function.update g.nodes i (g.nodes i).restart
      appends := g.appends.map (killAppend i)
      replicates := g.replicates.map (killReplicate i)
      elections := g.elections.filter fun e => !decide (e.node = i) }

def after (cfg : GroupConfig) (acts : List GroupAction) : Group := run (step cfg) (new cfg) acts

/-! ## Parts of a step

What an invariant says of single nodes and tasks is kept by a step if it holds of the
node or task that the step replaces. -/

variable {g : Group}

theorem forall_setNode {P : NodeId → Node → Prop} (h : ∀ j, P j (g.nodes j)) {i : NodeId} {n : Node}
    (hn : P i n) : ∀ j, P j ((g.setNode i n).nodes j) := by
  intro j
  show P j (Function.update g.nodes i n j)
  by_cases hj : j = i
  · subst hj
    rw [Function.update_self]
    exact hn
  · rw [Function.update_of_ne hj]
    exact h j

theorem forall_setAppend {P : AppendTask → Prop} (h : ∀ t ∈ g.appends, P t) {k : Nat} {t : AppendTask}
    {pc : AppendPc} (ht : P { t with pc := pc }) : ∀ t' ∈ (g.setAppend k t pc).appends, P t' := by
  intro t' ht'
  rcases List.mem_or_eq_of_mem_set ht' with ht' | rfl
  · exact h t' ht'
  · exact ht

theorem forall_setReplicate {P : ReplicateTask → Prop} (h : ∀ r ∈ g.replicates, P r) {k : Nat}
    {r : ReplicateTask} {pc : ReplicatePc} (hr : P { r with pc := pc }) :
    ∀ r' ∈ (g.setReplicate k r pc).replicates, P r' := by
  intro r' hr'
  rcases List.mem_or_eq_of_mem_set hr' with hr' | rfl
  · exact h r' hr'
  · exact hr

theorem forall_concat {α : Type} {P : α → Prop} {l : List α} (h : ∀ x ∈ l, P x) {a : α} (ha : P a) :
    ∀ x ∈ l ++ [a], P x :=
  List.forall_mem_append.mpr ⟨h, List.forall_mem_singleton.mpr ha⟩

theorem killAppend_cases (i : NodeId) (t : AppendTask) :
    killAppend i t = t ∨ killAppend i t = { t with pc := .done none } := by
  unfold killAppend
  split
  · exact Or.inr rfl
  · exact Or.inl rfl

theorem killReplicate_cases (i : NodeId) (r : ReplicateTask) :
    killReplicate i r = r ∨ killReplicate i r = { r with pc := .closed } := by
  unfold killReplicate
  split
  · exact Or.inl rfl
  · split
    · exact Or.inr rfl
    · exact Or.inl rfl

theorem forall_killAppend {P : AppendTask → Prop} (h : ∀ t ∈ g.appends, P t)
    (hdone : ∀ t, P t → P { t with pc := .done none }) (i : NodeId) :
    ∀ t ∈ g.appends.map (killAppend i), P t := by
  intro t' ht'
  obtain ⟨t, ht, rfl⟩ := List.mem_map.mp ht'
  rcases killAppend_cases i t with heq | heq
  · rw [heq]
    exact h t ht
  · rw [heq]
    exact hdone t (h t ht)

theorem forall_killReplicate {P : ReplicateTask → Prop} (h : ∀ r ∈ g.replicates, P r)
    (hclosed : ∀ r, P r → P { r with pc := .closed }) (i : NodeId) :
    ∀ r ∈ g.replicates.map (killReplicate i), P r := by
  intro r' hr'
  obtain ⟨r, hr, rfl⟩ := List.mem_map.mp hr'
  rcases killReplicate_cases i r with heq | heq
  · rw [heq]
    exact h r hr
  · rw [heq]
    exact hclosed r (h r hr)

/-- What an answer adds to the acknowledgements is the flush position it reports. -/
theorem mem_of_answerOf {peer : NodeId} {acks acks' : List PeerAck} {pc : ReplicatePc}
    (h : answerOf peer acks pc = some acks') {a : PeerAck} (ha : a ∈ acks') :
    a ∈ acks ∨ ∃ resp, pc = .replied resp ∧ resp.status = .ok ∧ a = ⟨peer, resp.flushLsn⟩ := by
  unfold answerOf at h
  split at h
  · next resp =>
    split at h
    · next hstatus =>
      obtain rfl := Option.some.inj h
      rcases List.mem_append.mp ha with ha | ha
      · exact Or.inl ha
      · exact Or.inr ⟨resp, rfl, hstatus, List.mem_singleton.mp ha⟩
    · exact Or.inl (Option.some.inj h ▸ ha)
  · exact Or.inl (Option.some.inj h ▸ ha)
  · simp at h

/-! ### Waiting tasks and the tasks they wait for -/

/-- Every waiting task finds the replicate task it waits for, and `P` relates the two. -/
def Linked (P : AppendTask → NodeId → ReplicateTask → Prop) (g : Group) : Prop :=
  ∀ t ∈ g.appends, ∀ p msg rest acks, t.pc = .waiting p msg rest acks →
    ∃ r, g.replicates[msg]? = some r ∧ P t p r

namespace Linked

variable {P : AppendTask → NodeId → ReplicateTask → Prop} {t : AppendTask}

theorem setAppend (h : g.Linked P) {k : Nat} {pc : AppendPc}
    (hlink : ∀ p msg rest acks, pc = .waiting p msg rest acks →
      ∃ r, g.replicates[msg]? = some r ∧ P { t with pc := pc } p r) :
    (g.setAppend k t pc).Linked P :=
  forall_setAppend h hlink

theorem setReplicate (h : g.Linked P) {k : Nat} {r : ReplicateTask} {pc : ReplicatePc}
    (hk : g.replicates[k]? = some r) (hP : ∀ t p, P t p r → P t p { r with pc := pc }) :
    (g.setReplicate k r pc).Linked P := by
  intro t ht p msg rest acks hpc
  obtain ⟨r', hr', hrel⟩ := h t ht p msg rest acks hpc
  show ∃ r', (g.replicates.set k _)[msg]? = some r' ∧ _
  by_cases hm : k = msg
  · subst hm
    obtain rfl := Option.some.inj (hk.symm.trans hr')
    refine ⟨{ r with pc := pc }, ?_, hP t p hrel⟩
    rw [List.getElem?_set_self (List.getElem?_eq_some_iff.mp hk).1]
  · rw [List.getElem?_set_ne hm]
    exact ⟨r', hr', hrel⟩

theorem arrive (h : g.Linked P) (ht : ∀ p msg rest acks, t.pc ≠ .waiting p msg rest acks) :
    Linked P { g with appends := g.appends ++ [t] } :=
  forall_concat h fun p msg rest acks hpc => absurd hpc (ht p msg rest acks)

/-- A new replicate task is at the end, so the links of the others keep their index. -/
theorem send (h : g.Linked P) {k : Nat} {p : NodeId} {rest : List NodeId} {acks : List PeerAck}
    {r : ReplicateTask} (hnew : P { t with pc := .waiting p g.replicates.length rest acks } p r) :
    Linked P { g.setAppend k t (.waiting p g.replicates.length rest acks) with
      replicates := g.replicates ++ [r] } := by
  intro t' ht' q msg rest' acks' hq
  show ∃ r', (g.replicates ++ [r])[msg]? = some r' ∧ _
  rcases List.mem_or_eq_of_mem_set ht' with ht' | rfl
  · obtain ⟨r', hr', hrel⟩ := h t' ht' q msg rest' acks' hq
    refine ⟨r', ?_, hrel⟩
    rw [List.getElem?_append_left (List.getElem?_eq_some_iff.mp hr').1]
    exact hr'
  · obtain ⟨rfl, rfl, _, _⟩ := AppendPc.waiting.inj hq
    exact ⟨_, List.getElem?_concat_length, hnew⟩

/-- Restarting a peer ends its tasks in place, so their senders still find them. -/
theorem restart (h : g.Linked P) (cfg : GroupConfig) (i : NodeId)
    (hP : ∀ t p r, P t p r → P t p { r with pc := .closed }) :
    (g.step cfg (.restart i)).Linked P := by
  intro t' ht' p msg rest acks hpc
  obtain ⟨t, ht, rfl⟩ := List.mem_map.mp ht'
  rcases killAppend_cases i t with heq | heq
  · rw [heq] at hpc ⊢
    obtain ⟨r, hr, hrel⟩ := h t ht p msg rest acks hpc
    refine ⟨killReplicate i r, ?_, ?_⟩
    · show (g.replicates.map (killReplicate i))[msg]? = _
      rw [List.getElem?_map, hr]
      rfl
    · rcases killReplicate_cases i r with hkill | hkill
      · rw [hkill]
        exact hrel
      · rw [hkill]
        exact hP t p r hrel
  · rw [heq] at hpc
    simp at hpc

end Linked

end Group

/-! ## What a step does -/

/-- The flush positions an append task has yet to record. -/
def AppendTask.reports (t : AppendTask) : List PeerAck :=
  match t.pc with
  | .stored => [⟨t.node, t.flushLsn⟩]
  | .sending _ acks => acks
  | .waiting _ _ _ acks => acks
  | .replicated acks => acks
  | _ => []

/-- The run is in the node's own log. -/
def AppendTask.hasStored (t : AppendTask) : Bool :=
  match t.pc with
  | .stored => true
  | .recorded => true
  | .sending _ _ => true
  | .waiting _ _ _ _ => true
  | _ => false

/-- The positions a replicate task reports, with the node each is reported to. -/
def ReplicateTask.reports (r : ReplicateTask) : List (NodeId × Lsn) :=
  match r.pc with
  | .stored _ flushLsn => [(r.sender, flushLsn), (r.node, flushLsn)]
  | .replied resp => if resp.status = .ok then [(r.sender, resp.flushLsn)] else []
  | _ => []

/-- An append task may go on to `pc` without a change to its node. -/
structure AppendTask.Passes (t : AppendTask) (pc : AppendPc) : Prop where
  stored : AppendTask.hasStored { t with pc := pc } = true → t.hasStored = true
  reports : ∀ a ∈ AppendTask.reports { t with pc := pc }, a ∈ t.reports
  waiting : ∀ p msg rest acks, pc ≠ .waiting p msg rest acks

namespace AppendTask.Passes

variable {t : AppendTask}

theorem of_silent {pc : AppendPc} (hs : AppendTask.hasStored { t with pc := pc } = false)
    (hr : AppendTask.reports { t with pc := pc } = []) : t.Passes pc where
  stored := fun h => absurd (hs.symm.trans h) Bool.false_ne_true
  reports := fun a ha => absurd (hr ▸ ha) List.not_mem_nil
  waiting := by
    rintro p msg rest acks rfl
    exact absurd hs.symm Bool.false_ne_true

theorem sending (hs : t.hasStored = true) {rest : List NodeId} {acks : List PeerAck}
    (hacks : ∀ a ∈ acks, a ∈ t.reports) : t.Passes (.sending rest acks) :=
  ⟨fun _ => hs, hacks, by simp⟩

end AppendTask.Passes

namespace Group

/-- The steps of the group, with the guards they passed. -/
inductive Moves (cfg : GroupConfig) (g : Group) : GroupAction → Group → Prop
  | stay {a} : Moves cfg g a g
  | arrive {i req} : Moves cfg g (.append i req)
      { g with appends := g.appends ++ [⟨i, req, Lsn.INVALID, .received⟩] }
  | pass {a t pc} {k : Nat} (hk : g.appends[k]? = some t) (hpass : t.Passes pc) :
      Moves cfg g a (g.setAppend k t pc)
  | store {a t n'} {k : Nat} (hk : g.appends[k]? = some t)
      (hst : (g.nodes t.node).store t.req = .ok n') : Moves cfg g a
        ((g.setNode t.node n').setAppend k { t with flushLsn := n'.storage.flushLsn } .stored)
  | record {a t acks pc} {k : Nat} (hk : g.appends[k]? = some t)
      (hacks : ∀ x ∈ acks, x ∈ t.reports) (hpass : t.Passes pc) :
      Moves cfg g a ((g.setNode t.node ((g.nodes t.node).recordAcks acks)).setAppend k t pc)
  | send {a t p rest acks} {k : Nat} (hk : g.appends[k]? = some t)
      (hpc : t.pc = .sending (p :: rest) acks) : Moves cfg g a
        { g.setAppend k t (.waiting p g.replicates.length rest acks) with
          replicates := g.replicates ++
            [⟨t.node, p, replicateRequest t.req.term t.req.endLsn t.req.payload, .received⟩] }
  | answer {a t p rest acks acks'} {k msg : Nat} (hk : g.appends[k]? = some t)
      (hpc : t.pc = .waiting p msg rest acks)
      (hans : ((g.replicates[msg]?).bind fun r => answerOf p acks r.pc) = some acks') :
      Moves cfg g a (g.setAppend k t (.sending rest acks'))
  | silent {a r pc} {k : Nat} (hk : g.replicates[k]? = some r)
      (hr : ReplicateTask.reports { r with pc := pc } = []) : Moves cfg g a (g.setReplicate k r pc)
  | storeForwarded {k r term n'} (hk : g.replicates[k]? = some r) (hpc : r.pc = .checked term)
      (hst : (g.nodes r.node).store r.req = .ok n') : Moves cfg g (.replicateStep k)
        ((g.setNode r.node n').setReplicate k r (.stored term n'.storage.flushLsn))
  | recordForwarded {a r term flushLsn commitLsn} {k : Nat} (hk : g.replicates[k]? = some r)
      (hpc : r.pc = .stored term flushLsn) : Moves cfg g a
        ((g.setNode r.node ((g.nodes r.node).recordAcks [⟨r.node, flushLsn⟩])).setReplicate k r
          (.replied ⟨.ok, term, flushLsn, commitLsn⟩))
  | vote {a i term candidate} : Moves cfg g a (g.setNode i ((g.nodes i).handleVote term candidate).1)
  | stand {a i term} (hi : i ∈ cfg.members) : Moves cfg g a
      { g.setNode i { g.nodes i with consensus := (g.nodes i).consensus.startElection } with
        elections := g.elections ++ [⟨i, term, cfg.peers i, none⟩] }
  | ask {a i p term rest granted} {k : Nat} (hk : g.elections[k]? = some ⟨i, term, p :: rest, none⟩) :
      Moves cfg g a { g.setNode p ((g.nodes p).handleVote term i).1 with
        elections := g.elections.set k ⟨i, term, rest, some (p, granted)⟩ }
  | skip {a i p term rest} {k : Nat} (hk : g.elections[k]? = some ⟨i, term, p :: rest, none⟩) :
      Moves cfg g a { g with elections := g.elections.set k ⟨i, term, rest, none⟩ }
  | count {a i p term rest granted c} {k : Nat}
      (hk : g.elections[k]? = some ⟨i, term, rest, some (p, granted)⟩)
      (hc : c = (g.nodes i).consensus.handleVoteGranted p term ∨ c = (g.nodes i).consensus) :
      Moves cfg g a { g.setNode i { g.nodes i with consensus := c } with
        elections := g.elections.set k ⟨i, term, rest, none⟩ }
  | restart {i} : Moves cfg g (.restart i) (g.step cfg (.restart i))

variable {cfg : GroupConfig} {g : Group}

theorem moves_stepAppend {a : GroupAction} {k : Nat} {t : AppendTask}
    (hk : g.appends[k]? = some t) : g.Moves cfg a (g.stepAppend cfg k t) := by
  unfold stepAppend
  cases hpc : t.pc with
  | received =>
    simp only
    split
    · exact .pass hk (.of_silent rfl rfl)
    · exact .pass hk (.of_silent rfl rfl)
  | checked =>
    simp only
    split
    · next n' hst => exact .store hk hst
    · exact .pass hk (.of_silent rfl rfl)
  | stored =>
    have hs : t.hasStored = true := by rw [AppendTask.hasStored, hpc]
    have hown : t.reports = [⟨t.node, t.flushLsn⟩] := by rw [AppendTask.reports, hpc]
    exact .record hk (fun x hx => hown ▸ hx) ⟨fun _ => hs, nofun, by simp⟩
  | recorded =>
    have hs : t.hasStored = true := by rw [AppendTask.hasStored, hpc]
    simp only
    split
    · exact .pass hk (.sending hs nofun)
    · exact .stay
  | sending rest acks =>
    have hs : t.hasStored = true := by rw [AppendTask.hasStored, hpc]
    have hacks : t.reports = acks := by rw [AppendTask.reports, hpc]
    cases rest with
    | nil => exact .pass hk ⟨fun _ => hs, fun a ha => hacks ▸ ha, by simp⟩
    | cons p rest => exact .stay
  | waiting p msg rest acks => exact .stay
  | replicated acks =>
    have hacks : t.reports = acks := by rw [AppendTask.reports, hpc]
    exact .record hk (fun x hx => hacks ▸ hx) (.of_silent rfl rfl)
  | done resp => exact .stay

theorem moves_stepReplicate {k : Nat} {r : ReplicateTask} (hk : g.replicates[k]? = some r) :
    g.Moves cfg (.replicateStep k) (g.stepReplicate k r) := by
  unfold stepReplicate
  cases hpc : r.pc with
  | received =>
    simp only
    split
    · next resp hstale =>
      -- a stale reply carries another status, so nothing is reported by it
      have hstatus : resp.status = .staleTerm := by rw [(Node.staleReply_some hstale).2]
      exact .silent hk (by simp [ReplicateTask.reports, hstatus])
    · exact .silent hk rfl
  | checked term =>
    simp only
    split
    · next n' hst => exact .storeForwarded hk hpc hst
    · exact .silent hk rfl
  | stored term flushLsn => exact .recordForwarded hk hpc
  | replied resp => exact .stay
  | closed => exact .stay

/-- **A step is one of these.** -/
theorem moves_step (a : GroupAction) : g.Moves cfg a (g.step cfg a) := by
  cases a with
  | append i req =>
    simp only [step]
    split
    · exact .arrive
    · exact .stay
  | appendStep k =>
    simp only [step]
    split
    · next t hk => exact moves_stepAppend hk
    · exact .stay
  | send k reached =>
    simp only [step]
    split
    · next t hk =>
      split
      · next p rest acks hpc =>
        have hs : t.hasStored = true := by rw [AppendTask.hasStored, hpc]
        have hacks : t.reports = acks := by rw [AppendTask.reports, hpc]
        split
        · exact .send hk hpc
        · exact .pass hk (.sending hs fun a ha => hacks ▸ ha)
      · exact .stay
    · exact .stay
  | response k lost =>
    simp only [step]
    split
    · next t hk =>
      split
      · next p msg rest acks hpc =>
        have hs : t.hasStored = true := by rw [AppendTask.hasStored, hpc]
        have hacks : t.reports = acks := by rw [AppendTask.reports, hpc]
        split
        · exact .pass hk (.sending hs fun a ha => hacks ▸ ha)
        · split
          · next acks' hans => exact .answer hk hpc hans
          · exact .stay
      · exact .stay
    · exact .stay
  | replicateStep k =>
    simp only [step]
    split
    · next r hk => exact moves_stepReplicate hk
    · exact .stay
  | vote i term candidate =>
    simp only [step]
    split
    · exact .vote
    · exact .stay
  | startElection i =>
    simp only [step]
    split
    · next hi => exact .stand hi
    · exact .stay
  | requestVote k reached =>
    simp only [step]
    split
    · next hk =>
      split
      · exact .ask hk
      · exact .skip hk
    · exact .stay
  | voteReply k lost =>
    simp only [step]
    split
    · next hk =>
      refine .count hk ?_
      split
      · exact Or.inl rfl
      · exact Or.inr rfl
    · exact .stay
  | restart i => exact .restart

end Group

end AethelDB.Safekeeper
