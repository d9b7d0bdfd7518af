import AethelDB.Safekeeper.QuorumDurability
import AethelDB.Safekeeper.ReadBack

/-!
# Serving committed WAL

`handle_read` of `safekeeper/src/server.rs` on a node of a running group. It takes the
commit position under the consensus lock and reads under the storage lock, and
anything may happen in between. A read can therefore only fail if a node can commit a
position that it has not written itself.

It cannot, and no condition on the peers is needed for that. What a node records is
its own flush position, or an acknowledgement of a run that it forwarded; and whatever
a peer holds, the position it acknowledges such a run with is the end of the run,
because a store that accepts a run ends there (`ReplicateTask.Exact`). So every
recorded position is at most the node's own write position (`Node.Sound`), and the
quorum-th largest of them is.

Nodes forward over the network or are started with `LocalSimReplicator`, which makes up
an acknowledgement of every peer at the end of the run.
-/

namespace AethelDB.Safekeeper

open AethelDB.Lib

/-! ## The store between calls -/

/-- The store holds `log`, all of it durable, and reads it back. -/
structure WalStorage.Keeps (s : WalStorage) (log : ByteLog UInt8) : Prop
    extends s.Holds log where
  retains : s.Retains log

namespace WalStorage

variable {log : ByteLog UInt8} {s : WalStorage}

theorem keeps_new (cfg : WalConfig) : (new cfg).Keeps ByteLog.blank :=
  ⟨holds_new cfg, retains_new cfg⟩

theorem Holds.retains (h : s.Holds log) (hring : s.ring = []) (hpos : s.ringStart = s.writeLsn) :
    s.Retains log where
  seed := h.start.ge
  start_le_flush := by
    rw [h.flush, Lsn.le_iff_toNat, h.start, h.write]
    exact Nat.le_add_right _ _
  flush_le_write := h.flush.le
  write := h.write
  bytes := fun _ hb => h.bytes hb
  ringEnd := by rw [hring, hpos, h.write, List.length_nil, Nat.add_zero]
  ring := fun hk => absurd hk (by simp [hring])

theorem Keeps.restart (h : s.Keeps log) : s.restart.Keeps log :=
  ⟨h.toHolds.restart, h.toHolds.restart.retains rfl rfl⟩

/-- **What is accepted is appended to the log.** -/
theorem Keeps.store {s' : WalStorage} (h : s.Keeps log) {startLsn : Lsn} {data : List UInt8}
    (hfit : startLsn.raw.toNat + data.length < 2 ^ 64) (hst : s.store startLsn data = .ok s') :
    ∃ log', log.append startLsn.raw.toNat data = some log' ∧ s'.Keeps log' := by
  have href := h.toHolds.store hfit
  cases happ : log.append startLsn.raw.toNat data with
  | none =>
    rw [happ] at href
    have href : _ = _ := href
    rw [href] at hst
    simp at hst
  | some log' =>
    rw [happ] at href
    obtain ⟨s₁, hs₁, hholds⟩ := href
    obtain ⟨s₂, hs₂, hretains⟩ :=
      h.retains.append_accepted happ (by rw [ByteLog.fin_append happ]; exact hfit)
    have hflush : s.store startLsn data = .ok s₂.flush := by
      rw [WalStorage.store, hs₂]
      rfl
    obtain rfl := Except.ok.inj (hst.symm.trans hs₁)
    obtain rfl := Except.ok.inj (hst.symm.trans hflush)
    exact ⟨log', rfl, hholds, hretains.flush⟩

end WalStorage

/-! ## A node commits what it has written -/

variable {w : Lsn}

/-- A commit position is at most some recorded position. -/
theorem Consensus.commitLsn_le {c : Consensus} (h : ∀ j, c.flush j ≤ w) : c.commitLsn ≤ w := by
  unfold commitLsn
  cases hk : kthLargest (c.members.map c.flush) (c.quorum - 1) with
  | none => exact Lsn.INVALID_le w
  | some v =>
    have hcount := countP_kthLargest hk
    obtain ⟨x, hx, hv⟩ := List.countP_pos_iff.mp (lt_of_le_of_lt (Nat.zero_le _) hcount)
    obtain ⟨j, _, rfl⟩ := List.mem_map.mp hx
    exact (of_decide_eq_true hv).trans (h j)

theorem Consensus.SameFlush.commitLsn_eq {c c' : Consensus} (h : c.SameFlush c') :
    c'.commitLsn = c.commitLsn := by
  rw [Consensus.commitLsn, Consensus.commitLsn, h.members, h.quorum, h.flush]

/-- A node whose store works, and which has recorded no position above its own. -/
structure Node.Sound (n : Node) : Prop where
  stored : ∃ log, n.storage.Keeps log
  recorded : ∀ j, n.consensus.flush j ≤ n.storage.writeLsn

namespace Node.Sound

variable {n : Node}

theorem commit_le (h : n.Sound) : n.commitLsn ≤ n.storage.writeLsn :=
  Consensus.commitLsn_le h.recorded

theorem recordFlush (h : n.Sound) {j : NodeId} {lsn : Lsn} (hle : lsn ≤ n.storage.writeLsn) :
    (n.recordFlush j lsn).Sound where
  stored := h.stored
  recorded := by
    intro i
    show (n.consensus.recordFlush j lsn).flush i ≤ n.storage.writeLsn
    rcases n.consensus.flush_recordFlush j lsn i with heq | ⟨_, heq⟩
    · rw [heq]
      exact h.recorded i
    · rw [heq]
      exact hle

theorem recordAcks (h : n.Sound) {acks : List PeerAck} (hle : ∀ a ∈ acks, a.lsn ≤ n.storage.writeLsn) :
    (n.recordAcks acks).Sound ∧ n.commitLsn ≤ (n.recordAcks acks).commitLsn ∧
      (n.recordAcks acks).storage = n.storage := by
  refine Node.recordAcks_induction (P := fun m => m.Sound ∧ n.commitLsn ≤ m.commitLsn ∧
    m.storage = n.storage) ⟨h, le_rfl, rfl⟩ ?_
  rintro m a ha ⟨hsound, hcommit, hstorage⟩
  exact ⟨hsound.recordFlush (hstorage ▸ hle a ha),
    hcommit.trans (m.consensus.commitLsn_le_recordFlush a.node a.lsn), hstorage⟩

theorem sameFlush (h : n.Sound) {c : Consensus} (hc : n.consensus.SameFlush c) :
    Node.Sound { n with consensus := c } where
  stored := h.stored
  recorded := by
    intro i
    show c.flush i ≤ _
    rw [hc.flush]
    exact h.recorded i

theorem restart (h : n.Sound) :
    n.restart.Sound ∧ n.restart.storage.writeLsn = n.storage.writeLsn := by
  obtain ⟨log, hlog⟩ := h.stored
  refine ⟨⟨⟨log, hlog.restart⟩, fun _ => Lsn.INVALID_le _⟩, Lsn.toNat_injective ?_⟩
  show n.storage.restart.writeLsn.raw.toNat = n.storage.writeLsn.raw.toNat
  rw [hlog.restart.write, hlog.write]

theorem endLsn_toNat {req : AppendRequest}
    (hfit : req.startLsn.raw.toNat + req.payload.length < 2 ^ 64) :
    req.endLsn.raw.toNat = req.startLsn.raw.toNat + req.payload.length :=
  WalStorage.toNat_add_ofNat hfit

/-- A run that is accepted is the end of the store. -/
theorem store (h : n.Sound) {n' : Node} {req : AppendRequest}
    (hfit : req.startLsn.raw.toNat + req.payload.length < 2 ^ 64) (hst : n.store req = .ok n') :
    n'.Sound ∧ n'.consensus = n.consensus ∧ n.storage.writeLsn ≤ n'.storage.writeLsn ∧
      n'.storage.writeLsn = req.endLsn ∧ n'.storage.flushLsn = req.endLsn := by
  obtain ⟨log, hlog⟩ := h.stored
  obtain ⟨s, hs, rfl⟩ := Node.store_ok hst
  obtain ⟨log', happ, hlog'⟩ := hlog.store hfit hs
  have hend : s.writeLsn = req.endLsn := by
    refine Lsn.toNat_injective ?_
    show s.writeLsn.raw.toNat = req.endLsn.raw.toNat
    rw [hlog'.write, ByteLog.fin_append happ, endLsn_toNat hfit]
  have hle : n.storage.writeLsn ≤ s.writeLsn := by
    rw [Lsn.le_iff_toNat, hlog.write, hlog'.write]
    exact (ByteLog.grows_append happ).fin_le
  exact ⟨⟨⟨log', hlog'⟩, fun j => (h.recorded j).trans hle⟩, rfl, hle, hend, hlog'.flush.trans hend⟩

end Node.Sound

/-- **A read below the write position succeeds**, with the stored bytes. -/
theorem Node.handleRead_of_le {n : Node} {log : ByteLog UInt8} (h : n.storage.Keeps log)
    {commitLsn : Lsn} (hle : commitLsn ≤ n.storage.writeLsn) (req : ReadRequest) :
    let start := max req.startLsn n.storage.startLsn
    let len := min (commitLsn.raw.toNat - start.raw.toNat) req.maxBytes.toNat
    ∃ payload, n.handleRead commitLsn req = .ok ⟨.ok, commitLsn, start, payload⟩ ∧
      payload.length = len ∧
      ∀ k < len, payload[k]? = n.storage.durableByte (start.raw.toNat + k) := by
  intro start len
  rw [Lsn.le_iff_toNat, h.write] at hle
  have hfloor : n.storage.startLsn.raw.toNat ≤ start.raw.toNat :=
    Lsn.le_iff_toNat.mp (le_max_right _ _)
  have hseed : log.seed ≤ start.raw.toNat := h.start ▸ hfloor
  have hin : len = 0 ∨ start.raw.toNat + len ≤ log.fin := by omega
  have hread := h.retains.handleRead_eq commitLsn req
  refine ⟨log.slice start.raw.toNat len, hread.trans (if_pos hin), ?_, ?_⟩
  · rcases hin with hzero | hin
    · rw [hzero, ByteLog.slice, List.take_zero, List.length_nil]
    · exact ByteLog.length_slice hseed hin
  · intro k hk
    rw [ByteLog.getElem?_slice hseed hk, h.durableByte_eq]

/-! ## Reads on a running group -/

/-- Nodes in `simulated` are started with `LocalSimReplicator`. -/
structure ServingConfig extends GroupConfig where
  simulated : NodeId → Bool

/-- A call of `handle_read` that has read the commit position. -/
structure ReadTask where
  node : NodeId
  req : ReadRequest
  commitLsn : Lsn

structure Serving where
  group : Group
  reads : List ReadTask

inductive ServingAction where
  | group (a : GroupAction)
  /-- A read request arrives at a node, which takes its commit position. -/
  | read (i : NodeId) (req : ReadRequest)
  /-- Read task `k` is answered, under the storage lock. -/
  | serve (k : Nat)

/-- The acknowledgements `LocalSimReplicator` makes up. -/
def simulatedAcks (peers : List NodeId) (endLsn : Lsn) : List PeerAck :=
  peers.map fun p => ⟨p, endLsn⟩

/-- The next local step of an append task, whose node has either replicator. -/
def Group.stepAppendWith (cfg : ServingConfig) (g : Group) (k : Nat) (t : AppendTask) : Group :=
  match t.pc, cfg.simulated t.node with
  | .recorded, true =>
    g.setAppend k t (.replicated (simulatedAcks (cfg.peers t.node) t.req.endLsn))
  | _, _ => g.stepAppend cfg.toGroupConfig k t

def Group.stepWith (cfg : ServingConfig) (g : Group) : GroupAction → Group
  | .appendStep k =>
    match g.appends[k]? with
    | some t => g.stepAppendWith cfg k t
    | none => g
  | a => g.step cfg.toGroupConfig a

namespace Serving

def new (cfg : ServingConfig) : Serving := ⟨Group.new cfg.toGroupConfig, []⟩

/-- The reads that are still in progress after a step. -/
def readsAfter (reads : List ReadTask) : GroupAction → List ReadTask
  | .restart i => reads.filter fun r => !decide (r.node = i)
  | _ => reads

def step (cfg : ServingConfig) (s : Serving) : ServingAction → Serving
  | .group a => ⟨s.group.stepWith cfg a, readsAfter s.reads a⟩
  | .read i req => { s with reads := s.reads ++ [⟨i, req, (s.group.nodes i).commitLsn⟩] }
  | .serve k => { s with reads := s.reads.eraseIdx k }

/-- The group and its reads after a sequence of steps. -/
def after (cfg : ServingConfig) (acts : List ServingAction) : Serving := run (step cfg) (new cfg) acts

end Serving

/-- Append requests end below `2^64`. -/
def ServingAction.Fits : ServingAction → Prop
  | .group (.append _ req) => req.startLsn.raw.toNat + req.payload.length < 2 ^ 64
  | _ => True

instance (a : ServingAction) : Decidable a.Fits := by
  unfold ServingAction.Fits
  split <;> infer_instance

/-! ## The invariant -/

/-- The run of an append task, and the positions it has yet to record, are at most the
write position `w` of its node. -/
structure AppendTask.Within (w : Lsn) (t : AppendTask) : Prop where
  fits : t.req.startLsn.raw.toNat + t.req.payload.length < 2 ^ 64
  stored : t.hasStored = true → t.req.endLsn ≤ w
  reports : ∀ a ∈ t.reports, a.lsn ≤ w

theorem AppendTask.Within.mono {w' : Lsn} {t : AppendTask} (h : t.Within w) (hle : w ≤ w') :
    t.Within w' :=
  ⟨h.fits, fun hs => (h.stored hs).trans hle, fun a ha => (h.reports a ha).trans hle⟩

theorem AppendTask.Within.passes {t : AppendTask} (h : t.Within w) {pc : AppendPc}
    (hpass : t.Passes pc) : AppendTask.Within w { t with pc := pc } :=
  ⟨h.fits, fun hs => h.stored (hpass.stored hs), fun a ha => h.reports a (hpass.reports a ha)⟩

/-- A replicate task whose run the node has stored but not yet recorded. -/
def ReplicateTask.hasStored (r : ReplicateTask) : Bool :=
  match r.pc with
  | .stored _ _ => true
  | _ => false

/-- What a replicate task reports is the end of its run, which its node, with write
position `w`, has reached by then. -/
structure ReplicateTask.Exact (w : Lsn) (r : ReplicateTask) : Prop where
  fits : r.req.startLsn.raw.toNat + r.req.payload.length < 2 ^ 64
  stored : r.hasStored = true → r.req.endLsn ≤ w
  reports : ∀ a ∈ r.reports, a.2 = r.req.endLsn

theorem ReplicateTask.Exact.mono {w' : Lsn} {r : ReplicateTask} (h : r.Exact w) (hle : w ≤ w') :
    r.Exact w' :=
  ⟨h.fits, fun hs => (h.stored hs).trans hle, h.reports⟩

theorem ReplicateTask.Exact.silent {r : ReplicateTask} (h : r.Exact w) {pc : ReplicatePc}
    (hr : ReplicateTask.reports { r with pc := pc } = []) :
    ReplicateTask.Exact w { r with pc := pc } where
  fits := h.fits
  stored := by
    intro hs
    cases pc with
    | stored term flushLsn => exact absurd hr (List.cons_ne_nil _ _)
    | received => exact absurd hs Bool.false_ne_true
    | checked term => exact absurd hs Bool.false_ne_true
    | replied resp => exact absurd hs Bool.false_ne_true
    | closed => exact absurd hs Bool.false_ne_true
  reports := fun a ha => absurd (hr ▸ ha) List.not_mem_nil

namespace Group

/-- What holds of a group with reads in progress. -/
structure Reads (reads : List ReadTask) (g : Group) : Prop where
  nodes : ∀ i, (g.nodes i).Sound
  appends : ∀ t ∈ g.appends, t.Within (g.nodes t.node).storage.writeLsn
  replicates : ∀ r ∈ g.replicates, r.Exact (g.nodes r.node).storage.writeLsn
  /-- A waiting task waits for its own run. -/
  links : ∀ t ∈ g.appends, ∀ p msg rest acks, t.pc = .waiting p msg rest acks →
    ∃ r, g.replicates[msg]? = some r ∧ r.req.endLsn = t.req.endLsn
  reads : ∀ r ∈ reads, r.commitLsn ≤ (g.nodes r.node).commitLsn

namespace Reads

variable {reads : List ReadTask} {g : Group} {t : AppendTask} {acks : List PeerAck}

theorem new (cfg : GroupConfig) : Reads [] (new cfg) where
  nodes := fun _ => ⟨⟨_, WalStorage.keeps_new _⟩, fun _ => Lsn.INVALID_le _⟩
  appends := nofun
  replicates := nofun
  links := nofun
  reads := nofun

theorem linked (h : g.Reads reads) : g.Linked fun t _ r => r.req.endLsn = t.req.endLsn := h.links

/-- Replacing a node by one that has committed and written no less. -/
theorem setNode (h : g.Reads reads) {i : NodeId} {n : Node} (hn : n.Sound)
    (hcommit : (g.nodes i).commitLsn ≤ n.commitLsn)
    (hwrite : (g.nodes i).storage.writeLsn ≤ n.storage.writeLsn) :
    (g.setNode i n).Reads reads := by
  have hle : ∀ j, (g.nodes j).commitLsn ≤ ((g.setNode i n).nodes j).commitLsn ∧
      (g.nodes j).storage.writeLsn ≤ ((g.setNode i n).nodes j).storage.writeLsn ∧
      ((g.setNode i n).nodes j).Sound := by
    exact forall_setNode (P := fun j n => (g.nodes j).commitLsn ≤ n.commitLsn ∧
      (g.nodes j).storage.writeLsn ≤ n.storage.writeLsn ∧ n.Sound)
      (fun j => ⟨le_rfl, le_rfl, h.nodes j⟩) ⟨hcommit, hwrite, hn⟩
  exact ⟨fun j => (hle j).2.2, fun t ht => (h.appends t ht).mono (hle t.node).2.1,
    fun r hr => (h.replicates r hr).mono (hle r.node).2.1, h.links,
    fun r hr => (h.reads r hr).trans (hle r.node).1⟩

theorem setAppend (h : g.Reads reads) {k : Nat} {pc : AppendPc}
    (hok : AppendTask.Within (g.nodes t.node).storage.writeLsn { t with pc := pc })
    (hlink : ∀ p msg rest acks, pc = .waiting p msg rest acks →
      ∃ r, g.replicates[msg]? = some r ∧ r.req.endLsn = t.req.endLsn) :
    (g.setAppend k t pc).Reads reads where
  nodes := h.nodes
  appends := forall_setAppend h.appends hok
  replicates := h.replicates
  links := h.linked.setAppend hlink
  reads := h.reads

theorem setReplicate (h : g.Reads reads) {k : Nat} {r : ReplicateTask} {pc : ReplicatePc}
    (hk : g.replicates[k]? = some r)
    (hok : ReplicateTask.Exact (g.nodes r.node).storage.writeLsn { r with pc := pc }) :
    (g.setReplicate k r pc).Reads reads where
  nodes := h.nodes
  appends := h.appends
  replicates := forall_setReplicate h.replicates hok
  links := h.linked.setReplicate hk fun _ _ hrel => hrel
  reads := h.reads

/-- Storing a run moves the write position to its end. -/
theorem store (h : g.Reads reads) {i : NodeId} {req : AppendRequest} {n' : Node}
    (hfit : req.startLsn.raw.toNat + req.payload.length < 2 ^ 64)
    (hst : (g.nodes i).store req = .ok n') :
    (g.setNode i n').Reads reads ∧
      ((g.setNode i n').nodes i).storage.writeLsn = req.endLsn ∧
      n'.storage.flushLsn = req.endLsn := by
  obtain ⟨hsound, hcons, hle, hend, hflush⟩ := (h.nodes i).store hfit hst
  have hcommit : (g.nodes i).commitLsn ≤ n'.commitLsn := by
    rw [Node.commitLsn, Node.commitLsn, hcons]
  refine ⟨h.setNode hsound hcommit hle, ?_, hflush⟩
  rw [show (g.setNode i n').nodes i = n' from Function.update_self ..]
  exact hend

theorem recordAcks (h : g.Reads reads) {i : NodeId}
    (hle : ∀ a ∈ acks, a.lsn ≤ (g.nodes i).storage.writeLsn) :
    (g.setNode i ((g.nodes i).recordAcks acks)).Reads reads ∧
      ((g.setNode i ((g.nodes i).recordAcks acks)).nodes i).storage = (g.nodes i).storage := by
  obtain ⟨hsound, hcommit, hstorage⟩ := Node.Sound.recordAcks (h.nodes i) hle
  refine ⟨h.setNode hsound hcommit (by rw [hstorage]), ?_⟩
  rw [show (g.setNode i _).nodes i = _ from Function.update_self ..]
  exact hstorage

theorem sameFlush (h : g.Reads reads) (i : NodeId) {c : Consensus}
    (hc : (g.nodes i).consensus.SameFlush c) :
    (g.setNode i { g.nodes i with consensus := c }).Reads reads :=
  h.setNode ((h.nodes i).sameFlush hc) hc.commitLsn_eq.ge le_rfl

/-! ### The steps -/

theorem send (h : g.Reads reads) {k : Nat} (hk : g.appends[k]? = some t) {p : NodeId}
    {rest : List NodeId} (hpc : t.pc = .sending (p :: rest) acks) :
    Reads reads { g.setAppend k t (.waiting p g.replicates.length rest acks) with
      replicates := g.replicates ++
        [⟨t.node, p, replicateRequest t.req.term t.req.endLsn t.req.payload, .received⟩] } := by
  have ht := h.appends t (List.mem_of_getElem? hk)
  have hs : t.hasStored = true := by rw [AppendTask.hasStored, hpc]
  have hacks : t.reports = acks := by rw [AppendTask.reports, hpc]
  have hstart := startLsn_replicateRequest ht.fits
  have hend : (replicateRequest t.req.term t.req.endLsn t.req.payload).endLsn = t.req.endLsn := by
    rw [AppendRequest.endLsn, hstart]
    rfl
  refine ⟨h.nodes, forall_setAppend h.appends
      ⟨ht.fits, fun _ => ht.stored hs, fun a ha => ht.reports a (hacks ▸ ha)⟩,
    forall_concat h.replicates ⟨?_, fun hs => absurd hs (by simp [ReplicateTask.hasStored]),
      fun a ha => absurd ha (by simp [ReplicateTask.reports])⟩, h.linked.send hend, h.reads⟩
  rw [hstart]
  exact ht.fits

/-- What a waiting task takes from the answer is at the end of its own run. -/
theorem answer (h : g.Reads reads) (ht : t ∈ g.appends) {p : NodeId} {msg : Nat}
    {rest : List NodeId} {acks' : List PeerAck} (hpc : t.pc = .waiting p msg rest acks)
    (hans : ((g.replicates[msg]?).bind fun r => answerOf p acks r.pc) = some acks') :
    ∀ a ∈ acks', a.lsn ≤ (g.nodes t.node).storage.writeLsn := by
  have hs : t.hasStored = true := by rw [AppendTask.hasStored, hpc]
  have hold : t.reports = acks := by rw [AppendTask.reports, hpc]
  obtain ⟨r, hr, hend⟩ := h.links t ht p msg rest acks hpc
  rw [hr, Option.bind_some] at hans
  have hok := h.replicates r (List.mem_of_getElem? hr)
  intro a ha
  rcases mem_of_answerOf hans ha with ha | ⟨resp, hrpc, hstatus, rfl⟩
  · exact (h.appends t ht).reports a (hold ▸ ha)
  · have hrep := hok.reports (r.sender, resp.flushLsn)
      (by simp [ReplicateTask.reports, hrpc, hstatus])
    show resp.flushLsn ≤ _
    rw [show resp.flushLsn = t.req.endLsn from hrep.trans hend]
    exact (h.appends t ht).stored hs

theorem restart (h : g.Reads reads) (cfg : GroupConfig) (i : NodeId) :
    Reads (Serving.readsAfter reads (.restart i)) (g.step cfg (.restart i)) := by
  obtain ⟨hsound, hwrite⟩ := (h.nodes i).restart
  have hnode : ∀ j, ((g.step cfg (.restart i)).nodes j).Sound ∧
      ((g.step cfg (.restart i)).nodes j).storage.writeLsn = (g.nodes j).storage.writeLsn ∧
      (j ≠ i → (g.step cfg (.restart i)).nodes j = g.nodes j) :=
    forall_setNode (P := fun j n => n.Sound ∧ n.storage.writeLsn = (g.nodes j).storage.writeLsn ∧
      (j ≠ i → n = g.nodes j)) (fun j => ⟨h.nodes j, rfl, fun _ => rfl⟩)
      ⟨hsound, hwrite, fun hne => absurd rfl hne⟩
  refine ⟨fun j => (hnode j).1, ?_, ?_, h.linked.restart cfg i fun _ _ _ hrel => hrel, ?_⟩
  · intro t ht
    rw [(hnode _).2.1]
    exact forall_killAppend h.appends (fun _ ht => ht.passes (.of_silent rfl rfl)) i t ht
  · intro r hr
    rw [(hnode _).2.1]
    exact forall_killReplicate h.replicates (fun _ hr => hr.silent rfl) i r hr
  · intro r hr
    obtain ⟨hr, hne⟩ := List.mem_filter.mp hr
    have hne : r.node ≠ i := by simpa using hne
    rw [(hnode r.node).2.2 hne]
    exact h.reads r hr

theorem withElections (h : g.Reads reads) (es : List ElectionTask) :
    Reads reads { g with elections := es } := ⟨h.nodes, h.appends, h.replicates, h.links, h.reads⟩

/-- **One step of the group**, with the replicator it was written for. -/
theorem step (h : g.Reads reads) {cfg : GroupConfig} {a : GroupAction}
    (ha : (ServingAction.group a).Fits) : Reads (Serving.readsAfter reads a) (g.step cfg a) := by
  obtain ⟨g', hg', hmoves⟩ : ∃ g', g.step cfg a = g' ∧ g.Moves cfg a g' := ⟨_, rfl, moves_step a⟩
  by_cases hrestart : ∃ i, a = .restart i
  · obtain ⟨i, rfl⟩ := hrestart
    exact h.restart cfg i
  have hreads : Serving.readsAfter reads a = reads := by
    cases a with
    | restart i => exact absurd ⟨i, rfl⟩ hrestart
    | _ => rfl
  rw [hg', hreads]
  cases hmoves with
  | stay => exact h
  | arrive =>
    exact ⟨h.nodes, forall_concat h.appends ⟨ha, fun hs => (nomatch hs),
      fun a ha => absurd ha List.not_mem_nil⟩, h.replicates, h.linked.arrive (by simp), h.reads⟩
  | pass hk hpass =>
    exact h.setAppend ((h.appends _ (List.mem_of_getElem? hk)).passes hpass)
      fun p msg rest acks hpc => absurd hpc (hpass.waiting p msg rest acks)
  | store hk hst =>
    have ht := h.appends _ (List.mem_of_getElem? hk)
    obtain ⟨hinv, hwrite, hflush⟩ := h.store ht.fits hst
    refine hinv.setAppend ⟨ht.fits, fun _ => hwrite.ge, ?_⟩ (by simp)
    intro a ha
    rw [List.mem_singleton.mp ha]
    exact (hflush.trans hwrite.symm).le
  | record hk hacks hpass =>
    have ht := h.appends _ (List.mem_of_getElem? hk)
    obtain ⟨hinv, hstorage⟩ := h.recordAcks fun a ha => ht.reports a (hacks a ha)
    refine hinv.setAppend ?_ fun p msg rest acks hpc => absurd hpc (hpass.waiting p msg rest acks)
    rw [hstorage]
    exact ht.passes hpass
  | send hk hpc => exact h.send hk hpc
  | answer hk hpc hans =>
    have ht := h.appends _ (List.mem_of_getElem? hk)
    exact h.setAppend ⟨ht.fits, fun _ => ht.stored (by rw [AppendTask.hasStored, hpc]),
      h.answer (List.mem_of_getElem? hk) hpc hans⟩ (by simp)
  | silent hk hr =>
    exact h.setReplicate hk ((h.replicates _ (List.mem_of_getElem? hk)).silent hr)
  | @storeForwarded _ r term n' hk _ hst =>
    have hr := h.replicates r (List.mem_of_getElem? hk)
    obtain ⟨hinv, hwrite, hflush⟩ := h.store hr.fits hst
    refine hinv.setReplicate hk ⟨hr.fits, fun _ => hwrite.ge, ?_⟩
    intro a ha
    have ha : a ∈ [(r.sender, n'.storage.flushLsn), (r.node, n'.storage.flushLsn)] := ha
    rcases List.mem_cons.mp ha with rfl | ha
    · exact hflush
    · rw [List.mem_singleton.mp ha]
      exact hflush
  | @recordForwarded _ r term flushLsn commitLsn _ hk hpc =>
    have hr := h.replicates r (List.mem_of_getElem? hk)
    have hown := hr.reports (r.node, flushLsn) (by simp [ReplicateTask.reports, hpc])
    have hle : ∀ a ∈ [PeerAck.mk r.node flushLsn], a.lsn ≤ (g.nodes r.node).storage.writeLsn := by
      intro a ha
      rw [List.mem_singleton.mp ha]
      exact le_of_eq_of_le hown (hr.stored (by rw [ReplicateTask.hasStored, hpc]))
    obtain ⟨hinv, hstorage⟩ := h.recordAcks hle
    refine hinv.setReplicate hk ⟨hr.fits, fun hs => absurd hs Bool.false_ne_true, ?_⟩
    intro a ha
    obtain rfl : a = (r.sender, flushLsn) := by simpa [ReplicateTask.reports] using ha
    exact hown
  | vote => exact h.sameFlush _ (Consensus.sameFlush_handleVoteRequest ..)
  | stand => exact (h.sameFlush _ (Consensus.sameFlush_startElection _)).withElections _
  | ask => exact (h.sameFlush _ (Consensus.sameFlush_handleVoteRequest ..)).withElections _
  | skip => exact h.withElections _
  | count _ hc =>
    refine (h.sameFlush _ ?_).withElections _
    obtain rfl | rfl := hc
    · exact Consensus.sameFlush_handleVoteGranted ..
    · exact ⟨rfl, rfl, rfl⟩
  | restart => exact absurd ⟨_, rfl⟩ hrestart

/-- The made-up acknowledgements are at the end of the run, which the node has. -/
theorem simulate (h : g.Reads reads) {k : Nat} (hk : g.appends[k]? = some t)
    (hpc : t.pc = .recorded) (peers : List NodeId) :
    (g.setAppend k t (.replicated (simulatedAcks peers t.req.endLsn))).Reads reads := by
  have ht := h.appends t (List.mem_of_getElem? hk)
  have hs : t.hasStored = true := by rw [AppendTask.hasStored, hpc]
  refine h.setAppend ⟨ht.fits, fun _ => ht.stored hs, ?_⟩ (by simp)
  intro a ha
  obtain ⟨p, _, rfl⟩ := List.mem_map.mp ha
  exact ht.stored hs

theorem stepWith (h : g.Reads reads) {cfg : ServingConfig} {a : GroupAction}
    (ha : (ServingAction.group a).Fits) :
    Reads (Serving.readsAfter reads a) (g.stepWith cfg a) := by
  have hstep : Reads (Serving.readsAfter reads a) (g.step cfg.toGroupConfig a) := h.step ha
  unfold Group.stepWith
  split
  · next k =>
    simp only [Group.step] at hstep
    split
    · next t hk =>
      rw [hk] at hstep
      unfold Group.stepAppendWith
      split
      · next hpc _ => exact h.simulate hk hpc _
      · exact hstep
    · exact h
  · exact hstep

end Reads

end Group

/-- **A whole run.** -/
theorem Serving.reads_after (cfg : ServingConfig) {acts : List ServingAction}
    (hfit : ∀ a ∈ acts, a.Fits) : (after cfg acts).group.Reads (after cfg acts).reads := by
  refine run_invariant (I := fun _ (s : Serving) => s.group.Reads s.reads)
    (Group.Reads.new cfg.toGroupConfig) ?_ acts (along_of_forall hfit)
  intro pre a _ ha h
  cases a with
  | group a => exact h.stepWith ha
  | read i req =>
    refine ⟨h.nodes, h.appends, h.replicates, h.links, ?_⟩
    intro r hr
    rcases List.mem_append.mp hr with hr | hr
    · exact h.reads r hr
    · rw [List.mem_singleton.mp hr]
      exact le_rfl
  | serve k =>
    exact ⟨h.nodes, h.appends, h.replicates, h.links,
      fun r hr => h.reads r (List.mem_of_mem_eraseIdx hr)⟩

/-- **A safekeeper serves exactly its committed bytes.** In every state of a run, a read
in progress is answered, from the requested position or the start of the store, with
the stored bytes up to the commit position it has taken, and no more than it asked for;
and that position is still committed. -/
theorem handleRead_serves_committed (cfg : ServingConfig) (acts : List ServingAction)
    (hfit : ∀ a ∈ acts, a.Fits) :
    ∀ r ∈ (Serving.after cfg acts).reads,
      let n := (Serving.after cfg acts).group.nodes r.node
      let start := max r.req.startLsn n.storage.startLsn
      let len := min (r.commitLsn.raw.toNat - start.raw.toNat) r.req.maxBytes.toNat
      r.commitLsn ≤ n.commitLsn ∧
        ∃ payload, n.handleRead r.commitLsn r.req = .ok ⟨.ok, r.commitLsn, start, payload⟩ ∧
          payload.length = len ∧
          ∀ k < len, payload[k]? = n.storage.durableByte (start.raw.toNat + k) ∧
            start.raw.toNat + k < r.commitLsn.raw.toNat := by
  intro r hr n start len
  have hinv := Serving.reads_after cfg hfit
  have hn : n.Sound := hinv.nodes r.node
  obtain ⟨log, hlog⟩ := hn.stored
  have hcommit : r.commitLsn ≤ n.commitLsn := hinv.reads r hr
  obtain ⟨payload, hread, hlen, hbytes⟩ :=
    Node.handleRead_of_le hlog (hcommit.trans hn.commit_le) r.req
  exact ⟨hcommit, payload, hread, hlen, fun k hk => ⟨hbytes k hk, by omega⟩⟩

/-- Three nodes, the third of which simulates its peers. -/
def oneSimulated : ServingConfig := { threeNodes with simulated := fun i => decide (i = 3) }

def readAll (lsn : Lsn) : ReadRequest := ⟨TenantId.ZERO, TimelineId.ZERO, lsn, 100⟩

/-- Node 1 commits a byte, and then a second one between the two steps of a read; node 3
commits one alone and is read after that. -/
def servingRun : List ServingAction :=
  (arrive 0 (oneByte 8 1) ++ reachSecond 0 0).map .group ++ [.read 1 (readAll 0)] ++
    (arrive 1 (oneByte 9 2) ++ reachSecond 1 1).map .group ++
    [.group (.append 3 (oneByte 5 7)), .group (.appendStep 2), .group (.appendStep 2),
      .group (.appendStep 2), .group (.appendStep 2), .group (.appendStep 2), .read 3 (readAll 5)]

theorem handleRead_serves_committed_sample :
    (Serving.after oneSimulated servingRun).reads.map ReadTask.commitLsn = [9, 6] ∧
      ∀ r ∈ (Serving.after oneSimulated servingRun).reads,
        let n := (Serving.after oneSimulated servingRun).group.nodes r.node
        let start := max r.req.startLsn n.storage.startLsn
        let len := min (r.commitLsn.raw.toNat - start.raw.toNat) r.req.maxBytes.toNat
        r.commitLsn ≤ n.commitLsn ∧
          ∃ payload, n.handleRead r.commitLsn r.req = .ok ⟨.ok, r.commitLsn, start, payload⟩ ∧
            payload.length = len ∧
            ∀ k < len, payload[k]? = n.storage.durableByte (start.raw.toNat + k) ∧
              start.raw.toNat + k < r.commitLsn.raw.toNat :=
  ⟨by decide +kernel, handleRead_serves_committed oneSimulated servingRun (by decide +kernel)⟩

end AethelDB.Safekeeper
