import AethelDB.Safekeeper.Group

/-!
# When a commit position is durable on a quorum

A node commits what a quorum of members has reported as flushed, and a report is a
bare position: the end of the run the member has just stored. Whether the member
also has the bytes below that run is checked nowhere. A fresh store takes its
first run at any position, and a run that continues a store is accepted whatever
the store holds before it.

`quorum_durable` shows that this is the only gap: in every run of the group in
which each forwarded run that a peer stores continues the sender's own bytes on
that peer (`Matched`), every byte below a node's commit position is durable, with
that node's value, on a quorum. `commit_without_quorum` is a run of three nodes
where it is not.

The proof carries a byte log per node next to the group (`Inv`). Stores refine the
logs, logs only grow, and every position a node has recorded, or that is on its
way to being recorded, is one up to which the reporting log agrees with the
node's own. The last is where `Matched` enters, at the step where a peer stores a
forwarded run; no other step can break it.
-/

namespace AethelDB.Safekeeper

open AethelDB.Lib

/-! ## The property and the condition -/

namespace Group

/-- Nodes `i` and `j` durably store the same byte at `p`. -/
def sameByte (g : Group) (i : NodeId) (p : Nat) (j : NodeId) : Bool :=
  match (g.nodes i).storage.durableByte p with
  | none => false
  | some b => decide ((g.nodes j).storage.durableByte p = some b)

/-- Every byte from where a member's log was seeded up to its commit position is
durable on a quorum of members, with the member's own value. -/
def QuorumDurable (cfg : GroupConfig) (g : Group) : Prop :=
  ∀ i ∈ cfg.members, ∀ p, (g.nodes i).storage.startLsn.raw.toNat ≤ p →
    p < (g.nodes i).commitLsn.raw.toNat →
    (g.nodes i).consensus.quorum ≤ cfg.members.countP (g.sameByte i p)

/-- A store that has no position yet, or ends at `lsn`. -/
def Accepts (s : WalStorage) (lsn : Lsn) : Prop :=
  s.writeLsn.isValid = false ∧ s.startLsn.isValid = false ∨ s.writeLsn = lsn

/-- A replicate task about to store its run, in a store that takes it, finds
there every byte that the sender has below the run. -/
def MatchedRun (g : Group) (r : ReplicateTask) : Prop :=
  match r.pc with
  | .checked _ =>
    Accepts (g.nodes r.node).storage r.req.startLsn →
      ∀ p < r.req.startLsn.raw.toNat, (g.nodes r.sender).storage.startLsn.raw.toNat ≤ p →
        g.sameByte r.sender p r.node = true
  | _ => True

/-- Append requests end below `2^64`, and forwarded runs continue the sender's
bytes where they are stored. -/
def Matched (g : Group) : GroupAction → Prop
  | .append _ req => req.startLsn.raw.toNat + req.payload.length < 2 ^ 64
  | .replicateStep k => ∀ r ∈ g.replicates[k]?, g.MatchedRun r
  | _ => True

instance decidableMatchedRun (g : Group) (r : ReplicateTask) : Decidable (g.MatchedRun r) := by
  unfold MatchedRun Accepts
  cases r.pc <;> infer_instance

instance decidableMatched (g : Group) (a : GroupAction) : Decidable (g.Matched a) := by
  cases a <;> unfold Matched <;> infer_instance

end Group

/-! ## The invariant -/

variable {logs : Logs}

abbrev Logs := NodeId → ByteLog UInt8

/-- A node whose store holds its log, and whose recorded flush positions are ones
up to which the reporting logs agree with its own. -/
structure Node.Ok (cfg : GroupConfig) (logs : Logs) (i : NodeId) (n : Node) : Prop where
  holds : n.storage.Holds (logs i)
  recorded : ∀ j, (logs i).Vouches (logs j) (n.consensus.flush j).raw.toNat
  members : n.consensus.members = cfg.members
  quorum : n.consensus.quorum = cfg.members.length / 2 + 1

structure AppendTask.Ok (logs : Logs) (t : AppendTask) : Prop where
  fits : t.req.startLsn.raw.toNat + t.req.payload.length < 2 ^ 64
  run : t.hasStored = true → (logs t.node).HasRun t.req.startLsn.raw.toNat t.req.payload
  reports : ∀ a ∈ t.reports, (logs t.node).Vouches (logs a.node) a.lsn.raw.toNat

structure ReplicateTask.Ok (logs : Logs) (r : ReplicateTask) : Prop where
  fits : r.req.startLsn.raw.toNat + r.req.payload.length < 2 ^ 64
  run : (logs r.sender).HasRun r.req.startLsn.raw.toNat r.req.payload
  reports : ∀ a ∈ r.reports, (logs a.1).Vouches (logs r.node) a.2.raw.toNat

namespace Group

/-- What the proof carries along a run. -/
structure Inv (cfg : GroupConfig) (logs : Logs) (g : Group) : Prop where
  nodes : ∀ i, (g.nodes i).Ok cfg logs i
  appends : ∀ t ∈ g.appends, t.Ok logs
  replicates : ∀ r ∈ g.replicates, r.Ok logs
  /-- A waiting task waits for a request of its own. -/
  links : ∀ t ∈ g.appends, ∀ p msg rest acks, t.pc = .waiting p msg rest acks →
    ∃ r, g.replicates[msg]? = some r ∧ r.sender = t.node ∧ r.node = p

/-! ## Growing logs -/

/-- Every log grows, or stays as it is. -/
def LogsGrow (logs logs' : Logs) : Prop := ∀ i, (logs i).Grows (logs' i)

theorem LogsGrow.refl (logs : Logs) : LogsGrow logs logs := fun _ => ByteLog.Grows.refl _

theorem LogsGrow.trans {logs logs' logs'' : Logs} (h : LogsGrow logs logs')
    (h' : LogsGrow logs' logs'') : LogsGrow logs logs'' := fun i => (h i).trans (h' i)

end Group

theorem AppendTask.Ok.grow {logs' : Logs} {t : AppendTask} (h : t.Ok logs)
    (hg : Group.LogsGrow logs logs') : t.Ok logs' :=
  ⟨h.fits, fun hs => (h.run hs).grow (hg _), fun a ha => (h.reports a ha).grow (hg _) (hg _)⟩

theorem ReplicateTask.Ok.grow {logs' : Logs} {r : ReplicateTask} (h : r.Ok logs)
    (hg : Group.LogsGrow logs logs') : r.Ok logs' :=
  ⟨h.fits, h.run.grow (hg _), fun a ha => (h.reports a ha).grow (hg _) (hg _)⟩

/-- A task that has not stored more than before, and has nothing more to report. -/
theorem AppendTask.Ok.passes {t : AppendTask} (h : t.Ok logs) {pc : AppendPc}
    (hpass : t.Passes pc) : AppendTask.Ok logs { t with pc := pc } :=
  ⟨h.fits, fun hs => h.run (hpass.stored hs), fun a ha => h.reports a (hpass.reports a ha)⟩

theorem ReplicateTask.Ok.silent {r : ReplicateTask} (h : r.Ok logs) {pc : ReplicatePc}
    (hr : ReplicateTask.reports { r with pc := pc } = []) :
    ReplicateTask.Ok logs { r with pc := pc } :=
  ⟨h.fits, h.run, fun a ha => absurd ha (by simp [hr])⟩

/-! ## What the consensus calls do to a node -/

section

variable {cfg : GroupConfig} {logs : Logs} {i : NodeId} {n : Node}

theorem Node.Ok.recordFlush {j : NodeId} {lsn : Lsn} (h : n.Ok cfg logs i)
    (hagree : (logs i).Vouches (logs j) lsn.raw.toNat) : (n.recordFlush j lsn).Ok cfg logs i where
  holds := h.holds
  recorded := by
    intro l
    rcases n.consensus.flush_recordFlush j lsn l with hsame | ⟨rfl, hnew⟩
    · show (logs i).Vouches (logs l) ((n.consensus.recordFlush j lsn).flush l).raw.toNat
      rw [hsame]
      exact h.recorded l
    · show (logs i).Vouches (logs l) ((n.consensus.recordFlush l lsn).flush l).raw.toNat
      rw [hnew]
      exact hagree
  members := h.members
  quorum := h.quorum

theorem Node.Ok.recordAcks {acks : List PeerAck} (h : n.Ok cfg logs i)
    (hagree : ∀ a ∈ acks, (logs i).Vouches (logs a.node) a.lsn.raw.toNat) :
    (n.recordAcks acks).Ok cfg logs i :=
  Node.recordAcks_induction h fun _ a ha hm => hm.recordFlush (hagree a ha)

/-- The leadership calls keep a node's flush positions. -/
theorem Node.Ok.sameFlush {c : Consensus} (h : n.Ok cfg logs i) (hc : n.consensus.SameFlush c) :
    Node.Ok cfg logs i { n with consensus := c } where
  holds := h.holds
  recorded := by
    intro j
    show (logs i).Vouches (logs j) (c.flush j).raw.toNat
    rw [hc.flush]
    exact h.recorded j
  members := hc.members.trans h.members
  quorum := hc.quorum.trans h.quorum

theorem Node.Ok.restart (h : n.Ok cfg logs i) : n.restart.Ok cfg logs i where
  holds := h.holds.restart
  recorded := fun _ => ByteLog.vouches_zero _ _
  members := h.members
  quorum := by
    show n.consensus.members.length / 2 + 1 = _
    rw [h.members]

end

namespace Group

variable {cfg : GroupConfig} {logs : Logs} {g : Group}

theorem inv_new (cfg : GroupConfig) : (new cfg).Inv cfg (fun _ => ByteLog.blank) where
  nodes := fun _ => ⟨WalStorage.holds_new _, fun _ => ByteLog.vouches_zero _ _, rfl, rfl⟩
  appends := nofun
  replicates := nofun
  links := nofun

/-- **The invariant gives the property.** -/
theorem Inv.quorumDurable (h : g.Inv cfg logs) : g.QuorumDurable cfg := by
  intro i _ p hlow hhigh
  have hi := h.nodes i
  have hpos : Lsn.INVALID < (g.nodes i).consensus.commitLsn := by
    rw [Lsn.lt_iff_toNat]
    exact lt_of_le_of_lt (Nat.zero_le _) hhigh
  -- a commit position is reached by a quorum of the recorded flush positions
  have hcount := Consensus.quorum_le_countP hpos (by rw [hi.quorum]; omega)
  rw [hi.members] at hcount
  refine hcount.trans (List.countP_mono_left ?_)
  intro j _ hj
  have hle := of_decide_eq_true hj
  rw [Lsn.le_iff_toNat] at hle
  obtain ⟨x, hx, hx'⟩ := (hi.recorded j).agree p (hi.holds.start ▸ hlow) (lt_of_lt_of_le hhigh hle)
  unfold sameByte
  rw [hi.holds.durableByte_eq, hx, (h.nodes j).holds.durableByte_eq, hx']
  exact decide_eq_true rfl

/-! ## How the parts of a step keep it -/

variable {t : AppendTask} {k : Nat}

theorem Inv.linked (h : g.Inv cfg logs) :
    g.Linked fun t p r => r.sender = t.node ∧ r.node = p := h.links

theorem Inv.setNode (h : g.Inv cfg logs) {i : NodeId} {n : Node} (hn : n.Ok cfg logs i) :
    (g.setNode i n).Inv cfg logs where
  nodes := forall_setNode h.nodes hn
  appends := h.appends
  replicates := h.replicates
  links := h.links

theorem Inv.setAppend (h : g.Inv cfg logs) {pc : AppendPc}
    (hok : AppendTask.Ok logs { t with pc := pc })
    (hlink : ∀ p msg rest acks, pc = .waiting p msg rest acks →
      ∃ r, g.replicates[msg]? = some r ∧ r.sender = t.node ∧ r.node = p) :
    (g.setAppend k t pc).Inv cfg logs where
  nodes := h.nodes
  appends := forall_setAppend h.appends hok
  replicates := h.replicates
  links := h.linked.setAppend hlink

theorem Inv.setReplicate (h : g.Inv cfg logs) {r : ReplicateTask} {pc : ReplicatePc}
    (hk : g.replicates[k]? = some r) (hok : ReplicateTask.Ok logs { r with pc := pc }) :
    (g.setReplicate k r pc).Inv cfg logs where
  nodes := h.nodes
  appends := h.appends
  replicates := forall_setReplicate h.replicates hok
  links := h.linked.setReplicate hk fun _ _ hrel => hrel

/-- Storing a run appends it to the node's log, and everything said about the
logs so far stays true. -/
theorem Inv.store (h : g.Inv cfg logs) {i : NodeId} {req : AppendRequest} {n' : Node}
    (hfit : req.startLsn.raw.toNat + req.payload.length < 2 ^ 64)
    (hst : (g.nodes i).store req = .ok n') :
    ∃ log', (logs i).append req.startLsn.raw.toNat req.payload = some log' ∧
      LogsGrow logs (Function.update logs i log') ∧
      (g.setNode i n').Inv cfg (Function.update logs i log') ∧
      n'.storage.flushLsn.raw.toNat = req.startLsn.raw.toNat + req.payload.length := by
  have hi := h.nodes i
  have href := hi.holds.store hfit
  obtain ⟨s, hs, rfl⟩ := Node.store_ok hst
  cases happ : (logs i).append req.startLsn.raw.toNat req.payload with
  | none =>
    rw [happ] at href
    have href : _ = _ := href
    rw [href] at hs
    simp at hs
  | some log' =>
    rw [happ] at href
    obtain ⟨s', hs', hholds⟩ := href
    rw [hs] at hs'
    obtain rfl := Except.ok.inj hs'
    have hgrow : LogsGrow logs (Function.update logs i log') := by
      intro j
      by_cases hj : j = i
      · subst hj
        rw [Function.update_self]
        exact ByteLog.grows_append happ
      · rw [Function.update_of_ne hj]
        exact ByteLog.Grows.refl _
    -- what other nodes recorded about `i` is about a part of the log that stays
    have hother : ∀ j, j ≠ i → (g.nodes j).Ok cfg (Function.update logs i log') j := by
      intro j hj
      have hjok := h.nodes j
      refine ⟨?_, fun l => (hjok.recorded l).grow (hgrow j) (hgrow l), hjok.members, hjok.quorum⟩
      rw [Function.update_of_ne hj]
      exact hjok.holds
    refine ⟨log', rfl, hgrow, ⟨?_, ?_, ?_, h.links⟩, ?_⟩
    · intro j
      show (Function.update g.nodes i _ j).Ok cfg _ j
      by_cases hj : j = i
      · subst hj
        rw [Function.update_self]
        refine ⟨?_, fun l => (hi.recorded l).grow (hgrow j) (hgrow l), hi.members, hi.quorum⟩
        rw [Function.update_self]
        exact hholds
      · rw [Function.update_of_ne hj]
        exact hother j hj
    · exact fun t ht => (h.appends t ht).grow hgrow
    · exact fun r hr => (h.replicates r hr).grow hgrow
    · show s.flushLsn.raw.toNat = _
      rw [hholds.flush, hholds.write, ByteLog.fin_append happ]

/-! ## The steps -/

/-- Without overflow a forwarded run starts where the original did. -/
theorem startLsn_replicateRequest {req : AppendRequest}
    (hfit : req.startLsn.raw.toNat + req.payload.length < 2 ^ 64) :
    (replicateRequest req.term req.endLsn req.payload).startLsn = req.startLsn := by
  have hend : req.endLsn.raw.toNat = req.startLsn.raw.toNat + req.payload.length :=
    WalStorage.toNat_add_ofNat hfit
  show Lsn.mk (UInt64.ofNat (req.endLsn.raw.toNat - req.payload.length)) = req.startLsn
  rw [hend, Nat.add_sub_cancel, UInt64.ofNat_toNat]

theorem Inv.send (h : g.Inv cfg logs) (hk : g.appends[k]? = some t) {p : NodeId}
    {rest : List NodeId} {acks : List PeerAck} (hpc : t.pc = .sending (p :: rest) acks) :
    Inv cfg logs { g.setAppend k t (.waiting p g.replicates.length rest acks) with
      replicates := g.replicates ++
        [⟨t.node, p, replicateRequest t.req.term t.req.endLsn t.req.payload, .received⟩] } := by
  have ht := h.appends t (List.mem_of_getElem? hk)
  have hs : t.hasStored = true := by rw [AppendTask.hasStored, hpc]
  have hacks : t.reports = acks := by rw [AppendTask.reports, hpc]
  have hstart := startLsn_replicateRequest ht.fits
  refine ⟨h.nodes, forall_setAppend h.appends ⟨ht.fits, fun _ => ht.run hs, fun a ha => ht.reports a (hacks ▸ ha)⟩,
    forall_concat h.replicates ⟨?_, ?_, fun a ha => absurd ha (by simp [ReplicateTask.reports])⟩,
    h.linked.send ⟨rfl, rfl⟩⟩
  · rw [hstart]
    exact ht.fits
  · rw [hstart]
    exact ht.run hs

/-- What a waiting task takes from the answer is what the peer reported to it. -/
theorem Inv.answer (h : g.Inv cfg logs) (ht : t ∈ g.appends) {p : NodeId} {msg : Nat}
    {rest : List NodeId} {acks acks' : List PeerAck} (hpc : t.pc = .waiting p msg rest acks)
    (hans : ((g.replicates[msg]?).bind fun r => answerOf p acks r.pc) = some acks') :
    ∀ a ∈ acks', (logs t.node).Vouches (logs a.node) a.lsn.raw.toNat := by
  have hold : t.reports = acks := by rw [AppendTask.reports, hpc]
  obtain ⟨r, hr, hs, hn⟩ := h.links t ht p msg rest acks hpc
  rw [hr, Option.bind_some] at hans
  have hok := h.replicates r (List.mem_of_getElem? hr)
  intro a ha
  rcases mem_of_answerOf hans ha with ha | ⟨resp, hrpc, hstatus, rfl⟩
  · exact (h.appends t ht).reports a (hold ▸ ha)
  · have hrep := hok.reports (r.sender, resp.flushLsn)
      (by simp [ReplicateTask.reports, hrpc, hstatus])
    rw [hs, hn] at hrep
    exact hrep

/-- A store takes a run only at a position it accepts. -/
theorem accepts_of_append {s : WalStorage} {log log' : ByteLog UInt8} (h : s.Holds log)
    {lsn : Lsn} {data : List UInt8} (happ : log.append lsn.raw.toNat data = some log') :
    Accepts s lsn := by
  unfold ByteLog.append at happ
  split at happ
  · next hb =>
    refine Or.inl ⟨?_, ?_⟩
    · rw [WalStorage.isValid_eq_false_iff, h.write, ByteLog.fin, hb.1, hb.2]
      rfl
    · rw [WalStorage.isValid_eq_false_iff, h.start, hb.1]
  · split at happ
    · next hs =>
      refine Or.inr (Lsn.toNat_injective ?_)
      show s.writeLsn.raw.toNat = lsn.raw.toNat
      rw [h.write, hs]
    · simp at happ

theorem Inv.agree_of_sameByte (h : g.Inv cfg logs) {i j : NodeId} {f : Nat}
    (hsame : ∀ p, (g.nodes i).storage.startLsn.raw.toNat ≤ p → p < f → g.sameByte i p j = true) :
    (logs i).Agree (logs j) f := by
  intro p hlow hhigh
  have hp := hsame p ((h.nodes i).holds.start ▸ hlow) hhigh
  unfold sameByte at hp
  rw [(h.nodes i).holds.durableByte_eq, (h.nodes j).holds.durableByte_eq] at hp
  cases hx : (logs i).byteAt p with
  | none => simp [hx] at hp
  | some x => exact ⟨x, rfl, by simpa [hx] using hp⟩

/-- A task stores its run: its own log has it, and ends with it. -/
theorem Inv.storeOwn (h : g.Inv cfg logs) {n' : Node} (hk : g.appends[k]? = some t)
    (hst : (g.nodes t.node).store t.req = .ok n') :
    ∃ logs', LogsGrow logs logs' ∧ ((g.setNode t.node n').setAppend k
      { t with flushLsn := n'.storage.flushLsn } .stored).Inv cfg logs' := by
  have ht := h.appends t (List.mem_of_getElem? hk)
  obtain ⟨log', happ, hgrow, hinv, hflush⟩ := h.store ht.fits hst
  have hnode : Function.update logs t.node log' t.node = log' := Function.update_self ..
  refine ⟨_, hgrow, hinv.setAppend ⟨ht.fits, ?_, ?_⟩ (by simp)⟩
  · intro _
    show (Function.update logs t.node log' t.node).HasRun _ _
    rw [hnode]
    exact ByteLog.hasRun_append happ
  · intro a ha
    rw [List.mem_singleton.mp ha]
    show (Function.update logs t.node log' t.node).Vouches
      (Function.update logs t.node log' t.node) n'.storage.flushLsn.raw.toNat
    rw [hnode, hflush, ← ByteLog.fin_append happ]
    exact ByteLog.vouches_self log'

/-- A peer stores a forwarded run. It only checks where its log ends; that it has the
sender's bytes below the run is what the hypothesis supplies. -/
theorem Inv.storeForwarded (h : g.Inv cfg logs) {r : ReplicateTask} {term : Term} {n' : Node}
    (hk : g.replicates[k]? = some r) (hpc : r.pc = .checked term)
    (hst : (g.nodes r.node).store r.req = .ok n') (hm : g.MatchedRun r) :
    ∃ logs', LogsGrow logs logs' ∧ ((g.setNode r.node n').setReplicate k r
      (.stored term n'.storage.flushLsn)).Inv cfg logs' := by
  have hr := h.replicates r (List.mem_of_getElem? hk)
  obtain ⟨log', happ, hgrow, hinv, hflush⟩ := h.store hr.fits hst
  have hmatch : (logs r.sender).Agree (logs r.node) r.req.startLsn.raw.toNat := by
    simp only [MatchedRun, hpc] at hm
    have hacc := accepts_of_append (h.nodes r.node).holds happ
    exact h.agree_of_sameByte (fun p hlow hhigh => hm hacc p hhigh hlow)
  have hnode : Function.update logs r.node log' r.node = log' := Function.update_self ..
  have hsender : (Function.update logs r.node log' r.sender).Vouches log'
      n'.storage.flushLsn.raw.toNat := by
    rw [hflush]
    exact (hmatch.vouches_append hr.run happ).grow (hgrow r.sender) (ByteLog.Grows.refl log')
  have hself : log'.Vouches log' n'.storage.flushLsn.raw.toNat := by
    rw [hflush, ← ByteLog.fin_append happ]
    exact ByteLog.vouches_self log'
  refine ⟨_, hgrow, hinv.setReplicate hk ⟨hr.fits, hr.run.grow (hgrow r.sender), ?_⟩⟩
  intro a ha
  show (Function.update logs r.node log' a.1).Vouches (Function.update logs r.node log' r.node) _
  rw [hnode]
  rcases List.mem_cons.mp ha with rfl | ha
  · exact hsender
  · rw [List.mem_singleton.mp ha]
    show (Function.update logs r.node log' r.node).Vouches log' _
    rw [hnode]
    exact hself

/-- A restart forgets what was recorded and who was waiting, not what was stored. -/
theorem Inv.restart (h : g.Inv cfg logs) (i : NodeId) : (g.step cfg (.restart i)).Inv cfg logs where
  nodes := (h.setNode (h.nodes i).restart).nodes
  appends := forall_killAppend h.appends (fun _ ht => ht.passes (.of_silent rfl rfl)) i
  replicates := forall_killReplicate h.replicates (fun _ hr => hr.silent rfl) i
  links := h.linked.restart cfg i fun _ _ _ hrel => hrel

theorem Inv.withElections (h : g.Inv cfg logs) (es : List ElectionTask) :
    Inv cfg logs { g with elections := es } := ⟨h.nodes, h.appends, h.replicates, h.links⟩

theorem Inv.sameFlush (h : g.Inv cfg logs) (i : NodeId) {c : Consensus}
    (hc : (g.nodes i).consensus.SameFlush c) :
    (g.setNode i { g.nodes i with consensus := c }).Inv cfg logs :=
  h.setNode ((h.nodes i).sameFlush hc)

/-- **One step.** Only storing a run changes a log; the calls of an election change the term,
the vote and the role, none of which is recorded. -/
theorem Inv.step (h : g.Inv cfg logs) {a : GroupAction} (hm : g.Matched a) :
    ∃ logs', LogsGrow logs logs' ∧ (g.step cfg a).Inv cfg logs' := by
  obtain ⟨g', hg', hmoves⟩ : ∃ g', g.step cfg a = g' ∧ g.Moves cfg a g' := ⟨_, rfl, moves_step a⟩
  rw [hg']
  cases hmoves with
  | stay => exact ⟨logs, .refl _, h⟩
  | arrive =>
    exact ⟨logs, .refl _, h.nodes, forall_concat h.appends ⟨hm, fun hs => (nomatch hs),
      fun a ha => absurd ha List.not_mem_nil⟩, h.replicates, h.linked.arrive (by simp)⟩
  | pass hk hpass =>
    exact ⟨logs, .refl _, h.setAppend ((h.appends _ (List.mem_of_getElem? hk)).passes hpass)
      fun p msg rest acks hpc => absurd hpc (hpass.waiting p msg rest acks)⟩
  | store hk hst => exact h.storeOwn hk hst
  | record hk hacks hpass =>
    have ht := h.appends _ (List.mem_of_getElem? hk)
    exact ⟨logs, .refl _, (h.setNode ((h.nodes _).recordAcks fun a ha =>
      ht.reports a (hacks a ha))).setAppend (ht.passes hpass)
        fun p msg rest acks hpc => absurd hpc (hpass.waiting p msg rest acks)⟩
  | send hk hpc => exact ⟨logs, .refl _, h.send hk hpc⟩
  | answer hk hpc hans =>
    have ht := h.appends _ (List.mem_of_getElem? hk)
    exact ⟨logs, .refl _, h.setAppend ⟨ht.fits,
      fun _ => ht.run (by rw [AppendTask.hasStored, hpc]),
      h.answer (List.mem_of_getElem? hk) hpc hans⟩ (by simp)⟩
  | silent hk hr =>
    exact ⟨logs, .refl _, h.setReplicate hk ((h.replicates _ (List.mem_of_getElem? hk)).silent hr)⟩
  | storeForwarded hk hpc hst => exact h.storeForwarded hk hpc hst (hm _ hk)
  | @recordForwarded _ r term flushLsn commitLsn _ hk hpc =>
    have hr := h.replicates r (List.mem_of_getElem? hk)
    have hown := hr.reports (r.node, flushLsn) (by simp [ReplicateTask.reports, hpc])
    have hsender := hr.reports (r.sender, flushLsn) (by simp [ReplicateTask.reports, hpc])
    refine ⟨logs, .refl _,
      (h.setNode ((h.nodes r.node).recordFlush hown)).setReplicate hk ⟨hr.fits, hr.run, ?_⟩⟩
    intro a ha
    obtain rfl : a = (r.sender, flushLsn) := by simpa [ReplicateTask.reports] using ha
    exact hsender
  | vote => exact ⟨logs, .refl _, h.sameFlush _ (Consensus.sameFlush_handleVoteRequest ..)⟩
  | stand =>
    exact ⟨logs, .refl _, (h.sameFlush _ (Consensus.sameFlush_startElection _)).withElections _⟩
  | ask =>
    exact ⟨logs, .refl _, (h.sameFlush _ (Consensus.sameFlush_handleVoteRequest ..)).withElections _⟩
  | skip => exact ⟨logs, .refl _, h.withElections _⟩
  | count _ hc =>
    refine ⟨logs, .refl _, (h.sameFlush _ ?_).withElections _⟩
    obtain rfl | rfl := hc
    · exact Consensus.sameFlush_handleVoteGranted ..
    · exact ⟨rfl, rfl, rfl⟩
  | restart => exact ⟨logs, .refl _, h.restart _⟩

/-- **A whole run.** -/
theorem inv_after {acts : List GroupAction}
    (hm : Along (fun pre a => (after cfg pre).Matched a) acts) :
    ∃ logs, (after cfg acts).Inv cfg logs := by
  refine run_invariant (I := fun _ g => ∃ logs, Group.Inv cfg logs g) ?_ ?_ acts hm
  · exact ⟨_, inv_new cfg⟩
  · intro pre a _ hmatch h
    obtain ⟨logs, h⟩ := h
    obtain ⟨logs', _, h'⟩ := h.step hmatch
    exact ⟨logs', h'⟩

theorem Inv.later {pre post : List GroupAction} (h : (after cfg pre).Inv cfg logs)
    (hm : Along (fun pre a => (after cfg pre).Matched a) (pre ++ post)) :
    ∃ logs', LogsGrow logs logs' ∧ (after cfg (pre ++ post)).Inv cfg logs' := by
  induction post using List.reverseRecOn with
  | nil =>
    rw [List.append_nil]
    exact ⟨logs, .refl _, h⟩
  | append_singleton post a ih =>
    rw [← List.append_assoc] at hm ⊢
    obtain ⟨hpost, ha⟩ := along_concat.mp hm
    obtain ⟨logs', hgrow, hlater⟩ := ih hpost
    obtain ⟨logs'', hgrow', hstep⟩ := hlater.step ha
    rw [after, run_concat]
    exact ⟨logs'', hgrow.trans hgrow', hstep⟩

end Group

/-- **Quorum durability.** In every run of the group whose steps are all matched,
in every state on the way, every byte from where a node's log was seeded up to
its commit position is durably stored by a quorum of members, with the value it
has on that node. -/
theorem quorum_durable (cfg : GroupConfig) (acts : List GroupAction)
    (hm : Along (fun pre a => (Group.after cfg pre).Matched a) acts) :
    ∀ pre, pre <+: acts → (Group.after cfg pre).QuorumDurable cfg := by
  intro pre hpre
  obtain ⟨post, rfl⟩ := hpre
  obtain ⟨logs, hinv⟩ := Group.inv_after hm.of_append
  exact hinv.quorumDurable

/-! ## Concrete runs -/

/-- Three nodes that forward to each other. -/
def threeNodes : GroupConfig where
  members := [1, 2, 3]
  peers := fun i => [1, 2, 3].filter fun j => !decide (j = i)
  wal := fun _ => ⟨8, 4, by decide⟩
  nodup := by decide

def oneByte (lsn : Lsn) (b : UInt8) : AppendRequest := ⟨TenantId.ZERO, TimelineId.ZERO, 0, lsn, [b]⟩

/-- An append at node `1`, from its arrival until it holds the connection lock. -/
def arrive (k : Nat) (req : AppendRequest) : List GroupAction :=
  [.append 1 req, .appendStep k, .appendStep k, .appendStep k, .appendStep k]

/-- Append task `k` reaches node `2`, which stores the run as replicate task `m`
and answers; node `3` is unreachable. -/
def reachSecond (k m : Nat) : List GroupAction :=
  [.send k true, .replicateStep m, .replicateStep m, .replicateStep m, .response k false,
    .send k false, .appendStep k, .appendStep k]

/-- Append task `k` reaches nobody. -/
def reachNobody (k : Nat) : List GroupAction :=
  [.send k false, .send k false, .appendStep k, .appendStep k]

/-- Both runs reach the second node, and both bytes are committed. -/
theorem quorum_durable_sample :
    ((Group.after threeNodes (arrive 0 (oneByte 8 1) ++ reachSecond 0 0
        ++ arrive 1 (oneByte 9 2) ++ reachSecond 1 1)).nodes 1).commitLsn = 10 ∧
      Group.QuorumDurable threeNodes (Group.after threeNodes (arrive 0 (oneByte 8 1)
        ++ reachSecond 0 0 ++ arrive 1 (oneByte 9 2) ++ reachSecond 1 1)) :=
  ⟨by decide, quorum_durable threeNodes
    (arrive 0 (oneByte 8 1) ++ reachSecond 0 0 ++ arrive 1 (oneByte 9 2) ++ reachSecond 1 1)
    (by decide) _ (List.prefix_refl _)⟩

/-- The first run reaches nobody; the second is the first the second node sees,
and commits both. -/
theorem commit_without_quorum :
    ¬ Group.QuorumDurable threeNodes (Group.after threeNodes
      (arrive 0 (oneByte 8 1) ++ reachNobody 0 ++ arrive 1 (oneByte 9 2) ++ reachSecond 1 0)) := by
  intro h
  have hcount := h 1 (by decide) 8 (by decide) (by decide)
  exact absurd hcount (by decide)

end AethelDB.Safekeeper
