import AethelDB.Lib.Ballot
import AethelDB.Safekeeper.QuorumDurability

/-!
# What a new leader has of the committed log

In Raft a voter compares logs before it grants its vote, so that a leader starts
with everything that was ever committed. Here a vote request carries a term and a
candidate only; the voter's flush position travels back in the reply, "so a new
leader knows where to resume", and `run_election` looks at the grant alone. A
candidate with an empty store wins against members that hold committed WAL
(`leader_without_committed_wal`).

`leader_complete` says what is missing, and that nothing else is: a winner whose
store covers, at that moment, the stores of the members that voted for it has
every byte that any node committed before. Commits and elections are both decided
by a majority, so some voter reported the committed position; its log has grown
since.
-/

namespace AethelDB.Safekeeper

open AethelDB.Lib

namespace Group

/-! ## The property and the condition -/

/-- A call of `run_election` on node `w` is through and finds it leader. -/
def Elected (g : Group) (w : NodeId) : Prop :=
  (∃ e ∈ g.elections, e.node = w ∧ e.rest = [] ∧ e.reply = none) ∧
    (g.nodes w).consensus.role = .leader

/-- Node `w` has everything that the members that voted for it have. -/
def CoversVoters (g : Group) (w : NodeId) : Prop :=
  ∀ v ∈ (g.nodes w).consensus.votes,
    (g.nodes v).storage.flushLsn ≤ (g.nodes w).storage.flushLsn ∧
      ∀ p < (g.nodes v).storage.flushLsn.raw.toNat, (g.nodes v).storage.startLsn.raw.toNat ≤ p →
        g.sameByte v p w = true

/-- Node `w` of `g'` has flushed as far as node `i` of `g` had committed, and stores
the bytes that were committed there. -/
def HasCommitted (g : Group) (i : NodeId) (g' : Group) (w : NodeId) : Prop :=
  (g.nodes i).commitLsn ≤ (g'.nodes w).storage.flushLsn ∧
    ∀ p, (g.nodes i).storage.startLsn.raw.toNat ≤ p → p < (g.nodes i).commitLsn.raw.toNat →
      ∃ b, (g.nodes i).storage.durableByte p = some b ∧ (g'.nodes w).storage.durableByte p = some b

/-- Whoever is elected by the end of the run has what any node had committed at any
moment of it. -/
def LeaderComplete (cfg : GroupConfig) (acts : List GroupAction) : Prop :=
  ∀ pre, pre <+: acts → ∀ i w, (after cfg acts).Elected w →
    (after cfg pre).HasCommitted i (after cfg acts) w

end Group

/-! ## Votes come from members -/

/-- A node that has counted votes of members only, and a majority of them if it
leads. -/
structure Node.Counted (cfg : GroupConfig) (i : NodeId) (n : Node) : Prop where
  identity : n.consensus.nodeId = i
  members : n.consensus.members = cfg.members
  quorum : n.consensus.quorum = cfg.members.length / 2 + 1
  voters : ∀ v ∈ n.consensus.votes, v ∈ cfg.members
  majority : n.consensus.role = .leader → n.consensus.quorum ≤ n.consensus.votes.card

section

variable {cfg : GroupConfig} {i : NodeId} {n : Node}

theorem Node.Counted.recordFlush (h : n.Counted cfg i) (j : NodeId) (lsn : Lsn) :
    (n.recordFlush j lsn).Counted cfg i := ⟨h.identity, h.members, h.quorum, h.voters, h.majority⟩

theorem Node.Counted.recordAcks (h : n.Counted cfg i) (acks : List PeerAck) :
    (n.recordAcks acks).Counted cfg i :=
  Node.recordAcks_induction h fun _ a _ hm => hm.recordFlush a.node a.lsn

theorem Node.Counted.store (h : n.Counted cfg i) {req : AppendRequest} {n' : Node}
    (hst : n.store req = .ok n') : n'.Counted cfg i := by
  obtain ⟨s, _, rfl⟩ := Node.store_ok hst
  exact ⟨h.identity, h.members, h.quorum, h.voters, h.majority⟩

theorem Node.Counted.handleVote (h : n.Counted cfg i) (term : Term) (candidate : NodeId) :
    (n.handleVote term candidate).1.Counted cfg i := by
  unfold Node.handleVote
  rcases n.consensus.handleVoteRequest_cases term candidate with ⟨_, heq⟩ | ⟨_, _, heq⟩ | heq
  · rw [heq]
    exact ⟨h.identity, h.members, h.quorum, fun v hv => absurd hv (Finset.notMem_empty v),
      fun hr => absurd hr (by simp)⟩
  · rw [heq]
    exact ⟨h.identity, h.members, h.quorum, h.voters, h.majority⟩
  · rw [heq]
    exact h

theorem Node.Counted.startElection (h : n.Counted cfg i) (hi : i ∈ cfg.members) :
    Node.Counted cfg i { n with consensus := n.consensus.startElection } := by
  rw [Consensus.startElection_eq, h.identity]
  refine ⟨rfl, h.members, h.quorum, ?_, ?_⟩
  · intro v hv
    rw [Finset.mem_singleton.mp hv]
    exact hi
  · intro hlead
    dsimp only at hlead ⊢
    rw [Finset.card_singleton]
    by_contra hq
    rw [if_neg hq] at hlead
    simp at hlead

theorem Node.Counted.handleVoteGranted (h : n.Counted cfg i) {p : NodeId} (hp : p ∈ cfg.members)
    (term : Term) :
    Node.Counted cfg i { n with consensus := n.consensus.handleVoteGranted p term } := by
  rcases n.consensus.handleVoteGranted_cases p term with heq | ⟨_, _, heq⟩
  · rw [heq]
    exact h
  · rw [heq]
    refine ⟨h.identity, h.members, h.quorum, ?_, ?_⟩
    · intro v hv
      rcases Finset.mem_insert.mp hv with rfl | hv
      · exact hp
      · exact h.voters v hv
    · intro hlead
      dsimp only at hlead ⊢
      by_contra hq
      rw [if_neg hq] at hlead
      simp at hlead

theorem Node.Counted.restart (h : n.Counted cfg i) : n.restart.Counted cfg i where
  identity := h.identity
  members := h.members
  quorum := by
    show n.consensus.members.length / 2 + 1 = _
    rw [h.members]
  voters := fun v hv => absurd hv (Finset.notMem_empty v)
  majority := fun hr => absurd hr (by simp [Node.restart, Consensus.new])

end

namespace Group

variable {cfg : GroupConfig} {g : Group}

/-- Every node has counted members only, and asks no one else. -/
structure Counted (cfg : GroupConfig) (g : Group) : Prop where
  nodes : ∀ i, (g.nodes i).Counted cfg i
  asked : ∀ e ∈ g.elections, (∀ p ∈ e.rest, p ∈ cfg.members) ∧
    ∀ p granted, e.reply = some (p, granted) → p ∈ cfg.members

theorem counted_new (cfg : GroupConfig) : (new cfg).Counted cfg where
  nodes := fun _ => ⟨rfl, rfl, rfl, fun v hv => absurd hv (Finset.notMem_empty v),
    fun hr => absurd hr (by simp [new, Node.new, Consensus.new])⟩
  asked := nofun

theorem Counted.setNode (h : g.Counted cfg) {i : NodeId} {n : Node} (hn : n.Counted cfg i) :
    (g.setNode i n).Counted cfg where
  nodes := forall_setNode h.nodes hn
  asked := h.asked

theorem Counted.setElection (h : g.Counted cfg) {k : Nat} {e : ElectionTask}
    (he : (∀ p ∈ e.rest, p ∈ cfg.members) ∧
      ∀ p granted, e.reply = some (p, granted) → p ∈ cfg.members) :
    Counted cfg { g with elections := g.elections.set k e } where
  nodes := h.nodes
  asked := by
    intro e' he'
    rcases List.mem_or_eq_of_mem_set he' with he' | rfl
    · exact h.asked e' he'
    · exact he

theorem Counted.step (h : g.Counted cfg) (hpeers : ∀ i, ∀ p ∈ cfg.peers i, p ∈ cfg.members)
    (a : GroupAction) : (g.step cfg a).Counted cfg := by
  obtain ⟨g', hg', hmoves⟩ : ∃ g', g.step cfg a = g' ∧ g.Moves cfg a g' := ⟨_, rfl, moves_step a⟩
  rw [hg']
  cases hmoves with
  | stay => exact h
  | arrive => exact ⟨h.nodes, h.asked⟩
  | pass => exact ⟨h.nodes, h.asked⟩
  | store _ hst => exact ⟨(h.setNode ((h.nodes _).store hst)).nodes, h.asked⟩
  | record => exact ⟨(h.setNode ((h.nodes _).recordAcks _)).nodes, h.asked⟩
  | send => exact ⟨h.nodes, h.asked⟩
  | answer => exact ⟨h.nodes, h.asked⟩
  | silent => exact ⟨h.nodes, h.asked⟩
  | storeForwarded _ _ hst => exact ⟨(h.setNode ((h.nodes _).store hst)).nodes, h.asked⟩
  | recordForwarded => exact ⟨(h.setNode ((h.nodes _).recordAcks _)).nodes, h.asked⟩
  | vote => exact h.setNode ((h.nodes _).handleVote ..)
  | stand hi =>
    refine ⟨(h.setNode ((h.nodes _).startElection hi)).nodes, ?_⟩
    exact forall_concat h.asked ⟨hpeers _, fun p granted hr => absurd hr (by simp)⟩
  | ask hk =>
    obtain ⟨hrest, _⟩ := h.asked _ (List.mem_of_getElem? hk)
    refine (h.setNode ((h.nodes _).handleVote ..)).setElection
      ⟨fun q hq => hrest q (List.mem_cons_of_mem _ hq), ?_⟩
    intro q granted hq
    rw [← (Prod.mk.inj (Option.some.inj hq)).1]
    exact hrest _ List.mem_cons_self
  | skip hk =>
    obtain ⟨hrest, _⟩ := h.asked _ (List.mem_of_getElem? hk)
    exact h.setElection ⟨fun q hq => hrest q (List.mem_cons_of_mem _ hq),
      fun q granted hq => absurd hq (by simp)⟩
  | count hk hc =>
    obtain ⟨hrest, hreply⟩ := h.asked _ (List.mem_of_getElem? hk)
    refine (h.setNode ?_).setElection ⟨hrest, fun q b hq => absurd hq (by simp)⟩
    obtain rfl | rfl := hc
    · exact (h.nodes _).handleVoteGranted (hreply _ _ rfl) _
    · exact h.nodes _
  | restart =>
    refine ⟨(h.setNode (h.nodes _).restart).nodes, ?_⟩
    exact fun e he => h.asked e (List.mem_of_mem_filter he)

theorem counted_after (hpeers : ∀ i, ∀ p ∈ cfg.peers i, p ∈ cfg.members) (acts : List GroupAction) :
    (after cfg acts).Counted cfg := by
  induction acts using List.reverseRecOn with
  | nil => exact counted_new cfg
  | append_singleton acts a ih =>
    rw [after, run_concat]
    exact ih.step hpeers a

/-! ## The voter that reported the commit -/

/-- Among the voters of a leader is one that reported what a node has committed. -/
theorem exists_voter_of_commit {g' : Group} {logs : Logs} {i w : NodeId} (h : g.Inv cfg logs)
    (h' : g'.Counted cfg) (hlead : (g'.nodes w).consensus.role = .leader)
    (hpos : Lsn.INVALID < (g.nodes i).commitLsn) :
    ∃ v ∈ (g'.nodes w).consensus.votes,
      (g.nodes i).commitLsn ≤ (g.nodes i).consensus.flush v := by
  have hi := h.nodes i
  have hw := h'.nodes w
  have hcount := Consensus.quorum_le_countP hpos (by rw [hi.quorum]; omega)
  rw [hi.members, hi.quorum, List.countP_eq_length_filter] at hcount
  -- members are listed once, so counting them is counting a set
  rw [← List.toFinset_card_of_nodup (cfg.nodup.filter _)] at hcount
  have hmajority := hw.majority hlead
  rw [hw.quorum] at hmajority
  obtain ⟨v, hv, hvotes⟩ := exists_mem_of_majorities
    (fun v hv => List.mem_toFinset.mpr (List.mem_of_mem_filter (List.mem_toFinset.mp hv)))
    (fun v hv => List.mem_toFinset.mpr (hw.voters v hv)) hcount hmajority
  have hreached := (List.mem_filter.mp (List.mem_toFinset.mp hv)).2
  exact ⟨v, hvotes, of_decide_eq_true hreached⟩

theorem Inv.flushLsn_eq {logs : Logs} (h : g.Inv cfg logs) (i : NodeId) :
    (g.nodes i).storage.flushLsn.raw.toNat = (logs i).fin := by
  rw [(h.nodes i).holds.flush, (h.nodes i).holds.write]

/-- A node that covers one which reported the commit has what was committed. -/
theorem hasCommitted_of_covers {g' : Group} {logs logs' : Logs} {i v w : NodeId}
    (h : g.Inv cfg logs) (h' : g'.Inv cfg logs') (hgrow : LogsGrow logs logs')
    (hreport : (g.nodes i).commitLsn ≤ (g.nodes i).consensus.flush v)
    (hflush : (g'.nodes v).storage.flushLsn ≤ (g'.nodes w).storage.flushLsn)
    (hbytes : ∀ p < (g'.nodes v).storage.flushLsn.raw.toNat,
      (g'.nodes v).storage.startLsn.raw.toNat ≤ p → g'.sameByte v p w = true) :
    g.HasCommitted i g' w := by
  have hvouch := (h.nodes i).recorded v
  rw [Lsn.le_iff_toNat] at hreport hflush
  have hreached : (g.nodes i).commitLsn.raw.toNat ≤ (g'.nodes v).storage.flushLsn.raw.toNat := by
    rw [h'.flushLsn_eq]
    exact hreport.trans (hvouch.reached.trans (hgrow v).fin_le)
  refine ⟨Lsn.le_iff_toNat.mpr (hreached.trans hflush), ?_⟩
  intro p hlow hhigh
  rw [(h.nodes i).holds.start] at hlow
  obtain ⟨b, hb, hbv⟩ := hvouch.agree p hlow (lt_of_lt_of_le hhigh hreport)
  -- the voter still has the byte, and the winner has what the voter has
  have hagree : (logs' v).Agree (logs' w) (g'.nodes v).storage.flushLsn.raw.toNat :=
    h'.agree_of_sameByte fun q hq hq' => hbytes q hq' hq
  have hkept := (hgrow v).keeps hbv
  have hseed := (ByteLog.byteAt_isSome_iff.mp (Option.isSome_iff_exists.mpr ⟨b, hkept⟩)).1
  obtain ⟨c, hc, hcw⟩ := hagree p hseed (lt_of_lt_of_le hhigh hreached)
  obtain rfl : b = c := Option.some.inj (hkept.symm.trans hc)
  refine ⟨b, ?_, ?_⟩
  · rw [(h.nodes i).holds.durableByte_eq, hb]
  · rw [(h'.nodes w).holds.durableByte_eq, hcw]

end Group

/-- **Leader completeness.** In every run whose steps are all matched, among members
that forward to members, a winner that covers its voters has every byte that any
node had committed at any moment of the run. -/
theorem leader_complete (cfg : GroupConfig) (acts : List GroupAction)
    (hpeers : ∀ i, ∀ p ∈ cfg.peers i, p ∈ cfg.members)
    (hm : Along (fun pre a => (Group.after cfg pre).Matched a) acts)
    (hcover : ∀ w, (Group.after cfg acts).Elected w → (Group.after cfg acts).CoversVoters w) :
    Group.LeaderComplete cfg acts := by
  intro pre hpre i w hw
  obtain ⟨post, rfl⟩ := hpre
  obtain ⟨logs, hinv⟩ := Group.inv_after hm.of_append
  obtain ⟨logs', hgrow, hinv'⟩ := hinv.later hm
  by_cases hpos : Lsn.INVALID < ((Group.after cfg pre).nodes i).commitLsn
  · obtain ⟨v, hv, hreport⟩ := Group.exists_voter_of_commit hinv
      (Group.counted_after hpeers (pre ++ post)) hw.2 hpos
    obtain ⟨hflush, hbytes⟩ := hcover w hw v hv
    exact Group.hasCommitted_of_covers hinv hinv' hgrow hreport hflush hbytes
  · -- nothing is committed yet
    have hzero := le_of_not_gt hpos
    refine ⟨hzero.trans (Lsn.INVALID_le _), ?_⟩
    intro p _ hp
    rw [Lsn.le_iff_toNat] at hzero
    exact absurd (lt_of_lt_of_le hp hzero) (Nat.not_lt_zero p)

/-- Node `i` stands for election as election `0`: the first peer answers, the second
is unreachable. -/
def stand (i : NodeId) : List GroupAction :=
  [.startElection i, .requestVote 0 true, .voteReply 0 false, .requestVote 0 false]

/-- A byte is committed by nodes `1` and `2`, and node `1` is elected by both. -/
theorem leader_complete_sample :
    ((Group.after threeNodes (arrive 0 (oneByte 8 1) ++ reachSecond 0 0)).nodes 1).commitLsn = 9 ∧
      Group.LeaderComplete threeNodes (arrive 0 (oneByte 8 1) ++ reachSecond 0 0 ++ stand 1) := by
  refine ⟨by decide, leader_complete threeNodes _ ?_ (by decide) ?_⟩
  · intro i p hp
    simp only [threeNodes] at hp ⊢
    exact List.mem_of_mem_filter hp
  · obtain ⟨g, hg⟩ : ∃ g, Group.after threeNodes
      (arrive 0 (oneByte 8 1) ++ reachSecond 0 0 ++ stand 1) = g := ⟨_, rfl⟩
    have hfirst : ∀ e ∈ g.elections, e.node = 1 := by
      have hall : g.elections.all (fun e => decide (e.node = 1)) = true := by
        rw [← hg]
        decide
      exact fun e he => of_decide_eq_true (List.all_eq_true.mp hall e he)
    have hvotes : (g.nodes 1).consensus.votes = {1, 2} := by
      rw [← hg]
      decide
    -- both stores hold the one byte, at position 8
    have hstore : ∀ v, v = 1 ∨ v = 2 →
        (g.nodes v).storage.flushLsn ≤ (g.nodes 1).storage.flushLsn ∧
          (g.nodes v).storage.flushLsn.raw.toNat = 9 ∧
          (g.nodes v).storage.startLsn.raw.toNat = 8 ∧ g.sameByte v 8 1 = true := by
      rw [← hg]
      rintro v (rfl | rfl)
      · exact ⟨by decide, by decide, by decide, by decide⟩
      · exact ⟨by decide, by decide, by decide, by decide⟩
    rw [hg]
    rintro w ⟨⟨e, he, rfl, _, _⟩, _⟩
    rw [hfirst e he]
    intro v hv
    rw [hvotes] at hv
    obtain ⟨hflush, hend, hstart, hbyte⟩ := hstore v (by simpa using hv)
    refine ⟨hflush, ?_⟩
    intro p hp hlow
    obtain rfl : p = 8 := by omega
    exact hbyte

/-- A byte is committed by nodes `1` and `2`, and node `3`, which has nothing, is
elected. -/
theorem leader_without_committed_wal :
    ¬ Group.LeaderComplete threeNodes
      (arrive 0 (oneByte 8 1) ++ reachSecond 0 0 ++ stand 3) := by
  obtain ⟨g, hg⟩ : ∃ g, Group.after threeNodes
    (arrive 0 (oneByte 8 1) ++ reachSecond 0 0 ++ stand 3) = g := ⟨_, rfl⟩
  have hwon : g.elections.any (fun e => decide (e.node = 3) && e.rest.isEmpty && e.reply.isNone)
      = true := by
    rw [← hg]
    decide
  have hlead : (g.nodes 3).consensus.role = .leader := by
    rw [← hg]
    decide
  have hempty : (g.nodes 3).storage.flushLsn = 0 := by
    rw [← hg]
    decide
  obtain ⟨e, he, hdone⟩ := List.any_eq_true.mp hwon
  simp only [Bool.and_eq_true, decide_eq_true_eq, List.isEmpty_iff, Option.isNone_iff_eq_none]
    at hdone
  intro h
  unfold Group.LeaderComplete at h
  rw [hg] at h
  have hcommit := (h (arrive 0 (oneByte 8 1) ++ reachSecond 0 0) (List.prefix_append _ _) 1 3
    ⟨⟨e, he, hdone.1.1, hdone.1.2, hdone.2⟩, hlead⟩).1
  rw [hempty] at hcommit
  exact absurd hcommit (by decide)

end AethelDB.Safekeeper
