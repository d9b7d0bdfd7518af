import AethelDB.Safekeeper.Server
import AethelDB.Safekeeper.Serving

/-!
# A group of one member across restarts

With one member the quorum is that member, so everything it has flushed is committed,
and a reader should find all of it. The flush positions that the commit position is
computed from are volatile, though: `Consensus::new` starts from `INVALID` for every
member, and `main` does not tell it where the reopened store ends. After a restart the
node therefore has committed nothing and serves nothing, until the next append is
stored (`commit_lost_at_restart`).

`sole_member_commits_flush` says when the two positions agree while no request is in
progress: when the store is empty, or a run has been stored since the process was
started.
-/

namespace AethelDB.Safekeeper

open AethelDB.Lib

/-! ## The process -/

inductive SoloAction where
  | append (req : AppendRequest)
  /-- Call number `k` takes its next step. -/
  | proceed (k : Nat) (acks : List PeerAck)
  /-- The process is stopped and started again on the same directory. -/
  | restart

/-- The next step of the call stores its run. -/
def Call.stores (n : Node) (c : Call) : Bool :=
  match c.pc with
  | .checked _ =>
    match n.store c.req with
    | .ok _ => true
    | .error _ => false
  | _ => false

structure Solo where
  server : Server
  /-- A run has been stored since the process was started. -/
  stored : Bool

namespace Solo

/-- The only member of its group, over an empty directory. -/
def start (cfg : WalConfig) (i : NodeId) : Solo :=
  ⟨Server.start (WalStorage.new cfg) i [i], false⟩

def step (s : Solo) : SoloAction → Solo
  | .append req => { s with server := s.server.step (.call .append req) }
  | .proceed k acks =>
    ⟨s.server.step (.proceed k acks),
      s.stored || (s.server.calls[k]?).any fun c => c.stores s.server.node⟩
  | .restart => ⟨s.server.step .restart, false⟩

def after (cfg : WalConfig) (i : NodeId) (acts : List SoloAction) : Solo :=
  run step (start cfg i) acts

def node (s : Solo) : Node := s.server.node

/-- No request is in progress. -/
def Quiet (s : Solo) : Prop := ∀ c ∈ s.server.calls, c.isDone = true

instance (s : Solo) : Decidable s.Quiet := by
  unfold Quiet
  infer_instance

end Solo

/-- Append requests end below `2^64`, and acknowledgements are those of other nodes. -/
def SoloAction.Sole (i : NodeId) : SoloAction → Prop
  | .append req => req.startLsn.raw.toNat + req.payload.length < 2 ^ 64
  | .proceed _ acks => ∀ a ∈ acks, a.node ≠ i
  | .restart => True

instance (i : NodeId) (a : SoloAction) : Decidable (a.Sole i) := by
  cases a <;> unfold SoloAction.Sole <;> infer_instance

/-! ## What is recorded of the own flush position -/

theorem Consensus.le_recordFlush_self (c : Consensus) (node : NodeId) (lsn : Lsn) :
    lsn ≤ (c.recordFlush node lsn).flush node := by
  unfold recordFlush
  simp only
  split
  · rw [Function.update_self]
  · next hnot => exact not_lt.mp hnot

theorem Consensus.commitLsn_of_sole {c : Consensus} {i : NodeId} (hm : c.members = [i])
    (hq : c.quorum = 1) : c.commitLsn = c.flush i := by
  rw [commitLsn, hm, hq]
  rfl

theorem Consensus.quorum_of_sole (i : NodeId) : (Consensus.new i [i]).quorum = 1 := by
  simp [Consensus.new]

theorem Node.recordAcks_sole {i : NodeId} {acks : List PeerAck} {n : Node}
    (hne : ∀ a ∈ acks, a.node ≠ i) :
    (n.recordAcks acks).storage = n.storage ∧
      (n.recordAcks acks).consensus.flush i = n.consensus.flush i ∧
      (n.recordAcks acks).consensus.nodeId = n.consensus.nodeId ∧
      (n.recordAcks acks).consensus.members = n.consensus.members ∧
      (n.recordAcks acks).consensus.quorum = n.consensus.quorum := by
  refine Node.recordAcks_induction (P := fun m => m.storage = n.storage ∧
    m.consensus.flush i = n.consensus.flush i ∧ m.consensus.nodeId = n.consensus.nodeId ∧
    m.consensus.members = n.consensus.members ∧ m.consensus.quorum = n.consensus.quorum)
    ⟨rfl, rfl, rfl, rfl, rfl⟩ ?_
  rintro m a ha ⟨hs, hf, hid, hm, hq⟩
  refine ⟨hs, Eq.trans ?_ hf, hid, hm, hq⟩
  rcases m.consensus.flush_recordFlush a.node a.lsn i with heq | ⟨heq, _⟩
  · exact heq
  · exact absurd heq.symm (hne a ha)

namespace Solo

/-- The node alone: its store works, and it has recorded no more than it has flushed;
before the first store of the process it has recorded nothing. -/
structure Alone (i : NodeId) (stored : Bool) (n : Node) : Prop where
  keeps : ∃ log, n.storage.Keeps log
  nodeId : n.consensus.nodeId = i
  members : n.consensus.members = [i]
  quorum : n.consensus.quorum = 1
  recorded : n.consensus.flush i ≤ n.storage.flushLsn
  fresh : stored = false → n.consensus.flush i = Lsn.INVALID

/-- What is known of a call in progress: a flush position that is yet to be recorded is
at most `flushLsn`. -/
structure CallOk (i : NodeId) (stored : Bool) (flushLsn : Lsn) (c : Call) : Prop where
  fits : c.req.startLsn.raw.toNat + c.req.payload.length < 2 ^ 64
  acks : ∀ {f acks}, c.pc = .replicated f acks → ∀ a ∈ acks, a.node ≠ i
  pending : ∀ {term f}, c.pc = .stored term f → stored = true ∧ f ≤ flushLsn

theorem CallOk.mono {i : NodeId} {stored stored' : Bool} {f f' : Lsn} {c : Call}
    (h : CallOk i stored f c) (hs : stored = true → stored' = true) (hf : f ≤ f') :
    CallOk i stored' f' c :=
  ⟨h.fits, h.acks, fun hpc => ⟨hs (h.pending hpc).1, (h.pending hpc).2.trans hf⟩⟩

theorem CallOk.setPc {i : NodeId} {stored : Bool} {f : Lsn} {c : Call} (h : CallOk i stored f c)
    {pc : CallPc} (hr : ∀ f' acks, pc ≠ .replicated f' acks) (hs : ∀ term f', pc ≠ .stored term f') :
    CallOk i stored f { c with pc := pc } :=
  ⟨h.fits, fun hpc => absurd hpc (hr _ _), fun hpc => absurd hpc (hs _ _)⟩

/-- The position flushed last is recorded, or some call is about to record it. -/
def Reached (i : NodeId) (n : Node) (calls : List Call) : Prop :=
  n.consensus.flush i = n.storage.flushLsn ∨
    ∃ (k : Nat) (c : Call), calls[k]? = some c ∧
      ∃ term, c.pc = .stored term n.storage.flushLsn

structure Inv (i : NodeId) (s : Solo) : Prop where
  alone : Alone i s.stored s.node
  calls : ∀ c ∈ s.server.calls, CallOk i s.stored s.node.storage.flushLsn c
  reached : s.stored = true → Reached i s.node s.server.calls

theorem inv_start (cfg : WalConfig) (i : NodeId) : Inv i (start cfg i) where
  alone := ⟨⟨_, WalStorage.keeps_new cfg⟩, rfl, rfl, Consensus.quorum_of_sole i, le_rfl,
    fun _ => rfl⟩
  calls := nofun
  reached := fun h => absurd h (by simp [start])

namespace Inv

variable {i : NodeId} {s : Solo} {c : Call} {k : Nat}

/-- Call `k` moves on to `pc` and leaves the node as `n`, not behind the old one. -/
theorem set (h : Inv i s) {n : Node} {pc : CallPc} {stored : Bool} (hn : Alone i stored n)
    (hs : s.stored = true → stored = true) (hf : s.node.storage.flushLsn ≤ n.storage.flushLsn)
    (hc : CallOk i stored n.storage.flushLsn { c with pc := pc })
    (hr : stored = true → Reached i n (s.server.calls.set k { c with pc := pc })) :
    Inv i ⟨{ s.server with node := n, calls := s.server.calls.set k { c with pc := pc } }, stored⟩ where
  alone := hn
  calls := by
    intro c' hc'
    rcases List.mem_or_eq_of_mem_set hc' with hmem | rfl
    · exact (h.calls c' hmem).mono hs hf
    · exact hc
  reached := hr

/-- A call that had nothing to record leaves the others as they were. -/
theorem reached_set (h : Inv i s) {c' : Call} (hk : s.server.calls[k]? = some c)
    (hpc : ∀ term f, c.pc ≠ .stored term f) (hs : s.stored = true) :
    Reached i s.node (s.server.calls.set k c') := by
  rcases h.reached hs with hrec | ⟨k', d, hk', term, hd⟩
  · exact Or.inl hrec
  · refine Or.inr ⟨k', d, ?_, term, hd⟩
    have hne : k ≠ k' := by
      rintro rfl
      rw [Option.some.inj (hk.symm.trans hk')] at hpc
      exact hpc _ _ hd
    rw [List.getElem?_set_ne hne]
    exact hk'

/-- A step of a call that touches neither the store nor the recorded position. -/
theorem setPc (h : Inv i s) (hk : s.server.calls[k]? = some c) {pc : CallPc}
    (hc : ∀ term f, c.pc ≠ .stored term f)
    (hr : ∀ {f acks}, pc = .replicated f acks → ∀ a ∈ acks, a.node ≠ i)
    (hs : ∀ term f, pc ≠ .stored term f) :
    Inv i ⟨{ s.server with calls := s.server.calls.set k { c with pc := pc } }, s.stored⟩ := by
  have hok := h.calls c (List.mem_of_getElem? hk)
  exact h.set (n := s.node) h.alone id le_rfl ⟨hok.fits, hr, fun hpc => absurd hpc (hs _ _)⟩
    fun hst => h.reached_set hk hc hst

theorem store (h : Inv i s) (hk : s.server.calls[k]? = some c) (term : Term) {n' : Node}
    (hst : s.node.store c.req = .ok n') :
    Inv i ⟨{ s.server with
      node := n'
      calls := s.server.calls.set k { c with pc := .stored term n'.storage.flushLsn } }, true⟩ := by
  have hok := h.calls c (List.mem_of_getElem? hk)
  obtain ⟨log, hlog⟩ := h.alone.keeps
  obtain ⟨st, hstore, rfl⟩ := Node.store_ok hst
  obtain ⟨log', happ, hlog'⟩ := hlog.store hok.fits hstore
  have hle : s.node.storage.flushLsn ≤ st.flushLsn := by
    rw [hlog.flush, hlog'.flush, Lsn.le_iff_toNat, hlog.write, hlog'.write]
    exact (ByteLog.grows_append happ).fin_le
  refine h.set (n := { s.node with storage := st }) ?_ (fun _ => rfl) hle ?_ fun _ => ?_
  · exact ⟨⟨log', hlog'⟩, h.alone.nodeId, h.alone.members, h.alone.quorum,
      h.alone.recorded.trans hle, fun hf => absurd hf (by simp)⟩
  · refine ⟨hok.fits, fun hpc' => absurd hpc' (by simp), fun hpc' => ⟨rfl, ?_⟩⟩
    rw [(CallPc.stored.inj hpc').2]
  · refine Or.inr ⟨k, { c with pc := .stored term st.flushLsn }, ?_, term, rfl⟩
    rw [List.getElem?_set_self (List.getElem?_eq_some_iff.mp hk).1]

theorem record (h : Inv i s) (hk : s.server.calls[k]? = some c) {term : Term} {f : Lsn}
    (hpc : c.pc = .stored term f) {pc : CallPc} (hr : ∀ f' acks, pc ≠ .replicated f' acks)
    (hs : ∀ term f', pc ≠ .stored term f') :
    Inv i ⟨{ s.server with
      node := s.node.recordFlush s.node.consensus.nodeId f
      calls := s.server.calls.set k { c with pc := pc } }, s.stored⟩ := by
  have hok := h.calls c (List.mem_of_getElem? hk)
  obtain ⟨hst, hle⟩ := hok.pending hpc
  have hnode : s.node.recordFlush s.node.consensus.nodeId f = s.node.recordFlush i f := by
    rw [h.alone.nodeId]
  rw [hnode]
  have hrec : (s.node.recordFlush i f).consensus.flush i ≤ s.node.storage.flushLsn := by
    show (s.node.consensus.recordFlush i f).flush i ≤ _
    rcases s.node.consensus.flush_recordFlush i f i with heq | ⟨_, heq⟩
    · rw [heq]
      exact h.alone.recorded
    · rw [heq]
      exact hle
  refine h.set (n := s.node.recordFlush i f) ?_ id le_rfl (hok.setPc hr hs) fun _ => ?_
  · exact ⟨h.alone.keeps, h.alone.nodeId, h.alone.members, h.alone.quorum, hrec,
      fun hf => absurd (hst.symm.trans hf) (by simp)⟩
  · rcases h.reached hst with hdone | ⟨k', d, hk', term', hd⟩
    · refine Or.inl (le_antisymm hrec (le_of_eq_of_le hdone.symm ?_))
      exact s.node.consensus.le_flush_recordFlush i f i
    · by_cases hkk : k = k'
      · -- this call is the one that stored last
        subst hkk
        obtain rfl := Option.some.inj (hk.symm.trans hk')
        obtain ⟨_, rfl⟩ := CallPc.stored.inj (hpc.symm.trans hd)
        exact Or.inl (le_antisymm hrec (s.node.consensus.le_recordFlush_self i _))
      · refine Or.inr ⟨k', d, ?_, term', hd⟩
        rw [List.getElem?_set_ne hkk]
        exact hk'

/-- Acknowledgements of other nodes do not count. -/
theorem foldAcks (h : Inv i s) (hk : s.server.calls[k]? = some c) {f : Lsn} {acks : List PeerAck}
    (hpc : c.pc = .replicated f acks) {resp : Option AppendResponse} :
    Inv i ⟨{ s.server with
      node := s.node.recordAcks acks
      calls := s.server.calls.set k { c with pc := .done resp } }, s.stored⟩ := by
  have hok := h.calls c (List.mem_of_getElem? hk)
  obtain ⟨hst, hf, hid, hm, hq⟩ := Node.recordAcks_sole (n := s.node) (hok.acks hpc)
  refine h.set (n := s.node.recordAcks acks) ?_ id (by rw [hst]) ?_ fun hs => ?_
  · refine ⟨?_, hid.trans h.alone.nodeId, hm.trans h.alone.members, hq.trans h.alone.quorum, ?_, ?_⟩
    · rw [hst]
      exact h.alone.keeps
    · rw [hf, hst]
      exact h.alone.recorded
    · rw [hf]
      exact h.alone.fresh
  · rw [hst]
    exact hok.setPc (by simp) (by simp)
  · have hreach : Reached i s.node (s.server.calls.set k { c with pc := .done resp }) :=
      h.reached_set hk (by simp [hpc]) hs
    unfold Reached
    rw [hst, hf]
    exact hreach

theorem proceed (h : Inv i s) {acks : List PeerAck} (ha : ∀ a ∈ acks, a.node ≠ i) :
    Inv i (s.step (.proceed k acks)) := by
  simp only [Solo.step, Server.step]
  cases hk : s.server.calls[k]? with
  | none =>
    simp only [Option.any_none, Bool.or_false]
    exact h
  | some c =>
    obtain ⟨kind, req, pc⟩ := c
    simp only [Option.any_some]
    cases pc with
    | received =>
      simp only [Call.stores, Bool.or_false, Call.next]
      split
      · exact h.setPc hk (by simp) (by simp) (by simp)
      · exact h.setPc hk (by simp) (by simp) (by simp)
    | checked term =>
      cases hst : s.server.node.store req with
      | ok n' =>
        simp only [Call.stores, Call.next, hst, Bool.or_true]
        exact h.store hk term hst
      | error e =>
        simp only [Call.stores, Call.next, hst, Bool.or_false]
        exact h.setPc hk (by simp) (by simp) (by simp)
    | stored term f =>
      cases kind with
      | append =>
        simp only [Call.stores, Bool.or_false, Call.next]
        exact h.record hk rfl (by simp) (by simp)
      | replicate =>
        simp only [Call.stores, Bool.or_false, Call.next]
        exact h.record hk rfl (by simp) (by simp)
    | recorded f =>
      simp only [Call.stores, Bool.or_false, Call.next]
      refine h.setPc hk (by simp) ?_ (by simp)
      intro f' acks' heq
      obtain ⟨_, rfl⟩ := CallPc.replicated.inj heq
      exact ha
    | replicated f acks' =>
      simp only [Call.stores, Bool.or_false, Call.next]
      exact h.foldAcks hk rfl
    | done resp =>
      simp only [Call.stores, Bool.or_false, Call.next]
      exact h.setPc hk (by simp) (by simp) (by simp)

theorem step (h : Inv i s) {a : SoloAction} (ha : a.Sole i) : Inv i (s.step a) := by
  cases a with
  | append req =>
    refine ⟨h.alone, ?_, fun hs => ?_⟩
    · intro c hc
      rcases List.mem_append.mp hc with hc | hc
      · exact h.calls c hc
      · rw [List.mem_singleton.mp hc]
        exact ⟨ha, fun hpc => absurd hpc (by simp), fun hpc => absurd hpc (by simp)⟩
    · rcases h.reached hs with hrec | ⟨k, c, hk, hc⟩
      · exact Or.inl hrec
      · refine Or.inr ⟨k, c, ?_, hc⟩
        show (s.server.calls ++ _)[k]? = some c
        rw [List.getElem?_append_left (List.getElem?_eq_some_iff.mp hk).1]
        exact hk
  | proceed k acks => exact h.proceed ha
  | restart =>
    obtain ⟨log, hlog⟩ := h.alone.keeps
    refine ⟨⟨⟨log, hlog.restart⟩, h.alone.nodeId, h.alone.members, ?_, Lsn.INVALID_le _,
      fun _ => rfl⟩, ?_, fun hs => absurd hs (by simp [Solo.step])⟩
    · show (Consensus.new _ s.node.consensus.members).quorum = 1
      rw [h.alone.members]
      exact Consensus.quorum_of_sole _
    · intro c' hc'
      obtain ⟨c, hc, rfl⟩ := List.mem_map.mp hc'
      have hok := h.calls c hc
      unfold Call.kill
      split
      · next hdone =>
        refine ⟨hok.fits, fun hpc => absurd hdone ?_, fun hpc => absurd hdone ?_⟩
        · simp [Call.isDone, hpc]
        · simp [Call.isDone, hpc]
      · exact ⟨hok.fits, fun hpc => absurd hpc (by simp), fun hpc => absurd hpc (by simp)⟩

/-- **While nothing is in progress**, what was stored since the start is committed. -/
theorem commit_of_quiet (h : Inv i s) (hq : s.Quiet) :
    s.node.commitLsn = if s.stored then s.node.storage.flushLsn else Lsn.INVALID := by
  have hcommit : s.node.commitLsn = s.node.consensus.flush i :=
    Consensus.commitLsn_of_sole h.alone.members h.alone.quorum
  rw [hcommit]
  split
  · next hst =>
    rcases h.reached hst with hrec | ⟨k, c, hk, term, hpc⟩
    · exact hrec
    · have hdone := hq c (List.mem_of_getElem? hk)
      simp [Call.isDone, hpc] at hdone
  · next hst => exact h.alone.fresh (by simpa using hst)

end Inv

theorem inv_after (cfg : WalConfig) (i : NodeId) {acts : List SoloAction}
    (h : ∀ a ∈ acts, a.Sole i) : Inv i (after cfg i acts) :=
  run_invariant (I := fun _ (s : Solo) => Inv i s) (inv_start cfg i)
    (fun _ _ _ ha hI => hI.step ha) acts (along_of_forall h)

end Solo

/-- **When all that is flushed is committed.** While no request is in progress the commit
position is the flush position exactly if nothing is flushed or a run has been stored
since the process was started; a read then gets every stored byte it asks for. -/
theorem sole_member_commits_flush (cfg : WalConfig) (i : NodeId) (acts : List SoloAction)
    (h : ∀ a ∈ acts, a.Sole i) (hq : (Solo.after cfg i acts).Quiet) :
    let s := Solo.after cfg i acts
    let n := s.node
    (n.commitLsn = n.storage.flushLsn ↔ s.stored = true ∨ n.storage.flushLsn = Lsn.INVALID) ∧
      (n.commitLsn = n.storage.flushLsn → ∀ req : ReadRequest,
        let start := max req.startLsn n.storage.startLsn
        let len := min (n.storage.flushLsn.raw.toNat - start.raw.toNat) req.maxBytes.toNat
        ∃ payload, n.handleRead n.commitLsn req = .ok ⟨.ok, n.commitLsn, start, payload⟩ ∧
          payload.length = len ∧
          ∀ k < len, payload[k]? = n.storage.durableByte (start.raw.toNat + k)) := by
  intro s n
  have hinv := Solo.inv_after cfg i h
  have hcommit : n.commitLsn = if s.stored then n.storage.flushLsn else Lsn.INVALID :=
    hinv.commit_of_quiet hq
  refine ⟨?_, ?_⟩
  · rw [hcommit]
    cases s.stored with
    | true => exact iff_of_true rfl (Or.inl rfl)
    | false =>
      simp only [Bool.false_eq_true, if_false, false_or]
      exact eq_comm
  · intro heq req
    obtain ⟨log, hlog⟩ := hinv.alone.keeps
    rw [heq]
    exact Node.handleRead_of_le hlog hlog.flush.le req

/-- Call `k` from its arrival to its answer. -/
def soloAppend (k : Nat) (req : AppendRequest) : List SoloAction :=
  [.append req, .proceed k [], .proceed k [], .proceed k [], .proceed k [], .proceed k []]

/-- Two appends, the second after a restart. -/
def restartedRun : List SoloAction :=
  soloAppend 0 (oneByte 8 1) ++ [.restart] ++ soloAppend 1 (oneByte 9 2)

theorem sole_member_commits_flush_sample :
    (Solo.after (WalConfig.small 4) 1 restartedRun).Quiet ∧
      (Solo.after (WalConfig.small 4) 1 restartedRun).stored = true ∧
      (Solo.after (WalConfig.small 4) 1 restartedRun).node.commitLsn
        = (Solo.after (WalConfig.small 4) 1 restartedRun).node.storage.flushLsn := by
  have hq : (Solo.after (WalConfig.small 4) 1 restartedRun).Quiet := by decide +kernel
  have hst : (Solo.after (WalConfig.small 4) 1 restartedRun).stored = true := by decide +kernel
  have hsole : ∀ a ∈ restartedRun, a.Sole 1 := by decide
  exact ⟨hq, hst,
    (sole_member_commits_flush (WalConfig.small 4) 1 restartedRun hsole hq).1.mpr (Or.inl hst)⟩

/-- Position 9 is committed; after a restart nothing is, and a reader gets nothing. -/
theorem commit_lost_at_restart :
    (Solo.after (WalConfig.small 4) 1 (soloAppend 0 (oneByte 8 1))).node.commitLsn = 9 ∧
      let s := Solo.after (WalConfig.small 4) 1 (soloAppend 0 (oneByte 8 1) ++ [.restart])
      s.Quiet ∧ s.node.storage.flushLsn = 9 ∧ s.node.commitLsn ≠ s.node.storage.flushLsn ∧
        s.node.handleRead s.node.commitLsn (readAll 8) = .ok ⟨.ok, 0, 8, []⟩ := by
  decide +kernel

end AethelDB.Safekeeper
