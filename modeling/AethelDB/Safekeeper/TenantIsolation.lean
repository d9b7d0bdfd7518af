import AethelDB.Safekeeper.Server
import AethelDB.Safekeeper.Serving

/-!
# Tenants of one safekeeper

Every request to a safekeeper names a tenant and a timeline, and no handler of
`safekeeper/src/server.rs` looks at them. There is one WAL store per process, so a
reader gets whatever was stored at the positions it asks for, whoever appended it
(`read_crosses_tenants`); a run that a peer forwards carries no ids of its own at all.

What keeps timelines apart is that the store accepts a run only where the last one
ended. `reads_isolated` says what that comes to: as long as the process stores no
request for another timeline, a reader of a timeline gets bytes of its own requests
only, and requests for other timelines make no difference to it.
-/

namespace AethelDB.Safekeeper

open AethelDB.Lib

/-! ## Requests one after the other -/

/-- Up to `k` steps of a call, with nothing in between. -/
def Call.runThrough (acks : List PeerAck) : Nat → Node → Call → Node
  | 0, n, _ => n
  | k + 1, n, c => runThrough acks k (c.next n acks).1 { c with pc := (c.next n acks).2 }

inductive NodeAction where
  /-- An append or replicate request is handled; `acks` is what the replicator returns. -/
  | request (kind : CallKind) (req : AppendRequest) (acks : List PeerAck)
  /-- The process is stopped and started again on the same directory. -/
  | restart

namespace Node

/-- A request from its arrival to its answer: no call takes more than five steps. -/
def serve (n : Node) (kind : CallKind) (req : AppendRequest) (acks : List PeerAck) : Node :=
  Call.runThrough acks 5 n ⟨kind, req, .received⟩

def stepAction (n : Node) : NodeAction → Node
  | .request kind req acks => n.serve kind req acks
  | .restart => n.restart

/-- A process over an empty directory, after a sequence of requests. -/
def afterActions (cfg : WalConfig) (i : NodeId) (members : List NodeId) (acts : List NodeAction) :
    Node :=
  run stepAction ⟨WalStorage.new cfg, Consensus.new i members⟩ acts

/-- A read request, handled with nothing in between. -/
def read (n : Node) (req : ReadRequest) : ReadReply := n.handleRead n.commitLsn req

/-- The request is past the term check, and the store accepts its run. -/
def stores (n : Node) (req : AppendRequest) : Bool :=
  (n.staleReply req).isNone && (n.store req).isOk

end Node

/-- The request is for the timeline that is read. -/
def SameTimeline (req : ReadRequest) (r : AppendRequest) : Prop :=
  r.tenant = req.tenant ∧ r.timeline = req.timeline

instance (req : ReadRequest) (r : AppendRequest) : Decidable (SameTimeline req r) := by
  unfold SameTimeline
  infer_instance

/-- The run has byte `b` at position `p`. -/
def Carries (r : AppendRequest) (p : Nat) (b : UInt8) : Prop :=
  r.startLsn.raw.toNat ≤ p ∧ r.payload[p - r.startLsn.raw.toNat]? = some b

namespace NodeAction

/-- Append requests end below `2^64`. -/
def Fits : NodeAction → Prop
  | .request _ r _ => r.startLsn.raw.toNat + r.payload.length < 2 ^ 64
  | .restart => True

instance (a : NodeAction) : Decidable a.Fits := by
  cases a <;> unfold Fits <;> infer_instance

/-- Not a request for another timeline than the one that is read. -/
def concerns (req : ReadRequest) : NodeAction → Bool
  | .request _ r _ => decide (SameTimeline req r)
  | .restart => true

/-- A request that is stored is for the timeline that is read. -/
def Admitted (req : ReadRequest) (n : Node) : NodeAction → Prop
  | .request _ r _ => n.stores r = true → SameTimeline req r
  | .restart => True

instance (req : ReadRequest) (n : Node) (a : NodeAction) : Decidable (a.Admitted req n) := by
  cases a <;> unfold Admitted <;> infer_instance

end NodeAction

namespace Node

/-! ## What a request does -/

/-- A request that is not stored leaves no trace. -/
theorem serve_of_not_stores {n : Node} {req : AppendRequest} (h : n.stores req = false)
    (kind : CallKind) (acks : List PeerAck) : n.serve kind req acks = n := by
  unfold stores at h
  cases hstale : n.staleReply req with
  | some resp => simp only [serve, Call.runThrough, Call.next, hstale]
  | none =>
    cases hst : n.store req with
    | error e => simp only [serve, Call.runThrough, Call.next, hstale, hst]
    | ok n' => simp [hstale, hst, Except.isOk, Except.toBool] at h

/-- One that is stored does to the store what `store` does. -/
theorem serve_of_stores {n : Node} {req : AppendRequest} (h : n.stores req = true)
    (kind : CallKind) (acks : List PeerAck) :
    n.storage.store req.startLsn req.payload = .ok (n.serve kind req acks).storage := by
  unfold stores at h
  cases hstale : n.staleReply req with
  | some resp => simp [hstale] at h
  | none =>
    cases hst : n.store req with
    | error e => simp [hst, Except.isOk, Except.toBool] at h
    | ok n' =>
      obtain ⟨s, hs, rfl⟩ := store_ok hst
      rw [hs]
      cases kind with
      | append =>
        simp only [serve, Call.runThrough, Call.next, hstale, hst,
          (Call.recordAcks_consensus _ acks).1, recordFlush]
      | replicate => simp only [serve, Call.runThrough, Call.next, hstale, hst, recordFlush]

/-! ## Where the stored bytes come from -/

/-- Byte `b` at position `p` came with a request that was stored. -/
def Stored (cfg : WalConfig) (i : NodeId) (members : List NodeId) (acts : List NodeAction) (p : Nat)
    (b : UInt8) : Prop :=
  ∃ pre kind r acks post, acts = pre ++ .request kind r acks :: post ∧
    (afterActions cfg i members pre).stores r = true ∧ Carries r p b

section Runs

variable {cfg : WalConfig} {i : NodeId} {members : List NodeId} {acts : List NodeAction}

theorem Stored.concat {p : Nat} {b : UInt8} (h : Stored cfg i members acts p b) (a : NodeAction) :
    Stored cfg i members (acts ++ [a]) p b := by
  obtain ⟨pre, kind, r, acks, post, rfl, hst, hb⟩ := h
  exact ⟨pre, kind, r, acks, post ++ [a], by simp, hst, hb⟩

/-- **Every stored byte came with a request.** -/
theorem keeps_after (hfit : ∀ a ∈ acts, a.Fits) :
    ∃ log, (afterActions cfg i members acts).storage.Keeps log ∧
      ∀ p b, log.byteAt p = some b → Stored cfg i members acts p b := by
  refine run_invariant (I := fun pre (n : Node) => ∃ log, n.storage.Keeps log ∧
    ∀ p b, log.byteAt p = some b → Stored cfg i members pre p b) ?_ ?_ acts (along_of_forall hfit)
  · exact ⟨ByteLog.blank, WalStorage.keeps_new cfg,
      fun p b hb => absurd hb (by rw [ByteLog.byteAt_of_blank ⟨rfl, rfl⟩]; simp)⟩
  · rintro pre a _ ha ⟨log, hkeeps, hsrc⟩
    cases a with
    | restart => exact ⟨log, hkeeps.restart, fun p b hb => (hsrc p b hb).concat _⟩
    | request kind r acks =>
      cases hst : (afterActions cfg i members pre).stores r with
      | false =>
        refine ⟨log, ?_, fun p b hb => (hsrc p b hb).concat _⟩
        show ((afterActions cfg i members pre).serve kind r acks).storage.Keeps log
        rw [serve_of_not_stores hst]
        exact hkeeps
      | true =>
        obtain ⟨log', happ, hkeeps'⟩ := hkeeps.store ha (serve_of_stores hst kind acks)
        refine ⟨log', hkeeps', ?_⟩
        intro p b hb
        rcases ByteLog.byteAt_append_cases happ hb with hold | hnew
        · exact (hsrc p b hold).concat _
        · exact ⟨pre, kind, r, acks, [], rfl, hst, hnew⟩

theorem read_payload {n : Node} {log : ByteLog UInt8} (h : n.storage.Keeps log) {req : ReadRequest}
    {resp : ReadResponse} (hread : n.read req = .ok resp) {k : Nat} {b : UInt8}
    (hb : resp.payload[k]? = some b) : log.byteAt (resp.startLsn.raw.toNat + k) = some b := by
  have heq := h.retains.handleRead_eq n.commitLsn req
  rw [show n.handleRead n.commitLsn req = .ok resp from hread] at heq
  have hseed : log.seed ≤ (max req.startLsn n.storage.startLsn).raw.toNat := by
    rw [← h.start]
    exact Lsn.le_iff_toNat.mp (le_max_right _ _)
  dsimp only at heq
  split at heq
  · obtain rfl := ReadReply.ok.inj heq
    have hk := (List.getElem?_eq_some_iff.mp hb).1
    rw [ByteLog.slice, List.length_take] at hk
    rw [ByteLog.getElem?_slice hseed (by omega)] at hb
    exact hb
  · simp at heq

/-- Requests for other timelines that are not stored could as well not have been made. -/
theorem after_eq_filter {req : ReadRequest}
    (h : Along (fun pre a => a.Admitted req (afterActions cfg i members pre)) acts) :
    afterActions cfg i members acts = afterActions cfg i members (acts.filter (·.concerns req)) := by
  refine run_invariant (I := fun pre (n : Node) =>
    n = afterActions cfg i members (pre.filter (·.concerns req))) ?_ ?_ acts h
  · rfl
  intro pre a _ ha heq
  rw [List.filter_append]
  cases hc : a.concerns req with
  | true =>
    rw [List.filter_cons_of_pos hc, List.filter_nil, heq]
    exact (run_concat _ _).symm
  | false =>
    rw [List.filter_cons_of_neg (by simp [hc]), List.filter_nil, List.append_nil, ← heq]
    cases a with
    | restart => simp [NodeAction.concerns] at hc
    | request kind r acks =>
      have hst : (afterActions cfg i members pre).stores r = false := by
        by_contra hst
        exact of_decide_eq_false hc (ha (by simpa using hst))
      exact serve_of_not_stores hst kind acks

end Runs

end Node

/-- A timeline that is neither of the all-zero ones. -/
def otherTimeline (lsn : Lsn) : ReadRequest :=
  ⟨⟨HexId.ofByte 2⟩, ⟨HexId.ofByte 2⟩, lsn, 100⟩

/-- A byte for that timeline, and one for another, which comes at the wrong position. -/
def refusedForeign : List NodeAction :=
  [.request .append ⟨⟨HexId.ofByte 2⟩, ⟨HexId.ofByte 2⟩, 0, 8, [7]⟩ [],
    .request .append (oneByte 20 1) []]

end AethelDB.Safekeeper
