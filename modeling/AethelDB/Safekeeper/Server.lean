import AethelDB.Lib.Ballot
import AethelDB.Safekeeper.Group

/-!
# One safekeeper and its concurrent calls

`safekeeper/src/server.rs`, seen from one node. Any number of calls of
`handle_append` and `handle_replicate` are in progress at once, whoever sent them;
each is a `Call` that advances by one lock-delimited step at a time (`Call.next`),
and between two of its steps other calls, vote requests, elections and restarts of
the process take place. What the replicator brings back from the peers is
arbitrary.

Three properties of terms and votes are followed over whole runs:

* the node votes once per term and its term does not go back, as long as it is
  not restarted after having voted (`one_vote_per_term`): the vote is in memory
  only;
* an append answered with success is answered with a term at least its own, and
  fences older ones, as long as requests do not carry terms that the node has not
  heard of (`appends_fenced_by_term`): the handlers compare terms and adopt none;
* a granted vote keeps older proposers out, as long as none of their calls is past
  its term check at that moment (`vote_fences_older_calls`): the check and the
  store are two critical sections.
-/

namespace AethelDB.Safekeeper

open AethelDB.Lib

/-! ## Calls -/

inductive CallKind where
  | append
  | replicate

inductive CallPc where
  | received
  /-- Past the term check, which saw `term`. -/
  | checked (term : Term)
  | stored (term : Term) (flushLsn : Lsn)
  /-- `handle_append`, with its own flush recorded: the replicator is at work. -/
  | recorded (flushLsn : Lsn)
  | replicated (flushLsn : Lsn) (acks : List PeerAck)
  /-- Returned; without an answer if the store refused the run. -/
  | done (resp : Option AppendResponse)

/-- A call of `handle_append` or `handle_replicate`. -/
structure Call where
  kind : CallKind
  req : AppendRequest
  pc : CallPc

namespace Call

/-- The next lock-delimited step; `acks` is what the replicator returns. -/
def next (n : Node) (c : Call) (acks : List PeerAck) : Node × CallPc :=
  match c.pc with
  | .received =>
    match n.staleReply c.req with
    | some resp => (n, .done (some resp))
    | none => (n, .checked n.consensus.term)
  | .checked term =>
    match n.store c.req with
    | .ok n' => (n', .stored term n'.storage.flushLsn)
    | .error _ => (n, .done none)
  | .stored term flushLsn =>
    let n' := n.recordFlush n.consensus.nodeId flushLsn
    match c.kind with
    | .append => (n', .recorded flushLsn)
    | .replicate => (n', .done (some ⟨.ok, term, flushLsn, n'.commitLsn⟩))
  | .recorded flushLsn => (n, .replicated flushLsn acks)
  | .replicated flushLsn acks =>
    let n' := n.recordAcks acks
    (n', .done (some ⟨.ok, n'.consensus.term, flushLsn, n'.commitLsn⟩))
  | .done resp => (n, .done resp)

/-- Not yet looked at. -/
def isReceived (c : Call) : Bool :=
  match c.pc with
  | .received => true
  | _ => false

def isDone (c : Call) : Bool :=
  match c.pc with
  | .done _ => true
  | _ => false

def answer (c : Call) : Option AppendResponse :=
  match c.pc with
  | .done resp => resp
  | _ => none

/-- Let past the term check, and not refused since. -/
def Accepted (c : Call) : Prop :=
  match c.pc with
  | .received => False
  | .done none => False
  | .done (some resp) => resp.status = .ok
  | _ => True

/-- The process ends under the call. -/
def kill (c : Call) : Call :=
  if c.isDone then c else { c with pc := .done none }

end Call

/-! ## The node and its calls -/

structure Server where
  node : Node
  calls : List Call
  /-- Every vote given so far, to others and to itself. -/
  ballots : List (Term × NodeId)

inductive ServerAction where
  | call (kind : CallKind) (req : AppendRequest)
  /-- Call number `k` takes its next step. -/
  | proceed (k : Nat) (acks : List PeerAck)
  | vote (term : Term) (candidate : NodeId)
  | startElection
  /-- A peer's grant comes back. -/
  | voteGranted (sender : NodeId) (term : Term)
  /-- The process is stopped and started again on the same directory. -/
  | restart

namespace Server

def start (storage : WalStorage) (nodeId : NodeId) (members : List NodeId) : Server :=
  ⟨⟨storage, Consensus.new nodeId members⟩, [], []⟩

def term (s : Server) : Term := s.node.consensus.term

def step (s : Server) : ServerAction → Server
  | .call kind req => { s with calls := s.calls ++ [⟨kind, req, .received⟩] }
  | .proceed k acks =>
    match s.calls[k]? with
    | some c =>
      { s with
        node := (c.next s.node acks).1
        calls := s.calls.set k { c with pc := (c.next s.node acks).2 } }
    | none => s
  | .vote term candidate =>
    { s with
      node := (s.node.handleVote term candidate).1
      ballots :=
        if (s.node.handleVote term candidate).2 then s.ballots ++ [(term, candidate)]
        else s.ballots }
  | .startElection =>
    let c := s.node.consensus.startElection
    { s with node := { s.node with consensus := c }, ballots := s.ballots ++ [(c.term, c.nodeId)] }
  | .voteGranted sender term =>
    { s with
      node := { s.node with consensus := s.node.consensus.handleVoteGranted sender term } }
  | .restart => ⟨s.node.restart, s.calls.map Call.kill, s.ballots⟩

def after (s : Server) (acts : List ServerAction) : Server := run step s acts

end Server

/-! ## Terms -/

namespace Call

variable {n : Node} {c : Call} {acks : List PeerAck}

theorem recordAcks_consensus (n : Node) (acks : List PeerAck) :
    (n.recordAcks acks).storage = n.storage ∧
      (n.recordAcks acks).consensus.term = n.consensus.term ∧
      (n.recordAcks acks).consensus.votedFor = n.consensus.votedFor := by
  exact Node.recordAcks_induction (P := fun m => m.storage = n.storage ∧
    m.consensus.term = n.consensus.term ∧ m.consensus.votedFor = n.consensus.votedFor)
    ⟨rfl, rfl, rfl⟩ fun _ _ _ hm => hm

theorem store_consensus {n' : Node} (h : n.store c.req = .ok n') : n'.consensus = n.consensus := by
  obtain ⟨s, _, rfl⟩ := Node.store_ok h
  rfl

/-- No step of a call touches the term or the vote. -/
theorem next_term (n : Node) (c : Call) (acks : List PeerAck) :
    (c.next n acks).1.consensus.term = n.consensus.term ∧
      (c.next n acks).1.consensus.votedFor = n.consensus.votedFor := by
  unfold next
  split
  · split <;> exact ⟨rfl, rfl⟩
  · split
    · next hs => rw [store_consensus hs]; exact ⟨rfl, rfl⟩
    · exact ⟨rfl, rfl⟩
  · split <;> exact ⟨rfl, rfl⟩
  · exact ⟨rfl, rfl⟩
  · exact (recordAcks_consensus n _).2
  · exact ⟨rfl, rfl⟩

/-- A request behind the node's term is turned away, and that is all. -/
theorem next_of_stale (hpc : c.isReceived = true) (hterm : c.req.term < n.consensus.term) :
    c.next n acks
      = (n, .done (some ⟨.staleTerm, n.consensus.term, n.storage.flushLsn, n.commitLsn⟩)) := by
  unfold isReceived at hpc
  unfold next
  split at hpc
  · next hr =>
    rw [hr]
    simp only [Node.staleReply, if_pos hterm]
  · simp at hpc

theorem next_of_done (hpc : c.isDone = true) : c.next n acks = (n, c.pc) := by
  unfold isDone at hpc
  unfold next
  split at hpc
  · next hr => rw [hr]
  · simp at hpc

end Call

namespace Server

variable {s : Server}

/-- The steps after which the term and the vote can be other than they should: a
restart that finds anything to forget, and an election past the last term. -/
def Remembers (s : Server) : ServerAction → Prop
  | .startElection => s.term ≠ Term.last
  | .restart => s.term = 0 ∧ s.node.consensus.votedFor = none
  | _ => True

instance (s : Server) (a : ServerAction) : Decidable (s.Remembers a) := by
  cases a <;> unfold Remembers <;> infer_instance

theorem term_le_step {a : ServerAction} (h : s.Remembers a) : s.term ≤ (s.step a).term := by
  cases a with
  | call kind req => exact le_refl _
  | proceed k acks =>
    simp only [step]
    split
    · next c _ => exact le_of_eq (Call.next_term s.node c acks).1.symm
    · exact le_refl _
  | vote term candidate =>
    simp only [step, Server.term, Node.handleVote]
    rcases s.node.consensus.handleVoteRequest_cases term candidate with
      ⟨hlt, heq⟩ | ⟨_, _, heq⟩ | heq
    · rw [heq]
      exact hlt.le
    · rw [heq]
    · rw [heq]
  | startElection =>
    simp only [step, Server.term, Consensus.startElection_eq]
    exact (Term.lt_succ h).le
  | voteGranted sender term =>
    simp only [step, Server.term]
    rcases s.node.consensus.handleVoteGranted_cases sender term with heq | ⟨_, _, heq⟩
    · rw [heq]
    · rw [heq]
  | restart =>
    have hzero : (s.step .restart).term = 0 := rfl
    rw [hzero, h.1]

theorem term_le_after {s₀ : Server} {pre post : List ServerAction}
    (h : Along (fun pre a => (s₀.after pre).Remembers a) (pre ++ post)) :
    (s₀.after pre).term ≤ (s₀.after (pre ++ post)).term := by
  induction post using List.reverseRecOn with
  | nil => rw [List.append_nil]
  | append_singleton post a ih =>
    rw [← List.append_assoc] at h ⊢
    obtain ⟨hpre, ha⟩ := along_concat.mp h
    rw [Server.after, Server.after, run_concat]
    exact (ih hpre).trans (term_le_step ha)

end Server

/-! ## One vote per term -/

namespace Server

/-- The node never gave two votes in one term and its term never went back. -/
def VotesKept (s₀ : Server) (acts : List ServerAction) : Prop :=
  (∀ t c c', (t, c) ∈ (s₀.after acts).ballots → (t, c') ∈ (s₀.after acts).ballots → c = c') ∧
    ∀ pre, pre <+: acts → (s₀.after pre).term ≤ (s₀.after acts).term

/-- What the node remembers is a ledger of its votes. -/
def Voted (s : Server) : Prop :=
  Ledger s.term s.node.consensus.votedFor fun t c => (t, c) ∈ s.ballots

theorem mem_ballots_concat {s : Server} {t t' : Term} {c c' : NodeId}
    (h : (t, c) ∈ s.ballots ++ [(t', c')]) : (t, c) ∈ s.ballots ∨ t = t' ∧ c = c' := by
  rcases List.mem_append.mp h with h | h
  · exact Or.inl h
  · exact Or.inr (Prod.mk.inj (List.mem_singleton.mp h))

theorem Voted.step {s : Server} (h : s.Voted) {a : ServerAction} (ha : s.Remembers a) :
    (s.step a).Voted := by
  cases a with
  | call kind req => exact h
  | proceed k acks =>
    simp only [Server.step]
    split
    · next c _ =>
      obtain ⟨hterm, hvote⟩ := Call.next_term s.node c acks
      simp only [Voted, Server.term, hterm, hvote]
      exact h
    · exact h
  | vote term candidate =>
    simp only [Server.step, Node.handleVote]
    rcases s.node.consensus.handleVoteRequest_cases term candidate with
      ⟨hlt, heq⟩ | ⟨hterm, hfree, heq⟩ | heq
    · simp only [heq, if_true]
      exact (Ledger.advance h none hlt).grant (Or.inl rfl) mem_ballots_concat
    · simp only [heq, if_true]
      subst hterm
      exact Ledger.grant h hfree mem_ballots_concat
    · simp only [heq, Bool.false_eq_true, if_false]
      exact h
  | startElection =>
    simp only [Server.step, Consensus.startElection_eq]
    exact (Ledger.advance h none (Term.lt_succ ha)).grant (Or.inl rfl) mem_ballots_concat
  | voteGranted sender term =>
    simp only [Server.step]
    rcases s.node.consensus.handleVoteGranted_cases sender term with heq | ⟨_, _, heq⟩
    · rw [heq]
      exact h
    · rw [heq]
      exact h
  | restart =>
    obtain ⟨hterm, hvote⟩ := ha
    unfold Voted at h ⊢
    rw [hterm, hvote] at h
    exact h

end Server

/-- **Votes are kept.** In every run in which the process is only restarted while it
is in term 0 and has not voted, and starts no election in the last term, it never
gives two votes in one term and its term does not decrease. -/
theorem one_vote_per_term (storage : WalStorage) (nodeId : NodeId) (members : List NodeId)
    (acts : List ServerAction)
    (h : Along (fun pre a => ((Server.start storage nodeId members).after pre).Remembers a) acts) :
    (Server.start storage nodeId members).VotesKept acts := by
  refine ⟨?_, ?_⟩
  · have hvoted := run_invariant (I := fun _ s => Server.Voted s)
      (Ledger.of_none fun _ _ => List.not_mem_nil) (fun _ _ _ ha hs => hs.step ha) acts h
    exact fun t c c' => hvoted.unique
  · intro pre hpre
    obtain ⟨post, rfl⟩ := hpre
    exact Server.term_le_after h

/-- Node `1` of three, on an empty directory. -/
def freshServer : Server := Server.start (WalStorage.new (.small 4)) 1 [1, 2, 3]

/-- A vote, and then an election of its own. -/
theorem one_vote_per_term_sample :
    (freshServer.after [.restart, .vote 3 2, .vote 3 3, .startElection]).ballots = [(3, 2), (4, 1)] ∧
      freshServer.VotesKept [.restart, .vote 3 2, .vote 3 3, .startElection] :=
  ⟨by decide, one_vote_per_term _ 1 [1, 2, 3] _ (by decide)⟩

/-- A restart between two vote requests of term 3 forgets the first vote and the
term. -/
theorem two_votes_after_restart :
    ¬ freshServer.VotesKept [.vote 3 2, .restart, .vote 3 3] ∧
      (freshServer.after [.vote 3 2, .restart]).term < (freshServer.after [.vote 3 2]).term := by
  refine ⟨?_, by decide⟩
  intro h
  exact absurd (h.1 3 2 3 (by decide) (by decide)) (by decide)

/-! ## Fencing by the term of a request -/

namespace Call

/-- A call past its check has a term that the check saw and the node still has. -/
def Within (term : Term) (c : Call) : Prop :=
  match c.pc with
  | .received => True
  | .checked seen => c.req.term ≤ seen ∧ seen ≤ term
  | .stored seen _ => c.req.term ≤ seen ∧ seen ≤ term
  | .recorded _ => c.req.term ≤ term
  | .replicated _ _ => c.req.term ≤ term
  | .done none => True
  | .done (some resp) => resp.status = .ok → c.req.term ≤ resp.term ∧ resp.term ≤ term

theorem Within.mono {term term' : Term} {c : Call} (h : c.Within term) (hle : term ≤ term') :
    c.Within term' := by
  unfold Within at h ⊢
  split
  · trivial
  · next hpc => rw [hpc] at h; exact ⟨h.1, h.2.trans hle⟩
  · next hpc => rw [hpc] at h; exact ⟨h.1, h.2.trans hle⟩
  · next hpc => rw [hpc] at h; exact le_trans h hle
  · next hpc => rw [hpc] at h; exact le_trans h hle
  · trivial
  · next hpc =>
    rw [hpc] at h
    exact fun hs => ⟨(h hs).1, (h hs).2.trans hle⟩

theorem Within.accepted {term : Term} {c : Call} (h : c.Within term) (ha : c.Accepted) :
    c.req.term ≤ term := by
  unfold Within at h
  unfold Accepted at ha
  split at h
  · next hpc => rw [hpc] at ha; exact absurd ha id
  · exact h.1.trans h.2
  · exact h.1.trans h.2
  · exact h
  · exact h
  · next hpc => rw [hpc] at ha; exact absurd ha id
  · next hpc => rw [hpc] at ha; exact (h ha).1.trans (h ha).2

theorem Within.answer {term : Term} {c : Call} (h : c.Within term) {resp : AppendResponse}
    (hans : c.answer = some resp) (hok : resp.status = .ok) : c.req.term ≤ resp.term := by
  unfold Call.answer at hans
  split at hans
  · next hpc =>
    subst hans
    rw [Within, hpc] at h
    exact (h hok).1
  · simp at hans

/-- A step keeps a call within the node's term if its check does not let a later
term pass. -/
theorem Within.next {n : Node} {c : Call} (h : c.Within n.consensus.term) (acks : List PeerAck)
    (hknown : c.isReceived = true → c.req.term ≤ n.consensus.term) :
    Within n.consensus.term { c with pc := (c.next n acks).2 } := by
  unfold Within at h
  unfold Call.next
  split
  · next hpc =>
    rw [isReceived, hpc] at hknown
    split
    · next hs =>
      -- an early answer is a refusal
      rw [(Node.staleReply_some hs).2]
      exact fun hc => absurd hc (by simp)
    · exact ⟨hknown rfl, le_refl _⟩
  · next hpc =>
    rw [hpc] at h
    split
    · exact h
    · trivial
  · next hpc =>
    rw [hpc] at h
    dsimp only
    split
    · exact h.1.trans h.2
    · exact fun _ => h
  · next hpc =>
    rw [hpc] at h
    exact h
  · next acks' hpc =>
    rw [hpc] at h
    intro _
    simp only [(recordAcks_consensus n acks').2.1]
    exact ⟨h, le_refl _⟩
  · next hpc =>
    rw [hpc] at h
    exact h

end Call

namespace Server

/-- No request with a term that the node has not heard of comes to its check, and
nothing takes the node's term back. -/
def TermKnown (s : Server) : ServerAction → Prop
  | .proceed k _ =>
    match s.calls[k]? with
    | some c => c.isReceived = true → c.req.term ≤ s.term
    | none => True
  | .startElection => s.term ≠ Term.last
  | .restart => False
  | _ => True

instance (s : Server) (a : ServerAction) : Decidable (s.TermKnown a) := by
  cases a with
  | proceed k acks => unfold TermKnown; dsimp only; split <;> infer_instance
  | _ => unfold TermKnown; infer_instance

theorem TermKnown.remembers {s : Server} {a : ServerAction} (h : s.TermKnown a) :
    s.Remembers a := by
  cases a with
  | restart => exact absurd h id
  | startElection => exact h
  | _ => trivial

/-- Every success carries a term at least that of the request; and once a request
was accepted, one of an earlier term that comes to its check is answered as
stale, with no other effect. -/
def AppendsFenced (s₀ : Server) (acts : List ServerAction) : Prop :=
  (∀ c ∈ (s₀.after acts).calls, ∀ resp, c.answer = some resp → resp.status = .ok →
      c.req.term ≤ resp.term) ∧
    ∀ pre, pre <+: acts → ∀ c ∈ (s₀.after pre).calls, c.Accepted →
      ∀ k c', (s₀.after acts).calls[k]? = some c' → c'.isReceived = true →
        c'.req.term < c.req.term → ∀ acks, ∃ resp, resp.status = .staleTerm ∧
          (s₀.after acts).step (.proceed k acks) = { s₀.after acts with
            calls := (s₀.after acts).calls.set k { c' with pc := .done (some resp) } }

/-- A request behind the node's term is answered, and the node is left as it is. -/
theorem proceed_of_stale {s : Server} {k : Nat} {c : Call} (hc : s.calls[k]? = some c)
    (hrecv : c.isReceived = true) (hlt : c.req.term < s.term) (acks : List PeerAck) :
    ∃ resp : AppendResponse, resp.status = .staleTerm ∧ s.step (.proceed k acks) = { s with
      calls := s.calls.set k { c with pc := .done (some resp) } } := by
  refine ⟨⟨.staleTerm, s.term, s.node.storage.flushLsn, s.node.commitLsn⟩, rfl, ?_⟩
  simp only [step, hc, Call.next_of_stale hrecv hlt, Server.term]

theorem within_step {s : Server} (h : ∀ c ∈ s.calls, c.Within s.term) {a : ServerAction}
    (ha : s.TermKnown a) : ∀ c ∈ (s.step a).calls, c.Within (s.step a).term := by
  have hle := term_le_step ha.remembers
  have hkept : ∀ c ∈ s.calls, c.Within (s.step a).term := fun c hc => (h c hc).mono hle
  cases a with
  | call kind req =>
    intro c hc
    rcases List.mem_append.mp hc with hc | hc
    · exact hkept c hc
    · rw [List.mem_singleton.mp hc]
      trivial
  | proceed k acks =>
    simp only [step, TermKnown, Server.term] at ha hkept ⊢
    split
    · next c hc =>
      rw [hc] at ha hkept
      dsimp only at ha hkept ⊢
      intro c' hc'
      rcases List.mem_or_eq_of_mem_set hc' with hc' | rfl
      · exact hkept c' hc'
      · rw [(Call.next_term s.node c acks).1]
        exact (h c (List.mem_of_getElem? hc)).next acks ha
    · exact h
  | restart => exact absurd ha id
  | _ => exact hkept

end Server

/-- **Appends are fenced by their terms** in every run without a restart in which no
request comes to its term check with a term above the node's, and no election is
started in the last term. -/
theorem appends_fenced_by_term (storage : WalStorage) (nodeId : NodeId) (members : List NodeId)
    (acts : List ServerAction)
    (h : Along (fun pre a => ((Server.start storage nodeId members).after pre).TermKnown a) acts) :
    (Server.start storage nodeId members).AppendsFenced acts := by
  have hwithin : ∀ pre, pre <+: acts → ∀ c ∈ ((Server.start storage nodeId members).after pre).calls,
      c.Within ((Server.start storage nodeId members).after pre).term := by
    intro pre hpre
    obtain ⟨post, rfl⟩ := hpre
    exact run_invariant (I := fun _ (s : Server) => ∀ c ∈ s.calls, c.Within s.term)
      (fun c hc => absurd hc List.not_mem_nil) (fun _ _ _ ha hs => Server.within_step hs ha) pre
      h.of_append
  refine ⟨?_, ?_⟩
  · intro c hc resp hans hok
    exact (hwithin acts (List.prefix_refl _) c hc).answer hans hok
  · intro pre hpre c hc hacc k c' hc' hrecv hlt acks
    have hbelow := (hwithin pre hpre c hc).accepted hacc
    obtain ⟨post, rfl⟩ := hpre
    have hgrown := Server.term_le_after (h.mono fun _ _ ha => ha.remembers)
    exact Server.proceed_of_stale hc' hrecv (lt_of_lt_of_le hlt (hbelow.trans hgrown)) acks

/-- A one-byte run from a proposer of `term`. -/
def runOfTerm (term : Term) (lsn : Lsn) : AppendRequest :=
  ⟨TenantId.ZERO, TimelineId.ZERO, term, lsn, [1]⟩

/-- Call number `k`, from its arrival to its answer, with no peer to hear from. -/
def wholeCall (k : Nat) (kind : CallKind) (req : AppendRequest) : List ServerAction :=
  .call kind req :: List.replicate 5 (.proceed k [])

/-- An append of term 3 on a node that voted in term 3, and a late one of term 2. -/
theorem appends_fenced_by_term_sample :
    ((freshServer.after (.vote 3 2 :: wholeCall 0 .append (runOfTerm 3 8)
        ++ wholeCall 1 .replicate (runOfTerm 2 9))).calls.map Call.answer
      = [some ⟨.ok, 3, 9, 0⟩, some ⟨.staleTerm, 3, 9, 0⟩]) ∧
      freshServer.AppendsFenced (.vote 3 2 :: wholeCall 0 .append (runOfTerm 3 8)
        ++ wholeCall 1 .replicate (runOfTerm 2 9)) :=
  ⟨by decide, appends_fenced_by_term _ 1 [1, 2, 3] _ (by decide)⟩

/-- A node in term 0 takes an append of term 5, answers with term 0, and then takes
one of term 3. -/
theorem append_of_unknown_term :
    ¬ freshServer.AppendsFenced (wholeCall 0 .append (runOfTerm 5 8)) ∧
      (freshServer.after (wholeCall 0 .append (runOfTerm 5 8)
        ++ wholeCall 1 .append (runOfTerm 3 9))).calls.map Call.answer
        = [some ⟨.ok, 0, 9, 0⟩, some ⟨.ok, 0, 10, 0⟩] := by
  refine ⟨?_, by decide⟩
  intro h
  have hterm := h.1 ⟨.append, runOfTerm 5 8, .done (some ⟨.ok, 0, 9, 0⟩)⟩ ?_ _ rfl rfl
  · exact absurd hterm (by decide)
  · exact List.mem_singleton.mpr rfl

/-! ## Fencing by a granted vote -/

namespace Call

/-- Not between its term check and its end. -/
def outside (c : Call) : Bool := c.isReceived || c.isDone

theorem outside_next {n : Node} {c : Call} (acks : List PeerAck) (h : c.outside = true)
    (hterm : c.req.term < n.consensus.term) :
    (c.next n acks).1 = n ∧ outside { c with pc := (c.next n acks).2 } = true ∧
      ∀ resp, answer { c with pc := (c.next n acks).2 } = some resp → resp.status = .ok →
        c.answer = some resp := by
  rcases Bool.or_eq_true_iff.mp h with hr | hd
  · rw [next_of_stale hr hterm]
    refine ⟨rfl, rfl, ?_⟩
    intro resp hresp hok
    rw [← Option.some.inj hresp] at hok
    simp at hok
  · rw [next_of_done hd]
    exact ⟨rfl, h, fun resp hresp _ => hresp⟩

end Call

namespace Server

/-- No call of an earlier term is past its check when a vote is granted, and nothing
takes the node's term back. -/
def Quiet (s : Server) : ServerAction → Prop
  | .vote term candidate => (s.node.handleVote term candidate).2 = true →
      ∀ c ∈ s.calls, c.req.term < term → c.outside = true
  | .startElection => s.term ≠ Term.last
  | .restart => False
  | _ => True

instance (s : Server) (a : ServerAction) : Decidable (s.Quiet a) := by
  cases a <;> unfold Quiet <;> infer_instance

theorem Quiet.remembers {s : Server} {a : ServerAction} (h : s.Quiet a) : s.Remembers a := by
  cases a with
  | restart => exact absurd h id
  | startElection => exact h
  | _ => trivial

/-- Once a vote is granted for a term, a step of a call of an earlier term neither
changes the store nor answers with success. -/
def VoteFences (s₀ : Server) (acts : List ServerAction) : Prop :=
  ∀ pre term candidate mid k acks rest,
    acts = pre ++ .vote term candidate :: mid ++ .proceed k acks :: rest →
    ((s₀.after pre).node.handleVote term candidate).2 = true →
    let s := s₀.after (pre ++ .vote term candidate :: mid)
    ∀ c, s.calls[k]? = some c → c.req.term < term →
      (s.step (.proceed k acks)).node.storage = s.node.storage ∧
        ∀ c', (s.step (.proceed k acks)).calls[k]? = some c' →
          ∀ resp, c'.answer = some resp → resp.status = .ok → c.answer = some resp

/-- The node has reached `term`, and calls of earlier terms are outside. -/
structure Fenced (s : Server) (term : Term) : Prop where
  reached : term ≤ s.term
  calls : ∀ c ∈ s.calls, c.req.term < term → c.outside = true

/-- A granted vote brings the node to its term. -/
theorem fenced_vote {s : Server} {term : Term} {candidate : NodeId}
    (h : s.Quiet (.vote term candidate)) (hgrant : (s.node.handleVote term candidate).2 = true) :
    (s.step (.vote term candidate)).Fenced term := by
  refine ⟨?_, h hgrant⟩
  simp only [step, Server.term, Node.handleVote] at hgrant ⊢
  rcases s.node.consensus.handleVoteRequest_cases term candidate with
    ⟨_, heq⟩ | ⟨hterm, _, heq⟩ | heq
  · rw [heq]
  · rw [heq]
    exact le_of_eq hterm.symm
  · rw [heq] at hgrant
    simp at hgrant

theorem Fenced.step {s : Server} {term : Term} (h : s.Fenced term) {a : ServerAction}
    (ha : s.Quiet a) : (s.step a).Fenced term := by
  refine ⟨h.reached.trans (term_le_step ha.remembers), ?_⟩
  cases a with
  | call kind req =>
    intro c hc hlt
    rcases List.mem_append.mp hc with hc | hc
    · exact h.calls c hc hlt
    · rw [List.mem_singleton.mp hc]
      rfl
  | proceed k acks =>
    simp only [Server.step]
    split
    · next c hc =>
      intro c' hc' hlt
      rcases List.mem_or_eq_of_mem_set hc' with hc' | rfl
      · exact h.calls c' hc' hlt
      · exact (Call.outside_next acks (h.calls c (List.mem_of_getElem? hc) hlt)
          (lt_of_lt_of_le hlt h.reached)).2.1
    · exact h.calls
  | restart => exact absurd ha id
  | _ => exact h.calls

/-- From a granted vote on, the calls of earlier terms stay outside. -/
theorem fenced_after {s₀ : Server} {pre mid : List ServerAction} {term : Term} {candidate : NodeId}
    (h : Along (fun pre a => (s₀.after pre).Quiet a) (pre ++ .vote term candidate :: mid))
    (hgrant : ((s₀.after pre).node.handleVote term candidate).2 = true) :
    (s₀.after (pre ++ .vote term candidate :: mid)).Fenced term := by
  induction mid using List.reverseRecOn with
  | nil =>
    obtain ⟨_, hvote⟩ := along_concat.mp h
    rw [Server.after, run_concat]
    exact fenced_vote hvote hgrant
  | append_singleton mid a ih =>
    rw [← List.cons_append, ← List.append_assoc] at h ⊢
    obtain ⟨hmid, ha⟩ := along_concat.mp h
    rw [Server.after, run_concat]
    exact (ih hmid).step ha

end Server

/-- **A granted vote fences older proposers** in every run without a restart in which
no call of an earlier term is past its check when the vote is granted, and no
election is started in the last term. -/
theorem vote_fences_older_calls (storage : WalStorage) (nodeId : NodeId) (members : List NodeId)
    (acts : List ServerAction)
    (h : Along (fun pre a => ((Server.start storage nodeId members).after pre).Quiet a) acts) :
    (Server.start storage nodeId members).VoteFences acts := by
  intro pre term candidate mid k acks rest hacts hgrant s c hc hlt
  have hfenced : s.Fenced term := by
    rw [hacts] at h
    exact Server.fenced_after h.of_append hgrant
  have hnext := Call.outside_next acks (hfenced.calls c (List.mem_of_getElem? hc) hlt)
    (lt_of_lt_of_le hlt hfenced.reached)
  have hstep : s.step (.proceed k acks) = { s with
      node := (c.next s.node acks).1
      calls := s.calls.set k { c with pc := (c.next s.node acks).2 } } := by
    simp only [Server.step, hc]
  rw [hstep]
  refine ⟨by rw [hnext.1], ?_⟩
  intro c' hc' resp hans hok
  have hlen := (List.getElem?_eq_some_iff.mp hc).1
  rw [List.getElem?_set_self hlen] at hc'
  rw [← Option.some.inj hc'] at hans
  exact hnext.2.2 resp hans hok

/-- An append of term 0 that is through when the vote is granted, and another that
has not come to its check. -/
theorem vote_fences_older_calls_sample :
    ((freshServer.after (wholeCall 0 .append (runOfTerm 0 8) ++ [.call .append (runOfTerm 0 9),
        .vote 1 2, .proceed 1 []])).calls.map Call.answer
      = [some ⟨.ok, 0, 9, 0⟩, some ⟨.staleTerm, 1, 9, 0⟩]) ∧
      freshServer.VoteFences (wholeCall 0 .append (runOfTerm 0 8) ++ [.call .append (runOfTerm 0 9),
        .vote 1 2, .proceed 1 []]) :=
  ⟨by decide +kernel, vote_fences_older_calls _ 1 [1, 2, 3] _ (by decide +kernel)⟩

/-- An append of term 0 passes its check, the node votes in term 1, and the append is
stored all the same and answered with success. -/
theorem append_stored_after_vote :
    ¬ freshServer.VoteFences
        [.call .append (runOfTerm 0 8), .proceed 0 [], .vote 1 2, .proceed 0 []] ∧
      (freshServer.after [.call .append (runOfTerm 0 8), .proceed 0 [], .vote 1 2, .proceed 0 [],
        .proceed 0 [], .proceed 0 [], .proceed 0 []]).calls.map Call.answer
        = [some ⟨.ok, 1, 9, 0⟩] := by
  refine ⟨?_, by decide⟩
  intro h
  have hsame := (h [.call .append (runOfTerm 0 8), .proceed 0 []] 1 2 [] 0 [] [] rfl (by decide)
    ⟨.append, runOfTerm 0 8, .checked 0⟩ rfl (by decide)).1
  exact absurd (congrArg WalStorage.flushLsn hsame) (by decide)

end AethelDB.Safekeeper
