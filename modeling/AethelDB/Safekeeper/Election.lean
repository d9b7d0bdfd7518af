import AethelDB.Lib.Ballot
import AethelDB.Lib.Run
import AethelDB.Safekeeper.Consensus

/-!
# Elections over a lossy network

`Consensus` nodes of one group, connected by a network that may delay, reorder,
lose and repeat messages. A candidate that starts an election sends one vote
request, which is then delivered to any member any number of times, or never; a
member that grants it sends a grant back, which is delivered to the candidate in
the same way. Messages are therefore never removed: `requests` and `grants` are
all that were ever sent.

That history is also the record of who voted for whom. A member has cast a ballot
if it sent a grant, or started the election itself (`Cast`). `Inv` says that each
member's `term` and `voted_for` are a `Ledger` of its ballots and that the votes a
candidate has counted were cast; a leader has counted a majority, and two
majorities share a member.

The one thing that can break it is the counter: `start_election` adds one to a
64-bit term, and after the last term it begins again at zero, with terms in
which votes were cast before (`two_leaders_after_wrap`).
-/

namespace AethelDB.Safekeeper

open AethelDB.Lib

/-- A vote for `candidate` in `term`, granted by `voter`. -/
structure Ballot where
  voter : NodeId
  candidate : NodeId
  term : Term
deriving DecidableEq

/-- The nodes of a group and every election message sent so far. -/
structure Election where
  nodes : NodeId → Consensus
  /-- Vote requests: the candidate and its term. -/
  requests : List (NodeId × Term)
  grants : List Ballot

inductive ElectionAction where
  /-- Node `i` starts an election. -/
  | start (i : NodeId)
  /-- A vote request of `candidate` reaches `voter`. -/
  | request (candidate : NodeId) (term : Term) (voter : NodeId)
  /-- A grant reaches its candidate. -/
  | grant (b : Ballot)

namespace Election

variable {members : List NodeId}

def new (members : List NodeId) : Election := ⟨fun i => Consensus.new i members, [], []⟩

def setNode (e : Election) (i : NodeId) (c : Consensus) : Election :=
  { e with nodes := Function.update e.nodes i c }

/-- One step. Elections are started by members and requests delivered to members;
what was never sent is not delivered. -/
def step (members : List NodeId) (e : Election) : ElectionAction → Election
  | .start i =>
    if i ∈ members then
      let c := (e.nodes i).startElection
      { e.setNode i c with requests := e.requests ++ [(i, c.term)] }
    else e
  | .request candidate term voter =>
    if voter ∈ members ∧ (candidate, term) ∈ e.requests then
      let r := (e.nodes voter).handleVoteRequest term candidate
      { e.setNode voter r.1 with
        grants := if r.2 then e.grants ++ [⟨voter, candidate, term⟩] else e.grants }
    else e
  | .grant b =>
    if b ∈ e.grants then
      e.setNode b.candidate ((e.nodes b.candidate).handleVoteGranted b.voter b.term)
    else e

def after (members : List NodeId) (acts : List ElectionAction) : Election :=
  run (step members) (new members) acts

/-- Node `i` is leader in `term`. -/
def Leads (e : Election) (i : NodeId) (term : Term) : Prop :=
  (e.nodes i).role = .leader ∧ (e.nodes i).term = term

instance (e : Election) (i : NodeId) (term : Term) : Decidable (e.Leads i term) :=
  inferInstanceAs (Decidable (_ ∧ _))

/-- Over a whole run no term has two leaders, at once or one after the other. -/
def OneLeaderPerTerm (members : List NodeId) (acts : List ElectionAction) : Prop :=
  ∀ pre pre', pre <+: acts → pre' <+: acts → ∀ i j term,
    (after members pre).Leads i term → (after members pre').Leads j term → i = j

/-- No election is started in the last term. -/
def TermLeft (e : Election) : ElectionAction → Prop
  | .start i => (e.nodes i).term ≠ Term.last
  | _ => True

instance (e : Election) (a : ElectionAction) : Decidable (e.TermLeft a) := by
  cases a <;> unfold TermLeft <;> infer_instance

/-! ## Ballots -/

variable {e : Election}

/-- `voter` has voted for `candidate` in `term`. -/
def Cast (e : Election) (voter : NodeId) (term : Term) (candidate : NodeId) : Prop :=
  ⟨voter, candidate, term⟩ ∈ e.grants ∨ voter = candidate ∧ (candidate, term) ∈ e.requests

/-- Messages are not taken back by a step. -/
theorem step_sends (e : Election) (a : ElectionAction) :
    (∀ r ∈ e.requests, r ∈ (e.step members a).requests) ∧
      ∀ b ∈ e.grants, b ∈ (e.step members a).grants := by
  cases a with
  | start i =>
    simp only [step]
    split
    · exact ⟨fun r hr => List.mem_append_left _ hr, fun b hb => hb⟩
    · exact ⟨fun r hr => hr, fun b hb => hb⟩
  | request candidate term voter =>
    simp only [step]
    split
    · refine ⟨fun r hr => hr, ?_⟩
      intro b hb
      dsimp only
      split
      · exact List.mem_append_left _ hb
      · exact hb
    · exact ⟨fun r hr => hr, fun b hb => hb⟩
  | grant b =>
    simp only [step]
    split
    · exact ⟨fun r hr => hr, fun b hb => hb⟩
    · exact ⟨fun r hr => hr, fun b hb => hb⟩

theorem Cast.step {v c : NodeId} {t : Term} (h : e.Cast v t c) (a : ElectionAction) :
    (e.step members a).Cast v t c := by
  rcases h with h | ⟨hv, h⟩
  · exact Or.inl ((step_sends e a).2 _ h)
  · exact Or.inr ⟨hv, (step_sends e a).1 _ h⟩

theorem Cast.run {v c : NodeId} {t : Term} :
    ∀ {acts : List ElectionAction} {e : Election}, e.Cast v t c →
      (run (Election.step members) e acts).Cast v t c := by
  intro acts
  induction acts with
  | nil => exact fun h => h
  | cons a acts ih => exact fun h => ih (h.step a)

/-! ## The invariant -/

/-- A node that knows who it is and how large a majority is, whose memory is a
ledger of its ballots, and whose counted votes were cast. -/
structure NodeOk (members : List NodeId) (e : Election) (i : NodeId) (c : Consensus) : Prop where
  identity : c.nodeId = i
  quorum : c.quorum = members.length / 2 + 1
  ledger : Ledger c.term c.votedFor (e.Cast i)
  counted : c.role ≠ .follower → ∀ v ∈ c.votes, v ∈ members ∧ e.Cast v c.term i
  majority : c.role = .leader → c.quorum ≤ c.votes.card

structure Inv (members : List NodeId) (e : Election) : Prop where
  voters : ∀ b ∈ e.grants, b.voter ∈ members
  nodes : ∀ i, NodeOk members e i (e.nodes i)

theorem inv_new (members : List NodeId) : (new members).Inv members := by
  refine ⟨nofun, ?_⟩
  intro i
  refine ⟨rfl, rfl, Ledger.of_none ?_, fun h => absurd rfl h, ?_⟩
  · intro t c h
    rcases h with h | ⟨_, h⟩
    · nomatch h
    · nomatch h
  · intro h
    simp [new, Consensus.new] at h

/-- A step that changes node `i` only and casts no ballots but those of `i` has to
be checked at `i` only. -/
theorem Inv.update {e' : Election} (h : e.Inv members) {i : NodeId} {c : Consensus}
    (hnodes : e'.nodes = Function.update e.nodes i c)
    (hold : ∀ {v t x}, e.Cast v t x → e'.Cast v t x)
    (hnew : ∀ {v t x}, v ≠ i → e'.Cast v t x → e.Cast v t x)
    (hvoters : ∀ b ∈ e'.grants, b.voter ∈ members) (hi : NodeOk members e' i c) :
    e'.Inv members := by
  refine ⟨hvoters, ?_⟩
  intro j
  rw [hnodes]
  by_cases hj : j = i
  · subst hj
    rw [Function.update_self]
    exact hi
  · rw [Function.update_of_ne hj]
    have hn := h.nodes j
    refine ⟨hn.identity, hn.quorum, hn.ledger.mono (hnew hj), ?_, hn.majority⟩
    intro hr v hv
    exact ⟨(hn.counted hr v hv).1, hold (hn.counted hr v hv).2⟩

/-- Node `i` casts a ballot for `x`, in a later term or in its current one if that
is still free. -/
theorem Inv.cast {e' : Election} (h : e.Inv members) {i x : NodeId} {c : Consensus}
    (hnodes : e'.nodes = Function.update e.nodes i c)
    (hcast : ∀ {v t y}, e'.Cast v t y ↔ e.Cast v t y ∨ v = i ∧ t = c.term ∧ y = x)
    (hvoters : ∀ b ∈ e'.grants, b.voter ∈ members)
    (hfree : (e.nodes i).term < c.term ∨ (e.nodes i).term = c.term ∧
      ((e.nodes i).votedFor = none ∨ (e.nodes i).votedFor = some x)) (hvoted : c.votedFor = some x)
    (hid : c.nodeId = (e.nodes i).nodeId) (hquorum : c.quorum = (e.nodes i).quorum)
    (hcounted : c.role ≠ .follower → ∀ v ∈ c.votes, v ∈ members ∧ e'.Cast v c.term i)
    (hmajority : c.role = .leader → c.quorum ≤ c.votes.card) : e'.Inv members := by
  have hn := h.nodes i
  have hnew : ∀ {t y}, e'.Cast i t y → e.Cast i t y ∨ t = c.term ∧ y = x := by
    intro t y hc
    rcases hcast.mp hc with hc | ⟨_, hc⟩
    · exact Or.inl hc
    · exact Or.inr hc
  refine h.update hnodes (fun hc => hcast.mpr (Or.inl hc)) ?_ hvoters
    ⟨hid.trans hn.identity, hquorum.trans hn.quorum, ?_, hcounted, hmajority⟩
  · intro v t y hv hc
    exact (hcast.mp hc).resolve_right fun hc => hv hc.1
  · rw [hvoted]
    rcases hfree with hlt | ⟨hterm, hfree⟩
    · exact (hn.ledger.advance none hlt).grant (Or.inl rfl) hnew
    · exact (hterm ▸ hn.ledger).grant hfree hnew

/-! ## The steps -/

theorem Inv.start (h : e.Inv members) {i : NodeId} (hi : i ∈ members)
    (hleft : (e.nodes i).term ≠ Term.last) : (e.step members (.start i)).Inv members := by
  have hn := h.nodes i
  simp only [step, if_pos hi, Consensus.startElection_eq, hn.identity]
  have hcast : ∀ {c : Consensus} {v t x},
      Cast { e.setNode i c with requests := e.requests ++ [(i, (e.nodes i).term + 1)] } v t x ↔
        e.Cast v t x ∨ v = i ∧ t = (e.nodes i).term + 1 ∧ x = i := by
    intro c v t x
    simp only [Cast, setNode, List.mem_append, List.mem_singleton, Prod.mk.injEq]
    constructor
    · intro hc
      rcases hc with hc | ⟨rfl, hc | ⟨rfl, rfl⟩⟩
      · exact Or.inl (Or.inl hc)
      · exact Or.inl (Or.inr ⟨rfl, hc⟩)
      · exact Or.inr ⟨rfl, rfl, rfl⟩
    · intro hc
      rcases hc with (hc | ⟨hv, hc⟩) | ⟨rfl, rfl, rfl⟩
      · exact Or.inl hc
      · exact Or.inr ⟨hv, Or.inl hc⟩
      · exact Or.inr ⟨rfl, Or.inr ⟨rfl, rfl⟩⟩
  refine h.cast rfl hcast h.voters (Or.inl (Term.lt_succ hleft)) rfl hn.identity.symm rfl ?_ ?_
  · intro _ v hv
    rw [Finset.mem_singleton.mp hv]
    exact ⟨hi, hcast.mpr (Or.inr ⟨rfl, rfl, rfl⟩)⟩
  · intro hlead
    dsimp only at hlead ⊢
    rw [Finset.card_singleton]
    by_contra hq
    rw [if_neg hq] at hlead
    simp at hlead

theorem Inv.request (h : e.Inv members) {candidate voter : NodeId} {term : Term}
    (hv : voter ∈ members) (hsent : (candidate, term) ∈ e.requests) :
    (e.step members (.request candidate term voter)).Inv members := by
  have hn := h.nodes voter
  simp only [step, if_pos (And.intro hv hsent)]
  have hcast : ∀ {c : Consensus} {v t x},
      Cast { e.setNode voter c with grants := e.grants ++ [⟨voter, candidate, term⟩] } v t x ↔
        e.Cast v t x ∨ v = voter ∧ t = term ∧ x = candidate := by
    intro c v t x
    simp only [Cast, setNode, List.mem_append, List.mem_singleton, Ballot.mk.injEq]
    tauto
  have hvoters : ∀ b ∈ e.grants ++ [⟨voter, candidate, term⟩], b.voter ∈ members := by
    intro b hb
    rcases List.mem_append.mp hb with hb | hb
    · exact h.voters b hb
    · rw [List.mem_singleton.mp hb]
      exact hv
  rcases (e.nodes voter).handleVoteRequest_cases term candidate with
    ⟨hlt, heq⟩ | ⟨hterm, hfree, heq⟩ | heq
  · simp only [heq, if_true]
    exact h.cast rfl hcast hvoters (Or.inl hlt) rfl rfl rfl (fun hr => absurd rfl hr)
      (fun hr => absurd hr (by simp))
  · simp only [heq, if_true]
    refine h.cast rfl (by rw [hterm]; exact hcast) hvoters (Or.inr ⟨rfl, hfree⟩) rfl rfl rfl ?_
      hn.majority
    intro hr v hvv
    exact ⟨(hn.counted hr v hvv).1, hcast.mpr (Or.inl (hn.counted hr v hvv).2)⟩
  · simp only [heq, Bool.false_eq_true, if_false]
    exact h.update rfl (fun hc => hc) (fun _ hc => hc) h.voters
      ⟨hn.identity, hn.quorum, hn.ledger, hn.counted, hn.majority⟩

theorem Inv.grant (h : e.Inv members) {b : Ballot} (hb : b ∈ e.grants) :
    (e.step members (.grant b)).Inv members := by
  have hn := h.nodes b.candidate
  simp only [step, if_pos hb]
  rcases (e.nodes b.candidate).handleVoteGranted_cases b.voter b.term with
    heq | ⟨hterm, hrole, heq⟩
  · rw [heq]
    exact h.update rfl (fun hc => hc) (fun _ hc => hc) h.voters
      ⟨hn.identity, hn.quorum, hn.ledger, hn.counted, hn.majority⟩
  · rw [heq]
    refine h.update rfl (fun hc => hc) (fun _ hc => hc) h.voters
      ⟨hn.identity, hn.quorum, hn.ledger, ?_, ?_⟩
    · intro _ v hv
      rcases Finset.mem_insert.mp hv with rfl | hv
      · exact ⟨h.voters b hb, Or.inl (hterm ▸ hb)⟩
      · exact hn.counted (by rw [hrole]; simp) v hv
    · intro hlead
      dsimp only at hlead ⊢
      by_contra hq
      rw [if_neg hq] at hlead
      simp at hlead

theorem Inv.step (h : e.Inv members) {a : ElectionAction} (hleft : e.TermLeft a) :
    (e.step members a).Inv members := by
  cases a with
  | start i =>
    by_cases hi : i ∈ members
    · exact h.start hi hleft
    · simp only [Election.step, if_neg hi]
      exact h
  | request candidate term voter =>
    by_cases hc : voter ∈ members ∧ (candidate, term) ∈ e.requests
    · exact h.request hc.1 hc.2
    · simp only [Election.step, if_neg hc]
      exact h
  | grant b =>
    by_cases hb : b ∈ e.grants
    · exact h.grant hb
    · simp only [Election.step, if_neg hb]
      exact h

theorem Inv.exists_majority (h : e.Inv members) {i : NodeId} {term : Term}
    (hlead : e.Leads i term) :
    ∃ s : Finset NodeId, s ⊆ members.toFinset ∧
      members.length / 2 + 1 ≤ s.card ∧ ∀ v ∈ s, e.Cast v term i := by
  obtain ⟨hrole, rfl⟩ := hlead
  have hn := h.nodes i
  have hcounted := hn.counted (by rw [hrole]; simp)
  refine ⟨(e.nodes i).votes, ?_, hn.quorum ▸ hn.majority hrole, fun v hv => (hcounted v hv).2⟩
  intro v hv
  exact List.mem_toFinset.mpr (hcounted v hv).1

end Election

/-- **Election safety.** In every run of elections in which none is started in the
last term, however requests and grants are delayed, lost or repeated, a term has
at most one leader. -/
theorem election_safety (members : List NodeId) (acts : List ElectionAction)
    (hleft : Along (fun pre a => (Election.after members pre).TermLeft a) acts) :
    Election.OneLeaderPerTerm members acts := by
  have hinv : ∀ pre, pre <+: acts → (Election.after members pre).Inv members := by
    intro pre hpre
    obtain ⟨post, rfl⟩ := hpre
    refine run_invariant (I := fun _ e => Election.Inv members e) (Election.inv_new members) ?_ pre
      hleft.of_append
    exact fun _ _ _ hok h => h.step hok
  -- ballots of any moment are still there at the end
  have hend : ∀ {pre i term}, pre <+: acts → (Election.after members pre).Leads i term →
      ∃ s : Finset NodeId, s ⊆ members.toFinset ∧ members.length / 2 + 1 ≤ s.card ∧
        ∀ v ∈ s, (Election.after members acts).Cast v term i := by
    intro pre i term hpre hlead
    obtain ⟨s, hs, hcard, hcast⟩ := (hinv pre hpre).exists_majority hlead
    obtain ⟨post, rfl⟩ := hpre
    refine ⟨s, hs, hcard, fun v hv => ?_⟩
    rw [Election.after, run, List.foldl_append]
    exact (hcast v hv).run
  intro pre pre' hpre hpre' i j term hi hj
  obtain ⟨s, hs, hcs, hcasts⟩ := hend hpre hi
  obtain ⟨t, ht, hct, hcastt⟩ := hend hpre' hj
  obtain ⟨v, hvs, hvt⟩ := exists_mem_of_majorities hs ht hcs hct
  exact ((hinv acts (List.prefix_refl _)).nodes v).ledger.unique (hcasts v hvs) (hcastt v hvt)

/-- Two candidates of term 1, one of whom wins it. -/
theorem election_safety_two_candidates :
    (Election.after [1, 2, 3] [.start 1, .start 3, .request 1 1 2, .request 3 1 2,
      .grant ⟨2, 1, 1⟩]).Leads 1 1 ∧
    Election.OneLeaderPerTerm [1, 2, 3] [.start 1, .start 3, .request 1 1 2, .request 3 1 2,
      .grant ⟨2, 1, 1⟩] :=
  ⟨by decide +kernel, election_safety [1, 2, 3] _ (by decide +kernel)⟩

/-! ## The counter wraps -/

/-- Node `1` is elected in term 1 with the vote of node `2`; node `2` then starts
`n` elections, and asks node `3` for its vote in the last of them. -/
def wrapRun (n : Nat) : List ElectionAction :=
  [.start 1, .request 1 1 2, .grant ⟨2, 1, 1⟩] ++ List.replicate n (.start 2)
    ++ [.request 2 1 3, .grant ⟨3, 2, 1⟩]

/-- A node of a larger group that starts an election is a candidate with its own
vote. -/
theorem Election.step_start {members : List NodeId} {e : Election} {i : NodeId} (hi : i ∈ members)
    (hid : (e.nodes i).nodeId = i) (hq : ¬ (e.nodes i).quorum ≤ 1) :
    (e.step members (.start i)).nodes = Function.update e.nodes i { e.nodes i with
        term := (e.nodes i).term + 1
        role := .candidate
        votedFor := some i
        votes := {i} } ∧
      (i, (e.nodes i).term + 1) ∈ (e.step members (.start i)).requests := by
  simp only [Election.step, if_pos hi, Consensus.startElection_eq, if_neg hq, hid, Election.setNode]
  exact ⟨trivial, List.mem_append_right _ (List.mem_singleton_self _)⟩

/-- One that does so over and over stays that, and only its term moves. -/
theorem Election.run_starts {members : List NodeId} {i : NodeId} (hi : i ∈ members) :
    ∀ (n : Nat) (e : Election), (e.nodes i).nodeId = i → ¬ (e.nodes i).quorum ≤ 1 →
      let e' := run (Election.step members) e (List.replicate (n + 1) (.start i))
      e'.nodes = Function.update e.nodes i { e.nodes i with
          term := (e.nodes i).term + UInt64.ofNat (n + 1)
          role := .candidate
          votedFor := some i
          votes := {i} } ∧
        (i, (e.nodes i).term + UInt64.ofNat (n + 1)) ∈ e'.requests := by
  intro n
  induction n with
  | zero => exact fun e hid hq => Election.step_start hi hid hq
  | succ n ih =>
    intro e hid hq
    have hone := (Election.step_start hi hid hq).1
    have hterm : (e.nodes i).term + 1 + UInt64.ofNat (n + 1)
        = (e.nodes i).term + UInt64.ofNat (n + 1 + 1) := by
      rw [UInt64.ofNat_add (n + 1) 1, UInt64.add_assoc, UInt64.add_comm 1]
      rfl
    obtain ⟨hnodes, hreq⟩ := ih (e.step members (.start i))
      (by rw [hone, Function.update_self]; exact hid)
      (by rw [hone, Function.update_self]; exact hq)
    simp only [hone, Function.update_self, hterm, Function.update_idem] at hnodes hreq
    exact ⟨hnodes, hreq⟩

/-- Node `1` elected in term 1, node `2` a candidate with its own vote, and node `3`
new to it all. -/
theorem Election.two_leaders {e : Election} (h1 : e.Leads 1 1)
    (h2 : e.nodes 2 = { Consensus.new 2 [1, 2, 3] with
      term := 1, role := .candidate, votedFor := some 2, votes := {2} })
    (h3 : e.nodes 3 = Consensus.new 3 [1, 2, 3]) (hreq : (2, 1) ∈ e.requests) :
    let e' := run (Election.step [1, 2, 3]) e [.request 2 1 3, .grant ⟨3, 2, 1⟩]
    e'.Leads 1 1 ∧ e'.Leads 2 1 := by
  have hvote : (e.nodes 3).handleVoteRequest 1 2
      = ({ Consensus.new 3 [1, 2, 3] with term := 1, votedFor := some 2 }, true) := by
    rw [h3]
    rfl
  have hsent : (3 : NodeId) ∈ [1, 2, 3] ∧ (2, 1) ∈ e.requests := ⟨by decide, hreq⟩
  have hasked : e.step [1, 2, 3] (.request 2 1 3)
      = { e.setNode 3 { Consensus.new 3 [1, 2, 3] with term := 1, votedFor := some 2 } with
          grants := e.grants ++ [⟨3, 2, 1⟩] } := by
    simp only [Election.step, if_pos hsent, hvote, if_true]
  have hgranted : (⟨3, 2, 1⟩ : Ballot) ∈ e.grants ++ [⟨3, 2, 1⟩] :=
    List.mem_append_right _ (List.mem_singleton_self _)
  simp only [run, List.foldl_cons, List.foldl_nil, hasked]
  simp only [Election.step, if_pos hgranted, Election.Leads, Election.setNode]
  refine ⟨?_, ?_⟩
  · rw [Function.update_of_ne (by decide), Function.update_of_ne (by decide)]
    exact h1
  · rw [Function.update_self, Function.update_of_ne (by decide), h2]
    decide

/-- A number of elections at which the terms begin again makes nodes `1` and `2`
lead in term 1. -/
theorem Election.two_leaders_of_wrap {n : Nat} (hn : UInt64.ofNat (n + 1) = 0) :
    (Election.after [1, 2, 3] (wrapRun (n + 1))).Leads 1 1 ∧
      (Election.after [1, 2, 3] (wrapRun (n + 1))).Leads 2 1 := by
  obtain ⟨e, he⟩ : ∃ e, Election.after [1, 2, 3] [.start 1, .request 1 1 2, .grant ⟨2, 1, 1⟩] = e :=
    ⟨_, rfl⟩
  have hlead : e.Leads 1 1 := by
    rw [← he]
    decide
  have htwo : e.nodes 2 = { Consensus.new 2 [1, 2, 3] with term := 1, votedFor := some 1 } := by
    rw [← he]
    rfl
  have hthree : e.nodes 3 = Consensus.new 3 [1, 2, 3] := by
    rw [← he]
    rfl
  have hsplit : Election.after [1, 2, 3] (wrapRun (n + 1))
      = run (Election.step [1, 2, 3])
          (run (Election.step [1, 2, 3]) e (List.replicate (n + 1) (.start 2)))
          [.request 2 1 3, .grant ⟨3, 2, 1⟩] := by
    rw [← he]
    simp only [Election.after, wrapRun, run, List.foldl_append]
  obtain ⟨hnodes, hreq⟩ := Election.run_starts (show (2 : NodeId) ∈ [1, 2, 3] by decide) n e
    (by rw [htwo]; rfl) (by rw [htwo]; decide)
  rw [htwo, hn] at hnodes hreq
  rw [hsplit]
  refine Election.two_leaders ?_ ?_ ?_ hreq
  · rw [Election.Leads, hnodes, Function.update_of_ne (by decide)]
    exact hlead
  · rw [hnodes, Function.update_self]
    rfl
  · rw [hnodes, Function.update_of_ne (by decide)]
    exact hthree

/-- After `2 ^ 64` elections of one node two nodes lead in term 1. -/
theorem two_leaders_after_wrap : ¬ Election.OneLeaderPerTerm [1, 2, 3] (wrapRun (2 ^ 64)) := by
  intro hone
  obtain ⟨hfst, hsnd⟩ := Election.two_leaders_of_wrap (n := 2 ^ 64 - 1) (by decide)
  have hsame := hone _ _ (List.prefix_refl _) (List.prefix_refl _) 1 2 1 hfst hsnd
  exact absurd hsame (by decide)

end AethelDB.Safekeeper
