import AethelDB.Common.Basic
import AethelDB.Lib.Quorum

/-!
# The consensus state of a safekeeper

`safekeeper/src/consensus.rs`: the commit position as the quorum-th largest recorded
flush position, and leadership by terms and votes. The map of flush positions
starts at `INVALID` for every member and answers `INVALID` for anyone else, so it
is a total function here; the vote set is a finite set.
-/

namespace AethelDB.Safekeeper

open AethelDB.Lib

abbrev NodeId := UInt64

/-- Ids compare as numbers, so membership of a group is decidable. -/
instance nodeIdLawfulBEq : LawfulBEq NodeId := inferInstance

abbrev Term := UInt64

instance termLinearOrder : LinearOrder Term where
  le_refl := UInt64.le_refl
  le_trans := fun _ _ _ => UInt64.le_trans
  le_antisymm := fun _ _ => UInt64.le_antisymm
  le_total := UInt64.le_total
  lt_iff_le_not_ge := by
    intro a b
    rw [UInt64.lt_iff_toNat_lt, UInt64.le_iff_toNat_le, UInt64.le_iff_toNat_le]
    omega
  toDecidableLE := inferInstance
  toDecidableEq := inferInstance
  toDecidableLT := inferInstance
  min := min
  max := max
  min_def := fun _ _ => rfl
  max_def := fun _ _ => rfl

/-- The term after which the counter wraps. -/
def Term.last : Term := UInt64.ofNat (2 ^ 64 - 1)

theorem Term.lt_succ {t : Term} (h : t ≠ Term.last) : t < t + 1 := by
  have hne : t.toNat ≠ 2 ^ 64 - 1 := fun hc => h (UInt64.toNat_inj.mp hc)
  have hlt := t.toNat_lt
  have hone : (1 : UInt64).toNat = 1 := rfl
  rw [UInt64.lt_iff_toNat_lt, UInt64.toNat_add, hone]
  omega

inductive Role where
  | follower
  | candidate
  | leader
deriving DecidableEq

structure Consensus where
  nodeId : NodeId
  members : List NodeId
  quorum : Nat
  term : Term
  role : Role
  votedFor : Option NodeId
  votes : Finset NodeId
  flush : NodeId → Lsn

namespace Consensus

/-- The state of `nodeId` in a group of `members`, which must include it. -/
def new (nodeId : NodeId) (members : List NodeId) : Consensus where
  nodeId := nodeId
  members := members
  quorum := members.length / 2 + 1
  term := 0
  role := .follower
  votedFor := none
  votes := ∅
  flush := fun _ => Lsn.INVALID

/-- Record that `node` has durably flushed up to `lsn` (monotonic). -/
def recordFlush (c : Consensus) (node : NodeId) (lsn : Lsn) : Consensus :=
  { c with flush := if c.flush node < lsn then Function.update c.flush node lsn else c.flush }

/-- The highest LSN flushed by at least `quorum` members. -/
def commitLsn (c : Consensus) : Lsn :=
  (kthLargest (c.members.map c.flush) (c.quorum - 1)).getD Lsn.INVALID

/-! ## Leadership -/

def maybeBecomeLeader (c : Consensus) : Consensus :=
  if c.role = .candidate ∧ c.quorum ≤ c.votes.card then { c with role := .leader } else c

/-- Adopt a newer term, reverting to follower and clearing the vote. -/
def observeTerm (c : Consensus) (term : Term) : Consensus :=
  if c.term < term then { c with term := term, role := .follower, votedFor := none, votes := ∅ }
  else c

/-- Begin a new election: bump the term, become a candidate and self-vote. -/
def startElection (c : Consensus) : Consensus :=
  maybeBecomeLeader { c with
    term := c.term + 1
    role := .candidate
    votedFor := some c.nodeId
    votes := {c.nodeId} }

/-- Handle a peer's vote request. Grants at most one vote per term. -/
def handleVoteRequest (c : Consensus) (term : Term) (candidate : NodeId) : Consensus × Bool :=
  let c := c.observeTerm term
  if term = c.term ∧ (c.votedFor = none ∨ c.votedFor = some candidate) then
    ({ c with votedFor := some candidate }, true)
  else (c, false)

/-- Record a vote granted to us by `sender` in `term`. -/
def handleVoteGranted (c : Consensus) (sender : NodeId) (term : Term) : Consensus :=
  if term = c.term ∧ c.role = .candidate then
    maybeBecomeLeader { c with votes := insert sender c.votes }
  else c

/-! ## What the leadership calls do -/

theorem maybeBecomeLeader_of_candidate {c : Consensus} (h : c.role = .candidate) :
    c.maybeBecomeLeader
      = { c with role := if c.quorum ≤ c.votes.card then .leader else .candidate } := by
  unfold maybeBecomeLeader
  by_cases hq : c.quorum ≤ c.votes.card
  · rw [if_pos ⟨h, hq⟩, if_pos hq]
  · rw [if_neg (fun hc => hq hc.2), if_neg hq, ← h]

theorem startElection_eq (c : Consensus) :
    c.startElection = { c with
      term := c.term + 1
      role := if c.quorum ≤ 1 then .leader else .candidate
      votedFor := some c.nodeId
      votes := {c.nodeId} } := by
  unfold startElection
  rw [maybeBecomeLeader_of_candidate rfl]
  simp only [Finset.card_singleton]

/-- A vote request moves the node to a later term and gets its vote, or gets the
vote of the current term if that is free or the candidate's already, or is denied
and changes nothing. -/
theorem handleVoteRequest_cases (c : Consensus) (term : Term) (candidate : NodeId) :
    c.term < term ∧ c.handleVoteRequest term candidate
        = ({ c with term := term, role := .follower, votedFor := some candidate, votes := ∅ }, true) ∨
      c.term = term ∧ (c.votedFor = none ∨ c.votedFor = some candidate) ∧
        c.handleVoteRequest term candidate = ({ c with votedFor := some candidate }, true) ∨
      c.handleVoteRequest term candidate = (c, false) := by
  unfold handleVoteRequest observeTerm
  by_cases hlt : c.term < term
  · rw [if_pos hlt]
    exact Or.inl ⟨hlt, if_pos ⟨rfl, Or.inl rfl⟩⟩
  · rw [if_neg hlt]
    by_cases hg : term = c.term ∧ (c.votedFor = none ∨ c.votedFor = some candidate)
    · exact Or.inr (Or.inl ⟨hg.1.symm, hg.2, if_pos hg⟩)
    · exact Or.inr (Or.inr (if_neg hg))

/-- A grant counts for a candidate in its term, and may make it leader. -/
theorem handleVoteGranted_cases (c : Consensus) (sender : NodeId) (term : Term) :
    c.handleVoteGranted sender term = c ∨
      term = c.term ∧ c.role = .candidate ∧ c.handleVoteGranted sender term = { c with
        votes := insert sender c.votes
        role := if c.quorum ≤ (insert sender c.votes).card then .leader else .candidate } := by
  unfold handleVoteGranted
  by_cases h : term = c.term ∧ c.role = .candidate
  · rw [if_pos h, maybeBecomeLeader_of_candidate (by exact h.2)]
    exact Or.inr ⟨h.1, h.2, rfl⟩
  · exact Or.inl (if_neg h)

/-! ## Flush positions and who counts them -/

/-- The leadership calls leave the group and the flush positions alone. -/
structure SameFlush (c c' : Consensus) : Prop where
  members : c'.members = c.members
  quorum : c'.quorum = c.quorum
  flush : c'.flush = c.flush

theorem SameFlush.maybeBecomeLeader {c c' : Consensus} (h : SameFlush c c') :
    SameFlush c c'.maybeBecomeLeader := by
  unfold Consensus.maybeBecomeLeader
  split
  · exact ⟨h.members, h.quorum, h.flush⟩
  · exact h

theorem sameFlush_startElection (c : Consensus) : SameFlush c c.startElection :=
  SameFlush.maybeBecomeLeader ⟨rfl, rfl, rfl⟩

theorem sameFlush_handleVoteRequest (c : Consensus) (term : Term) (candidate : NodeId) :
    SameFlush c (c.handleVoteRequest term candidate).1 := by
  have hobserve : SameFlush c (c.observeTerm term) := by
    unfold observeTerm
    split <;> exact ⟨rfl, rfl, rfl⟩
  unfold handleVoteRequest
  simp only
  split
  · exact ⟨hobserve.members, hobserve.quorum, hobserve.flush⟩
  · exact hobserve

theorem sameFlush_handleVoteGranted (c : Consensus) (sender : NodeId) (term : Term) :
    SameFlush c (c.handleVoteGranted sender term) := by
  unfold handleVoteGranted
  split
  · exact SameFlush.maybeBecomeLeader ⟨rfl, rfl, rfl⟩
  · exact ⟨rfl, rfl, rfl⟩

theorem flush_recordFlush (c : Consensus) (node : NodeId) (lsn : Lsn) (j : NodeId) :
    (c.recordFlush node lsn).flush j = c.flush j ∨
      j = node ∧ (c.recordFlush node lsn).flush j = lsn := by
  unfold recordFlush
  simp only
  split
  · by_cases hj : j = node
    · subst hj
      exact Or.inr ⟨rfl, Function.update_self ..⟩
    · exact Or.inl (Function.update_of_ne hj ..)
  · exact Or.inl rfl

/-- **Quorum rule.** At least `quorum` members have a recorded flush position at
or above the commit position, if that is above zero. -/
theorem quorum_le_countP {c : Consensus} (hpos : Lsn.INVALID < c.commitLsn)
    (hq : 0 < c.quorum) :
    c.quorum ≤ c.members.countP (fun j => decide (c.commitLsn ≤ c.flush j)) := by
  unfold commitLsn at hpos
  cases hk : kthLargest (c.members.map c.flush) (c.quorum - 1) with
  | none =>
    rw [hk] at hpos
    exact absurd hpos (lt_irrefl _)
  | some v =>
    have hv : c.commitLsn = v := by rw [commitLsn, hk, Option.getD_some]
    have hcount := countP_kthLargest hk
    rw [List.countP_map] at hcount
    rw [hv]
    have hcomp : ((fun x => decide (v ≤ x)) ∘ c.flush) = fun j => decide (v ≤ c.flush j) := rfl
    rw [hcomp] at hcount
    omega

theorem le_flush_recordFlush (c : Consensus) (node : NodeId) (lsn : Lsn) (j : NodeId) :
    c.flush j ≤ (c.recordFlush node lsn).flush j := by
  unfold recordFlush
  simp only
  split
  · next hlt =>
    by_cases hj : j = node
    · subst hj
      rw [Function.update_self]
      exact hlt.le
    · rw [Function.update_of_ne hj]
  · exact le_rfl

/-- The commit position never goes back. -/
theorem commitLsn_le_recordFlush (c : Consensus) (node : NodeId) (lsn : Lsn) :
    c.commitLsn ≤ (c.recordFlush node lsn).commitLsn := by
  unfold commitLsn
  cases hk : kthLargest (c.members.map c.flush) (c.quorum - 1) with
  | none => exact Lsn.INVALID_le _
  | some v =>
    have hcount := countP_kthLargest hk
    -- who has reached `v` still has
    have hmore : (c.members.map c.flush).countP (fun x => decide (v ≤ x))
        ≤ (c.members.map (c.recordFlush node lsn).flush).countP (fun x => decide (v ≤ x)) := by
      rw [List.countP_map, List.countP_map]
      refine List.countP_mono_left ?_
      intro j _ hj
      rw [Function.comp_apply, decide_eq_true_eq] at hj ⊢
      exact hj.trans (c.le_flush_recordFlush node lsn j)
    obtain ⟨v', hv', hle⟩ := le_kthLargest (k := c.quorum - 1) (lt_of_lt_of_le hcount hmore)
    have hk' : kthLargest ((c.recordFlush node lsn).members.map (c.recordFlush node lsn).flush)
        ((c.recordFlush node lsn).quorum - 1) = some v' := hv'
    rw [hk', Option.getD_some, Option.getD_some]
    exact hle

end Consensus

end AethelDB.Safekeeper
