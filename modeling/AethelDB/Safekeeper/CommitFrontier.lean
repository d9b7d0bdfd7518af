import AethelDB.Lib.Run
import AethelDB.Safekeeper.Consensus

/-!
# The commit position as the quorum frontier

`Consensus::record_flush` and `commit_lsn` of `safekeeper/src/consensus.rs` over whole histories of
reports. What a node has recorded is the highest position reported for it, so that a position has
been reached exactly if it was reported or exceeded once (`le_recorded_iff`). The commit position
reads the `quorum`-th place of the sorted positions; it is the greatest position that a quorum of
the members have reached.

Everything else about it is a statement about that set of positions, which has only one greatest
element: it grows with the history, and neither the order of the reports nor reports for others
change it.
-/

namespace AethelDB.Safekeeper

open AethelDB.Lib

/-- A report: a node has flushed up to a position. -/
abbrev FlushReport := NodeId × Lsn

namespace Consensus

def afterReports (c : Consensus) (reports : List FlushReport) : Consensus :=
  run (fun c r => c.recordFlush r.1 r.2) c reports

/-- The highest position reported for a node. -/
def recorded (reports : List FlushReport) (node : NodeId) : Lsn :=
  ((reports.filter fun r => r.1 = node).map Prod.snd).foldl max Lsn.INVALID

variable {reports : List FlushReport}

theorem le_foldl_max {xs : List Lsn} {a w : Lsn} : w ≤ xs.foldl max a ↔ w ≤ a ∨ ∃ x ∈ xs, w ≤ x := by
  induction xs generalizing a with
  | nil => simp
  | cons x xs ih => rw [List.foldl_cons, ih, le_max_iff, List.exists_mem_cons_iff, or_assoc]

/-- A position is reached if it is the initial one or was reported or exceeded. -/
theorem le_recorded_iff {node : NodeId} {w : Lsn} :
    w ≤ recorded reports node ↔ w ≤ Lsn.INVALID ∨ ∃ r ∈ reports, r.1 = node ∧ w ≤ r.2 := by
  rw [recorded, le_foldl_max]
  refine or_congr_right ?_
  constructor
  · rintro ⟨x, hx, hle⟩
    obtain ⟨r, hr, rfl⟩ := List.mem_map.mp hx
    obtain ⟨hmem, hnode⟩ := List.mem_filter.mp hr
    exact ⟨r, hmem, of_decide_eq_true hnode, hle⟩
  · rintro ⟨r, hr, hnode, hle⟩
    exact ⟨r.2, List.mem_map_of_mem (List.mem_filter.mpr ⟨hr, decide_eq_true hnode⟩), hle⟩

theorem recordFlush_flush (c : Consensus) (node : NodeId) (lsn : Lsn) (j : NodeId) :
    (c.recordFlush node lsn).flush j = if node = j then max (c.flush j) lsn else c.flush j := by
  unfold recordFlush
  by_cases hj : node = j
  · subst hj
    rw [if_pos rfl]
    dsimp only
    split
    · next hlt => rw [Function.update_self, max_eq_right hlt.le]
    · next hle => rw [max_eq_left (not_lt.mp hle)]
  · rw [if_neg hj]
    dsimp only
    split
    · rw [Function.update_of_ne (Ne.symm hj)]
    · rfl

theorem flush_afterReports (nodeId : NodeId) (members : List NodeId) (reports : List FlushReport)
    (j : NodeId) : ((new nodeId members).afterReports reports).flush j = recorded reports j := by
  induction reports using List.reverseRecOn with
  | nil => rfl
  | append_singleton reports r ih =>
    rw [afterReports, run_concat]
    refine (recordFlush_flush _ r.1 r.2 j).trans ?_
    rw [show (run _ (new nodeId members) reports).flush j = recorded reports j from ih]
    unfold recorded
    by_cases hj : r.1 = j
    · rw [if_pos hj, List.filter_append, List.map_append, List.foldl_append]
      simp [hj]
    · rw [if_neg hj, List.filter_append]
      simp [hj]

theorem afterReports_members (c : Consensus) (reports : List FlushReport) :
    (c.afterReports reports).members = c.members ∧ (c.afterReports reports).quorum = c.quorum := by
  induction reports using List.reverseRecOn with
  | nil => exact ⟨rfl, rfl⟩
  | append_singleton reports r ih =>
    rw [afterReports, run_concat]
    exact ih

/-- The members that have reached a position. -/
def reachedBy (members : List NodeId) (reports : List FlushReport) (w : Lsn) : Finset NodeId :=
  members.toFinset.filter fun j => w ≤ recorded reports j

theorem card_reachedBy {members : List NodeId} (hnodup : members.Nodup) (reports : List FlushReport)
    (w : Lsn) :
    (reachedBy members reports w).card = (members.map (recorded reports)).countP (w ≤ ·) := by
  have hfilter : reachedBy members reports w
      = (members.filter fun j => w ≤ recorded reports j).toFinset := by
    ext j
    simp [reachedBy]
  rw [hfilter, List.toFinset_card_of_nodup (hnodup.filter _), List.countP_map,
    List.countP_eq_length_filter]
  rfl

variable {nodeId : NodeId} {members : List NodeId}

/-- **The frontier.** The commit position is the greatest one that a quorum of the members have
reached. -/
theorem isGreatest_commitLsn (hmem : nodeId ∈ members) (hnodup : members.Nodup)
    (reports : List FlushReport) :
    IsGreatest {w | members.length / 2 + 1 ≤ (reachedBy members reports w).card}
      ((new nodeId members).afterReports reports).commitLsn := by
  obtain ⟨hmembers, hquorum⟩ := (new nodeId members).afterReports_members reports
  have hflush : ((new nodeId members).afterReports reports).flush = recorded reports :=
    funext (flush_afterReports nodeId members reports)
  have hpos : 0 < members.length := List.length_pos_of_mem hmem
  have hplace : members.length / 2 < (members.map (recorded reports)).length := by
    rw [List.length_map]
    omega
  obtain ⟨v, hv⟩ := exists_kthLargest hplace
  have hcommit : ((new nodeId members).afterReports reports).commitLsn = v := by
    rw [commitLsn, hmembers, hquorum, hflush]
    show (kthLargest (members.map (recorded reports)) (members.length / 2)).getD Lsn.INVALID = v
    rw [hv, Option.getD_some]
  have hset : {w | members.length / 2 + 1 ≤ (reachedBy members reports w).card}
      = {w | members.length / 2 < (members.map (recorded reports)).countP (w ≤ ·)} := by
    ext w
    rw [Set.mem_ofPred_eq, card_reachedBy hnodup]
    exact Nat.succ_le_iff
  rw [hcommit, hset]
  exact isGreatest_kthLargest hv

/-- More can have been reached only by more reports for members. -/
theorem commitLsn_mono (hmem : nodeId ∈ members) (hnodup : members.Nodup) {later : List FlushReport}
    (h : ∀ r ∈ reports, r.1 ∈ members → r ∈ later) :
    ((new nodeId members).afterReports reports).commitLsn
      ≤ ((new nodeId members).afterReports later).commitLsn := by
  refine (isGreatest_commitLsn hmem hnodup later).2 ?_
  have hreached := (isGreatest_commitLsn hmem hnodup reports).1
  refine hreached.trans (Finset.card_le_card fun j hj => ?_)
  obtain ⟨hj, hle⟩ := Finset.mem_filter.mp hj
  refine Finset.mem_filter.mpr ⟨hj, le_recorded_iff.mpr ?_⟩
  refine (le_recorded_iff.mp hle).imp_right ?_
  rintro ⟨r, hr, hnode, hle⟩
  exact ⟨r, h r hr (hnode ▸ List.mem_toFinset.mp hj), hnode, hle⟩

/-- **The commit position is the quorum frontier.** For every group of distinct members and every
history of reports: it is the greatest position that at least `quorum` members have recorded; it
never goes back along the history; histories with the same reports in another order have the same
one; and reports for others than the members make no difference. -/
theorem commitLsn_is_quorum_frontier (nodeId : NodeId) (members : List NodeId) (hmem : nodeId ∈ members)
    (hnodup : members.Nodup) (reports : List FlushReport) :
    let commit := fun reports => ((new nodeId members).afterReports reports).commitLsn
    ((new nodeId members).afterReports reports).quorum = members.length / 2 + 1
    ∧ (∀ j, ((new nodeId members).afterReports reports).flush j = recorded reports j)
    ∧ IsGreatest {w | members.length / 2 + 1 ≤ (reachedBy members reports w).card} (commit reports)
    ∧ (∀ before, before <+: reports → commit before ≤ commit reports)
    ∧ (∀ shuffled, shuffled.Perm reports → commit shuffled = commit reports)
    ∧ commit (reports.filter fun r => r.1 ∈ members) = commit reports := by
  refine ⟨((new nodeId members).afterReports_members reports).2, flush_afterReports nodeId members reports,
    isGreatest_commitLsn hmem hnodup reports, fun before hbefore => ?_, fun shuffled hperm => ?_, ?_⟩
  · exact commitLsn_mono hmem hnodup fun r hr _ => hbefore.subset hr
  · exact le_antisymm (commitLsn_mono hmem hnodup fun r hr _ => hperm.subset hr)
      (commitLsn_mono hmem hnodup fun r hr _ => hperm.symm.subset hr)
  · refine le_antisymm (commitLsn_mono hmem hnodup fun r hr _ => (List.mem_filter.mp hr).1)
      (commitLsn_mono hmem hnodup fun r hr hr' => ?_)
    exact List.mem_filter.mpr ⟨hr, decide_eq_true hr'⟩

/-- Three members, of which one never reports, and a report for somebody else. -/
theorem commitLsn_is_quorum_frontier_three :
    ((new 1 [1, 2, 3]).afterReports [(1, 30), (9, 50), (2, 20)]).commitLsn
      = ((new 1 [1, 2, 3]).afterReports [(2, 20), (1, 30)]).commitLsn := by
  have hfrontier := commitLsn_is_quorum_frontier 1 [1, 2, 3] (by simp) (by simp)
  have hmembers := (hfrontier [(1, 30), (9, 50), (2, 20)]).2.2.2.2.2
  have hshuffled := (hfrontier [(1, 30), (2, 20)]).2.2.2.2.1 [(2, 20), (1, 30)] (List.Perm.swap ..)
  exact hmembers.symm.trans hshuffled.symm

end Consensus

end AethelDB.Safekeeper
