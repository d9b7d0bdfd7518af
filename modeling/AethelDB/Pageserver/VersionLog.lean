import AethelDB.Pageserver.Repository

/-!
# The page store refines a plain version log

What the repository is for, in its own terms: remember every modification, and
answer "page `K` at LSN `Y`" by replaying the modifications of `K` up to `Y` in
LSN order, from the latest base on. `refGetPage` says exactly that over a flat
list, with no memtable, no layers and no notion of arrival order.

`getPage_refines_log` is the refinement: after any sequence of ingest batches
and freezes the repository answers as the flat list does. The state carried
through the run is `contents`; freezing permutes it and ingesting adds to it, so
the run lemma `contents_runOps` is all the induction there is. That the answer is
blind to batching, arrival order, threshold and freeze points is then the fact
that sorting by distinct LSNs forgets the order it started from.
-/

namespace AethelDB.Pageserver

open AethelDB.Lib

/-- The versions of `key` up to `lsn` among `mods`, in ascending LSN order. -/
def refVersions (mods : List Modification) (key : PageKey) (lsn : Lsn) : Versions :=
  byPos ((mods.filter fun m => decide (m.key = key ∧ m.lsn ≤ lsn)).map
    fun m => (m.lsn, m.version))

/-- The reference read: nothing without a base, otherwise the latest base with
every later version applied in order. -/
def refGetPage (mods : List Modification) (key : PageKey) (lsn : Lsn) :
    Except PageError PageLookup :=
  Repository.lookupOf (nativeReplay (refVersions mods key lsn))

theorem versionsOf_entries (mods : List Modification) (key : PageKey) (lsn : Lsn) :
    versionsOf (mods.map Modification.entry) key lsn
      = (mods.filter fun m => decide (m.key = key ∧ m.lsn ≤ lsn)).map
          fun m => (m.lsn, m.version) := by
  unfold versionsOf
  rw [List.filter_map, List.map_map]
  rfl

/-- The reference history depends only on which modifications there are. -/
theorem refVersions_perm {mods mods' : List Modification}
    (huniq : (mods.map Modification.slot).Nodup) (h : mods.Perm mods') (key : PageKey)
    (lsn : Lsn) : refVersions mods key lsn = refVersions mods' key lsn := by
  unfold refVersions
  rw [← versionsOf_entries, ← versionsOf_entries]
  refine byPos_congr (versionsOf_nodup ?_ key lsn) (versionsOf_perm (h.map _) key lsn)
  rw [map_fst_entries]
  exact huniq

/-- A repository holding `mods` reads as the flat list does. -/
theorem Repository.versions_of_contents {r : Repository} {mods : List Modification}
    (hc : r.contents.Perm (mods.map Modification.entry))
    (huniq : (mods.map Modification.slot).Nodup) (key : PageKey) (lsn : Lsn) :
    r.versions key lsn none = refVersions mods key lsn := by
  rw [Repository.versions_eq, refVersions, ← versionsOf_entries]
  refine byPos_congr ?_ (versionsOf_perm hc key lsn)
  refine versionsOf_nodup ?_ key lsn
  rw [(hc.map Prod.fst).nodup_iff, map_fst_entries]
  exact huniq

/-! ## Runs of one repository -/

inductive RepoOp where
  | ingest (mods : List Modification)
  | freeze

namespace RepoOp

def step (r : Repository) : RepoOp → Repository
  | .ingest mods => r.ingest mods
  | .freeze => r.freeze

def mods : RepoOp → List Modification
  | .ingest ms => ms
  | .freeze => []

end RepoOp

/-- Run a sequence of operations on an empty repository. -/
def runOps (freezeThreshold : Nat) (ops : List RepoOp) : Repository :=
  ops.foldl RepoOp.step (Repository.new freezeThreshold)

theorem contents_step {r : Repository} {op : RepoOp}
    (h : (r.contents.map Prod.fst ++ op.mods.map Modification.slot).Nodup) :
    (op.step r).contents.Perm (r.contents ++ op.mods.map Modification.entry) := by
  cases op with
  | ingest ms => exact Repository.contents_ingest h
  | freeze =>
    show r.freezeLocked.contents.Perm (r.contents ++ [])
    rw [List.append_nil]
    exact Repository.contents_freezeLocked r

theorem contents_foldl_step :
    ∀ {ops : List RepoOp} {r : Repository},
      (r.contents.map Prod.fst ++ (ops.flatMap RepoOp.mods).map Modification.slot).Nodup →
      (ops.foldl RepoOp.step r).contents.Perm
        (r.contents ++ (ops.flatMap RepoOp.mods).map Modification.entry) := by
  intro ops
  induction ops with
  | nil => intro r _; simp
  | cons op ops ih =>
    intro r hnd
    rw [List.flatMap_cons, List.map_append, ← List.append_assoc] at hnd
    have hstep := contents_step (List.nodup_append.mp hnd).1
    have hkeys : ((op.step r).contents.map Prod.fst).Perm
        (r.contents.map Prod.fst ++ op.mods.map Modification.slot) := by
      have h := hstep.map Prod.fst
      rw [List.map_append, map_fst_entries] at h
      exact h
    have hrest := ih ((hkeys.append_right _).nodup_iff.mpr hnd)
    rw [List.foldl_cons, List.flatMap_cons, List.map_append, ← List.append_assoc]
    exact hrest.trans (hstep.append_right _)

theorem contents_runOps {freezeThreshold : Nat} {ops : List RepoOp}
    (huniq : ((ops.flatMap RepoOp.mods).map Modification.slot).Nodup) :
    (runOps freezeThreshold ops).contents.Perm
      ((ops.flatMap RepoOp.mods).map Modification.entry) :=
  contents_foldl_step (r := Repository.new freezeThreshold) huniq

/-- **Page store refines a plain version log.** After any sequence of ingest
batches and freezes with distinct `(PageKey, Lsn)`, a read with the native
backend is the reference read of the flat set of modifications; any other run
that brings in the same modifications, in whatever order, batches, threshold
and freeze points, answers the same. -/
theorem getPage_refines_log (freezeThreshold : Nat) (ops : List RepoOp)
    (huniq : ((ops.flatMap RepoOp.mods).map Modification.slot).Nodup)
    (key : PageKey) (lsn : Lsn) :
    (runOps freezeThreshold ops).getPage rustApply key lsn
        = refGetPage (ops.flatMap RepoOp.mods) key lsn
      ∧ ∀ (freezeThreshold' : Nat) (ops' : List RepoOp),
          (ops'.flatMap RepoOp.mods).Perm (ops.flatMap RepoOp.mods) →
          (runOps freezeThreshold' ops').getPage rustApply key lsn
            = (runOps freezeThreshold ops).getPage rustApply key lsn := by
  have hread : ∀ (n : Nat) (os : List RepoOp),
      ((os.flatMap RepoOp.mods).map Modification.slot).Nodup →
      (runOps n os).getPage rustApply key lsn
        = refGetPage (os.flatMap RepoOp.mods) key lsn := by
    intro n os hu
    rw [Repository.getPage, Repository.getPageWithBase, rustApply_eq_replay,
      Repository.versions_of_contents (contents_runOps hu) hu, refGetPage]
  refine ⟨hread freezeThreshold ops huniq, ?_⟩
  intro n os hperm
  have huniq' : ((os.flatMap RepoOp.mods).map Modification.slot).Nodup :=
    (hperm.map _).nodup_iff.mpr huniq
  rw [hread n os huniq', hread freezeThreshold ops huniq, refGetPage, refGetPage,
    refVersions_perm huniq' hperm]

/-- One relation, used by the concrete cases below and in later modules. -/
def relSample : RelTag := ⟨1, 2, 3, .main⟩

/-- A delta that writes one byte at offset `0` of block `0`. -/
def deltaSample (lsn : Lsn) (byte : UInt8) : Modification :=
  ⟨relSample, 0, lsn, .delta [⟨0, [byte]⟩]⟩

/-- An image of one repeated byte for block `0`. -/
def imageSample (lsn : Lsn) (byte : UInt8) : Modification :=
  ⟨relSample, 0, lsn, .image (List.replicate PAGE_SIZE byte)⟩

/-- The hypothesis is met by an image frozen between two out-of-order writes. -/
theorem getPage_refines_log_sample :
    (runOps 2 [.ingest [deltaSample 20 7], .freeze, .ingest [imageSample 10 1]]).getPage
        rustApply ⟨relSample, 0⟩ 30
      = refGetPage [deltaSample 20 7, imageSample 10 1] ⟨relSample, 0⟩ 30 :=
  (getPage_refines_log 2 [.ingest [deltaSample 20 7], .freeze, .ingest [imageSample 10 1]]
    (by decide) ⟨relSample, 0⟩ 30).1

end AethelDB.Pageserver
