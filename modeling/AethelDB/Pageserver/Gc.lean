import AethelDB.Pageserver.Branching

/-!
# Garbage collection over whole runs

`Tenant.gc` compacts every timeline at its own effective horizon. A run with
collections is compared with its *twin*, the same run with the collections left
out. `Collected floor full t` is the simulation relation: same timelines, every
store of `t` is the twin's pruned below that timeline's floor, and no floor is
above a branch point that is read through. The floor of a timeline is the
highest effective horizon it was ever compacted at (`floors`).

The relation survives every call on one condition: a branch is created at or
above its parent's floor (`collected_after`). Nothing in the code checks this;
the pins only protect branch points from later collections, not branches from
earlier ones.
-/

namespace AethelDB.Pageserver

open AethelDB.Lib

/-- The twin run. -/
def withoutGc (ops : List TenantOp) : List TenantOp := ops.filter fun op => !op.isGc

def horizons (ops : List TenantOp) : List Lsn :=
  ops.filterMap fun op =>
    match op with
    | .gc horizon => some horizon
    | _ => none

/-- `t` is `full` after collections that respected `floor`. -/
structure Collected (floor : TimelineId → Lsn) (full t : Tenant) : Prop where
  timelines : t.timelines = full.timelines
  threshold : t.freezeThreshold = full.freezeThreshold
  pruned : ∀ id, Pruned (floor id) (full.repos id) (t.repos id)
  pinned : ∀ id p a, .branched id p a ∈ t.timelines → floor p.id ≤ a

namespace Collected

variable {floor : TimelineId → Lsn} {full t : Tenant}

theorem getTimeline_eq (h : Collected floor full t) (id : TimelineId) :
    t.getTimeline id = full.getTimeline id := Tenant.getTimeline_congr h.timelines id

theorem new (n : Nat) : Collected (fun _ => Lsn.INVALID) (Tenant.new n) (Tenant.new n) where
  timelines := rfl
  threshold := rfl
  pruned := fun _ => Pruned.new _ _
  pinned := fun _ _ _ h => absurd h List.not_mem_nil

theorem register (h : Collected floor full t) {tl : Timeline}
    (hf : t.getTimeline tl.id = none) (hp : ∀ p ∈ tl.parent, p ∈ t.timelines)
    (hf' : full.getTimeline tl.id = none) (hp' : ∀ p ∈ tl.parent, p ∈ full.timelines)
    (hpin : ∀ id p a, tl = .branched id p a → floor p.id ≤ a) :
    Collected floor (full.register tl hf' hp') (t.register tl hf hp) where
  timelines := by
    show t.timelines ++ [tl] = full.timelines ++ [tl]
    rw [h.timelines]
  threshold := h.threshold
  pruned := by
    intro id
    show Pruned (floor id) (Function.update full.repos tl.id full.newRepo id)
      (Function.update t.repos tl.id t.newRepo id)
    by_cases hid : id = tl.id
    · subst hid
      rw [Function.update_self, Function.update_self, Tenant.newRepo, Tenant.newRepo, h.threshold]
      exact Pruned.new _ _
    · rw [Function.update_of_ne hid, Function.update_of_ne hid]
      exact h.pruned id
  pinned := by
    intro id p a hmem
    rcases List.mem_append.mp hmem with hmem | hmem
    · exact h.pinned id p a hmem
    · exact hpin id p a (List.mem_singleton.mp hmem).symm

theorem onStore (h : Collected floor full t) (id : TimelineId) (f : Repository → Repository)
    (hpr : (t.getTimeline id).isSome →
      Pruned (floor id) (f (full.repos id)) (f (t.repos id))) :
    Collected floor (full.onStore id f) (t.onStore id f) where
  timelines := by
    rw [Tenant.onStore_timelines, Tenant.onStore_timelines, h.timelines]
  threshold := by
    rw [Tenant.onStore_threshold, Tenant.onStore_threshold, h.threshold]
  pruned := by
    intro i
    rw [Tenant.onStore_repos, Tenant.onStore_repos, ← h.getTimeline_eq]
    split
    · next hc =>
      obtain ⟨rfl, hsome⟩ := hc
      exact hpr hsome
    · exact h.pruned i
  pinned := by
    intro i p a hmem
    rw [Tenant.onStore_timelines] at hmem
    exact h.pinned i p a hmem

end Collected

/-! ## Floors -/

/-- A collection raises each timeline's floor to the horizon used on it. -/
def raiseFloors (t : Tenant) (floor : TimelineId → Lsn) : TenantOp → TimelineId → Lsn
  | .gc horizon => fun id =>
    match t.getTimeline id with
    | none => floor id
    | some _ => max (floor id) (t.effectiveHorizon horizon id)
  | _ => floor

def floorsFrom : Tenant → (TimelineId → Lsn) → List TenantOp → TimelineId → Lsn
  | _, floor, [] => floor
  | t, floor, op :: ops => floorsFrom (t.step op) (raiseFloors t floor op) ops

/-- The highest effective horizon each timeline was compacted at in a run. -/
def floors (n : Nat) (ops : List TenantOp) : TimelineId → Lsn :=
  floorsFrom (Tenant.new n) (fun _ => Lsn.INVALID) ops

theorem floorsFrom_concat (op : TenantOp) :
    ∀ (ops : List TenantOp) (t : Tenant) (floor : TimelineId → Lsn),
      floorsFrom t floor (ops ++ [op])
        = raiseFloors (run Tenant.step t ops) (floorsFrom t floor ops) op := by
  intro ops
  induction ops with
  | nil => intro t floor; rfl
  | cons o ops ih =>
    intro t floor
    rw [List.cons_append, floorsFrom, ih, floorsFrom]
    rfl

@[simp] theorem floors_concat (n : Nat) (ops : List TenantOp) (op : TenantOp) :
    floors n (ops ++ [op]) = raiseFloors (Tenant.after n ops) (floors n ops) op :=
  floorsFrom_concat op ops _ _

/-- No floor is above the horizons asked for. -/
theorem floors_le {n : Nat} {ops : List TenantOp} {lsn : Lsn}
    (h : ∀ horizon ∈ horizons ops, horizon ≤ lsn) (id : TimelineId) :
    floors n ops id ≤ lsn := by
  induction ops using List.reverseRecOn with
  | nil => exact Lsn.INVALID_le lsn
  | append_singleton ops op ih =>
    unfold horizons at h ih
    rw [List.filterMap_append] at h
    have hpre := ih fun g hg => h g (List.mem_append_left _ hg)
    rw [floors_concat]
    cases op with
    | gc horizon =>
      simp only [raiseFloors]
      split
      · exact hpre
      · refine max_le hpre ((Tenant.effectiveHorizon_le_requested _ _ _).trans ?_)
        exact h horizon (by simp)
    | _ => exact hpre

namespace Collected

variable {floor : TimelineId → Lsn} {full t : Tenant}

/-- A collection on `t` alone keeps the relation, with the floors raised: the
effective horizon stays at or below every branch point. -/
theorem gc (h : Collected floor full t) (horizon : Lsn) :
    Collected (raiseFloors t floor (.gc horizon)) full (t.step (.gc horizon)) where
  timelines := h.timelines
  threshold := h.threshold
  pruned := by
    intro id
    show Pruned (raiseFloors t floor (.gc horizon) id) (full.repos id) ((t.gc horizon).1.repos id)
    simp only [raiseFloors, Tenant.gc]
    cases t.getTimeline id with
    | none => exact h.pruned id
    | some tl => exact (h.pruned id).compact
  pinned := by
    intro id p a hmem
    have hpin := h.pinned id p a hmem
    simp only [raiseFloors]
    split
    · exact hpin
    · exact max_le hpin (Tenant.effectiveHorizon_le_branchPoint hmem horizon)

/-- Every other call keeps the relation when made on both sides, provided writes
are to fresh slots and branches are at or above their parent's floor. -/
theorem step (h : Collected floor full t) {op : TenantOp} (hgc : op.isGc = false)
    (hfresh : ∀ id, ((full.repos id).contents.map Prod.fst
      ++ (op.ingested t id).map Modification.slot).Nodup)
    (hbranch : ∀ newId parentId lsn, op = .branch newId parentId lsn →
      t.getTimeline newId = none → (t.getTimeline parentId).isSome → floor parentId ≤ lsn) :
    Collected floor (full.step op) (t.step op) := by
  cases op with
  | gc horizon => simp [TenantOp.isGc] at hgc
  | create id =>
    -- both tenants know the same timelines, so both accept or both refuse
    rcases t.step_create id with ⟨ht, hne⟩ | ⟨hf, hp, ht⟩ <;>
      rcases full.step_create id with ⟨hfull, hne'⟩ | ⟨hf', hp', hfull⟩
    · rw [ht, hfull]
      exact h
    · exact absurd ((h.getTimeline_eq id).trans hf') hne
    · exact absurd ((h.getTimeline_eq id).symm.trans hf) hne'
    · rw [ht, hfull]
      exact h.register hf hp hf' hp' fun _ _ _ heq => absurd heq (by simp)
  | branch newId parentId lsn =>
    cases hf : t.getTimeline newId with
    | some tl =>
      have hf' := (h.getTimeline_eq newId).symm.trans hf
      rw [Tenant.step, Tenant.step, Tenant.branchTimeline_of_some _ _ hf,
        Tenant.branchTimeline_of_some _ _ hf']
      exact h
    | none =>
      have hf' := (h.getTimeline_eq newId).symm.trans hf
      cases hpar : t.getTimeline parentId with
      | none =>
        have hpar' := (h.getTimeline_eq parentId).symm.trans hpar
        rw [Tenant.step, Tenant.step, Tenant.branchTimeline_of_noParent _ hf hpar,
          Tenant.branchTimeline_of_noParent _ hf' hpar']
        exact h
      | some parent =>
        have hpar' := (h.getTimeline_eq parentId).symm.trans hpar
        rw [Tenant.step, Tenant.step, Tenant.branchTimeline_of_none _ hf hpar,
          Tenant.branchTimeline_of_none _ hf' hpar']
        refine h.register (show t.getTimeline (Timeline.branched newId parent lsn).id = none
          from hf) _ hf' _ ?_
        intro id p a heq
        injection heq with _ hparent hlsn
        have hle := hbranch newId parentId lsn rfl hf (by rw [hpar]; rfl)
        rw [← hparent, ← hlsn, (Tenant.getTimeline_eq_some_iff.mp hpar).2]
        exact hle
  | freeze id => exact h.onStore id _ fun _ => (h.pruned id).freeze
  | ingest id mods =>
    refine h.onStore id (fun r => r.ingest mods) fun hsome => (h.pruned id).ingest ?_
    have hf := hfresh id
    simp only [TenantOp.ingested] at hf
    rw [if_pos ⟨trivial, hsome⟩] at hf
    exact hf

end Collected

/-! ## Runs -/

/-- An accepted branch is at or above its parent's floor. -/
def BranchAboveFloor (n : Nat) (pre : List TenantOp) : TenantOp → Prop
  | .branch newId parentId lsn =>
    (Tenant.after n pre).accepts newId parentId lsn = true → floors n pre parentId ≤ lsn
  | _ => True

instance (n : Nat) (pre : List TenantOp) (op : TenantOp) : Decidable (BranchAboveFloor n pre op) := by
  cases op <;> unfold BranchAboveFloor <;> infer_instance

/-- An accepted branch is at or above every horizon asked for before. -/
def BranchAboveHorizons (n : Nat) (pre : List TenantOp) : TenantOp → Prop
  | .branch newId parentId lsn =>
    (Tenant.after n pre).accepts newId parentId lsn = true →
      ∀ horizon ∈ horizons pre, horizon ≤ lsn
  | _ => True

instance (n : Nat) (pre : List TenantOp) (op : TenantOp) :
    Decidable (BranchAboveHorizons n pre op) := by
  cases op <;> unfold BranchAboveHorizons <;> infer_instance

theorem BranchAboveHorizons.aboveFloor {n : Nat} {pre : List TenantOp} {op : TenantOp}
    (h : BranchAboveHorizons n pre op) : BranchAboveFloor n pre op := by
  cases op with
  | branch newId parentId lsn => exact fun hacc => floors_le (h hacc) parentId
  | _ => trivial

/-- What a run carries along: the simulation, and what the twin holds, which says
which slots are taken. -/
def TwinInv (n : Nat) (pre : List TenantOp) (t : Tenant) : Prop :=
  (∀ id, ((Tenant.log n pre id).map Modification.slot).Nodup) →
    Collected (floors n pre) (Tenant.after n (withoutGc pre)) t ∧
      Tracks (Tenant.after n (withoutGc pre)) (Tenant.log n pre)

/-- **The simulation.** Along every run whose branches respect the floors, the
tenant is its twin, pruned below the floors. -/
theorem collected_after {n : Nat} {ops : List TenantOp}
    (huniq : ∀ id, ((Tenant.log n ops id).map Modification.slot).Nodup)
    (hbranch : Along (BranchAboveFloor n) ops) :
    Collected (floors n ops) (Tenant.after n (withoutGc ops)) (Tenant.after n ops) := by
  suffices hinv : TwinInv n ops (run Tenant.step (Tenant.new n) ops) from (hinv huniq).1
  refine run_invariant (I := TwinInv n) (fun _ => ⟨Collected.new n, Tracks.new n⟩) ?_ ops hbranch
  -- the slots of the run so far are distinct because those of the longer run are
  intro pre op _ hok ih hu
  change TwinInv n pre (Tenant.after n pre) at ih
  obtain ⟨hlog, hu', hbefore⟩ := Tenant.log_split hu
  obtain ⟨hcol, htr⟩ := ih hbefore
  change Collected _ _ ((Tenant.after n pre).step op) ∧ _
  rw [floors_concat, hlog]
  cases hgc : op.isGc with
  | true =>
    -- the twin stands still while the floors rise
    have htwin : withoutGc (pre ++ [op]) = withoutGc pre := by simp [withoutGc, hgc]
    cases op with
    | gc horizon =>
      rw [htwin]
      refine ⟨hcol.gc horizon, ?_⟩
      simpa only [TenantOp.ingested, List.append_nil] using htr
    | _ => simp [TenantOp.isGc] at hgc
  | false =>
    -- both take the step, and the floors stay where they are
    have htwin : withoutGc (pre ++ [op]) = withoutGc pre ++ [op] := by simp [withoutGc, hgc]
    have hing : ∀ id, op.ingested (Tenant.after n (withoutGc pre)) id
        = op.ingested (Tenant.after n pre) id := by
      intro id
      cases op <;> simp only [TenantOp.ingested, hcol.getTimeline_eq]
    have hfl : raiseFloors (Tenant.after n pre) (floors n pre) op = floors n pre := by
      cases op with
      | gc horizon => simp [TenantOp.isGc] at hgc
      | _ => rfl
    rw [htwin, Tenant.after_concat, hfl]
    constructor
    · refine hcol.step hgc ?_ ?_
      · intro id
        have hid := hu' id
        rw [List.map_append] at hid
        rw [((htr.contents id).map Prod.fst |>.append_right _).nodup_iff, map_fst_entries]
        exact hid
      · intro newId parentId lsn h hfresh hpar
        subst h
        exact hok (Tenant.accepts_of_none lsn hfresh hpar)
    · have hstep := htr.step hgc (fun id => by rw [hing]; exact hu' id)
      simpa only [hing] using hstep

/-- Along a chain of a tenant, every store is read at or above its floor. -/
theorem Collected.eachRead {floor : TimelineId → Lsn} {full t : Tenant}
    (h : Collected floor full t) :
    ∀ {tl : Timeline} {lsn : Lsn}, tl ∈ t.timelines → floor tl.id ≤ lsn →
      tl.EachRead (fun id l => floor id ≤ l) lsn := by
  intro tl
  induction tl with
  | root id => exact fun _ hle => hle
  | branched id p a ih =>
    intro lsn hmem hle
    exact ⟨hle, ih (t.closed _ hmem p rfl) (h.pinned id p a hmem)⟩

/-- **GC transparency over whole runs.** When every accepted branch lies at or
above the horizons passed to earlier collections, every timeline reads, at or
above all horizons used so far, as in the run without collections. -/
theorem gc_transparent (n : Nat) (ops : List TenantOp)
    (huniq : ∀ id, ((Tenant.log n ops id).map Modification.slot).Nodup)
    (hbranch : Along (BranchAboveHorizons n) ops) :
    (Tenant.after n ops).timelines = (Tenant.after n (withoutGc ops)).timelines ∧
    ∀ tl ∈ (Tenant.after n ops).timelines, ∀ key lsn,
      (∀ horizon ∈ horizons ops, horizon ≤ lsn) →
      tl.getPage rustApply (Tenant.after n ops).repos key lsn
        = tl.getPage rustApply (Tenant.after n (withoutGc ops)).repos key lsn := by
  have hcol := collected_after huniq (hbranch.mono fun _ _ h => h.aboveFloor)
  refine ⟨hcol.timelines, ?_⟩
  intro tl htl key lsn hle
  exact Timeline.getPage_eq_of_pruned rustApply_lawful hcol.pruned key
    (hcol.eachRead htl (floors_le hle tl.id))

/-- An image overwritten by a newer one, a collection between the two, a branch
above it and a second collection. -/
def gcSample : List TenantOp :=
  [.create mainId, .ingest mainId [imageSample 10 1, imageSample 20 2], .freeze mainId, .gc 20,
    .branch devId mainId 25, .ingest devId [deltaSample 30 7], .freeze devId, .gc 35]

theorem gc_transparent_sample :
    (Timeline.branched devId (.root mainId) 25).getPage rustApply
        (Tenant.after 4 gcSample).repos ⟨relSample, 0⟩ 40
      = (Timeline.branched devId (.root mainId) 25).getPage rustApply
          (Tenant.after 4 (withoutGc gcSample)).repos ⟨relSample, 0⟩ 40 :=
  (gc_transparent 4 gcSample (Tenant.log_nodup_of_mods (by decide)) (by decide)).2
    _ (by decide) _ _ (by decide)

/-! ## Snapshots -/

/-- **Branches are faithful snapshots above the floors.** In every run whose
accepted branches lie at or above their parent's floor, a branch not yet written
to shows, at every LSN, what its parent would answer at the branch point had no
collection ever run. -/
theorem branch_is_snapshot {redo : WalRedoManager} (hl : redo.Lawful) (n : Nat)
    (ops : List TenantOp) (huniq : ∀ id, ((Tenant.log n ops id).map Modification.slot).Nodup)
    (hbranch : Along (BranchAboveFloor n) ops) :
    ∀ id p lsn, .branched id p lsn ∈ (Tenant.after n ops).timelines →
      ((Tenant.after n ops).repos id).contents = [] → ∀ key readLsn,
        (Timeline.branched id p lsn).getPage redo (Tenant.after n ops).repos key readLsn
          = p.getPage redo (Tenant.after n (withoutGc ops)).repos key lsn := by
  have hcol := collected_after huniq hbranch
  intro id p lsn hmem hempty key readLsn
  rw [Timeline.getPage_inherit hl (Repository.versions_of_empty hempty key readLsn)]
  exact Timeline.getPage_eq_of_pruned hl hcol.pruned key
    (hcol.eachRead ((Tenant.after n ops).closed _ hmem p rfl) (hcol.pinned id p lsn hmem))

/-- A branch above the floor, and a collection after it. -/
def snapshotSample : List TenantOp :=
  [.create mainId, .ingest mainId [imageSample 10 1, imageSample 20 2], .freeze mainId, .gc 20,
    .branch devId mainId 25, .gc 40]

theorem branch_is_snapshot_sample :
    (Timeline.branched devId (.root mainId) 25).getPage rustApply
        (Tenant.after 4 snapshotSample).repos ⟨relSample, 0⟩ 30
      = (Timeline.root mainId).getPage rustApply
          (Tenant.after 4 (withoutGc snapshotSample)).repos ⟨relSample, 0⟩ 25 :=
  branch_is_snapshot rustApply_lawful 4 snapshotSample (Tenant.log_nodup_of_mods (by decide))
    (by decide) devId (.root mainId) 25 (by decide) rfl ⟨relSample, 0⟩ 30

/-- A branch below the floor: the request is accepted, but the page its branch
point needs is gone. -/
def lateBranchSample : List TenantOp :=
  [.create mainId, .ingest mainId [imageSample 10 1, imageSample 30 2], .freeze mainId, .gc 30,
    .branch devId mainId 20]

theorem late_branch_accepted_without_history :
    (Tenant.after 4 (lateBranchSample.take 4)).accepts devId mainId 20 = true
      ∧ (Timeline.branched devId (.root mainId) 20).getPage rustApply
          (Tenant.after 4 lateBranchSample).repos ⟨relSample, 0⟩ 20 = .ok .notFound
      ∧ (Timeline.root mainId).getPage rustApply
          (Tenant.after 4 (withoutGc lateBranchSample)).repos ⟨relSample, 0⟩ 20
            = .ok (.page (List.replicate PAGE_SIZE 1)) := by
  refine ⟨by decide, rfl, ?_⟩
  exact Repository.getPage_of_last_image rustApply_lawful 10 [] rfl List.length_replicate

end AethelDB.Pageserver
