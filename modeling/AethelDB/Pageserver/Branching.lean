import AethelDB.Pageserver.Tenant

/-!
# Copy-on-write reads equal the flattened history

A branch stores only its own writes; a read stitches the chain together level by
level, materializing the parent's page at each branch point and wrapping it up as
an image. `flatHistory` is what the read stands for: one list, the root's
versions up to the first branch point, then each branch's own versions up to the
next, then the last branch's up to the requested LSN. `getPage_eq_flatHistory`
says that redo over this list is what the stitched read returns, errors and
`NotFound` included.

The link to a tenant's runs is `Tracks`: without collection, each store holds
exactly what the run wrote to its timeline.
-/

namespace AethelDB.Pageserver

open AethelDB.Lib

/-- Every store holds what `log` says was written to its timeline. -/
structure Tracks (t : Tenant) (log : TimelineId → List Modification) : Prop where
  contents : ∀ id, (t.repos id).contents.Perm ((log id).map Modification.entry)
  unknown : ∀ id, t.getTimeline id = none → log id = []

namespace Tracks

variable {log : TimelineId → List Modification}

theorem new (n : Nat) : Tracks (Tenant.new n) (fun _ => []) :=
  ⟨fun _ => List.Perm.refl _, fun _ _ => rfl⟩

/-- Registering a timeline gives it an empty store and an empty log. -/
theorem register {t : Tenant} (h : Tracks t log) {tl : Timeline} (hf : t.getTimeline tl.id = none)
    (hp : ∀ p ∈ tl.parent, p ∈ t.timelines) : Tracks (t.register tl hf hp) log := by
  constructor
  · intro id
    show (Function.update t.repos tl.id t.newRepo id).contents.Perm _
    by_cases hid : id = tl.id
    · subst hid
      rw [Function.update_self, h.unknown _ hf]
      exact List.Perm.refl _
    · rw [Function.update_of_ne hid]
      exact h.contents id
  · intro id hid
    refine h.unknown id (Tenant.getTimeline_eq_none_iff.mpr ?_)
    intro hmem
    refine Tenant.getTimeline_eq_none_iff.mp hid ?_
    show id ∈ (t.timelines ++ [tl]).map Timeline.id
    rw [List.map_append]
    exact List.mem_append_left _ hmem

theorem step {t : Tenant} (h : Tracks t log) {op : TenantOp} (hgc : op.isGc = false)
    (huniq : ∀ id, ((log id ++ op.ingested t id).map Modification.slot).Nodup) :
    Tracks (t.step op) (fun id => log id ++ op.ingested t id) := by
  cases op with
  | gc horizon => simp [TenantOp.isGc] at hgc
  | create id =>
    simp only [TenantOp.ingested, List.append_nil]
    rcases t.step_create id with ⟨heq, _⟩ | ⟨hf, hp, heq⟩
    · rw [heq]
      exact h
    · rw [heq]
      exact h.register hf hp
  | branch newId parentId lsn =>
    simp only [TenantOp.ingested, List.append_nil]
    rcases t.step_branch newId parentId lsn with ⟨heq, _⟩ | ⟨parent, hf, hp, _, heq⟩
    · rw [heq]
      exact h
    · rw [heq]
      exact h.register hf hp
  | freeze id =>
    simp only [TenantOp.ingested, List.append_nil]
    refine ⟨?_, ?_⟩
    · exact fun i => (t.step_freeze_contents id i).trans (h.contents i)
    · intro i hi
      have hsame : (t.step (.freeze id)).getTimeline i = t.getTimeline i :=
        Tenant.getTimeline_congr (by simp [Tenant.step, Tenant.freeze]) i
      exact h.unknown i (hsame.symm.trans hi)
  | ingest id mods =>
    refine ⟨?_, ?_⟩
    · intro i
      have hu := huniq i
      rw [List.map_append] at hu
      rw [t.step_ingest_repos, List.map_append]
      refine (Repository.contents_ingest ?_).trans ((h.contents i).append_right _)
      rw [((h.contents i).map Prod.fst |>.append_right _).nodup_iff, map_fst_entries]
      exact hu
    · intro i hi
      have hsame : (t.step (.ingest id mods)).getTimeline i = t.getTimeline i :=
        Tenant.getTimeline_congr (by simp [Tenant.step, Tenant.ingest]) i
      rw [hsame] at hi
      simp only [TenantOp.ingested]
      rw [h.unknown i hi, List.nil_append, if_neg]
      intro h
      obtain ⟨rfl, hsome⟩ := h
      rw [hi] at hsome
      simp at hsome

theorem distinct {t : Tenant} (h : Tracks t log)
    (huniq : ∀ id, ((log id).map Modification.slot).Nodup) (id : TimelineId) :
    (t.repos id).Distinct := by
  unfold Repository.Distinct
  rw [((h.contents id).map Prod.fst).nodup_iff, map_fst_entries]
  exact huniq id

theorem after {n : Nat} {ops : List TenantOp} (hgc : ∀ op ∈ ops, op.isGc = false)
    (huniq : ∀ id, ((Tenant.log n ops id).map Modification.slot).Nodup) :
    Tracks (Tenant.after n ops) (Tenant.log n ops) := by
  induction ops using List.reverseRecOn with
  | nil => exact new n
  | append_singleton ops op ih =>
    obtain ⟨hlog, hlast, hbefore⟩ := Tenant.log_split huniq
    have hpre := ih (fun o ho => hgc o (List.mem_append_left _ ho)) hbefore
    rw [Tenant.after_concat, hlog]
    exact hpre.step (hgc op (by simp)) hlast

end Tracks

/-! ## The flat history of a chain -/

namespace Timeline

/-- The versions a read of `key` at `lsn` on the chain stands for. -/
def flatHistory (log : TimelineId → List Modification) : Timeline → PageKey → Lsn → Versions
  | root id, key, lsn => refVersions (log id) key lsn
  | branched id parent ancestorLsn, key, lsn =>
    parent.flatHistory log key ancestorLsn ++ refVersions (log id) key lsn

/-- Every branch of the chain writes above its branch point only. -/
def WritesAboveBranchPoint (log : TimelineId → List Modification) : Timeline → Prop
  | root _ => True
  | branched id parent ancestorLsn =>
    (∀ m ∈ log id, ancestorLsn < m.lsn) ∧ parent.WritesAboveBranchPoint log

theorem mem_refVersions {mods : List Modification} {key : PageKey} {lsn : Lsn}
    {e : Lsn × PageVersion} (h : e ∈ refVersions mods key lsn) : ∃ m ∈ mods, m.lsn = e.1 := by
  unfold refVersions at h
  rw [mem_byPos] at h
  obtain ⟨m, hm, rfl⟩ := List.mem_map.mp h
  exact ⟨m, (List.mem_filter.mp hm).1, rfl⟩

/-- Replaying deltas over an inherited page. -/
theorem nativeReplay_over_image {a : Lsn} {page : List UInt8} (hp : page.length = PAGE_SIZE)
    {vs : Versions} (hno : ¬ HasBase PageVersion.isBase vs) :
    nativeReplay ((a, .image page) :: vs) = (vs.foldlM nativeStep page).map some := by
  have hone : nativeReplay [(a, .image page)] = .ok (some page) := by
    rw [← rustApply_eq_replay ⟨⟨0, 0, 0, .main⟩, 0⟩ a]
    exact rustApply_lawful.image _ _ _ _ hp
  have happ := nativeReplay_append hno [(a, .image page)]
  rw [hone] at happ
  exact happ

/-- The stitched read is redo over the flat list. The induction is up the chain;
at each branch the own history either has a base, and decides alone, or extends
what the parent answered. -/
theorem getPage_eq_flatHistory {repos : Stores} {log : TimelineId → List Modification}
    (hv : ∀ id key lsn, (repos id).versions key lsn none = refVersions (log id) key lsn)
    (key : PageKey) :
    ∀ {t : Timeline} {lsn : Lsn}, t.WritesAboveBranchPoint log →
      t.getPage rustApply repos key lsn
        = Repository.lookupOf (nativeReplay (t.flatHistory log key lsn)) := by
  have hown : ∀ id lsn, (repos id).getPage rustApply key lsn
      = Repository.lookupOf (nativeReplay (refVersions (log id) key lsn)) := by
    intro id lsn
    rw [Repository.getPage, Repository.getPageWithBase, rustApply_eq_replay, hv]
  intro t
  induction t with
  | root id => exact fun _ => hown id _
  | branched id p a ih =>
    intro lsn hab
    rw [flatHistory]
    by_cases hb : HasBase PageVersion.isBase (refVersions (log id) key lsn)
    -- an own base hides the parent's part of the list, and the parent is not asked
    · have hflat : nativeReplay (p.flatHistory log key a ++ refVersions (log id) key lsn)
          = nativeReplay (refVersions (log id) key lsn) := replay_append_of_base hb _
      have hne : (repos id).getPage rustApply key lsn ≠ .ok .notFound := by
        intro hnf
        exact (Repository.getPage_notFound_iff rustApply_lawful).mp hnf (by rw [hv]; exact hb)
      rw [getPage_of_own hne, hflat, hown]
    -- own deltas only: the parent's page takes the place of its whole history
    · have hnf : (repos id).getPage rustApply key lsn = .ok .notFound :=
        (Repository.getPage_notFound_iff rustApply_lawful).mpr (by rw [hv]; exact hb)
      rw [getPage_of_notFound hnf, ih hab.2, nativeReplay_append hb]
      rcases hp : nativeReplay (p.flatHistory log key a) with e | _ | page
      · cases e <;> rfl
      · rfl
      · -- writes above the branch point are what puts the inherited image first
        have hfront : (repos id).versions key lsn (some (a, page))
            = (a, .image page) :: refVersions (log id) key lsn := by
          rw [Repository.versions_base, hv]
          cases hr : refVersions (log id) key lsn with
          | nil => rfl
          | cons y ys =>
            obtain ⟨m, hm, hl⟩ := mem_refVersions (hr ▸ List.mem_cons_self ..)
            rw [List.orderedInsert_cons_of_le]
            rw [← hl]
            exact le_of_lt (hab.1 m hm)
        show (repos id).getPageWithBase rustApply key lsn (some (a, page)) = _
        rw [Repository.getPageWithBase, rustApply_eq_replay, hfront,
          nativeReplay_over_image (nativeReplay_length hp) hb]

/-- Branch points that do not decrease down the chain, nor past `lsn`. -/
def Ascending : Timeline → Lsn → Prop
  | root _, _ => True
  | branched _ parent ancestorLsn, lsn => ancestorLsn ≤ lsn ∧ parent.Ascending ancestorLsn

/-- The flat list is in LSN order, as redo expects its history. -/
theorem flatHistory_ordered {log : TimelineId → List Modification}
    (huniq : ∀ id, ((log id).map Modification.slot).Nodup) (key : PageKey) :
    ∀ {t : Timeline} {lsn : Lsn}, t.WritesAboveBranchPoint log → t.Ascending lsn →
      Ordered (t.flatHistory log key lsn) ∧ ∀ e ∈ t.flatHistory log key lsn, e.1 ≤ lsn := by
  have hown : ∀ id lsn, Ordered (refVersions (log id) key lsn)
      ∧ ∀ e ∈ refVersions (log id) key lsn, e.1 ≤ lsn := by
    intro id lsn
    unfold refVersions
    rw [← versionsOf_entries]
    refine ⟨byPos_ordered (versionsOf_nodup ?_ key lsn), ?_⟩
    · rw [map_fst_entries]
      exact huniq id
    · intro e he
      exact (mem_versionsOf.mp (mem_byPos.mp he)).2
  intro t
  induction t with
  | root id => exact fun _ _ => hown id _
  | branched id p a ih =>
    intro lsn hab hasc
    obtain ⟨hpo, hpl⟩ := ih hab.2 hasc.2
    obtain ⟨hoo, hol⟩ := hown id lsn
    refine ⟨List.pairwise_append.mpr ⟨hpo, hoo, ?_⟩, ?_⟩
    · intro x hx y hy
      obtain ⟨m, hm, hl⟩ := mem_refVersions hy
      rw [← hl]
      exact lt_of_le_of_lt (hpl x hx) (hab.1 m hm)
    · intro e he
      rcases List.mem_append.mp he with he | he
      · exact (hpl e he).trans hasc.1
      · exact hol e he

end Timeline

/-- **Copy-on-write reads equal the flattened history.** In every run of creates,
branches, writes and freezes, on every chain of timelines that writes above its
branch points only, a read is redo over the flat list; with branch points in
order the list is a history in LSN order. -/
theorem tenant_getPage_eq_flatHistory (n : Nat) (ops : List TenantOp)
    (hgc : ∀ op ∈ ops, op.isGc = false)
    (huniq : ∀ id, ((Tenant.log n ops id).map Modification.slot).Nodup)
    (t : Timeline) (habove : t.WritesAboveBranchPoint (Tenant.log n ops)) (key : PageKey)
    (lsn : Lsn) :
    t.getPage rustApply (Tenant.after n ops).repos key lsn
        = Repository.lookupOf
            (rustApply.reconstruct key lsn (t.flatHistory (Tenant.log n ops) key lsn))
      ∧ (t.Ascending lsn → Ordered (t.flatHistory (Tenant.log n ops) key lsn)) := by
  have htracks := Tracks.after hgc huniq
  constructor
  · rw [rustApply_eq_replay]
    refine Timeline.getPage_eq_flatHistory ?_ key habove
    intro id k l
    exact Repository.versions_of_contents (htracks.contents id) (huniq id) k l
  · exact fun hasc => (Timeline.flatHistory_ordered huniq key habove hasc).1

/-- An image on `main`, a branch above it and a delta on the branch. -/
def branchSample : List TenantOp :=
  [.create mainId, .ingest mainId [imageSample 10 1], .branch devId mainId 20,
    .ingest devId [deltaSample 30 7]]

theorem tenant_getPage_eq_flatHistory_sample :
    (Timeline.branched devId (.root mainId) 20).getPage rustApply
        (Tenant.after 4 branchSample).repos ⟨relSample, 0⟩ 30
      = Repository.lookupOf (rustApply.reconstruct ⟨relSample, 0⟩ 30
          ((Timeline.branched devId (.root mainId) 20).flatHistory
            (Tenant.log 4 branchSample) ⟨relSample, 0⟩ 30)) :=
  (tenant_getPage_eq_flatHistory 4 branchSample (by decide)
    (Tenant.log_nodup_of_mods (by decide)) (.branched devId (.root mainId) 20)
    ⟨by decide, trivial⟩ ⟨relSample, 0⟩ 30).1

end AethelDB.Pageserver
