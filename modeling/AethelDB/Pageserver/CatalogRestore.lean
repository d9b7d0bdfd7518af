import AethelDB.Pageserver.Catalog

/-!
# Restoring any catalog

`restore` of `pageserver/src/catalog.rs` on catalogs that nobody wrote as a snapshot: records in any
order, with parents that are missing, that come later, or that lead back to the branch itself. The
loop goes through a tenant's records until a pass creates nothing; what is then there is a question
of the records alone, not of their order. A timeline is there if its chain of ancestors reaches a
recorded root or a timeline the tenant had before (`Anchored`), and the others stay pending: their
chains end at an id nobody has, or go round in a circle.

Both inclusions come from the library's rule for such loops: a visit only ever creates an anchored
timeline (`Progress`), and in the end every record is done or waits for a parent that is not there.

The one text that is not coped with is an ancestor on which the id parser panics. Ids that are not
read are meant to be skipped, and such a record is, but only if its timeline exists.
-/

namespace AethelDB.Pageserver

open AethelDB.Lib

/-! ## What is asked of a catalog, and what is to come out -/

/-- Every id is read, and no two tenants, nor two timelines of a tenant, have the same one. -/
structure DistinctIds (records : List TenantRecord) : Prop where
  tenants : ∀ r ∈ records, ∃ id, TenantId.parse r.id = .ok id
  tenants_nodup : (records.map fun r => TenantId.parse r.id).Nodup
  timelines : ∀ r ∈ records, ∀ tl ∈ r.timelines, ∃ id, TimelineId.parse tl.id = .ok id
  timelines_nodup : ∀ r ∈ records, (r.timelines.map fun tl => TimelineId.parse tl.id).Nodup

/-- The chain of ancestors reaches a recorded root or a timeline of the tenant. -/
inductive Anchored (t : Tenant) (records : List TimelineRecord) : TimelineId → Prop
  | existing {id : TimelineId} : id ∈ t.timelineIds → Anchored t records id
  | root {r : TimelineRecord} {id : TimelineId} : r ∈ records → TimelineId.parse r.id = .ok id →
      r.ancestor = none → Anchored t records id
  | branch {r : TimelineRecord} {id parent : TimelineId} {text : String} : r ∈ records →
      TimelineId.parse r.id = .ok id → r.ancestor = some text → TimelineId.parse text = .ok parent →
      Anchored t records parent → Anchored t records id

/-- A timeline with the ancestry of a record: the parent is the tenant's timeline of the recorded id,
and the branch point the recorded one or 0. -/
def RecordedAs (t : Tenant) (r : TimelineRecord) (id : TimelineId) (tl : Timeline) : Prop :=
  r.ancestor = none ∧ tl = .root id
    ∨ ∃ text parent p, r.ancestor = some text ∧ TimelineId.parse text = .ok parent
      ∧ t.getTimeline parent = some p ∧ tl = .branched id p ⟨r.ancestorLsn.getD 0⟩

/-- What restoring its records makes of a tenant. -/
structure TenantRestored (t : Tenant) (records : List TimelineRecord) (t' : Tenant) : Prop where
  /-- The loop comes to an end by its own test. -/
  ends : ∃ orphans, Ends restoreTimeline t records (t', orphans)
  kept : ∀ id ∈ t.timelineIds, t'.getTimeline id = t.getTimeline id ∧ t'.repos id = t.repos id
  ids : ∀ id, id ∈ t'.timelineIds ↔ Anchored t records id
  recorded : ∀ r ∈ records, ∀ id, TimelineId.parse r.id = .ok id → id ∉ t.timelineIds →
    Anchored t records id → ∃ tl, t'.getTimeline id = some tl ∧ RecordedAs t' r id tl

/-- What restoring a catalog makes of a manager. -/
structure Restored (m : TenantManager) (records : List TenantRecord) (m' : TenantManager) : Prop where
  listed : ∀ r ∈ records, ∀ id, TenantId.parse r.id = .ok id →
    ∃ t', m'.get id = some t' ∧ TenantRestored (m.getOrCreate id).2 r.timelines t'
  others : ∀ id, (∀ r ∈ records, TenantId.parse r.id ≠ .ok id) → m'.get id = m.get id

/-- The parser panics on no ancestor of a timeline that is still to be created. -/
def ReadableAncestors (t : Tenant) (records : List TimelineRecord) : Prop :=
  ∀ r ∈ records, ∀ text, r.ancestor = some text → TimelineId.parse text = .panicked →
    ∃ id ∈ t.timelineIds, TimelineId.parse r.id = .ok id

/-! ## One record -/

/-- Everything a visit can do. -/
theorem restoreTimeline_cases (s : Tenant) {r : TimelineRecord} {id : TimelineId}
    (hid : TimelineId.parse r.id = .ok id) :
    id ∈ s.timelineIds ∧ restoreTimeline s r = some (s, false)
      ∨ id ∉ s.timelineIds
        ∧ ((∃ tl hfresh hparent, tl.id = id ∧ RecordedAs s r id tl
            ∧ restoreTimeline s r = some (s.register tl hfresh hparent, false))
          ∨ (∃ text msg, r.ancestor = some text ∧ TimelineId.parse text = .error msg
            ∧ restoreTimeline s r = some (s, false))
          ∨ (∃ text parent, r.ancestor = some text ∧ TimelineId.parse text = .ok parent
            ∧ parent ∉ s.timelineIds ∧ restoreTimeline s r = some (s, true))
          ∨ ∃ text, r.ancestor = some text ∧ TimelineId.parse text = .panicked
            ∧ restoreTimeline s r = none) := by
  simp only [restoreTimeline, hid]
  cases hg : s.getTimeline id with
  | some tl =>
    have hmem := mt Tenant.getTimeline_eq_none_iff.mpr (by rw [hg]; simp)
    exact .inl ⟨not_not.mp hmem, rfl⟩
  | none =>
    refine .inr ⟨Tenant.getTimeline_eq_none_iff.mp hg, ?_⟩
    cases hanc : r.ancestor with
    | none =>
      refine .inl ⟨.root id, hg, s.root_parent_mem id, rfl, .inl ⟨hanc, rfl⟩, ?_⟩
      simp only [Option.isSome_none, Bool.false_eq_true, if_false, Tenant.step,
        Tenant.createTimeline_of_none hg]
    | some text =>
      cases hparse : TimelineId.parse text with
      | panicked => exact .inr (.inr (.inr ⟨text, rfl, hparse, by simp [hparse]⟩))
      | error msg => exact .inr (.inl ⟨text, msg, rfl, hparse, by simp [hparse]⟩)
      | ok parent =>
        cases hgp : s.getTimeline parent with
        | none =>
          exact .inr (.inr (.inl ⟨text, parent, rfl, hparse, Tenant.getTimeline_eq_none_iff.mp hgp,
            by simp [hparse, hgp]⟩))
        | some p =>
          refine .inl ⟨.branched id p ⟨r.ancestorLsn.getD 0⟩, hg, Tenant.branched_parent_mem hgp _ _, rfl,
            .inr ⟨text, parent, p, hanc, hparse, hgp, rfl⟩, ?_⟩
          simp only [Option.isSome_none, Bool.false_eq_true, if_false, hparse, hgp, Option.isSome_some,
            if_true, Tenant.step, Tenant.branchTimeline_of_none _ hg hgp]

/-! ## One tenant -/

/-- A restore under way: what was there is there, and what is new is anchored and as recorded. -/
structure Progress (t : Tenant) (records : List TimelineRecord) (s : Tenant) : Prop where
  kept : ∀ id ∈ t.timelineIds, s.getTimeline id = t.getTimeline id ∧ s.repos id = t.repos id
  anchored : ∀ id ∈ s.timelineIds, Anchored t records id
  recorded : ∀ id ∈ s.timelineIds, id ∉ t.timelineIds → ∃ r ∈ records, TimelineId.parse r.id = .ok id
    ∧ ∃ tl, s.getTimeline id = some tl ∧ RecordedAs s r id tl

/-- The record is dealt with: its timeline is there, or its ancestor is no id. -/
def RecordDone (s : Tenant) (r : TimelineRecord) : Prop :=
  (∃ id ∈ s.timelineIds, TimelineId.parse r.id = .ok id)
    ∨ ∃ text msg, r.ancestor = some text ∧ TimelineId.parse text = .error msg

/-- The record waits for its parent. -/
def RecordStuck (s : Tenant) (r : TimelineRecord) : Prop :=
  ∃ text parent, r.ancestor = some text ∧ TimelineId.parse text = .ok parent ∧ parent ∉ s.timelineIds

section Tenant

variable {t s : Tenant} {records : List TimelineRecord}
variable {id : TimelineId} {tl : Timeline} {r : TimelineRecord}

theorem mem_timelineIds_iff : id ∈ s.timelineIds ↔ ∃ tl, s.getTimeline id = some tl := by
  rw [← Option.isSome_iff_exists, Option.isSome_iff_ne_none, ne_eq, Tenant.getTimeline_eq_none_iff,
    not_not]

theorem mem_timelineIds_register (hfresh : s.getTimeline tl.id = none)
    (hparent : ∀ p ∈ tl.parent, p ∈ s.timelines) (id : TimelineId) :
    id ∈ (s.register tl hfresh hparent).timelineIds ↔ id ∈ s.timelineIds ∨ id = tl.id := by
  show id ∈ (s.timelines ++ [tl]).map Timeline.id ↔ _
  rw [List.map_append, List.mem_append, List.map_singleton, List.mem_singleton]
  exact Iff.rfl

/-- A timeline keeps its recorded ancestry as long as the others stay. -/
theorem RecordedAs.mono {s' : Tenant}
    (hs : ∀ id tl, s.getTimeline id = some tl → s'.getTimeline id = some tl)
    (h : RecordedAs s r id tl) : RecordedAs s' r id tl := by
  refine h.imp_right ?_
  rintro ⟨text, parent, p, hanc, hparse, hp, htl⟩
  exact ⟨text, parent, p, hanc, hparse, hs parent p hp, htl⟩

theorem progress_refl (t : Tenant) (records : List TimelineRecord) : Progress t records t :=
  ⟨fun _ _ => ⟨rfl, rfl⟩, fun _ hid => .existing hid, fun _ hid hnew => absurd hid hnew⟩

/-- The parent of a recorded timeline is there, so the timeline is anchored if the others are. -/
theorem Progress.anchored_of_recordedAs (h : Progress t records s) (hr : r ∈ records)
    (hid : TimelineId.parse r.id = .ok id) (htl : RecordedAs s r id tl) :
    Anchored t records id := by
  rcases htl with ⟨hanc, -⟩ | ⟨text, parent, p, hanc, hparse, hp, -⟩
  · exact .root hr hid hanc
  · exact .branch hr hid hanc hparse (h.anchored parent (mem_timelineIds_iff.mpr ⟨p, hp⟩))

theorem Progress.register (h : Progress t records s) (hr : r ∈ records)
    (hid : TimelineId.parse r.id = .ok tl.id) (htl : RecordedAs s r tl.id tl)
    (hfresh : s.getTimeline tl.id = none) (hparent : ∀ p ∈ tl.parent, p ∈ s.timelines) :
    Progress t records (s.register tl hfresh hparent) := by
  have hget := Tenant.getTimeline_register hfresh hparent
  have hothers : ∀ id ∈ s.timelineIds, id ≠ tl.id := by
    rintro id hmem rfl
    exact Tenant.getTimeline_eq_none_iff.mp hfresh hmem
  have hmono : ∀ id u, s.getTimeline id = some u →
      (s.register tl hfresh hparent).getTimeline id = some u := by
    intro id u hu
    rw [hget, if_neg (hothers id (mem_timelineIds_iff.mpr ⟨u, hu⟩)), hu]
  refine ⟨fun id hmem => ?_, fun id hmem => ?_, fun id hmem hnew => ?_⟩
  · obtain ⟨hkept, hrepo⟩ := h.kept id hmem
    have hne : id ≠ tl.id := by
      refine hothers id (mem_timelineIds_iff.mpr ?_)
      rw [hkept]
      exact mem_timelineIds_iff.mp hmem
    rw [hget, if_neg hne]
    exact ⟨hkept, (Function.update_of_ne hne _ _).trans hrepo⟩
  · rcases (mem_timelineIds_register hfresh hparent id).mp hmem with hmem | rfl
    · exact h.anchored id hmem
    · exact h.anchored_of_recordedAs hr hid htl
  · rcases (mem_timelineIds_register hfresh hparent id).mp hmem with hmem | rfl
    · obtain ⟨r', hr', hid', u, hu, hrec⟩ := h.recorded id hmem hnew
      exact ⟨r', hr', hid', u, hmono id u hu, hrec.mono hmono⟩
    · exact ⟨r, hr, hid, tl, by rw [hget, if_pos rfl], htl.mono hmono⟩

theorem Progress.mem_of_mem (h : Progress t records s) (hid : id ∈ t.timelineIds) :
    id ∈ s.timelineIds := by
  rw [mem_timelineIds_iff, (h.kept id hid).1]
  exact mem_timelineIds_iff.mp hid

/-- **The records come to rest**: each is done, or waits for a parent that is not there. -/
theorem rests_restoreTimeline (hids : ∀ r ∈ records, ∃ id, TimelineId.parse r.id = .ok id)
    (hreads : ReadableAncestors t records) :
    Rests restoreTimeline records (Progress t records) RecordDone RecordStuck where
  visit_eq := by
    intro s r hs hr
    obtain ⟨id, hid⟩ := hids r hr
    rcases restoreTimeline_cases s hid with ⟨hmem, hvisit⟩ | ⟨hnew, hcase⟩
    · exact ⟨s, false, hvisit, hs, fun _ _ hy => hy, fun _ => .inl ⟨id, hmem, hid⟩, fun h => absurd h (by simp)⟩
    · rcases hcase with ⟨tl, hfresh, hparent, rfl, htl, hvisit⟩ | ⟨text, msg, hanc, hparse, hvisit⟩
        | ⟨text, parent, hanc, hparse, hmissing, hvisit⟩ | ⟨text, hanc, hparse, -⟩
      · have hmem := mem_timelineIds_register hfresh hparent
        refine ⟨_, false, hvisit, hs.register hr hid htl hfresh hparent, fun y _ hy => ?_,
          fun _ => .inl ⟨tl.id, (hmem tl.id).mpr (.inr rfl), hid⟩, fun h => absurd h (by simp)⟩
        refine hy.imp_left ?_
        rintro ⟨id', hid', hparse⟩
        exact ⟨id', (hmem id').mpr (.inl hid'), hparse⟩
      · exact ⟨s, false, hvisit, hs, fun _ _ hy => hy, fun _ => .inr ⟨text, msg, hanc, hparse⟩,
          fun h => absurd h (by simp)⟩
      · exact ⟨s, true, hvisit, hs, fun _ _ hy => hy, fun h => absurd h (by simp),
          fun _ => ⟨rfl, text, parent, hanc, hparse, hmissing⟩⟩
      · obtain ⟨id', hid', hsame⟩ := hreads r hr text hanc hparse
        obtain rfl : id = id' := Parsed.ok.inj (hid.symm.trans hsame)
        exact absurd (hs.mem_of_mem hid') hnew

/-- At rest, everything anchored is there. -/
theorem mem_of_anchored (hs : Progress t records s)
    (hrest : ∀ r ∈ records, RecordDone s r ∨ RecordStuck s r) (h : Anchored t records id) :
    id ∈ s.timelineIds := by
  -- the chain is followed upwards: the parent is there, so nothing keeps the record waiting
  induction h with
  | existing hmem => exact hs.mem_of_mem hmem
  | @root r id hr hid hanc =>
    rcases hrest r hr with (⟨id', hmem, hid'⟩ | ⟨text, -, hanc', -⟩) | ⟨text, -, hanc', -⟩
    · obtain rfl : id = id' := Parsed.ok.inj (hid.symm.trans hid')
      exact hmem
    · exact absurd (hanc.symm.trans hanc') (by simp)
    · exact absurd (hanc.symm.trans hanc') (by simp)
  | @branch r id parent text hr hid hanc hparse _ ih =>
    rcases hrest r hr with (⟨id', hmem, hid'⟩ | ⟨text', msg, hanc', hparse'⟩)
      | ⟨text', parent', hanc', hparse', hmissing⟩
    · obtain rfl : id = id' := Parsed.ok.inj (hid.symm.trans hid')
      exact hmem
    · obtain rfl := Option.some.inj (hanc.symm.trans hanc')
      exact absurd (hparse.symm.trans hparse') (by simp)
    · obtain rfl := Option.some.inj (hanc.symm.trans hanc')
      obtain rfl := Parsed.ok.inj (hparse.symm.trans hparse')
      exact absurd ih hmissing

/-- **A tenant is restored** if no text stands in the way. -/
theorem retry_tenantRestored (hids : ∀ r ∈ records, ∃ id, TimelineId.parse r.id = .ok id)
    (hnodup : (records.map fun r => TimelineId.parse r.id).Nodup) (hreads : ReadableAncestors t records) :
    ∃ t' orphans, retry restoreTimeline t records = some (t', orphans) ∧ TenantRestored t records t' := by
  obtain ⟨t', orphans, hretry, hprogress, hrest⟩ :=
    (rests_restoreTimeline hids hreads).retry_eq (progress_refl t records)
  refine ⟨t', orphans, hretry, ⟨orphans, ends_of_retry hretry⟩, hprogress.kept,
    fun id => ⟨hprogress.anchored id, mem_of_anchored hprogress hrest⟩, fun r hr id hid hnew hanchored => ?_⟩
  obtain ⟨r', hr', hid', tl, htl, hrec⟩ :=
    hprogress.recorded id (mem_of_anchored hprogress hrest hanchored) hnew
  obtain rfl : r' = r := List.inj_on_of_nodup_map hnodup hr' hr (hid'.trans hid.symm)
  exact ⟨tl, htl, hrec⟩

/-- **A tenant is not restored** if a text stands in the way: its record is visited in the first pass
and no other record creates its timeline. -/
theorem retry_eq_none_of_panicked (hids : ∀ r ∈ records, ∃ id, TimelineId.parse r.id = .ok id)
    (hnodup : (records.map fun r => TimelineId.parse r.id).Nodup) (hreads : ¬ReadableAncestors t records) :
    retry restoreTimeline t records = none := by
  unfold ReadableAncestors at hreads
  push Not at hreads
  obtain ⟨r, hr, text, hanc, hpanics, hnew⟩ := hreads
  obtain ⟨id, hid⟩ := hids r hr
  have hmissing : id ∉ t.timelineIds := fun hmem => hnew id hmem hid
  refine retry_eq_none (pass_eq_none (J := fun s => id ∉ s.timelineIds) (fun s hs => ?_) hmissing hr ?_)
  · simp only [restoreTimeline, hid, Tenant.getTimeline_eq_none_iff.mpr hs, hanc, hpanics,
      Option.isSome_none, Bool.false_eq_true, if_false]
  · intro y hy hne s s' keep hs hvisit
    obtain ⟨idy, hidy⟩ := hids y hy
    have hother : id ≠ idy := by
      rintro rfl
      exact hne (List.inj_on_of_nodup_map hnodup hy hr (hidy.trans hid.symm))
    have hsame : ∀ k, restoreTimeline s y = some (s, k) → id ∉ s'.timelineIds := by
      intro k hk
      obtain ⟨rfl, -⟩ := Prod.mk.inj (Option.some.inj (hk.symm.trans hvisit))
      exact hs
    rcases restoreTimeline_cases s hidy with ⟨-, hv⟩ | ⟨-, hcase⟩
    · exact hsame _ hv
    · rcases hcase with ⟨tl, hfresh, hparent, rfl, -, hv⟩ | ⟨-, -, -, -, hv⟩ | ⟨-, -, -, -, -, hv⟩
        | ⟨-, -, -, hv⟩
      · obtain ⟨rfl, -⟩ := Prod.mk.inj (Option.some.inj (hv.symm.trans hvisit))
        rw [mem_timelineIds_register]
        exact not_or_intro hs hother
      · exact hsame _ hv
      · exact hsame _ hv
      · exact absurd (hv.symm.trans hvisit) (by simp)

end Tenant

/-! ## The whole catalog -/

/-- No ancestor of a timeline that is still to be created makes the parser panic. -/
def ReadableCatalog (m : TenantManager) (records : List TenantRecord) : Prop :=
  ∀ r ∈ records, ∀ id, TenantId.parse r.id = .ok id →
    ReadableAncestors (m.getOrCreate id).2 r.timelines

theorem TenantManager.getOrCreate_snd (m : TenantManager) (id : TenantId) :
    (m.getOrCreate id).2 = (m.get id).getD m.buildTenant := by
  cases h : m.get id with
  | none =>
    rw [getOrCreate_of_none h]
    rfl
  | some t =>
    rw [getOrCreate_of_some h]
    rfl

theorem restoreTenant_eq_some {m m' : TenantManager} {r : TenantRecord} {id : TenantId}
    (hid : TenantId.parse r.id = .ok id) :
    restoreTenant m r = some m' ↔
      ∃ t' orphans, retry restoreTimeline (m.getOrCreate id).2 r.timelines = some (t', orphans)
        ∧ m' = (m.getOrCreate id).1.onTenant id fun _ => t' := by
  rw [restoreTenant, hid]
  simp only [Option.map_eq_some_iff]
  constructor
  · rintro ⟨⟨t', orphans⟩, hretry, rfl⟩
    exact ⟨t', orphans, hretry, rfl⟩
  · rintro ⟨t', orphans, hretry, rfl⟩
    exact ⟨(t', orphans), hretry, rfl⟩

theorem get_written (m : TenantManager) (id : TenantId) (t' : Tenant) (i : TenantId) :
    ((m.getOrCreate id).1.onTenant id fun _ => t').get i = if i = id then some t' else m.get i := by
  rw [TenantManager.get_onTenant]
  by_cases hi : i = id
  · subst hi
    rw [if_pos rfl, if_pos rfl, TenantManager.get_getOrCreate_self]
    rfl
  · rw [if_neg hi, if_neg hi, TenantManager.get_getOrCreate, if_neg (fun h => hi h.1)]

theorem getOrCreate_written {m : TenantManager} {id i : TenantId} (h : i ≠ id) (t' : Tenant) :
    (((m.getOrCreate id).1.onTenant id fun _ => t').getOrCreate i).2 = (m.getOrCreate i).2 := by
  have hbuild : ((m.getOrCreate id).1.onTenant id fun _ => t').buildTenant = m.buildTenant := by
    show (m.getOrCreate id).1.buildTenant = m.buildTenant
    unfold TenantManager.getOrCreate
    split <;> rfl
  rw [TenantManager.getOrCreate_snd, TenantManager.getOrCreate_snd, get_written, if_neg h, hbuild]

section Catalog

variable {r : TenantRecord} {records : List TenantRecord}

theorem DistinctIds.tail (h : DistinctIds (r :: records)) : DistinctIds records where
  tenants x hx := h.tenants x (List.mem_cons_of_mem _ hx)
  tenants_nodup := (List.nodup_cons.mp h.tenants_nodup).2
  timelines x hx := h.timelines x (List.mem_cons_of_mem _ hx)
  timelines_nodup x hx := h.timelines_nodup x (List.mem_cons_of_mem _ hx)

theorem DistinctIds.head_ne (h : DistinctIds (r :: records)) {id : TenantId}
    (hid : TenantId.parse r.id = .ok id) : ∀ x ∈ records, TenantId.parse x.id ≠ .ok id := by
  intro x hx heq
  have hnot := (List.nodup_cons.mp h.tenants_nodup).1
  exact hnot (List.mem_map.mpr ⟨x, hx, heq.trans hid.symm⟩)

/-- Restoring one tenant does not change what the others are restored from. -/
theorem readableCatalog_written {m : TenantManager} {id : TenantId} (t' : Tenant)
    (h : ∀ x ∈ records, TenantId.parse x.id ≠ .ok id) :
    ReadableCatalog ((m.getOrCreate id).1.onTenant id fun _ => t') records ↔ ReadableCatalog m records := by
  have hsame : ∀ x ∈ records, ∀ i, TenantId.parse x.id = .ok i →
      (((m.getOrCreate id).1.onTenant id fun _ => t').getOrCreate i).2 = (m.getOrCreate i).2 := by
    intro x hx i hi
    refine getOrCreate_written ?_ t'
    rintro rfl
    exact h x hx hi
  constructor
  · intro hreads x hx i hi
    rw [← hsame x hx i hi]
    exact hreads x hx i hi
  · intro hreads x hx i hi
    rw [hsame x hx i hi]
    exact hreads x hx i hi

theorem foldlM_restored {m : TenantManager} (hids : DistinctIds records)
    (hreads : ReadableCatalog m records) :
    ∃ m', records.foldlM restoreTenant m = some m' ∧ Restored m records m' := by
  induction records generalizing m with
  | nil => exact ⟨m, rfl, fun x hx => absurd hx List.not_mem_nil, fun _ _ => rfl⟩
  | cons r records ih =>
    obtain ⟨id, hid⟩ := hids.tenants r List.mem_cons_self
    have hothers := hids.head_ne hid
    obtain ⟨t', orphans, hretry, hrestored⟩ := retry_tenantRestored
      (hids.timelines r List.mem_cons_self) (hids.timelines_nodup r List.mem_cons_self)
      (hreads r List.mem_cons_self id hid)
    have hstep := (restoreTenant_eq_some hid).mpr ⟨t', orphans, hretry, rfl⟩
    have hrest : ReadableCatalog m records := fun x hx => hreads x (List.mem_cons_of_mem _ hx)
    obtain ⟨m', hm', hlisted, hkept⟩ := ih hids.tail ((readableCatalog_written t' hothers).mpr hrest)
    refine ⟨m', by rw [List.foldlM_cons, hstep]; exact hm', fun x hx i hi => ?_, fun i hi => ?_⟩
    · rcases List.mem_cons.mp hx with rfl | hx
      · obtain rfl : id = i := Parsed.ok.inj (hid.symm.trans hi)
        exact ⟨t', by rw [hkept id hothers, get_written, if_pos rfl], hrestored⟩
      · have hne : i ≠ id := by
          rintro rfl
          exact hothers x hx hi
        obtain ⟨u, hu, hurestored⟩ := hlisted x hx i hi
        rw [getOrCreate_written hne] at hurestored
        exact ⟨u, hu, hurestored⟩
    · have hne : i ≠ id := by
        rintro rfl
        exact hi r List.mem_cons_self hid
      rw [hkept i fun x hx => hi x (List.mem_cons_of_mem _ hx), get_written, if_neg hne]

/-- A restore that returns had no text in its way. -/
theorem readableCatalog_of_foldlM {m m' : TenantManager} (hids : DistinctIds records)
    (h : records.foldlM restoreTenant m = some m') : ReadableCatalog m records := by
  induction records generalizing m with
  | nil => exact fun x hx => absurd hx List.not_mem_nil
  | cons r records ih =>
    obtain ⟨id, hid⟩ := hids.tenants r List.mem_cons_self
    rw [List.foldlM_cons, Option.bind_eq_bind, Option.bind_eq_some_iff] at h
    obtain ⟨m₁, hstep, hrest⟩ := h
    obtain ⟨t', orphans, hretry, rfl⟩ := (restoreTenant_eq_some hid).mp hstep
    have hreads := (readableCatalog_written t' (hids.head_ne hid)).mp (ih hids.tail hrest)
    intro x hx i hi
    rcases List.mem_cons.mp hx with rfl | hx
    · obtain rfl : id = i := Parsed.ok.inj (hid.symm.trans hi)
      by_contra hpanics
      have hnone := retry_eq_none_of_panicked (hids.timelines x List.mem_cons_self)
        (hids.timelines_nodup x List.mem_cons_self) hpanics
      exact absurd (hnone.symm.trans hretry) (by simp)
    · exact hreads x hx i hi

end Catalog

/-- **A catalog is restored if and only if the parser panics on no ancestor of a timeline that is
still to be created.** Each listed tenant then has its previous timelines as they were, and the
recorded ones whose chain of ancestors reaches a recorded root or a previous timeline, each with its
recorded parent and branch point. -/
theorem restore_copes_iff (m : TenantManager) (cat : Catalog) (h : DistinctIds cat.tenants) :
    (∃ m', restore m cat = some m' ∧ Restored m cat.tenants m') ↔ ReadableCatalog m cat.tenants := by
  constructor
  · rintro ⟨m', hm', -⟩
    exact readableCatalog_of_foldlM h hm'
  · exact foldlM_restored h

/-- The root behind its branch, and a timeline that is its own parent. -/
def tangledCatalog : Catalog where
  version := 1
  tenants := [⟨TenantId.ZERO.id.display,
    [⟨devId.id.display, some mainId.id.display, some 100⟩,
      ⟨TimelineId.ZERO.id.display, some TimelineId.ZERO.id.display, none⟩,
      ⟨mainId.id.display, none, none⟩]⟩]

theorem restore_copes_iff_tangled :
    DistinctIds tangledCatalog.tenants
      ∧ ∃ m', restore (TenantManager.new 4 none) tangledCatalog = some m'
        ∧ Restored (TenantManager.new 4 none) tangledCatalog.tenants m' := by
  have hne : devId ≠ TimelineId.ZERO ∧ devId ≠ mainId ∧ TimelineId.ZERO ≠ mainId := by decide
  have hids : DistinctIds tangledCatalog.tenants := by
    constructor <;> simp [tangledCatalog, TenantId.parse_display, TimelineId.parse_display, hne]
  refine ⟨hids, (restore_copes_iff _ tangledCatalog hids).mpr ?_⟩
  -- every ancestor is the text of an id
  have htexts : ∀ r ∈ tangledCatalog.tenants, ∀ tl ∈ r.timelines, ∀ text, tl.ancestor = some text →
      ∃ id : TimelineId, text = id.id.display := by
    simp only [tangledCatalog, List.forall_mem_singleton, List.forall_mem_cons, Option.some.injEq]
    exact ⟨fun _ h => ⟨mainId, h.symm⟩, fun _ h => ⟨TimelineId.ZERO, h.symm⟩, fun _ h => absurd h (by simp)⟩
  intro r hr id hid tl htl text hanc hpanics
  obtain ⟨ancestor, rfl⟩ := htexts r hr tl htl text hanc
  rw [TimelineId.parse_display] at hpanics
  cases hpanics

/-- A text of 32 bytes whose second byte is in the middle of a character. -/
def wideText : String := String.ofList ('a' :: List.replicate 15 'é' ++ ['a'])

theorem parse_wideText : TimelineId.parse wideText = .panicked := by
  unfold TimelineId.parse HexId.parse wideText
  rw [String.toList_ofList]
  rfl

/-- One branch with such an ancestor and nothing else: the restore does not return. -/
theorem restore_panics_on_ancestor :
    DistinctIds [⟨TenantId.ZERO.id.display, [⟨devId.id.display, some wideText, none⟩]⟩]
      ∧ restore (TenantManager.new 4 none)
        ⟨1, [⟨TenantId.ZERO.id.display, [⟨devId.id.display, some wideText, none⟩]⟩]⟩ = none := by
  have hids : DistinctIds [⟨TenantId.ZERO.id.display, [⟨devId.id.display, some wideText, none⟩]⟩] := by
    constructor <;> simp [TenantId.parse_display, TimelineId.parse_display]
  refine ⟨hids, ?_⟩
  by_contra hreturns
  obtain ⟨m', hm'⟩ := Option.ne_none_iff_exists'.mp hreturns
  obtain ⟨id, hmem, -⟩ := readableCatalog_of_foldlM hids hm' _ List.mem_cons_self _
    (TenantId.parse_display _) _ List.mem_cons_self wideText rfl parse_wideText
  nomatch hmem

end AethelDB.Pageserver
