import AethelDB.Common.Ids
import AethelDB.Lib.Retry
import AethelDB.Pageserver.TenantManager

/-!
# The catalog: the topology as a document, and back

`pageserver/src/catalog.rs`. `snapshot` writes down which tenants and timelines a
manager has, each branch with its parent and branch point, sorted by the text of the
ids; `restore` rebuilds them. The records may come in any order, so `restore` goes
through a tenant's records again and again, creating a branch once its parent is
there, until a pass creates nothing more.

The loop is `retry` of the library, and what makes it finish is the depth of a
timeline in its branch tree: `settles_restoreTimeline` gives the library's rule its
rank, and everything else is bookkeeping on tenants (`restore_eq`).

An id text can make the parser panic (`Common.Ids`). `none` stands for that.
-/

namespace AethelDB.Pageserver

open AethelDB.Lib

/-- Object key under which the catalog is stored. -/
def CATALOG_KEY : String := "catalog/topology.json"

/-- One timeline's record: its id and (for a branch) its ancestry. -/
structure TimelineRecord where
  id : String
  ancestor : Option String
  ancestorLsn : Option UInt64
deriving DecidableEq

structure TenantRecord where
  id : String
  timelines : List TimelineRecord
deriving DecidableEq

structure Catalog where
  version : UInt32
  tenants : List TenantRecord
deriving DecidableEq

/-! ## Snapshot -/

variable {t : Tenant} {id : TenantId}

def Timeline.record (tl : Timeline) : TimelineRecord where
  id := tl.id.id.display
  ancestor := tl.ancestorTimeline.map fun a => a.id.display
  ancestorLsn := tl.ancestorLsn.map Lsn.raw

/-- The records of a tenant's timelines, each looked up again by its id. -/
def Tenant.records (t : Tenant) : List TimelineRecord :=
  t.timelineIds.filterMap fun id => (t.getTimeline id).map Timeline.record

/-- Sort the records of a tenant's timelines by id. -/
def TenantRecord.sorted (r : TenantRecord) : TenantRecord :=
  { r with timelines := sortOn TimelineRecord.id r.timelines }

def snapshot (m : TenantManager) : Catalog where
  version := 1
  tenants := (sortOn TenantRecord.id
    (m.tenants.map fun e => ⟨e.1.id.display, e.2.records⟩)).map TenantRecord.sorted

theorem Tenant.records_eq (t : Tenant) : t.records = t.timelines.map Timeline.record := by
  unfold records timelineIds
  rw [List.filterMap_map]
  have hsome : ∀ tl ∈ t.timelines,
      ((fun id => (t.getTimeline id).map Timeline.record) ∘ Timeline.id) tl
        = some tl.record := by
    intro tl htl
    simp only [Function.comp, Tenant.getTimeline_eq_some_iff.mpr ⟨htl, rfl⟩, Option.map_some]
  rw [List.filterMap_congr hsome, List.filterMap_eq_map']

/-- The finished record of one entry of the registry. -/
def tenantRecord (e : TenantId × Tenant) : TenantRecord where
  id := e.1.id.display
  timelines := sortOn TimelineRecord.id (e.2.timelines.map Timeline.record)

theorem snapshot_tenants (m : TenantManager) :
    (snapshot m).tenants = sortOn TenantRecord.id (m.tenants.map tenantRecord) := by
  have hrecord : (TenantRecord.sorted ∘ fun e : TenantId × Tenant =>
      (⟨e.1.id.display, e.2.records⟩ : TenantRecord)) = tenantRecord := by
    funext e
    simp only [Function.comp, TenantRecord.sorted, Tenant.records_eq, tenantRecord]
  show (sortOn TenantRecord.id _).map TenantRecord.sorted = _
  have hkey : ∀ r : TenantRecord, r.sorted.id = r.id := fun _ => rfl
  rw [← sortOn_map hkey, List.map_map, hrecord]

theorem record_ids_nodup (t : Tenant) :
    ((t.timelines.map Timeline.record).map TimelineRecord.id).Nodup := by
  have h := t.nodup.map TimelineId.display_injective
  rwa [List.map_map] at h ⊢

/-- The same timelines in another order leave the same record. -/
theorem tenantRecord_congr {t' : Tenant} (h : t'.timelines.Perm t.timelines) :
    tenantRecord (id, t') = tenantRecord (id, t) := by
  unfold tenantRecord
  rw [sortOn_congr (record_ids_nodup t') (h.map _)]

theorem tenantRecord_ids_nodup (m : TenantManager) :
    ((m.tenants.map tenantRecord).map TenantRecord.id).Nodup := by
  have h := m.nodup.map TenantId.display_injective
  rwa [List.map_map] at h ⊢

/-! ## Restore -/

/-- The closure given to `retain`: what it does to the tenant, and whether the record
stays pending. -/
def restoreTimeline (t : Tenant) (record : TimelineRecord) : Option (Tenant × Bool) :=
  match TimelineId.parse record.id with
  | .panicked => none
  | .error _ => some (t, false)
  | .ok id =>
    if (t.getTimeline id).isSome then some (t, false)
    else
      match record.ancestor with
      | none => some (t.step (.create id), false)
      | some parentHex =>
        match TimelineId.parse parentHex with
        | .panicked => none
        | .error _ => some (t, false)
        | .ok parent =>
          if (t.getTimeline parent).isSome then
            some (t.step (.branch id parent ⟨record.ancestorLsn.getD 0⟩), false)
          else some (t, true)

/-- One tenant's record. Records left pending at the end are only logged. -/
def restoreTenant (m : TenantManager) (record : TenantRecord) : Option TenantManager :=
  match TenantId.parse record.id with
  | .panicked => none
  | .error _ => some m
  | .ok id =>
    (retry restoreTimeline (m.getOrCreate id).2 record.timelines).map fun r =>
      (m.getOrCreate id).1.onTenant id fun _ => r.1

/-- Rebuild the manager's tenants and timelines. -/
def restore (m : TenantManager) (cat : Catalog) : Option TenantManager :=
  cat.tenants.foldlM restoreTenant m

/-! ## One tenant's branch tree is rebuilt -/

variable {records : List TimelineRecord}

/-- What one record of tenant `t` does to a tenant that has only timelines of `t`:
nothing, the timeline itself, or, while its parent is missing, another round. -/
theorem restoreTimeline_record {s : Tenant} (hs : ∀ u ∈ s.timelines, u ∈ t.timelines)
    {tl : Timeline} (htl : tl ∈ t.timelines) :
    ∃ s' keep, restoreTimeline s tl.record = some (s', keep) ∧
      ((s' = s ∧ tl ∈ s.timelines ∧ keep = false) ∨
        (s'.timelines = s.timelines ++ [tl] ∧ keep = false) ∨
        (s' = s ∧ keep = true ∧ ∃ p, tl.parent = some p ∧ p ∉ s.timelines)) := by
  -- timelines of `s` are found in `t` under the same id
  have hsame : ∀ {u v : Timeline}, u ∈ t.timelines → s.getTimeline u.id = some v → v = u := by
    intro u v hu hv
    obtain ⟨hmem, hid⟩ := Tenant.getTimeline_eq_some_iff.mp hv
    exact List.inj_on_of_nodup_map t.nodup (hs v hmem) hu hid
  have hparse : TimelineId.parse tl.record.id = .ok tl.id := TimelineId.parse_display tl.id
  simp only [restoreTimeline, hparse]
  cases hg : s.getTimeline tl.id with
  | some v =>
    have hv := hsame htl hg
    subst hv
    exact ⟨s, false, rfl, Or.inl ⟨rfl, (Tenant.getTimeline_eq_some_iff.mp hg).1, rfl⟩⟩
  | none =>
    cases tl with
    | root id =>
      refine ⟨s.step (.create id), false, rfl, Or.inr (Or.inl ⟨?_, rfl⟩)⟩
      have hg' : s.getTimeline id = none := hg
      rw [Tenant.step, Tenant.createTimeline_of_none hg']
      rfl
    | branched id p lsn =>
      have hp : p ∈ t.timelines := t.closed _ htl p rfl
      have hanc : (Timeline.branched id p lsn).record.ancestor = some p.id.id.display := rfl
      simp only [hanc, TimelineId.parse_display]
      cases hgp : s.getTimeline p.id with
      | none =>
        refine ⟨s, true, rfl, Or.inr (Or.inr ⟨rfl, rfl, p, rfl, ?_⟩)⟩
        intro hmem
        have := Tenant.getTimeline_eq_some_iff.mpr ⟨hmem, rfl⟩
        exact absurd (hgp.symm.trans this) (by simp)
      | some v =>
        have hv := hsame hp hgp
        subst hv
        refine ⟨s.step (.branch id v.id lsn), false, rfl, Or.inr (Or.inl ⟨?_, rfl⟩)⟩
        have hg' : s.getTimeline id = none := hg
        rw [Tenant.step, Tenant.branchTimeline_of_none lsn hg' hgp]
        rfl

/-- The depth in `t`'s branch tree of the timeline a record is about. -/
def recordDepth (t : Tenant) (record : TimelineRecord) : Nat :=
  match TimelineId.parse record.id with
  | .ok id => ((t.getTimeline id).map Timeline.depth).getD 0
  | _ => 0

theorem recordDepth_record {tl : Timeline} (h : tl ∈ t.timelines) :
    recordDepth t tl.record = tl.depth := by
  have hparse : TimelineId.parse tl.record.id = .ok tl.id := TimelineId.parse_display tl.id
  simp only [recordDepth, hparse, Tenant.getTimeline_eq_some_iff.mpr ⟨h, rfl⟩, Option.map_some,
    Option.getD_some]

theorem record_injOn {u v : Timeline} (hu : u ∈ t.timelines) (hv : v ∈ t.timelines)
    (h : u.record = v.record) : u = v := by
  have hid : u.id = v.id := TimelineId.display_injective (congrArg TimelineRecord.id h)
  exact List.inj_on_of_nodup_map t.nodup hu hv hid

/-- The records of `t` get done by depth: a branch is created once its parent is. -/
theorem settles_restoreTimeline (t : Tenant)
    (hrec : records.Perm (t.timelines.map Timeline.record)) :
    Settles restoreTimeline records (fun s => ∀ u ∈ s.timelines, u ∈ t.timelines)
      (fun s r => ∃ u ∈ s.timelines, u.record = r) (recordDepth t) where
  visit_eq := by
    intro s x hs hx
    obtain ⟨tl, htl, rfl⟩ := List.mem_map.mp (hrec.mem_iff.mp hx)
    obtain ⟨s', keep, hvisit, hcase⟩ := restoreTimeline_record hs htl
    refine ⟨s', keep, hvisit, ?_⟩
    rcases hcase with ⟨rfl, hmem, rfl⟩ | ⟨hadd, rfl⟩ | ⟨rfl, rfl, p, hpar, hmissing⟩
    · exact ⟨hs, fun _ _ h => h, fun _ => ⟨tl, hmem, rfl⟩, fun _ => rfl⟩
    · rw [hadd]
      refine ⟨?_, ?_, ?_, fun _ => rfl⟩
      · intro u hu
        rcases List.mem_append.mp hu with hu | hu
        · exact hs u hu
        · exact List.mem_singleton.mp hu ▸ htl
      · rintro y - ⟨u, hu, rfl⟩
        exact ⟨u, List.mem_append_left _ hu, rfl⟩
      · exact fun _ => ⟨tl, List.mem_append_right _ (List.mem_singleton_self _), rfl⟩
    · refine ⟨hs, fun _ _ h => h, fun h => absurd h (by simp), ?_⟩
      -- the parent is less deep, so it is there already
      intro hlow
      have hp : p ∈ t.timelines := t.closed tl htl p hpar
      have hdepth : recordDepth t p.record < recordDepth t tl.record := by
        rw [recordDepth_record hp, recordDepth_record htl]
        cases tl with
        | root id => simp [Timeline.parent] at hpar
        | branched id q lsn =>
          rw [Option.some.inj hpar]
          exact Nat.lt_succ_self _
      obtain ⟨u, hu, huv⟩ := hlow p.record
        (hrec.mem_iff.mpr (List.mem_map_of_mem hp)) hdepth
      rw [record_injOn (hs u hu) hp huv] at hu
      exact absurd hu hmissing

/-- **An empty tenant gets exactly the timelines of the recorded one.** -/
theorem retry_restoreTimeline (t : Tenant) (hrec : records.Perm (t.timelines.map Timeline.record))
    {s : Tenant} (hempty : s.timelines = []) :
    ∃ s', retry restoreTimeline s records = some (s', []) ∧
      s'.timelines.Perm t.timelines := by
  have hsub : ∀ u ∈ s.timelines, u ∈ t.timelines := by
    rw [hempty]
    exact nofun
  obtain ⟨s', hretry, hs', hdone⟩ := (settles_restoreTimeline t hrec).retry_eq hsub
  refine ⟨s', hretry, ?_⟩
  rw [List.perm_ext_iff_of_nodup s'.nodup.of_map t.nodup.of_map]
  refine fun u => ⟨hs' u, fun hu => ?_⟩
  obtain ⟨v, hv, hvu⟩ := hdone u.record (hrec.mem_iff.mpr (List.mem_map_of_mem hu))
  rwa [record_injOn (hs' v hv) hu hvu] at hv

theorem retry_restoreTimeline_again {s : Tenant}
    (h : ∀ r ∈ records, ∃ u ∈ s.timelines, u.record = r) :
    retry restoreTimeline s records = some (s, []) := by
  refine retry_of_dropped ?_
  intro r hr
  obtain ⟨u, hu, rfl⟩ := h r hr
  have hparse : TimelineId.parse u.record.id = .ok u.id := TimelineId.parse_display u.id
  simp only [restoreTimeline, hparse, Tenant.getTimeline_eq_some_iff.mpr ⟨hu, rfl⟩,
    Option.isSome_some, if_true]

/-! ## The registry is rebuilt -/

variable {m : TenantManager}

namespace TenantManager

variable {id : TenantId}

theorem getOrCreate_of_none (h : m.get id = none) :
    m.getOrCreate id = (m.provision id h, m.buildTenant) := by
  unfold getOrCreate
  split
  · next h' => exact absurd (h.symm.trans h') (by simp)
  · rfl

theorem getOrCreate_of_some (h : m.get id = some t) : m.getOrCreate id = (m, t) := by
  unfold getOrCreate
  split
  · next h' => rw [Option.some.inj (h'.symm.trans h)]
  · next h' => exact absurd (h.symm.trans h') (by simp)

theorem get_getOrCreate_self (m : TenantManager) (id : TenantId) :
    (m.getOrCreate id).1.get id = some (m.getOrCreate id).2 := by
  cases h : m.get id with
  | none => rw [get_getOrCreate, if_pos ⟨rfl, h⟩, getOrCreate_of_none h]
  | some t => rw [getOrCreate_of_some h, h]

theorem onTenant_self (h : m.get id = some t) : m.onTenant id (fun _ => t) = m := by
  have hmap : (m.tenants.map fun e => if e.1 = id then (e.1, t) else e) = m.tenants := by
    refine (List.map_congr_left fun e he => ?_).trans (List.map_id _)
    by_cases hid : e.1 = id
    · subst hid
      rw [if_pos rfl, ← Option.some.inj ((get_of_mem he).symm.trans h)]
      rfl
    · rw [if_neg hid]
      rfl
  unfold onTenant
  cases m
  simp only at hmap ⊢
  congr 1

theorem tenants_onTenant_provision (h : m.get id = none) (t : Tenant) :
    ((m.provision id h).onTenant id fun _ => t).tenants = m.tenants ++ [(id, t)] := by
  show (m.tenants ++ [(id, m.buildTenant)]).map _ = _
  rw [List.map_append, List.map_singleton, if_pos rfl]
  congr 1
  refine (List.map_congr_left fun e he => if_neg ?_).trans (List.map_id _)
  rintro rfl
  exact get_eq_none_iff.mp h (List.mem_map_of_mem he)

end TenantManager

/-- A record of an entry of the registry, its timelines in any order. -/
def Describes (r : TenantRecord) (e : TenantId × Tenant) : Prop :=
  r.id = e.1.id.display ∧ r.timelines.Perm (e.2.timelines.map Timeline.record)

theorem restoreTenant_fresh {r : TenantRecord} {e : TenantId × Tenant} (hr : Describes r e)
    (hfresh : m.get e.1 = none) :
    ∃ m' t', restoreTenant m r = some m' ∧ m'.tenants = m.tenants ++ [(e.1, t')] ∧
      t'.timelines.Perm e.2.timelines := by
  obtain ⟨s', hretry, hperm⟩ :=
    retry_restoreTimeline e.2 hr.2 (show m.buildTenant.timelines = [] from rfl)
  refine ⟨(m.provision e.1 hfresh).onTenant e.1 fun _ => s', s', ?_,
    TenantManager.tenants_onTenant_provision hfresh s', hperm⟩
  rw [restoreTenant, hr.1, TenantId.parse_display]
  simp only [TenantManager.getOrCreate_of_none hfresh, hretry, Option.map_some]

theorem restoreTenant_again {r : TenantRecord} (hr : Describes r (id, t)) (ht : m.get id = some t) :
    restoreTenant m r = some m := by
  have hdone : ∀ x ∈ r.timelines, ∃ u ∈ t.timelines, u.record = x :=
    fun x hx => List.mem_map.mp (hr.2.mem_iff.mp hx)
  rw [restoreTenant, hr.1, TenantId.parse_display]
  simp only [TenantManager.getOrCreate_of_some ht, retry_restoreTimeline_again hdone,
    Option.map_some, TenantManager.onTenant_self ht]

/-- Restoring the records of `entries` adds each of them. -/
theorem foldlM_restoreTenant :
    ∀ {records : List TenantRecord} {entries : List (TenantId × Tenant)} {m : TenantManager},
      List.Forall₂ Describes records entries → (entries.map Prod.fst).Nodup →
      (∀ e ∈ entries, m.get e.1 = none) →
      ∃ m', records.foldlM restoreTenant m = some m' ∧
        m'.tenants.map Prod.fst = m.tenants.map Prod.fst ++ entries.map Prod.fst ∧
        (∀ e ∈ m.tenants, e ∈ m'.tenants) ∧
        ∀ e ∈ entries, ∃ t', (e.1, t') ∈ m'.tenants ∧ t'.timelines.Perm e.2.timelines := by
  intro records
  induction records with
  | nil =>
    intro entries m h _ _
    cases h
    exact ⟨m, rfl, (List.append_nil _).symm, fun _ he => he,
      nofun⟩
  | cons r records ih =>
    intro entries m h hnd hfresh
    cases h with
    | @cons _ e _ entries hr hrest =>
      rw [List.map_cons, List.nodup_cons] at hnd
      obtain ⟨m₁, t', hm₁, htenants, hperm⟩ :=
        restoreTenant_fresh hr (hfresh e List.mem_cons_self)
      have hfresh₁ : ∀ e' ∈ entries, m₁.get e'.1 = none := by
        intro e' he'
        have hold := TenantManager.get_eq_none_iff.mp (hfresh e' (List.mem_cons_of_mem _ he'))
        rw [TenantManager.get_eq_none_iff, htenants, List.map_append, List.mem_append]
        rintro (hmem | hmem)
        · exact hold hmem
        · exact hnd.1 (List.mem_singleton.mp hmem ▸ List.mem_map_of_mem he')
      obtain ⟨m', hm', hids, hkeep, hadded⟩ := ih hrest hnd.2 hfresh₁
      rw [htenants] at hids hkeep
      refine ⟨m', ?_, ?_, fun e' he' => hkeep e' (List.mem_append_left _ he'), ?_⟩
      · rw [List.foldlM_cons, hm₁]
        exact hm'
      · rw [hids, List.map_append, List.append_assoc]
        rfl
      · intro e' he'
        rcases List.mem_cons.mp he' with rfl | he'
        · exact ⟨t', hkeep _ (List.mem_append_right _ (List.mem_singleton_self _)), hperm⟩
        · exact hadded e' he'

theorem foldlM_restoreTenant_again :
    ∀ {records : List TenantRecord},
      (∀ r ∈ records, ∃ id t, Describes r (id, t) ∧ m.get id = some t) →
      records.foldlM restoreTenant m = some m := by
  intro records
  induction records with
  | nil => exact fun _ => rfl
  | cons r records ih =>
    intro h
    obtain ⟨id, t, hr, ht⟩ := h r List.mem_cons_self
    rw [List.foldlM_cons, restoreTenant_again hr ht]
    exact ih fun r' hr' => h r' (List.mem_cons_of_mem _ hr')

/-! ## Snapshots in any order -/

variable {m' : TenantManager}

/-- A catalog with the records of another one, tenants and timelines in any order. -/
def Reorders (cat snap : Catalog) : Prop :=
  ∃ tenants, List.Forall₂ (fun r s : TenantRecord => r.id = s.id ∧ r.timelines.Perm s.timelines)
    cat.tenants tenants ∧ tenants.Perm snap.tenants

theorem forall₂_describes {records tenants : List TenantRecord}
    (h : List.Forall₂ (fun r s : TenantRecord => r.id = s.id ∧ r.timelines.Perm s.timelines)
      records tenants) :
    ∀ {entries : List (TenantId × Tenant)},
      List.Forall₂ (fun s e => s = tenantRecord e) tenants entries →
      List.Forall₂ Describes records entries := by
  induction h with
  | nil =>
    intro entries hrec
    cases hrec
    exact List.Forall₂.nil
  | @cons r s _ _ hrs _ ih =>
    intro entries hrec
    cases hrec with
    | @cons _ e _ _ hse hrest =>
      subst hse
      exact List.Forall₂.cons ⟨hrs.1, hrs.2.trans (sortOn_perm _ _)⟩ (ih hrest)

/-- A reordered snapshot describes the entries of the manager in some order. -/
theorem Reorders.describes {cat : Catalog} (h : Reorders cat (snapshot m)) :
    ∃ entries : List (TenantId × Tenant), entries.Perm m.tenants ∧
      List.Forall₂ Describes cat.tenants entries := by
  obtain ⟨tenants, hcat, hperm⟩ := h
  rw [snapshot_tenants] at hperm
  have hmap : List.Forall₂ (fun s e => s = tenantRecord e) (m.tenants.map tenantRecord)
      m.tenants := by
    rw [List.forall₂_map_left_iff]
    exact List.forall₂_same.mpr fun _ _ => rfl
  obtain ⟨entries, hrec, hentries⟩ :=
    List.perm_comp_forall₂ (hperm.trans (sortOn_perm _ _)) hmap
  exact ⟨entries, hentries, forall₂_describes hcat hrec⟩

theorem exists_described {records : List TenantRecord} {entries : List (TenantId × Tenant)}
    (h : List.Forall₂ Describes records entries) :
    ∀ r ∈ records, ∃ e ∈ entries, Describes r e := by
  induction h with
  | nil => exact nofun
  | @cons _ e _ _ hre _ ih =>
    intro r hr
    rcases List.mem_cons.mp hr with rfl | hr
    · exact ⟨e, List.mem_cons_self, hre⟩
    · obtain ⟨e', he', hre'⟩ := ih r hr
      exact ⟨e', List.mem_cons_of_mem _ he', hre'⟩

/-- The same tenants, each with the same timelines. A timeline carries its parent and
its branch point, so equal timelines have the same ancestry. -/
structure SameTopology (m m' : TenantManager) : Prop where
  tenants : ∀ id, (m'.get id).isSome = (m.get id).isSome
  timelines : ∀ {id t t'}, m.get id = some t → m'.get id = some t' →
    t'.timelines.Perm t.timelines

theorem SameTopology.exists_get (h : SameTopology m m') (ht : m.get id = some t) :
    ∃ t', m'.get id = some t' ∧ t'.timelines.Perm t.timelines := by
  have hsome : (m'.get id).isSome := by rw [h.tenants, ht]; rfl
  obtain ⟨t', ht'⟩ := Option.isSome_iff_exists.mp hsome
  exact ⟨t', ht', h.timelines ht ht'⟩

theorem SameTopology.symm (h : SameTopology m m') : SameTopology m' m :=
  ⟨fun id => (h.tenants id).symm, fun ht ht' => (h.timelines ht' ht).symm⟩

theorem SameTopology.snapshot_eq (h : SameTopology m m') : snapshot m' = snapshot m := by
  have hsub : ∀ {n n' : TenantManager}, SameTopology n n' → ∀ r ∈ n.tenants.map tenantRecord,
      r ∈ n'.tenants.map tenantRecord := by
    intro n n' hn r hr
    obtain ⟨⟨id, t⟩, he, rfl⟩ := List.mem_map.mp hr
    obtain ⟨t', ht', hperm⟩ := hn.exists_get (TenantManager.get_of_mem he)
    rw [← tenantRecord_congr hperm]
    exact List.mem_map_of_mem (TenantManager.mem_of_get ht')
  have hperm : (m'.tenants.map tenantRecord).Perm (m.tenants.map tenantRecord) := by
    rw [List.perm_ext_iff_of_nodup (tenantRecord_ids_nodup m').of_map
      (tenantRecord_ids_nodup m).of_map]
    exact fun r => ⟨hsub h.symm r, hsub h r⟩
  have htenants : (snapshot m').tenants = (snapshot m).tenants := by
    rw [snapshot_tenants, snapshot_tenants, sortOn_congr (tenantRecord_ids_nodup m') hperm]
  show Catalog.mk 1 (snapshot m').tenants = Catalog.mk 1 (snapshot m).tenants
  rw [htenants]

/-- Restoring into an empty manager rebuilds the topology, and then changes nothing. -/
theorem Reorders.restore_eq {cat : Catalog} (h : Reorders cat (snapshot m)) (freezeThreshold : Nat)
    (redo : Option WalRedoManager) :
    ∃ m', restore (TenantManager.new freezeThreshold redo) cat = some m' ∧
      SameTopology m m' ∧ restore m' cat = some m' := by
  obtain ⟨entries, hperm, hdesc⟩ := h.describes
  have hnd : (entries.map Prod.fst).Nodup := (hperm.map Prod.fst).nodup_iff.mpr m.nodup
  obtain ⟨m', hm', hids, _, hadded⟩ :=
    foldlM_restoreTenant (m := TenantManager.new freezeThreshold redo) hdesc hnd fun _ _ => rfl
  have hsame : SameTopology m m' := by
    refine ⟨fun id => ?_, fun {id t t'} ht ht' => ?_⟩
    · have hiff : id ∈ m'.tenants.map Prod.fst ↔ id ∈ m.tenants.map Prod.fst := by
        rw [hids]
        exact (hperm.map Prod.fst).mem_iff
      rw [Bool.eq_iff_iff, Option.isSome_iff_ne_none, Option.isSome_iff_ne_none, ne_eq, ne_eq,
        TenantManager.get_eq_none_iff, TenantManager.get_eq_none_iff, hiff]
    · obtain ⟨u, hu, hpu⟩ :=
        hadded (id, t) (hperm.mem_iff.mpr (TenantManager.mem_of_get ht))
      rwa [Option.some.inj ((TenantManager.get_of_mem hu).symm.trans ht')] at hpu
  refine ⟨m', hm', hsame, foldlM_restoreTenant_again fun r hr => ?_⟩
  obtain ⟨⟨id, t⟩, he, hre⟩ := exists_described hdesc r hr
  obtain ⟨t', ht', hpt⟩ := hsame.exists_get (TenantManager.get_of_mem (hperm.mem_iff.mp he))
  exact ⟨id, t', ⟨hre.1, hre.2.trans (hpt.symm.map _)⟩, ht'⟩

/-- **The round trip.** Restoring a manager's snapshot, its records in any order, into
an empty manager gives the same tenants with the same timelines; doing it again changes
nothing; and the restored manager has the same snapshot. -/
theorem restore_snapshot (m : TenantManager) (cat : Catalog) (h : Reorders cat (snapshot m))
    (freezeThreshold : Nat) (redo : Option WalRedoManager) :
    ∃ m', restore (TenantManager.new freezeThreshold redo) cat = some m' ∧
      SameTopology m m' ∧ restore m' cat = some m' ∧ snapshot m' = snapshot m := by
  obtain ⟨m', hm', hsame, hagain⟩ := h.restore_eq freezeThreshold redo
  exact ⟨m', hm', hsame, hagain, hsame.snapshot_eq⟩

/-- One tenant with a root and a branch of it. -/
def catalogSample : TenantManager :=
  ((TenantManager.new 4 none).getOrCreate TenantId.ZERO).1.onTenant TenantId.ZERO fun t =>
    (t.step (.create mainId)).step (.branch devId mainId 100)

/-- Its snapshot, the branch in front of its parent. -/
def catalogSampleReordered : Catalog where
  version := 1
  tenants := [⟨TenantId.ZERO.id.display,
    [(Timeline.branched devId (.root mainId) 100).record, (Timeline.root mainId).record]⟩]

theorem catalogSample_reorders : Reorders catalogSampleReordered (snapshot catalogSample) := by
  have hsnap : (snapshot catalogSample).tenants = [⟨TenantId.ZERO.id.display,
      [(Timeline.root mainId).record, (Timeline.branched devId (.root mainId) 100).record]⟩] := by
    decide +kernel
  refine ⟨_, ?_, List.Perm.refl _⟩
  rw [hsnap]
  exact List.Forall₂.cons ⟨rfl, List.Perm.swap _ _ _⟩ List.Forall₂.nil

theorem restore_snapshot_sample :
    Reorders catalogSampleReordered (snapshot catalogSample) ∧
      ∃ m', restore (TenantManager.new 8 none) catalogSampleReordered = some m' ∧
        SameTopology catalogSample m' ∧ restore m' catalogSampleReordered = some m' ∧
        snapshot m' = snapshot catalogSample :=
  ⟨catalogSample_reorders,
    restore_snapshot catalogSample catalogSampleReordered catalogSample_reorders 8 none⟩

end AethelDB.Pageserver
