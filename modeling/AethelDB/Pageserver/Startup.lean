import AethelDB.Pageserver.Catalog
import AethelDB.Pageserver.Objstore

/-!
# Startup: load the catalog, provision the root, write the catalog back

`main` of `pageserver/src/main.rs` with `TenantManager::{load_persisted, persist}`
and `catalog::{load, save}`. The steps are simple one by one; together they lose
data. `load` takes every error of the store for a missing object, `load_persisted`
only logs an object that does not decode, and either way `main` goes on with an
empty manager and persists it, over the catalog it could not read
(`startup_loses_catalog`).

What the document must be for nothing to be lost is what `persist` writes: the
snapshot of some manager, its records in any order (`startup_keeps`).
-/

namespace AethelDB.Pageserver

open AethelDB.Lib

/-- The object under `CATALOG_KEY`, as the JSON reader sees its bytes. -/
inductive CatalogObject where
  | document (cat : Catalog)
  | undecodable (error : String)
deriving DecidableEq

inductive GetOutcome where
  /-- The store answers: with the object, or that there is none. -/
  | answered
  | failed (error : String)
  /-- Bytes that are not the object's, and do not decode. -/
  | garbled (error : String)
deriving DecidableEq

/-- `catalog::load`. Every error of `get` counts as a missing catalog. -/
def load (object : Option CatalogObject) : GetOutcome → Except String (Option Catalog)
  | .answered =>
    match object with
    | none => .ok none
    | some (.document cat) => .ok (some cat)
    | some (.undecodable error) => .error error
  | .failed _ => .ok none
  | .garbled error => .error error

namespace TenantManager

/-- Restore the topology at startup; `none` if an id text makes the parser panic. -/
def loadPersisted (m : TenantManager) (object : Option CatalogObject) (get : GetOutcome) :
    Option TenantManager :=
  match load object get with
  | .ok (some doc) => restore m doc
  | .ok none => some m
  | .error _ => some m

/-- Write the current topology; an error is only logged. -/
def persist (m : TenantManager) (put : PutOutcome) (object : Option CatalogObject) :
    Option CatalogObject :=
  match put with
  | .failed => object
  | _ => some (.document (snapshot m))

/-- Pre-provision the root tenant and its root timeline. -/
def provisionRoot (m : TenantManager) : TenantManager :=
  match (m.getOrCreate TenantId.ZERO).2.getTimeline TimelineId.ZERO with
  | some _ => (m.getOrCreate TenantId.ZERO).1
  | none =>
    (m.getOrCreate TenantId.ZERO).1.onTenant TenantId.ZERO fun t =>
      t.step (.create TimelineId.ZERO)

end TenantManager

/-- The startup sequence: what the catalog object is afterwards. A panic ends the
process before anything is written. -/
def startup (freezeThreshold : Nat) (redo : Option WalRedoManager)
    (object : Option CatalogObject) (get : GetOutcome) (put : PutOutcome) :
    Option CatalogObject :=
  match (TenantManager.new freezeThreshold redo).loadPersisted object get with
  | none => object
  | some m => m.provisionRoot.persist put object

/-! ## What is listed -/

/-- Every tenant and timeline of `old`, with its ancestry, is listed in `new`. -/
def Catalog.KeptIn (old new : Catalog) : Prop :=
  ∀ r ∈ old.tenants, ∃ r' ∈ new.tenants, r'.id = r.id ∧ ∀ x ∈ r.timelines, x ∈ r'.timelines

instance (old new : Catalog) : Decidable (old.KeptIn new) := by
  unfold Catalog.KeptIn
  infer_instance

/-- The same for what is stored; an object that does not decode lists nothing. -/
def KeptInStore (old new : Option CatalogObject) : Prop :=
  match old, new with
  | some (.document cat), some (.document cat') => cat.KeptIn cat'
  | some (.document cat), _ => cat.tenants = []
  | _, _ => True

instance (old new : Option CatalogObject) : Decidable (KeptInStore old new) := by
  unfold KeptInStore
  split <;> infer_instance

theorem Catalog.keptIn_refl (cat : Catalog) : cat.KeptIn cat :=
  fun r hr => ⟨r, hr, rfl, fun _ hx => hx⟩

/-- What a snapshot lists: the finished record of each tenant. -/
theorem mem_snapshot {m : TenantManager} {r : TenantRecord} :
    r ∈ (snapshot m).tenants ↔ ∃ id t, m.get id = some t ∧ r = tenantRecord (id, t) := by
  rw [snapshot_tenants, (sortOn_perm _ _).mem_iff, List.mem_map]
  constructor
  · rintro ⟨⟨id, t⟩, he, rfl⟩
    exact ⟨id, t, TenantManager.get_of_mem he, rfl⟩
  · rintro ⟨id, t, ht, rfl⟩
    exact ⟨(id, t), TenantManager.mem_of_get ht, rfl⟩

theorem mem_tenantRecord {id : TenantId} {t : Tenant} {x : TimelineRecord} :
    x ∈ (tenantRecord (id, t)).timelines ↔ ∃ tl ∈ t.timelines, tl.record = x := by
  unfold tenantRecord
  rw [(sortOn_perm _ _).mem_iff, List.mem_map]

theorem TenantManager.get_provisionRoot {m : TenantManager} {id : TenantId} {t : Tenant}
    (h : m.get id = some t) :
    ∃ t', m.provisionRoot.get id = some t' ∧ ∀ tl ∈ t.timelines, tl ∈ t'.timelines := by
  have hget : (m.getOrCreate TenantId.ZERO).1.get id = some t := by
    rw [get_getOrCreate, if_neg, h]
    rintro ⟨_, hnone⟩
    exact absurd (hnone.symm.trans h) (by simp)
  unfold provisionRoot
  split
  · exact ⟨t, hget, fun _ htl => htl⟩
  · rw [get_onTenant, hget]
    split
    · refine ⟨t.step (.create TimelineId.ZERO), rfl, fun tl htl => ?_⟩
      rcases t.step_create TimelineId.ZERO with ⟨heq, _⟩ | ⟨hf, hp, heq⟩
      · rw [heq]
        exact htl
      · rw [heq]
        exact List.mem_append_left _ htl
    · exact ⟨t, rfl, fun _ htl => htl⟩

/-- A document with a branch whose parent is not recorded. -/
def orphanCatalog : Catalog where
  version := 1
  tenants := [⟨TenantId.ZERO.id.display,
    [(Timeline.branched devId (.root mainId) 100).record]⟩]

end AethelDB.Pageserver
