import AethelDB.Pageserver.Tenant

/-!
# The registry of tenants

`pageserver/src/tenant_manager.rs`: tenants keyed by id, all built with one freeze
threshold and one redo backend (the native one unless another is configured).
The map is a `HashMap` in the source; the list order stands for its iteration
order. What is persisted of it is in `Catalog`.
-/

namespace AethelDB.Pageserver

open AethelDB.Lib

inductive TenantManagerError where
  | alreadyExists (id : TenantId)
deriving DecidableEq

def TenantManagerError.display : TenantManagerError → String
  | .alreadyExists id => "tenant " ++ id.id.display ++ " already exists"

structure TenantManager where
  freezeThreshold : Nat
  redo : Option WalRedoManager
  tenants : List (TenantId × Tenant)
  nodup : (tenants.map Prod.fst).Nodup

namespace TenantManager

variable {id : TenantId} {m : TenantManager}

def new (freezeThreshold : Nat) (redo : Option WalRedoManager) : TenantManager :=
  ⟨freezeThreshold, redo, [], List.nodup_nil⟩

/-- The backend every tenant's stores are built with. -/
def backend (m : TenantManager) : WalRedoManager := m.redo.getD rustApply

def buildTenant (m : TenantManager) : Tenant := Tenant.new m.freezeThreshold

def get (m : TenantManager) (id : TenantId) : Option Tenant :=
  (m.tenants.find? fun e => decide (e.1 = id)).map Prod.snd

theorem get_eq_none_iff : m.get id = none ↔ id ∉ m.tenants.map Prod.fst := by
  unfold get
  rw [Option.map_eq_none_iff, List.find?_eq_none, List.mem_map]
  constructor
  · intro h hx
    obtain ⟨e, he, hid⟩ := hx
    exact h e he (decide_eq_true hid)
  · intro h e he hid
    exact h ⟨e, he, of_decide_eq_true hid⟩

theorem mem_of_get {t : Tenant} (h : m.get id = some t) : (id, t) ∈ m.tenants := by
  unfold get at h
  obtain ⟨e, he, ht⟩ := Option.map_eq_some_iff.mp h
  have hid : e.1 = id := by simpa using List.find?_some he
  rw [← hid, ← ht]
  exact List.mem_of_find?_eq_some he

theorem get_of_mem {t : Tenant} (h : (id, t) ∈ m.tenants) : m.get id = some t := by
  cases hg : m.get id with
  | none => exact absurd (List.mem_map.mpr ⟨(id, t), h, rfl⟩) (get_eq_none_iff.mp hg)
  | some t' =>
    have heq := List.inj_on_of_nodup_map m.nodup (mem_of_get hg) h rfl
    rw [(Prod.mk.inj heq).2]

def provision (m : TenantManager) (id : TenantId) (h : m.get id = none) : TenantManager :=
  { m with
    tenants := m.tenants ++ [(id, m.buildTenant)]
    nodup := by
      rw [List.map_append, List.map_singleton]
      refine List.nodup_append.mpr ⟨m.nodup, List.nodup_singleton _, ?_⟩
      intro a ha b hb hab
      rw [hab, List.mem_singleton.mp hb] at ha
      exact get_eq_none_iff.mp h ha }

/-- Look up a tenant, provisioning an empty one on first reference. -/
def getOrCreate (m : TenantManager) (id : TenantId) : TenantManager × Tenant :=
  match h : m.get id with
  | some t => (m, t)
  | none => (m.provision id h, m.buildTenant)

def create (m : TenantManager) (id : TenantId) :
    Except TenantManagerError (TenantManager × Tenant) :=
  match h : m.get id with
  | some _ => .error (.alreadyExists id)
  | none => .ok (m.provision id h, m.buildTenant)

/-- Deprovision a tenant; says whether it existed. -/
def remove (m : TenantManager) (id : TenantId) : TenantManager × Bool :=
  ({ m with
      tenants := m.tenants.filter fun e => decide (e.1 ≠ id)
      nodup := m.nodup.sublist (List.filter_sublist.map _) },
    (m.get id).isSome)

theorem get_remove (m : TenantManager) (id i : TenantId) :
    (m.remove id).1.get i = if i = id then none else m.get i := by
  by_cases hi : i = id
  · subst hi
    rw [if_pos rfl, get_eq_none_iff, List.mem_map]
    rintro ⟨e, he, rfl⟩
    exact of_decide_eq_true (List.mem_filter.mp he).2 rfl
  · rw [if_neg hi]
    cases hg : m.get i with
    | none =>
      rw [get_eq_none_iff] at hg ⊢
      exact fun hmem => hg ((List.filter_sublist.map _).subset hmem)
    | some t =>
      exact get_of_mem (List.mem_filter.mpr ⟨mem_of_get hg, decide_eq_true hi⟩)

/-- Apply `f` through a handle on tenant `id`. -/
def onTenant (m : TenantManager) (id : TenantId) (f : Tenant → Tenant) : TenantManager :=
  { m with
    tenants := m.tenants.map fun e => if e.1 = id then (e.1, f e.2) else e
    nodup := by
      rw [List.map_map]
      have hfst : (Prod.fst ∘ fun e : TenantId × Tenant => if e.1 = id then (e.1, f e.2) else e)
          = Prod.fst := by
        funext e
        simp only [Function.comp]
        split <;> rfl
      rw [hfst]
      exact m.nodup }

theorem get_onTenant (m : TenantManager) (id : TenantId) (f : Tenant → Tenant) (i : TenantId) :
    (m.onTenant id f).get i = if i = id then (m.get i).map f else m.get i := by
  have hpred : ((fun e : TenantId × Tenant => decide (e.1 = i)) ∘
      fun e => if e.1 = id then (e.1, f e.2) else e) = fun e => decide (e.1 = i) := by
    funext e
    simp only [Function.comp]
    split <;> rfl
  unfold get onTenant
  rw [List.find?_map, hpred]
  cases h : m.tenants.find? (fun e => decide (e.1 = i)) with
  | none => simp
  | some e =>
    have hid : e.1 = i := by simpa using List.find?_some h
    subst hid
    by_cases he : e.1 = id <;> simp [he]

theorem get_getOrCreate (m : TenantManager) (id i : TenantId) :
    (m.getOrCreate id).1.get i
      = if i = id ∧ m.get i = none then some m.buildTenant else m.get i := by
  unfold getOrCreate
  split
  · next t h =>
    rw [if_neg]
    intro hnone
    rw [hnone.1, h] at hnone
    exact absurd hnone.2 (by simp)
  · next h =>
    show ((m.tenants ++ [(id, m.buildTenant)]).find? fun e => decide (e.1 = i)).map Prod.snd = _
    rw [List.find?_append, Option.map_or, List.find?_singleton]
    show (m.get i).or _ = _
    by_cases hi : i = id
    · subst hi
      simp [h]
    · simp [hi, Ne.symm hi]

def resolve (m : TenantManager) (tenant : TenantId) (timeline : TimelineId) :
    Option (Tenant × Timeline) :=
  match m.get tenant with
  | none => none
  | some t => (t.getTimeline timeline).map fun tl => (t, tl)

end TenantManager

end AethelDB.Pageserver
