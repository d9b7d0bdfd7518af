import AethelDB.Lib.Journal
import AethelDB.Pageserver.Startup

/-!
# The control plane: topology requests and what is stored of them

`handle_conn` of `pageserver/src/control.rs` and `handle`, `route` of
`pageserver/src/httpapi.rs`, cut where other requests can run in between. A request
changes the topology under the locks of the registry and of one tenant; `persist`
then takes a snapshot, and puts it into the store; then the request is acknowledged.
Nothing orders the puts of concurrent requests, and a put replaces the whole object.

A line connection keeps an `Arc<Tenant>` for its current tenant, an HTTP request
between resolving its tenant and using it. `DELETE` takes the tenant out of the
registry only: whoever holds it can go on creating timelines in it, is told that this
worked, and the snapshot that follows does not have them. A `Handle` therefore names
one registration of an id, and the tenants taken out are kept in `detached`.

Every change is written down in `history`. `acked` lists the changes whose requests
were acknowledged after a successful put; `Durable` is what a client relies on. Two
runs break it (`acked_change_lost`); without what they do it holds
(`acked_changes_durable`).
-/

namespace AethelDB.Pageserver

open AethelDB.Lib

/-- A tenant as its holders refer to it: one registration of its id. -/
structure Handle where
  tenant : TenantId
  incarnation : Nat
deriving DecidableEq

inductive TimelineOp where
  | create (id : TimelineId)
  | branch (newId parentId : TimelineId) (ancestorLsn : Lsn)

def TimelineOp.apply (t : Tenant) : TimelineOp → Except TenantError (Tenant × Timeline)
  | .create id => t.createTimeline id
  | .branch newId parentId ancestorLsn => t.branchTimeline newId parentId ancestorLsn

/-- The requests that change the topology, their arguments parsed. -/
inductive Request where
  /-- `tenant <hex>` on a line connection. -/
  | tenant (id : TenantId)
  /-- `create` and `branch` on a line connection. -/
  | timeline (op : TimelineOp)
  | postTenant (id : TenantId)
  /-- `POST /v1/timelines` and `POST /v1/branches`. -/
  | postTimeline (tenant : Option TenantId) (op : TimelineOp)
  | deleteTenant (id : TenantId)

inductive Effect where
  | tenant (id : TenantId)
  | timeline (tenant : TenantId) (tl : Timeline)
  | removed (id : TenantId)
deriving DecidableEq

/-- Where the request of a connection stands. `effect` is the place of its change in
the history, `seen` the number of changes its snapshot was taken after. -/
inductive RequestTask where
  | idle
  /-- An HTTP request that has resolved its tenant. -/
  | resolved (h : Handle) (op : TimelineOp)
  | changed (effect : Nat)
  | snapped (effect seen : Nat) (cat : Catalog)
  | persisted (effect : Nat) (ok : Bool)

/-- A line connection has a current tenant, an HTTP connection has none. -/
structure Conn where
  handle : Option Handle
  task : RequestTask

/-- The page server as far as its control plane goes. -/
structure Control where
  manager : TenantManager
  incarnation : TenantId → Nat
  detached : Handle → Option Tenant
  conns : List Conn
  object : Option Catalog
  history : List Effect
  /-- The number of changes the stored snapshot was taken after. -/
  storedAt : Nat
  acked : List Nat

namespace Control

def start (m : TenantManager) (object : Option Catalog) : Control where
  manager := m
  incarnation := fun _ => 0
  detached := fun _ => none
  conns := []
  object := object
  history := []
  storedAt := 0
  acked := []

def setConn (s : Control) (k : Nat) (c : Conn) : Control := { s with conns := s.conns.set k c }

/-- Change the registry, and write the change down. -/
def change (s : Control) (m : TenantManager) (e : Effect) : Control :=
  { s with manager := m, history := s.history ++ [e] }

/-- `get_or_create`. -/
def reference (s : Control) (id : TenantId) : Control :=
  s.change (s.manager.getOrCreate id).1 (.tenant id)

/-- The handle `get_or_create` returns. -/
def handleOf (s : Control) (id : TenantId) : Handle := ⟨id, s.incarnation id⟩

/-- Whether a handle is on the tenant that is registered. -/
def live (s : Control) (h : Handle) : Bool := s.incarnation h.tenant == h.incarnation

def lookup (s : Control) (h : Handle) : Option Tenant :=
  if s.live h then s.manager.get h.tenant else s.detached h

/-- A timeline was made through a handle. -/
def update (s : Control) (h : Handle) (t : Tenant) (tl : Timeline) : Control :=
  if s.live h then s.change (s.manager.onTenant h.tenant fun _ => t) (.timeline h.tenant tl)
  else
    { s with
      detached := Function.update s.detached h (some t)
      history := s.history ++ [.timeline h.tenant tl] }

def remove (s : Control) (id : TenantId) : Control :=
  { s.change (s.manager.remove id).1 (.removed id) with
    incarnation := Function.update s.incarnation id (s.incarnation id + 1)
    detached := Function.update s.detached (s.handleOf id) (s.manager.get id) }

/-- Create or branch through a handle. A refused request is answered at once. -/
def perform (s : Control) (k : Nat) (c : Conn) (h : Handle) (op : TimelineOp) : Control :=
  match s.lookup h with
  | none => s
  | some t =>
    match op.apply t with
    | .error _ => s.setConn k { c with task := .idle }
    | .ok (t', tl) => (s.update h t' tl).setConn k { c with task := .changed s.history.length }

/-- The first step of a request on connection `k`. -/
def begin (s : Control) (k : Nat) (c : Conn) : Request → Control
  | .tenant id =>
    match c.handle with
    | some _ =>
      (s.reference id).setConn k ⟨some (s.handleOf id), .changed s.history.length⟩
    | none => s
  | .timeline op =>
    match c.handle with
    | some h => s.perform k c h op
    | none => s
  | .postTenant id =>
    match c.handle, s.manager.create id with
    | none, .ok (m, _) =>
      (s.change m (.tenant id)).setConn k { c with task := .changed s.history.length }
    | _, _ => s
  | .postTimeline tenant op =>
    match c.handle with
    | none =>
      (s.reference (tenant.getD TenantId.ZERO)).setConn k
        { c with task := .resolved (s.handleOf (tenant.getD TenantId.ZERO)) op }
    | some _ => s
  | .deleteTenant id =>
    match c.handle, (s.manager.remove id).2 with
    | none, true => (s.remove id).setConn k { c with task := .changed s.history.length }
    | _, _ => s

end Control

inductive ControlAction where
  /-- A line connection; it starts at the root tenant. -/
  | acceptLine
  | acceptHttp
  /-- Any other request that provisions the tenant it names. -/
  | reference (id : TenantId)
  | request (k : Nat) (r : Request)
  /-- The second step of an HTTP request on a timeline. -/
  | timeline (k : Nat)
  | snapshot (k : Nat)
  | put (k : Nat) (o : PutOutcome)
  | ack (k : Nat)

namespace Control

def step (s : Control) : ControlAction → Control
  | .acceptLine =>
    { s.reference TenantId.ZERO with
      conns := s.conns ++ [⟨some (s.handleOf TenantId.ZERO), .idle⟩] }
  | .acceptHttp => { s with conns := s.conns ++ [⟨none, .idle⟩] }
  | .reference id => s.reference id
  | .request k r =>
    match s.conns[k]? with
    | some ⟨handle, .idle⟩ => s.begin k ⟨handle, .idle⟩ r
    | _ => s
  | .timeline k =>
    match s.conns[k]? with
    | some ⟨handle, .resolved h op⟩ => s.perform k ⟨handle, .resolved h op⟩ h op
    | _ => s
  | .snapshot k =>
    match s.conns[k]? with
    | some ⟨handle, .changed i⟩ =>
      s.setConn k ⟨handle, .snapped i s.history.length (Pageserver.snapshot s.manager)⟩
    | _ => s
  | .put k o =>
    match s.conns[k]? with
    | some ⟨handle, .snapped i n cat⟩ =>
      match o with
      | .failed => s.setConn k ⟨handle, .persisted i false⟩
      | .storedButFailed =>
        { s.setConn k ⟨handle, .persisted i false⟩ with object := some cat, storedAt := n }
      | .ok => { s.setConn k ⟨handle, .persisted i true⟩ with object := some cat, storedAt := n }
    | _ => s
  | .ack k =>
    match s.conns[k]? with
    | some ⟨handle, .persisted i ok⟩ =>
      { s.setConn k ⟨handle, .idle⟩ with acked := if ok then s.acked ++ [i] else s.acked }
    | _ => s

def after (m : TenantManager) (object : Option Catalog) (actions : List ControlAction) :
    Control :=
  run step (start m object) actions

end Control

/-! ## What is shown of a change -/

def Catalog.Contains (cat : Catalog) : Effect → Prop
  | .tenant id => ∃ r ∈ cat.tenants, r.id = id.id.display
  | .timeline id tl => ∃ r ∈ cat.tenants, r.id = id.id.display ∧ tl.record ∈ r.timelines
  | .removed id => ∀ r ∈ cat.tenants, r.id ≠ id.id.display

instance (cat : Catalog) (e : Effect) : Decidable (cat.Contains e) := by
  cases e <;> unfold Catalog.Contains <;> infer_instance

/-- A removal undoes what was made of the tenant, and provisioning it undoes a removal. -/
def Effect.Undoes : Effect → Effect → Prop
  | .removed id, .tenant id' => id = id'
  | .removed id, .timeline id' _ => id = id'
  | .tenant id, .removed id' => id = id'
  | _, _ => False

instance (u e : Effect) : Decidable (u.Undoes e) := by
  cases u <;> cases e <;> unfold Effect.Undoes <;> infer_instance

/-- **What a client relies on**: the stored catalog contains every change whose request
was acknowledged after a successful put, until a later change undoes it. -/
def Control.Durable (s : Control) : Prop :=
  ∀ i ∈ s.acked, ∀ e ∈ s.history[i]?,
    (∃ cat ∈ s.object, cat.Contains e) ∨ ∃ u ∈ s.history.drop (i + 1), u.Undoes e

instance (s : Control) : Decidable s.Durable := by
  unfold Control.Durable
  infer_instance

namespace TenantManager

variable {m : TenantManager} {id : TenantId}

def Shows (m : TenantManager) : Effect → Prop
  | .tenant id => ∃ t, m.get id = some t
  | .timeline id tl => ∃ t, m.get id = some t ∧ tl ∈ t.timelines
  | .removed id => m.get id = none

theorem Shows.contains {e : Effect} (h : m.Shows e) : (snapshot m).Contains e := by
  cases e with
  | tenant id =>
    obtain ⟨t, ht⟩ := h
    exact ⟨_, mem_snapshot.mpr ⟨id, t, ht, rfl⟩, rfl⟩
  | timeline id tl =>
    obtain ⟨t, ht, htl⟩ := h
    exact ⟨_, mem_snapshot.mpr ⟨id, t, ht, rfl⟩, rfl, mem_tenantRecord.mpr ⟨tl, htl, rfl⟩⟩
  | removed id =>
    intro r hr hid
    obtain ⟨id', t, ht, rfl⟩ := mem_snapshot.mp hr
    have hnone : m.get id = none := h
    rw [← TenantId.display_injective hid, ht] at hnone
    simp at hnone

/-- No tenant and no timeline is lost, and only `provisioned` may be new. -/
structure Grows (m m' : TenantManager) (provisioned : TenantId → Prop) : Prop where
  some : ∀ {id t}, m.get id = some t →
    ∃ t', m'.get id = some t' ∧ ∀ tl ∈ t.timelines, tl ∈ t'.timelines
  none : ∀ {id}, m.get id = none → m'.get id = none ∨ provisioned id

theorem Grows.shows {m' : TenantManager} {provisioned : TenantId → Prop}
    (h : m.Grows m' provisioned) {u : Effect} (hu : ∀ id, provisioned id → u.Undoes (.removed id))
    {e : Effect} (he : m.Shows e) : m'.Shows e ∨ u.Undoes e := by
  cases e with
  | tenant id =>
    obtain ⟨t, ht⟩ := he
    obtain ⟨t', ht', _⟩ := h.some ht
    exact Or.inl ⟨t', ht'⟩
  | timeline id tl =>
    obtain ⟨t, ht, htl⟩ := he
    obtain ⟨t', ht', hsub⟩ := h.some ht
    exact Or.inl ⟨t', ht', hsub tl htl⟩
  | removed id => exact (h.none he).imp_right (hu id)

theorem grows_getOrCreate (m : TenantManager) (id : TenantId) :
    m.Grows (m.getOrCreate id).1 (· = id) where
  some := by
    intro i t ht
    refine ⟨t, ?_, fun _ htl => htl⟩
    rw [get_getOrCreate, if_neg, ht]
    rintro ⟨_, hnone⟩
    exact absurd (hnone.symm.trans ht) (by simp)
  none := by
    intro i hi
    by_cases h : i = id
    · exact Or.inr h
    · rw [get_getOrCreate, if_neg fun hx => h hx.1]
      exact Or.inl hi

theorem shows_getOrCreate (m : TenantManager) (id : TenantId) :
    (m.getOrCreate id).1.Shows (.tenant id) :=
  ⟨_, m.get_getOrCreate_self id⟩

theorem getOrCreate_of_create {m' : TenantManager} {t : Tenant} (h : m.create id = .ok (m', t)) :
    m' = (m.getOrCreate id).1 := by
  unfold create at h
  split at h
  · simp at h
  · next hnone =>
    rw [getOrCreate_of_none hnone]
    exact (Prod.mk.inj (Except.ok.inj h)).1.symm

theorem grows_onTenant {t t' : Tenant} (ht : m.get id = some t)
    (hsub : ∀ tl ∈ t.timelines, tl ∈ t'.timelines) :
    m.Grows (m.onTenant id fun _ => t') (fun _ => False) where
  some := by
    intro i u hu
    rw [get_onTenant, hu]
    split
    · next hi =>
      rw [hi, ht] at hu
      rw [← Option.some.inj hu]
      exact ⟨t', rfl, hsub⟩
    · exact ⟨u, rfl, fun _ htl => htl⟩
  none := by
    intro i hi
    rw [get_onTenant, hi]
    exact Or.inl (by simp)

theorem shows_remove {e : Effect} (he : m.Shows e) :
    (m.remove id).1.Shows e ∨ (Effect.removed id).Undoes e := by
  have hget : ∀ {i t}, m.get i = some t → i ≠ id → (m.remove id).1.get i = some t := by
    intro i t ht hi
    rw [get_remove, if_neg hi, ht]
  cases e with
  | tenant i =>
    obtain ⟨t, ht⟩ := he
    by_cases hi : i = id
    · exact Or.inr hi.symm
    · exact Or.inl ⟨t, hget ht hi⟩
  | timeline i tl =>
    obtain ⟨t, ht, htl⟩ := he
    by_cases hi : i = id
    · exact Or.inr hi.symm
    · exact Or.inl ⟨t, hget ht hi, htl⟩
  | removed i =>
    refine Or.inl ?_
    show (m.remove id).1.get i = none
    have hnone : m.get i = none := he
    rw [get_remove, hnone, ite_self]

end TenantManager

/-- A request that goes through adds its timeline. -/
theorem TimelineOp.timelines_apply {op : TimelineOp} {t t' : Tenant} {tl : Timeline}
    (h : op.apply t = .ok (t', tl)) : t'.timelines = t.timelines ++ [tl] := by
  cases op with
  | create id =>
    cases hg : t.getTimeline id with
    | some u =>
      rw [apply, Tenant.createTimeline_of_some hg] at h
      simp at h
    | none =>
      rw [apply, Tenant.createTimeline_of_none hg] at h
      obtain ⟨rfl, rfl⟩ := Prod.mk.inj (Except.ok.inj h)
      rfl
  | branch newId parentId lsn =>
    cases hg : t.getTimeline newId with
    | some u =>
      rw [apply, Tenant.branchTimeline_of_some _ _ hg] at h
      simp at h
    | none =>
      cases hp : t.getTimeline parentId with
      | none =>
        rw [apply, Tenant.branchTimeline_of_noParent _ hg hp] at h
        simp at h
      | some parent =>
        rw [apply, Tenant.branchTimeline_of_none _ hg hp] at h
        obtain ⟨rfl, rfl⟩ := Prod.mk.inj (Except.ok.inj h)
        rfl

/-! ## When acknowledged changes last -/

namespace Control

/-- A step that does neither of the two harmful things: storing a snapshot over one
that has seen more, and making a timeline in a tenant that has been removed. -/
def Orderly (s : Control) : ControlAction → Prop
  | .request k (.timeline _) => ∀ c ∈ s.conns[k]?, ∀ h ∈ c.handle, s.live h = true
  | .timeline k =>
    match s.conns[k]? with
    | some ⟨_, .resolved h _⟩ => s.live h = true
    | _ => True
  | .put k o =>
    match s.conns[k]? with
    | some ⟨_, .snapped _ n _⟩ => o = .failed ∨ s.storedAt ≤ n
    | _ => True
  | _ => True

instance (s : Control) (a : ControlAction) : Decidable (s.Orderly a) := by
  unfold Orderly
  split
  · infer_instance
  · split <;> infer_instance
  · split <;> infer_instance
  · infer_instance

/-- What is known of a request under way. -/
def TaskOk (history : List Effect) (storedAt : Nat) : RequestTask → Prop
  | .idle => True
  | .resolved _ _ => True
  | .changed i => i < history.length
  | .snapped i n cat =>
    i < n ∧ n ≤ history.length ∧ Covers Effect.Undoes cat.Contains history n
  | .persisted i ok => ok = true → i < storedAt

theorem TaskOk.append {history : List Effect} {storedAt : Nat} {task : RequestTask}
    (h : TaskOk history storedAt task) (e : Effect) :
    TaskOk (history ++ [e]) storedAt task := by
  cases task with
  | idle => trivial
  | resolved _ _ => trivial
  | changed i => exact Nat.lt_of_lt_of_le h (by simp)
  | snapped i n cat =>
    obtain ⟨hi, hn, hc⟩ := h
    exact ⟨hi, hn.trans (by simp), hc.append hn _⟩
  | persisted i ok => exact h

theorem TaskOk.stored {history : List Effect} {storedAt storedAt' : Nat} {task : RequestTask}
    (h : TaskOk history storedAt task) (hle : storedAt ≤ storedAt') :
    TaskOk history storedAt' task := by
  cases task with
  | persisted i ok => exact fun hok => Nat.lt_of_lt_of_le (h hok) hle
  | _ => exact h

/-- The registry shows the history, and the stored object what its snapshot has seen. -/
structure Inv (s : Control) : Prop where
  manager : Covers Effect.Undoes s.manager.Shows s.history s.history.length
  tasks : ∀ c ∈ s.conns, TaskOk s.history s.storedAt c.task
  storedAt_le : s.storedAt ≤ s.history.length
  object : Covers Effect.Undoes (fun e => ∃ cat ∈ s.object, cat.Contains e) s.history s.storedAt
  acked : ∀ i ∈ s.acked, i < s.storedAt

namespace Inv

variable {s : Control} {c : Conn}

theorem start (m : TenantManager) (object : Option Catalog) : Inv (start m object) where
  manager := covers_zero
  tasks := nofun
  storedAt_le := Nat.le_refl _
  object := covers_zero
  acked := nofun

theorem durable (h : Inv s) : s.Durable :=
  fun i hi _ he => h.object.shown_or_undone (h.acked i hi) he

theorem setConn (h : Inv s) {k : Nat} (hc : TaskOk s.history s.storedAt c.task) :
    Inv (s.setConn k c) where
  manager := h.manager
  tasks := by
    intro c' hc'
    rcases List.mem_or_eq_of_mem_set hc' with hmem | rfl
    · exact h.tasks c' hmem
    · exact hc
  storedAt_le := h.storedAt_le
  object := h.object
  acked := h.acked

theorem addConn (h : Inv s) (hc : TaskOk s.history s.storedAt c.task) :
    Inv { s with conns := s.conns ++ [c] } where
  manager := h.manager
  tasks := by
    intro c' hc'
    rcases List.mem_append.mp hc' with hmem | hmem
    · exact h.tasks c' hmem
    · rw [List.mem_singleton.mp hmem]
      exact hc
  storedAt_le := h.storedAt_le
  object := h.object
  acked := h.acked

theorem change (h : Inv s) {m : TenantManager} {e : Effect}
    (hkeep : ∀ e', s.manager.Shows e' → m.Shows e' ∨ e.Undoes e') (hnew : m.Shows e) :
    Inv (s.change m e) where
  manager := h.manager.concat hkeep hnew
  tasks := fun c hc => (h.tasks c hc).append e
  storedAt_le := h.storedAt_le.trans (by simp [Control.change])
  object := h.object.append h.storedAt_le _
  acked := h.acked

theorem reference (h : Inv s) (id : TenantId) : Inv (s.reference id) :=
  h.change
    (fun _ he =>
      (s.manager.grows_getOrCreate id).shows (u := .tenant id) (fun _ hi => Eq.symm hi) he)
    (s.manager.shows_getOrCreate id)

theorem remove (h : Inv s) (id : TenantId) : Inv (s.remove id) := by
  have hnew : (s.manager.remove id).1.Shows (.removed id) := by
    show (s.manager.remove id).1.get id = none
    rw [TenantManager.get_remove, if_pos rfl]
  have h' := h.change (fun _ he => TenantManager.shows_remove he) hnew
  exact ⟨h'.manager, h'.tasks, h'.storedAt_le, h'.object, h'.acked⟩

theorem changed_ok (history : List Effect) (e : Effect) (storedAt : Nat) :
    TaskOk (history ++ [e]) storedAt (.changed history.length) := by
  show history.length < (history ++ [e]).length
  simp

theorem perform (h : Inv s) {k : Nat} {hd : Handle} {op : TimelineOp} (hlive : s.live hd = true) :
    Inv (s.perform k c hd op) := by
  unfold Control.perform lookup
  rw [if_pos hlive]
  split
  · exact h
  · next t ht =>
    split
    · exact h.setConn trivial
    · next t' tl hok =>
      have htl := op.timelines_apply hok
      have hsub : ∀ u ∈ t.timelines, u ∈ t'.timelines := by
        intro u hu
        rw [htl]
        exact List.mem_append_left _ hu
      have hgrow := TenantManager.grows_onTenant ht hsub
      have hnew : (s.manager.onTenant hd.tenant fun _ => t').Shows (.timeline hd.tenant tl) := by
        refine ⟨t', ?_, ?_⟩
        · rw [TenantManager.get_onTenant, if_pos rfl, ht]
          rfl
        · rw [htl]
          exact List.mem_append_right _ (List.mem_singleton_self _)
      rw [update, if_pos hlive]
      refine (h.change (fun _ he => hgrow.shows (fun _ hf => hf.elim) he) hnew).setConn ?_
      exact changed_ok _ _ _

theorem request (h : Inv s) {k : Nat} {r : Request}
    (hlive : ∀ op, r = .timeline op → ∀ hd ∈ c.handle, s.live hd = true) : Inv (s.begin k c r) := by
  cases r with
  | tenant id =>
    simp only [begin]
    split
    · refine (h.reference id).setConn ?_
      exact changed_ok _ _ _
    · exact h
  | timeline op =>
    simp only [begin]
    split
    · next hd hc => exact h.perform (hlive op rfl hd hc)
    · exact h
  | postTenant id =>
    simp only [begin]
    split
    · next m _ hcreate =>
      have hm := TenantManager.getOrCreate_of_create hcreate
      subst hm
      refine (h.reference id).setConn ?_
      exact changed_ok _ _ _
    · exact h
  | postTimeline tenant op =>
    simp only [begin]
    split
    · exact (h.reference _).setConn trivial
    · exact h
  | deleteTenant id =>
    simp only [begin]
    split
    · refine (h.remove id).setConn ?_
      exact changed_ok _ _ _
    · exact h

/-- A put that has seen no less than what is stored. -/
theorem put (h : Inv s) {k i n : Nat} {handle : Option Handle} {cat : Catalog} {ok : Bool}
    (hc : TaskOk s.history s.storedAt (.snapped i n cat)) (hle : s.storedAt ≤ n) :
    Inv { s.setConn k ⟨handle, .persisted i ok⟩ with object := some cat, storedAt := n } := by
  obtain ⟨hi, hn, hcov⟩ := hc
  refine ⟨h.manager, ?_, hn, hcov.mono fun _ he => ⟨cat, rfl, he⟩,
    fun j hj => Nat.lt_of_lt_of_le (h.acked j hj) hle⟩
  intro c' hc'
  rcases List.mem_or_eq_of_mem_set hc' with hmem | rfl
  · exact (h.tasks c' hmem).stored hle
  · exact fun _ => hi

theorem step (h : Inv s) {a : ControlAction} (ha : s.Orderly a) : Inv (s.step a) := by
  cases a with
  | acceptLine => exact (h.reference TenantId.ZERO).addConn trivial
  | acceptHttp => exact h.addConn trivial
  | reference id => exact h.reference id
  | request k r =>
    simp only [Control.step]
    split
    · next handle hk =>
      refine h.request ?_
      rintro op rfl hd hhd
      exact ha _ hk hd hhd
    · exact h
  | timeline k =>
    simp only [Control.step]
    split
    · next handle hd op hk =>
      simp only [Orderly, hk] at ha
      exact h.perform ha
    · exact h
  | snapshot k =>
    simp only [Control.step]
    split
    · next handle i hk =>
      have hi : TaskOk s.history s.storedAt (.changed i) := h.tasks _ (List.mem_of_getElem? hk)
      exact h.setConn ⟨hi, Nat.le_refl _, h.manager.mono fun _ he => he.contains⟩
    · exact h
  | put k o =>
    simp only [Control.step]
    split
    · next handle i n cat hk =>
      simp only [Orderly, hk] at ha
      have hc := h.tasks _ (List.mem_of_getElem? hk)
      cases o with
      | failed => exact h.setConn fun hf => absurd hf (by simp)
      | storedButFailed => exact h.put hc (ha.resolve_left (by simp))
      | ok => exact h.put hc (ha.resolve_left (by simp))
    · exact h
  | ack k =>
    simp only [Control.step]
    split
    · next handle i ok hk =>
      have hi : TaskOk s.history s.storedAt (.persisted i ok) :=
        h.tasks _ (List.mem_of_getElem? hk)
      have h' : Inv (s.setConn k ⟨handle, .idle⟩) := h.setConn trivial
      refine ⟨h'.manager, h'.tasks, h'.storedAt_le, h'.object, ?_⟩
      intro j hj
      cases ok with
      | false => exact h.acked j hj
      | true =>
        rcases List.mem_append.mp hj with hmem | hmem
        · exact h.acked j hmem
        · rw [List.mem_singleton.mp hmem]
          exact hi rfl
    · exact h

end Inv

end Control

/-- **Acknowledged changes are durable**, from any registry and any stored object, if
snapshots are stored in the order they were taken and no timeline is made in a tenant
that has been removed. -/
theorem acked_changes_durable (m : TenantManager) (object : Option Catalog)
    (actions : List ControlAction)
    (h : Along (fun pre a => (Control.after m object pre).Orderly a) actions) :
    (Control.after m object actions).Durable := by
  have hinv := run_invariant (I := fun _ (s : Control) => s.Inv) (Control.Inv.start m object)
    (fun pre a _ ha hI => hI.step ha) actions h
  exact hinv.durable

/-- A request of connection `k` from its persist on. -/
def finish (k : Nat) : List ControlAction := [.snapshot k, .put k .ok, .ack k]

/-- A tenant and a timeline in it over HTTP, then a branch of that over a line
connection. -/
def controlSample : List ControlAction :=
  [.acceptHttp, .request 0 (.postTimeline none (.create mainId)), .timeline 0] ++ finish 0 ++
    [.acceptLine, .request 1 (.timeline (.branch devId mainId 100))] ++ finish 1

theorem acked_changes_durable_sample :
    Along (fun pre a => (Control.after (TenantManager.new 4 none) none pre).Orderly a)
        controlSample ∧
      (Control.after (TenantManager.new 4 none) none controlSample).acked = [1, 3] ∧
      (Control.after (TenantManager.new 4 none) none controlSample).Durable := by
  have h : Along (fun pre a => (Control.after (TenantManager.new 4 none) none pre).Orderly a)
      controlSample := by decide +kernel
  exact ⟨h, by decide +kernel, acked_changes_durable _ _ _ h⟩

def tenantOne : TenantId := ⟨HexId.ofByte 1⟩

def tenantTwo : TenantId := ⟨HexId.ofByte 2⟩

/-- Two tenants are created; the second request is acknowledged before the first, whose
snapshot is older, puts it. -/
def latePut : List ControlAction :=
  [.acceptHttp, .acceptHttp, .request 0 (.postTenant tenantOne), .snapshot 0,
    .request 1 (.postTenant tenantTwo)] ++ finish 1 ++ [.put 0 .ok]

/-- A tenant is removed while a line connection has it selected; a timeline created
there is acknowledged. -/
def removedWhileSelected : List ControlAction :=
  [.acceptLine, .request 0 (.tenant tenantOne)] ++ finish 0 ++
    [.acceptHttp, .request 1 (.deleteTenant tenantOne)] ++ finish 1 ++
    [.request 0 (.timeline (.create mainId))] ++ finish 0

/-- Neither change is in the stored catalog, and nothing has undone it. -/
theorem acked_change_lost :
    ¬ (Control.after (TenantManager.new 4 none) none latePut).Durable ∧
      ¬ (Control.after (TenantManager.new 4 none) none removedWhileSelected).Durable := by
  decide +kernel

end AethelDB.Pageserver
