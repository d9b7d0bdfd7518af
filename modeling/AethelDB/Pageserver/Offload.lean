import AethelDB.Pageserver.Objstore

/-!
# Offloading every repository of a page server into one object store

`offload_all` walks the timelines of all tenants and pushes their pending layers
into the one store the process is configured with, while requests go on creating
tenants and timelines, ingesting and freezing. The worker takes the timelines in
the iteration order of two hash maps, so here each scan may pick any of them.

Layer ids are counted per repository and object keys are made of the layer id
alone. `offloaded_retrievable_iff` draws the line: every offloaded layer stays
retrievable under its key, and no two frozen layers share one, in exactly the
runs in which no freeze hands out an id that another repository's layer already
carries. As every repository counts from zero, that means one repository with
layers per object store.
-/

namespace AethelDB.Pageserver

open AethelDB.Lib

/-! ## The repositories of a server -/

/-- A repository is addressed by its tenant and timeline. -/
abbrev RepoId := TenantId × TimelineId

def Tenant.repoOf (t : Tenant) (id : TimelineId) : Option Repository :=
  (t.getTimeline id).map fun _ => t.repos id

namespace TenantManager

def repoAt (m : TenantManager) (a : RepoId) : Option Repository :=
  (m.get a.1).bind fun t => t.repoOf a.2

/-- Every repository with its address. -/
def hosted (m : TenantManager) : List (RepoId × Repository) :=
  m.tenants.flatMap fun e => e.2.timelines.map fun tl => ((e.1, tl.id), e.2.repos tl.id)

theorem mem_hosted {m : TenantManager} {a : RepoId} {r : Repository} :
    (a, r) ∈ m.hosted ↔ m.repoAt a = some r := by
  unfold hosted repoAt Tenant.repoOf
  rw [List.mem_flatMap, Option.bind_eq_some_iff]
  constructor
  · intro h
    obtain ⟨e, he, hmem⟩ := h
    obtain ⟨tl, htl, heq⟩ := List.mem_map.mp hmem
    obtain ⟨rfl, rfl⟩ := Prod.mk.inj heq
    refine ⟨e.2, get_of_mem he, ?_⟩
    rw [Tenant.getTimeline_eq_some_iff.mpr ⟨htl, rfl⟩]
    rfl
  · intro h
    obtain ⟨t, ht, hr⟩ := h
    obtain ⟨tl, htl, rfl⟩ := Option.map_eq_some_iff.mp hr
    obtain ⟨hmem, hid⟩ := Tenant.getTimeline_eq_some_iff.mp htl
    refine ⟨(a.1, t), mem_of_get ht, List.mem_map.mpr ⟨tl, hmem, ?_⟩⟩
    rw [hid]

theorem repoAt_onTenant_of_ne {m : TenantManager} {id : TenantId} {a : RepoId} (h : a.1 ≠ id)
    (f : Tenant → Tenant) : (m.onTenant id f).repoAt a = m.repoAt a := by
  unfold repoAt
  rw [get_onTenant, if_neg h]

theorem repoAt_onTenant (m : TenantManager) (id : TenantId) (f : Tenant → Tenant)
    (i : TimelineId) :
    (m.onTenant id f).repoAt (id, i) = (m.get id).bind fun t => (f t).repoOf i := by
  unfold repoAt
  rw [get_onTenant, if_pos rfl, Option.bind_map]
  rfl

theorem repoAt_getOrCreate (m : TenantManager) (id : TenantId) (a : RepoId) :
    (m.getOrCreate id).1.repoAt a = m.repoAt a := by
  unfold repoAt
  rw [get_getOrCreate]
  split
  · next h =>
    rw [h.2]
    rfl
  · rfl

end TenantManager

/-! ## What a call does to a repository -/

namespace TenantOp

/-- What a call other than a collection does to the store of `id`, if there is one. -/
def write (id : TimelineId) (r : Repository) : TenantOp → Repository
  | .ingest i mods => if id = i then r.ingest mods else r
  | .freeze i => if id = i then r.freeze else r
  | _ => r

def target : TenantOp → Option TimelineId
  | .ingest i _ => some i
  | .freeze i => some i
  | _ => none

theorem target_of_write_ne {op : TenantOp} {id : TimelineId} {r : Repository}
    (h : op.write id r ≠ r) : op.target = some id := by
  cases op with
  | ingest i mods =>
    by_cases hi : id = i
    · rw [hi, target]
    · exact absurd (by rw [write, if_neg hi]) h
  | freeze i =>
    by_cases hi : id = i
    · rw [hi, target]
    · exact absurd (by rw [write, if_neg hi]) h
  | _ => exact absurd rfl h

theorem extends_write (op : TenantOp) (id : TimelineId) (r : Repository) :
    r.Extends (op.write id r) := by
  cases op with
  | ingest i mods =>
    simp only [write]
    split
    · exact r.extends_ingest mods
    · exact Repository.Extends.refl r
  | freeze i =>
    simp only [write]
    split
    · exact r.extends_freezeLocked
    · exact Repository.Extends.refl r
  | _ => exact Repository.Extends.refl r

end TenantOp

namespace Tenant

theorem repoOf_onStore (t : Tenant) (id : TimelineId) (f : Repository → Repository)
    (i : TimelineId) :
    (t.onStore id f).repoOf i
      = (t.repoOf i).map fun r => if i = id then f r else r := by
  unfold repoOf
  rw [getTimeline_congr (t.onStore_timelines id f), onStore_repos, Option.map_map]
  cases h : t.getTimeline i with
  | none => rfl
  | some tl =>
    simp only [Option.map_some, Function.comp]
    by_cases hi : i = id
    · subst hi
      simp [h]
    · simp [hi]

/-- A registered timeline has an empty store; the others keep theirs. -/
theorem repoOf_register {t : Tenant} {tl : Timeline} (hf : t.getTimeline tl.id = none)
    (hp : ∀ p ∈ tl.parent, p ∈ t.timelines) (i : TimelineId) :
    (t.register tl hf hp).repoOf i = t.repoOf i ∨
      t.repoOf i = none ∧ (t.register tl hf hp).repoOf i = some t.newRepo := by
  by_cases hi : i = tl.id
  · subst hi
    refine Or.inr ⟨by rw [repoOf, hf]; rfl, ?_⟩
    rw [repoOf, getTimeline_register, if_pos rfl]
    exact congrArg some (Function.update_self ..)
  · refine Or.inl ?_
    rw [repoOf, repoOf, getTimeline_register, if_neg hi]
    exact congrArg (fun r => (t.getTimeline i).map fun _ => r) (Function.update_of_ne hi ..)

/-- **One call, seen from one store.** -/
theorem repoOf_step {op : TenantOp} (hgc : op.isGc = false) (t : Tenant) (i : TimelineId) :
    (t.step op).repoOf i = (t.repoOf i).map (fun r => op.write i r) ∨
      t.repoOf i = none ∧ (t.step op).repoOf i = some t.newRepo := by
  have hid : (t.repoOf i).map (fun r => r) = t.repoOf i := Option.map_id'
  cases op with
  | create id =>
    show _ = (t.repoOf i).map (fun r => r) ∨ _
    rw [hid]
    rcases t.step_create id with ⟨h, _⟩ | ⟨hf, hp, h⟩
    · exact Or.inl (by rw [h])
    · rw [h]
      exact repoOf_register hf hp i
  | branch newId parentId lsn =>
    show _ = (t.repoOf i).map (fun r => r) ∨ _
    rw [hid]
    rcases t.step_branch newId parentId lsn with ⟨h, _⟩ | ⟨parent, hf, hp, _, h⟩
    · exact Or.inl (by rw [h])
    · rw [h]
      exact repoOf_register hf hp i
  | ingest id mods => exact Or.inl (repoOf_onStore t id _ i)
  | freeze id => exact Or.inl (repoOf_onStore t id _ i)
  | gc horizon => simp [TenantOp.isGc] at hgc

end Tenant

/-! ## The page server with its offload worker -/

/-- The tenants, the object store and the worker's place in its pass. -/
structure PageServer where
  manager : TenantManager
  store : ObjectStore
  /-- The repository being offloaded, and how far that got. -/
  worker : Option (RepoId × OffloadTask)

inductive ServerAction where
  | createTenant (tenant : TenantId)
  /-- A call other than a collection on a tenant. -/
  | call (tenant : TenantId) (op : TenantOp) (noGc : op.isGc = false)
  /-- The idle worker turns to a timeline. -/
  | scan (a : RepoId)
  | put (o : PutOutcome)
  | mark

namespace PageServer

/-- A server without tenants and an empty store. -/
def new (freezeThreshold : Nat) (redo : Option WalRedoManager) : PageServer :=
  ⟨TenantManager.new freezeThreshold redo, ObjectStore.empty, none⟩

/-- The worker has no layer in hand. -/
def idle (s : PageServer) : Bool :=
  match s.worker with
  | none => true
  | some (_, .storing []) => true
  | some _ => false

/-- One step; one that cannot be taken leaves the server as it is. -/
def step (s : PageServer) : ServerAction → PageServer
  | .createTenant tenant => { s with manager := (s.manager.getOrCreate tenant).1 }
  | .call tenant op _ => { s with manager := s.manager.onTenant tenant fun t => t.step op }
  | .scan a =>
    match s.idle, s.manager.repoAt a with
    | true, some r => { s with worker := some (a, .start r) }
    | _, _ => s
  | .put o =>
    match s.worker with
    | none => s
    | some (a, task) =>
      { s with worker := some (a, (task.put o s.store).1), store := (task.put o s.store).2 }
  | .mark =>
    match s.worker with
    | some (a, .marking l pending) =>
      { s with
        worker := some (a, .storing pending)
        manager := s.manager.onTenant a.1 fun t => t.onStore a.2 fun r => r.markUploaded l.id }
    | _ => s

def after (n : Nat) (redo : Option WalRedoManager) (acts : List ServerAction) : PageServer :=
  run step (new n redo) acts

/-- Every offloaded layer is in the store under its key, and no other frozen
layer has that key. -/
structure Retrievable (s : PageServer) : Prop where
  stored : ∀ p ∈ s.manager.hosted, ∀ id ∈ p.2.uploaded,
    ∃ l ∈ p.2.layers, l.id = id ∧ s.store (layerKey id) = some l.serialize
  apart : ∀ p ∈ s.manager.hosted, ∀ q ∈ s.manager.hosted, ∀ l ∈ p.2.layers, ∀ l' ∈ q.2.layers,
    layerKey l.id = layerKey l'.id → p.1 = q.1 ∧ l = l'

/-- The step hands out no layer id that a layer of another repository carries. -/
def FreshIds (s : PageServer) : ServerAction → Prop
  | .call tenant op _ =>
    ∀ p ∈ s.manager.hosted, p.1.1 = tenant → ∀ q ∈ s.manager.hosted, q.1 ≠ p.1 →
      ∀ l ∈ q.2.layers,
        ¬ (p.2.nextLayerId ≤ l.id ∧ l.id < (op.write p.1.2 p.2).nextLayerId)
  | _ => True

instance decidableFreshIds (s : PageServer) (a : ServerAction) : Decidable (s.FreshIds a) := by
  cases a <;> unfold FreshIds <;> infer_instance

/-! ### The invariant -/

variable {s : PageServer} {a : RepoId} {op : TenantOp} {r r' : Repository} {tenant : TenantId}

/-- What the proof carries along a run. -/
structure Inv (s : PageServer) : Prop where
  numbered : ∀ {a r}, s.manager.repoAt a = some r → r.Numbered
  /-- One id is never carried by layers of two repositories. -/
  apart : ∀ {a b r r' l l'}, s.manager.repoAt a = some r → s.manager.repoAt b = some r' →
    l ∈ r.layers → l' ∈ r'.layers → l.id = l'.id → a = b
  stored : ∀ {a r id}, s.manager.repoAt a = some r → id ∈ r.uploaded →
    ∃ l ∈ r.layers, l.id = id ∧ s.store (layerKey id) = some l.serialize
  /-- The worker holds layers of the repository it is at. -/
  held : ∀ {a task}, s.worker = some (a, task) →
    ∃ r, s.manager.repoAt a = some r ∧ ∀ l ∈ task.layers, l ∈ r.layers
  /-- A layer about to be marked is in the store. -/
  marking : ∀ {a l pending}, s.worker = some (a, .marking l pending) →
    s.store (layerKey l.id) = some l.serialize

theorem Inv.retrievable (h : s.Inv) : s.Retrievable where
  stored := by
    intro p hp id hid
    exact h.stored (TenantManager.mem_hosted.mp hp) hid
  apart := by
    intro p hp q hq l hl l' hl' hkey
    have hp := TenantManager.mem_hosted.mp hp
    have hq := TenantManager.mem_hosted.mp hq
    have hid := layerKey_injective hkey
    have hpq := h.apart hp hq hl hl' hid
    rw [← hpq, hp] at hq
    rw [← Option.some.inj hq] at hl'
    exact ⟨hpq, (h.numbered hp).eq_of_id hl hl' hid⟩

theorem inv_new (n : Nat) (redo : Option WalRedoManager) : (new n redo).Inv := by
  have hnone : ∀ a, (new n redo).manager.repoAt a = none := fun _ => rfl
  refine ⟨?_, ?_, ?_, ?_, ?_⟩
  · intro a r h
    simp [hnone] at h
  · intro a b r r' l l' h
    simp [hnone] at h
  · intro a r id h
    simp [hnone] at h
  · intro a task h
    simp [new] at h
  · intro a l pending h
    simp [new] at h

/-- Every repository was there and grew by freezes, or is new and empty. -/
def Grows (m m' : TenantManager) : Prop :=
  (∀ a r, m.repoAt a = some r → ∃ r', m'.repoAt a = some r' ∧ r.Extends r') ∧
  ∀ a r', m'.repoAt a = some r' →
    (∃ r, m.repoAt a = some r ∧ r.Extends r') ∨ ∃ n, r' = Repository.new n

theorem Inv.grow {m' : TenantManager} (h : s.Inv) (hg : Grows s.manager m')
    (hapart : ∀ {a b r r' l l'}, m'.repoAt a = some r → m'.repoAt b = some r' →
      l ∈ r.layers → l' ∈ r'.layers → l.id = l'.id → a = b) : Inv { s with manager := m' } where
  numbered := by
    intro a r' hr'
    rcases hg.2 a r' hr' with ⟨r, hr, he⟩ | ⟨n, rfl⟩
    · exact (h.numbered hr).of_extends he
    · exact Repository.numbered_new n
  apart := hapart
  stored := by
    intro a r' id hr' hid
    rcases hg.2 a r' hr' with ⟨r, hr, he⟩ | ⟨n, rfl⟩
    · rw [he.uploaded] at hid
      obtain ⟨l, hl, hlid, hst⟩ := h.stored hr hid
      exact ⟨l, he.subset hl, hlid, hst⟩
    · simp [Repository.new] at hid
  held := by
    intro a task hw
    obtain ⟨r, hr, hheld⟩ := h.held hw
    obtain ⟨r', hr', he⟩ := hg.1 a r hr
    exact ⟨r', hr', fun l hl => he.subset (hheld l hl)⟩
  marking := h.marking

/-- What a call on `tenant` does to the repository at `a`. -/
def written (tenant : TenantId) (op : TenantOp) (a : RepoId) (r : Repository) : Repository :=
  if a.1 = tenant then op.write a.2 r else r

theorem extends_written (tenant : TenantId) (op : TenantOp) (a : RepoId) (r : Repository) :
    r.Extends (written tenant op a r) := by
  unfold written
  split
  · exact op.extends_write a.2 r
  · exact Repository.Extends.refl r

/-- A call freezes layers in one repository at most. -/
theorem written_unique {b : RepoId} (ha : r.nextLayerId < (written tenant op a r).nextLayerId)
    (hb : r'.nextLayerId < (written tenant op b r').nextLayerId) : a = b := by
  have htarget : ∀ {c : RepoId} {x : Repository},
      x.nextLayerId < (written tenant op c x).nextLayerId →
      c.1 = tenant ∧ op.target = some c.2 := by
    intro c x hc
    unfold written at hc
    split at hc
    · next ht =>
      have hne : op.write c.2 x ≠ x := by
        intro heq
        rw [heq] at hc
        exact lt_irrefl _ hc
      exact ⟨ht, TenantOp.target_of_write_ne hne⟩
    · exact absurd hc (lt_irrefl _)
  obtain ⟨ha1, ha2⟩ := htarget ha
  obtain ⟨hb1, hb2⟩ := htarget hb
  exact Prod.ext (ha1.trans hb1.symm) (Option.some.inj (ha2.symm.trans hb2))

/-- **One call, seen from one repository.** -/
theorem repoAt_call (hgc : op.isGc = false) (m : TenantManager) (tenant : TenantId) (a : RepoId) :
    (m.onTenant tenant fun t => t.step op).repoAt a = (m.repoAt a).map (written tenant op a) ∨
      m.repoAt a = none ∧
        ∃ n, (m.onTenant tenant fun t => t.step op).repoAt a = some (Repository.new n) := by
  obtain ⟨i, tl⟩ := a
  by_cases hi : i = tenant
  · subst hi
    have hwr : written i op (i, tl) = fun r => op.write tl r := by
      funext r
      rw [written, if_pos rfl]
    rw [m.repoAt_onTenant, hwr]
    show _ = ((m.get i).bind fun t => t.repoOf tl).map _ ∨ ((m.get i).bind fun t => t.repoOf tl) = none ∧ _
    cases m.get i with
    | none => exact Or.inl rfl
    | some t =>
      refine (t.repoOf_step hgc tl).imp_right ?_
      intro h
      exact ⟨h.1, t.freezeThreshold, h.2⟩
  -- other tenants do not see the call
  · have hwr : written tenant op (i, tl) = id := by
      funext r
      rw [written, if_neg hi]
      rfl
    rw [TenantManager.repoAt_onTenant_of_ne hi, hwr, Option.map_id_fun]
    exact Or.inl rfl

/-- A repository after a call is the written old one, or new and empty. -/
theorem of_repoAt_call (hgc : op.isGc = false) {m : TenantManager}
    (h : (m.onTenant tenant fun t => t.step op).repoAt a = some r') :
    (∃ r, m.repoAt a = some r ∧ r' = written tenant op a r) ∨ ∃ n, r' = Repository.new n := by
  rcases repoAt_call hgc m tenant a with hmap | ⟨_, n, hnew⟩
  · rw [hmap] at h
    obtain ⟨r, hr, rfl⟩ := Option.map_eq_some_iff.mp h
    exact Or.inl ⟨r, hr, rfl⟩
  · rw [hnew] at h
    exact Or.inr ⟨n, (Option.some.inj h).symm⟩

theorem repoAt_call_of_some (hgc : op.isGc = false) {m : TenantManager} (tenant : TenantId)
    (h : m.repoAt a = some r) :
    (m.onTenant tenant fun t => t.step op).repoAt a = some (written tenant op a r) := by
  rcases repoAt_call hgc m tenant a with hmap | ⟨hnone, _⟩
  · rw [hmap, h]
    rfl
  · exact absurd (h.symm.trans hnone) (by simp)

theorem grows_call (hgc : op.isGc = false) (m : TenantManager) (tenant : TenantId) :
    Grows m (m.onTenant tenant fun t => t.step op) := by
  refine ⟨?_, ?_⟩
  · intro a r hr
    exact ⟨_, repoAt_call_of_some hgc tenant hr, extends_written tenant op a r⟩
  · intro a r' hr'
    refine (of_repoAt_call hgc hr').imp_left ?_
    intro h
    obtain ⟨r, hr, rfl⟩ := h
    exact ⟨r, hr, extends_written tenant op a r⟩

/-- An id that `p` hands out in a fresh call is not carried elsewhere. -/
theorem FreshIds.not_mem {noGc : op.isGc = false} (h : s.FreshIds (.call tenant op noGc))
    {b : RepoId} (ha : s.manager.repoAt a = some r) (hb : s.manager.repoAt b = some r')
    (hne : b ≠ a) {id : LayerId} (hlow : r.nextLayerId ≤ id)
    (hhigh : id < (written tenant op a r).nextLayerId) {l : Layer} (hl : l ∈ r'.layers) :
    l.id ≠ id := by
  intro hid
  subst hid
  unfold written at hhigh
  split at hhigh
  · next ht =>
    exact h (a, r) (TenantManager.mem_hosted.mpr ha) ht (b, r') (TenantManager.mem_hosted.mpr hb)
      hne l hl ⟨hlow, hhigh⟩
  · exact absurd hhigh (not_lt_of_ge hlow)

theorem Inv.call (h : s.Inv) {noGc : op.isGc = false} (hf : s.FreshIds (.call tenant op noGc)) :
    (s.step (.call tenant op noGc)).Inv := by
  refine h.grow (grows_call noGc s.manager tenant) ?_
  intro a b r r' l l' ha hb hl hl' hid
  by_contra hne
  rcases of_repoAt_call noGc ha with ⟨x, hx, rfl⟩ | ⟨n, rfl⟩
  · rcases of_repoAt_call noGc hb with ⟨y, hy, rfl⟩ | ⟨n, rfl⟩
    · -- which of the two layers, if any, is made by this call
      rcases (extends_written tenant op a x).mem hl with hold | hnew
      · rcases (extends_written tenant op b y).mem hl' with hold' | hnew'
        · exact hne (h.apart hx hy hold hold' hid)
        · exact hf.not_mem hy hx hne hnew'.1 hnew'.2 hold hid
      · rcases (extends_written tenant op b y).mem hl' with hold' | hnew'
        · exact hf.not_mem hx hy (Ne.symm hne) hnew.1 hnew.2 hold' hid.symm
        · exact hne (written_unique (lt_of_le_of_lt hnew.1 hnew.2)
            (lt_of_le_of_lt hnew'.1 hnew'.2))
    · exact absurd hl' List.not_mem_nil
  · nomatch hl

/-- The worker's snapshot holds layers of the repository it was taken from. -/
theorem Inv.scan (h : s.Inv) (a : RepoId) : (s.step (.scan a)).Inv := by
  simp only [step]
  split
  · next r _ hr =>
    refine ⟨h.numbered, h.apart, h.stored, ?_, ?_⟩
    · intro b task hw
      obtain ⟨rfl, rfl⟩ := Prod.mk.inj (Option.some.inj hw)
      exact ⟨r, hr, fun l hl => (List.mem_filter.mp hl).1⟩
    · intro b l pending hw
      exact absurd (Option.some.inj hw) (by simp [OffloadTask.start])
  · exact h

/-- Storing a layer of `a` leaves every object of another id alone, and rewrites
the object of its own id with the same layer. -/
theorem Inv.store_put (h : s.Inv) {b : RepoId} {l l' : Layer} (ha : s.manager.repoAt a = some r)
    (hl : l ∈ r.layers) (hb : s.manager.repoAt b = some r') (hl' : l' ∈ r'.layers)
    (hst : s.store (layerKey l'.id) = some l'.serialize) (o : PutOutcome) :
    o.store s.store l (layerKey l'.id) = some l'.serialize := by
  refine PutOutcome.store_keeps hst ?_
  intro hkey
  have hid := layerKey_injective hkey
  obtain rfl := h.apart hb ha hl' hl hid
  rw [hb] at ha
  obtain rfl := Option.some.inj ha
  rw [(h.numbered hb).eq_of_id hl' hl hid]

/-- A layer to be marked is one whose `put` came back. -/
theorem put_marking {o : PutOutcome} {task : OffloadTask} {store : ObjectStore} {l : Layer}
    {pending : List Layer} (h : (task.put o store).1 = .marking l pending) :
    task = .marking l pending ∧ (task.put o store).2 = store ∨
      (task.put o store).2 = store.put (layerKey l.id) l.serialize := by
  cases task with
  | marking l' pending' => exact Or.inl ⟨h, rfl⟩
  | storing todo =>
    cases todo with
    | nil => simp [OffloadTask.put] at h
    | cons l' todo =>
      cases o with
      | ok =>
        obtain ⟨rfl, _⟩ := OffloadTask.marking.inj h
        exact Or.inr rfl
      | failed => simp [OffloadTask.put] at h
      | storedButFailed => simp [OffloadTask.put] at h

theorem Inv.put (h : s.Inv) (o : PutOutcome) : (s.step (.put o)).Inv := by
  simp only [step]
  split
  · exact h
  · next a task hw =>
    obtain ⟨r, hr, hheld⟩ := h.held hw
    obtain ⟨hsub, hstore⟩ := task.put_cases o s.store
    refine ⟨h.numbered, h.apart, ?_, ?_, ?_⟩
    -- an object that is needed is overwritten by itself at most
    · intro b r' id hr' hid
      obtain ⟨l', hl', rfl, hst⟩ := h.stored hr' hid
      refine ⟨l', hl', rfl, ?_⟩
      rcases hstore with hsame | ⟨l, hl, hput⟩
      · simp only [hsame]
        exact hst
      · simp only [hput]
        exact h.store_put hr (hheld l hl) hr' hl' hst o
    · intro b task' hw'
      obtain ⟨rfl, rfl⟩ := Prod.mk.inj (Option.some.inj hw')
      exact ⟨r, hr, fun l hl => hheld l (hsub l hl)⟩
    · intro b l pending hw'
      rcases put_marking (Prod.mk.inj (Option.some.inj hw')).2 with ⟨rfl, hsame⟩ | hput
      · simp only [hsame]
        exact h.marking hw
      · simp only [hput, ObjectStore.put_self]

/-- Marking changes `uploaded` in the repository the worker is at. -/
theorem repoAt_mark (m : TenantManager) (a : RepoId) (id : LayerId) (b : RepoId) :
    (m.onTenant a.1 fun t => t.onStore a.2 fun r => r.markUploaded id).repoAt b
      = (m.repoAt b).map fun r => if b = a then r.markUploaded id else r := by
  obtain ⟨i, tl⟩ := b
  by_cases hi : i = a.1
  · subst hi
    rw [m.repoAt_onTenant]
    show _ = ((m.get a.1).bind fun t => t.repoOf tl).map _
    cases m.get a.1 with
    | none => rfl
    | some t =>
      show (t.onStore _ _).repoOf tl = (t.repoOf tl).map _
      rw [t.repoOf_onStore]
      have hiff : (a.1, tl) = a ↔ tl = a.2 := ⟨fun h => (Prod.ext_iff.mp h).2, fun h => Prod.ext rfl h⟩
      simp only [hiff]
  · have hne : (i, tl) ≠ a := fun h => hi (Prod.ext_iff.mp h).1
    rw [TenantManager.repoAt_onTenant_of_ne hi]
    simp only [hne, if_false]
    exact Option.map_id'.symm

theorem Inv.mark (h : s.Inv) : (s.step .mark).Inv := by
  simp only [step]
  split
  · next a l pending hw =>
    obtain ⟨r, hr, hheld⟩ := h.held hw
    -- every repository keeps its layers; the worker's gains an uploaded id
    have hback : ∀ {b r'}, (s.manager.onTenant a.1 fun t => t.onStore a.2 fun r =>
        r.markUploaded l.id).repoAt b = some r' → ∃ x, s.manager.repoAt b = some x ∧
          r'.layers = x.layers ∧ r'.nextLayerId = x.nextLayerId ∧
          (r'.uploaded = x.uploaded ∨ b = a ∧ r'.uploaded = insert l.id x.uploaded) := by
      intro b r' hr'
      rw [repoAt_mark] at hr'
      obtain ⟨x, hx, rfl⟩ := Option.map_eq_some_iff.mp hr'
      refine ⟨x, hx, ?_⟩
      split
      · next hb => exact ⟨rfl, rfl, Or.inr ⟨hb, rfl⟩⟩
      · exact ⟨rfl, rfl, Or.inl rfl⟩
    refine ⟨?_, ?_, ?_, ?_, ?_⟩
    · intro b r' hr'
      obtain ⟨x, hx, hlay, hnext, _⟩ := hback hr'
      have hnum := h.numbered hx
      exact ⟨by rw [hlay]; exact hnum.nodup, by rw [hlay, hnext]; exact hnum.below⟩
    · intro b c r1 r2 l1 l2 h1 h2 hl1 hl2 hid
      obtain ⟨x, hx, hlay, _⟩ := hback h1
      obtain ⟨y, hy, hlay', _⟩ := hback h2
      rw [hlay] at hl1
      rw [hlay'] at hl2
      exact h.apart hx hy hl1 hl2 hid
    · intro b r' id hr' hid
      obtain ⟨x, hx, hlay, _, hup⟩ := hback hr'
      rw [hlay]
      rcases hup with hup | ⟨rfl, hup⟩
      · exact h.stored hx (hup ▸ hid)
      · rw [hup] at hid
        rcases Finset.mem_insert.mp hid with rfl | hid
        · rw [hr] at hx
          obtain rfl := Option.some.inj hx
          exact ⟨l, hheld l List.mem_cons_self, rfl, h.marking hw⟩
        · exact h.stored hx hid
    · intro b task hw'
      obtain ⟨rfl, rfl⟩ := Prod.mk.inj (Option.some.inj hw')
      refine ⟨r.markUploaded l.id, ?_, fun x hx => hheld x (List.mem_cons_of_mem _ hx)⟩
      rw [repoAt_mark, hr, Option.map_some, if_pos rfl]
    · intro b l' pending' hw'
      exact absurd (Option.some.inj hw') (by simp)
  · exact h

/-- **One step.** -/
theorem Inv.step (h : s.Inv) {a : ServerAction} (hf : s.FreshIds a) : (s.step a).Inv := by
  cases a with
  | createTenant tenant =>
    have hsame := s.manager.repoAt_getOrCreate tenant
    refine h.grow ⟨?_, ?_⟩ ?_
    · intro a r hr
      exact ⟨r, (hsame a).trans hr, Repository.Extends.refl r⟩
    · intro a r hr
      exact Or.inl ⟨r, (hsame a).symm.trans hr, Repository.Extends.refl r⟩
    · intro a b r r' l l' ha hb
      exact h.apart ((hsame a).symm.trans ha) ((hsame b).symm.trans hb)
  | call tenant op noGc => exact h.call hf
  | scan a => exact h.scan a
  | put o => exact h.put o
  | mark => exact h.mark

/-- A freeze that hands out a taken id leaves two layers under one key. -/
theorem freshIds_of_retrievable {a : ServerAction} (h : (s.step a).Retrievable) : s.FreshIds a := by
  cases a with
  | call tenant op noGc =>
    intro p hp hten q hq hne l hl hid
    have hp' := repoAt_call_of_some noGc tenant (TenantManager.mem_hosted.mp hp)
    have hq' := repoAt_call_of_some noGc tenant (TenantManager.mem_hosted.mp hq)
    have hwr : written tenant op p.1 p.2 = op.write p.1.2 p.2 := if_pos hten
    obtain ⟨l', hl', hid'⟩ := (extends_written tenant op p.1 p.2).exists_layer hid.1
      (hwr ▸ hid.2)
    have hl := (extends_written tenant op q.1 q.2).subset hl
    exact hne (h.apart _ (TenantManager.mem_hosted.mpr hq') _ (TenantManager.mem_hosted.mpr hp')
      l hl l' hl' (by rw [hid'])).1
  | _ => exact trivial

end PageServer

open PageServer in
/-- **Offloaded layers stay retrievable** in every state of a run, and no two
frozen layers share an object key, exactly when no step of the run hands out a
layer id that a layer of another repository already carries. -/
theorem offloaded_retrievable_iff (n : Nat) (redo : Option WalRedoManager)
    (acts : List ServerAction) :
    (∀ pre, pre <+: acts → (after n redo pre).Retrievable) ↔
      Along (fun pre a => (after n redo pre).FreshIds a) acts := by
  constructor
  · intro h pre a post hsplit
    have hstep := h (pre ++ [a]) ⟨post, by rw [hsplit, List.append_assoc]; rfl⟩
    rw [after, run_concat] at hstep
    exact freshIds_of_retrievable hstep
  · intro hok pre hpre
    obtain ⟨post, rfl⟩ := hpre
    exact (run_invariant (I := fun _ s => PageServer.Inv s) (inv_new n redo)
      (fun _ _ _ hf h => h.step hf) pre hok.of_append).retrievable

/-- Two timelines of one tenant, each with one frozen layer. -/
def twoTimelines : List ServerAction :=
  [.createTenant TenantId.ZERO, .call TenantId.ZERO (.create mainId) rfl,
    .call TenantId.ZERO (.create devId) rfl,
    .call TenantId.ZERO (.ingest mainId [deltaSample 10 1]) rfl,
    .call TenantId.ZERO (.freeze mainId) rfl,
    .call TenantId.ZERO (.ingest devId [deltaSample 20 7]) rfl,
    .call TenantId.ZERO (.freeze devId) rfl]

/-- The worker offloads one layer of `timeline`. -/
def offloadOne (timeline : TimelineId) : List ServerAction :=
  [.scan (TenantId.ZERO, timeline), .put .ok, .mark]

/-- With one timeline holding layers the condition is met. -/
example : Along (fun pre a => (PageServer.after 1000 none pre).FreshIds a)
    (twoTimelines.take 5 ++ offloadOne mainId) := by decide

/-- The second timeline's layer `0` replaces the first one's in the store, while
the first timeline still counts its layer as offloaded. -/
theorem second_timeline_overwrites_layer :
    ¬ (PageServer.after 1000 none
        (twoTimelines ++ offloadOne mainId ++ offloadOne devId)).Retrievable := by
  intro h
  obtain ⟨r, hr, hup, hlayers⟩ : ∃ r, (PageServer.after 1000 none
      (twoTimelines ++ offloadOne mainId ++ offloadOne devId)).manager.repoAt
        (TenantId.ZERO, mainId) = some r ∧ 0 ∈ r.uploaded ∧
        r.layers = [layerSample (deltaSample 10 1)] := ⟨_, rfl, by decide, rfl⟩
  have hstore : (PageServer.after 1000 none
      (twoTimelines ++ offloadOne mainId ++ offloadOne devId)).store
        = (ObjectStore.empty.put (layerKey 0)
            (layerSample (deltaSample 10 1)).serialize).put (layerKey 0)
              (layerSample (deltaSample 20 7)).serialize := rfl
  obtain ⟨l, hl, _, hobj⟩ := h.stored _ (TenantManager.mem_hosted.mpr hr) 0 hup
  rw [hlayers, List.mem_singleton] at hl
  rw [hstore, ObjectStore.put_self, hl] at hobj
  exact absurd hobj (by decide)

end AethelDB.Pageserver
