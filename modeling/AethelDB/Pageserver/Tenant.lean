import AethelDB.Lib.Run
import AethelDB.Pageserver.Timeline
import AethelDB.Pageserver.VersionLog

/-!
# Tenants: creating, branching, writing and collecting timelines

`pageserver/src/tenant.rs`. A tenant is a map of timelines with unique ids in
which every branch's parent is itself a timeline of the tenant; both facts are
fields, so no operation can lose them. The map is a `HashMap` in the source; the
list order stands for its iteration order, which nothing below depends on.

`TenantOp` and `Tenant.step` put the calls on one footing so that whole runs can
be talked about. Reads go through `Timeline.getPage`.
-/

namespace AethelDB.Pageserver

open AethelDB.Lib

inductive TenantError where
  | alreadyExists (id : TimelineId)
  | noSuchParent (id : TimelineId)
deriving DecidableEq

def TenantError.display : TenantError → String
  | .alreadyExists id => "timeline " ++ id.id.display ++ " already exists"
  | .noSuchParent id => "parent timeline " ++ id.id.display ++ " does not exist"

/-- One isolated database instance: a collection of branchable timelines. -/
structure Tenant where
  timelines : List Timeline
  repos : Stores
  freezeThreshold : Nat
  nodup : (timelines.map Timeline.id).Nodup
  closed : ∀ t ∈ timelines, ∀ p ∈ t.parent, p ∈ timelines

namespace Tenant

variable {t : Tenant} {id : TimelineId} {tl : Timeline}

def new (freezeThreshold : Nat) : Tenant where
  timelines := []
  repos := fun _ => Repository.new freezeThreshold
  freezeThreshold := freezeThreshold
  nodup := List.nodup_nil
  closed := fun _ h => absurd h List.not_mem_nil

def newRepo (t : Tenant) : Repository := Repository.new t.freezeThreshold

def getTimeline (t : Tenant) (id : TimelineId) : Option Timeline :=
  t.timelines.find? fun tl => decide (tl.id = id)

def timelineIds (t : Tenant) : List TimelineId := t.timelines.map Timeline.id

theorem getTimeline_eq_none_iff : t.getTimeline id = none ↔ id ∉ t.timelineIds := by
  unfold getTimeline timelineIds
  rw [List.find?_eq_none, List.mem_map]
  constructor
  · intro h hx
    obtain ⟨tl, htl, hid⟩ := hx
    exact h tl htl (decide_eq_true hid)
  · intro h tl htl hid
    exact h ⟨tl, htl, of_decide_eq_true hid⟩

theorem getTimeline_eq_some_iff : t.getTimeline id = some tl ↔ tl ∈ t.timelines ∧ tl.id = id := by
  unfold getTimeline
  constructor
  · intro h
    exact ⟨List.mem_of_find?_eq_some h, by simpa using List.find?_some h⟩
  · intro h
    obtain ⟨htl, hid⟩ := h
    cases hf : t.timelines.find? (fun tl => decide (tl.id = id)) with
    | none => exact absurd (decide_eq_true hid) (List.find?_eq_none.mp hf tl htl)
    | some tl' =>
      have hid' : tl'.id = id := by simpa using List.find?_some hf
      rw [List.inj_on_of_nodup_map t.nodup (List.mem_of_find?_eq_some hf) htl
        (hid'.trans hid.symm)]

/-- Register a timeline under a fresh id, with an empty store. -/
def register (t : Tenant) (tl : Timeline) (hfresh : t.getTimeline tl.id = none)
    (hparent : ∀ p ∈ tl.parent, p ∈ t.timelines) : Tenant where
  timelines := t.timelines ++ [tl]
  repos := Function.update t.repos tl.id t.newRepo
  freezeThreshold := t.freezeThreshold
  nodup := by
    rw [List.map_append, List.map_singleton]
    refine List.nodup_append.mpr ⟨t.nodup, List.nodup_singleton _, ?_⟩
    intro a ha b hb hab
    rw [hab, List.mem_singleton.mp hb] at ha
    exact getTimeline_eq_none_iff.mp hfresh ha
  closed := by
    intro u hu p hp
    rcases List.mem_append.mp hu with hu | hu
    · exact List.mem_append_left _ (t.closed u hu p hp)
    · rw [List.mem_singleton.mp hu] at hp
      exact List.mem_append_left _ (hparent p hp)

theorem getTimeline_register (hfresh : t.getTimeline tl.id = none)
    (hparent : ∀ p ∈ tl.parent, p ∈ t.timelines) (id : TimelineId) :
    (t.register tl hfresh hparent).getTimeline id = if id = tl.id then some tl else t.getTimeline id := by
  show (t.timelines ++ [tl]).find? (fun u => decide (u.id = id)) = _
  rw [List.find?_append, List.find?_singleton]
  show (t.getTimeline id).or _ = _
  by_cases hid : id = tl.id
  · subst hid
    simp [hfresh]
  · simp [hid, Ne.symm hid]

theorem root_parent_mem (t : Tenant) (id : TimelineId) :
    ∀ p ∈ (Timeline.root id).parent, p ∈ t.timelines :=
  fun _ hp => absurd hp (by simp [Timeline.parent])

theorem branched_parent_mem {parentId : TimelineId} {parent : Timeline}
    (h : t.getTimeline parentId = some parent) (newId : TimelineId) (lsn : Lsn) :
    ∀ p ∈ (Timeline.branched newId parent lsn).parent, p ∈ t.timelines := by
  intro p hp
  rw [← Option.some.inj (Option.mem_def.mp hp)]
  exact (getTimeline_eq_some_iff.mp h).1

def createTimeline (t : Tenant) (id : TimelineId) : Except TenantError (Tenant × Timeline) :=
  match h : t.getTimeline id with
  | some _ => .error (.alreadyExists id)
  | none => .ok (t.register (.root id) h (t.root_parent_mem id), .root id)

/-- Branch `newId` off `parentId` at `ancestorLsn`. -/
def branchTimeline (t : Tenant) (newId parentId : TimelineId) (ancestorLsn : Lsn) :
    Except TenantError (Tenant × Timeline) :=
  match h : t.getTimeline newId with
  | some _ => .error (.alreadyExists newId)
  | none =>
    match hp : t.getTimeline parentId with
    | none => .error (.noSuchParent parentId)
    | some parent =>
      .ok (t.register (.branched newId parent ancestorLsn) h
          (branched_parent_mem hp newId ancestorLsn),
        .branched newId parent ancestorLsn)

def accepts (t : Tenant) (newId parentId : TimelineId) (ancestorLsn : Lsn) : Bool :=
  match t.branchTimeline newId parentId ancestorLsn with
  | .ok _ => true
  | .error _ => false

/-- Apply `f` to the store behind the handle of timeline `id`. -/
def onStore (t : Tenant) (id : TimelineId) (f : Repository → Repository) : Tenant :=
  match t.getTimeline id with
  | none => t
  | some _ => { t with repos := Function.update t.repos id (f (t.repos id)) }

/-- `Timeline::ingest` through a handle from `get_timeline`. -/
def ingest (t : Tenant) (id : TimelineId) (mods : List Modification) : Tenant :=
  t.onStore id fun r => r.ingest mods

/-- `Timeline::freeze` through a handle from `get_timeline`. -/
def freeze (t : Tenant) (id : TimelineId) : Tenant := t.onStore id Repository.freeze

/-- The body of the pin loop: a branch lowers its parent's entry, which starts
at `u64::MAX`. -/
def pinParent (pins : TimelineId → Option Lsn) (tl : Timeline) : TimelineId → Option Lsn :=
  match tl.ancestorTimeline, tl.ancestorLsn with
  | some parent, some alsn =>
    Function.update pins parent (some (min ((pins parent).getD Lsn.MAX) alsn))
  | _, _ => pins

/-- The lowest branch point pinned on each parent timeline. -/
def childPin (t : Tenant) : TimelineId → Option Lsn :=
  t.timelines.foldl pinParent (fun _ => none)

/-- The horizon a collection really uses on a timeline. -/
def effectiveHorizon (t : Tenant) (requestedHorizon : Lsn) (id : TimelineId) : Lsn :=
  match t.childPin id with
  | some pin => min requestedHorizon pin
  | none => requestedHorizon

/-- Compact every timeline at its effective horizon. -/
def gc (t : Tenant) (requestedHorizon : Lsn) : Tenant × List (TimelineId × CompactionStats) :=
  ({ t with
      repos := fun id =>
        match t.getTimeline id with
        | none => t.repos id
        | some _ => ((t.repos id).compact (t.effectiveHorizon requestedHorizon id)).1 },
    t.timelines.map fun tl =>
      (tl.id, ((t.repos tl.id).compact (t.effectiveHorizon requestedHorizon tl.id)).2))

/-! ## Pins -/

/-- A pin is at or below the branch point of every child of its timeline. -/
theorem foldl_pinParent_le {parent : TimelineId} {alsn : Lsn} :
    ∀ {tls : List Timeline} {pins : TimelineId → Option Lsn},
      ((∃ pin, pins parent = some pin ∧ pin ≤ alsn) ∨
        ∃ tl ∈ tls, tl.ancestorTimeline = some parent ∧ tl.ancestorLsn = some alsn) →
      ∃ pin, tls.foldl pinParent pins parent = some pin ∧ pin ≤ alsn := by
  intro tls
  induction tls with
  | nil =>
    intro pins hx
    rcases hx with h | ⟨tl, htl, _⟩
    · exact h
    · nomatch htl
  | cons u tls ih =>
    intro pins h
    rw [List.foldl_cons]
    refine ih ?_
    cases u with
    | root i =>
      -- a root pins nothing
      refine h.imp_right ?_
      intro h
      obtain ⟨tl, htl, hp, ha⟩ := h
      rcases List.mem_cons.mp htl with rfl | htl
      · simp [Timeline.ancestorTimeline, Timeline.parent] at hp
      · exact ⟨tl, htl, hp, ha⟩
    | branched i p a =>
      simp only [pinParent, Timeline.ancestorTimeline, Timeline.parent, Timeline.ancestorLsn,
        Option.map_some]
      by_cases hpar : parent = p.id
      · subst hpar
        rw [Function.update_self]
        rcases h with ⟨pin, hpin, hle⟩ | ⟨tl, htl, hp, ha⟩
        · rw [hpin]
          exact Or.inl ⟨_, rfl, (min_le_left _ _).trans hle⟩
        · rcases List.mem_cons.mp htl with rfl | htl
          · rw [← Option.some.inj ha]
            exact Or.inl ⟨_, rfl, min_le_right _ _⟩
          · exact Or.inr ⟨tl, htl, hp, ha⟩
      · rw [Function.update_of_ne hpar]
        refine h.imp_right ?_
        intro h
        obtain ⟨tl, htl, hp, ha⟩ := h
        rcases List.mem_cons.mp htl with rfl | htl
        · exact absurd (Option.some.inj hp).symm hpar
        · exact ⟨tl, htl, hp, ha⟩

/-- A collection never goes above a branch point of the timeline. -/
theorem effectiveHorizon_le_branchPoint {p : Timeline} {a : Lsn}
    (h : .branched id p a ∈ t.timelines) (requested : Lsn) :
    t.effectiveHorizon requested p.id ≤ a := by
  obtain ⟨pin, hpin, hle⟩ : ∃ pin,
      t.timelines.foldl pinParent (fun _ => none) p.id = some pin ∧ pin ≤ a :=
    foldl_pinParent_le (Or.inr ⟨.branched id p a, h, rfl, rfl⟩)
  unfold effectiveHorizon childPin
  rw [hpin]
  exact (min_le_right _ _).trans hle

theorem effectiveHorizon_le_requested (t : Tenant) (requested : Lsn) (id : TimelineId) :
    t.effectiveHorizon requested id ≤ requested := by
  unfold effectiveHorizon
  split
  · exact min_le_left _ _
  · exact le_rfl

theorem eachRead_ancestor_ne (htl : tl ∈ t.timelines) :
    ∀ {q : Timeline} {lsn : Lsn}, q ∈ t.timelines → q.depth < tl.depth →
      q.EachRead (fun id _ => id ≠ tl.id) lsn := by
  have hne : ∀ {q : Timeline}, q ∈ t.timelines → q.depth < tl.depth → q.id ≠ tl.id := by
    intro q hq hlt hid
    rw [List.inj_on_of_nodup_map t.nodup hq htl hid] at hlt
    exact lt_irrefl _ hlt
  intro q
  induction q with
  | root id => exact fun hq hlt => hne hq hlt
  | branched id p a ih =>
    intro lsn hq hlt
    exact ⟨hne hq hlt, ih (t.closed _ hq p rfl) (lt_trans (Nat.lt_succ_self _) hlt)⟩

/-! ## Which timelines and stores an operation touches -/

theorem getTimeline_congr {t' : Tenant} (h : t.timelines = t'.timelines) (id : TimelineId) :
    t.getTimeline id = t'.getTimeline id := by
  rw [getTimeline, getTimeline, h]

@[simp] theorem onStore_timelines (t : Tenant) (id : TimelineId) (f : Repository → Repository) :
    (t.onStore id f).timelines = t.timelines := by
  unfold onStore
  split <;> rfl

@[simp] theorem onStore_threshold (t : Tenant) (id : TimelineId) (f : Repository → Repository) :
    (t.onStore id f).freezeThreshold = t.freezeThreshold := by
  unfold onStore
  split <;> rfl

/-- A write reaches the named store, if the timeline exists, and no other. -/
theorem onStore_repos (t : Tenant) (id : TimelineId) (f : Repository → Repository)
    (i : TimelineId) :
    (t.onStore id f).repos i
      = if i = id ∧ (t.getTimeline id).isSome then f (t.repos i) else t.repos i := by
  unfold onStore
  cases h : t.getTimeline id with
  | none => simp
  | some tl =>
    by_cases hi : i = id
    · subst hi
      simp
    · simp [hi]

end Tenant

/-! ## Runs -/

inductive TenantOp where
  | create (id : TimelineId)
  | branch (newId parentId : TimelineId) (ancestorLsn : Lsn)
  | ingest (id : TimelineId) (mods : List Modification)
  | freeze (id : TimelineId)
  | gc (horizon : Lsn)

namespace TenantOp

def isGc : TenantOp → Bool
  | .gc _ => true
  | _ => false

def mods : TenantOp → List Modification
  | .ingest _ ms => ms
  | _ => []

/-- What an operation writes into the store of `id`. A write needs a handle, so
it counts only when the timeline exists. -/
def ingested (t : Tenant) (id : TimelineId) : TenantOp → List Modification
  | .ingest i mods => if id = i ∧ (t.getTimeline i).isSome then mods else []
  | _ => []

end TenantOp

namespace Tenant

variable {t : Tenant} {newId parentId : TimelineId}

/-- One call; a refused one leaves the tenant as it was. -/
def step (t : Tenant) : TenantOp → Tenant
  | .create id =>
    match t.createTimeline id with
    | .ok (t', _) => t'
    | .error _ => t
  | .branch newId parentId ancestorLsn =>
    match t.branchTimeline newId parentId ancestorLsn with
    | .ok (t', _) => t'
    | .error _ => t
  | .ingest id mods => t.ingest id mods
  | .freeze id => t.freeze id
  | .gc horizon => (t.gc horizon).1

def after (freezeThreshold : Nat) (ops : List TenantOp) : Tenant :=
  run step (Tenant.new freezeThreshold) ops

/-- Everything written into the store of `id` from `t` on. -/
def logFrom : Tenant → List TenantOp → TimelineId → List Modification
  | _, [], _ => []
  | t, op :: ops, id => op.ingested t id ++ logFrom (t.step op) ops id

/-- Everything a run writes into the store of `id`, in order. -/
def log (freezeThreshold : Nat) (ops : List TenantOp) (id : TimelineId) : List Modification :=
  logFrom (Tenant.new freezeThreshold) ops id

theorem logFrom_concat (op : TenantOp) (id : TimelineId) :
    ∀ (ops : List TenantOp) (t : Tenant),
      t.logFrom (ops ++ [op]) id = t.logFrom ops id ++ op.ingested (run step t ops) id := by
  intro ops
  induction ops with
  | nil => intro t; simp [logFrom]
  | cons o ops ih =>
    intro t
    rw [List.cons_append, logFrom, ih, logFrom, List.append_assoc]
    rfl

/-- The modifications named by a run, whether or not their timeline exists. -/
theorem logFrom_sublist (id : TimelineId) :
    ∀ (ops : List TenantOp) (t : Tenant),
      (t.logFrom ops id).Sublist (ops.flatMap TenantOp.mods) := by
  intro ops
  induction ops with
  | nil => exact fun _ => List.Sublist.refl _
  | cons op ops ih =>
    intro t
    rw [logFrom, List.flatMap_cons]
    refine List.Sublist.append ?_ (ih _)
    cases op with
    | ingest i mods =>
      simp only [TenantOp.ingested, TenantOp.mods]
      split
      · exact List.Sublist.refl _
      · exact List.nil_sublist _
    | _ => exact List.Sublist.refl _

/-- Slots that are distinct over the whole run are distinct on each timeline. -/
theorem log_nodup_of_mods {n : Nat} {ops : List TenantOp}
    (h : ((ops.flatMap TenantOp.mods).map Modification.slot).Nodup) (id : TimelineId) :
    ((log n ops id).map Modification.slot).Nodup :=
  h.sublist ((logFrom_sublist id ops _).map _)

@[simp] theorem log_concat (n : Nat) (ops : List TenantOp) (op : TenantOp) (id : TimelineId) :
    log n (ops ++ [op]) id = log n ops id ++ op.ingested (after n ops) id :=
  logFrom_concat op id ops _

/-- The last call of a run with distinct slots: the log before it, and what it adds. -/
theorem log_split {n : Nat} {ops : List TenantOp} {op : TenantOp}
    (huniq : ∀ id, ((log n (ops ++ [op]) id).map Modification.slot).Nodup) :
    log n (ops ++ [op]) = (fun id => log n ops id ++ op.ingested (after n ops) id) ∧
      (∀ id, ((log n ops id ++ op.ingested (after n ops) id).map Modification.slot).Nodup) ∧
      ∀ id, ((log n ops id).map Modification.slot).Nodup := by
  have hlog : log n (ops ++ [op]) = fun id => log n ops id ++ op.ingested (after n ops) id :=
    funext (log_concat n ops op)
  rw [hlog] at huniq
  refine ⟨hlog, huniq, fun id => ?_⟩
  have hid := huniq id
  rw [List.map_append] at hid
  exact (List.nodup_append.mp hid).1

@[simp] theorem after_concat (n : Nat) (ops : List TenantOp) (op : TenantOp) :
    after n (ops ++ [op]) = (after n ops).step op := run_concat ops op

theorem createTimeline_of_none {id : TimelineId} (h : t.getTimeline id = none) :
    t.createTimeline id
      = .ok (t.register (.root id) h (t.root_parent_mem id), .root id) := by
  unfold createTimeline
  split
  · next h' => exact absurd (h.symm.trans h') (by simp)
  · rfl

theorem createTimeline_of_some {id : TimelineId} {tl : Timeline} (h : t.getTimeline id = some tl) :
    t.createTimeline id = .error (.alreadyExists id) := by
  unfold createTimeline
  split
  · rfl
  · next h' => exact absurd (h.symm.trans h') (by simp)

theorem branchTimeline_of_none {parent : Timeline} (lsn : Lsn) (h : t.getTimeline newId = none)
    (hpar : t.getTimeline parentId = some parent) :
    t.branchTimeline newId parentId lsn
      = .ok (t.register (.branched newId parent lsn) h (branched_parent_mem hpar newId lsn),
          .branched newId parent lsn) := by
  unfold branchTimeline
  split
  · next h' => exact absurd (h.symm.trans h') (by simp)
  · split
    · next h' => exact absurd (hpar.symm.trans h') (by simp)
    · next h' =>
      obtain rfl := Option.some.inj (hpar.symm.trans h')
      rfl

theorem branchTimeline_of_some {tl : Timeline} (parentId : TimelineId) (lsn : Lsn)
    (h : t.getTimeline newId = some tl) :
    t.branchTimeline newId parentId lsn = .error (.alreadyExists newId) := by
  unfold branchTimeline
  split
  · rfl
  · next h' => exact absurd (h.symm.trans h') (by simp)

theorem branchTimeline_of_noParent (lsn : Lsn) (h : t.getTimeline newId = none)
    (hpar : t.getTimeline parentId = none) :
    t.branchTimeline newId parentId lsn = .error (.noSuchParent parentId) := by
  unfold branchTimeline
  split
  · next h' => exact absurd (h.symm.trans h') (by simp)
  · split
    · rfl
    · next h' => exact absurd (hpar.symm.trans h') (by simp)

theorem accepts_of_none (lsn : Lsn) (h : t.getTimeline newId = none)
    (hpar : (t.getTimeline parentId).isSome) : t.accepts newId parentId lsn = true := by
  obtain ⟨parent, hpar⟩ := Option.isSome_iff_exists.mp hpar
  rw [accepts, branchTimeline_of_none lsn h hpar]

theorem step_freeze_contents (t : Tenant) (id i : TimelineId) :
    ((t.step (.freeze id)).repos i).contents.Perm (t.repos i).contents := by
  show ((t.onStore id Repository.freeze).repos i).contents.Perm _
  rw [onStore_repos]
  split
  · exact Repository.contents_freezeLocked _
  · exact List.Perm.refl _

theorem step_ingest_repos (t : Tenant) (id : TimelineId) (mods : List Modification)
    (i : TimelineId) : (t.step (.ingest id mods)).repos i
      = (t.repos i).ingest ((TenantOp.ingest id mods).ingested t i) := by
  show (t.onStore id fun r => r.ingest mods).repos i = _
  rw [onStore_repos]
  simp only [TenantOp.ingested]
  split
  · rfl
  · rfl

/-- Creating either is refused or registers a root under a fresh id. -/
theorem step_create (t : Tenant) (id : TimelineId) :
    (t.step (.create id) = t ∧ t.getTimeline id ≠ none) ∨
      ∃ hf hp, t.step (.create id) = t.register (.root id) hf hp := by
  cases h : t.getTimeline id with
  | none =>
    exact Or.inr ⟨h, t.root_parent_mem id, by rw [step, createTimeline_of_none h]⟩
  | some tl => exact Or.inl ⟨by rw [step, createTimeline_of_some h], by simp⟩

/-- Branching either is refused or registers a branch, under a fresh id, of a
timeline the tenant has. -/
theorem step_branch (t : Tenant) (newId parentId : TimelineId) (lsn : Lsn) :
    (t.step (.branch newId parentId lsn) = t ∧
        (t.getTimeline newId ≠ none ∨ t.getTimeline parentId = none)) ∨
      ∃ parent hf hp, t.getTimeline parentId = some parent ∧
        t.step (.branch newId parentId lsn)
          = t.register (.branched newId parent lsn) hf hp := by
  cases h : t.getTimeline newId with
  | some tl => exact Or.inl ⟨by rw [step, branchTimeline_of_some _ _ h], Or.inl (by simp)⟩
  | none =>
    cases hpar : t.getTimeline parentId with
    | none => exact Or.inl ⟨by rw [step, branchTimeline_of_noParent _ h hpar], Or.inr rfl⟩
    | some parent =>
      exact Or.inr ⟨parent, h, branched_parent_mem hpar newId lsn, rfl,
        by rw [step, branchTimeline_of_none lsn h hpar]⟩

end Tenant

end AethelDB.Pageserver
