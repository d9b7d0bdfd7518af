import AethelDB.Pageserver.Objstore

/-!
# Collecting a timeline whose layers live in the object store

`gc_command` (`pageserver/src/control.rs`) and `POST /v1/gc` (`httpapi.rs`) compact a
tenant's repositories and then delete, one object at a time, the layers that
compaction replaced. The layer that replaces them is a frozen layer like any
other: it reaches the store when the offload worker next comes by.

The state is one timeline with its object store and the calls in progress on it:
any number of `offload_pending` loops and of collections, each at its own place.
On a tenant with this one timeline a collection compacts at the requested horizon
(`Tenant.gc_single`).

`gc_keeps_stored_iff` is about every stretch of every run: a version that is in
some stored object at its start, and that no collection running then or begun
since discards, is in some stored object at its end. That holds in exactly the
runs whose deletions each leave another stored copy of whatever the running
collections keep. The command itself does nothing to ensure it
(`gc_deletes_only_copy`).

The proof needs one invariant, over runs without any condition: an id names the
same layer for good (`Inv`), so that storing a layer again never replaces an
object by a different one.
-/

namespace AethelDB.Pageserver

open AethelDB.Lib

/-- A version with the slot it is filed under. -/
abbrev Entry := Slot × PageVersion

namespace Repository

/-- The frozen versions a compaction discards. -/
def discards (r : Repository) (horizon : Lsn) : List Entry :=
  r.layerEntries.filter fun e => decide (e ∉ (r.compact horizon).1.layerEntries)

/-- The layers of `r'` are layers of `r` or carry ids that `r` had not handed out. -/
structure Renews (r r' : Repository) : Prop where
  mem : ∀ l ∈ r'.layers, l ∈ r.layers ∨ r.nextLayerId ≤ l.id ∧ l.id < r'.nextLayerId
  next : r.nextLayerId ≤ r'.nextLayerId

theorem Extends.renews {r r' : Repository} (h : r.Extends r') : r.Renews r' :=
  ⟨fun _ hl => h.mem hl, h.next_le⟩

/-- A compaction leaves at most one layer, under a new id. -/
theorem compact_layers (r : Repository) (horizon : Lsn) :
    (r.compact horizon).1 = r ∨
      (r.compact horizon).1.layers = [] ∧ (r.compact horizon).1.nextLayerId = r.nextLayerId ∨
      ∃ m, (r.compact horizon).1.layers = [⟨r.nextLayerId, m⟩] ∧
        (r.compact horizon).1.nextLayerId = r.nextLayerId + 1 := by
  unfold compact
  split
  · exact Or.inl rfl
  · simp only
    split
    · exact Or.inr (Or.inl ⟨rfl, rfl⟩)
    · exact Or.inr (Or.inr ⟨_, rfl, rfl⟩)

theorem renews_compact (r : Repository) (horizon : Lsn) : r.Renews (r.compact horizon).1 := by
  rcases r.compact_layers horizon with h | ⟨hl, hn⟩ | ⟨m, hl, hn⟩
  · rw [h]
    exact ⟨fun _ hl => Or.inl hl, le_rfl⟩
  · exact ⟨fun l hmem => absurd hmem (by simp [hl]), hn.ge⟩
  · refine ⟨?_, hn ▸ Nat.le_succ _⟩
    intro l hmem
    rw [hl, List.mem_singleton] at hmem
    rw [hmem, hn]
    exact Or.inr ⟨le_rfl, Nat.lt_succ_self _⟩

theorem Numbered.compact {r : Repository} (h : r.Numbered) (horizon : Lsn) :
    (r.compact horizon).1.Numbered := by
  rcases r.compact_layers horizon with hr | ⟨hl, _⟩ | ⟨m, hl, hn⟩
  · rw [hr]
    exact h
  · exact ⟨by simp [hl], by simp [hl]⟩
  · exact ⟨by simp [hl], by simp [hl, hn]⟩

end Repository

/-- On a tenant with one root timeline, a collection is a compaction at the
requested horizon. -/
theorem Tenant.gc_single {t : Tenant} {id : TimelineId} (h : t.timelines = [.root id])
    (horizon : Lsn) :
    (t.gc horizon).1.repos id = ((t.repos id).compact horizon).1 ∧
      (t.gc horizon).2 = [(id, ((t.repos id).compact horizon).2)] := by
  have heff : t.effectiveHorizon horizon id = horizon := by
    rw [effectiveHorizon, childPin, h]
    rfl
  have hget : t.getTimeline id = some (.root id) :=
    getTimeline_eq_some_iff.mpr ⟨by simp [h], rfl⟩
  refine ⟨?_, ?_⟩
  · simp only [gc, hget, heff]
  · simp only [gc, h, List.map_cons, List.map_nil, Timeline.id, heff]

/-! ## The system -/

/-- A collection that has compacted and is deleting objects. -/
structure GcTask where
  /-- The versions its compaction discarded. -/
  discarded : List Entry
  /-- `removed_layer_ids` not yet gone through. -/
  removed : List LayerId

/-- One timeline, its object store and the calls in progress. -/
structure StoredTimeline where
  repo : Repository
  store : ObjectStore
  offloads : List OffloadTask
  gcs : List GcTask

/-- What can happen next. The store operations name the call that makes them. -/
inductive StoreAction where
  | ingest (mods : List Modification)
  | freeze
  | offload
  | put (i : Nat) (o : PutOutcome)
  | mark (i : Nat)
  | gc (horizon : Lsn)
  /-- The next `delete` of collection `i`, which takes effect or fails. -/
  | delete (i : Nat) (succeeds : Bool)

namespace StoredTimeline

def new (freezeThreshold : Nat) : StoredTimeline :=
  ⟨Repository.new freezeThreshold, ObjectStore.empty, [], []⟩

/-- Collection `i` has dealt with its next object. -/
def advance (gcs : List GcTask) (i : Nat) (g : GcTask) (rest : List LayerId) : List GcTask :=
  if rest.isEmpty then gcs.eraseIdx i else gcs.set i { g with removed := rest }

/-- One step; one that cannot be taken changes nothing. -/
def step (s : StoredTimeline) : StoreAction → StoredTimeline
  | .ingest mods => { s with repo := s.repo.ingest mods }
  | .freeze => { s with repo := s.repo.freeze }
  | .offload => { s with offloads := s.offloads ++ [.start s.repo] }
  | .put i o =>
    match s.offloads[i]? with
    | none => s
    | some task =>
      { s with
        offloads := s.offloads.set i (task.put o s.store).1
        store := (task.put o s.store).2 }
  | .mark i =>
    match s.offloads[i]? with
    | none => s
    | some task =>
      { s with
        offloads := s.offloads.set i (task.mark s.repo).1
        repo := (task.mark s.repo).2 }
  | .gc horizon =>
    { s with
      repo := (s.repo.compact horizon).1
      gcs := s.gcs ++
        [⟨s.repo.discards horizon, (s.repo.compact horizon).2.removedLayerIds⟩] }
  | .delete i succeeds =>
    match s.gcs[i]? with
    | some ⟨discarded, id :: rest⟩ =>
      { s with
        gcs := advance s.gcs i ⟨discarded, id :: rest⟩ rest
        store := if succeeds then s.store.delete (layerKey id) else s.store }
    | _ => s

def after (n : Nat) (acts : List StoreAction) : StoredTimeline := run step (new n) acts

/-! ## What the store holds -/

/-- `bytes` is a layer file with the version `x`. -/
def Holds (bytes : List UInt8) (x : Entry) : Prop :=
  ∃ l : Layer, bytes = l.serialize ∧ x ∈ l.entries.entries

/-- Some stored object has `x`, under a key that meets `P`. -/
def StoredAt (s : StoredTimeline) (P : String → Prop) (x : Entry) : Prop :=
  ∃ key bytes, P key ∧ s.store key = some bytes ∧ Holds bytes x

def Stored (s : StoredTimeline) (x : Entry) : Prop := s.StoredAt (fun _ => True) x

/-- What the collections in progress discarded. -/
def discarding (s : StoredTimeline) : List Entry := s.gcs.flatMap GcTask.discarded

def discardedBy (s : StoredTimeline) : StoreAction → List Entry
  | .gc horizon => s.repo.discards horizon
  | _ => []

/-- What the compactions of a sequence of steps discard. -/
def discardedDuring (s : StoredTimeline) : List StoreAction → List Entry
  | [] => []
  | a :: acts => s.discardedBy a ++ (s.step a).discardedDuring acts

/-- A deletion that takes effect leaves another stored copy of every version in
the object, apart from those the collections in progress discarded. -/
def DeleteSafe (s : StoredTimeline) : StoreAction → Prop
  | .delete i true =>
    match s.gcs[i]? with
    | some ⟨_, id :: _⟩ =>
      ∀ bytes x, s.store (layerKey id) = some bytes → Holds bytes x → x ∉ s.discarding →
        s.StoredAt (fun key => key ≠ layerKey id) x
    | _ => True
  | _ => True

/-! ## An id names one layer for good -/

variable {born : LayerId → Layer} {s : StoredTimeline}

/-- `born` gives the layer that each id handed out so far was made for: whatever
the repository, the offload loops and the store have under an id is that layer. -/
structure Inv (born : LayerId → Layer) (s : StoredTimeline) : Prop where
  numbered : s.repo.Numbered
  live : ∀ l ∈ s.repo.layers, l = born l.id
  held : ∀ task ∈ s.offloads, ∀ l ∈ task.layers, l = born l.id ∧ l.id < s.repo.nextLayerId
  objects : ∀ {key bytes}, s.store key = some bytes →
    ∃ id, id < s.repo.nextLayerId ∧ key = layerKey id ∧ bytes = (born id).serialize

theorem inv_new (n : Nat) (born : LayerId → Layer) : (new n).Inv born where
  numbered := Repository.numbered_new n
  live := nofun
  held := nofun
  objects := fun h => absurd h (by simp [new, ObjectStore.empty])

/-- `born` with the new layers of `r'`. -/
def extendBorn (born : LayerId → Layer) (r r' : Repository) (id : LayerId) : Layer :=
  if id < r.nextLayerId then born id
  else (r'.layers.find? fun l => decide (l.id = id)).getD (born id)

theorem extendBorn_of_lt {r r' : Repository} {id : LayerId} (h : id < r.nextLayerId) :
    extendBorn born r r' id = born id := if_pos h

theorem extendBorn_of_mem {r r' : Repository} (hnum : r'.Numbered) {l : Layer} (hl : l ∈ r'.layers)
    (hge : r.nextLayerId ≤ l.id) : extendBorn born r r' l.id = l := by
  rw [extendBorn, if_neg (not_lt_of_ge hge)]
  cases hf : r'.layers.find? (fun x => decide (x.id = l.id)) with
  | none => exact absurd (decide_eq_true rfl) (List.find?_eq_none.mp hf l hl)
  | some x =>
    have hid : x.id = l.id := by simpa using List.find?_some hf
    exact hnum.eq_of_id (List.mem_of_find?_eq_some hf) hl hid

theorem Inv.renew (h : s.Inv born) {r' : Repository} (hr : s.repo.Renews r') (hnum : r'.Numbered)
    (gcs : List GcTask) : Inv (extendBorn born s.repo r') { s with repo := r', gcs := gcs } where
  numbered := hnum
  live := by
    intro l hl
    rcases hr.mem l hl with hold | hnew
    · rw [extendBorn_of_lt (h.numbered.below l hold)]
      exact h.live l hold
    · exact (extendBorn_of_mem hnum hl hnew.1).symm
  held := by
    intro task htask l hl
    obtain ⟨hborn, hlt⟩ := h.held task htask l hl
    rw [extendBorn_of_lt hlt]
    exact ⟨hborn, lt_of_lt_of_le hlt hr.next⟩
  objects := by
    intro key bytes hst
    obtain ⟨id, hlt, hkey, hbytes⟩ := h.objects hst
    refine ⟨id, lt_of_lt_of_le hlt hr.next, hkey, ?_⟩
    rw [extendBorn_of_lt hlt]
    exact hbytes

/-- Replacing a task by one that holds no more layers. -/
theorem held_set {P : Layer → Prop} {tasks : List OffloadTask} {i : Nat}
    {task task' : OffloadTask} (hi : tasks[i]? = some task)
    (hsub : ∀ l ∈ task'.layers, l ∈ task.layers)
    (h : ∀ t ∈ tasks, ∀ l ∈ t.layers, P l) : ∀ t ∈ tasks.set i task', ∀ l ∈ t.layers, P l := by
  intro t ht l hl
  rcases List.mem_or_eq_of_mem_set ht with ht | rfl
  · exact h t ht l hl
  · exact h task (List.mem_of_getElem? hi) l (hsub l hl)

theorem Inv.step (h : s.Inv born) (a : StoreAction) : ∃ born', (s.step a).Inv born' := by
  cases a with
  | ingest mods =>
    have he := s.repo.extends_ingest mods
    exact ⟨_, h.renew he.renews (h.numbered.of_extends he) s.gcs⟩
  | freeze =>
    have he := s.repo.extends_freezeLocked
    exact ⟨_, h.renew he.renews (h.numbered.of_extends he) s.gcs⟩
  | gc horizon =>
    exact ⟨_, h.renew (s.repo.renews_compact horizon) (h.numbered.compact horizon) _⟩
  | offload =>
    refine ⟨born, h.numbered, h.live, ?_, h.objects⟩
    intro task htask l hl
    rcases List.mem_append.mp htask with htask | htask
    · exact h.held task htask l hl
    · rw [List.mem_singleton.mp htask] at hl
      have hmem := (List.mem_filter.mp hl).1
      exact ⟨h.live l hmem, h.numbered.below l hmem⟩
  | put i o =>
    simp only [StoredTimeline.step]
    split
    · exact ⟨born, h⟩
    · next task htask =>
      obtain ⟨hsub, hstore⟩ := task.put_cases o s.store
      refine ⟨born, h.numbered, h.live, held_set htask hsub h.held, ?_⟩
      intro key bytes hst
      rcases hstore with hstore | ⟨l, hl, hstore⟩
      · exact h.objects (hstore ▸ hst)
      · simp only [hstore] at hst
        rcases PutOutcome.of_store hst with hst | ⟨hkey, hbytes⟩
        · exact h.objects hst
        · obtain ⟨hborn, hlt⟩ := h.held task (List.mem_of_getElem? htask) l hl
          exact ⟨l.id, hlt, hkey, hborn ▸ hbytes⟩
  | mark i =>
    simp only [StoredTimeline.step]
    split
    · exact ⟨born, h⟩
    · next task htask =>
      obtain ⟨hsub, hlayers, hnext⟩ := task.mark_cases s.repo
      refine ⟨born, ⟨hlayers ▸ h.numbered.nodup, ?_⟩, hlayers ▸ h.live, ?_, ?_⟩
      · simp only [hlayers, hnext]
        exact h.numbered.below
      · simp only [hnext]
        exact held_set htask hsub h.held
      · simp only [hnext]
        exact h.objects
  | delete i succeeds =>
    simp only [StoredTimeline.step]
    split
    · refine ⟨born, h.numbered, h.live, h.held, ?_⟩
      intro key bytes hst
      simp only at hst
      split at hst
      · exact h.objects (ObjectStore.of_delete hst).2
      · exact h.objects hst
    · exact ⟨born, h⟩

theorem exists_inv (n : Nat) (acts : List StoreAction) : ∃ born, (after n acts).Inv born := by
  refine run_invariant_always (I := fun s => ∃ born, Inv born s) ?_ ?_ acts
  · exact ⟨fun _ => ⟨0, OrdMap.empty⟩, inv_new n _⟩
  · intro s a hinv
    obtain ⟨born, hinv⟩ := hinv
    exact hinv.step a

/-! ## Deletions are the only loss -/

theorem of_mem_advance {gcs : List GcTask} {i : Nat} {g g' : GcTask} {rest : List LayerId}
    (h : g' ∈ advance gcs i g rest) : g' ∈ gcs ∨ g' = { g with removed := rest } := by
  unfold advance at h
  split at h
  · exact .inl (List.mem_of_mem_eraseIdx h)
  · exact List.mem_or_eq_of_mem_set h

theorem discarding_advance {gcs : List GcTask} {i : Nat} {g : GcTask} {rest : List LayerId}
    (hi : gcs[i]? = some g) {x : Entry} (hx : x ∉ gcs.flatMap GcTask.discarded) :
    x ∉ (advance gcs i g rest).flatMap GcTask.discarded := by
  intro hmem
  obtain ⟨g', hg', hxg⟩ := List.mem_flatMap.mp hmem
  refine hx (List.mem_flatMap.mpr ?_)
  rcases of_mem_advance hg' with hg' | rfl
  · exact ⟨g', hg', hxg⟩
  · exact ⟨g, List.mem_of_getElem? hi, hxg⟩

/-- Only a collection that begins adds to what is being discarded. -/
theorem discarding_step {a : StoreAction} {x : Entry} (hx : x ∉ s.discarding)
    (hnew : x ∉ s.discardedBy a) : x ∉ (s.step a).discarding := by
  cases a with
  | gc horizon =>
    show x ∉ (s.gcs ++ [_]).flatMap GcTask.discarded
    rw [List.flatMap_append, List.flatMap_singleton, List.mem_append, not_or]
    exact ⟨hx, hnew⟩
  | put i o =>
    simp only [step]
    split <;> exact hx
  | mark i =>
    simp only [step]
    split <;> exact hx
  | delete i succeeds =>
    simp only [step]
    split
    · next hi => exact discarding_advance hi hx
    · exact hx
  | _ => exact hx

/-- **One step** that is safe keeps every stored version that is not being
discarded. -/
theorem Inv.stored_step (h : s.Inv born) {a : StoreAction} (hsafe : s.DeleteSafe a) {x : Entry}
    (hst : s.Stored x) (hx : x ∉ s.discarding) : (s.step a).Stored x := by
  obtain ⟨key, bytes, -, hobj, hhold⟩ := hst
  cases a with
  | put i o =>
    simp only [StoredTimeline.step]
    split
    · exact ⟨key, bytes, trivial, hobj, hhold⟩
    · next task htask =>
      refine ⟨key, bytes, trivial, ?_, hhold⟩
      rcases (task.put_cases o s.store).2 with hstore | ⟨l, hl, hstore⟩
      · simp only [hstore]
        exact hobj
      · -- the key is that of the layer's id, so the object is the layer already
        obtain ⟨hborn, _⟩ := h.held task (List.mem_of_getElem? htask) l hl
        simp only [hstore]
        refine PutOutcome.store_keeps hobj ?_
        intro hkey
        obtain ⟨id, _, hkey', hbytes⟩ := h.objects hobj
        rw [hbytes, ← layerKey_injective (hkey.symm.trans hkey'), ← hborn]
  | mark i =>
    simp only [StoredTimeline.step]
    split <;> exact ⟨key, bytes, trivial, hobj, hhold⟩
  | delete i succeeds =>
    simp only [StoredTimeline.step]
    split
    · next discarded id rest hi =>
      cases succeeds with
      | false => exact ⟨key, bytes, trivial, hobj, hhold⟩
      | true =>
        simp only [DeleteSafe, hi] at hsafe
        -- the object may be the one deleted; the condition then names another
        have hother : s.StoredAt (fun k => k ≠ layerKey id) x := by
          by_cases hkey : key = layerKey id
          · exact hsafe bytes x (hkey ▸ hobj) hhold hx
          · exact ⟨key, bytes, hkey, hobj, hhold⟩
        obtain ⟨k, b, hne, hb, hbx⟩ := hother
        exact ⟨k, b, trivial, (ObjectStore.delete_of_ne hne s.store).trans hb, hbx⟩
    · exact ⟨key, bytes, trivial, hobj, hhold⟩
  | _ => exact ⟨key, bytes, trivial, hobj, hhold⟩

/-- A deletion after which every version not being discarded is still stored
is safe. -/
theorem deleteSafe_of_stored {i : Nat} {succeeds : Bool}
    (h : ∀ x, s.Stored x → x ∉ s.discarding → (s.step (.delete i succeeds)).Stored x) :
    s.DeleteSafe (.delete i succeeds) := by
  cases succeeds with
  | false => exact trivial
  | true =>
    simp only [DeleteSafe]
    split
    · next id rest hi =>
      intro bytes x hobj hhold hx
      obtain ⟨k, b, -, hb, hbx⟩ := h x ⟨_, bytes, trivial, hobj, hhold⟩ hx
      simp only [step, hi, if_true] at hb
      obtain ⟨hne, hb⟩ := ObjectStore.of_delete hb
      exact ⟨k, b, hne, hb, hbx⟩
    · exact trivial

/-- A stretch of safe steps keeps what is stored and not discarded. -/
theorem stored_after {n : Nat} {x : Entry} :
    ∀ {mid pre : List StoreAction},
      Along (fun pre a => (after n pre).DeleteSafe a) (pre ++ mid) → (after n pre).Stored x →
      x ∉ (after n pre).discarding → x ∉ (after n pre).discardedDuring mid →
      (after n (pre ++ mid)).Stored x := by
  intro mid
  induction mid with
  | nil =>
    intro pre _ hst _ _
    rw [List.append_nil]
    exact hst
  | cons a mid ih =>
    intro pre hsafe hst hrun hnew
    -- `a` moves from the stretch to the prefix
    rw [discardedDuring, List.mem_append, not_or] at hnew
    obtain ⟨born, hinv⟩ := exists_inv n pre
    have hstep : after n (pre ++ [a]) = (after n pre).step a := run_concat pre a
    have hsplit : pre ++ a :: mid = (pre ++ [a]) ++ mid := by simp
    rw [hsplit] at hsafe ⊢
    refine ih hsafe ?_ ?_ ?_
    · rw [hstep]
      exact hinv.stored_step (hsafe pre a mid hsplit.symm) hst hrun
    · rw [hstep]
      exact discarding_step hrun hnew.1
    · rw [hstep]
      exact hnew.2

end StoredTimeline

open StoredTimeline in
/-- **A collection never un-persists retained history**, at any step of a run,
exactly when every deletion of the run leaves another stored copy of what the
collections in progress keep. The left side covers every stretch `mid` of the
run; with `mid` starting at a collection it says that what was stored before the
collection, and is discarded neither by it nor by any that overlaps or follows,
is stored at every later step. -/
theorem gc_keeps_stored_iff (n : Nat) (acts : List StoreAction) :
    (∀ pre mid, pre ++ mid <+: acts → ∀ x, (after n pre).Stored x →
        x ∉ (after n pre).discarding → x ∉ (after n pre).discardedDuring mid →
        (after n (pre ++ mid)).Stored x) ↔
      Along (fun pre a => (after n pre).DeleteSafe a) acts := by
  constructor
  · intro h pre a post hacts
    cases a with
    | delete i succeeds =>
      refine deleteSafe_of_stored ?_
      intro x hst hrun
      have hlater := h pre [.delete i succeeds] ⟨post, by rw [hacts]; simp⟩ x hst hrun
        List.not_mem_nil
      rw [after, run_concat] at hlater
      exact hlater
    | _ => exact trivial
  · intro hsafe pre mid hpre x hst hrun hnew
    obtain ⟨post, rfl⟩ := hpre
    exact stored_after (hsafe.of_append) hst hrun hnew

/-- One version is frozen and its layer offloaded. -/
def offloadSample : List StoreAction :=
  [.ingest [deltaSample 10 1], .freeze, .offload, .put 0 .ok, .mark 0]

/-- A collection that keeps the version deletes the one object that has it; the
compacted layer is not stored yet. -/
theorem gc_deletes_only_copy :
    (StoredTimeline.after 1000 offloadSample).Stored (deltaSample 10 1).entry ∧
      (StoredTimeline.after 1000 offloadSample).discarding = [] ∧
      (StoredTimeline.after 1000 offloadSample).discardedDuring [.gc 20, .delete 0 true] = [] ∧
      ¬ (StoredTimeline.after 1000 (offloadSample ++ [.gc 20, .delete 0 true])).Stored
          (deltaSample 10 1).entry := by
  have hbefore : (StoredTimeline.after 1000 offloadSample).store
      = ObjectStore.empty.put (layerKey 0) (layerSample (deltaSample 10 1)).serialize := rfl
  have hafter : (StoredTimeline.after 1000 (offloadSample ++ [.gc 20, .delete 0 true])).store
      = (ObjectStore.empty.put (layerKey 0) (layerSample (deltaSample 10 1)).serialize).delete
          (layerKey 0) := rfl
  refine ⟨?_, rfl, by decide, ?_⟩
  · exact ⟨layerKey 0, _, trivial, by rw [hbefore, ObjectStore.put_self],
      layerSample (deltaSample 10 1), rfl, by decide⟩
  · intro h
    obtain ⟨key, bytes, -, hobj, -⟩ := h
    rw [hafter] at hobj
    obtain ⟨hne, hobj⟩ := ObjectStore.of_delete hobj
    rw [ObjectStore.put_of_ne hne] at hobj
    simp [ObjectStore.empty] at hobj

end AethelDB.Pageserver
