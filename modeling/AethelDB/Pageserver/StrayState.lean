import AethelDB.Pageserver.GcCommand

/-!
# Offloading and collecting at the same time

`offload_pending` (`pageserver/src/offload.rs`) stores the layers of a snapshot one after the other
and marks each as uploaded; `gc_command` (`control.rs`) replaces the layers by a compacted one,
forgets that the old ones were uploaded, and deletes their objects. Both belong to the timeline of
`GcCommand`, and any number of them may be under way, each at its own place.

When all are done, the uploaded ids should be ids of current layers, and the store should hold the
objects of exactly these layers. It does so as long as a layer that is stored is still current, and
no collection compacts while a stored layer waits to be marked. What these steps keep is `Clean`:
an object belongs to a current layer that is marked or about to be, or waits for its deletion.

Otherwise the id of a replaced layer gets into the uploaded set (`Doomed`). Nothing takes it out
again: a compaction forgets the ids of current layers only, and ids are not handed out twice.
-/

namespace AethelDB.Pageserver

open AethelDB.Lib

/-! ## What a compaction forgets -/

namespace Repository

theorem mem_foldl_erase {ids : List LayerId} {uploaded : Finset LayerId} {id : LayerId} :
    id ∈ ids.foldl Finset.erase uploaded ↔ id ∈ uploaded ∧ id ∉ ids := by
  induction ids generalizing uploaded with
  | nil => simp
  | cons x ids ih =>
    rw [List.foldl_cons, ih, Finset.mem_erase, List.mem_cons, not_or]
    tauto

theorem compact_removed (r : Repository) (horizon : Lsn) :
    (r.compact horizon).2.removedLayerIds = r.layers.map Layer.id := by
  unfold compact
  split
  · next h => rw [List.isEmpty_iff.mp h]; rfl
  · rfl

theorem mem_compact_uploaded (r : Repository) (horizon : Lsn) (id : LayerId) :
    id ∈ (r.compact horizon).1.uploaded ↔ id ∈ r.uploaded ∧ id ∉ r.layers.map Layer.id := by
  unfold compact
  split
  · next h => simp [List.isEmpty_iff.mp h]
  · exact mem_foldl_erase

/-- What is there afterwards has an id of its own. -/
theorem compact_fresh (r : Repository) (horizon : Lsn) {l : Layer}
    (hl : l ∈ (r.compact horizon).1.layers) : r.nextLayerId ≤ l.id := by
  unfold compact at hl
  split at hl
  · next h => exact absurd hl (by simp [List.isEmpty_iff.mp h])
  · dsimp only at hl
    split at hl
    · nomatch hl
    · exact (congrArg Layer.id (List.mem_singleton.mp hl)).ge

end Repository

namespace StoredTimeline

/-! ## The states and steps in question -/

/-- No stray state: uploaded ids are ids of layers, and the objects are those of the uploaded
layers. -/
def NoStray (s : StoredTimeline) : Prop :=
  (∀ id ∈ s.repo.uploaded, ∃ l ∈ s.repo.layers, l.id = id)
    ∧ ∀ key bytes, s.store key = some bytes ↔
      ∃ l ∈ s.repo.layers, l.id ∈ s.repo.uploaded ∧ key = layerKey l.id ∧ bytes = l.serialize

/-- Every offload pass and every collection has finished. -/
def Finished (s : StoredTimeline) : Prop :=
  (∀ task ∈ s.offloads, task.layers = []) ∧ ∀ g ∈ s.gcs, g.removed = []

/-- A timeline before the calls: nothing under way and nothing stray. -/
structure AtRest (s : StoredTimeline) : Prop where
  numbered : s.repo.Numbered
  noStray : s.NoStray
  offloads : s.offloads = []
  gcs : s.gcs = []

/-- The store does what it reports: an error of `put` has stored nothing, and a `delete` deletes. -/
def Truthful : StoreAction → Prop
  | .put _ o => o ≠ .storedButFailed
  | .delete _ succeeds => succeeds = true
  | _ => True

/-- A layer that is stored is current, and no layer waits to be marked when a collection compacts. -/
def Undisturbed (s : StoredTimeline) : StoreAction → Prop
  | .put i .ok => ∀ l pending, s.offloads[i]? = some (.storing (l :: pending)) → l ∈ s.repo.layers
  | .gc _ => ∀ l pending, OffloadTask.marking l pending ∉ s.offloads
  | _ => True

/-- Everything a step can do. -/
inductive Moves (s : StoredTimeline) : StoreAction → StoredTimeline → Prop
  | nothing (a : StoreAction) : Moves s a s
  | extended {a : StoreAction} {r : Repository} : s.repo.Extends r → Moves s a { s with repo := r }
  | started : Moves s .offload { s with offloads := s.offloads ++ [.start s.repo] }
  | stored {i : Nat} {l : Layer} {pending : List Layer} :
      s.offloads[i]? = some (.storing (l :: pending)) →
      Moves s (.put i .ok) { s with
        offloads := s.offloads.set i (.marking l pending)
        store := s.store.put (layerKey l.id) l.serialize }
  | failed {i : Nat} {l : Layer} {pending : List Layer} :
      s.offloads[i]? = some (.storing (l :: pending)) →
      Moves s (.put i .failed) { s with offloads := s.offloads.set i (.storing pending) }
  | storedUnnoticed {i : Nat} {l : Layer} {pending : List Layer} :
      s.offloads[i]? = some (.storing (l :: pending)) →
      Moves s (.put i .storedButFailed) { s with
        offloads := s.offloads.set i (.storing pending)
        store := s.store.put (layerKey l.id) l.serialize }
  | marked {i : Nat} {l : Layer} {pending : List Layer} :
      s.offloads[i]? = some (.marking l pending) →
      Moves s (.mark i) { s with
        offloads := s.offloads.set i (.storing pending)
        repo := s.repo.markUploaded l.id }
  | compacted (horizon : Lsn) (discarded : List Entry) :
      Moves s (.gc horizon) { s with
        repo := (s.repo.compact horizon).1
        gcs := s.gcs ++ [⟨discarded, s.repo.layers.map Layer.id⟩] }
  | deleted {i : Nat} {discarded : List Entry} {id : LayerId} {rest : List LayerId} :
      s.gcs[i]? = some ⟨discarded, id :: rest⟩ →
      Moves s (.delete i true) { s with
        gcs := advance s.gcs i ⟨discarded, id :: rest⟩ rest
        store := s.store.delete (layerKey id) }
  | undeleted {i : Nat} {discarded : List Entry} {id : LayerId} {rest : List LayerId} :
      s.gcs[i]? = some ⟨discarded, id :: rest⟩ →
      Moves s (.delete i false) { s with gcs := advance s.gcs i ⟨discarded, id :: rest⟩ rest }

theorem set_self {tasks : List OffloadTask} {i : Nat} {task : OffloadTask} (h : tasks[i]? = some task) :
    tasks.set i task = tasks := by
  obtain ⟨hlt, rfl⟩ := List.getElem?_eq_some_iff.mp h
  exact List.set_getElem_self hlt

theorem moves_step (s : StoredTimeline) (a : StoreAction) : s.Moves a (s.step a) := by
  cases a with
  | ingest mods => exact .extended (s.repo.extends_ingest mods)
  | freeze => exact .extended s.repo.extends_freezeLocked
  | offload => exact .started
  | gc horizon =>
    simp only [step, Repository.compact_removed]
    exact .compacted horizon _
  | put i o =>
    simp only [step]
    split
    · exact .nothing _
    · next task htask =>
      rcases task with (_ | ⟨l, pending⟩) | ⟨l, pending⟩
      · simp only [OffloadTask.put, set_self htask]
        exact .nothing _
      · cases o with
        | ok => exact .stored htask
        | failed => exact .failed htask
        | storedButFailed => exact .storedUnnoticed htask
      · simp only [OffloadTask.put, set_self htask]
        exact .nothing _
  | mark i =>
    simp only [step]
    split
    · exact .nothing _
    · next task htask =>
      cases task with
      | storing pending =>
        simp only [OffloadTask.mark, set_self htask]
        exact .nothing _
      | marking l pending => exact .marked htask
  | delete i succeeds =>
    simp only [step]
    split
    · next hg =>
      cases succeeds with
      | true => exact .deleted hg
      | false => exact .undeleted hg
    · exact .nothing _

/-! ## Undisturbed steps -/

variable {s : StoredTimeline} {a : StoreAction}

/-- What undisturbed steps keep. -/
structure Clean (s : StoredTimeline) : Prop where
  numbered : s.repo.Numbered
  /-- A layer about to be marked is current, and its object is there. -/
  marking : ∀ l pending, OffloadTask.marking l pending ∈ s.offloads →
    l ∈ s.repo.layers ∧ s.store (layerKey l.id) = some l.serialize
  /-- So is every layer that is marked. -/
  uploaded : ∀ id ∈ s.repo.uploaded,
    ∃ l ∈ s.repo.layers, l.id = id ∧ s.store (layerKey id) = some l.serialize
  /-- There are no other objects, except those waiting to be deleted. -/
  objects : ∀ {key bytes}, s.store key = some bytes →
    (∃ l ∈ s.repo.layers, key = layerKey l.id ∧ bytes = l.serialize
      ∧ (l.id ∈ s.repo.uploaded ∨ ∃ pending, OffloadTask.marking l pending ∈ s.offloads))
    ∨ ∃ g ∈ s.gcs, ∃ id ∈ g.removed, key = layerKey id
  /-- What waits to be deleted is not current. -/
  removed : ∀ g ∈ s.gcs, ∀ id ∈ g.removed, id < s.repo.nextLayerId ∧ ∀ l ∈ s.repo.layers, l.id ≠ id

theorem AtRest.clean (h : s.AtRest) : s.Clean where
  numbered := h.numbered
  marking l pending hl := by
    rw [h.offloads] at hl
    nomatch hl
  uploaded id hid := by
    obtain ⟨l, hl, rfl⟩ := h.noStray.1 id hid
    exact ⟨l, hl, rfl, (h.noStray.2 _ _).mpr ⟨l, hl, hid, rfl, rfl⟩⟩
  objects := by
    intro key bytes hobj
    obtain ⟨l, hl, hup, hkey, hbytes⟩ := (h.noStray.2 key bytes).mp hobj
    exact .inl ⟨l, hl, hkey, hbytes, .inl hup⟩
  removed g hg := by
    rw [h.gcs] at hg
    nomatch hg

theorem Clean.noStray (h : s.Clean) (hdone : s.Finished) : s.NoStray := by
  refine ⟨fun id hid => ?_, fun key bytes => ⟨fun hobj => ?_, ?_⟩⟩
  · obtain ⟨l, hl, hlid, -⟩ := h.uploaded id hid
    exact ⟨l, hl, hlid⟩
  · rcases h.objects hobj with ⟨l, hl, hkey, hbytes, hup | ⟨pending, hmark⟩⟩ | ⟨g, hg, id, hid, -⟩
    · exact ⟨l, hl, hup, hkey, hbytes⟩
    · exact absurd (hdone.1 _ hmark) (by simp [OffloadTask.layers])
    · rw [hdone.2 g hg] at hid
      nomatch hid
  · rintro ⟨l, hl, hup, rfl, rfl⟩
    obtain ⟨l', hl', hid, hobj⟩ := h.uploaded l.id hup
    rwa [h.numbered.eq_of_id hl' hl hid] at hobj

theorem mem_set_of_mem {α : Type} {xs : List α} {i : Nat} {old x : α} (hi : xs[i]? = some old)
    (h : x ∈ xs) (new : α) : x = old ∨ x ∈ xs.set i new := by
  obtain ⟨j, hj⟩ := List.mem_iff_getElem?.mp h
  by_cases hij : i = j
  · subst hij
    exact .inl (Option.some.inj (hj.symm.trans hi))
  · refine .inr (List.mem_iff_getElem?.mpr ⟨j, ?_⟩)
    rw [List.getElem?_set_ne hij]
    exact hj

section Advance

variable {gcs : List GcTask} {i : Nat} {discarded : List Entry} {id x : LayerId}
  {rest : List LayerId} {g : GcTask}

/-- What waits to be deleted still does, or has just been dealt with. -/
theorem waiting_or_eq (hi : gcs[i]? = some ⟨discarded, id :: rest⟩) (hg : g ∈ gcs)
    (hx : x ∈ g.removed) :
    x = id ∨ ∃ g' ∈ advance gcs i ⟨discarded, id :: rest⟩ rest, x ∈ g'.removed := by
  unfold advance
  split
  · next hrest =>
    obtain ⟨j, hj⟩ := List.mem_iff_getElem?.mp hg
    by_cases hij : j = i
    · rw [hij, hi] at hj
      obtain rfl := Option.some.inj hj
      rw [List.isEmpty_iff.mp hrest, List.mem_singleton] at hx
      exact .inl hx
    · exact .inr ⟨g, List.mem_eraseIdx_iff_getElem?.mpr ⟨j, hij, hj⟩, hx⟩
  · rcases mem_set_of_mem hi hg ⟨discarded, rest⟩ with rfl | hmem
    · have hlt : i < gcs.length := (List.getElem?_eq_some_iff.mp hi).1
      rcases List.mem_cons.mp hx with hx | hx
      · exact .inl hx
      · exact .inr ⟨_, List.mem_set hlt _, hx⟩
    · exact .inr ⟨g, hmem, hx⟩

theorem waiting_of_advance (hi : gcs[i]? = some ⟨discarded, id :: rest⟩)
    (hg : g ∈ advance gcs i ⟨discarded, id :: rest⟩ rest) (hx : x ∈ g.removed) :
    ∃ g' ∈ gcs, x ∈ g'.removed := by
  rcases of_mem_advance hg with hg | rfl
  · exact ⟨g, hg, hx⟩
  · exact ⟨_, List.mem_of_getElem? hi, List.mem_cons_of_mem _ hx⟩

end Advance

section Steps

variable {s : StoredTimeline} {i : Nat} {l : Layer} {pending : List Layer}

/-- The object of a current layer is never replaced by another. -/
theorem Clean.put_keeps (h : s.Clean) (hl : l ∈ s.repo.layers) {l' : Layer}
    (hl' : l' ∈ s.repo.layers) (hobj : s.store (layerKey l'.id) = some l'.serialize) :
    s.store.put (layerKey l.id) l.serialize (layerKey l'.id) = some l'.serialize := by
  by_cases hid : l'.id = l.id
  · rw [h.numbered.eq_of_id hl' hl hid, ObjectStore.put_self]
  · rw [ObjectStore.put_of_ne (fun hkey => hid (layerKey_injective hkey)), hobj]

theorem Clean.extended (h : s.Clean) {r : Repository} (he : s.repo.Extends r) :
    Clean { s with repo := r } where
  numbered := h.numbered.of_extends he
  marking l pending hl := by
    obtain ⟨hmem, hobj⟩ := h.marking l pending hl
    exact ⟨he.subset hmem, hobj⟩
  uploaded id hid := by
    dsimp only at hid
    rw [he.uploaded] at hid
    obtain ⟨l, hl, hlid, hobj⟩ := h.uploaded id hid
    exact ⟨l, he.subset hl, hlid, hobj⟩
  objects := by
    intro key bytes hobj
    refine (h.objects hobj).imp_left ?_
    rintro ⟨l, hl, hkey, hbytes, hwhy⟩
    exact ⟨l, he.subset hl, hkey, hbytes, hwhy.imp_left fun hup => he.uploaded ▸ hup⟩
  removed g hg id hid := by
    obtain ⟨hlt, hne⟩ := h.removed g hg id hid
    refine ⟨lt_of_lt_of_le hlt he.next_le, fun l hl => ?_⟩
    rcases he.mem hl with hl | ⟨hge, -⟩
    · exact hne l hl
    · exact (lt_of_lt_of_le hlt hge).ne'

/-- The passes may change as long as the same layers wait to be marked. -/
theorem Clean.tasks (h : s.Clean) {tasks : List OffloadTask}
    (hsame : ∀ l, (∃ pending, OffloadTask.marking l pending ∈ tasks) ↔
      ∃ pending, OffloadTask.marking l pending ∈ s.offloads) : Clean { s with offloads := tasks } where
  numbered := h.numbered
  marking l pending hl := by
    obtain ⟨pending', hl'⟩ := (hsame l).mp ⟨pending, hl⟩
    exact h.marking l pending' hl'
  uploaded := h.uploaded
  objects := by
    intro key bytes hobj
    refine (h.objects hobj).imp_left ?_
    rintro ⟨l, hl, hkey, hbytes, hwhy⟩
    exact ⟨l, hl, hkey, hbytes, hwhy.imp_right (hsame l).mpr⟩
  removed := h.removed

theorem Clean.started (h : s.Clean) :
    Clean { s with offloads := s.offloads ++ [.start s.repo] } := by
  refine h.tasks fun l => exists_congr fun pending => ?_
  simp [OffloadTask.start]

theorem Clean.failed (h : s.Clean) (hi : s.offloads[i]? = some (.storing (l :: pending))) :
    Clean { s with offloads := s.offloads.set i (.storing pending) } := by
  refine h.tasks fun l' => exists_congr fun pending' => ⟨fun hmark => ?_, fun hmark => ?_⟩
  · exact (List.mem_or_eq_of_mem_set hmark).resolve_right OffloadTask.noConfusion
  · exact (mem_set_of_mem hi hmark _).resolve_left OffloadTask.noConfusion

theorem Clean.stored (h : s.Clean) (hi : s.offloads[i]? = some (.storing (l :: pending)))
    (hl : l ∈ s.repo.layers) :
    Clean { s with
      offloads := s.offloads.set i (.marking l pending)
      store := s.store.put (layerKey l.id) l.serialize } where
  numbered := h.numbered
  marking l' pending' hmark := by
    dsimp only at hmark ⊢
    rcases List.mem_or_eq_of_mem_set hmark with hmark | heq
    · obtain ⟨hl', hobj⟩ := h.marking l' pending' hmark
      exact ⟨hl', h.put_keeps hl hl' hobj⟩
    · obtain ⟨rfl, -⟩ := OffloadTask.marking.inj heq
      exact ⟨hl, ObjectStore.put_self s.store _ _⟩
  uploaded id hid := by
    dsimp only at hid ⊢
    obtain ⟨l', hl', rfl, hobj⟩ := h.uploaded id hid
    exact ⟨l', hl', rfl, h.put_keeps hl hl' hobj⟩
  objects := by
    intro key bytes hobj
    dsimp only at hobj ⊢
    by_cases hkey : key = layerKey l.id
    · rw [hkey, ObjectStore.put_self] at hobj
      have hlt : i < s.offloads.length := (List.getElem?_eq_some_iff.mp hi).1
      exact .inl ⟨l, hl, hkey, (Option.some.inj hobj).symm, .inr ⟨pending, List.mem_set hlt _⟩⟩
    · rw [ObjectStore.put_of_ne hkey] at hobj
      refine (h.objects hobj).imp_left ?_
      rintro ⟨l', hl', hkey', hbytes, hwhy⟩
      refine ⟨l', hl', hkey', hbytes, hwhy.imp_right ?_⟩
      rintro ⟨pending', hmark⟩
      exact ⟨pending', (mem_set_of_mem hi hmark _).resolve_left OffloadTask.noConfusion⟩
  removed := h.removed

theorem Clean.marked (h : s.Clean) (hi : s.offloads[i]? = some (.marking l pending)) :
    Clean { s with
      offloads := s.offloads.set i (.storing pending)
      repo := s.repo.markUploaded l.id } where
  numbered := ⟨h.numbered.nodup, h.numbered.below⟩
  marking l' pending' hmark := by
    have hmark := (List.mem_or_eq_of_mem_set hmark).resolve_right OffloadTask.noConfusion
    exact h.marking l' pending' hmark
  uploaded id hid := by
    rcases Finset.mem_insert.mp hid with rfl | hid
    · obtain ⟨hl, hobj⟩ := h.marking l pending (List.mem_of_getElem? hi)
      exact ⟨l, hl, rfl, hobj⟩
    · exact h.uploaded id hid
  objects := by
    intro key bytes hobj
    refine (h.objects hobj).imp_left ?_
    rintro ⟨l', hl', hkey, hbytes, hup | ⟨pending', hmark⟩⟩
    · exact ⟨l', hl', hkey, hbytes, .inl (Finset.mem_insert_of_mem hup)⟩
    · refine ⟨l', hl', hkey, hbytes, ?_⟩
      rcases mem_set_of_mem hi hmark (.storing pending) with heq | hmark
      · obtain ⟨rfl, -⟩ := OffloadTask.marking.inj heq
        exact .inl (Finset.mem_insert_self _ _)
      · exact .inr ⟨pending', hmark⟩
  removed := h.removed

/-- A compaction hands every object that there is to its collection. -/
theorem Clean.compacted (h : s.Clean) (hq : ∀ l pending, OffloadTask.marking l pending ∉ s.offloads)
    (horizon : Lsn) (discarded : List Entry) :
    Clean { s with
      repo := (s.repo.compact horizon).1
      gcs := s.gcs ++ [⟨discarded, s.repo.layers.map Layer.id⟩] } where
  numbered := h.numbered.compact horizon
  marking l pending hmark := absurd hmark (hq l pending)
  uploaded id hid := by
    obtain ⟨hup, hnot⟩ := (s.repo.mem_compact_uploaded horizon id).mp hid
    obtain ⟨l, hl, hlid, -⟩ := h.uploaded id hup
    exact absurd (List.mem_map.mpr ⟨l, hl, hlid⟩) hnot
  objects := by
    intro key bytes hobj
    right
    rcases h.objects hobj with ⟨l, hl, hkey, -⟩ | ⟨g, hg, id, hid, hkey⟩
    · exact ⟨_, List.mem_append_right _ (List.mem_singleton_self _), l.id,
        List.mem_map_of_mem hl, hkey⟩
    · exact ⟨g, List.mem_append_left _ hg, id, hid, hkey⟩
  removed g hg id hid := by
    have hlt : id < s.repo.nextLayerId := by
      rcases List.mem_append.mp hg with hg | hg
      · exact (h.removed g hg id hid).1
      · rw [List.mem_singleton.mp hg] at hid
        obtain ⟨l, hl, rfl⟩ := List.mem_map.mp hid
        exact h.numbered.below l hl
    refine ⟨lt_of_lt_of_le hlt (s.repo.renews_compact horizon).next, fun l hl => ?_⟩
    exact (lt_of_lt_of_le hlt (s.repo.compact_fresh horizon hl)).ne'

theorem Clean.deleted (h : s.Clean) {discarded : List Entry} {id : LayerId} {rest : List LayerId}
    (hi : s.gcs[i]? = some ⟨discarded, id :: rest⟩) :
    Clean { s with
      gcs := advance s.gcs i ⟨discarded, id :: rest⟩ rest
      store := s.store.delete (layerKey id) } := by
  -- the object belongs to no current layer
  have hkeeps : ∀ l ∈ s.repo.layers, s.store (layerKey l.id) = some l.serialize →
      s.store.delete (layerKey id) (layerKey l.id) = some l.serialize := by
    intro l hl hobj
    have hne := (h.removed _ (List.mem_of_getElem? hi) id List.mem_cons_self).2 l hl
    rw [ObjectStore.delete_of_ne (fun hkey => hne (layerKey_injective hkey)), hobj]
  refine ⟨h.numbered, fun l pending hmark => ?_, fun x hx => ?_, ?_, fun g hg x hx => ?_⟩
  · dsimp only at hmark ⊢
    obtain ⟨hl, hobj⟩ := h.marking l pending hmark
    exact ⟨hl, hkeeps l hl hobj⟩
  · dsimp only at hx ⊢
    obtain ⟨l, hl, rfl, hobj⟩ := h.uploaded x hx
    exact ⟨l, hl, rfl, hkeeps l hl hobj⟩
  · intro key bytes hobj
    obtain ⟨hne, hobj⟩ := ObjectStore.of_delete hobj
    refine (h.objects hobj).imp_right ?_
    rintro ⟨g, hg, x, hx, rfl⟩
    obtain ⟨g', hg', hx'⟩ := (waiting_or_eq hi hg hx).resolve_left fun heq => hne (heq ▸ rfl)
    exact ⟨g', hg', x, hx', rfl⟩
  · obtain ⟨g', hg', hx'⟩ := waiting_of_advance hi hg hx
    exact h.removed g' hg' x hx'

end Steps

/-- **One step**: undisturbed, on a truthful store. -/
theorem Clean.of_moves {s' : StoredTimeline} (h : s.Clean) (hm : s.Moves a s') (hstore : Truthful a)
    (hq : s.Undisturbed a) : s'.Clean := by
  cases hm with
  | nothing => exact h
  | extended he => exact h.extended he
  | started => exact h.started
  | stored hi => exact h.stored hi (hq _ _ hi)
  | failed hi => exact h.failed hi
  | storedUnnoticed => exact absurd rfl hstore
  | marked hi => exact h.marked hi
  | compacted horizon discarded => exact h.compacted hq horizon discarded
  | deleted hi => exact h.deleted hi
  | undeleted => exact absurd hstore Bool.false_ne_true

/-! ## Any other step -/

/-- The id of a layer that has been replaced is uploaded, or about to be. -/
structure Doomed (s : StoredTimeline) (id : LayerId) : Prop where
  below : id < s.repo.nextLayerId
  gone : ∀ l ∈ s.repo.layers, l.id ≠ id
  kept : id ∈ s.repo.uploaded ∨ ∃ l pending, OffloadTask.marking l pending ∈ s.offloads ∧ l.id = id

section Doomed

variable {s : StoredTimeline} {id : LayerId}

/-- New layers do not get the id. -/
theorem Doomed.renew (h : s.Doomed id) {r : Repository} (hr : s.repo.Renews r)
    (hup : id ∈ s.repo.uploaded → id ∈ r.uploaded) (gcs : List GcTask) :
    Doomed { s with repo := r, gcs := gcs } id where
  below := lt_of_lt_of_le h.below hr.next
  gone l hl := by
    rcases hr.mem l hl with hl | ⟨hge, -⟩
    · exact h.gone l hl
    · exact (lt_of_lt_of_le h.below hge).ne'
  kept := h.kept.imp_left hup

theorem Doomed.tasks (h : s.Doomed id) {i : Nat} {pending : List Layer}
    (hi : s.offloads[i]? = some (.storing pending)) (task : OffloadTask) (store : ObjectStore) :
    Doomed { s with offloads := s.offloads.set i task, store := store } id where
  below := h.below
  gone := h.gone
  kept := by
    refine h.kept.imp_right ?_
    rintro ⟨l, pending', hmark, hid⟩
    exact ⟨l, pending', (mem_set_of_mem hi hmark task).resolve_left OffloadTask.noConfusion, hid⟩

theorem Doomed.marked (h : s.Doomed id) {i : Nat} {l : Layer} {pending : List Layer}
    (hi : s.offloads[i]? = some (.marking l pending)) :
    Doomed { s with
      offloads := s.offloads.set i (.storing pending)
      repo := s.repo.markUploaded l.id } id where
  below := h.below
  gone := h.gone
  kept := by
    rcases h.kept with hup | ⟨l', pending', hmark, hid⟩
    · exact .inl (Finset.mem_insert_of_mem hup)
    · rcases mem_set_of_mem hi hmark (.storing pending) with heq | hmark
      · obtain ⟨rfl, -⟩ := OffloadTask.marking.inj heq
        exact .inl (Finset.mem_insert.mpr (.inl hid.symm))
      · exact .inr ⟨l', pending', hmark, hid⟩

/-- **One step**, whatever it is. -/
theorem Doomed.of_moves {s' : StoredTimeline} {a : StoreAction} (h : s.Doomed id)
    (hm : s.Moves a s') : s'.Doomed id := by
  cases hm with
  | nothing => exact h
  | extended he => exact h.renew he.renews (fun hup => he.uploaded ▸ hup) s.gcs
  | started =>
    refine ⟨h.below, h.gone, h.kept.imp_right ?_⟩
    rintro ⟨l, pending, hmark, hid⟩
    exact ⟨l, pending, List.mem_append_left _ hmark, hid⟩
  | stored hi => exact h.tasks hi _ _
  | failed hi => exact h.tasks hi _ _
  | storedUnnoticed hi => exact h.tasks hi _ _
  | marked hi => exact h.marked hi
  | compacted horizon discarded =>
    refine h.renew (s.repo.renews_compact horizon) (fun hup => ?_) _
    refine (s.repo.mem_compact_uploaded horizon id).mpr ⟨hup, fun hmem => ?_⟩
    obtain ⟨l, hl, hlid⟩ := List.mem_map.mp hmem
    exact h.gone l hl hlid
  | deleted hi => exact ⟨h.below, h.gone, h.kept⟩
  | undeleted hi => exact ⟨h.below, h.gone, h.kept⟩

theorem Doomed.not_noStray (h : s.Doomed id) (hdone : s.Finished) : ¬ s.NoStray := by
  intro hs
  rcases h.kept with hup | ⟨l, pending, hmark, -⟩
  · obtain ⟨l, hl, hid⟩ := hs.1 id hup
    exact h.gone l hl hid
  · exact absurd (hdone.1 _ hmark) (List.cons_ne_nil _ _)

end Doomed

/-- A step that is not undisturbed: a layer is stored that is no longer current, or all are replaced
while one waits to be marked. -/
theorem Inv.doomed {born : LayerId → Layer} (h : s.Inv born) (hq : ¬ s.Undisturbed a) :
    ∃ id, (s.step a).Doomed id := by
  cases a with
  | put i o =>
    cases o with
    | ok =>
      simp only [Undisturbed, not_forall] at hq
      obtain ⟨l, pending, hi, hl⟩ := hq
      obtain ⟨hborn, hlt⟩ := h.held _ (List.mem_of_getElem? hi) l List.mem_cons_self
      have hset : i < s.offloads.length := (List.getElem?_eq_some_iff.mp hi).1
      simp only [StoredTimeline.step, hi]
      refine ⟨l.id, hlt, fun l' hl' hid => hl ?_, .inr ⟨l, pending, List.mem_set hset _, rfl⟩⟩
      -- a current layer with this id would be the same layer
      rwa [hborn, ← hid, ← h.live l' hl']
    | failed => exact absurd trivial hq
    | storedButFailed => exact absurd trivial hq
  | gc horizon =>
    simp only [Undisturbed, not_forall, not_not] at hq
    obtain ⟨l, pending, hmark⟩ := hq
    obtain ⟨-, hlt⟩ := h.held _ hmark l List.mem_cons_self
    refine ⟨l.id, ?_, fun l' hl' => ?_, .inr ⟨l, pending, hmark, rfl⟩⟩
    · exact lt_of_lt_of_le hlt (s.repo.renews_compact horizon).next
    · exact (lt_of_lt_of_le hlt (s.repo.compact_fresh horizon hl')).ne'
  | _ => exact absurd trivial hq

/-! ## Whole runs -/

theorem atRest_new (n : Nat) : (new n).AtRest where
  numbered := Repository.numbered_new n
  noStray := by
    refine ⟨fun id hid => absurd hid (Finset.notMem_empty id), fun key bytes => ?_⟩
    simp [new, ObjectStore.empty, Repository.new]
  offloads := rfl
  gcs := rfl

theorem AtRest.exists_inv (h : s.AtRest) : ∃ born, s.Inv born := by
  have hlive : ∀ l ∈ s.repo.layers,
      extendBorn (fun _ => ⟨0, OrdMap.empty⟩) (Repository.new 0) s.repo l.id = l :=
    fun l hl => extendBorn_of_mem h.numbered hl (Nat.zero_le _)
  refine ⟨_, h.numbered, fun l hl => (hlive l hl).symm, ?_, ?_⟩
  · rw [h.offloads]
    exact fun task htask => absurd htask List.not_mem_nil
  · intro key bytes hobj
    obtain ⟨l, hl, -, hkey, hbytes⟩ := (h.noStray.2 key bytes).mp hobj
    exact ⟨l.id, h.numbered.below l hl, hkey, by rw [hlive l hl, hbytes]⟩

theorem AtRest.clean_run (h : s.AtRest) {acts : List StoreAction} (hstore : ∀ a ∈ acts, Truthful a)
    (hq : Along (fun pre a => (run step s pre).Undisturbed a) acts) : (run step s acts).Clean := by
  have hok : Along (fun pre a => Truthful a ∧ (run step s pre).Undisturbed a) acts := by
    intro pre a post hacts
    refine ⟨hstore a ?_, hq pre a post hacts⟩
    rw [hacts]
    exact List.mem_append_right _ List.mem_cons_self
  refine run_invariant (I := fun _ s => Clean s) h.clean ?_ acts hok
  intro pre a _ hboth hclean
  exact hclean.of_moves (moves_step _ a) hboth.1 hboth.2

theorem AtRest.doomed_run (h : s.AtRest) {pre post : List StoreAction}
    (hq : ¬ (run step s pre).Undisturbed a) : ∃ id, (run step s (pre ++ a :: post)).Doomed id := by
  obtain ⟨born, hinv⟩ : ∃ born, (run step s pre).Inv born := by
    refine run_invariant_always (I := fun s => ∃ born, Inv born s) h.exists_inv ?_ pre
    rintro s a ⟨born, hinv⟩
    exact hinv.step a
  obtain ⟨id, hdoomed⟩ := hinv.doomed hq
  refine ⟨id, ?_⟩
  rw [run, List.foldl_append]
  exact run_invariant_always (I := fun s => Doomed s id) hdoomed
    (fun s a hs => hs.of_moves (moves_step s a)) post

end StoredTimeline

open StoredTimeline in
/-- **Offloading and collecting leave no stray state**, whatever passes and collections overlap, in
exactly the runs in which every layer that a pass stores is current and no collection compacts
while a stored layer waits to be marked. -/
theorem offload_gc_no_stray_iff (s : StoredTimeline) (hs : s.AtRest) (acts : List StoreAction)
    (hstore : ∀ a ∈ acts, Truthful a) (hdone : (run step s acts).Finished) :
    (run step s acts).NoStray ↔ Along (fun pre a => (run step s pre).Undisturbed a) acts := by
  constructor
  · intro hfine pre a post hacts
    by_contra hq
    obtain ⟨id, hdoomed⟩ : ∃ id, (run step s acts).Doomed id := by
      rw [hacts]
      exact hs.doomed_run hq
    exact hdoomed.not_noStray hdone hfine
  · intro hq
    exact (hs.clean_run hstore hq).noStray hdone

/-- A pass, and then a collection that deletes what the pass has stored. -/
theorem offload_gc_no_stray_in_turn :
    (StoredTimeline.new 1000).AtRest
      ∧ (StoredTimeline.after 1000 (offloadSample ++ [.gc 20, .delete 0 true])).NoStray := by
  refine ⟨StoredTimeline.atRest_new 1000, ?_⟩
  refine (offload_gc_no_stray_iff _ (StoredTimeline.atRest_new 1000) _ ?_ ?_).mpr ?_
  · simp [offloadSample, StoredTimeline.Truthful]
  · refine ⟨fun task htask => ?_, fun g hg => absurd hg List.not_mem_nil⟩
    rw [List.mem_singleton.mp htask]
    rfl
  · rw [along_iff_getElem]
    intro i
    fin_cases i
    -- the layer is stored while it is current, and marked before the compaction
    case «3» =>
      rintro l pending ⟨⟩
      exact List.mem_singleton_self _
    case «5» =>
      intro l pending hmark
      exact absurd (List.mem_singleton.mp hmark) OffloadTask.noConfusion
    all_goals exact trivial

/-- A collection between the snapshot of a pass and its `put`. -/
def overtakenSample : List StoreAction :=
  [.ingest [deltaSample 10 1], .freeze, .offload, .gc 20, .delete 0 true, .put 0 .ok, .mark 0]

/-- The pass stores and marks layer 0 after the collection has replaced and deleted it. Its object
stays, and so does its id, while the one current layer has id 1. -/
theorem overtaken_offload_strays :
    (StoredTimeline.new 1000).AtRest
      ∧ (∀ a ∈ overtakenSample, StoredTimeline.Truthful a)
      ∧ (StoredTimeline.after 1000 overtakenSample).Finished
      ∧ (StoredTimeline.after 1000 overtakenSample).repo.layers.map Layer.id = [1]
      ∧ (StoredTimeline.after 1000 overtakenSample).repo.uploaded = {0}
      ∧ (StoredTimeline.after 1000 overtakenSample).store (layerKey 0)
        = some (layerSample (deltaSample 10 1)).serialize
      ∧ ¬ (StoredTimeline.after 1000 overtakenSample).NoStray := by
  have hlayers : (StoredTimeline.after 1000 overtakenSample).repo.layers.map Layer.id = [1] := rfl
  have huploaded : (StoredTimeline.after 1000 overtakenSample).repo.uploaded = {0} := rfl
  have hstore : (StoredTimeline.after 1000 overtakenSample).store
      = (ObjectStore.empty.delete (layerKey 0)).put (layerKey 0)
          (layerSample (deltaSample 10 1)).serialize := rfl
  refine ⟨StoredTimeline.atRest_new 1000, ?_, ?_, hlayers, huploaded, ?_, ?_⟩
  · simp [overtakenSample, StoredTimeline.Truthful]
  · refine ⟨fun task htask => ?_, fun g hg => absurd hg List.not_mem_nil⟩
    rw [List.mem_singleton.mp htask]
    rfl
  · rw [hstore, ObjectStore.put_self]
  · intro hs
    obtain ⟨l, hl, hid⟩ := hs.1 0 (by simp [huploaded])
    have hmem : l.id ∈ [1] := hlayers ▸ List.mem_map_of_mem hl
    rw [hid] at hmem
    exact absurd hmem (by decide)

end AethelDB.Pageserver
