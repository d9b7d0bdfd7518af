import AethelDB.Pageserver.TenantManager

/-!
# The object store and the offload task

`pageserver/src/{objstore,offload}.rs`. Frozen layers are pushed to an object store
under `layers/<id>.layer`. The store is a map from keys to byte strings whose `put`
overwrites and whose `delete` ignores a missing key; a failed `put` may have
stored the object all the same.

`OffloadTask` is the loop of `offload_pending` cut at its suspension points: the
pending layers are read once, then each is stored and, if the store says so,
marked. Between two steps of the task anything else may happen to the repository.

The last part says what each call does to the layers of a repository: a freeze
adds layers numbered from `next_layer_id` on and touches nothing else.
-/

namespace AethelDB.Pageserver

open AethelDB.Lib

/-! ## Object keys -/

/-- `{n:016x}` for a general width. -/
def hexPadded (width n : Nat) : List Char :=
  let digits := ((Nat.digits 16 n).map Nat.digitChar).reverse
  List.replicate (width - digits.length) '0' ++ digits

def LAYER_PREFIX : String := "layers/"

def layerKey (id : LayerId) : String :=
  LAYER_PREFIX ++ String.ofList (hexPadded 16 id) ++ ".layer"

theorem digitChar_injOn {a b : Nat} (ha : a < 16) (hb : b < 16)
    (h : Nat.digitChar a = Nat.digitChar b) : a = b := by
  have hall : ∀ x y : Fin 16, Nat.digitChar x = Nat.digitChar y → x = y := by decide
  exact Fin.mk.inj (hall ⟨a, ha⟩ ⟨b, hb⟩ h)

theorem map_digitChar_injOn : ∀ {xs ys : List Nat}, (∀ d ∈ xs, d < 16) → (∀ d ∈ ys, d < 16) →
    xs.map Nat.digitChar = ys.map Nat.digitChar → xs = ys := by
  intro xs
  induction xs with
  | nil =>
    intro ys _ _ h
    exact (List.map_eq_nil_iff.mp h.symm).symm
  | cons x xs ih =>
    intro ys hx hy h
    cases ys with
    | nil => simp at h
    | cons y ys =>
      obtain ⟨hd, htl⟩ := List.cons.inj h
      rw [digitChar_injOn (hx x List.mem_cons_self) (hy y List.mem_cons_self) hd,
        ih (fun d hd => hx d (List.mem_cons_of_mem _ hd))
          (fun d hd => hy d (List.mem_cons_of_mem _ hd)) htl]

/-- Reading the digits from the right, the padding is a run of high zeros. -/
theorem hexPadded_reverse (width n : Nat) :
    ∃ k, (hexPadded width n).reverse = (Nat.digits 16 n ++ List.replicate k 0).map Nat.digitChar := by
  refine ⟨width - ((Nat.digits 16 n).map Nat.digitChar).reverse.length, ?_⟩
  rw [hexPadded, List.reverse_append, List.reverse_reverse, List.reverse_replicate,
    List.map_append, List.map_replicate]
  rfl

theorem hexPadded_injective (width : Nat) : Function.Injective (hexPadded width) := by
  intro m n h
  obtain ⟨j, hm⟩ := hexPadded_reverse width m
  obtain ⟨k, hn⟩ := hexPadded_reverse width n
  have hlt : ∀ (a i : Nat), ∀ d ∈ Nat.digits 16 a ++ List.replicate i 0, d < 16 := by
    intro a i d hd
    rcases List.mem_append.mp hd with hd | hd
    · exact Nat.digits_lt_base (by omega) hd
    · rw [List.eq_of_mem_replicate hd]
      omega
  have hdigits := map_digitChar_injOn (hlt m j) (hlt n k) (by rw [← hm, ← hn, h])
  have hval := congrArg (Nat.ofDigits 16) hdigits
  rw [Nat.ofDigits_append_replicate_zero, Nat.ofDigits_append_replicate_zero,
    Nat.ofDigits_digits, Nat.ofDigits_digits] at hval
  exact hval

theorem layerKey_injective : Function.Injective layerKey := by
  intro m n h
  have hlist := congrArg String.toList h
  simp only [layerKey, String.toList_append, String.toList_ofList] at hlist
  exact hexPadded_injective 16 (List.append_cancel_left (List.append_cancel_right hlist))

/-! ## The store -/

/-- What the object store holds under each key. -/
abbrev ObjectStore := String → Option (List UInt8)

namespace ObjectStore

def empty : ObjectStore := fun _ => none

def put (s : ObjectStore) (key : String) (bytes : List UInt8) : ObjectStore :=
  Function.update s key (some bytes)

def delete (s : ObjectStore) (key : String) : ObjectStore := Function.update s key none

@[simp] theorem put_self (s : ObjectStore) (key : String) (bytes : List UInt8) :
    s.put key bytes key = some bytes := Function.update_self ..

theorem put_of_ne {key key' : String} (h : key' ≠ key) (s : ObjectStore) (bytes : List UInt8) :
    s.put key bytes key' = s key' := Function.update_of_ne h ..

/-- What is left after a deletion was there, under another key. -/
theorem of_delete {s : ObjectStore} {key key' : String} {bytes : List UInt8}
    (h : s.delete key key' = some bytes) : key' ≠ key ∧ s key' = some bytes := by
  unfold delete at h
  by_cases hk : key' = key
  · rw [hk, Function.update_self] at h
    simp at h
  · rw [Function.update_of_ne hk] at h
    exact ⟨hk, h⟩

theorem delete_of_ne {key key' : String} (h : key' ≠ key) (s : ObjectStore) :
    s.delete key key' = s key' := Function.update_of_ne h ..

end ObjectStore

/-- How a `put` ends, as the store and as the caller see it. -/
inductive PutOutcome where
  | ok
  /-- An error, and nothing was stored. -/
  | failed
  /-- An error, but the object had been stored. -/
  | storedButFailed
deriving DecidableEq

def PutOutcome.store (o : PutOutcome) (s : ObjectStore) (l : Layer) : ObjectStore :=
  match o with
  | .failed => s
  | _ => s.put (layerKey l.id) l.serialize

/-- A `put` leaves an object in place unless it is another layer's under the same
key. -/
theorem PutOutcome.store_keeps {o : PutOutcome} {s : ObjectStore} {l : Layer} {key : String}
    {bytes : List UInt8} (hst : s key = some bytes)
    (hsame : key = layerKey l.id → bytes = l.serialize) : o.store s l key = some bytes := by
  have hput : s.put (layerKey l.id) l.serialize key = some bytes := by
    by_cases hkey : key = layerKey l.id
    · rw [hkey, ObjectStore.put_self, hsame hkey]
    · rw [ObjectStore.put_of_ne hkey, hst]
  cases o with
  | failed => exact hst
  | ok => exact hput
  | storedButFailed => exact hput

/-- An object after a `put` was there before, or is the layer just written. -/
theorem PutOutcome.of_store {o : PutOutcome} {s : ObjectStore} {l : Layer} {key : String}
    {bytes : List UInt8} (h : o.store s l key = some bytes) :
    s key = some bytes ∨ key = layerKey l.id ∧ bytes = l.serialize := by
  have hput : s.put (layerKey l.id) l.serialize key = some bytes →
      s key = some bytes ∨ key = layerKey l.id ∧ bytes = l.serialize := by
    intro h
    by_cases hkey : key = layerKey l.id
    · rw [hkey, ObjectStore.put_self] at h
      exact Or.inr ⟨hkey, (Option.some.inj h).symm⟩
    · rw [ObjectStore.put_of_ne hkey] at h
      exact Or.inl h
  cases o with
  | failed => exact Or.inl h
  | ok => exact hput h
  | storedButFailed => exact hput h

/-! ## The offload loop -/

/-- Where one call of `offload_pending` stands. -/
inductive OffloadTask where
  /-- Layers still to be stored, the next one first. -/
  | storing (pending : List Layer)
  /-- The store took `layer`; `mark_uploaded` comes next. -/
  | marking (layer : Layer) (pending : List Layer)

namespace OffloadTask

/-- `offload_pending` reads the pending layers under the lock. -/
def start (r : Repository) : OffloadTask := .storing r.pendingOffload

def layers : OffloadTask → List Layer
  | .storing pending => pending
  | .marking layer pending => layer :: pending

/-- The next `put`, ending in `o`. -/
def put (o : PutOutcome) : OffloadTask → ObjectStore → OffloadTask × ObjectStore
  | .storing (l :: pending), s =>
    (match o with
      | .ok => .marking l pending
      | _ => .storing pending,
     o.store s l)
  | t, s => (t, s)

/-- `mark_uploaded` for the layer just stored. -/
def mark : OffloadTask → Repository → OffloadTask × Repository
  | .marking l pending, r => (.storing pending, r.markUploaded l.id)
  | t, r => (t, r)

/-- A `put` writes a layer the task holds, if it does anything. -/
theorem put_cases (o : PutOutcome) (task : OffloadTask) (store : ObjectStore) :
    (∀ l ∈ (task.put o store).1.layers, l ∈ task.layers) ∧
      ((task.put o store).2 = store ∨
        ∃ l ∈ task.layers, (task.put o store).2 = o.store store l) := by
  cases task with
  | marking l pending => exact ⟨fun _ h => h, Or.inl rfl⟩
  | storing pending =>
    cases pending with
    | nil => exact ⟨fun _ h => h, Or.inl rfl⟩
    | cons l pending =>
      refine ⟨?_, Or.inr ⟨l, List.mem_cons_self, rfl⟩⟩
      cases o with
      | ok => exact fun _ h => h
      | failed => exact fun _ h => List.mem_cons_of_mem _ h
      | storedButFailed => exact fun _ h => List.mem_cons_of_mem _ h

theorem mark_cases (task : OffloadTask) (r : Repository) :
    (∀ l ∈ (task.mark r).1.layers, l ∈ task.layers) ∧
      (task.mark r).2.layers = r.layers ∧ (task.mark r).2.nextLayerId = r.nextLayerId := by
  cases task with
  | storing pending => exact ⟨fun _ h => h, rfl, rfl⟩
  | marking l pending => exact ⟨fun _ h => List.mem_cons_of_mem _ h, rfl, rfl⟩

end OffloadTask

/-! ## Layer numbers -/

namespace Repository

variable {r r' : Repository}

/-- `r'` is `r` with further layers, numbered from `r.nextLayerId` on. -/
structure Extends (r r' : Repository) : Prop where
  layers : ∃ ls, r'.layers = r.layers ++ ls ∧
    ls.map Layer.id = List.range' r.nextLayerId ls.length ∧
    r'.nextLayerId = r.nextLayerId + ls.length
  uploaded : r'.uploaded = r.uploaded

theorem Extends.refl (r : Repository) : Extends r r := ⟨⟨[], by simp⟩, rfl⟩

theorem Extends.trans {r'' : Repository} (h : Extends r r') (h' : Extends r' r'') :
    Extends r r'' := by
  obtain ⟨ls, hls, hids, hnext⟩ := h.layers
  obtain ⟨ls', hls', hids', hnext'⟩ := h'.layers
  refine ⟨⟨ls ++ ls', ?_, ?_, ?_⟩, h'.uploaded.trans h.uploaded⟩
  · rw [hls', hls, List.append_assoc]
  · rw [List.map_append, hids, hids', hnext, List.length_append, List.range'_append_1]
  · rw [hnext', hnext, List.length_append, Nat.add_assoc]

theorem extends_freezeLocked (r : Repository) : Extends r r.freezeLocked := by
  unfold freezeLocked
  split
  · exact Extends.refl r
  · exact ⟨⟨[⟨r.nextLayerId, r.memtable⟩], rfl, rfl, rfl⟩, rfl⟩

theorem extends_ingestOne (r : Repository) (m : Modification) : Extends r (r.ingestOne m) := by
  have hinsert : Extends r ((r.trackRelSize m).insertVersion m) :=
    ⟨⟨[], by simp [insertVersion, trackRelSize]⟩, rfl⟩
  unfold ingestOne
  simp only
  split
  · exact hinsert.trans (extends_freezeLocked _)
  · exact hinsert

theorem extends_ingest (r : Repository) (mods : List Modification) :
    Extends r (r.ingest mods) := by
  unfold ingest
  induction mods generalizing r with
  | nil => exact Extends.refl r
  | cons m mods ih => exact (extends_ingestOne r m).trans (ih _)

theorem Extends.subset (h : Extends r r') {l : Layer} (hl : l ∈ r.layers) : l ∈ r'.layers := by
  obtain ⟨ls, hls, _⟩ := h.layers
  rw [hls]
  exact List.mem_append_left _ hl

/-- A layer is an old one or carries one of the ids handed out since. -/
theorem Extends.mem (h : Extends r r') {l : Layer} (hl : l ∈ r'.layers) :
    l ∈ r.layers ∨ r.nextLayerId ≤ l.id ∧ l.id < r'.nextLayerId := by
  obtain ⟨ls, hls, hids, hnext⟩ := h.layers
  rw [hls] at hl
  refine (List.mem_append.mp hl).imp_right ?_
  intro hl
  have hmem := List.mem_map_of_mem (f := Layer.id) hl
  rw [hids, List.mem_range'_1] at hmem
  rw [hnext]
  exact hmem

/-- Every id handed out is carried by a layer. -/
theorem Extends.exists_layer (h : Extends r r') {id : LayerId} (hlow : r.nextLayerId ≤ id)
    (hhigh : id < r'.nextLayerId) : ∃ l ∈ r'.layers, l.id = id := by
  obtain ⟨ls, hls, hids, hnext⟩ := h.layers
  rw [hnext] at hhigh
  have hmem : id ∈ ls.map Layer.id := by
    rw [hids, List.mem_range'_1]
    exact ⟨hlow, hhigh⟩
  obtain ⟨l, hl, hid⟩ := List.mem_map.mp hmem
  exact ⟨l, hls ▸ List.mem_append_right _ hl, hid⟩

theorem Extends.next_le (h : Extends r r') : r.nextLayerId ≤ r'.nextLayerId := by
  obtain ⟨ls, _, _, hnext⟩ := h.layers
  rw [hnext]
  exact Nat.le_add_right _ _

/-- Layers are numbered apart, below the counter. -/
structure Numbered (r : Repository) : Prop where
  nodup : (r.layers.map Layer.id).Nodup
  below : ∀ l ∈ r.layers, l.id < r.nextLayerId

theorem numbered_new (n : Nat) : (new n).Numbered where
  nodup := List.nodup_nil
  below := nofun

theorem Numbered.eq_of_id (h : r.Numbered) {l l' : Layer} (hl : l ∈ r.layers) (hl' : l' ∈ r.layers)
    (hid : l.id = l'.id) : l = l' :=
  List.inj_on_of_nodup_map h.nodup hl hl' hid

theorem Numbered.of_extends (h : r.Numbered) (he : Extends r r') : r'.Numbered := by
  refine ⟨?_, ?_⟩
  · obtain ⟨ls, hls, hids, _⟩ := he.layers
    rw [hls, List.map_append, hids, List.nodup_append]
    refine ⟨h.nodup, List.nodup_range', ?_⟩
    intro a ha b hb hab
    obtain ⟨l, hl, rfl⟩ := List.mem_map.mp ha
    exact absurd hab (ne_of_lt (lt_of_lt_of_le (h.below l hl) (List.mem_range'_1.mp hb).1))
  · intro l hl
    rcases he.mem hl with hl | hl
    · exact lt_of_lt_of_le (h.below l hl) he.next_le
    · exact hl.2

end Repository

/-- The first layer of a repository that was frozen after one modification, for
the concrete cases of the modules above. -/
def layerSample (m : Modification) : Layer := ⟨0, OrdMap.insert m.slot m.version OrdMap.empty⟩

end AethelDB.Pageserver
