import AethelDB.Pageserver.Walredo

/-!
# The log-structured repository

`pageserver/src/{layer,repository}.rs`. Versions are filed under
`(PageKey, Lsn)` in a mutable *memtable*; when it fills it is frozen into an
immutable *layer* and a fresh one starts. A read gathers the versions of its
page from an optional inherited base, the memtable and every layer, sorts them
by LSN and hands them to the redo backend. Compaction merges the layers into
one and drops the versions that no read at or above the horizon can need.

The lock of the source makes every operation atomic, so a `Repository` here is
the state behind it and the operations are functions on that state. Layer ids
are natural numbers: the source counts them up from zero in a `u64`, once per
freeze or compaction.

The proofs never look at where a version is kept. `contents` forgets the split
into memtable and layers, and the two facts used later are that a read is a
function of `contents` (`versions_eq`) and how each operation moves it
(`contents_freezeLocked`, `contents_ingestOne`; `contents_compact` is in
`Compaction`). Both need the versions to be filed under distinct slots
(`Distinct`), which is what "LSNs are unique per write" means in the source.
-/

namespace AethelDB.Pageserver

open AethelDB.Lib

/-- Monotonic identifier of a layer within its repository. -/
abbrev LayerId := Nat

/-- The pairs from `(k, 0)` to `(k, lsn)` are those of `k` up to `lsn`. -/
theorem lex_between {K : Type} [LinearOrder K] {k : K} {lsn : Lsn} {s : K ×ₗ Lsn} :
    toLex (k, Lsn.INVALID) ≤ s ∧ s ≤ toLex (k, lsn) ↔ (ofLex s).1 = k ∧ (ofLex s).2 ≤ lsn := by
  rw [Prod.Lex.le_iff, Prod.Lex.le_iff]
  constructor
  · intro h
    rcases h with ⟨h1 | ⟨h1, _⟩, h2 | ⟨h2, h3⟩⟩
    · exact absurd h1 (lt_asymm h2)
    · exact absurd h2.symm (ne_of_lt h1)
    · exact absurd h1.symm (ne_of_lt h2)
    · exact ⟨h2, h3⟩
  · intro hx
    obtain ⟨rfl, h⟩ := hx
    exact ⟨Or.inr ⟨rfl, Lsn.INVALID_le _⟩, Or.inr ⟨rfl, h⟩⟩

/-- The key a version is filed under. -/
abbrev Slot := PageKey ×ₗ Lsn

namespace Slot

def key (s : Slot) : PageKey := (ofLex s).1

def lsn (s : Slot) : Lsn := (ofLex s).2

@[simp] theorem key_toLex (k : PageKey) (l : Lsn) : Slot.key (toLex (k, l)) = k := rfl

@[simp] theorem lsn_toLex (k : PageKey) (l : Lsn) : Slot.lsn (toLex (k, l)) = l := rfl

theorem ext {s t : Slot} (hk : s.key = t.key) (hl : s.lsn = t.lsn) : s = t :=
  ofLex.injective (Prod.ext hk hl)

theorem lt_iff_of_key_eq {s t : Slot} (h : s.key = t.key) : s < t ↔ s.lsn < t.lsn := by
  rw [Prod.Lex.lt_iff]
  constructor
  · intro h
    rcases h with hlt | ⟨_, hlt⟩
    · exact absurd h (ne_of_lt hlt)
    · exact hlt
  · exact fun hlt => Or.inr ⟨h, hlt⟩

/-- The slots from `(key, 0)` to `(key, lsn)` are those of `key` up to `lsn`. -/
theorem mem_history {key : PageKey} {lsn : Lsn} {s : Slot} :
    toLex (key, Lsn.INVALID) ≤ s ∧ s ≤ toLex (key, lsn) ↔ s.key = key ∧ s.lsn ≤ lsn :=
  lex_between

end Slot

/-- Versions sorted by slot, as a `BTreeMap` keeps them. -/
abbrev VersionMap := OrdMap Slot PageVersion

/-- The `(lsn, version)` half of an entry. -/
def toVersion (e : Slot × PageVersion) : Lsn × PageVersion := (e.1.lsn, e.2)

/-- `entries.range((key, 0)..=(key, lsn))`, without the page key. -/
def VersionMap.history (m : VersionMap) (key : PageKey) (lsn : Lsn) : Versions :=
  (OrdMap.range (toLex (key, Lsn.INVALID)) (toLex (key, lsn)) m).map toVersion

/-! ## Layers -/

/-- An immutable, sorted set of page versions. -/
structure Layer where
  id : LayerId
  entries : VersionMap

namespace Layer

def LAYER_MAGIC : Nat := 0x53504C31

def LAYER_VERSION : UInt8 := 1

/-- The versions of `key` with LSN at most `lsn`, ascending. -/
def range (l : Layer) (key : PageKey) (lsn : Lsn) : Versions := l.entries.history key lsn

def serializeEntry (e : Slot × PageVersion) : List UInt8 :=
  beBytes 4 e.1.key.rel.spcNode.toNat ++ beBytes 4 e.1.key.rel.dbNode.toNat
    ++ beBytes 4 e.1.key.rel.relNode.toNat ++ [e.1.key.rel.fork.toByte]
    ++ beBytes 4 e.1.key.block.toNat ++ beBytes 8 e.1.lsn.raw.toNat ++ writeVersion e.2

def serialize (l : Layer) : List UInt8 :=
  beBytes 4 LAYER_MAGIC ++ [LAYER_VERSION] ++ beBytes 8 l.id ++ beBytes 4 l.entries.size
    ++ l.entries.entries.flatMap serializeEntry

end Layer

/-! ## The repository state and its operations -/

variable {c : List (Slot × PageVersion)}

inductive PageLookup where
  | page (bytes : List UInt8)
  | notFound
deriving DecidableEq, Repr

structure CompactionStats where
  layersBefore : Nat := 0
  layersAfter : Nat := 0
  versionsRemoved : Nat := 0
  removedLayerIds : List LayerId := []
deriving DecidableEq, Repr

structure Repository where
  memtable : VersionMap
  relSizes : OrdMap (RelTag ×ₗ Lsn) UInt32
  layers : List Layer
  uploaded : Finset LayerId
  nextLayerId : LayerId
  freezeThreshold : Nat

namespace Repository

def new (freezeThreshold : Nat) : Repository where
  memtable := OrdMap.empty
  relSizes := OrdMap.empty
  layers := []
  uploaded := ∅
  nextLayerId := 0
  freezeThreshold := freezeThreshold

/-- Move the memtable into a new layer; a no-op when it is empty. -/
def freezeLocked (r : Repository) : Repository :=
  if r.memtable.isEmpty then r
  else { r with
    memtable := OrdMap.empty
    layers := r.layers ++ [⟨r.nextLayerId, r.memtable⟩]
    nextLayerId := r.nextLayerId + 1 }

def freeze (r : Repository) : Repository := r.freezeLocked

def getRelSize (r : Repository) (rel : RelTag) (lsn : Lsn) : Option UInt32 :=
  (OrdMap.range (toLex (rel, Lsn.INVALID)) (toLex (rel, lsn)) r.relSizes).getLast?.map Prod.snd

/-- Record that at `m.lsn` the fork is at least `m.block + 1` blocks long. -/
def trackRelSize (r : Repository) (m : Modification) : Repository :=
  let prior := (r.getRelSize m.rel m.lsn).getD 0
  let size := max prior (m.block + 1)
  let slot := (OrdMap.lookup (toLex (m.rel, m.lsn)) r.relSizes).getD 0
  { r with relSizes := OrdMap.insert (toLex (m.rel, m.lsn)) (max slot size) r.relSizes }

def insertVersion (r : Repository) (m : Modification) : Repository :=
  { r with memtable := OrdMap.insert m.slot m.version r.memtable }

def ingestOne (r : Repository) (m : Modification) : Repository :=
  let r := (r.trackRelSize m).insertVersion m
  if r.freezeThreshold ≤ r.memtable.size then r.freezeLocked else r

def ingest (r : Repository) (mods : List Modification) : Repository := mods.foldl ingestOne r

/-- All versions of `key` up to `lsn`, across the optional base, the memtable
and every layer, ordered by LSN. -/
def versions (r : Repository) (key : PageKey) (lsn : Lsn) (base : Option (Lsn × List UInt8)) :
    Versions :=
  byPos ((base.map fun b => (b.1, PageVersion.image b.2)).toList
    ++ r.memtable.history key lsn ++ r.layers.flatMap fun l => l.range key lsn)

/-- How a backend's answer surfaces to the reader. -/
def lookupOf : Except RedoError (Option (List UInt8)) → Except PageError PageLookup
  | .ok (some page) => .ok (.page page)
  | .ok none => .ok .notFound
  | .error (.apply e) => .error e
  | .error e => .error (.redo e.display)

/-- Reconstruct `key` at `lsn`, optionally over a supplied base image. -/
def getPageWithBase (redo : WalRedoManager) (r : Repository) (key : PageKey) (lsn : Lsn)
    (base : Option (Lsn × List UInt8)) : Except PageError PageLookup :=
  lookupOf (redo.reconstruct key lsn (r.versions key lsn base))

/-- Reconstruct `key` at `lsn` from this store's data alone. -/
def getPage (redo : WalRedoManager) (r : Repository) (key : PageKey) (lsn : Lsn) :
    Except PageError PageLookup :=
  r.getPageWithBase redo key lsn none

def pendingOffload (r : Repository) : List Layer :=
  r.layers.filter fun l => decide (l.id ∉ r.uploaded)

def markUploaded (r : Repository) (id : LayerId) : Repository :=
  { r with uploaded := insert id r.uploaded }

/-! ## Compaction -/

/-- All frozen entries in one map; where slots collide the newer layer wins. -/
def mergeLayers (layers : List Layer) : VersionMap :=
  layers.foldl (fun m l => m.insertAll l.entries.entries) OrdMap.empty

/-- The scan that records, per page, the latest base at or before the horizon:
entries come in ascending order, so a later hit overwrites an earlier one. -/
def baseLsn (horizon : Lsn) (entries : List (Slot × PageVersion)) : PageKey → Option Lsn :=
  entries.foldl
    (fun f e => if e.1.lsn ≤ horizon ∧ e.2.isBase = true
      then Function.update f e.1.key (some e.1.lsn) else f)
    (fun _ => none)

/-- The slots compaction drops: those strictly older than their page's base. -/
def dropKeys (horizon : Lsn) (merged : VersionMap) : List Slot :=
  (merged.entries.filter fun e =>
    match baseLsn horizon merged.entries e.1.key with
    | some b => decide (e.1.lsn < b)
    | none => false).map Prod.fst

/-- Compact the frozen layers into one, dropping what no read at or above
`gcHorizon` can need. -/
def compact (r : Repository) (gcHorizon : Lsn) : Repository × CompactionStats :=
  if r.layers.isEmpty then (r, {})
  else
    let removed := r.layers.map Layer.id
    let merged := mergeLayers r.layers
    let kept := (dropKeys gcHorizon merged).foldl OrdMap.remove merged
    let r' := { r with
      layers := if kept.isEmpty then [] else [⟨r.nextLayerId, kept⟩]
      nextLayerId := if kept.isEmpty then r.nextLayerId else r.nextLayerId + 1
      uploaded := removed.foldl Finset.erase r.uploaded }
    (r', { layersBefore := r.layers.length
           layersAfter := r'.layers.length
           versionsRemoved := merged.size - kept.size
           removedLayerIds := removed })

/-! ## What a repository holds -/

def layerEntries (r : Repository) : List (Slot × PageVersion) :=
  r.layers.flatMap fun l => l.entries.entries

/-- Every entry, frozen or not. -/
def contents (r : Repository) : List (Slot × PageVersion) :=
  r.memtable.entries ++ r.layerEntries

/-- No two versions are filed under the same slot. -/
def Distinct (r : Repository) : Prop := (r.contents.map Prod.fst).Nodup

end Repository

/-- The history of `key` up to `lsn` in a list of entries, unsorted. -/
def versionsOf (c : List (Slot × PageVersion)) (key : PageKey) (lsn : Lsn) : Versions :=
  (c.filter fun e => decide (e.1.key = key ∧ e.1.lsn ≤ lsn)).map toVersion

theorem mem_versionsOf {key : PageKey} {lsn : Lsn} {e : Lsn × PageVersion} :
    e ∈ versionsOf c key lsn ↔ (toLex (key, e.1), e.2) ∈ c ∧ e.1 ≤ lsn := by
  unfold versionsOf
  rw [List.mem_map]
  constructor
  · intro h
    obtain ⟨⟨s, v⟩, hmem, rfl⟩ := h
    rw [List.mem_filter] at hmem
    obtain ⟨hmem, hcond⟩ := hmem
    obtain ⟨rfl, hle⟩ := of_decide_eq_true hcond
    exact ⟨hmem, hle⟩
  · intro h
    obtain ⟨hmem, hle⟩ := h
    exact ⟨_, List.mem_filter.mpr ⟨hmem, decide_eq_true ⟨rfl, hle⟩⟩, rfl⟩

theorem versionsOf_append (c d : List (Slot × PageVersion)) (key : PageKey) (lsn : Lsn) :
    versionsOf (c ++ d) key lsn = versionsOf c key lsn ++ versionsOf d key lsn := by
  simp only [versionsOf, List.filter_append, List.map_append]

theorem versionsOf_perm {d : List (Slot × PageVersion)} (h : c.Perm d) (key : PageKey) (lsn : Lsn) :
    (versionsOf c key lsn).Perm (versionsOf d key lsn) :=
  (h.filter _).map _

/-- Distinct slots leave the versions of one page at distinct LSNs. -/
theorem versionsOf_nodup (h : (c.map Prod.fst).Nodup) (key : PageKey) (lsn : Lsn) :
    ((versionsOf c key lsn).map Prod.fst).Nodup := by
  unfold versionsOf
  rw [List.Nodup, List.pairwise_map, List.pairwise_map]
  rw [List.Nodup, List.pairwise_map] at h
  refine (h.filter _).imp_of_mem ?_
  intro a b ha hb hne heq
  have hka := (of_decide_eq_true (List.mem_filter.mp ha).2).1
  have hkb := (of_decide_eq_true (List.mem_filter.mp hb).2).1
  exact hne (Slot.ext (hka.trans hkb.symm) heq)

/-- A range scan of a sorted map is the history it holds. -/
theorem VersionMap.history_eq (m : VersionMap) (key : PageKey) (lsn : Lsn) :
    m.history key lsn = versionsOf m.entries key lsn := by
  unfold VersionMap.history OrdMap.range versionsOf
  congr 1
  refine List.filter_congr ?_
  intro e _
  rw [decide_eq_decide]
  exact Slot.mem_history

def Modification.entry (m : Modification) : Slot × PageVersion := (m.slot, m.version)

theorem map_fst_entries (mods : List Modification) :
    (mods.map Modification.entry).map Prod.fst = mods.map Modification.slot := by
  rw [List.map_map]
  rfl

namespace Repository

variable {r : Repository}

/-- A read sees the repository only through its contents. -/
theorem versions_eq (r : Repository) (key : PageKey) (lsn : Lsn)
    (base : Option (Lsn × List UInt8)) :
    r.versions key lsn base
      = byPos ((base.map fun b => (b.1, PageVersion.image b.2)).toList
          ++ versionsOf r.contents key lsn) := by
  have hlayers : ∀ ls : List Layer,
      (ls.flatMap fun l => l.range key lsn)
        = versionsOf (ls.flatMap fun l => l.entries.entries) key lsn := by
    intro ls
    induction ls with
    | nil => rfl
    | cons l ls ih =>
      rw [List.flatMap_cons, List.flatMap_cons, versionsOf_append, ih, Layer.range,
        VersionMap.history_eq]
  rw [versions, VersionMap.history_eq, hlayers, contents, versionsOf_append, layerEntries,
    List.append_assoc]

@[simp] theorem contents_new (n : Nat) : (Repository.new n).contents = [] := rfl

/-- Freezing moves entries, it does not change them. -/
theorem contents_freezeLocked (r : Repository) : r.freezeLocked.contents.Perm r.contents := by
  unfold freezeLocked
  split
  · exact List.Perm.refl _
  · simp only [contents, layerEntries, List.flatMap_append, List.flatMap_cons, List.flatMap_nil,
      List.append_nil, OrdMap.entries_empty, List.nil_append]
    exact List.perm_append_comm

/-- The slots versions are filed under since the last freeze. -/
def openSlots (r : Repository) : List Slot := r.memtable.entries.map Prod.fst

theorem openSlots_subset (r : Repository) : r.openSlots ⊆ r.contents.map Prod.fst := by
  intro s hs
  rw [contents, List.map_append]
  exact List.mem_append_left _ hs

theorem openSlots_freezeLocked (r : Repository) : r.freezeLocked.openSlots ⊆ r.openSlots := by
  unfold freezeLocked
  split
  · exact List.Subset.refl _
  · exact List.nil_subset _

theorem openSlots_ingestOne (r : Repository) (m : Modification) :
    (r.ingestOne m).openSlots ⊆ m.slot :: r.openSlots := by
  have hins : ((r.trackRelSize m).insertVersion m).openSlots ⊆ m.slot :: r.openSlots := by
    intro s hs
    obtain ⟨e, he, rfl⟩ := List.mem_map.mp hs
    rcases OrdMap.mem_insert.mp he with rfl | ⟨he, -⟩
    · exact List.mem_cons_self
    · exact List.mem_cons_of_mem _ (List.mem_map_of_mem he)
  simp only [ingestOne]
  split
  · exact List.Subset.trans (openSlots_freezeLocked _) hins
  · exact hins

theorem contents_insertVersion {m : Modification} (h : m.slot ∉ r.openSlots) :
    (r.insertVersion m).contents.Perm (m.entry :: r.contents) :=
  (OrdMap.insert_perm h).append_right r.layerEntries

/-- Ingesting under a slot that is not open adds exactly that entry. -/
theorem contents_ingestOne {m : Modification} (h : m.slot ∉ r.openSlots) :
    (r.ingestOne m).contents.Perm (m.entry :: r.contents) := by
  have hins : ((r.trackRelSize m).insertVersion m).contents.Perm (m.entry :: r.contents) :=
    contents_insertVersion (r := r.trackRelSize m) h
  simp only [ingestOne]
  split
  · exact (contents_freezeLocked _).trans hins
  · exact hins

/-- Ingesting a batch under pairwise distinct slots that are not open adds exactly those
entries, however the memtable freezes along the way. -/
theorem contents_ingest_of_not_open :
    ∀ {mods : List Modification} {r : Repository}, (mods.map Modification.slot).Nodup →
      (∀ m ∈ mods, m.slot ∉ r.openSlots) →
      (r.ingest mods).contents.Perm (r.contents ++ mods.map Modification.entry) := by
  intro mods
  induction mods with
  | nil => intro r _ _; simp [ingest]
  | cons m mods ih =>
    intro r hnd hclosed
    have hone := contents_ingestOne (hclosed m List.mem_cons_self)
    rw [List.map_cons, List.nodup_cons] at hnd
    have hrest := ih (r := r.ingestOne m) hnd.2 fun m' hm' hopen => by
      rcases List.mem_cons.mp (openSlots_ingestOne r m hopen) with heq | hopen
      · exact hnd.1 (heq ▸ List.mem_map_of_mem hm')
      · exact hclosed m' (List.mem_cons_of_mem _ hm') hopen
    exact hrest.trans ((hone.append_right _).trans List.perm_middle.symm)

/-- Ingesting a batch under fresh, pairwise distinct slots adds exactly those
entries. -/
theorem contents_ingest {mods : List Modification}
    (hnd : (r.contents.map Prod.fst ++ mods.map Modification.slot).Nodup) :
    (r.ingest mods).contents.Perm (r.contents ++ mods.map Modification.entry) := by
  obtain ⟨-, hmods, hdisj⟩ := List.nodup_append.mp hnd
  refine contents_ingest_of_not_open hmods fun m hm hopen => ?_
  exact hdisj _ (openSlots_subset r hopen) _ (List.mem_map_of_mem hm) rfl

theorem distinct_ingest {mods : List Modification}
    (h : (r.contents.map Prod.fst ++ mods.map Modification.slot).Nodup) :
    (r.ingest mods).Distinct := by
  have hp := (contents_ingest h).map Prod.fst
  rw [List.map_append, map_fst_entries] at hp
  exact hp.nodup_iff.mpr h

end Repository

end AethelDB.Pageserver
