import AethelDB.Pageserver.Repository

/-!
# Compaction drops only what a retained base shadows

`Repository::compact` scans the merged layers for the latest base of each page at
or below the horizon and removes everything of that page strictly older. Two
lemmas say what that does to `contents`: `contents_compact` (the entries that
survive are those outside `pruned`) and `pruned_shadowed` (every pruned entry has
a surviving base of its page above it, at or below the horizon).

`Pruned floor full r` is the relation that follows from any number of
compactions: `r` is `full` minus versions that a retained base at or below
`floor` shadows. It is an invariant under every repository operation, applied to
both sides (`Pruned.ingest`, `Pruned.freeze`) or to the pruned side only
(`Pruned.compact`, which raises the floor), and reads at or above the floor do
not tell the two sides apart (`Pruned.sameRead`).
-/

namespace AethelDB.Pageserver

open AethelDB.Lib

namespace Repository

/-! ## The merged layers -/

variable {r : Repository} {e : Slot × PageVersion}

theorem foldl_insertAll_perm :
    ∀ {layers : List Layer} {m : VersionMap},
      ((m.entries ++ layers.flatMap fun l => l.entries.entries).map Prod.fst).Nodup →
      (layers.foldl (fun m l => m.insertAll l.entries.entries) m).entries.Perm
        (m.entries ++ layers.flatMap fun l => l.entries.entries) := by
  intro layers
  induction layers with
  | nil => intro m _; simp
  | cons l layers ih =>
    intro m hnd
    rw [List.flatMap_cons, ← List.append_assoc] at hnd ⊢
    have hl : (m.insertAll l.entries.entries).entries.Perm (m.entries ++ l.entries.entries) := by
      refine OrdMap.insertAll_perm ?_
      rw [List.map_append] at hnd
      exact (List.nodup_append.mp hnd).1
    have hperm := hl.append_right (layers.flatMap fun l => l.entries.entries)
    have hrest := ih ((hperm.map Prod.fst).nodup_iff.mpr hnd)
    exact hrest.trans hperm

theorem Distinct.layers (h : r.Distinct) : (r.layerEntries.map Prod.fst).Nodup := by
  unfold Distinct contents at h
  rw [List.map_append] at h
  exact (List.nodup_append.mp h).2.1

/-- With distinct slots, merging loses nothing. -/
theorem mergeLayers_perm (h : r.Distinct) : (mergeLayers r.layers).entries.Perm r.layerEntries :=
  foldl_insertAll_perm (m := OrdMap.empty) h.layers

theorem mem_layers_of_mem_foldl_insertAll :
    ∀ {layers : List Layer} {m : VersionMap},
      e ∈ (layers.foldl (fun m l => m.insertAll l.entries.entries) m).entries →
      e ∈ m.entries ∨ e ∈ layers.flatMap fun l => l.entries.entries := by
  intro layers
  induction layers with
  | nil => exact fun h => Or.inl h
  | cons l layers ih =>
    intro m h
    rw [List.flatMap_cons, List.mem_append]
    rcases ih (m := m.insertAll l.entries.entries) h with h | h
    · exact (OrdMap.mem_of_mem_insertAll h).imp_right Or.inl
    · exact Or.inr (Or.inr h)

theorem mem_layerEntries_of_merged (h : e ∈ (mergeLayers r.layers).entries) : e ∈ r.layerEntries :=
  (mem_layers_of_mem_foldl_insertAll h).resolve_left List.not_mem_nil

theorem exists_mem_foldl_insertAll {s : Slot} :
    ∀ {layers : List Layer} {m : VersionMap},
      (∃ v, (s, v) ∈ m.entries ∨ (s, v) ∈ layers.flatMap fun l => l.entries.entries) →
      ∃ v, (s, v) ∈ (layers.foldl (fun m l => m.insertAll l.entries.entries) m).entries := by
  intro layers
  induction layers with
  | nil => exact fun h => h.imp fun v hv => hv.resolve_right List.not_mem_nil
  | cons l layers ih =>
    rintro m ⟨v, hv⟩
    rw [List.flatMap_cons, List.mem_append, ← or_assoc] at hv
    refine ih (m := m.insertAll l.entries.entries) ?_
    rcases hv with hv | hv
    · exact (OrdMap.exists_mem_insertAll ⟨v, hv⟩).imp fun _ => Or.inl
    · exact ⟨v, Or.inr hv⟩

theorem exists_merged (h : e ∈ r.layerEntries) : ∃ v, (e.1, v) ∈ (mergeLayers r.layers).entries :=
  exists_mem_foldl_insertAll ⟨e.2, Or.inr h⟩

/-! ## The base scan -/

/-- An entry the scan takes note of. -/
def IsBaseUpTo (horizon : Lsn) (key : PageKey) (e : Slot × PageVersion) : Prop :=
  e.1.key = key ∧ e.2.isBase = true ∧ e.1.lsn ≤ horizon

/-- The scan ends on the latest base of each page, because entries come in
ascending order. The induction is on the list from the right, the direction in
which the fold overwrites. -/
theorem baseLsn_spec (horizon : Lsn) (key : PageKey) :
    ∀ {es : List (Slot × PageVersion)}, es.Pairwise (fun a b => a.1 < b.1) →
      match baseLsn horizon es key with
      | none => ∀ e ∈ es, ¬ IsBaseUpTo horizon key e
      | some b => (∃ e ∈ es, IsBaseUpTo horizon key e ∧ e.1.lsn = b) ∧
          ∀ e ∈ es, IsBaseUpTo horizon key e → e.1.lsn ≤ b := by
  intro es
  induction es using List.reverseRecOn with
  | nil => intro _; simp [baseLsn]
  | append_singleton es x ih =>
    intro hs
    obtain ⟨hs1, _, hlast⟩ := List.pairwise_append.mp hs
    have hrec := ih hs1
    have hstep : baseLsn horizon (es ++ [x]) key
        = if x.1.lsn ≤ horizon ∧ x.2.isBase = true
          then Function.update (baseLsn horizon es) x.1.key (some x.1.lsn) key
          else baseLsn horizon es key := by
      unfold baseLsn
      rw [List.foldl_append, List.foldl_cons, List.foldl_nil]
      split <;> rfl
    rw [hstep]
    by_cases hx : IsBaseUpTo horizon key x
    · -- `x` is the newest hit for `key`
      obtain ⟨hk, hb, hle⟩ := hx
      rw [if_pos ⟨hle, hb⟩, hk, Function.update_self]
      refine ⟨⟨x, by simp, ⟨hk, hb, hle⟩, rfl⟩, ?_⟩
      intro e he hbase
      rcases List.mem_append.mp he with he | he
      · have hlt := hlast e he x (by simp)
        exact le_of_lt ((Slot.lt_iff_of_key_eq (hbase.1.trans hk.symm)).mp hlt)
      · rw [List.mem_singleton.mp he]
    · have hsame : (if x.1.lsn ≤ horizon ∧ x.2.isBase = true
          then Function.update (baseLsn horizon es) x.1.key (some x.1.lsn) key
          else baseLsn horizon es key) = baseLsn horizon es key := by
        split
        · next hc =>
          have hk : key ≠ x.1.key := fun hk => hx ⟨hk.symm, hc.2, hc.1⟩
          rw [Function.update_of_ne hk]
        · rfl
      rw [hsame]
      cases hb : baseLsn horizon es key with
      | none =>
        rw [hb] at hrec
        intro e he
        rcases List.mem_append.mp he with he | he
        · exact hrec e he
        · rw [List.mem_singleton.mp he]
          exact hx
      | some b =>
        rw [hb] at hrec
        obtain ⟨⟨e0, he0, hb0, hl0⟩, hmax⟩ := hrec
        refine ⟨⟨e0, List.mem_append_left _ he0, hb0, hl0⟩, ?_⟩
        intro e he hbase
        rcases List.mem_append.mp he with he | he
        · exact hmax e he hbase
        · rw [List.mem_singleton.mp he] at hbase
          exact absurd hbase hx

/-! ## What a compaction keeps -/

variable {horizon : Lsn}

/-- The slots a compaction at `horizon` drops. -/
def pruned (r : Repository) (horizon : Lsn) : List Slot :=
  dropKeys horizon (mergeLayers r.layers)

theorem mem_pruned {s : Slot} :
    s ∈ r.pruned horizon ↔
      (∃ v, (s, v) ∈ (mergeLayers r.layers).entries) ∧
        ∃ b, baseLsn horizon (mergeLayers r.layers).entries s.key = some b ∧ s.lsn < b := by
  unfold pruned dropKeys
  rw [List.mem_map]
  constructor
  · intro h
    obtain ⟨⟨t, v⟩, hmem, rfl⟩ := h
    obtain ⟨hmem, hcond⟩ := List.mem_filter.mp hmem
    refine ⟨⟨v, hmem⟩, ?_⟩
    cases hb : baseLsn horizon (mergeLayers r.layers).entries t.key with
    | none => simp only [hb] at hcond; exact absurd hcond (by simp)
    | some b => simp only [hb] at hcond; exact ⟨b, rfl, of_decide_eq_true hcond⟩
  · intro h
    obtain ⟨⟨v, hmem⟩, b, hb, hlt⟩ := h
    refine ⟨(s, v), List.mem_filter.mpr ⟨hmem, ?_⟩, rfl⟩
    simp only [hb]
    exact decide_eq_true hlt

/-- Every pruned slot lies strictly below a retained base of its page, which is
itself at or below the horizon. -/
theorem pruned_shadowed {s : Slot} (hs : s ∈ r.pruned horizon) :
    ∃ e ∈ (mergeLayers r.layers).entries, e.1 ∉ r.pruned horizon ∧ IsBaseUpTo horizon s.key e
      ∧ s.lsn < e.1.lsn := by
  obtain ⟨_, b, hb, hlt⟩ := mem_pruned.mp hs
  have hspec := baseLsn_spec horizon s.key (mergeLayers r.layers).sorted
  rw [hb] at hspec
  obtain ⟨⟨e, he, hbase, hel⟩, _⟩ := hspec
  refine ⟨e, he, ?_, hbase, by rw [hel]; exact hlt⟩
  intro hdrop
  obtain ⟨_, b', hb', hlt'⟩ := mem_pruned.mp hdrop
  rw [hbase.1, hb] at hb'
  rw [← Option.some.inj hb', hel] at hlt'
  exact lt_irrefl _ hlt'

/-- Memtable slots are never pruned. -/
theorem memtable_not_pruned (hd : r.Distinct) (he : e ∈ r.memtable.entries) :
    e.1 ∉ r.pruned horizon := by
  intro hdrop
  obtain ⟨⟨v, hv⟩, _⟩ := mem_pruned.mp hdrop
  have hlayer : (e.1, v) ∈ r.layerEntries := (mergeLayers_perm hd).mem_iff.mp hv
  unfold Distinct contents at hd
  rw [List.map_append] at hd
  exact (List.nodup_append.mp hd).2.2 e.1 (List.mem_map_of_mem he) e.1
    (List.mem_map.mpr ⟨(e.1, v), hlayer, rfl⟩) rfl

/-- The frozen entries after a compaction: what is merged, minus what is dropped. -/
theorem layerEntries_compact_eq (r : Repository) (horizon : Lsn) :
    (r.compact horizon).1.layerEntries
      = ((r.pruned horizon).foldl OrdMap.remove (mergeLayers r.layers)).entries := by
  unfold compact pruned
  split
  · next hempty =>
    rw [layerEntries, List.isEmpty_iff.mp hempty]
    rfl
  · -- whether or not anything survives, the frozen entries are those kept
    have hkept : ∀ kept : VersionMap,
        (if kept.isEmpty then ([] : List Layer) else [⟨r.nextLayerId, kept⟩]).flatMap
          (fun l => l.entries.entries) = kept.entries := by
      intro kept
      split
      · next h => exact (List.isEmpty_iff.mp h).symm
      · simp
    exact hkept _

theorem mem_layerEntries_compact :
    e ∈ (r.compact horizon).1.layerEntries ↔
      e ∈ (mergeLayers r.layers).entries ∧ e.1 ∉ r.pruned horizon := by
  rw [layerEntries_compact_eq, OrdMap.mem_foldl_remove]

theorem memtable_compact (r : Repository) (horizon : Lsn) :
    (r.compact horizon).1.memtable = r.memtable := by
  unfold compact
  split <;> rfl

theorem layerEntries_compact (hd : r.Distinct) :
    (r.compact horizon).1.layerEntries.Perm
      (r.layerEntries.filter fun e => decide (e.1 ∉ r.pruned horizon)) := by
  refine List.Perm.trans ?_ ((mergeLayers_perm hd).filter _)
  rw [layerEntries_compact_eq, List.perm_ext_iff_of_nodup (OrdMap.nodup_keys _ |>.of_map _)
    ((OrdMap.nodup_keys _ |>.of_map _).filter _)]
  intro e
  rw [OrdMap.mem_foldl_remove, List.mem_filter, decide_eq_true_iff]

/-- **Compaction keeps the entries outside `pruned`.** -/
theorem contents_compact (hd : r.Distinct) :
    (r.compact horizon).1.contents.Perm
      (r.contents.filter fun e => decide (e.1 ∉ r.pruned horizon)) := by
  have hkeep : (r.memtable.entries.filter fun e => decide (e.1 ∉ r.pruned horizon))
      = r.memtable.entries := by
    rw [List.filter_eq_self]
    exact fun e he => decide_eq_true (memtable_not_pruned hd he)
  rw [contents, contents, List.filter_append, memtable_compact, hkeep]
  exact (layerEntries_compact hd).append_left _

theorem mem_compact (hd : r.Distinct) :
    e ∈ (r.compact horizon).1.contents ↔ e ∈ r.contents ∧ e.1 ∉ r.pruned horizon := by
  rw [(contents_compact hd).mem_iff, List.mem_filter, decide_eq_true_iff]

theorem Distinct.compact (hd : r.Distinct) : (r.compact horizon).1.Distinct :=
  ((contents_compact hd).map Prod.fst).nodup_iff.mpr (hd.sublist (List.filter_sublist.map _))

/-! ## Reading through the contents -/

variable {key : PageKey} {lsn : Lsn} {redo : WalRedoManager}

/-- The inherited base is inserted into the sorted own history, in front of own
versions at its LSN. -/
theorem versions_base (r : Repository) (key : PageKey) (lsn : Lsn) (b : Lsn × List UInt8) :
    r.versions key lsn (some b)
      = List.orderedInsert (fun x y => x.1 ≤ y.1) (b.1, PageVersion.image b.2)
          (r.versions key lsn none) := by
  rw [versions_eq, versions_eq]
  rfl

theorem mem_versions {e : Lsn × PageVersion} :
    e ∈ r.versions key lsn none ↔ (toLex (key, e.1), e.2) ∈ r.contents ∧ e.1 ≤ lsn := by
  rw [versions_eq, mem_byPos]
  exact mem_versionsOf

/-- An earlier read sees the part of the history up to its LSN. -/
theorem versions_le {lsn' : Lsn} (h : lsn ≤ lsn') (r : Repository) (key : PageKey) :
    r.versions key lsn none
      = (r.versions key lsn' none).filter fun e => decide (e.1 ≤ lsn) := by
  have hof : versionsOf r.contents key lsn
      = (versionsOf r.contents key lsn').filter fun e => decide (e.1 ≤ lsn) := by
    unfold versionsOf
    rw [List.filter_map, List.filter_filter]
    congr 1
    refine List.filter_congr ?_
    intro e _
    show _ = (decide (e.1.lsn ≤ lsn) && decide (e.1.key = key ∧ e.1.lsn ≤ lsn'))
    rw [← Bool.decide_and, decide_eq_decide]
    exact ⟨fun hc => ⟨hc.2, hc.1, hc.2.trans h⟩, fun hc => ⟨hc.2.1, hc.1⟩⟩
  rw [versions_eq, versions_eq]
  show byPos (versionsOf r.contents key lsn) = _
  rw [hof]
  exact byPos_filter_pos (fun l => decide (l ≤ lsn)) _

theorem versions_of_empty (h : r.contents = []) (key : PageKey) (lsn : Lsn) :
    r.versions key lsn none = [] := by
  rw [versions_eq, h]
  rfl

theorem versions_sorted (r : Repository) (key : PageKey) (lsn : Lsn) :
    (r.versions key lsn none).Pairwise (fun a b => a.1 ≤ b.1) :=
  List.pairwise_insertionSort _ _

/-- Over an inherited base, a store without an own one replays its versions at or
above the base. -/
theorem latest_versions_base (hno : ¬ HasBase PageVersion.isBase (r.versions key lsn none))
    (b : Lsn × List UInt8) :
    latest PageVersion.isBase (r.versions key lsn (some b))
      = some ((b.1, .image b.2),
          (r.versions key lsn none).filter fun e => decide (b.1 ≤ e.1)) := by
  rw [versions_base]
  exact latest_orderedInsert rfl (r.versions_sorted key lsn) hno

theorem Distinct.versions_ordered (h : r.Distinct) (key : PageKey) (lsn : Lsn) :
    Ordered (r.versions key lsn none) := by
  rw [versions_eq]
  exact byPos_ordered (versionsOf_nodup h key lsn)

/-- A store answers `NotFound` exactly when it has no base of the page. -/
theorem getPage_notFound_iff (hl : redo.Lawful) :
    r.getPage redo key lsn = .ok .notFound ↔
      ¬ HasBase PageVersion.isBase (r.versions key lsn none) := by
  unfold getPage getPageWithBase
  constructor
  · intro h hb
    have hne := hl.found key lsn _ hb
    cases hr : redo.reconstruct key lsn (r.versions key lsn none) with
    | ok p =>
      cases p with
      | none => exact hne hr
      | some p => rw [hr] at h; exact absurd h (by simp [lookupOf])
    | error e =>
      rw [hr] at h
      cases e <;> exact absurd h (by simp [lookupOf])
  · intro hb
    rw [hl.noBase key lsn _ hb]
    rfl

theorem getPage_of_last_image (hl : redo.Lawful) {page : List UInt8} (l : Lsn) (vs : Versions)
    (hv : r.versions key lsn none = vs ++ [(l, .image page)]) (hp : page.length = PAGE_SIZE) :
    r.getPage redo key lsn = .ok (.page page) := by
  have hlast : latest PageVersion.isBase (r.versions key lsn none)
      = latest PageVersion.isBase [(l, PageVersion.image page)] := by
    rw [hv]
    exact latest_append_of_base ⟨_, List.mem_singleton.mpr rfl, rfl⟩ vs
  unfold getPage getPageWithBase
  rw [hl.fromLatest key lsn lsn _ _ hlast, hl.image _ _ _ _ hp]
  rfl

theorem getPage_congr (hl : redo.Lawful) {r' : Repository} {lsn' : Lsn}
    (h : latest PageVersion.isBase (r.versions key lsn none)
      = latest PageVersion.isBase (r'.versions key lsn' none)) :
    r.getPage redo key lsn = r'.getPage redo key lsn' := by
  unfold getPage getPageWithBase
  rw [hl.fromLatest key lsn lsn' _ _ h]

/-- Two stores that a timeline reading `key` at `lsn` cannot tell apart. -/
structure SameRead (redo : WalRedoManager) (r r' : Repository) (key : PageKey) (lsn : Lsn) :
    Prop where
  own : r.getPage redo key lsn = r'.getPage redo key lsn
  inherited : r'.getPage redo key lsn = .ok .notFound → ∀ base,
    r.getPageWithBase redo key lsn base = r'.getPageWithBase redo key lsn base

theorem sameRead_of_versions {r' : Repository}
    (h : r.versions key lsn none = r'.versions key lsn none) : SameRead redo r r' key lsn := by
  have hall : ∀ base, r.getPageWithBase redo key lsn base = r'.getPageWithBase redo key lsn base := by
    intro base
    unfold getPageWithBase
    cases base with
    | none => rw [h]
    | some b => rw [versions_base, versions_base, h]
  exact ⟨hall none, fun _ => hall⟩

/-- The history of a store with fewer versions is a filtered history. -/
theorem versions_filter {full : Repository} (hd : full.Distinct) (hd' : r.Distinct)
    (hsub : ∀ e ∈ r.contents, e ∈ full.contents) (key : PageKey) (lsn : Lsn) :
    ∃ keep : Lsn × PageVersion → Bool,
      (∀ e, keep e = true ↔ (toLex (key, e.1), e.2) ∈ r.contents) ∧
      r.versions key lsn none = (full.versions key lsn none).filter keep := by
  classical
  refine ⟨fun e => decide ((toLex (key, e.1), e.2) ∈ r.contents),
    fun e => decide_eq_true_iff, ?_⟩
  refine OrdMap.eq_of_mem_iff (hd'.versions_ordered key lsn)
    ((hd.versions_ordered key lsn).filter _) ?_
  intro e
  rw [List.mem_filter, decide_eq_true_iff, mem_versions, mem_versions]
  constructor
  · intro h
    obtain ⟨hr, hle⟩ := h
    exact ⟨⟨hsub _ hr, hle⟩, hr⟩
  · intro h
    obtain ⟨⟨_, hle⟩, hr⟩ := h
    exact ⟨hr, hle⟩

/-- **Missing versions that the read shadows do not matter.** If every version
of `key` missing from `r` lies below a base that `r` has within the read, then
`r` answers as `full` does, on its own and over an inherited base: without an
own base nothing can be missing. -/
theorem sameRead_of_shadow (hl : redo.Lawful) {full : Repository} (hd : full.Distinct)
    (hd' : r.Distinct) (hsub : ∀ e ∈ r.contents, e ∈ full.contents)
    (hshadow : ∀ e ∈ full.contents, e.1.key = key → e.1.lsn ≤ lsn → e ∉ r.contents →
      ∃ b ∈ r.contents, IsBaseUpTo lsn key b ∧ e.1.lsn < b.1.lsn) :
    SameRead redo r full key lsn := by
  obtain ⟨keep, hkeep, heq⟩ := versions_filter hd hd' hsub key lsn
  have hshadow' : ∀ e ∈ full.versions key lsn none, keep e = false →
      ∃ b ∈ full.versions key lsn none, keep b = true ∧ b.2.isBase = true ∧ e.1 < b.1 := by
    intro e he hk
    have hnr : (toLex (key, e.1), e.2) ∉ r.contents := by
      rw [← hkeep e, hk]
      exact Bool.false_ne_true
    obtain ⟨hmem, hle⟩ := mem_versions.mp he
    obtain ⟨⟨s, v⟩, hb, ⟨rfl, hbase, hlsn⟩, hlt⟩ := hshadow _ hmem rfl hle hnr
    exact ⟨(s.lsn, v), mem_versions.mpr ⟨hsub _ hb, hlsn⟩, (hkeep _).mpr hb, hbase, hlt⟩
  refine ⟨getPage_congr hl ?_, ?_⟩
  · rw [heq]
    exact latest_filter (hd.versions_ordered key lsn) hshadow'
  -- a missing version would lie below an own base, and there is none
  · intro hnf base
    have hno := (getPage_notFound_iff hl).mp hnf
    have hsame : r.versions key lsn none = full.versions key lsn none := by
      rw [heq, List.filter_eq_self]
      intro e he
      by_contra hk
      obtain ⟨b, hb, _, hbase, _⟩ := hshadow' e he (by simpa using hk)
      exact hno ⟨b, hb, hbase⟩
    exact (sameRead_of_versions hsame).inherited hnf base

end Repository

/-! ## The pruning relation -/

/-- `r` holds what `full` holds, minus versions that one of its own bases at or
below `floor` shadows. -/
structure Pruned (floor : Lsn) (full r : Repository) : Prop where
  distinct : full.Distinct
  slots : r.Distinct
  sub : ∀ e ∈ r.contents, e ∈ full.contents
  shadow : ∀ e ∈ full.contents, e ∉ r.contents →
    ∃ b ∈ r.contents, Repository.IsBaseUpTo floor e.1.key b ∧ e.1.lsn < b.1.lsn

namespace Pruned

variable {floor : Lsn} {r full : Repository}

theorem refl (h : r.Distinct) : Pruned floor r r :=
  ⟨h, h, fun _ he => he, fun _ he hn => absurd he hn⟩

theorem new (floor : Lsn) (n : Nat) : Pruned floor (Repository.new n) (Repository.new n) :=
  refl (by simp [Repository.Distinct])

/-- Both sides may be rearranged. -/
theorem congr {full' r' : Repository} (h : Pruned floor full r)
    (hf : full'.contents.Perm full.contents) (hr : r'.contents.Perm r.contents) :
    Pruned floor full' r' := by
  refine ⟨(hf.map Prod.fst).nodup_iff.mpr h.distinct, (hr.map Prod.fst).nodup_iff.mpr h.slots,
    ?_, ?_⟩
  · intro e he
    exact hf.mem_iff.mpr (h.sub e (hr.mem_iff.mp he))
  · intro e he hn
    obtain ⟨b, hb, hrest⟩ := h.shadow e (hf.mem_iff.mp he) (fun hc => hn (hr.mem_iff.mpr hc))
    exact ⟨b, hr.mem_iff.mpr hb, hrest⟩

theorem freeze (h : Pruned floor full r) : Pruned floor full.freeze r.freeze :=
  h.congr (Repository.contents_freezeLocked _) (Repository.contents_freezeLocked _)

/-- Ingesting fresh slots into both sides keeps the relation. -/
theorem ingest {mods : List Modification} (h : Pruned floor full r)
    (hnd : (full.contents.map Prod.fst ++ mods.map Modification.slot).Nodup) :
    Pruned floor (full.ingest mods) (r.ingest mods) := by
  obtain ⟨_, hm, hdisj⟩ := List.nodup_append.mp hnd
  have hnd' : (r.contents.map Prod.fst ++ mods.map Modification.slot).Nodup := by
    refine List.nodup_append.mpr ⟨h.slots, hm, ?_⟩
    intro s hs t ht
    obtain ⟨e, he, rfl⟩ := List.mem_map.mp hs
    exact hdisj e.1 (List.mem_map_of_mem (h.sub e he)) t ht
  have hf := Repository.contents_ingest hnd
  have hr := Repository.contents_ingest hnd'
  refine ⟨Repository.distinct_ingest hnd, Repository.distinct_ingest hnd', ?_, ?_⟩
  · intro e he
    rw [hf.mem_iff, List.mem_append]
    exact (List.mem_append.mp (hr.mem_iff.mp he)).imp_left (h.sub e)
  · intro e he hn
    rw [hr.mem_iff, List.mem_append, not_or] at hn
    rcases List.mem_append.mp (hf.mem_iff.mp he) with he | he
    · obtain ⟨b, hb, hrest⟩ := h.shadow e he hn.1
      exact ⟨b, hr.mem_iff.mpr (List.mem_append_left _ hb), hrest⟩
    · exact absurd he hn.2

/-- Compacting the pruned side raises the floor to the horizon. A shadowing base
may itself be pruned; the base that shadows it then takes over. -/
theorem compact {horizon : Lsn} (h : Pruned floor full r) :
    Pruned (max floor horizon) full (r.compact horizon).1 := by
  have hmem : ∀ e, e ∈ (r.compact horizon).1.contents ↔
      e ∈ r.contents ∧ e.1 ∉ r.pruned horizon := fun e => Repository.mem_compact h.slots
  -- whatever lies at or below a slot pruned now is shadowed by a kept base
  have hkept : ∀ (s : Slot), s ∈ r.pruned horizon → ∀ l, l ≤ s.lsn →
      ∃ b ∈ (r.compact horizon).1.contents,
        Repository.IsBaseUpTo (max floor horizon) s.key b ∧ l < b.1.lsn := by
    intro s hs l hl
    obtain ⟨b, hb, hnp, ⟨hk, hbase, hlsn⟩, hlt⟩ := Repository.pruned_shadowed hs
    have hb := Repository.mem_layerEntries_of_merged hb
    exact ⟨b, (hmem b).mpr ⟨List.mem_append_right _ hb, hnp⟩,
      ⟨hk, hbase, hlsn.trans (le_max_right _ _)⟩, lt_of_le_of_lt hl hlt⟩
  refine ⟨h.distinct, ?_, fun e he => h.sub e ((hmem e).mp he).1, ?_⟩
  · exact h.slots.compact
  · intro e he hn
    by_cases her : e ∈ r.contents
    · have hdrop : e.1 ∈ r.pruned horizon := by
        by_contra hnp
        exact hn ((hmem e).mpr ⟨her, hnp⟩)
      exact hkept e.1 hdrop _ le_rfl
    · obtain ⟨b, hb, ⟨hk, hbase, hlsn⟩, hlt⟩ := h.shadow e he her
      by_cases hnp : b.1 ∈ r.pruned horizon
      · obtain ⟨b', hb', ⟨hk', hrest⟩, hlt'⟩ := hkept b.1 hnp _ le_rfl
        exact ⟨b', hb', ⟨hk'.trans hk, hrest⟩, hlt.trans hlt'⟩
      · exact ⟨b, (hmem b).mpr ⟨hb, hnp⟩, ⟨hk, hbase, hlsn.trans (le_max_left _ _)⟩, hlt⟩

/-- **Pruning is invisible at or above the floor.** -/
theorem sameRead {redo : WalRedoManager} (hl : redo.Lawful) (h : Pruned floor full r)
    {key : PageKey} {lsn : Lsn} (hle : floor ≤ lsn) : Repository.SameRead redo r full key lsn := by
  refine Repository.sameRead_of_shadow hl h.distinct h.slots h.sub ?_
  intro e he h _ hn
  subst h
  obtain ⟨b, hb, ⟨hk, hbase, hlsn⟩, hlt⟩ := h.shadow e he hn
  exact ⟨b, hb, ⟨hk, hbase, hlsn.trans hle⟩, hlt⟩

end Pruned

end AethelDB.Pageserver
