import AethelDB.Pageserver.RelSize

/-!
# Two versions under one slot

The source files versions under `(PageKey, Lsn)` and says that LSNs are unique per
write. Nothing enforces it: a second version for a slot replaces the first while
that is still in the memtable, and is kept beside it once it is frozen. A read
then gathers the memtable before the layers and sorts by LSN without touching the
order at one LSN, so of two different versions the frozen one is applied last
until the next freeze, the newer one after it, and compaction keeps the newer one
only.

As long as the versions that a read gathers at one LSN are copies of each other
(`Agreeing`) none of this shows. Their order does not matter, so freezing is
invisible to every backend, and the native backend does not count copies
(`rustApply_ignoresCopies`), so a read depends only on which versions there are.
That gives both results: `freeze_compact_invisible`, and `redelivery_invisible`
for a stream that delivers some modifications again. Relation sizes need an
argument of their own: a redelivered modification finds its own entry, which
already covers its block (`CoversBlock`).
-/

namespace AethelDB.Pageserver

open AethelDB.Lib

variable {r r' : Repository} {key : PageKey} {lsn horizon : Lsn} {redo : WalRedoManager}

namespace Repository

/-- Copies under every slot are copies in every read. -/
theorem agreeing_versions (h : Agreeing r.contents) (key : PageKey) (lsn : Lsn) :
    Agreeing (r.versions key lsn none) := by
  intro a ha b hb hpos
  have heq := h _ (mem_versions.mp ha).1 _ (mem_versions.mp hb).1 (by rw [hpos])
  exact Prod.ext hpos (Prod.ext_iff.mp heq).2

/-- The same versions read the same, whoever stores them and how often. -/
theorem getPage_eq_of_agreeing (hcopies : redo.IgnoresCopies)
    (hagree : Agreeing (r.versions key lsn none))
    (hmem : ∀ e, e ∈ r.versions key lsn none ↔ e ∈ r'.versions key lsn none) :
    r.getPage redo key lsn = r'.getPage redo key lsn := by
  unfold getPage getPageWithBase
  congr 1
  exact eq_of_agreeing (f := redo.reconstruct key lsn) (hcopies key lsn)
    (r.versions_sorted key lsn) (r'.versions_sorted key lsn) hagree hmem

/-! ## Freezing and compaction -/

/-- Freezing changes the order among copies only. -/
theorem versions_freeze (hagree : Agreeing (r.versions key lsn none)) :
    r.freeze.versions key lsn none = r.versions key lsn none := by
  rw [versions_eq] at hagree
  rw [versions_eq, versions_eq]
  refine (byPos_eq_of_agreeing (hagree.of_sub fun e he => ?_)
    (versionsOf_perm (contents_freezeLocked r) key lsn).symm).symm
  exact mem_byPos.mpr he

theorem mem_versions_of_compact {e : Lsn × PageVersion}
    (he : e ∈ (r.compact horizon).1.versions key lsn none) : e ∈ r.versions key lsn none := by
  obtain ⟨hmem, hle⟩ := mem_versions.mp he
  refine mem_versions.mpr ⟨?_, hle⟩
  rw [contents, memtable_compact] at hmem
  rcases List.mem_append.mp hmem with hmem | hmem
  · exact List.mem_append_left _ hmem
  · exact List.mem_append_right _
      (mem_layerEntries_of_merged (mem_layerEntries_compact.mp hmem).1)

/-- A version that compaction takes from a read lies below a base that it leaves. -/
theorem compact_shadows (hagree : Agreeing (r.versions key lsn none)) (hle : horizon ≤ lsn)
    {e : Lsn × PageVersion} (he : e ∈ r.versions key lsn none)
    (hgone : e ∉ (r.compact horizon).1.versions key lsn none) :
    ∃ b ∈ (r.compact horizon).1.versions key lsn none, b.2.isBase = true ∧ e.1 < b.1 := by
  obtain ⟨hmem, hlsn⟩ := mem_versions.mp he
  have hkept : (toLex (key, e.1), e.2) ∉ (r.compact horizon).1.contents :=
    fun h => hgone (mem_versions.mpr ⟨h, hlsn⟩)
  rw [contents, memtable_compact, List.mem_append, not_or, mem_layerEntries_compact] at hkept
  have hlayer := (List.mem_append.mp hmem).resolve_left hkept.1
  -- the merge keeps some version of the slot, which is a copy of `e`
  obtain ⟨v, hv⟩ := exists_merged hlayer
  have hcopy : (e.1, v) = e := by
    refine hagree (e.1, v) (mem_versions.mpr ⟨?_, hlsn⟩) e he rfl
    exact List.mem_append_right _ (mem_layerEntries_of_merged hv)
  have hmerged : (toLex (key, e.1), e.2) ∈ (mergeLayers r.layers).entries := by
    rw [← hcopy]
    exact hv
  have hpruned : toLex (key, e.1) ∈ r.pruned horizon := by
    by_contra hnot
    exact hkept.2 ⟨hmerged, hnot⟩
  obtain ⟨⟨s, w⟩, hb, hnot, ⟨hkey, hbase, hhor⟩, hlt⟩ := pruned_shadowed hpruned
  have hkey : s.key = key := hkey
  refine ⟨(s.lsn, w), mem_versions.mpr ⟨?_, hhor.trans hle⟩, hbase, hlt⟩
  rw [← hkey]
  exact List.mem_append_right _ (mem_layerEntries_compact.mpr ⟨hb, hnot⟩)

/-- Compacting at or below the read is invisible where versions at one LSN are
copies. -/
theorem getPage_compact (hl : redo.Lawful) (hcopies : redo.IgnoresCopies)
    (hagree : Agreeing (r.versions key lsn none)) (hle : horizon ≤ lsn) :
    (r.compact horizon).1.getPage redo key lsn = r.getPage redo key lsn := by
  have hsub : ∀ e ∈ (r.compact horizon).1.versions key lsn none, e ∈ r.versions key lsn none :=
    fun e => mem_versions_of_compact
  -- both histories without copies
  obtain ⟨full, hfull, hmem, hread⟩ :=
    exists_ordered_of_agreeing (f := redo.reconstruct key lsn) (hcopies key lsn)
      (r.versions_sorted key lsn) hagree
  obtain ⟨kept, hkept, hmem', hread'⟩ :=
    exists_ordered_of_agreeing (f := redo.reconstruct key lsn) (hcopies key lsn)
      ((r.compact horizon).1.versions_sorted key lsn) (hagree.of_sub hsub)
  have hfilter : kept = full.filter fun e => decide (e ∈ kept) := by
    refine OrdMap.eq_of_mem_iff hkept (hfull.filter _) fun e => ?_
    rw [List.mem_filter, decide_eq_true_iff, hmem]
    exact ⟨fun he => ⟨hsub e ((hmem' e).mp he), he⟩, fun he => he.2⟩
  have hlatest : latest PageVersion.isBase kept = latest PageVersion.isBase full := by
    rw [hfilter]
    refine latest_filter hfull fun e he hgone => ?_
    have hgone : e ∉ kept := of_decide_eq_false hgone
    rw [hmem'] at hgone
    obtain ⟨b, hb, hbase, hlt⟩ := compact_shadows hagree hle ((hmem e).mp he) hgone
    exact ⟨b, (hmem b).mpr (hsub b hb), decide_eq_true ((hmem' b).mpr hb), hbase, hlt⟩
  have hfullRead := hread []
  have hkeptRead := hread' []
  rw [List.nil_append, List.nil_append] at hfullRead hkeptRead
  unfold getPage getPageWithBase
  rw [hkeptRead, hfullRead, hl.fromLatest key lsn lsn _ _ hlatest]

end Repository

namespace Repository

/-- Filing a version where only copies of it are filed adds it, once or again. -/
theorem mem_contents_ingestOne {m : Modification}
    (hagree : ∀ v, (m.slot, v) ∈ r.contents → v = m.version) {e : Slot × PageVersion} :
    e ∈ (r.ingestOne m).contents ↔ e ∈ r.contents ∨ e = m.entry := by
  have hins : e ∈ ((r.trackRelSize m).insertVersion m).contents ↔ e ∈ r.contents ∨ e = m.entry := by
    show e ∈ (OrdMap.insert m.slot m.version r.memtable).entries ++ r.layerEntries ↔ _
    rw [contents, List.mem_append, List.mem_append, OrdMap.mem_insert]
    constructor
    · rintro ((rfl | ⟨he, -⟩) | he)
      · exact Or.inr rfl
      · exact Or.inl (Or.inl he)
      · exact Or.inl (Or.inr he)
    · rintro ((he | he) | he)
      · by_cases hslot : e.1 = m.slot
        · refine Or.inl (Or.inl (Prod.ext hslot (hagree e.2 ?_)))
          rw [← hslot]
          exact List.mem_append_left _ he
        · exact Or.inl (Or.inr ⟨he, hslot⟩)
      · exact Or.inr he
      · exact Or.inl (Or.inl he)
  rw [← hins]
  simp only [ingestOne]
  split
  · exact (contents_freezeLocked _).mem_iff
  · exact Iff.rfl

theorem mem_contents_ingest {e : Slot × PageVersion} :
    ∀ {mods : List Modification} {r : Repository},
      Agreeing (r.contents ++ mods.map Modification.entry) →
      (e ∈ (r.ingest mods).contents ↔ e ∈ r.contents ++ mods.map Modification.entry) := by
  intro mods
  induction mods with
  | nil => intro r _; simp [ingest]
  | cons m mods ih =>
    intro r hagree
    have hm : m.entry ∈ r.contents ++ (m :: mods).map Modification.entry :=
      List.mem_append_right _ List.mem_cons_self
    have hone : ∀ {e}, e ∈ (r.ingestOne m).contents ↔ e ∈ r.contents ∨ e = m.entry := by
      refine mem_contents_ingestOne fun v hv => ?_
      exact (Prod.ext_iff.mp (hagree _ (List.mem_append_left _ hv) _ hm rfl)).2
    have hmem : ∀ e, e ∈ (r.ingestOne m).contents ++ mods.map Modification.entry ↔
        e ∈ r.contents ++ (m :: mods).map Modification.entry := by
      intro e
      rw [List.mem_append, hone, List.mem_append, List.map_cons, List.mem_cons, or_assoc]
    show e ∈ ((r.ingestOne m).ingest mods).contents ↔ _
    rw [ih (hagree.of_sub fun e he => (hmem e).mp he), hmem]

end Repository

theorem mem_contents_step {op : RepoOp}
    (hagree : Agreeing (r.contents ++ op.mods.map Modification.entry)) {e : Slot × PageVersion} :
    e ∈ (op.step r).contents ↔ e ∈ r.contents ++ op.mods.map Modification.entry := by
  cases op with
  | ingest ms => exact Repository.mem_contents_ingest hagree
  | freeze =>
    show e ∈ r.freezeLocked.contents ↔ e ∈ r.contents ++ []
    rw [List.append_nil]
    exact (Repository.contents_freezeLocked r).mem_iff

/-- A run in which a slot is only ever filed with one version holds exactly what was
delivered. -/
theorem mem_contents_runOps (freezeThreshold : Nat) {ops : List RepoOp}
    (hagree : Agreeing ((ops.flatMap RepoOp.mods).map Modification.entry))
    {e : Slot × PageVersion} :
    e ∈ (runOps freezeThreshold ops).contents ↔
      e ∈ (ops.flatMap RepoOp.mods).map Modification.entry := by
  induction ops using List.reverseRecOn generalizing e with
  | nil => exact Iff.rfl
  | append_singleton ops op ih =>
    rw [List.flatMap_append, List.map_append, List.flatMap_singleton] at hagree ⊢
    have hbefore : ∀ {e}, e ∈ (runOps freezeThreshold ops).contents ↔
        e ∈ (ops.flatMap RepoOp.mods).map Modification.entry :=
      ih (hagree.of_sub fun e => List.mem_append_left _)
    rw [runOps, List.foldl_append, List.foldl_cons, List.foldl_nil]
    refine (mem_contents_step (hagree.of_sub fun e he => ?_)).trans ?_
    · rw [List.mem_append] at he ⊢
      exact he.imp_left hbefore.mp
    · rw [List.mem_append, List.mem_append]
      exact or_congr_left hbefore

/-! ### Relation sizes -/

variable {m : Modification}

/-- The entry at the LSN of `m` says that the fork reaches past the block of `m`. -/
def CoversBlock (r : Repository) (m : Modification) : Prop :=
  ∃ size, (toLex (m.rel, m.lsn), size) ∈ r.relSizes.entries ∧ m.block + 1 ≤ size

theorem coversBlock_ingestOne (r : Repository) (m : Modification) :
    CoversBlock (r.ingestOne m) m := by
  refine ⟨_, Repository.mem_relSizes_ingestOne.mpr (Or.inl rfl), ?_⟩
  rw [UInt32.le_iff_toNat_le, UInt32.toNat_max]
  exact Nat.le_max_right _ _

theorem CoversBlock.ingestOne (h : CoversBlock r m) (m' : Modification) :
    CoversBlock (r.ingestOne m') m := by
  obtain ⟨size, hmem, hle⟩ := h
  by_cases hslot : toLex (m.rel, m.lsn) = toLex (m'.rel, m'.lsn)
  · refine ⟨_, Repository.mem_relSizes_ingestOne.mpr (Or.inl (Prod.ext hslot rfl)), ?_⟩
    rw [hslot] at hmem
    rw [Repository.getRelSize_of_mem hmem, UInt32.le_iff_toNat_le, UInt32.toNat_max]
    exact (UInt32.le_iff_toNat_le.mp hle).trans (Nat.le_max_left _ _)
  · exact ⟨size, Repository.mem_relSizes_ingestOne.mpr (Or.inr ⟨hmem, hslot⟩), hle⟩

/-- A modification that is covered leaves the sizes as they are: the entry in force at
its LSN is its own. -/
theorem CoversBlock.relSizes_ingestOne (h : CoversBlock r m) :
    (r.ingestOne m).relSizes = r.relSizes := by
  obtain ⟨size, hmem, hle⟩ := h
  rw [AgreeUpTo.relSizes_ingestOne]
  simp only [Repository.trackRelSize, Repository.getRelSize_of_mem hmem,
    OrdMap.lookup_eq_some_iff.mpr hmem, Option.getD_some]
  have hmax : max size (max size (m.block + 1)) = size := by
    rw [UInt32.le_iff_toNat_le] at hle
    rw [← UInt32.toNat_inj, UInt32.toNat_max, UInt32.toNat_max]
    omega
  rw [hmax]
  exact OrdMap.insert_of_mem hmem

theorem relSizes_ingestOne_congr (h : r.relSizes = r'.relSizes) (m : Modification) :
    (r.ingestOne m).relSizes = (r'.ingestOne m).relSizes := by
  rw [AgreeUpTo.relSizes_ingestOne, AgreeUpTo.relSizes_ingestOne]
  simp only [Repository.trackRelSize, Repository.getRelSize, h]

/-! ### Runs with and without the repetitions -/

/-- The modifications of a batch that are not in `seen`, each at its first position. -/
def firstOf (seen : List Modification) : List Modification → List Modification
  | [] => []
  | m :: ms => if m ∈ seen then firstOf seen ms else m :: firstOf (m :: seen) ms

/-- The operations with each modification delivered only once, at its first
position, and those in `seen` not at all. -/
def once (seen : List Modification) : List RepoOp → List RepoOp
  | [] => []
  | .ingest ms :: ops => .ingest (firstOf seen ms) :: once (ms ++ seen) ops
  | .freeze :: ops => .freeze :: once seen ops

theorem mem_firstOf : ∀ {ms seen : List Modification}, m ∈ firstOf seen ms ↔ m ∈ ms ∧ m ∉ seen := by
  intro ms
  induction ms with
  | nil => simp [firstOf]
  | cons a ms ih =>
    intro seen
    rw [firstOf]
    split
    · next ha =>
      rw [ih, List.mem_cons]
      refine and_congr_left fun hm => ⟨Or.inr, fun h => h.resolve_left fun heq => hm (heq ▸ ha)⟩
    · next ha =>
      rw [List.mem_cons, ih, List.mem_cons, List.mem_cons]
      by_cases hma : m = a
      · subst hma
        simp [ha]
      · simp [hma]

theorem mem_mods_once :
    ∀ {ops : List RepoOp} {seen : List Modification},
      m ∈ (once seen ops).flatMap RepoOp.mods ↔ m ∈ ops.flatMap RepoOp.mods ∧ m ∉ seen := by
  intro ops
  induction ops with
  | nil => simp [once]
  | cons op ops ih =>
    intro seen
    cases op with
    | freeze => exact ih
    | ingest ms =>
      rw [once, List.flatMap_cons, List.flatMap_cons, List.mem_append, List.mem_append, ih]
      show m ∈ firstOf seen ms ∨ _ ↔ (m ∈ ms ∨ _) ∧ _
      rw [mem_firstOf, List.mem_append]
      tauto

theorem relSizes_ingest_firstOf :
    ∀ {ms seen : List Modification} {r r' : Repository}, r.relSizes = r'.relSizes →
      (∀ m ∈ seen, CoversBlock r m) →
      (r.ingest ms).relSizes = (r'.ingest (firstOf seen ms)).relSizes ∧
        ∀ m ∈ ms ++ seen, CoversBlock (r.ingest ms) m := by
  intro ms
  induction ms with
  | nil => exact fun h hseen => ⟨h, hseen⟩
  | cons a ms ih =>
    intro seen r r' h hseen
    -- whether `a` is new or not, it is covered after this step
    have hseen' : ∀ m ∈ a :: seen, CoversBlock (r.ingestOne a) m := by
      intro m hm
      rcases List.mem_cons.mp hm with rfl | hm
      · exact coversBlock_ingestOne r m
      · exact (hseen m hm).ingestOne a
    have hcover : ∀ m ∈ a :: ms ++ seen, m ∈ ms ++ a :: seen := by
      intro m hm
      simp only [List.cons_append, List.mem_cons, List.mem_append] at hm ⊢
      tauto
    rw [firstOf]
    split
    · next ha =>
      have hsame : (r.ingestOne a).relSizes = r'.relSizes :=
        (hseen a ha).relSizes_ingestOne.trans h
      have hstep := ih hsame fun m hm => hseen' m (List.mem_cons_of_mem _ hm)
      refine ⟨hstep.1, fun m hm => hstep.2 m ?_⟩
      have hm := hcover m hm
      simp only [List.mem_append, List.mem_cons] at hm ⊢
      rcases hm with hm | rfl | hm
      · exact Or.inl hm
      · exact Or.inr ha
      · exact Or.inr hm
    · obtain ⟨hsizes, hcovers⟩ := ih (relSizes_ingestOne_congr h a) hseen'
      exact ⟨hsizes, fun m hm => hcovers m (hcover m hm)⟩

theorem relSizes_freeze (r : Repository) : r.freeze.relSizes = r.relSizes := by
  unfold Repository.freeze Repository.freezeLocked
  split <;> rfl

theorem relSizes_once :
    ∀ {ops : List RepoOp} {seen : List Modification} {r r' : Repository},
      r.relSizes = r'.relSizes → (∀ m ∈ seen, CoversBlock r m) →
      (ops.foldl RepoOp.step r).relSizes = ((once seen ops).foldl RepoOp.step r').relSizes := by
  intro ops
  induction ops with
  | nil => exact fun h _ => h
  | cons op ops ih =>
    intro seen r r' h hseen
    cases op with
    | freeze =>
      have hsizes : r.freeze.relSizes = r'.freeze.relSizes := by
        rw [relSizes_freeze, relSizes_freeze, h]
      have hcovers : ∀ m ∈ seen, CoversBlock r.freeze m := by
        intro m hm
        rw [CoversBlock, relSizes_freeze]
        exact hseen m hm
      exact ih hsizes hcovers
    | ingest ms =>
      obtain ⟨hsizes, hcovers⟩ : (r.ingest ms).relSizes = (r'.ingest (firstOf seen ms)).relSizes ∧
          ∀ m ∈ ms ++ seen, CoversBlock (r.ingest ms) m := relSizes_ingest_firstOf h hseen
      exact ih hsizes hcovers

/-- **At-least-once delivery.** In a sequence of batches and freezes where different
modifications have different slots, delivering modifications again changes no read of
the native backend and no relation size. -/
theorem redelivery_invisible (freezeThreshold : Nat) (ops : List RepoOp)
    (hslots : ∀ m ∈ ops.flatMap RepoOp.mods, ∀ m' ∈ ops.flatMap RepoOp.mods,
      m.slot = m'.slot → m = m') :
    (∀ key lsn, (runOps freezeThreshold ops).getPage rustApply key lsn
      = (runOps freezeThreshold (once [] ops)).getPage rustApply key lsn) ∧
    ∀ rel lsn, (runOps freezeThreshold ops).getRelSize rel lsn
      = (runOps freezeThreshold (once [] ops)).getRelSize rel lsn := by
  have hmods : ∀ m, m ∈ (once [] ops).flatMap RepoOp.mods ↔ m ∈ ops.flatMap RepoOp.mods := by
    intro m
    rw [mem_mods_once]
    exact and_iff_left List.not_mem_nil
  have hagree : Agreeing ((ops.flatMap RepoOp.mods).map Modification.entry) := by
    intro a ha b hb hslot
    obtain ⟨m, hm, rfl⟩ := List.mem_map.mp ha
    obtain ⟨m', hm', rfl⟩ := List.mem_map.mp hb
    rw [hslots m hm m' hm' hslot]
  have hentries : ∀ e, e ∈ ((once [] ops).flatMap RepoOp.mods).map Modification.entry ↔
      e ∈ (ops.flatMap RepoOp.mods).map Modification.entry := by
    intro e
    rw [List.mem_map, List.mem_map]
    exact exists_congr fun m => and_congr_left fun _ => hmods m
  have hcontents : ∀ e, e ∈ (runOps freezeThreshold ops).contents ↔
      e ∈ (runOps freezeThreshold (once [] ops)).contents := by
    intro e
    rw [mem_contents_runOps freezeThreshold hagree,
      mem_contents_runOps freezeThreshold (hagree.of_sub fun e he => (hentries e).mp he), hentries]
  constructor
  · intro key lsn
    refine Repository.getPage_eq_of_agreeing rustApply_ignoresCopies ?_ fun e => ?_
    · refine Repository.agreeing_versions (hagree.of_sub fun e he => ?_) key lsn
      exact (mem_contents_runOps freezeThreshold hagree).mp he
    · rw [Repository.mem_versions, Repository.mem_versions, hcontents]
  · intro rel lsn
    have hsizes : (runOps freezeThreshold ops).relSizes
        = (runOps freezeThreshold (once [] ops)).relSizes :=
      relSizes_once rfl fun m hm => absurd hm List.not_mem_nil
    rw [Repository.getRelSize, Repository.getRelSize, hsizes]

/-- A delta delivered before and after a freeze, with a later block in between. -/
theorem redelivery_invisible_sample :
    (runOps 4 [.ingest [deltaSample 10 1, deltaSample 20 7], .freeze,
        .ingest [⟨relSample, 5, 30, .delta []⟩, deltaSample 20 7]]).getRelSize relSample 30
      = (runOps 4 [.ingest [deltaSample 10 1, deltaSample 20 7], .freeze,
        .ingest [⟨relSample, 5, 30, .delta []⟩]]).getRelSize relSample 30 :=
  (redelivery_invisible 4 [.ingest [deltaSample 10 1, deltaSample 20 7], .freeze,
    .ingest [⟨relSample, 5, 30, .delta []⟩, deltaSample 20 7]] (by decide)).2 relSample 30

end AethelDB.Pageserver
