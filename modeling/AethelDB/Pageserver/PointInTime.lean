import AethelDB.Pageserver.UsedVersions
import AethelDB.Pageserver.VersionLog

/-!
# Which modifications a point-in-time read depends on

Two stores *agree up to* `L` when they hold the same page versions and relation
sizes at every LSN up to `L`; what either holds above `L` is free. Dropping the
modifications above `L` from a batch leaves the stores in agreement
(`AgreeUpTo.ingest_filter`), so this is the relation between two histories that
differ only in the future of `L`.

A store's own read at `L` respects the relation. A timeline's read does not
always: it reads each ancestor at a branch point, which may lie above `L`.
`reads_ignore_future_iff` says that this is the only way the future gets in.
-/

namespace AethelDB.Pageserver

open AethelDB.Lib

/-- The same relation sizes recorded up to `lsn`. -/
def RelSizesAgree (lsn : Lsn) (r r' : Repository) : Prop :=
  ∀ rel l n, l ≤ lsn →
    ((toLex (rel, l), n) ∈ r.relSizes.entries ↔ (toLex (rel, l), n) ∈ r'.relSizes.entries)

/-- The same history up to `lsn`, in the same order under each slot. -/
structure AgreeUpTo (lsn : Lsn) (r r' : Repository) : Prop where
  pages : ∀ s : Slot, s.lsn ≤ lsn → fiber s r.contents = fiber s r'.contents
  relSizes : RelSizesAgree lsn r r'

theorem versionsOf_fiber (c : List (Slot × PageVersion)) (key : PageKey) (lsn p : Lsn) :
    fiber p (versionsOf c key lsn)
      = if p ≤ lsn then (fiber (toLex (key, p)) c).map toVersion else [] := by
  unfold versionsOf fiber
  rw [List.filter_map, List.filter_filter]
  split
  · next hp =>
    congr 1
    refine List.filter_congr ?_
    intro e _
    show (decide (e.1.lsn = p) && decide (e.1.key = key ∧ e.1.lsn ≤ lsn)) = _
    rw [← Bool.decide_and, decide_eq_decide]
    constructor
    · intro h
      obtain ⟨hlsn, hkey, _⟩ := h
      exact Slot.ext hkey hlsn
    · intro he
      rw [he]
      exact ⟨rfl, rfl, hp⟩
  · next hp =>
    rw [List.map_eq_nil_iff, List.filter_eq_nil_iff]
    intro e _
    show ¬ (decide (e.1.lsn = p) && decide (e.1.key = key ∧ e.1.lsn ≤ lsn)) = true
    rw [← Bool.decide_and, decide_eq_true_iff]
    intro h
    obtain ⟨hlsn, _, hle⟩ := h
    exact hp (hlsn ▸ hle)

theorem RelSizesAgree.getRelSize_eq {L : Lsn} {r r' : Repository} (h : RelSizesAgree L r r') {lsn : Lsn}
    (hle : lsn ≤ L) (rel : RelTag) :
    r.getRelSize rel lsn = r'.getRelSize rel lsn := by
  unfold Repository.getRelSize
  congr 2
  refine OrdMap.eq_of_mem_iff (OrdMap.range_sorted _ _ _) (OrdMap.range_sorted _ _ _) ?_
  rintro ⟨s, n⟩
  rw [OrdMap.mem_range, OrdMap.mem_range]
  refine and_congr_left fun h' => ?_
  exact h (ofLex s).1 (ofLex s).2 n ((lex_between.mp h').2.trans hle)

namespace AgreeUpTo

variable {L : Lsn} {r r' : Repository}

theorem refl (L : Lsn) (r : Repository) : AgreeUpTo L r r :=
  ⟨fun _ _ => rfl, fun _ _ _ _ => Iff.rfl⟩

/-- Stores in agreement hand the same history to redo. -/
theorem sameRead (h : AgreeUpTo L r r') {lsn : Lsn} (hle : lsn ≤ L) (redo : WalRedoManager)
    (key : PageKey) : Repository.SameRead redo r r' key lsn := by
  refine Repository.sameRead_of_versions ?_
  rw [Repository.versions_eq, Repository.versions_eq]
  refine byPos_eq_of_fibers ?_
  intro p
  show fiber p (versionsOf r.contents key lsn) = fiber p (versionsOf r'.contents key lsn)
  rw [versionsOf_fiber, versionsOf_fiber]
  split
  · next hp => rw [h.pages _ (show Slot.lsn (toLex (key, p)) ≤ L from hp.trans hle)]
  · rfl

/-! ### Dropping the future from a batch -/

/-- With distinct slots, agreement is about membership alone. -/
theorem of_mem (hd : r.Distinct) (hd' : r'.Distinct)
    (hp : ∀ e : Slot × PageVersion, e.1.lsn ≤ L → (e ∈ r.contents ↔ e ∈ r'.contents))
    (hr : RelSizesAgree L r r') : AgreeUpTo L r r' := by
  refine ⟨?_, hr⟩
  intro s hs
  -- each fiber has at most one entry, so equal sets are equal lists
  have hsub : ∀ {q : Repository}, q.Distinct → (fiber s q.contents).Pairwise (fun _ _ => False) := by
    intro q hq
    rw [Repository.Distinct, List.Nodup, List.pairwise_map] at hq
    refine (hq.filter _).imp_of_mem ?_
    intro a b ha hb hne
    exact hne ((mem_fiber.mp ha).2.trans (mem_fiber.mp hb).2.symm)
  have hnd : ∀ {q : Repository}, q.Distinct → (fiber s q.contents).Nodup :=
    fun hq => (hsub hq).imp fun h => h.elim
  have hperm : (fiber s r.contents).Perm (fiber s r'.contents) := by
    rw [List.perm_ext_iff_of_nodup (hnd hd) (hnd hd')]
    intro e
    rw [mem_fiber, mem_fiber]
    refine and_congr_left fun he => hp e ?_
    rw [he]
    exact hs
  exact hperm.eq_of_pairwise (fun _ _ _ _ h _ => h.elim) (hsub hd) (hsub hd')

theorem relSizes_ingestOne (r : Repository) (m : Modification) :
    (r.ingestOne m).relSizes = (r.trackRelSize m).relSizes := by
  simp only [Repository.ingestOne, Repository.freezeLocked]
  split <;> (try split) <;> rfl

/-- Relation sizes up to `L` do not see a modification above `L`. -/
theorem relSizes_future {m : Modification} (hm : ¬ m.lsn ≤ L) (h : RelSizesAgree L r r') :
    RelSizesAgree L (r.ingestOne m) r' := by
  intro rel l n hl
  have hne : toLex (rel, l) ≠ toLex (m.rel, m.lsn) := by
    intro he
    have hsnd : l = m.lsn := congrArg (fun x => (ofLex x).2) he
    exact hm (hsnd ▸ hl)
  rw [relSizes_ingestOne, ← h rel l n hl]
  show _ ∈ (OrdMap.insert _ _ _).entries ↔ _
  rw [OrdMap.mem_insert]
  constructor
  · intro h
    rcases h with he | he
    · exact absurd (congrArg Prod.fst he) hne
    · exact he.1
  · exact fun he => Or.inr ⟨he, hne⟩

theorem relSizes_present {m : Modification} (hm : m.lsn ≤ L) (h : RelSizesAgree L r r') :
    RelSizesAgree L (r.ingestOne m) (r'.ingestOne m) := by
  intro rel l n hl
  have hlook : OrdMap.lookup (toLex (m.rel, m.lsn)) r.relSizes
      = OrdMap.lookup (toLex (m.rel, m.lsn)) r'.relSizes :=
    OrdMap.lookup_congr fun v => h m.rel m.lsn v hm
  rw [relSizes_ingestOne, relSizes_ingestOne]
  simp only [Repository.trackRelSize]
  rw [h.getRelSize_eq hm, hlook, OrdMap.mem_insert, OrdMap.mem_insert, h rel l n hl]

theorem relSizes_ingest_filter :
    ∀ {mods : List Modification} {r r' : Repository}, RelSizesAgree L r r' →
      RelSizesAgree L (r.ingest mods)
        (r'.ingest (mods.filter fun m => decide (m.lsn ≤ L))) := by
  intro mods
  induction mods with
  | nil => exact fun h => h
  | cons m mods ih =>
    intro r r' h
    by_cases hm : m.lsn ≤ L
    · rw [List.filter_cons_of_pos (by simpa using hm)]
      exact ih (relSizes_present hm h)
    · rw [List.filter_cons_of_neg (by simpa using hm)]
      exact ih (relSizes_future hm h)

/-- **Leaving out the modifications above `L`** from a batch of fresh slots keeps
the stores in agreement up to `L`. -/
theorem ingest_filter (h : AgreeUpTo L r r') (hd' : r'.Distinct) {mods : List Modification}
    (hnd : (r.contents.map Prod.fst ++ mods.map Modification.slot).Nodup) :
    AgreeUpTo L (r.ingest mods) (r'.ingest (mods.filter fun m => decide (m.lsn ≤ L))) := by
  obtain ⟨hd, hm, hdisj⟩ := List.nodup_append.mp hnd
  have hmem : ∀ e : Slot × PageVersion, e.1.lsn ≤ L → (e ∈ r.contents ↔ e ∈ r'.contents) := by
    intro e he
    have hf := h.pages e.1 he
    have hiff : e ∈ fiber e.1 r.contents ↔ e ∈ fiber e.1 r'.contents := by rw [hf]
    rw [mem_fiber, mem_fiber] at hiff
    simpa using hiff
  -- freshness is assumed of `r` only; up to `L` the two stores have the same slots
  have hnd' : (r'.contents.map Prod.fst
      ++ (mods.filter fun m => decide (m.lsn ≤ L)).map Modification.slot).Nodup := by
    refine List.nodup_append.mpr ⟨hd', hm.sublist (List.filter_sublist.map _), ?_⟩
    intro s hs s' hs' heq
    obtain ⟨e, he, rfl⟩ := List.mem_map.mp hs
    obtain ⟨m, hmm, rfl⟩ := List.mem_map.mp hs'
    obtain ⟨hmm, hle⟩ := List.mem_filter.mp hmm
    have hel : e.1.lsn ≤ L := by
      rw [heq]
      exact of_decide_eq_true hle
    exact hdisj e.1 (List.mem_map_of_mem ((hmem e hel).mpr he)) m.slot
      (List.mem_map_of_mem hmm) heq
  have hc := Repository.contents_ingest hnd
  have hc' := Repository.contents_ingest hnd'
  refine of_mem (Repository.distinct_ingest hnd) (Repository.distinct_ingest hnd') ?_
    (relSizes_ingest_filter h.relSizes)
  intro e he
  rw [hc.mem_iff, hc'.mem_iff, List.mem_append, List.mem_append, hmem e he]
  refine or_congr_right ?_
  rw [List.mem_map, List.mem_map]
  constructor
  · intro h
    obtain ⟨m, hm, rfl⟩ := h
    exact ⟨m, List.mem_filter.mpr ⟨hm, decide_eq_true he⟩, rfl⟩
  · intro h
    obtain ⟨m, hm, rfl⟩ := h
    exact ⟨m, (List.mem_filter.mp hm).1, rfl⟩

end AgreeUpTo

namespace Timeline

/-- The branch points between a timeline and its root. -/
def branchPoints : Timeline → List Lsn
  | root _ => []
  | branched _ parent ancestorLsn => ancestorLsn :: parent.branchPoints

/-- The timelines a read on `t` may visit. -/
def chain : Timeline → List TimelineId
  | root id => [id]
  | branched id parent _ => id :: parent.chain

/-- With the branch points at or below `L`, every store on the chain is read
there. -/
theorem eachRead_of_branchPoints {P : TimelineId → Lsn → Prop} {L : Lsn} :
    ∀ {t : Timeline} {lsn : Lsn}, (∀ id ∈ t.chain, ∀ l ≤ L, P id l) →
      (∀ a ∈ t.branchPoints, a ≤ L) → lsn ≤ L → t.EachRead P lsn := by
  intro t
  induction t with
  | root id =>
    intro lsn hP _ hle
    exact hP id (by simp [chain]) lsn hle
  | branched id p a ih =>
    intro lsn hP hbp hle
    refine ⟨hP id (by simp [chain]) lsn hle, ?_⟩
    exact ih (fun i hi => hP i (List.mem_cons_of_mem _ hi))
      (fun b hb => hbp b (List.mem_cons_of_mem _ hb)) (hbp a (List.mem_cons_self ..))

theorem getRelSize_eq_of_each {repos repos' : Stores} {rel : RelTag} :
    ∀ {t : Timeline} {lsn : Lsn},
      t.EachRead (fun id l => (repos id).getRelSize rel l = (repos' id).getRelSize rel l) lsn →
      t.getRelSize repos rel lsn = t.getRelSize repos' rel lsn := by
  intro t
  induction t with
  | root id => exact fun h => h
  | branched id p a ih =>
    intro lsn h
    rw [getRelSize, getRelSize, h.1, ih h.2]

theorem not_found_of_empty {repos : Stores} {key : PageKey} (h : ∀ id, (repos id).contents = []) :
    ∀ {t : Timeline} {lsn : Lsn}, ¬ t.Found repos key lsn := by
  have hno : ∀ id l, ¬ HasBase PageVersion.isBase ((repos id).versions key l none) := by
    intro id l h
    obtain ⟨e, he, _⟩ := h
    rw [Repository.versions_of_empty (h id)] at he
    exact List.not_mem_nil he
  intro t
  induction t with
  | root id => exact hno id _
  | branched id p a ih => exact fun hf => hf.elim (hno id _) ih

/-- A branch point in the future of `L` lets an image in an ancestor's store,
also in the future of `L`, be found at `L`. -/
theorem found_of_future_branchPoint {L : Lsn} :
    ∀ {t : Timeline} {lsn : Lsn}, lsn ≤ L → (∃ a ∈ t.branchPoints, ¬ a ≤ L) →
      ∃ id ∈ t.chain, ∃ a, ¬ a ≤ L ∧ ∀ (repos : Stores) (key : PageKey) (img : List UInt8),
        (toLex (key, a), PageVersion.image img) ∈ (repos id).contents →
        t.Found repos key lsn := by
  intro t
  induction t with
  | root id =>
    intro lsn _ h
    obtain ⟨a, ha, _⟩ := h
    nomatch ha
  | branched id p b ih =>
    intro lsn hle h
    obtain ⟨a, ha, hgt⟩ := h
    by_cases hb : b ≤ L
    · have ha' : a ∈ p.branchPoints := by
        rcases List.mem_cons.mp ha with rfl | ha
        · exact absurd hb hgt
        · exact ha
      obtain ⟨i, hi, c, hc, hread⟩ := ih hb ⟨a, ha', hgt⟩
      exact ⟨i, List.mem_cons_of_mem _ hi, c, hc,
        fun repos key img hmem => Or.inr (hread repos key img hmem)⟩
    · -- the parent is read at `b`, above `L`
      refine ⟨p.id, by cases p <;> simp [chain, Timeline.id], b, hb, ?_⟩
      intro repos key img hmem
      have hown : HasBase PageVersion.isBase ((repos p.id).versions key b none) :=
        ⟨(b, .image img), Repository.mem_versions.mpr ⟨hmem, le_rfl⟩, rfl⟩
      cases p with
      | root q => exact Or.inr hown
      | branched q pp c => exact Or.inr (Or.inl hown)

/-- Empty stores, except for one modification written to `id`. -/
def written (id : TimelineId) (m : Modification) : Stores :=
  Function.update (fun _ => Repository.new 4) id ((Repository.new 4).ingest [m])

/-- One modification above `L` is no difference up to `L`. -/
theorem agree_written {L : Lsn} {m : Modification} (hgt : ¬ m.lsn ≤ L) (id i : TimelineId) :
    AgreeUpTo L (written id m i) (Repository.new 4) := by
  unfold written
  by_cases hi : i = id
  · have hdrop : [m].filter (fun m => decide (m.lsn ≤ L)) = [] := by
      rw [List.filter_eq_nil_iff]
      intro m' hm' hle
      rw [List.mem_singleton.mp hm'] at hle
      exact hgt (of_decide_eq_true hle)
    have hnd : ((Repository.new 4).contents.map Prod.fst ++ [m].map Modification.slot).Nodup := by
      simp
    have hfilter := (AgreeUpTo.refl L (Repository.new 4)).ingest_filter
      (by simp [Repository.Distinct]) hnd
    rw [hdrop] at hfilter
    rw [hi, Function.update_self]
    exact hfilter
  · rw [Function.update_of_ne hi]
    exact AgreeUpTo.refl L _

theorem mem_written (id : TimelineId) (m : Modification) :
    m.entry ∈ (written id m id).contents := by
  have hnd : ((Repository.new 4).contents.map Prod.fst ++ [m].map Modification.slot).Nodup := by
    simp
  rw [written, Function.update_self]
  exact (Repository.contents_ingest hnd).mem_iff.mpr (List.mem_singleton.mpr rfl)

/-- **A point-in-time read ignores the future exactly when no branch point on
the chain lies in it.** -/
theorem reads_ignore_future_iff {redo : WalRedoManager} (hl : redo.Lawful) (t : Timeline)
    (L : Lsn) :
    (∀ repos repos' : Stores, (∀ id ∈ t.chain, AgreeUpTo L (repos id) (repos' id)) →
        ∀ key rel, t.getPage redo repos key L = t.getPage redo repos' key L
          ∧ t.getRelSize repos rel L = t.getRelSize repos' rel L)
      ↔ ∀ a ∈ t.branchPoints, a ≤ L := by
  constructor
  · intro h
    by_contra hc
    have hfut : ∃ a ∈ t.branchPoints, ¬ a ≤ L := by
      by_contra hno
      exact hc fun a ha => by_contra fun hgt => hno ⟨a, ha, hgt⟩
    obtain ⟨id, _, a, hgt, hread⟩ := found_of_future_branchPoint (le_refl L) hfut
    -- two heaps: one image written at `a` to the store of `id`, and nothing at all
    have hagree : ∀ i ∈ t.chain,
        AgreeUpTo L (written id (imageSample a 0) i) (Repository.new 4) :=
      fun i _ => agree_written hgt id i
    have hnone : t.getPage redo (fun _ => Repository.new 4) ⟨relSample, 0⟩ L = .ok .notFound :=
      (getPage_notFound_iff hl).mpr (not_found_of_empty fun _ => rfl)
    exact (getPage_notFound_iff hl).mp
      ((h _ _ hagree ⟨relSample, 0⟩ relSample).1.trans hnone)
      (hread _ ⟨relSample, 0⟩ _ (mem_written id (imageSample a 0)))
  · intro hbp repos repos' hagree key rel
    constructor
    · refine getPage_eq_of_sameRead (eachRead_of_branchPoints (L := L) ?_ hbp le_rfl)
      intro id hid l hle
      exact (hagree id hid).sameRead hle redo key
    · refine getRelSize_eq_of_each (eachRead_of_branchPoints (L := L) ?_ hbp le_rfl)
      intro id hid l hle
      exact (hagree id hid).relSizes.getRelSize_eq hle rel

theorem reads_ignore_future_sample :
    (branched devId (root mainId) 20).getPage rustApply (written devId (imageSample 40 1))
        ⟨relSample, 0⟩ 30
      = (branched devId (root mainId) 20).getPage rustApply (fun _ => Repository.new 4)
          ⟨relSample, 0⟩ 30 :=
  ((reads_ignore_future_iff rustApply_lawful (branched devId (root mainId) 20) 30).mpr
    (by decide) _ _ (fun i _ => agree_written (by decide) devId i) ⟨relSample, 0⟩ relSample).1

/-- A branch at `20`, read at `10`: an image its parent got at `15` shows through,
and so does the size it gave the relation. -/
theorem read_below_branch_point_sees_future :
    (¬ (imageSample 15 1).lsn ≤ 10)
      ∧ (branched devId (root mainId) 20).getPage rustApply (written mainId (imageSample 15 1))
          ⟨relSample, 0⟩ 10 = .ok (.page (List.replicate PAGE_SIZE 1))
      ∧ (branched devId (root mainId) 20).getPage rustApply (fun _ => Repository.new 4)
          ⟨relSample, 0⟩ 10 = .ok .notFound
      ∧ (branched devId (root mainId) 20).getRelSize (written mainId (imageSample 15 1))
          relSample 10 = some 1
      ∧ (branched devId (root mainId) 20).getRelSize (fun _ => Repository.new 4) relSample 10
          = none := by
  refine ⟨by decide, ?_, rfl, by decide, by decide⟩
  rw [getPage_inherit rustApply_lawful rfl]
  exact Repository.getPage_of_last_image rustApply_lawful 15 [] rfl List.length_replicate

end Timeline

end AethelDB.Pageserver
