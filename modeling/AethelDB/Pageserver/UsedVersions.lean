import AethelDB.Pageserver.Timeline

/-!
# Which stored versions a read uses

Whether a read finds anything, and which versions it replays, depends only on the
*shape* of the stores: which slots are filled, and which of them hold a base.
`Found` and `Uses` say so in terms of the shape alone.

To see that a version `Uses` names is really used, contents are varied while the
shape is kept (`rewrite`). In particular every version can be replaced by one
that leaves a mark on the first byte of the page, or leaves it clear
(`markVersion`); a read of marked stores with the native backend then never fails, and
its first byte tells whether it replayed a marked version (`getPage_marked`).
That turns "this version is used" into "some contents of this version change the
page", which is how the conditions in the following modules are shown to be
necessary.
-/

namespace AethelDB.Pageserver

open AethelDB.Lib

/-! ## Contents varied over one shape -/

/-- A change of contents that keeps bases bases and deltas deltas. -/
structure Rewriting where
  version : TimelineId → Slot → PageVersion → PageVersion
  keepsBase : ∀ id s v, (version id s v).isBase = v.isBase

namespace Repository

/-- Every stored version replaced in place. -/
def rewrite (g : Slot → PageVersion → PageVersion) (r : Repository) : Repository :=
  { r with
    memtable := r.memtable.mapVal g
    layers := r.layers.map fun l => { l with entries := l.entries.mapVal g } }

theorem layerEntries_rewrite (g : Slot → PageVersion → PageVersion) (r : Repository) :
    (r.rewrite g).layerEntries = r.layerEntries.map fun e => (e.1, g e.1 e.2) := by
  simp only [layerEntries, rewrite, List.flatMap_map, OrdMap.mapVal, List.map_flatMap]

theorem contents_rewrite (g : Slot → PageVersion → PageVersion) (r : Repository) :
    (r.rewrite g).contents = r.contents.map fun e => (e.1, g e.1 e.2) := by
  rw [contents, layerEntries_rewrite, contents, List.map_append]
  rfl

theorem Distinct.rewrite {r : Repository} (h : r.Distinct) (g : Slot → PageVersion → PageVersion) :
    (r.rewrite g).Distinct := by
  unfold Distinct
  rw [contents_rewrite, List.map_map]
  exact h

theorem versions_rewrite (g : Slot → PageVersion → PageVersion) (r : Repository) (key : PageKey)
    (lsn : Lsn) :
    (r.rewrite g).versions key lsn none
      = (r.versions key lsn none).map fun e => (e.1, g (toLex (key, e.1)) e.2) := by
  have hof : versionsOf (r.rewrite g).contents key lsn
      = (versionsOf r.contents key lsn).map fun e => (e.1, g (toLex (key, e.1)) e.2) := by
    rw [contents_rewrite]
    unfold versionsOf
    rw [List.filter_map, List.map_map, List.map_map]
    refine List.map_congr_left ?_
    intro e he
    obtain ⟨hkey, _⟩ := of_decide_eq_true (List.mem_filter.mp he).2
    have hslot : toLex (key, e.1.lsn) = e.1 := Slot.ext hkey.symm rfl
    simp only [Function.comp, toVersion, hslot]
  rw [versions_eq, versions_eq]
  show byPos (versionsOf (r.rewrite g).contents key lsn) = _
  rw [hof]
  exact byPos_map (fun e => g (toLex (key, e.1)) e.2) _

end Repository

/-- The stores with every version replaced. -/
def Rewriting.stores (f : Rewriting) (repos : Stores) : Stores :=
  fun id => (repos id).rewrite (f.version id)

theorem Rewriting.latest_versions (f : Rewriting) (repos : Stores) (id : TimelineId)
    (key : PageKey) (lsn : Lsn) :
    latest PageVersion.isBase ((f.stores repos id).versions key lsn none)
      = (latest PageVersion.isBase ((repos id).versions key lsn none)).map fun r =>
          ((r.1.1, f.version id (toLex (key, r.1.1)) r.1.2),
            r.2.map fun e => (e.1, f.version id (toLex (key, e.1)) e.2)) := by
  rw [Rewriting.stores, Repository.versions_rewrite]
  exact latest_map (g := fun e => f.version id (toLex (key, e.1)) e.2)
    (fun e => f.keepsBase id _ e.2) _

/-! ## What a read finds and uses -/

namespace Timeline

variable {key : PageKey} {redo : WalRedoManager} {repos : Stores}

/-- Some store on the chain has a base of `key` where it is read. -/
def Found (repos : Stores) (key : PageKey) : Timeline → Lsn → Prop
  | root id, lsn => HasBase PageVersion.isBase ((repos id).versions key lsn none)
  | branched id parent ancestorLsn, lsn =>
    HasBase PageVersion.isBase ((repos id).versions key lsn none) ∨
      parent.Found repos key ancestorLsn

/-- **A read answers `NotFound` exactly when the chain has no base.** -/
theorem getPage_notFound_iff (hl : redo.Lawful) :
    ∀ {t : Timeline} {lsn : Lsn},
      t.getPage redo repos key lsn = .ok .notFound ↔ ¬ t.Found repos key lsn := by
  intro t
  induction t with
  | root id => exact Repository.getPage_notFound_iff hl
  | branched id p a ih =>
    intro lsn
    rw [Found, not_or, ← Repository.getPage_notFound_iff hl, ← ih]
    constructor
    · intro h
      have hp : p.getPage redo repos key a = .ok .notFound := by
        by_contra hne
        exact getPage_ne_notFound_of_parent hl hne h
      refine ⟨by_contra fun ho => ?_, hp⟩
      rw [getPage_of_own ho] at h
      exact ho h
    · rintro ⟨ho, hp⟩
      rw [getPage_of_notFound ho, hp]
      rfl

/-- The own versions a read replays: from the latest own base on, or, without
one, what lies at or above the inherited page. -/
def ownUsed (repos : Stores) (key : PageKey) (t : Timeline) (lsn : Lsn) : Versions :=
  match latest PageVersion.isBase ((repos t.id).versions key lsn none), t.ancestorLsn with
  | some (b, rest), _ => b :: rest
  | none, some a => ((repos t.id).versions key lsn none).filter fun e => decide (a ≤ e.1)
  | none, none => []

/-- Whether a read replays a version at a marked slot, in its own store or
further up. -/
def Uses (repos : Stores) (mark : TimelineId → Slot → Bool) (key : PageKey) :
    Timeline → Lsn → Bool
  | root id, lsn =>
    (ownUsed repos key (root id) lsn).any fun e => mark id (toLex (key, e.1))
  | branched id p a, lsn =>
    ((ownUsed repos key (branched id p a) lsn).any fun e => mark id (toLex (key, e.1))) ||
      ((latest PageVersion.isBase ((repos id).versions key lsn none)).isNone
        && p.Uses repos mark key a)

theorem getPage_of_ownBase (hl : redo.Lawful) {t : Timeline} {lsn : Lsn}
    (h : HasBase PageVersion.isBase ((repos t.id).versions key lsn none)) :
    t.getPage redo repos key lsn = (repos t.id).getPage redo key lsn := by
  cases t with
  | root id => rfl
  | branched id p a =>
    exact getPage_of_own fun ho => (Repository.getPage_notFound_iff hl).mp ho h

/-- **Dropping unused versions is invisible.** When one own history is the other
one filtered, the inherited reads agree and nothing used is dropped, both reads
agree. -/
theorem getPage_of_filtered (hl : redo.Lawful) {repos' : Stores} {t : Timeline} {lsn lsn' : Lsn}
    {keep : Lsn × PageVersion → Bool} (hv : (repos' t.id).versions key lsn' none
      = ((repos t.id).versions key lsn none).filter keep) (hpar : ∀ id p a, t = branched id p a →
      p.getPage redo repos' key a = p.getPage redo repos key a)
    (hkept : t.Found repos key lsn → ∀ e ∈ t.ownUsed repos key lsn, keep e = true) :
    t.getPage redo repos' key lsn' = t.getPage redo repos key lsn := by
  have hsub : HasBase PageVersion.isBase ((repos' t.id).versions key lsn' none) →
      HasBase PageVersion.isBase ((repos t.id).versions key lsn none) := by
    intro h
    rw [hv] at h
    exact h.of_sub fun _ he => (List.mem_filter.mp he).1
  cases hlat : latest PageVersion.isBase ((repos t.id).versions key lsn none) with
  | some r =>
    -- the own base survives with everything after it
    obtain ⟨b, rest⟩ := r
    have hhas : ∀ {vs : Versions}, latest PageVersion.isBase vs = some (b, rest) →
        HasBase PageVersion.isBase vs := by
      intro vs hs
      by_contra hno
      rw [latest_eq_none_iff.mpr hno] at hs
      simp at hs
    have hf : t.Found repos key lsn := by
      cases t with
      | root id => exact hhas hlat
      | branched id p a => exact Or.inl (hhas hlat)
    have hkept := hkept hf
    simp only [ownUsed, hlat] at hkept
    have hlat' : latest PageVersion.isBase ((repos' t.id).versions key lsn' none)
        = some (b, rest) := by
      rw [hv]
      exact latest_filter_of_kept hlat hkept
    rw [getPage_of_ownBase hl (hhas hlat'), getPage_of_ownBase hl (hhas hlat)]
    exact Repository.getPage_congr hl (hlat'.trans hlat.symm)
  | none =>
    have hno := latest_eq_none_iff.mp hlat
    have hno' := fun h => hno (hsub h)
    cases t with
    | root id =>
      rw [(getPage_notFound_iff (t := root id) hl).mpr hno,
        (getPage_notFound_iff (t := root id) hl).mpr hno']
    | branched id p a =>
      simp only [ownUsed, Timeline.id, Timeline.ancestorLsn] at hlat hkept hv hno hno'
      simp only [hlat] at hkept
      rw [getPage_of_notFound ((Repository.getPage_notFound_iff hl).mpr hno'),
        getPage_of_notFound ((Repository.getPage_notFound_iff hl).mpr hno), hpar id p a rfl]
      refine overPage_congr fun base hp => ?_
      -- the inherited page is followed by the same own versions
      have hf : (branched id p a).Found repos key lsn := by
        refine Or.inr (by_contra fun hc => ?_)
        rw [(getPage_notFound_iff hl).mpr hc] at hp
        simp at hp
      have htail : ((repos' id).versions key lsn' none).filter (fun e => decide (a ≤ e.1))
          = ((repos id).versions key lsn none).filter (fun e => decide (a ≤ e.1)) := by
        rw [hv, List.filter_filter]
        refine List.filter_congr ?_
        intro e he
        by_cases hae : a ≤ e.1
        · rw [hkept hf e (List.mem_filter.mpr ⟨he, decide_eq_true hae⟩), Bool.and_true]
        · simp [hae]
      show Repository.lookupOf _ = Repository.lookupOf _
      congr 1
      refine hl.fromLatest key lsn' lsn _ _ ?_
      rw [Repository.latest_versions_base hno', Repository.latest_versions_base hno, htail]

/-- No marked version is used where none is stored. -/
theorem uses_eq_false {mark : TimelineId → Slot → Bool} :
    ∀ {t : Timeline} {lsn : Lsn},
      t.EachRead (fun id l => ∀ e ∈ (repos id).versions key l none,
        mark id (toLex (key, e.1)) = false) lsn →
      t.Uses repos mark key lsn = false := by
  have hown : ∀ (t : Timeline) (lsn : Lsn),
      (∀ e ∈ (repos t.id).versions key lsn none, mark t.id (toLex (key, e.1)) = false) →
      ((t.ownUsed repos key lsn).any fun e => mark t.id (toLex (key, e.1))) = false := by
    intro t lsn h
    rw [List.any_eq_false]
    intro e he
    rw [h e ?_]
    · exact Bool.false_ne_true
    · unfold ownUsed at he
      split at he
      · next hlat =>
        obtain ⟨pre, hsplit, _⟩ := latest_eq_some_iff.mp hlat
        rw [hsplit]
        exact List.mem_append_right _ he
      · exact (List.mem_filter.mp he).1
      · nomatch he
  intro t
  induction t with
  | root id => exact fun h => hown (root id) _ h
  | branched id p a ih =>
    intro lsn h
    rw [Uses, ih h.2, Bool.and_false, Bool.or_false]
    exact hown (branched id p a) lsn h.1

theorem uses_of_ownUsed {mark : TimelineId → Slot → Bool} {t : Timeline} {lsn : Lsn}
    {e : Lsn × PageVersion} (he : e ∈ t.ownUsed repos key lsn)
    (hm : mark t.id (toLex (key, e.1)) = true) : t.Uses repos mark key lsn = true := by
  have hany : ((t.ownUsed repos key lsn).any fun e => mark t.id (toLex (key, e.1))) = true :=
    List.any_eq_true.mpr ⟨e, he, hm⟩
  cases t with
  | root id => exact hany
  | branched id p a =>
    rw [Uses, Bool.or_eq_true]
    exact Or.inl hany

end Timeline

/-! ## Marked contents -/

/-- A version that writes one first byte: a base sets the whole page, a delta
leaves the byte alone unless marked. -/
def markVersion (marked : Bool) (v : PageVersion) : PageVersion :=
  if v.isBase then .image (List.replicate PAGE_SIZE (if marked then 1 else 0))
  else .delta (if marked then [⟨0, [1]⟩] else [])

/-- The marks left by a set of slots. -/
def marking (mark : TimelineId → Slot → Bool) : Rewriting where
  version id s v := markVersion (mark id s) v
  keepsBase id s v := by
    unfold markVersion
    by_cases h : v.isBase = true
    · rw [if_pos h, h]
      rfl
    · rw [if_neg h]
      rw [Bool.not_eq_true] at h
      rw [h]
      rfl

/-- Replaying marked deltas sets the first byte if one of them is marked. -/
theorem foldlM_marked {m : Lsn → Bool} :
    ∀ {vs : Versions} {page : List UInt8} {x : UInt8}, ¬ HasBase PageVersion.isBase vs →
      page.length = PAGE_SIZE → page.head? = some x →
      ∃ q, (vs.map fun e => (e.1, markVersion (m e.1) e.2)).foldlM nativeStep page = .ok q ∧
        q.head? = some (if vs.any (fun e => m e.1) then 1 else x) := by
  intro vs
  induction vs with
  | nil => exact fun _ _ hx => ⟨_, rfl, hx⟩
  | cons e vs ih =>
    intro page x hno hlen hx
    have hdelta : e.2.isBase = false := by
      rw [← Bool.not_eq_true]
      exact fun hb => hno ⟨e, List.mem_cons_self .., hb⟩
    have hrest : ¬ HasBase PageVersion.isBase vs :=
      fun h => hno (h.of_sub fun _ he => List.mem_cons_of_mem _ he)
    rw [List.map_cons, List.foldlM_cons, List.any_cons]
    -- an unmarked delta becomes the empty edit, a marked one writes the byte `1`
    cases hm : m e.1 with
    | false =>
      have hstep : nativeStep page (e.1, markVersion false e.2) = .ok page := by
        simp only [markVersion, hdelta]
        rfl
      rw [hstep, Bool.false_or]
      exact ih hrest hlen hx
    | true =>
      have hstep : nativeStep page (e.1, markVersion true e.2) = .ok (1 :: page.drop 1) := by
        simp only [markVersion, hdelta]
        rfl
      have hlen' : (1 :: page.drop 1).length = PAGE_SIZE := by
        rw [List.length_cons, List.length_drop, hlen]
        rfl
      obtain ⟨q, hq, hhead⟩ := @ih (1 :: page.drop 1) 1 hrest hlen' rfl
      rw [hstep, Bool.true_or]
      refine ⟨q, hq, ?_⟩
      rw [hhead]
      split <;> rfl

/-- A marked base sets the first byte of the page it starts. -/
theorem nativeStep_markVersion {v : PageVersion} (hb : v.isBase = true) (l : Lsn) (marked : Bool)
    (page : List UInt8) :
    ∃ p, nativeStep page (l, markVersion marked v) = .ok p ∧ p.length = PAGE_SIZE ∧
      p.head? = some (if marked then 1 else 0) := by
  refine ⟨List.replicate PAGE_SIZE (if marked then 1 else 0), ?_, List.length_replicate, rfl⟩
  rw [markVersion, if_pos hb]
  exact nativeStep_image l List.length_replicate

theorem Rewriting.hasBase_iff (f : Rewriting) (repos : Stores) (id : TimelineId) (key : PageKey)
    (lsn : Lsn) :
    HasBase PageVersion.isBase ((f.stores repos id).versions key lsn none)
      ↔ HasBase PageVersion.isBase ((repos id).versions key lsn none) := by
  rw [← not_iff_not, ← latest_eq_none_iff, ← latest_eq_none_iff, f.latest_versions,
    Option.map_eq_none_iff]

theorem Rewriting.found_iff (f : Rewriting) (repos : Stores) (key : PageKey) :
    ∀ {t : Timeline} {lsn : Lsn}, t.Found (f.stores repos) key lsn ↔ t.Found repos key lsn := by
  intro t
  induction t with
  | root id => exact f.hasBase_iff repos id key _
  | branched id p a ih =>
    intro lsn
    rw [Timeline.Found, Timeline.Found, f.hasBase_iff, ih]

namespace Timeline

/-- **The first byte tells what was used.** A read of marked stores that finds a
base returns a page, whose first byte is set exactly if a marked version was
replayed. -/
theorem getPage_marked (repos : Stores) (mark : TimelineId → Slot → Bool) (key : PageKey) :
    ∀ {t : Timeline} {lsn : Lsn}, t.Found repos key lsn →
      ∃ q, t.getPage rustApply ((marking mark).stores repos) key lsn = .ok (.page q) ∧
        q.head? = some (if t.Uses repos mark key lsn then 1 else 0) := by
  -- a store with an own base
  have hown : ∀ {id : TimelineId} {lsn : Lsn} {b : Lsn × PageVersion} {rest : Versions},
      latest PageVersion.isBase ((repos id).versions key lsn none) = some (b, rest) →
      ∃ q, ((marking mark).stores repos id).getPage rustApply key lsn = .ok (.page q) ∧
        q.head? = some (if (b :: rest).any (fun e => mark id (toLex (key, e.1))) then 1 else 0) := by
    intro id lsn b rest hlat
    obtain ⟨_, _, hb, hno⟩ := latest_eq_some_iff.mp hlat
    obtain ⟨p, hp, hlen, hhead⟩ := nativeStep_markVersion hb b.1 (mark id (toLex (key, b.1)))
      (List.replicate PAGE_SIZE 0)
    obtain ⟨q, hq, hqhead⟩ := foldlM_marked (m := fun l => mark id (toLex (key, l))) hno hlen hhead
    have hlat' := (marking mark).latest_versions repos id key lsn
    rw [hlat] at hlat'
    refine ⟨q, ?_, ?_⟩
    · rw [Repository.getPage, Repository.getPageWithBase, rustApply_eq_replay,
        nativeReplay_of_latest hlat' hp hq]
      rfl
    · rw [hqhead, List.any_cons]
      cases mark id (toLex (key, b.1)) <;> cases rest.any _ <;> rfl
  intro t
  induction t with
  | root id =>
    intro lsn hf
    cases hlat : latest PageVersion.isBase ((repos id).versions key lsn none) with
    | none => exact absurd hf (latest_eq_none_iff.mp hlat)
    | some r =>
      obtain ⟨b, rest⟩ := r
      obtain ⟨q, hq, hhead⟩ := hown hlat
      refine ⟨q, hq, ?_⟩
      simp only [Uses, ownUsed, Timeline.id, hlat]
      exact hhead
  | branched id p a ih =>
    intro lsn hf
    cases hlat : latest PageVersion.isBase ((repos id).versions key lsn none) with
    | some r =>
      obtain ⟨b, rest⟩ := r
      obtain ⟨q, hq, hhead⟩ := hown hlat
      refine ⟨q, by simp only [getPage, hq], ?_⟩
      simp only [Uses, ownUsed, Timeline.id, hlat, Option.isNone_some, Bool.false_and,
        Bool.or_false]
      exact hhead
    | none =>
      have hno := latest_eq_none_iff.mp hlat
      obtain ⟨base, hbase, hhead⟩ := ih (hf.resolve_left hno)
      have hno' : ¬ HasBase PageVersion.isBase
          (((marking mark).stores repos id).versions key lsn none) :=
        fun h => hno (((marking mark).hasBase_iff repos id key lsn).mp h)
      have hnf : ((marking mark).stores repos id).getPage rustApply key lsn = .ok .notFound :=
        (Repository.getPage_notFound_iff rustApply_lawful).mpr hno'
      have hlen := getPage_size rustApply_lawful hbase
      -- the inherited page, then the own versions at or above the branch point
      have hlat' := Repository.latest_versions_base hno' (a, base)
      have hfilter : (((marking mark).stores repos id).versions key lsn none).filter
            (fun e => decide (a ≤ e.1))
          = (((repos id).versions key lsn none).filter fun e => decide (a ≤ e.1)).map
              fun e => (e.1, markVersion (mark id (toLex (key, e.1))) e.2) := by
        rw [Rewriting.stores, Repository.versions_rewrite, List.filter_map]
        rfl
      have hrest : ¬ HasBase PageVersion.isBase
          (((repos id).versions key lsn none).filter fun e => decide (a ≤ e.1)) :=
        fun h => hno (h.of_sub fun _ he => (List.mem_filter.mp he).1)
      obtain ⟨q, hq, hqhead⟩ := foldlM_marked (m := fun l => mark id (toLex (key, l))) hrest hlen
        hhead
      rw [← hfilter] at hq
      refine ⟨q, ?_, ?_⟩
      · rw [getPage_of_notFound hnf, hbase, overPage, Repository.getPageWithBase, rustApply_eq_replay,
          nativeReplay_of_latest hlat' (nativeStep_image a hlen) hq]
        rfl
      · rw [hqhead]
        simp only [Uses, ownUsed, Timeline.id, Timeline.ancestorLsn, hlat, Option.isNone_none,
          Bool.true_and]
        cases p.Uses repos mark key a <;> cases List.any _ _ <;> rfl

/-- **A used version can be told apart.** If one read uses an own version and
another, of other stores or at another LSN, does not even have it, then some page
contents of the same shape make the two return different pages. -/
theorem exists_marking_of_absent {repos repos' : Stores} {key : PageKey} {tl : Timeline}
    {lsn lsn' : Lsn} {e : Lsn × PageVersion} (hf : tl.Found repos key lsn)
    (hf' : tl.Found repos' key lsn') (he : e ∈ tl.ownUsed repos key lsn)
    (habsent : tl.EachRead (fun id l => ∀ x ∈ (repos' id).versions key l none,
      id = tl.id → x.1 ≠ e.1) lsn') :
    ∃ f : Rewriting, ∃ q q', tl.getPage rustApply (f.stores repos) key lsn = .ok (.page q) ∧
      tl.getPage rustApply (f.stores repos') key lsn' = .ok (.page q') ∧ q' ≠ q := by
  -- mark that version and nothing else
  let mark : TimelineId → Slot → Bool :=
    fun id s => decide (id = tl.id) && decide (s = toLex (key, e.1))
  have hclear : tl.EachRead (fun id l => ∀ x ∈ (repos' id).versions key l none,
      mark id (toLex (key, x.1)) = false) lsn' := by
    refine habsent.imp ?_
    intro id l hid x hx
    by_contra hm
    obtain ⟨heq, hslot⟩ : id = tl.id ∧ toLex (key, x.1) = toLex (key, e.1) := by
      simpa [mark] using hm
    exact hid x hx heq (congrArg (fun s => (ofLex s).2) hslot)
  obtain ⟨q, hq, hhead⟩ := getPage_marked repos mark key hf
  obtain ⟨q', hq', hhead'⟩ := getPage_marked repos' mark key hf'
  rw [uses_of_ownUsed he (by simp [mark])] at hhead
  rw [uses_eq_false hclear] at hhead'
  refine ⟨marking mark, q, q', hq, hq', ?_⟩
  intro heq
  rw [heq, hhead] at hhead'
  exact absurd hhead' (by decide)

end Timeline

end AethelDB.Pageserver
