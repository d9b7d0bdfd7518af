import AethelDB.Pageserver.RecordLayout
import AethelDB.Pageserver.RelSize
import AethelDB.Pageserver.WalIngest

/-!
# WAL in, pages out

The whole path from a WAL stream to a read: `ingest_wal` frames the stream, decodes each
record, restores its images, files them as versions and tracks the sizes of relations, and
`get_page` and `get_rel_size` read them back. The records here carry blocks with uncompressed
full-page images and main data; `FpiRecord` has them as the pages they stand for, from which
the bytes of the record follow.

Each stage has its theorem in another module (`ingestAll_spec` for the loop, `decode_layout`
for the records, `contents_ingest` for the store), so what is left is how they fit together:
restoring gives back the page (`PageImage.restore_layout`), the stream as a whole becomes one
batch of modifications in ascending order of LSN (`ingestWal_eq`), of which the last one up to
the LSN of a read is the page, and the largest one the size of the relation.
-/

namespace AethelDB.Pageserver

open AethelDB.Lib

/-! ## Records with page images -/

/-- A page, and the run of zeros in it that is left out when it is stored. -/
structure PageImage where
  page : List UInt8
  holeOffset : UInt16
  holeLength : UInt16
  apply : Bool
  whole : page.length = XLOG_BLCKSZ
  inside : holeOffset.toNat + holeLength.toNat ≤ XLOG_BLCKSZ
  zeros : (page.drop holeOffset.toNat).take holeLength.toNat
    = List.replicate holeLength.toNat 0

namespace PageImage

variable (img : PageImage)

/-- The page without its hole. -/
def stored : List UInt8 :=
  img.page.take img.holeOffset.toNat ++ img.page.drop (img.holeOffset.toNat + img.holeLength.toNat)

theorem length_stored : img.stored.length + img.holeLength.toNat = XLOG_BLCKSZ := by
  have hwhole := img.whole
  have hinside := img.inside
  rw [stored, List.length_append, List.length_take, List.length_drop]
  omega

/-- The image in a record: not compressed, and with the hole flag if there is a hole. -/
def layout : ImageLayout where
  bytes := img.stored
  holeOffset := img.holeOffset
  hole := if img.holeLength = 0 then none else some img.holeLength
  compression := .none
  apply := img.apply
  small := by
    have hlen := img.length_stored
    have hsize : XLOG_BLCKSZ = 8192 := rfl
    omega
  sized := by
    intro l hl _
    split at hl
    · exact absurd hl (by simp)
    · rw [← Option.some.inj hl]
      exact img.length_stored

theorem getD_hole : img.layout.hole.getD 0 = img.holeLength := by
  show (if img.holeLength = 0 then none else some img.holeLength).getD 0 = _
  split
  · next h => rw [h]; rfl
  · rfl

/-- **Restoring gives back the page.** -/
theorem restore_layout (codecs : Codecs) : img.layout.decoded.restore codecs = .ok img.page := by
  have hinside := img.inside
  have hlen := img.length_stored
  have hwhole := img.whole
  have hbefore : img.stored.take img.holeOffset.toNat = img.page.take img.holeOffset.toNat := by
    rw [stored, List.take_append_of_le_length (by rw [List.length_take]; omega), List.take_take,
      Nat.min_self]
  have hafter : img.stored.drop img.holeOffset.toNat
      = img.page.drop (img.holeOffset.toNat + img.holeLength.toNat) :=
    List.drop_left' (by rw [List.length_take]; omega)
  have hpage : img.page.take img.holeOffset.toNat ++ List.replicate img.holeLength.toNat 0
      ++ img.page.drop (img.holeOffset.toNat + img.holeLength.toNat) = img.page := by
    rw [← img.zeros, List.append_assoc, ← List.drop_drop, List.take_append_drop,
      List.take_append_drop]
  have hbody : img.layout.decoded.body codecs (XLOG_BLCKSZ - img.holeLength.toNat) = .ok img.stored :=
    if_neg (not_not.mpr (show img.stored.length = _ by omega))
  have hhole : img.layout.decoded.holeLength = img.holeLength := img.getD_hole
  simp only [DecodedImage.restore, hhole, hbody]
  rw [if_neg (show ¬ XLOG_BLCKSZ < img.layout.decoded.holeOffset.toNat + img.holeLength.toNat from
    not_lt.mpr hinside), if_neg (not_not.mpr (show img.stored.length = _ by omega))]
  show Except.ok (img.stored.take img.holeOffset.toNat ++ _ ++ img.stored.drop img.holeOffset.toNat) = _
  rw [hbefore, hafter, hpage]

end PageImage

/-- A block reference with an image. -/
structure FpiBlock where
  block : BlockLayout
  image : PageImage
  shows : block.image = some image.layout

namespace FpiBlock

variable (b : FpiBlock)

def key : PageKey := ⟨b.block.rel, b.block.blkno⟩

theorem versionOfBlock_decoded (codecs : Codecs) (raw : List UInt8) :
    versionOfBlock codecs b.block.decoded raw = .image b.image.page := by
  unfold versionOfBlock BlockLayout.decoded
  rw [b.shows]
  simp only [Option.map_some, b.image.restore_layout codecs]

end FpiBlock

/-- A record made of blocks with images and of main data. -/
structure FpiRecord where
  layout : RecordLayout
  blocks : List FpiBlock
  blocks_eq : layout.blocks = blocks.map FpiBlock.block
  plain : layout.origin = none ∧ layout.toplevelXid = none
  main : layout.mainData ≠ []
  /-- The size of a relation fits into 32 bits. -/
  bounded : ∀ b ∈ blocks, b.block.blkno.toNat + 1 < 2 ^ 32
  nodup : (blocks.map FpiBlock.key).Nodup

namespace FpiRecord

variable (rec : FpiRecord)

/-- The page the record has of `key`. -/
def page (key : PageKey) : Option (List UInt8) :=
  (rec.blocks.find? fun b => b.key = key).map fun b => b.image.page

/-- The blocks of `rel` in the record. -/
def blocksOf (rel : RelTag) : List UInt32 :=
  (rec.blocks.filter fun b => b.block.rel = rel).map fun b => b.block.blkno

/-- What the record is filed as when it is at `lsn`. -/
def mods (lsn : Lsn) : List Modification :=
  rec.blocks.map fun b => ⟨b.block.rel, b.block.blkno, lsn, .image b.image.page⟩

/-- The record image in the stream. -/
def image : RecordImage where
  bytes := rec.layout.bytes
  hasHeader := by
    rw [rec.layout.length_bytes]
    exact Nat.le_add_right _ _
  totLen := by
    have hlen : (leBytes 4 rec.layout.totLen.toNat).length = 4 := length_leBytes ..
    rw [← rec.layout.totLen_toNat, RecordLayout.bytes, RecordLayout.fixedHeader, List.append_assoc,
      List.take_left' hlen]
    exact fromLeBytes_leBytes rec.layout.totLen.toNat_lt

theorem modificationsFromRecord_decoded (codecs : Codecs) (lsn : Lsn) (raw : List UInt8) :
    modificationsFromRecord codecs (rec.layout.decoded lsn) raw = rec.mods lsn := by
  unfold modificationsFromRecord RecordLayout.decoded mods
  rw [rec.blocks_eq, List.map_map, List.map_map]
  refine List.map_congr_left fun b _ => ?_
  show (⟨b.block.rel, b.block.blkno, lsn, versionOfBlock codecs b.block.decoded raw⟩ : Modification) = _
  rw [b.versionOfBlock_decoded]

theorem decodeWalRecord_bytes (lsn : Lsn) :
    decodeWalRecord lsn rec.layout.bytes = .ok (rec.layout.decoded lsn) :=
  decode_layout rec.layout lsn rec.main rec.plain.2

theorem ingestRecord_bytes (codecs : Codecs) (r : Repository) (lsn : Lsn) :
    r.ingestRecord codecs lsn rec.layout.bytes = .ok (r.ingest (rec.mods lsn)) := by
  rw [Repository.ingestRecord, rec.decodeWalRecord_bytes, ← rec.modificationsFromRecord_decoded codecs]
  rfl

end FpiRecord

/-! ## The stream -/

/-- The records with the LSNs they have in the stream. -/
def PageHeaders.placed (H : PageHeaders) (pos : Nat) (recs : List FpiRecord) :
    List (Lsn × FpiRecord) :=
  ((H.records pos (recs.map FpiRecord.image)).map Prod.fst).zip recs

/-- The stream as one batch of modifications. -/
def placedMods (placed : List (Lsn × FpiRecord)) : List Modification :=
  placed.flatMap fun e => e.2.mods e.1

theorem PageHeaders.records_placed (H : PageHeaders) (pos : Nat) (recs : List FpiRecord) :
    H.records pos (recs.map FpiRecord.image)
      = (H.placed pos recs).map fun e => (e.1, e.2.layout.bytes) := by
  induction recs generalizing pos with
  | nil => rfl
  | cons rec recs ih => exact congrArg _ (ih (H.paging.next pos rec.layout.bytes))

/-- The LSNs go up, as long as they do not run out. -/
theorem PageHeaders.placed_ascending {H : PageHeaders} {pos : Nat} {recs : List FpiRecord}
    (hfits : H.fin pos (recs.map FpiRecord.image) ≤ 2 ^ 64) :
    (H.placed pos recs).Pairwise fun a b => a.1 < b.1 := by
  have hne : ∀ bytes ∈ (recs.map FpiRecord.image).map RecordImage.bytes, bytes ≠ [] := by
    rintro bytes hbytes rfl
    obtain ⟨r, -, hr⟩ := List.mem_map.mp hbytes
    have hheader := r.hasHeader
    rw [hr] at hheader
    exact absurd hheader (by decide)
  have hlsns : (H.placed pos recs).map Prod.fst
      = (H.paging.items pos ((recs.map FpiRecord.image).map RecordImage.bytes)).map
          fun e => ⟨UInt64.ofNat e.1⟩ := by
    have hfst : (H.placed pos recs).map Prod.fst
        = (H.records pos (recs.map FpiRecord.image)).map Prod.fst := by
      rw [H.records_placed, List.map_map]
      rfl
    rw [hfst, PageHeaders.records, List.map_map]
    rfl
  have hpairwise : ((H.placed pos recs).map Prod.fst).Pairwise (· < ·) := by
    rw [hlsns, List.pairwise_map]
    refine (H.paging.items_ascending hne).imp_of_mem fun {a b} ha hb hlt => ?_
    have hbound := (H.paging.lt_fin_of_mem_items hne hb).trans_le hfits
    show (UInt64.ofNat a.1).toNat < (UInt64.ofNat b.1).toNat
    rw [UInt64.toNat_ofNat', UInt64.toNat_ofNat', Nat.mod_eq_of_lt (hlt.trans hbound),
      Nat.mod_eq_of_lt hbound]
    exact hlt
  exact List.pairwise_map.mp hpairwise

theorem ingestRecords_placed (codecs : Codecs) :
    ∀ (placed : List (Lsn × FpiRecord)) (r : Repository),
      r.ingestRecords codecs (placed.map fun e => (e.1, e.2.layout.bytes))
        = .ok (r.ingest (placedMods placed)) := by
  intro placed
  induction placed with
  | nil => intro r; rfl
  | cons e placed ih =>
    intro r
    rw [List.map_cons, Repository.ingestRecords, List.foldlM_cons, e.2.ingestRecord_bytes]
    have hrest := ih (r.ingest (e.2.mods e.1))
    rw [Repository.ingestRecords] at hrest
    refine hrest.trans (congrArg Except.ok ?_)
    show _ = r.ingest (e.2.mods e.1 ++ placedMods placed)
    rw [Repository.ingest, Repository.ingest, Repository.ingest, List.foldl_append]

/-- A whole stream of records that all decode is ingested to its end. -/
theorem ingestAll_stream (H : PageHeaders) (codecs : Codecs) (r : Repository) (start : Lsn)
    {recs : List RecordImage} (hdecode : ∀ x ∈ recs, ∀ lsn e, decodeWalRecord lsn x.bytes ≠ .error e) :
    let out := ingestAll codecs ((WalStreamDecoder.new start).feedBytes (H.wal start.raw.toNat recs)) r
    r.ingestRecords codecs (H.records start.raw.toNat recs) = .ok out.repo ∧
      out.result = .ok (H.records start.raw.toNat recs).length := by
  intro out
  have hfed := (Between.initial H start recs).feed (H.wal start.raw.toNat recs).length
  simp only [List.nil_append, Nat.sub_self, List.drop_zero, List.take_length] at hfed
  have hend : start.raw.toNat + (H.wal start.raw.toNat recs).length = H.fin start.raw.toNat recs :=
    (H.paging.fin_eq _ _).symm
  rw [hend] at hfed
  obtain ⟨⟨done, rest, new, hsplit, -, hnew, -, hok⟩, herror⟩ :=
    ingestAll_spec codecs r (List.nil_append recs).symm hfed
  cases hresult : out.result with
  | error e =>
    obtain ⟨x, hx, lsn, hx'⟩ := herror e hresult
    exact absurd hx' (hdecode x hx lsn e)
  | ok k =>
    obtain ⟨hnone, hingest, rfl⟩ := hok k hresult
    have hrest : rest = [] := by
      cases rest with
      | nil => rfl
      | cons x rest =>
        -- the stream reaches to the end of every record
        have hfin : H.paging.next (H.fin start.raw.toNat done) x.bytes ≤ H.fin start.raw.toNat recs := by
          rw [hsplit, PageHeaders.fin, PageHeaders.fin, List.map_append, Paging.fin_append]
          exact H.paging.le_fin _ _
        exact absurd ((if_pos hfin).symm.trans hnone) (Nat.succ_ne_zero _)
    have hall : H.records start.raw.toNat recs = new := by
      rw [hsplit, hrest, List.append_nil, hnew]
      rfl
    rw [hall, Nat.zero_add]
    exact ⟨hingest, rfl⟩

/-- **The stream is ingested as one batch.** -/
theorem ingestWal_eq (H : PageHeaders) (codecs : Codecs) (r : Repository) (start : Lsn)
    (recs : List FpiRecord) :
    r.ingestWal codecs start (H.wal start.raw.toNat (recs.map FpiRecord.image))
      = (r.ingest (placedMods (H.placed start.raw.toNat recs)), .ok recs.length) := by
  have hdecode : ∀ x ∈ recs.map FpiRecord.image, ∀ lsn e, decodeWalRecord lsn x.bytes ≠ .error e := by
    intro x hx lsn e he
    obtain ⟨rec, -, rfl⟩ := List.mem_map.mp hx
    exact absurd ((rec.decodeWalRecord_bytes lsn).symm.trans he) (by simp)
  obtain ⟨hrepo, hresult⟩ := ingestAll_stream H codecs r start hdecode
  rw [H.records_placed, ingestRecords_placed] at hrepo
  refine Prod.ext (Except.ok.inj hrepo).symm (hresult.trans (congrArg Except.ok ?_))
  rw [PageHeaders.records, List.length_map, Paging.length_items, List.length_map, List.length_map]

/-! ## Pages -/

variable {placed : List (Lsn × FpiRecord)}

/-- The page of `key` in the last record up to `lsn` that has one. -/
def lastPage (placed : List (Lsn × FpiRecord)) (key : PageKey) (lsn : Lsn) : Option (List UInt8) :=
  ((placed.filter fun e => e.1 ≤ lsn).filterMap fun e => e.2.page key).getLast?

/-- The versions of a page that the records up to `lsn` bring. -/
def imageVersions (placed : List (Lsn × FpiRecord)) (key : PageKey) (lsn : Lsn) : Versions :=
  (placed.filter fun e => e.1 ≤ lsn).filterMap fun e =>
    (e.2.page key).map fun page => (e.1, .image page)

theorem filter_eq_find? {α β : Type} [DecidableEq β] {f : α → β} {l : List α} (hnd : (l.map f).Nodup)
    (b : β) : (l.filter fun a => f a = b) = (l.find? fun a => f a = b).toList := by
  induction l with
  | nil => rfl
  | cons a l ih =>
    rw [List.map_cons, List.nodup_cons] at hnd
    by_cases h : f a = b
    · rw [List.filter_cons_of_pos (by simpa using h), List.find?_cons_of_pos (by simpa using h)]
      have hnone : (l.filter fun a => f a = b) = [] := by
        rw [List.filter_eq_nil_iff]
        intro c hc heq
        exact hnd.1 (List.mem_map.mpr ⟨c, hc, (of_decide_eq_true heq).trans h.symm⟩)
      rw [hnone]
      rfl
    · rw [List.filter_cons_of_neg (by simpa using h), List.find?_cons_of_neg (by simpa using h),
        ih hnd.2]

theorem filter_mods (rec : FpiRecord) (l : Lsn) (key : PageKey) (lsn : Lsn) :
    ((rec.mods l).filter fun m => decide (m.key = key ∧ m.lsn ≤ lsn)).map
        (fun m => (m.lsn, m.version))
      = if l ≤ lsn then ((rec.page key).map fun page => (l, PageVersion.image page)).toList else [] := by
  unfold FpiRecord.mods FpiRecord.page
  rw [List.filter_map, List.map_map]
  split
  · next hle =>
    have hfilter : (rec.blocks.filter ((fun m : Modification => decide (m.key = key ∧ m.lsn ≤ lsn)) ∘
        fun b => ⟨b.block.rel, b.block.blkno, l, .image b.image.page⟩))
        = rec.blocks.filter fun b => b.key = key := by
      refine List.filter_congr fun b _ => ?_
      exact decide_eq_decide.mpr (and_iff_left hle)
    rw [hfilter, filter_eq_find? rec.nodup]
    cases rec.blocks.find? fun b => decide (b.key = key) <;> rfl
  · next hle =>
    rw [List.map_eq_nil_iff, List.filter_eq_nil_iff]
    intro b _ h
    exact hle (of_decide_eq_true h).2

theorem filter_placedMods (placed : List (Lsn × FpiRecord)) (key : PageKey) (lsn : Lsn) :
    ((placedMods placed).filter fun m => decide (m.key = key ∧ m.lsn ≤ lsn)).map
        (fun m => (m.lsn, m.version)) = imageVersions placed key lsn := by
  induction placed with
  | nil => rfl
  | cons e placed ih =>
    show ((e.2.mods e.1 ++ placedMods placed).filter _).map _ = _
    rw [List.filter_append, List.map_append, ih, filter_mods]
    unfold imageVersions
    split
    · next hle =>
      rw [List.filter_cons_of_pos (by simpa using hle), List.filterMap_cons]
      cases e.2.page key <;> rfl
    · next hle =>
      rw [List.filter_cons_of_neg (by simpa using hle), List.nil_append]

/-- A page that only has images reads as the last of them. -/
theorem reconstruct_images {redo : WalRedoManager} (hl : redo.Lawful) (key : PageKey) (lsn : Lsn)
    {vs : Versions} (h : ∀ e ∈ vs, ∃ page, e.2 = .image page ∧ page.length = PAGE_SIZE) :
    redo.reconstruct key lsn vs
      = .ok (vs.getLast?.bind fun e => match e.2 with | .image page => some page | _ => none) := by
  rcases List.eq_nil_or_concat vs with rfl | ⟨front, ⟨l, v⟩, rfl⟩
  · exact hl.noBase key lsn [] fun hbase => by simp [HasBase] at hbase
  · rw [List.concat_eq_append] at h ⊢
    obtain ⟨page, rfl, hsize⟩ := h (l, v) (by simp)
    have hbase : HasBase PageVersion.isBase [(l, PageVersion.image page)] :=
      ⟨_, List.mem_singleton.mpr rfl, rfl⟩
    rw [hl.fromLatest key lsn lsn _ [(l, .image page)] (latest_append_of_base hbase front),
      hl.image key lsn l page hsize, List.getLast?_concat]
    rfl

theorem mem_imageVersions {key : PageKey} {lsn : Lsn} {v : Lsn × PageVersion}
    (h : v ∈ imageVersions placed key lsn) :
    ∃ page, v.2 = .image page ∧ page.length = PAGE_SIZE := by
  obtain ⟨e, -, he⟩ := List.mem_filterMap.mp h
  obtain ⟨page, hpage, rfl⟩ := Option.map_eq_some_iff.mp he
  obtain ⟨b, -, rfl⟩ := Option.map_eq_some_iff.mp hpage
  exact ⟨_, rfl, b.image.whole⟩

theorem getLast?_imageVersions (placed : List (Lsn × FpiRecord)) (key : PageKey) (lsn : Lsn) :
    ((imageVersions placed key lsn).getLast?.bind fun e =>
      match e.2 with | .image page => some page | _ => none) = lastPage placed key lsn := by
  unfold imageVersions lastPage
  generalize (placed.filter fun e => decide (e.1 ≤ lsn)) = upTo
  -- only the last record that has the page counts on either side
  induction upTo using List.reverseRecOn with
  | nil => rfl
  | append_singleton front e ih =>
    rw [List.filterMap_append, List.filterMap_append]
    cases hpage : e.2.page key with
    | none =>
      simp only [List.filterMap_cons, hpage, Option.map_none, List.filterMap_nil, List.append_nil]
      exact ih
    | some page =>
      simp only [List.filterMap_cons, hpage, Option.map_some, List.filterMap_nil,
        List.getLast?_concat]
      rfl

theorem nodup_placedMods (h : placed.Pairwise fun a b => a.1 < b.1) :
    ((placedMods placed).map Modification.slot).Nodup := by
  have hslots : (placedMods placed).map Modification.slot
      = placed.flatMap fun e => e.2.blocks.map fun b => toLex (b.key, e.1) := by
    rw [placedMods, List.map_flatMap]
    refine congrArg (List.flatMap · placed) (funext fun e => ?_)
    rw [FpiRecord.mods, List.map_map]
    rfl
  rw [hslots, List.nodup_flatMap]
  refine ⟨fun e _ => ?_, h.imp fun {a b} hlt => ?_⟩
  · refine List.Nodup.of_map Slot.key ?_
    rw [List.map_map]
    exact e.2.nodup
  · intro s hs hs'
    obtain ⟨_, -, rfl⟩ := List.mem_map.mp hs
    obtain ⟨_, -, heq⟩ := List.mem_map.mp hs'
    exact absurd (congrArg Slot.lsn heq) hlt.ne'

theorem getPage_placedMods {redo : WalRedoManager} (hl : redo.Lawful) (n : Nat)
    (h : placed.Pairwise fun a b => a.1 < b.1) (key : PageKey) (lsn : Lsn) :
    ((Repository.new n).ingest (placedMods placed)).getPage redo key lsn
      = .ok ((lastPage placed key lsn).elim .notFound .page) := by
  have hnd := nodup_placedMods h
  have hversions : ((Repository.new n).ingest (placedMods placed)).versions key lsn none
      = imageVersions placed key lsn := by
    have hcontents : ((Repository.new n).ingest (placedMods placed)).contents.Perm
        ((placedMods placed).map Modification.entry) :=
      Repository.contents_ingest (r := Repository.new n) hnd
    rw [Repository.versions_of_contents hcontents hnd, refVersions, filter_placedMods]
    refine List.Pairwise.insertionSort_eq ?_
    refine (h.filter _).filterMap _ fun a a' hlt v hv v' hv' => ?_
    obtain ⟨_, -, rfl⟩ := Option.map_eq_some_iff.mp hv
    obtain ⟨_, -, rfl⟩ := Option.map_eq_some_iff.mp hv'
    exact hlt.le
  rw [Repository.getPage, Repository.getPageWithBase, hversions,
    reconstruct_images hl key lsn fun v => mem_imageVersions, getLast?_imageVersions]
  cases lastPage placed key lsn <;> rfl

/-! ## Relation sizes -/

instance maxEqOr_uint32 : Std.MaxEqOr UInt32 where
  max_eq_or a b := by
    rw [← UInt32.toNat_inj, ← UInt32.toNat_inj, UInt32.toNat_max]
    omega

/-- The size of a relation after modifications in ascending order, read at their end. -/
theorem getRelSize_ascending (n : Nat) (rel : RelTag) {mods : List Modification}
    (hascending : mods.Pairwise fun a b => a.lsn ≤ b.lsn)
    (hbounded : ∀ m ∈ mods, m.block.toNat + 1 < 2 ^ 32) {lsn : Lsn} (hle : ∀ m ∈ mods, m.lsn ≤ lsn) :
    ((Repository.new n).ingest mods).getRelSize rel lsn
      = ((mods.filter fun m => m.rel = rel).map Modification.block).max?.map (· + 1) := by
  -- no modification is late
  have hwithin : Along WithinLater mods := by
    intro pre m post hsplit m' hm' _ hlt
    rw [hsplit] at hascending
    have hordered := (List.pairwise_append.mp hascending).2.2 m' hm' m List.mem_cons_self
    exact absurd hlt (not_lt.mpr hordered)
  have hall : mods.filter (fun m => decide (m.rel = rel ∧ m.lsn ≤ lsn))
      = mods.filter fun m => m.rel = rel := by
    refine List.filter_congr fun m hm => ?_
    rw [decide_eq_decide]
    exact and_iff_left (hle m hm)
  refine Option.map_injective (fun _ _ => UInt32.toNat_inj.mp) ?_
  have hmarks : (mods.filter fun m => m.rel = rel).map (fun m => m.block.toNat + 1)
      = ((mods.filter fun m => m.rel = rel).map Modification.block).map
          fun b : UInt32 => b.toNat + 1 := by
    rw [List.map_map]
    rfl
  rw [atHighWater_of_along n hbounded hwithin, highWater, hall, Option.map_map, hmarks,
    max?_map fun a b => by rw [UInt32.toNat_max]; omega]
  refine Option.map_congr fun b hb => ?_
  obtain ⟨m, hm, rfl⟩ := List.mem_map.mp (List.max?_mem hb)
  have hfit := hbounded m (List.mem_filter.mp hm).1
  show m.block.toNat + 1 = (m.block + 1).toNat
  rw [UInt32.toNat_add]
  exact (Nat.mod_eq_of_lt hfit).symm

/-- The blocks of `rel` in the records up to `lsn`. -/
def blocksUpTo (placed : List (Lsn × FpiRecord)) (rel : RelTag) (lsn : Lsn) : List UInt32 :=
  (placed.filter fun e => e.1 ≤ lsn).flatMap fun e => e.2.blocksOf rel

theorem blocks_placedMods (placed : List (Lsn × FpiRecord)) (rel : RelTag) :
    ((placedMods placed).filter fun m => m.rel = rel).map Modification.block
      = placed.flatMap fun e => e.2.blocksOf rel := by
  rw [placedMods, List.filter_flatMap, List.map_flatMap]
  refine congrArg (List.flatMap · placed) (funext fun e => ?_)
  rw [FpiRecord.mods, List.filter_map, List.map_map]
  rfl

theorem placedMods_filter (placed : List (Lsn × FpiRecord)) (lsn : Lsn) :
    ((placedMods placed).filter fun m => decide (m.lsn ≤ lsn))
      = placedMods (placed.filter fun e => e.1 ≤ lsn) := by
  induction placed with
  | nil => rfl
  | cons e placed ih =>
    have hsame : ∀ m ∈ e.2.mods e.1, m.lsn = e.1 := by
      intro m hm
      obtain ⟨b, -, rfl⟩ := List.mem_map.mp hm
      rfl
    show (e.2.mods e.1 ++ placedMods placed).filter _ = _
    rw [List.filter_append, ih]
    by_cases hle : e.1 ≤ lsn
    · rw [List.filter_cons_of_pos (by simpa using hle), List.filter_eq_self.mpr fun m hm => by
        rw [hsame m hm]
        exact decide_eq_true hle]
      rfl
    · rw [List.filter_cons_of_neg (by simpa using hle), List.filter_eq_nil_iff.mpr fun m hm => by
        rw [hsame m hm]
        simpa using hle, List.nil_append]

theorem ascending_placedMods (h : placed.Pairwise fun a b => a.1 < b.1) :
    (placedMods placed).Pairwise fun a b => a.lsn ≤ b.lsn := by
  refine List.pairwise_flatMap.mpr ⟨fun e _ => ?_, h.imp fun {a b} hlt x hx y hy => ?_⟩
  · exact List.pairwise_map.mpr (List.pairwise_of_forall fun _ _ => le_rfl)
  · obtain ⟨_, -, rfl⟩ := List.mem_map.mp hx
    obtain ⟨_, -, rfl⟩ := List.mem_map.mp hy
    exact hlt.le

theorem mem_placedMods {m : Modification} (h : m ∈ placedMods placed) :
    ∃ e ∈ placed, m.lsn = e.1 ∧ m.block.toNat + 1 < 2 ^ 32 := by
  obtain ⟨e, he, hm⟩ := List.mem_flatMap.mp h
  obtain ⟨b, hb, rfl⟩ := List.mem_map.mp hm
  exact ⟨e, he, rfl, e.2.bounded b hb⟩

theorem getRelSize_placedMods (n : Nat) (h : placed.Pairwise fun a b => a.1 < b.1) (rel : RelTag)
    (lsn : Lsn) :
    ((Repository.new n).ingest (placedMods placed)).getRelSize rel lsn
      = (blocksUpTo placed rel lsn).max?.map (· + 1) := by
  have hfuture : RelSizesAgree lsn ((Repository.new n).ingest (placedMods placed))
      ((Repository.new n).ingest (placedMods (placed.filter fun e => e.1 ≤ lsn))) := by
    rw [← placedMods_filter]
    exact AgreeUpTo.relSizes_ingest_filter fun _ _ _ _ => Iff.rfl
  rw [hfuture.getRelSize_eq le_rfl,
    getRelSize_ascending n rel (ascending_placedMods (h.filter _)) (fun m hm => ?_) (fun m hm => ?_),
    blocks_placedMods, blocksUpTo]
  · obtain ⟨e, -, -, hbounded⟩ := mem_placedMods hm
    exact hbounded
  · obtain ⟨e, he, hlsn, -⟩ := mem_placedMods hm
    rw [hlsn]
    exact of_decide_eq_true (List.mem_filter.mp he).2

/-! ## The whole path -/

/-- **WAL in, pages out.** A stream of records with page images is ingested completely. Then a
page reads, at every LSN and with every lawful backend, as the image in the last record up to
that LSN that has it, and is not found if none has; and a relation is one block longer than the
largest block seen. -/
theorem wal_in_pages_out {redo : WalRedoManager} (hl : redo.Lawful) (H : PageHeaders) (codecs : Codecs)
    (n : Nat) (start : Lsn) (recs : List FpiRecord)
    (hfits : H.fin start.raw.toNat (recs.map FpiRecord.image) ≤ 2 ^ 64) :
    let placed := H.placed start.raw.toNat recs
    let out := (Repository.new n).ingestWal codecs start
      (H.wal start.raw.toNat (recs.map FpiRecord.image))
    out.2 = .ok recs.length ∧
      (∀ key lsn, out.1.getPage redo key lsn
        = .ok ((lastPage placed key lsn).elim .notFound .page)) ∧
      ∀ rel lsn, out.1.getRelSize rel lsn = (blocksUpTo placed rel lsn).max?.map (· + 1) := by
  intro placed out
  have hout : out = ((Repository.new n).ingest (placedMods placed), .ok recs.length) :=
    ingestWal_eq H codecs (Repository.new n) start recs
  have hascending := PageHeaders.placed_ascending hfits
  rw [hout]
  exact ⟨rfl, getPage_placedMods hl n hascending, getRelSize_placedMods n hascending⟩

/-- Four bytes and a hole up to the end of the page. -/
def sampleImage : PageImage where
  page := [1, 2, 3, 4] ++ List.replicate 8188 0
  holeOffset := 4
  holeLength := 8188
  apply := true
  whole := by
    rw [List.length_append, List.length_replicate]
    rfl
  inside := by decide
  zeros := by
    have hdrop : ([1, 2, 3, 4] ++ List.replicate 8188 0 : List UInt8).drop 4 = List.replicate 8188 0 :=
      rfl
    show (([1, 2, 3, 4] ++ List.replicate 8188 0 : List UInt8).drop 4).take 8188 = List.replicate 8188 0
    rw [hdrop, List.take_replicate, Nat.min_self]

def sampleBlock : FpiBlock where
  block := ⟨0, ⟨1663, 5, 16384, .main⟩, 7, false, false, some sampleImage.layout, [], by decide, by decide⟩
  image := sampleImage
  shows := rfl

def sampleRecord : FpiRecord where
  layout :=
    { blocks := [sampleBlock.block]
      origin := none
      toplevelXid := none
      mainData := [9]
      longEntry := false
      inherits := ⟨fun h => absurd h (by decide), trivial⟩
      short := fun _ => by decide
      xid := 700
      prev := 0
      info := 0
      rmid := 1
      padding := 0
      crc := 0
      fits := by decide +kernel }
  blocks := [sampleBlock]
  blocks_eq := rfl
  plain := ⟨rfl, rfl⟩
  main := by decide
  bounded := by decide
  nodup := by decide

def sampleHeaders : PageHeaders where
  header pos := [0x13, 0xD1] ++ List.replicate
    ((if pos % DEFAULT_WAL_SEG_SIZE.toNat = 0 then SIZE_OF_XLOG_LONG_PHD else SIZE_OF_XLOG_SHORT_PHD) - 2) 0
  size pos := by
    rw [List.length_append, List.length_replicate]
    split <;> rfl
  magic _ := rfl

theorem wal_in_pages_out_sample :
    ((Repository.new 4).ingestWal ⟨fun _ _ => none, fun _ _ => none⟩ 40
        (sampleHeaders.wal 40 [sampleRecord.image])).1.getPage rustApply ⟨⟨1663, 5, 16384, .main⟩, 7⟩ 40
      = .ok (.page sampleImage.page) :=
  (wal_in_pages_out rustApply_lawful sampleHeaders ⟨fun _ _ => none, fun _ _ => none⟩ 4 40 [sampleRecord]
    (by decide +kernel)).2.1 ⟨⟨1663, 5, 16384, .main⟩, 7⟩ 40

end AethelDB.Pageserver
