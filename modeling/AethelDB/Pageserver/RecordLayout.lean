import AethelDB.Lib.Reader
import AethelDB.Pageserver.Waldecode

/-!
# Records as PostgreSQL 16 lays them out

A record is a 24-byte header, a header section, and a data section. The header section has
one entry per registered block, then optionally the replication origin and the top-level
transaction id, then the length of the main data, which is left out when there is none. The
data section has each block's image and data in the order of the block headers, then the main
data. `RecordLayout` is a record with these parts and `RecordLayout.bytes` its image.

`decodeWalRecord` ends the header section at the main-data entry only, and takes eight bytes
for a top-level transaction id where four are written. So the layout is undone exactly if
there is main data and no top-level transaction id (`decode_layout_iff`). For the converse
nothing has to be known about what the decoder makes of the bytes behind the point where it
gets out of step: it has then passed the end of the header section, and too little is left
for the images and data it would have to return.
-/

namespace AethelDB.Pageserver

open AethelDB.Lib

/-! ## Fixed-width integers -/

/-- `w` bytes of `n`, least significant first. -/
def leBytes : (w : Nat) → Nat → List UInt8
  | 0, _ => []
  | w + 1, n => UInt8.ofNat n :: leBytes w (n / 256)

@[simp] theorem length_leBytes (w n : Nat) : (leBytes w n).length = w := by
  induction w generalizing n with
  | zero => rfl
  | succ w ih => rw [leBytes, List.length_cons, ih]

theorem fromLeBytes_leBytes {w n : Nat} (h : n < 256 ^ w) : fromLeBytes (leBytes w n) = n := by
  induction w generalizing n with
  | zero =>
    rw [Nat.pow_zero] at h
    rw [leBytes, fromLeBytes]
    omega
  | succ w ih =>
    rw [Nat.pow_succ] at h
    have hbyte : (UInt8.ofNat n).toNat = n % 256 := UInt8.toNat_ofNat'
    rw [leBytes, fromLeBytes, ih (by omega), hbyte]
    omega

namespace Cursor

variable {what : String}

theorem takes_u8 (b : UInt8) : Takes (u8 what) [b] b := fun _ => rfl

theorem takes_take {xs : List UInt8} {n : Nat} (hn : xs.length = n) : Takes (take n what) xs xs := by
  subst hn
  intro rest
  unfold take
  rw [if_neg (by rw [List.length_append]; omega), List.take_left, List.drop_left]

theorem takes_skip {xs : List UInt8} {n : Nat} (hn : xs.length = n) : Takes (skip n what) xs () :=
  (takes_take hn).bind_pure fun _ => ()

theorem takes_u16 (n : UInt16) : Takes (u16 what) (leBytes 2 n.toNat) n := by
  have h := (@takes_take what _ _ (length_leBytes 2 n.toNat)).bind_pure
    fun bs => UInt16.ofNat (fromLeBytes bs)
  rw [fromLeBytes_leBytes n.toNat_lt, UInt16.ofNat_toNat] at h
  exact h

theorem takes_u32 (n : UInt32) : Takes (u32 what) (leBytes 4 n.toNat) n := by
  have h := (@takes_take what _ _ (length_leBytes 4 n.toNat)).bind_pure
    fun bs => UInt32.ofNat (fromLeBytes bs)
  rw [fromLeBytes_leBytes n.toNat_lt, UInt32.ofNat_toNat] at h
  exact h

theorem takes_u64 (n : UInt64) : Takes (u64 what) (leBytes 8 n.toNat) n := by
  have h := (@takes_take what _ _ (length_leBytes 8 n.toNat)).bind_pure
    fun bs => UInt64.ofNat (fromLeBytes bs)
  rw [fromLeBytes_leBytes n.toNat_lt, UInt64.ofNat_toNat] at h
  exact h

theorem spends_u8 : Spends (u8 what) fun _ => 1 := by
  intro xs rest b h
  cases xs with
  | nil => simp [u8] at h
  | cons x xs =>
    obtain ⟨rfl, rfl⟩ := Prod.mk.inj (Except.ok.inj h)
    rfl

theorem take_ok {n : Nat} {xs rest out : List UInt8} (h : take n what xs = .ok (out, rest)) :
    out.length = n ∧ rest.length + n = xs.length := by
  unfold take at h
  split at h
  · simp at h
  · obtain ⟨rfl, rfl⟩ := Prod.mk.inj (Except.ok.inj h)
    rw [List.length_take, List.length_drop]
    omega

theorem spends_take (n : Nat) : Spends (take n what) List.length := by
  intro xs rest out h
  obtain ⟨hout, hrest⟩ := take_ok h
  omega

theorem spends_take_pure {α : Type} (n : Nat) (f : List UInt8 → α) :
    Spends (take n what >>= fun bytes => pure (f bytes)) fun _ => n := by
  intro xs rest a h
  obtain ⟨bytes, mid, htake, hpure⟩ := Reader.bind_ok h
  obtain ⟨-, rfl⟩ := Prod.mk.inj (Except.ok.inj hpure)
  exact (take_ok htake).2.le

theorem spends_u16 : Spends (u16 what) fun _ => 2 := spends_take_pure 2 _

theorem spends_u32 : Spends (u32 what) fun _ => 4 := spends_take_pure 4 _

theorem spends_skip (n : Nat) : Spends (skip n what) fun _ => n := spends_take_pure n _

end Cursor

/-! ## Images and blocks -/

/-- A full-page image as it stands in a record. `hole` is the length of the hole that was cut
out, if the page had one. -/
structure ImageLayout where
  bytes : List UInt8
  holeOffset : UInt16
  hole : Option UInt16
  compression : Compression
  apply : Bool
  small : bytes.length < 2 ^ 16
  /-- Without compression the image and the hole make up a page. -/
  sized : ∀ l, hole = some l → compression = .none → bytes.length + l.toNat = XLOG_BLCKSZ

def bimgInfo (hole apply : Bool) (compression : Compression) : UInt8 :=
  (if hole then BKPIMAGE_HAS_HOLE else 0) ||| (if apply then BKPIMAGE_APPLY else 0) |||
    match compression with
    | .none => 0
    | .pglz => BKPIMAGE_COMPRESS_PGLZ
    | .lz4 => BKPIMAGE_COMPRESS_LZ4
    | .zstd => BKPIMAGE_COMPRESS_ZSTD

theorem bimgInfo_bits (hole apply : Bool) (compression : Compression) :
    hasFlag (bimgInfo hole apply compression) BKPIMAGE_HAS_HOLE = hole ∧
      hasFlag (bimgInfo hole apply compression) BKPIMAGE_APPLY = apply ∧
      hasFlag (bimgInfo hole apply compression) BKPIMAGE_COMPRESSED = (compression != .none) ∧
      compressionFromInfo (bimgInfo hole apply compression) = compression := by
  cases compression <;> revert hole apply <;> decide

namespace ImageLayout

variable (img : ImageLayout)

def info : UInt8 := bimgInfo img.hole.isSome img.apply img.compression

/-- The image header; the length of the hole is only written for a compressed image. -/
def header : List UInt8 :=
  leBytes 2 img.bytes.length ++ (leBytes 2 img.holeOffset.toNat ++ ([img.info] ++
    if img.hole.isSome && img.compression != .none then leBytes 2 (img.hole.getD 0).toNat else []))

/-- The image as the decoder should return it. -/
def decoded : DecodedImage :=
  ⟨img.bytes, img.holeOffset, img.hole.getD 0, img.compression, img.apply⟩

/-- What the decoder remembers of the image header. -/
def imageMeta : ImageMeta :=
  ⟨UInt16.ofNat img.bytes.length, img.holeOffset, img.hole.getD 0, img.compression, img.apply⟩

theorem bimgLen_toNat : (UInt16.ofNat img.bytes.length).toNat = img.bytes.length := by
  rw [UInt16.toNat_ofNat']
  exact Nat.mod_eq_of_lt img.small

theorem takes_holeLength :
    Takes (if img.hole.isSome && img.compression != .none then Cursor.u16 "hole_length"
        else if img.hole.isSome then pure (UInt16.ofNat XLOG_BLCKSZ - UInt16.ofNat img.bytes.length)
        else pure 0 : Cursor UInt16)
      (if img.hole.isSome && img.compression != .none then leBytes 2 (img.hole.getD 0).toNat else [])
      (img.hole.getD 0) := by
  split
  · exact Cursor.takes_u16 _
  · next hstored =>
    split
    · next hhole =>
      obtain ⟨l, hl⟩ := Option.isSome_iff_exists.mp hhole
      have hnone : img.compression = .none := by
        rw [hl] at hstored
        simpa using hstored
      have hsized := img.sized l hl hnone
      have hdiff : UInt16.ofNat XLOG_BLCKSZ - UInt16.ofNat img.bytes.length = l := by
        have hpage : (UInt16.ofNat XLOG_BLCKSZ).toNat = XLOG_BLCKSZ := rfl
        have hlt := l.toNat_lt
        rw [← UInt16.toNat_inj, UInt16.toNat_sub, img.bimgLen_toNat, hpage]
        simp only [XLOG_BLCKSZ, PAGE_SIZE] at hsized ⊢
        omega
      rw [hdiff, hl]
      exact Takes.pure l
    · next hhole =>
      rw [Option.not_isSome_iff_eq_none] at hhole
      rw [hhole]
      exact Takes.pure 0

theorem takes_header : Takes readImageMeta img.header img.imageMeta := by
  obtain ⟨hhole, happly, hcompressed, hfrom⟩ :=
    bimgInfo_bits img.hole.isSome img.apply img.compression
  unfold readImageMeta header
  rw [← img.bimgLen_toNat]
  refine (Cursor.takes_u16 _).bind ((Cursor.takes_u16 _).bind ((Cursor.takes_u8 _).bind ?_))
  simp only [info, hhole, happly, hcompressed, hfrom]
  rw [Reader.ite_bind, Reader.ite_bind]
  exact img.takes_holeLength.bind_pure fun l =>
    (⟨UInt16.ofNat img.bytes.length, img.holeOffset, l, img.compression, img.apply⟩ : ImageMeta)

end ImageLayout

/-- A registered block. `sameRel`: the locator is left out because the block before has the
same. -/
structure BlockLayout where
  id : UInt8
  rel : RelTag
  blkno : UInt32
  willInit : Bool
  sameRel : Bool
  image : Option ImageLayout
  data : List UInt8
  legal : id ≤ XLR_MAX_BLOCK_ID
  small : data.length < 2 ^ 16

def forkFlags (fork : ForkNumber) (image data willInit sameRel : Bool) : UInt8 :=
  fork.toByte ||| (if image then BKPBLOCK_HAS_IMAGE else 0) |||
    (if data then BKPBLOCK_HAS_DATA else 0) ||| (if willInit then BKPBLOCK_WILL_INIT else 0) |||
    if sameRel then BKPBLOCK_SAME_REL else 0

theorem forkFlags_bits (fork : ForkNumber) (image data willInit sameRel : Bool) :
    ForkNumber.fromRaw (forkFlags fork image data willInit sameRel &&& BKPBLOCK_FORK_MASK)
        = some fork ∧
      hasFlag (forkFlags fork image data willInit sameRel) BKPBLOCK_HAS_IMAGE = image ∧
      hasFlag (forkFlags fork image data willInit sameRel) BKPBLOCK_HAS_DATA = data ∧
      hasFlag (forkFlags fork image data willInit sameRel) BKPBLOCK_WILL_INIT = willInit ∧
      hasFlag (forkFlags fork image data willInit sameRel) BKPBLOCK_SAME_REL = sameRel := by
  cases fork <;> revert image data willInit sameRel <;> decide

/-- The bytes of images and data a decoded block stands for. -/
def DecodedBlock.payload (b : DecodedBlock) : Nat :=
  ((b.image.map fun img => img.bytes.length).getD 0) + b.data.length

namespace BlockLayout

variable (b : BlockLayout)

def locator : Locator := (b.rel.spcNode, b.rel.dbNode, b.rel.relNode)

def flags : UInt8 :=
  forkFlags b.rel.fork b.image.isSome (!b.data.isEmpty) b.willInit b.sameRel

def imageHeader : List UInt8 := (b.image.map ImageLayout.header).getD []

/-- The locator, unless it is inherited. -/
def locatorBytes : List UInt8 :=
  if b.sameRel then []
  else leBytes 4 b.rel.spcNode.toNat ++ (leBytes 4 b.rel.dbNode.toNat ++ leBytes 4 b.rel.relNode.toNat)

/-- The block header behind the block id. -/
def headerTail : List UInt8 :=
  [b.flags] ++ (leBytes 2 b.data.length ++ (b.imageHeader ++ (b.locatorBytes ++ leBytes 4 b.blkno.toNat)))

def header : List UInt8 := b.id :: b.headerTail

/-- The block's part of the data section. -/
def payload : List UInt8 := ((b.image.map ImageLayout.bytes).getD []) ++ b.data

/-- The block as the decoder should return it. -/
def decoded : DecodedBlock :=
  ⟨b.rel, b.blkno, b.willInit, b.image.map ImageLayout.decoded, b.data⟩

/-- What the decoder remembers of the block header. -/
def work : BlockWork where
  rel := b.rel
  blkno := b.blkno
  willInit := b.willInit
  hasData := !b.data.isEmpty
  dataLen := UInt16.ofNat b.data.length
  imageMeta := b.image.map ImageLayout.imageMeta

theorem length_payload : b.payload.length = b.decoded.payload := by
  unfold payload decoded DecodedBlock.payload
  cases b.image with
  | none => simp
  | some img => simp [ImageLayout.decoded]

theorem dataLen_toNat : (UInt16.ofNat b.data.length).toNat = b.data.length := by
  rw [UInt16.toNat_ofNat']
  exact Nat.mod_eq_of_lt b.small

theorem takes_imageHeader :
    Takes (if b.image.isSome then some <$> readImageMeta else pure none : Cursor (Option ImageMeta))
      b.imageHeader (b.image.map ImageLayout.imageMeta) := by
  unfold imageHeader
  cases b.image with
  | none => exact Takes.pure none
  | some img => exact img.takes_header.map some

theorem takes_locator {last : Option Locator} (h : b.sameRel = true → last = some b.locator) :
    Takes (readLocator b.sameRel last) b.locatorBytes b.locator := by
  unfold readLocator locatorBytes
  split
  · next hsame =>
    rw [h hsame]
    exact Takes.pure b.locator
  · exact (Cursor.takes_u32 _).bind ((Cursor.takes_u32 _).bind ((Cursor.takes_u32 _).bind_pure
      fun relnode => (b.rel.spcNode, b.rel.dbNode, relnode)))

theorem takes_headerTail {last : Option Locator} (h : b.sameRel = true → last = some b.locator) :
    Takes (readBlockHeader last) b.headerTail (b.work, b.locator) := by
  obtain ⟨hfork, himage, hdata, hinit, hsame⟩ :=
    forkFlags_bits b.rel.fork b.image.isSome (!b.data.isEmpty) b.willInit b.sameRel
  unfold readBlockHeader headerTail
  rw [← b.dataLen_toNat]
  refine (Cursor.takes_u8 _).bind ((Cursor.takes_u16 _).bind ?_)
  simp only [flags, hfork, himage, hdata, hinit, hsame]
  rw [Reader.ite_bind]
  refine b.takes_imageHeader.bind ((b.takes_locator h).bind ?_)
  exact (Cursor.takes_u32 b.blkno).bind_pure fun blkno => ({ b.work with blkno }, b.locator)

theorem takes_data :
    Takes (if b.work.hasData then Cursor.take b.work.dataLen.toNat "block data" else pure [] :
      Cursor (List UInt8)) b.data b.data := by
  unfold work
  cases hd : b.data with
  | nil => exact Takes.pure []
  | cons x xs =>
    have hlen := b.dataLen_toNat
    rw [hd] at hlen
    exact Cursor.takes_take hlen.symm

theorem takes_payload : Takes (readBlockData b.work) b.payload b.decoded := by
  have hrest : Takes
      (do
        let data ← if b.work.hasData then Cursor.take b.work.dataLen.toNat "block data" else pure []
        return ⟨b.rel, b.blkno, b.willInit, b.image.map ImageLayout.decoded, data⟩ :
          Cursor DecodedBlock) b.data b.decoded := by
    rw [Reader.ite_bind]
    exact b.takes_data.bind_pure fun data =>
      (⟨b.rel, b.blkno, b.willInit, b.image.map ImageLayout.decoded, data⟩ : DecodedBlock)
  have hwork : b.work.imageMeta = b.image.map ImageLayout.imageMeta := rfl
  unfold readBlockData payload
  rw [hwork]
  cases himage : b.image with
  | none =>
    rw [himage] at hrest
    exact (Takes.pure none).bind hrest
  | some img =>
    rw [himage] at hrest
    refine (Cursor.takes_take img.bimgLen_toNat.symm).bind ?_
    exact hrest

end BlockLayout

/-- A block that leaves its locator out follows one with the same locator. -/
def Inherits : Option Locator → List BlockLayout → Prop
  | _, [] => True
  | last, b :: blocks =>
    (b.sameRel = true → last = some b.locator) ∧ Inherits (some b.locator) blocks

/-! ## Records -/

/-- Everything behind the fixed header. -/
structure RecordBody where
  blocks : List BlockLayout
  origin : Option UInt16
  toplevelXid : Option UInt32
  mainData : List UInt8
  /-- The length of the main data is written in four bytes. -/
  longEntry : Bool
  inherits : Inherits none blocks
  short : longEntry = false → mainData.length < 256

namespace RecordBody

variable (r : RecordBody)

def originEntry : List UInt8 :=
  (r.origin.map fun o => XLR_BLOCK_ID_ORIGIN :: leBytes 2 o.toNat).getD []

def toplevelXidEntry : List UInt8 :=
  (r.toplevelXid.map fun x => XLR_BLOCK_ID_TOPLEVEL_XID :: leBytes 4 x.toNat).getD []

/-- The main-data entry, present only when there is main data. -/
def mainDataEntry : List UInt8 :=
  if r.mainData = [] then []
  else if r.longEntry then XLR_BLOCK_ID_DATA_LONG :: leBytes 4 r.mainData.length
  else [XLR_BLOCK_ID_DATA_SHORT, UInt8.ofNat r.mainData.length]

def blockHeaders : List UInt8 := r.blocks.flatMap BlockLayout.header

def dataSection : List UInt8 := r.blocks.flatMap BlockLayout.payload ++ r.mainData

def bytes : List UInt8 :=
  r.blockHeaders ++ (r.originEntry ++ (r.toplevelXidEntry ++ (r.mainDataEntry ++ r.dataSection)))

end RecordBody

structure RecordLayout extends RecordBody where
  xid : UInt32
  prev : UInt64
  info : UInt8
  rmid : UInt8
  padding : UInt16
  crc : UInt32
  fits : SIZE_OF_XLOG_RECORD + toRecordBody.bytes.length < 2 ^ 32

namespace RecordLayout

variable (r : RecordLayout)

def totLen : UInt32 := UInt32.ofNat (SIZE_OF_XLOG_RECORD + r.toRecordBody.bytes.length)

def fixedHeader : List UInt8 :=
  leBytes 4 r.totLen.toNat ++ (leBytes 4 r.xid.toNat ++ (leBytes 8 r.prev.toNat ++ ([r.info] ++
    ([r.rmid] ++ (leBytes 2 r.padding.toNat ++ leBytes 4 r.crc.toNat)))))

def bytes : List UInt8 := r.fixedHeader ++ r.toRecordBody.bytes

/-- The record as the decoder should return it. -/
def decoded (lsn : Lsn) : DecodedWalRecord :=
  ⟨lsn, r.rmid, r.info, r.xid, r.mainData, r.blocks.map BlockLayout.decoded⟩

theorem length_bytes : r.bytes.length = SIZE_OF_XLOG_RECORD + r.toRecordBody.bytes.length := by
  unfold bytes fixedHeader
  simp only [List.length_append, length_leBytes, List.length_singleton]
  rfl

theorem totLen_toNat : r.totLen.toNat = r.bytes.length := by
  rw [length_bytes, totLen, UInt32.toNat_ofNat']
  exact Nat.mod_eq_of_lt r.fits

end RecordLayout

/-! ## The header section -/

theorem readHeaders_block (b : BlockLayout) {last : Option Locator}
    (h : b.sameRel = true → last = some b.locator) (fuel : Nat) (acc : List BlockWork)
    (rest : List UInt8) :
    readHeaders (fuel + 1) acc last (b.header ++ rest)
      = readHeaders fuel (acc ++ [b.work]) (some b.locator) rest := by
  have hle : b.id.toNat ≤ 32 := b.legal
  have hne : ∀ id : UInt8, 32 < id.toNat → b.id ≠ id := by
    rintro id hid rfl
    omega
  show readHeaders (fuel + 1) acc last ([b.id] ++ (b.headerTail ++ rest)) = _
  rw [readHeaders, Reader.bind_of_ok _ (Cursor.takes_u8 b.id (b.headerTail ++ rest)),
    if_neg (hne XLR_BLOCK_ID_DATA_SHORT (by decide)), if_neg (hne XLR_BLOCK_ID_DATA_LONG (by decide)),
    if_neg (hne XLR_BLOCK_ID_ORIGIN (by decide)),
    if_neg (hne XLR_BLOCK_ID_TOPLEVEL_XID (by decide)), if_pos b.legal,
    Reader.bind_of_ok _ (b.takes_headerTail h rest)]

theorem readHeaders_blocks :
    ∀ {blocks : List BlockLayout} {last : Option Locator}, Inherits last blocks →
      ∀ (fuel : Nat) (acc : List BlockWork) (rest : List UInt8), ∃ last',
        readHeaders (fuel + blocks.length) acc last (blocks.flatMap BlockLayout.header ++ rest)
          = readHeaders fuel (acc ++ blocks.map BlockLayout.work) last' rest := by
  intro blocks
  induction blocks with
  | nil =>
    intro last _ fuel acc rest
    refine ⟨last, ?_⟩
    rw [List.map_nil, List.append_nil]
    rfl
  | cons b blocks ih =>
    intro last hinherits fuel acc rest
    obtain ⟨last', hrest⟩ := ih hinherits.2 fuel (acc ++ [b.work]) rest
    refine ⟨last', ?_⟩
    rw [List.flatMap_cons, List.append_assoc, List.length_cons, ← Nat.add_assoc,
      readHeaders_block b hinherits.1, hrest, List.map_cons, List.append_assoc,
      List.singleton_append]

theorem readHeaders_origin (r : RecordBody) (fuel : Nat) (acc : List BlockWork)
    (last : Option Locator) (rest : List UInt8) :
    ∃ fuel', fuel ≤ fuel' ∧
      readHeaders (fuel + 1) acc last (r.originEntry ++ rest) = readHeaders fuel' acc last rest := by
  unfold RecordBody.originEntry
  cases r.origin with
  | none => exact ⟨fuel + 1, Nat.le_succ _, rfl⟩
  | some o =>
    refine ⟨fuel, le_rfl, ?_⟩
    show readHeaders (fuel + 1) acc last ([XLR_BLOCK_ID_ORIGIN] ++ (leBytes 2 o.toNat ++ rest)) = _
    rw [readHeaders, Reader.bind_of_ok _ (Cursor.takes_u8 XLR_BLOCK_ID_ORIGIN _), if_neg (by decide),
      if_neg (by decide), if_pos rfl,
      Reader.bind_of_ok _ (Cursor.takes_skip (length_leBytes 2 o.toNat) rest)]

/-- The main-data entry ends the header section. -/
theorem readHeaders_mainData (r : RecordBody) (hne : r.mainData ≠ [])
    (hsmall : r.mainData.length < 2 ^ 32) (fuel : Nat) (acc : List BlockWork)
    (last : Option Locator) (rest : List UInt8) :
    readHeaders (fuel + 1) acc last (r.mainDataEntry ++ rest)
      = .ok ((acc, r.mainData.length), rest) := by
  unfold RecordBody.mainDataEntry
  rw [if_neg hne]
  cases hlong : r.longEntry with
  | true =>
    have hlen : (UInt32.ofNat r.mainData.length).toNat = r.mainData.length := by
      rw [UInt32.toNat_ofNat']
      exact Nat.mod_eq_of_lt hsmall
    rw [if_pos rfl, ← hlen]
    show readHeaders (fuel + 1) acc last
      ([XLR_BLOCK_ID_DATA_LONG] ++ (leBytes 4 (UInt32.ofNat r.mainData.length).toNat ++ rest)) = _
    rw [readHeaders, Reader.bind_of_ok _ (Cursor.takes_u8 XLR_BLOCK_ID_DATA_LONG _),
      if_neg (by decide), if_pos rfl, Reader.bind_of_ok _ (Cursor.takes_u32 _ rest)]
    rfl
  | false =>
    have hlen : (UInt8.ofNat r.mainData.length).toNat = r.mainData.length := by
      rw [UInt8.toNat_ofNat']
      exact Nat.mod_eq_of_lt (r.short hlong)
    rw [if_neg (by decide)]
    show readHeaders (fuel + 1) acc last
      ([XLR_BLOCK_ID_DATA_SHORT] ++ ([UInt8.ofNat r.mainData.length] ++ rest)) = _
    rw [readHeaders, Reader.bind_of_ok _ (Cursor.takes_u8 XLR_BLOCK_ID_DATA_SHORT _), if_pos rfl,
      Reader.bind_of_ok _ (Cursor.takes_u8 _ rest)]
    show Except.ok ((acc, (UInt8.ofNat r.mainData.length).toNat), rest) = _
    rw [hlen]

theorem spends_readImageMeta : Spends readImageMeta fun _ => 5 := by
  unfold readImageMeta
  refine Cursor.spends_u16.bind fun _ => Cursor.spends_u16.bind fun _ => Cursor.spends_u8.bind ?_
  intro bimgInfo
  dsimp only
  split
  · exact Cursor.spends_u16.bind fun _ => Spends.pure rfl
  split
  · exact Spends.pure rfl
  · exact Spends.pure rfl

theorem spends_readLocator (sameRel : Bool) (last : Option Locator) :
    Spends (readLocator sameRel last) fun _ => 0 := by
  unfold readLocator
  split
  · cases last with
    | none => exact Spends.throw _ _
    | some l => exact Spends.pure rfl
  · exact Cursor.spends_u32.bind fun _ => Cursor.spends_u32.bind fun _ =>
      Cursor.spends_u32.bind fun _ => Spends.pure rfl

theorem spends_readBlockHeader (last : Option Locator) :
    Spends (readBlockHeader last) fun _ => 7 := by
  unfold readBlockHeader
  refine Cursor.spends_u8.bind fun forkFlags => Cursor.spends_u16.bind fun dataLen => ?_
  have himage : Spends (if hasFlag forkFlags BKPBLOCK_HAS_IMAGE then some <$> readImageMeta
      else pure none) fun _ => 0 := by
    split
    · exact (Spends.map spends_readImageMeta some).mono fun _ => Nat.zero_le _
    · exact Spends.pure rfl
  dsimp only
  rw [Reader.ite_bind]
  refine himage.bind fun imageMeta => (spends_readLocator _ _).bind fun locator =>
    Cursor.spends_u32.bind fun blkno => ?_
  cases ForkNumber.fromRaw (forkFlags &&& BKPBLOCK_FORK_MASK) with
  | none => exact Spends.throw _ _
  | some fork => exact Spends.pure rfl

/-- The header section takes at least a main-data entry. -/
theorem spends_readHeaders :
    ∀ (fuel : Nat) (acc : List BlockWork) (last : Option Locator),
      Spends (readHeaders fuel acc last) fun _ => 2 := by
  intro fuel
  induction fuel with
  | zero => intro acc last; exact Spends.throw _ _
  | succ fuel ih =>
    intro acc last
    unfold readHeaders
    refine Cursor.spends_u8.bind fun blockId => ?_
    split
    · exact Cursor.spends_u8.bind fun _ => Spends.pure rfl
    split
    · exact Cursor.spends_u32.bind fun _ => Spends.pure rfl
    split
    · exact (Cursor.spends_skip 2).bind fun _ => (ih acc last).mono fun _ => by decide
    split
    · exact (Cursor.spends_skip 8).bind fun _ => (ih acc last).mono fun _ => by decide
    split
    · exact (spends_readBlockHeader last).bind fun b => (ih _ _).mono fun _ => by decide
    · exact Spends.throw _ _

/-! ## The data section -/

/-- What is read behind the header section. -/
def readData (lsn : Lsn) (rmid info : UInt8) (xid : UInt32) (blocks : List BlockWork)
    (mainDataLen : Nat) : Cursor DecodedWalRecord := do
  let decodedBlocks ← blocks.mapM readBlockData
  let mainData ← Cursor.take mainDataLen "main data"
  return ⟨lsn, rmid, info, xid, mainData, decodedBlocks⟩

theorem takes_dataSection (r : RecordLayout) (lsn : Lsn) :
    Takes (readData lsn r.rmid r.info r.xid (r.blocks.map BlockLayout.work) r.mainData.length)
      r.dataSection (r.decoded lsn) := by
  have hblocks : Takes ((r.blocks.map BlockLayout.work).mapM readBlockData)
      (r.blocks.flatMap BlockLayout.payload) (r.blocks.map BlockLayout.decoded) := by
    rw [List.mapM_map]
    exact Takes.mapM fun b _ => b.takes_payload
  exact hblocks.bind ((Cursor.takes_take rfl).bind_pure fun mainData =>
    (⟨lsn, r.rmid, r.info, r.xid, mainData, r.blocks.map BlockLayout.decoded⟩ : DecodedWalRecord))

/-- The bytes of images and data a decoded record stands for. -/
def DecodedWalRecord.payload (d : DecodedWalRecord) : Nat :=
  (d.blocks.map DecodedBlock.payload).sum + d.mainData.length

theorem length_dataSection (r : RecordLayout) (lsn : Lsn) :
    r.dataSection.length = (r.decoded lsn).payload := by
  unfold RecordBody.dataSection RecordLayout.decoded DecodedWalRecord.payload
  rw [List.length_append, List.length_flatMap, List.map_map]
  congr 3
  exact funext fun b => b.length_payload

theorem spends_readBlockData (b : BlockWork) : Spends (readBlockData b) DecodedBlock.payload := by
  have hdata : ∀ image : Option DecodedImage, Spends
      (do
        let data ← if b.hasData then Cursor.take b.dataLen.toNat "block data" else pure []
        return ⟨b.rel, b.blkno, b.willInit, image, data⟩ : Cursor DecodedBlock)
      fun d => d.payload - ((image.map fun img => img.bytes.length).getD 0) := by
    intro image
    rw [Reader.ite_bind]
    have htake : Spends
        (if b.hasData then Cursor.take b.dataLen.toNat "block data" else pure [] :
          Cursor (List UInt8)) List.length := by
      split
      · exact Cursor.spends_take _
      · exact Spends.pure rfl
    refine htake.bind fun data => Spends.pure ?_
    simp only [DecodedBlock.payload]
    omega
  unfold readBlockData
  cases b.imageMeta with
  | none => exact hdata none
  | some m =>
    refine (Cursor.spends_take _).bind fun bytes => ?_
    exact hdata (some ⟨bytes, m.holeOffset, m.holeLength, m.compression, m.apply⟩)

theorem spends_readData (lsn : Lsn) (rmid info : UInt8) (xid : UInt32) (blocks : List BlockWork)
    (mainDataLen : Nat) :
    Spends (readData lsn rmid info xid blocks mainDataLen) DecodedWalRecord.payload := by
  refine (Spends.mapM spends_readBlockData blocks).bind fun ds => ?_
  refine (Cursor.spends_take _).bind fun main => Spends.pure ?_
  simp only [DecodedWalRecord.payload]
  omega

/-! ## Whole records -/

/-- The fixed header is read off, and what follows decides. -/
theorem readRecord_bytes (r : RecordLayout) (lsn : Lsn) :
    readRecord lsn r.bytes.length r.bytes
      = (readHeaders r.bytes.length [] none >>= fun h =>
          readData lsn r.rmid r.info r.xid h.1 h.2) r.toRecordBody.bytes := by
  have hlen := r.length_bytes
  have hshort : ¬ r.totLen.toNat < SIZE_OF_XLOG_RECORD := by
    rw [r.totLen_toNat]
    omega
  have hsame : ¬ r.totLen.toNat ≠ r.bytes.length := not_not.mpr r.totLen_toNat
  obtain ⟨n, hn⟩ : ∃ n, r.bytes.length = n := ⟨_, rfl⟩
  rw [hn] at hsame ⊢
  unfold RecordLayout.bytes RecordLayout.fixedHeader
  simp only [List.append_assoc]
  unfold readRecord
  rw [Reader.bind_of_ok _ (Cursor.takes_u32 r.totLen _), Reader.bind_of_ok _ (Cursor.takes_u32 r.xid _),
    Reader.bind_of_ok _ (Cursor.takes_u64 r.prev _), Reader.bind_of_ok _ (Cursor.takes_u8 r.info _),
    Reader.bind_of_ok _ (Cursor.takes_u8 r.rmid _),
    Reader.bind_of_ok _ (Cursor.takes_skip (length_leBytes 2 r.padding.toNat) _),
    Reader.bind_of_ok _ (Cursor.takes_u32 r.crc _), if_neg hshort, if_neg hsame]
  rfl

theorem length_blockHeaders (r : RecordBody) : r.blocks.length ≤ r.blockHeaders.length := by
  unfold RecordBody.blockHeaders
  rw [List.length_flatMap]
  have hle := List.length_le_sum_of_one_le (r.blocks.map fun b => b.header.length) (by
    intro n hn
    obtain ⟨b, -, rfl⟩ := List.mem_map.mp hn
    exact Nat.succ_le_succ (Nat.zero_le _))
  rw [List.length_map] at hle
  exact hle

/-- Up to the top-level transaction id the decoder is in step. -/
theorem readHeaders_bytes (r : RecordLayout) :
    ∃ fuel last, readHeaders r.bytes.length [] none r.toRecordBody.bytes
      = readHeaders (fuel + 1) (r.blocks.map BlockLayout.work) last
          (r.toplevelXidEntry ++ (r.mainDataEntry ++ r.dataSection)) := by
  have hlen := r.length_bytes
  have hblocks := length_blockHeaders r.toRecordBody
  have hsize : SIZE_OF_XLOG_RECORD = 24 := rfl
  have hbody : r.toRecordBody.bytes.length = r.blockHeaders.length + _ := List.length_append
  obtain ⟨fuel, hfuel⟩ : ∃ fuel, r.bytes.length = fuel + 1 + 1 + r.blocks.length :=
    ⟨r.bytes.length - r.blocks.length - 2, by omega⟩
  obtain ⟨last, hread⟩ := readHeaders_blocks r.inherits (fuel + 1 + 1) []
    (r.originEntry ++ (r.toplevelXidEntry ++ (r.mainDataEntry ++ r.dataSection)))
  obtain ⟨fuel', hle, horigin⟩ := readHeaders_origin r.toRecordBody (fuel + 1)
    (r.blocks.map BlockLayout.work) last (r.toplevelXidEntry ++ (r.mainDataEntry ++ r.dataSection))
  refine ⟨fuel' - 1, last, ?_⟩
  rw [hfuel, Nat.sub_add_cancel (by omega), ← horigin]
  exact hread

/-- With main data and without a top-level transaction id the layout is undone. -/
theorem decode_layout (r : RecordLayout) (lsn : Lsn) (hmain : r.mainData ≠ [])
    (hxid : r.toplevelXid = none) : decodeWalRecord lsn r.bytes = .ok (r.decoded lsn) := by
  obtain ⟨fuel, last, hheaders⟩ := readHeaders_bytes r
  have hentry : r.toplevelXidEntry = [] := by
    rw [RecordBody.toplevelXidEntry, hxid]
    rfl
  have hsmall : r.mainData.length < 2 ^ 32 := by
    have hfits := r.fits
    simp only [RecordBody.bytes, RecordBody.dataSection, List.length_append] at hfits
    omega
  rw [hentry, List.nil_append, readHeaders_mainData r.toRecordBody hmain hsmall] at hheaders
  have hdata := takes_dataSection r lsn []
  rw [List.append_nil] at hdata
  rw [decodeWalRecord, readRecord_bytes, Reader.bind_of_ok _ hheaders, hdata]
  rfl

/-- Once the decoder has read past the header section, it cannot return the record. -/
theorem not_decoded_of_past (r : RecordLayout) (lsn : Lsn)
    (hpast : ∀ h rest, readHeaders r.bytes.length [] none r.toRecordBody.bytes = .ok (h, rest) →
      rest.length < r.dataSection.length) :
    decodeWalRecord lsn r.bytes ≠ .ok (r.decoded lsn) := by
  intro hdecode
  obtain ⟨⟨d, rest⟩, hread, hd⟩ : ∃ out, readRecord lsn r.bytes.length r.bytes = .ok out ∧
      out.1 = r.decoded lsn := by
    unfold decodeWalRecord at hdecode
    cases hread : readRecord lsn r.bytes.length r.bytes with
    | error e =>
      rw [hread] at hdecode
      simp [Except.map] at hdecode
    | ok out =>
      rw [hread] at hdecode
      exact ⟨out, rfl, Except.ok.inj hdecode⟩
  rw [readRecord_bytes] at hread
  obtain ⟨h, mid, hheaders, hdata⟩ := Reader.bind_ok hread
  have hmid := hpast h mid hheaders
  have hspent := spends_readData lsn r.rmid r.info r.xid h.1 h.2 mid rest d hdata
  rw [show d = r.decoded lsn from hd, ← length_dataSection] at hspent
  omega

theorem length_mainDataEntry (r : RecordBody) : r.mainDataEntry.length ≤ 5 := by
  unfold RecordBody.mainDataEntry
  split
  · exact Nat.zero_le _
  split
  · rw [List.length_cons, length_leBytes]
  · exact Nat.le_add_right 2 3

/-- **What the decoder makes of a PostgreSQL 16 record.** It returns exactly the record's
blocks, images, block data and main data if the record has main data and no top-level
transaction id, and in no other case. -/
theorem decode_layout_iff (r : RecordLayout) (lsn : Lsn) :
    decodeWalRecord lsn r.bytes = .ok (r.decoded lsn)
      ↔ r.mainData ≠ [] ∧ r.toplevelXid = none := by
  refine ⟨fun hdecode => ?_, fun h => decode_layout r lsn h.1 h.2⟩
  obtain ⟨fuel, last, hheaders⟩ := readHeaders_bytes r
  by_contra hnot
  refine not_decoded_of_past r lsn ?_ hdecode
  intro h rest hok
  rw [hheaders] at hok
  cases hxid : r.toplevelXid with
  | some x =>
    -- the id, eight bytes for four, and at least a main-data entry
    have hentry : r.toplevelXidEntry = [XLR_BLOCK_ID_TOPLEVEL_XID] ++ leBytes 4 x.toNat := by
      rw [RecordBody.toplevelXidEntry, hxid]
      rfl
    have hmain := length_mainDataEntry r.toRecordBody
    rw [hentry, List.append_assoc, readHeaders,
      Reader.bind_of_ok _ (Cursor.takes_u8 XLR_BLOCK_ID_TOPLEVEL_XID _), if_neg (by decide),
      if_neg (by decide), if_neg (by decide), if_pos rfl] at hok
    have hspends : Spends (Cursor.skip 8 "toplevel xid" >>= fun _ =>
        readHeaders fuel (r.blocks.map BlockLayout.work) last) fun _ => 10 :=
      (Cursor.spends_skip 8).bind fun _ => spends_readHeaders fuel _ last
    have hspent := hspends _ _ _ hok
    simp only [List.length_append, length_leBytes] at hspent
    omega
  | none =>
    have hentry : r.toplevelXidEntry = [] := by
      rw [RecordBody.toplevelXidEntry, hxid]
      rfl
    have hempty : r.mainData = [] := by
      by_contra hne
      exact hnot ⟨hne, hxid⟩
    have hmain : r.mainDataEntry = [] := by
      rw [RecordBody.mainDataEntry, if_pos hempty]
    rw [hentry, hmain, List.nil_append, List.nil_append] at hok
    have hspent := spends_readHeaders _ _ last _ _ _ hok
    dsimp only at hspent
    omega

def blocklessRecord (toplevelXid : Option UInt32) (mainData : List UInt8)
    (short : mainData.length < 256) : RecordLayout where
  blocks := []
  origin := none
  toplevelXid := toplevelXid
  mainData := mainData
  longEntry := false
  inherits := trivial
  short := fun _ => short
  xid := 700
  prev := 0
  info := 0
  rmid := 1
  padding := 0
  crc := 0
  fits := by
    have hxid : (RecordBody.toplevelXidEntry ⟨[], none, toplevelXid, mainData, false, trivial,
        fun _ => short⟩).length ≤ 5 := by
      unfold RecordBody.toplevelXidEntry
      cases toplevelXid <;> simp
    have hmain := length_mainDataEntry ⟨[], none, toplevelXid, mainData, false, trivial,
      fun _ => short⟩
    simp only [RecordBody.bytes, RecordBody.blockHeaders, RecordBody.originEntry,
      RecordBody.dataSection, List.flatMap_nil, List.nil_append, Option.map_none, Option.getD_none,
      List.length_append, SIZE_OF_XLOG_RECORD]
    omega

/-- The smallest records that are not decoded: one with a top-level transaction id and a byte of
main data, and one that is a header only. A longer main data can hide the loss: the decoder
finds a main-data entry in it and returns `Ok` with its last byte alone. -/
theorem layout_not_decoded :
    decodeWalRecord 8 (blocklessRecord (some 701) [7] (by decide)).bytes
        = .error (.truncated "toplevel xid") ∧
      decodeWalRecord 8 (blocklessRecord none [] (by decide)).bytes
        = .error (.truncated "block_id") ∧
      (decodeWalRecord 8 (blocklessRecord (some 701) [1, 2, 255, 1, 9] (by decide)).bytes).map
        DecodedWalRecord.mainData = .ok [9] := by
  decide

end AethelDB.Pageserver
