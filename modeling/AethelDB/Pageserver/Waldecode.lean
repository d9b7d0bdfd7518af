import AethelDB.Common.Basic

/-!
# The WAL decoder

`pageserver/src/waldecode.rs` in two halves. `WalStreamDecoder` frames a raw WAL byte
stream into record images: WAL is a sequence of 8 KiB pages with a header each,
records are aligned to 8 bytes and may go on behind the header of the next page, and
where headers fall is derived from the running LSN. `decodeWalRecord` parses one
record image into the pages it touches, and `DecodedImage.restore` rebuilds a page
from an image stored in it.

The loops of the source run on fuel here. Every round of the payload loop and of the
poll loop moves forward in the buffer, so its length is enough fuel:
`collectLoop_fuel` and `pollLoop_fuel` say that more makes no difference. The header
section of a record reads at least one byte a round, and runs out of fuel exactly
where the source runs out of bytes. LZ4 and Zstandard are third-party decompressors
and parameters here. A segment size other than the default, and switching off the
magic check, are only for tests and are left as fields.
-/

namespace AethelDB.Pageserver

def XLOG_BLCKSZ : Nat := PAGE_SIZE

def SIZE_OF_XLOG_RECORD : Nat := 24

def SIZE_OF_XLOG_SHORT_PHD : Nat := 24

def SIZE_OF_XLOG_LONG_PHD : Nat := 40

def DEFAULT_WAL_SEG_SIZE : UInt64 := 16 * 1024 * 1024

def XLOG_PAGE_MAGIC_PG16 : UInt16 := 0xD113

/-! Block ids of a record body. -/

def XLR_MAX_BLOCK_ID : UInt8 := 32

def XLR_BLOCK_ID_DATA_SHORT : UInt8 := 255

def XLR_BLOCK_ID_DATA_LONG : UInt8 := 254

def XLR_BLOCK_ID_ORIGIN : UInt8 := 253

def XLR_BLOCK_ID_TOPLEVEL_XID : UInt8 := 252

/-! Bits of a block header's `fork_flags`. -/

def BKPBLOCK_FORK_MASK : UInt8 := 0x0F

def BKPBLOCK_HAS_IMAGE : UInt8 := 0x10

def BKPBLOCK_HAS_DATA : UInt8 := 0x20

def BKPBLOCK_WILL_INIT : UInt8 := 0x40

def BKPBLOCK_SAME_REL : UInt8 := 0x80

/-! Bits of an image header's `bimg_info`. -/

def BKPIMAGE_HAS_HOLE : UInt8 := 0x01

def BKPIMAGE_APPLY : UInt8 := 0x02

def BKPIMAGE_COMPRESS_PGLZ : UInt8 := 0x04

def BKPIMAGE_COMPRESS_LZ4 : UInt8 := 0x08

def BKPIMAGE_COMPRESS_ZSTD : UInt8 := 0x10

def BKPIMAGE_COMPRESSED : UInt8 :=
  BKPIMAGE_COMPRESS_PGLZ ||| BKPIMAGE_COMPRESS_LZ4 ||| BKPIMAGE_COMPRESS_ZSTD

/-- `bits` are not all clear in `flags`. -/
def hasFlag (flags bits : UInt8) : Bool := flags &&& bits != 0

/-- Compression applied to a stored full-page image. -/
inductive Compression where
  | none
  | pglz
  | lz4
  | zstd
deriving DecidableEq, Repr

/-- How the compression prints with `{:?}`. -/
def Compression.debug : Compression → String
  | .none => "None"
  | .pglz => "Pglz"
  | .lz4 => "Lz4"
  | .zstd => "Zstd"

inductive WalDecodeError where
  | truncated (what : String)
  | badTotalLen (declared : UInt32) (actual : Nat)
  | shortTotalLen (declared : UInt32)
  | badBlockId (id : UInt8)
  | sameRelWithoutPrev
  | badFork (fork : UInt8)
  | badPageMagic (got want : UInt16)
  | badImageSize (got want : Nat)
  | decompress (method : Compression)
  | badHole (offset length : Nat)
deriving DecidableEq, Repr

/-- A 16-bit number as `{:#06x}` prints it. -/
def hexWord (n : UInt16) : String :=
  "0x" ++ String.ofList (List.leftpad 4 '0' (Nat.toDigits 16 n.toNat))

def WalDecodeError.display : WalDecodeError → String
  | .truncated what => "WAL record truncated while reading " ++ what
  | .badTotalLen declared actual =>
    "xl_tot_len " ++ toString declared.toNat ++ " != record length " ++ toString actual
  | .shortTotalLen n => "xl_tot_len " ++ toString n.toNat ++ " is shorter than the record header"
  | .badBlockId id => "illegal block id " ++ toString id.toNat ++ " in WAL record"
  | .sameRelWithoutPrev => "BKPBLOCK_SAME_REL with no previous relation"
  | .badFork fork => "unknown fork number " ++ toString fork.toNat
  | .badPageMagic got want =>
    "bad XLOG page magic " ++ hexWord got ++ ", expected " ++ hexWord want
  | .badImageSize got want =>
    "full-page image is " ++ toString got ++ " bytes, expected " ++ toString want
  | .decompress c => "failed to decompress " ++ c.debug ++ " full-page image"
  | .badHole offset length =>
    "image hole offset " ++ toString offset ++ "+" ++ toString length ++ " exceeds page size"

/-- The number whose bytes are `bs`, least significant first. -/
def fromLeBytes : List UInt8 → Nat
  | [] => 0
  | b :: bs => b.toNat + 256 * fromLeBytes bs

/-! ## Full-page images -/

/-- The third-party decompressors, on the stored bytes and the expected size. -/
structure Codecs where
  lz4 : List UInt8 → Nat → Option (List UInt8)
  zstd : List UInt8 → Nat → Option (List UInt8)

/-- A full-page image as stored on the wire: the page without its all-zero hole,
possibly compressed. -/
structure DecodedImage where
  bytes : List UInt8
  holeOffset : UInt16
  holeLength : UInt16
  compression : Compression
  /-- Redo installs the image even when the page already exists. -/
  apply : Bool
deriving DecidableEq, Repr

/-- `for _ in 0..len`: copy from `off` bytes back, up to the size of the output. -/
def pglzCopy (dstLen off : Nat) : Nat → List UInt8 → List UInt8
  | 0, dst => dst
  | len + 1, dst =>
    if dstLen ≤ dst.length then dst
    else pglzCopy dstLen off len (dst ++ [(dst[dst.length - off]?).getD 0])

/-- The up to eight tokens under one control byte; what is left of the input is
returned with the output. -/
def pglzTokens (dstLen : Nat) (ctrl : UInt8) :
    List UInt8 → List UInt8 → List UInt8 → Except WalDecodeError (List UInt8 × List UInt8)
  | [], src, dst => .ok (src, dst)
  | bit :: bits, src, dst =>
    if dstLen ≤ dst.length then .ok (src, dst)
    else match src with
      | [] => .ok ([], dst)
      | b :: src =>
        if (ctrl >>> bit) &&& 1 = 0 then pglzTokens dstLen ctrl bits src (dst ++ [b])
        else match src with
          | [] => .error (.decompress .pglz)
          | b' :: src =>
            let len := (b &&& 0x0f).toNat + 3
            let off := (b &&& 0xf0).toNat * 16 + b'.toNat
            -- a length of 18 is followed by one more length byte
            if len = 18 ∧ src = [] then .error (.decompress .pglz)
            else
              let extra := if len = 18 then (src.headD 0).toNat else 0
              let src := if len = 18 then src.tail else src
              if off = 0 ∨ dst.length < off then .error (.decompress .pglz)
              else pglzTokens dstLen ctrl bits src (pglzCopy dstLen off (len + extra) dst)

/-- One control byte and its tokens, as long as there is input and room. -/
def pglzLoop (dstLen : Nat) : Nat → List UInt8 → List UInt8 → Except WalDecodeError (List UInt8)
  | 0, _, dst => .ok dst
  | _ + 1, [], dst => .ok dst
  | fuel + 1, ctrl :: src, dst =>
    if dstLen ≤ dst.length then .ok dst
    else match pglzTokens dstLen ctrl [0, 1, 2, 3, 4, 5, 6, 7] src dst with
      | .error e => .error e
      | .ok (src, dst) => pglzLoop dstLen fuel src dst

/-- Decompress a `pglz` buffer to at most `dstLen` bytes. -/
def pglzDecompress (src : List UInt8) (dstLen : Nat) : Except WalDecodeError (List UInt8) :=
  pglzLoop dstLen src.length src []

namespace DecodedImage

/-- The page with its hole removed. -/
def body (codecs : Codecs) (img : DecodedImage) (bodyLen : Nat) :
    Except WalDecodeError (List UInt8) :=
  match img.compression with
  | .none =>
    if img.bytes.length ≠ bodyLen then .error (.badImageSize img.bytes.length bodyLen)
    else .ok img.bytes
  | .pglz => pglzDecompress img.bytes bodyLen
  | .lz4 => ((codecs.lz4 img.bytes bodyLen).map Except.ok).getD (.error (.decompress .lz4))
  | .zstd => ((codecs.zstd img.bytes bodyLen).map Except.ok).getD (.error (.decompress .zstd))

/-- Reconstruct the full page from the stored bytes. -/
def restore (codecs : Codecs) (img : DecodedImage) : Except WalDecodeError (List UInt8) :=
  let hl := img.holeLength.toNat
  let ho := img.holeOffset.toNat
  if XLOG_BLCKSZ < ho + hl then .error (.badHole ho hl)
  else
    let bodyLen := XLOG_BLCKSZ - hl
    match img.body codecs bodyLen with
    | .error e => .error e
    | .ok body =>
      if body.length ≠ bodyLen then .error (.badImageSize body.length bodyLen)
      else .ok (body.take ho ++ List.replicate hl 0 ++ body.drop ho)

end DecodedImage

/-! ## Decoding one record -/

/-- One registered block reference within a WAL record. -/
structure DecodedBlock where
  rel : RelTag
  blkno : UInt32
  /-- Redo re-initializes the page, so no base image is needed. -/
  willInit : Bool
  image : Option DecodedImage
  data : List UInt8
deriving DecidableEq

/-- A decoded WAL record: its identity and every page it touches. -/
structure DecodedWalRecord where
  lsn : Lsn
  rmid : UInt8
  info : UInt8
  xid : UInt32
  mainData : List UInt8
  blocks : List DecodedBlock
deriving DecidableEq

def compressionFromInfo (bimgInfo : UInt8) : Compression :=
  if hasFlag bimgInfo BKPIMAGE_COMPRESS_PGLZ then .pglz
  else if hasFlag bimgInfo BKPIMAGE_COMPRESS_LZ4 then .lz4
  else if hasFlag bimgInfo BKPIMAGE_COMPRESS_ZSTD then .zstd
  else .none

/-- Bounds-checked reads from the front of what is left of a buffer. -/
abbrev Cursor := StateT (List UInt8) (Except WalDecodeError)

namespace Cursor

def take (n : Nat) (what : String) : Cursor (List UInt8) := fun buf =>
  if buf.length < n then .error (.truncated what) else .ok (buf.take n, buf.drop n)

def u8 (what : String) : Cursor UInt8 := fun buf =>
  match buf with
  | [] => .error (.truncated what)
  | b :: rest => .ok (b, rest)

def u16 (what : String) : Cursor UInt16 := return UInt16.ofNat (fromLeBytes (← take 2 what))

def u32 (what : String) : Cursor UInt32 := return UInt32.ofNat (fromLeBytes (← take 4 what))

def u64 (what : String) : Cursor UInt64 := return UInt64.ofNat (fromLeBytes (← take 8 what))

def skip (n : Nat) (what : String) : Cursor Unit := do
  let _ ← take n what

end Cursor

structure ImageMeta where
  bimgLen : UInt16
  holeOffset : UInt16
  holeLength : UInt16
  compression : Compression
  apply : Bool

/-- Per-block work captured during the header pass, resolved during the data pass. -/
structure BlockWork where
  rel : RelTag
  blkno : UInt32
  willInit : Bool
  hasData : Bool
  dataLen : UInt16
  imageMeta : Option ImageMeta

def readImageMeta : Cursor ImageMeta := do
  let bimgLen ← Cursor.u16 "bimg_len"
  let holeOffset ← Cursor.u16 "hole_offset"
  let bimgInfo ← Cursor.u8 "bimg_info"
  let hasHole := hasFlag bimgInfo BKPIMAGE_HAS_HOLE
  -- the hole's length is only stored when the image is compressed as well; the
  -- difference wraps if the image is longer than a page
  let holeLength ←
    if hasHole && hasFlag bimgInfo BKPIMAGE_COMPRESSED then Cursor.u16 "hole_length"
    else if hasHole then pure (UInt16.ofNat XLOG_BLCKSZ - bimgLen)
    else pure 0
  return {
    bimgLen, holeOffset, holeLength
    compression := compressionFromInfo bimgInfo
    apply := hasFlag bimgInfo BKPIMAGE_APPLY }

/-- The locator of a block: `(spcOid, dbOid, relNumber)`. -/
abbrev Locator := UInt32 × UInt32 × UInt32

/-- The locator of a block, its own or the one of the block before. -/
def readLocator (sameRel : Bool) (lastLocator : Option Locator) : Cursor Locator :=
  if sameRel then
    match lastLocator with
    | some l => pure l
    | none => throw .sameRelWithoutPrev
  else do
    let spc ← Cursor.u32 "spcOid"
    let db ← Cursor.u32 "dbOid"
    let relnode ← Cursor.u32 "relNumber"
    return (spc, db, relnode)

/-- One block header, and the locator a following block may inherit. -/
def readBlockHeader (lastLocator : Option Locator) : Cursor (BlockWork × Locator) := do
  let forkFlags ← Cursor.u8 "fork_flags"
  let dataLen ← Cursor.u16 "block data_len"
  let forkRaw := forkFlags &&& BKPBLOCK_FORK_MASK
  let imageMeta ←
    if hasFlag forkFlags BKPBLOCK_HAS_IMAGE then some <$> readImageMeta else pure none
  let locator ← readLocator (hasFlag forkFlags BKPBLOCK_SAME_REL) lastLocator
  let blkno ← Cursor.u32 "blkno"
  match ForkNumber.fromRaw forkRaw with
  | none => throw (.badFork forkRaw)
  | some fork =>
    return ({
      rel := ⟨locator.1, locator.2.1, locator.2.2, fork⟩
      blkno
      willInit := hasFlag forkFlags BKPBLOCK_WILL_INIT
      hasData := hasFlag forkFlags BKPBLOCK_HAS_DATA
      dataLen, imageMeta }, locator)

/-- The header section: registered blocks up to the length of the main data, which
comes last. -/
def readHeaders : Nat → List BlockWork → Option Locator → Cursor (List BlockWork × Nat)
  | 0, _, _ => throw (.truncated "block_id")
  | fuel + 1, blocks, lastLocator => do
    let blockId ← Cursor.u8 "block_id"
    if blockId = XLR_BLOCK_ID_DATA_SHORT then
      return (blocks, (← Cursor.u8 "main_data_len").toNat)
    else if blockId = XLR_BLOCK_ID_DATA_LONG then
      return (blocks, (← Cursor.u32 "main_data_len").toNat)
    else if blockId = XLR_BLOCK_ID_ORIGIN then
      Cursor.skip 2 "replication origin"
      readHeaders fuel blocks lastLocator
    else if blockId = XLR_BLOCK_ID_TOPLEVEL_XID then
      Cursor.skip 8 "toplevel xid"
      readHeaders fuel blocks lastLocator
    else if blockId ≤ XLR_MAX_BLOCK_ID then
      let (block, locator) ← readBlockHeader lastLocator
      readHeaders fuel (blocks ++ [block]) (some locator)
    else throw (.badBlockId blockId)

/-- The data section of one block: its image, then its own data. -/
def readBlockData (b : BlockWork) : Cursor DecodedBlock := do
  let image ←
    match b.imageMeta with
    | some m => do
      let bytes ← Cursor.take m.bimgLen.toNat "block image"
      pure (some ⟨bytes, m.holeOffset, m.holeLength, m.compression, m.apply⟩)
    | none => pure none
  let data ← if b.hasData then Cursor.take b.dataLen.toNat "block data" else pure []
  return ⟨b.rel, b.blkno, b.willInit, image, data⟩

/-- The whole record, in the order the source reads it. -/
def readRecord (lsn : Lsn) (recordLen : Nat) : Cursor DecodedWalRecord := do
  let xlTotLen ← Cursor.u32 "xl_tot_len"
  let xlXid ← Cursor.u32 "xl_xid"
  let _xlPrev ← Cursor.u64 "xl_prev"
  let xlInfo ← Cursor.u8 "xl_info"
  let xlRmid ← Cursor.u8 "xl_rmid"
  Cursor.skip 2 "xl_padding"
  let _xlCrc ← Cursor.u32 "xl_crc"
  if xlTotLen.toNat < SIZE_OF_XLOG_RECORD then
    throw (.shortTotalLen xlTotLen)
  else if xlTotLen.toNat ≠ recordLen then
    throw (.badTotalLen xlTotLen recordLen)
  else
    let (blocks, mainDataLen) ← readHeaders recordLen [] none
    let decodedBlocks ← blocks.mapM readBlockData
    let mainData ← Cursor.take mainDataLen "main data"
    return ⟨lsn, xlRmid, xlInfo, xlXid, mainData, decodedBlocks⟩

/-- Decode a single complete WAL record image into its block references. -/
def decodeWalRecord (lsn : Lsn) (record : List UInt8) : Except WalDecodeError DecodedWalRecord :=
  (readRecord lsn record.length record).map Prod.fst

/-! ## Framing the stream -/

/-- Frames a raw WAL byte stream into whole record images. -/
structure WalStreamDecoder where
  /-- Absolute LSN of the first byte of `buf`. -/
  lsn : UInt64
  /-- Long page headers appear at each segment boundary. -/
  walSegSize : UInt64
  checkMagic : Bool
  buf : List UInt8
deriving DecidableEq

namespace WalStreamDecoder

/-- Start decoding at `startLsn`, which must be a record boundary. -/
def new (startLsn : Lsn) : WalStreamDecoder where
  lsn := startLsn.raw
  walSegSize := DEFAULT_WAL_SEG_SIZE
  checkMagic := true
  buf := []

def feedBytes (d : WalStreamDecoder) (bytes : List UInt8) : WalStreamDecoder :=
  { d with buf := d.buf ++ bytes }

/-- Size of the page header at absolute position `lsn`. -/
def pageHeaderSize (d : WalStreamDecoder) (lsn : UInt64) : Nat :=
  if lsn % d.walSegSize = 0 then SIZE_OF_XLOG_LONG_PHD else SIZE_OF_XLOG_SHORT_PHD

/-- Validate the page header at `buf[off]`. A long header in the wrong place is
tolerated, so only the magic counts. -/
def checkPageHeader (d : WalStreamDecoder) (off : Nat) : Except WalDecodeError Unit :=
  let magic := UInt16.ofNat (fromLeBytes ((d.buf.drop off).take 2))
  if d.checkMagic ∧ magic ≠ XLOG_PAGE_MAGIC_PG16 then
    .error (.badPageMagic magic XLOG_PAGE_MAGIC_PG16)
  else .ok ()

/-- A payload, the number of raw bytes it spans and the LSN of its first byte. -/
abbrev Payload := List UInt8 × Nat × UInt64

/-- The loop of `collect_payload`, with its local variables. -/
def collectLoop (d : WalStreamDecoder) (n : Nat) :
    Nat → List UInt8 → Nat → UInt64 → Option UInt64 → Except WalDecodeError (Option Payload)
  | 0, _, _, _, _ => .ok none
  | fuel + 1, out, off, lsn, first =>
    if n ≤ out.length then .ok (some (out, off, first.getD lsn))
    else if lsn.toNat % XLOG_BLCKSZ = 0 then
      let h := d.pageHeaderSize lsn
      if d.buf.length < off + h then .ok none
      else match d.checkPageHeader off with
        | .error e => .error e
        | .ok () => collectLoop d n fuel out (off + h) (lsn + UInt64.ofNat h) first
    else
      let want := min (n - out.length) (XLOG_BLCKSZ - lsn.toNat % XLOG_BLCKSZ)
      if d.buf.length < off + want then .ok none
      else collectLoop d n fuel (out ++ (d.buf.drop off).take want) (off + want)
        (lsn + UInt64.ofNat want) (some (first.getD lsn))

/-- Collect `n` payload bytes from the current position on, skipping page headers;
`none` if not enough has been fed yet. -/
def collectPayload (d : WalStreamDecoder) (n : Nat) : Except WalDecodeError (Option Payload) :=
  d.collectLoop n (d.buf.length + 1) [] 0 d.lsn none

/-- Drop `raw` consumed bytes from the front of `buf` and advance `lsn`. -/
def consume (d : WalStreamDecoder) (raw : Nat) : WalStreamDecoder :=
  { d with buf := d.buf.drop raw, lsn := d.lsn + UInt64.ofNat raw }

abbrev Polled := Except WalDecodeError (Option (Lsn × List UInt8))

/-- The distance to the next multiple of 8. -/
def misalignPad (d : WalStreamDecoder) : Nat :=
  if d.lsn.toNat % 8 = 0 then 0 else 8 - d.lsn.toNat % 8

/-- How far a length below the record header, found at `recLsn`, makes the decoder
skip: to the start of the next page. -/
def pageSkip (d : WalStreamDecoder) (recLsn : UInt64) : Nat :=
  ((recLsn / UInt64.ofNat XLOG_BLCKSZ + 1) * UInt64.ofNat XLOG_BLCKSZ - d.lsn).toNat

def pollLoop : Nat → WalStreamDecoder → WalStreamDecoder × Polled
  | 0, d => (d, .ok none)
  | fuel + 1, d =>
    if d.buf.length < d.misalignPad then (d, .ok none)
    else
      let d := d.consume d.misalignPad
      match d.collectPayload 4 with
      | .error e => (d, .error e)
      | .ok none => (d, .ok none)
      | .ok (some (lenBytes, _, recLsn)) =>
        let xlTotLen := fromLeBytes lenBytes
        if xlTotLen < SIZE_OF_XLOG_RECORD then
          -- end of the valid WAL on this page
          if d.buf.length < d.pageSkip recLsn then (d, .ok none)
          else pollLoop fuel (d.consume (d.pageSkip recLsn))
        else match d.collectPayload xlTotLen with
          | .error e => (d, .error e)
          | .ok none => (d, .ok none)
          | .ok (some (record, raw, recLsn)) => (d.consume raw, .ok (some (⟨recLsn⟩, record)))

/-- Try to decode the next complete record; `none` when more bytes are needed. -/
def pollDecode (d : WalStreamDecoder) : WalStreamDecoder × Polled :=
  pollLoop (d.buf.length + 1) d

/-! ## The loops end -/

variable {d : WalStreamDecoder}

theorem pageHeaderSize_pos (d : WalStreamDecoder) (lsn : UInt64) : 0 < d.pageHeaderSize lsn := by
  unfold pageHeaderSize
  split <;> decide

theorem pageHeaderSize_lt (d : WalStreamDecoder) (lsn : UInt64) :
    d.pageHeaderSize lsn < XLOG_BLCKSZ := by
  unfold pageHeaderSize
  split <;> decide

/-- With enough fuel to get past the end of the buffer the payload loop ends by
itself. -/
theorem collectLoop_fuel (d : WalStreamDecoder) (n : Nat) :
    ∀ {fuel fuel' : Nat} {out : List UInt8} {off : Nat} {lsn : UInt64} {first : Option UInt64},
      off ≤ d.buf.length → d.buf.length < off + fuel → d.buf.length < off + fuel' →
      d.collectLoop n fuel out off lsn first = d.collectLoop n fuel' out off lsn first := by
  intro fuel
  induction fuel with
  | zero => intro _ _ _ _ _ hoff hfuel _; omega
  | succ fuel ih =>
    intro fuel' out off lsn first hoff hfuel hfuel'
    obtain ⟨fuel', rfl⟩ : ∃ k, fuel' = k + 1 := ⟨fuel' - 1, by omega⟩
    unfold collectLoop
    split
    · rfl
    · next hmore =>
      split
      · have hpos := d.pageHeaderSize_pos lsn
        simp only
        split
        · rfl
        · split
          · rfl
          · exact ih (by omega) (by omega) (by omega)
      · next hpage =>
        -- a round that is not at a page start takes at least one byte
        have hlt := Nat.mod_lt lsn.toNat (show 0 < XLOG_BLCKSZ by decide)
        simp only
        split
        · rfl
        · exact ih (by omega) (by omega) (by omega)

/-- A run of the payload loop that finds all its bytes. -/
inductive Collects (d : WalStreamDecoder) (n : Nat) :
    List UInt8 → Nat → UInt64 → Option UInt64 → Payload → Prop
  | done {out : List UInt8} {off : Nat} {lsn : UInt64} {first : Option UInt64}
    (hdone : n ≤ out.length) : Collects d n out off lsn first (out, off, first.getD lsn)
  | header {out : List UInt8} {off : Nat} {lsn : UInt64} {first : Option UInt64} {p : Payload}
    (hmore : out.length < n) (hpage : lsn.toNat % XLOG_BLCKSZ = 0)
    (hlen : off + d.pageHeaderSize lsn ≤ d.buf.length)
    (rest : Collects d n out (off + d.pageHeaderSize lsn)
      (lsn + UInt64.ofNat (d.pageHeaderSize lsn)) first p) : Collects d n out off lsn first p
  | part {out : List UInt8} {off want : Nat} {lsn : UInt64} {first : Option UInt64} {p : Payload}
    (hmore : out.length < n) (hpage : lsn.toNat % XLOG_BLCKSZ ≠ 0)
    (hwant : want = min (n - out.length) (XLOG_BLCKSZ - lsn.toNat % XLOG_BLCKSZ))
    (hlen : off + want ≤ d.buf.length)
    (rest : Collects d n (out ++ (d.buf.drop off).take want) (off + want)
      (lsn + UInt64.ofNat want) (some (first.getD lsn)) p) : Collects d n out off lsn first p

theorem collects_of_collectLoop {n : Nat} :
    ∀ {fuel : Nat} {out : List UInt8} {off : Nat} {lsn : UInt64} {first : Option UInt64}
      {p : Payload}, d.collectLoop n fuel out off lsn first = .ok (some p) →
      Collects d n out off lsn first p := by
  intro fuel
  induction fuel with
  | zero => intro _ _ _ _ _ h; exact absurd h (by simp [collectLoop])
  | succ fuel ih =>
    intro out off lsn first p h
    rw [collectLoop] at h
    split at h
    · next hdone =>
      obtain rfl := Option.some.inj (Except.ok.inj h)
      exact .done hdone
    · next hmore =>
      split at h
      · next hpage =>
        simp only at h
        split at h
        · simp at h
        · next hlen =>
          split at h
          · simp at h
          · exact .header (by omega) hpage (by omega) (ih h)
      · next hpage =>
        simp only at h
        split at h
        · simp at h
        · next hlen => exact .part (by omega) hpage rfl (by omega) (ih h)

theorem collects_of_collectPayload {n : Nat} {p : Payload} (h : d.collectPayload n = .ok (some p)) :
    Collects d n [] 0 d.lsn none p :=
  collects_of_collectLoop h

namespace Collects

variable {d : WalStreamDecoder} {n off : Nat} {out : List UInt8} {lsn : UInt64}
  {first : Option UInt64} {p : Payload}

theorem first_eq {start : UInt64} (h : Collects d n out off lsn first p)
    (hfirst : first = some start) : p.2.2 = start := by
  induction h with
  | done _ => rw [hfirst, Option.getD_some]
  | header _ _ _ _ ih => exact ih hfirst
  | part _ _ _ _ _ ih => exact ih (by rw [hfirst, Option.getD_some])

theorem first_inside (h : Collects d n out off lsn none p) (hmore : out.length < n)
    (hpage : lsn.toNat % XLOG_BLCKSZ ≠ 0) : p.2.2 = lsn := by
  cases h with
  | done hdone => omega
  | header _ hstart _ _ => exact absurd hstart hpage
  | part _ _ _ _ rest => exact rest.first_eq rfl

/-- A payload lies in the buffer and takes at least its own length there. -/
theorem span (h : Collects d n out off lsn first p) (hoff : off ≤ d.buf.length) :
    off + n ≤ p.2.1 + out.length ∧ p.2.1 ≤ d.buf.length := by
  induction h with
  | done hdone => exact ⟨Nat.add_le_add_left hdone _, hoff⟩
  | header _ _ hlen _ ih =>
    have hrest := ih hlen
    omega
  | part _ _ _ hlen _ ih =>
    have hrest := ih hlen
    rw [List.length_append, List.length_take] at hrest
    omega

end Collects

/-- The first byte of a payload is where the decoder is, or behind the page header
found there. -/
theorem collectPayload_first {n : Nat} (hn : 0 < n) {p : Payload}
    (h : d.collectPayload n = .ok (some p)) :
    p.2.2.toNat
      = d.lsn.toNat + if d.lsn.toNat % XLOG_BLCKSZ = 0 then d.pageHeaderSize d.lsn else 0 := by
  have hrun := collects_of_collectPayload h
  cases hrun with
  | done hdone => exact absurd hdone (by rw [List.length_nil]; omega)
  | part hmore hpage _ _ _ =>
    rw [if_neg hpage, Nat.add_zero, (collects_of_collectPayload h).first_inside hmore hpage]
  | header hmore hpage _ rest =>
    have hlt := d.lsn.toNat_lt
    have hpos := d.pageHeaderSize_pos d.lsn
    have hsmall := d.pageHeaderSize_lt d.lsn
    have hmoved : (d.lsn + UInt64.ofNat (d.pageHeaderSize d.lsn)).toNat
        = d.lsn.toNat + d.pageHeaderSize d.lsn := by
      rw [UInt64.toNat_add, UInt64.toNat_ofNat']
      simp only [XLOG_BLCKSZ, PAGE_SIZE] at hpage hsmall
      omega
    have hinside : (d.lsn + UInt64.ofNat (d.pageHeaderSize d.lsn)).toNat % XLOG_BLCKSZ ≠ 0 := by
      rw [hmoved]
      simp only [XLOG_BLCKSZ, PAGE_SIZE] at hpage hsmall ⊢
      omega
    rw [if_pos hpage, rest.first_inside hmore hinside, hmoved]

/-- A payload starts on the page the decoder is on. -/
theorem collectPayload_page {n : Nat} (hn : 0 < n) {p : Payload}
    (h : d.collectPayload n = .ok (some p)) :
    p.2.2.toNat / XLOG_BLCKSZ = d.lsn.toNat / XLOG_BLCKSZ := by
  have hsmall := d.pageHeaderSize_lt d.lsn
  rw [collectPayload_first hn h]
  by_cases hpage : d.lsn.toNat % XLOG_BLCKSZ = 0
  · rw [if_pos hpage]
    simp only [XLOG_BLCKSZ, PAGE_SIZE] at hpage hsmall ⊢
    omega
  · rw [if_neg hpage, Nat.add_zero]

theorem pageSkip_eq (d : WalStreamDecoder) {recLsn : UInt64}
    (h : recLsn.toNat / XLOG_BLCKSZ = d.lsn.toNat / XLOG_BLCKSZ) :
    d.pageSkip recLsn = XLOG_BLCKSZ - d.lsn.toNat % XLOG_BLCKSZ := by
  have hlt := d.lsn.toNat_lt
  have hrec := recLsn.toNat_lt
  have hsize : (UInt64.ofNat XLOG_BLCKSZ).toNat = 8192 := rfl
  have hone : (1 : UInt64).toNat = 1 := rfl
  unfold pageSkip
  rw [UInt64.toNat_sub, UInt64.toNat_mul, UInt64.toNat_add, UInt64.toNat_div, hsize, hone]
  simp only [XLOG_BLCKSZ, PAGE_SIZE] at h ⊢
  omega

theorem length_consume_pageSkip {lenBytes : List UInt8} {raw : Nat} {recLsn : UInt64}
    (hlength : d.collectPayload 4 = .ok (some (lenBytes, raw, recLsn)))
    (hlen : d.pageSkip recLsn ≤ d.buf.length) :
    (d.consume (d.pageSkip recLsn)).buf.length < d.buf.length := by
  have hskip : d.pageSkip recLsn = _ := d.pageSkip_eq (collectPayload_page (by decide) hlength)
  have hlt := Nat.mod_lt d.lsn.toNat (show 0 < XLOG_BLCKSZ by decide)
  rw [consume, List.length_drop]
  omega

/-- With fuel for every byte in the buffer the poll loop ends by itself. -/
theorem pollLoop_fuel :
    ∀ {fuel fuel' : Nat} {d : WalStreamDecoder}, d.buf.length < fuel → d.buf.length < fuel' →
      pollLoop fuel d = pollLoop fuel' d := by
  intro fuel
  induction fuel with
  | zero => intro _ _ hfuel _; omega
  | succ fuel ih =>
    intro fuel' d hfuel hfuel'
    obtain ⟨fuel', rfl⟩ : ∃ k, fuel' = k + 1 := ⟨fuel' - 1, by omega⟩
    unfold pollLoop
    split
    · rfl
    · simp only
      obtain ⟨d', hd'⟩ : ∃ d', d.consume d.misalignPad = d' := ⟨_, rfl⟩
      have hlen : d'.buf.length ≤ d.buf.length := by
        rw [← hd', consume, List.length_drop]
        omega
      rw [hd']
      split
      · rfl
      · rfl
      · next hcollect =>
        split
        · split
          · rfl
          · have hless := length_consume_pageSkip hcollect (by omega)
            exact ih (by omega) (by omega)
        · rfl

/-- A poll that hands out a record shortens the buffer. -/
theorem pollLoop_shrinks :
    ∀ {fuel : Nat} {d d' : WalStreamDecoder} {e : Lsn × List UInt8},
      pollLoop fuel d = (d', .ok (some e)) → d'.buf.length < d.buf.length := by
  intro fuel
  induction fuel with
  | zero => intro _ _ _ h; exact absurd h (by simp [pollLoop])
  | succ fuel ih =>
    intro d d' e h
    unfold pollLoop at h
    split at h
    · simp at h
    · simp only at h
      obtain ⟨d₁, hd₁⟩ : ∃ d₁, d.consume d.misalignPad = d₁ := ⟨_, rfl⟩
      have hlen : d₁.buf.length ≤ d.buf.length := by
        rw [← hd₁, consume, List.length_drop]
        omega
      rw [hd₁] at h
      split at h
      · simp at h
      · simp at h
      · split at h
        · split at h
          · simp at h
          · have hrest := ih h
            rw [consume, List.length_drop] at hrest
            omega
        · next hlong =>
          split at h
          · simp at h
          · simp at h
          · next raw _ hcollect =>
            have hspan := (collects_of_collectPayload hcollect).span (Nat.zero_le _)
            have hsize : SIZE_OF_XLOG_RECORD = 24 := rfl
            rw [← (Prod.mk.inj h).1, consume, List.length_drop]
            simp only [List.length_nil] at hspan
            omega

end WalStreamDecoder

end AethelDB.Pageserver
