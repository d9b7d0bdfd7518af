import AethelDB.Lib.Checked
import AethelDB.Pageserver.RecordLayout
import AethelDB.Pageserver.WalIngest

/-!
# Ingesting a record with every operation checked

`decode_wal_record`, `DecodedImage::restore` and `Repository::ingest` once more, this time with
the position of the cursor and with each sum, difference, narrowing cast, index and slice of
the source as an operation that panics when it leaves its range. `Waldecode` and `WalIngest`
have the same functions without these checks, on what is left of the buffer, and with wrapping
arithmetic where the release build wraps; the theorems here say where the two part.

There are three such places. An image header that announces a hole but no compression, with an
image longer than a page, makes `XLOG_BLCKSZ - bimg_len` underflow; `imageHeaders` lists the
image headers the decoder reads, also those of a record that turns out to be broken further
on. Block number `u32::MAX` makes `block + 1` overflow while the lock of the repository is
held. And the counter of layer ids is a `u64`. Apart from these, nothing panics, and
`ingestRecord_safe` says what a record does to the repository.
-/

namespace AethelDB.Pageserver

open AethelDB.Lib

/-! ## The cursor with its position -/

/-- Bounds-checked reads at a position of a buffer. -/
abbrev CheckedCursor := PosReader UInt8 WalDecodeError

/-- `[s[0], s[1], ..]`, each byte by its index. -/
def bytesAt (n : Nat) (s : List UInt8) : Checked WalDecodeError (List UInt8) :=
  (List.range n).mapM (Checked.get s)

namespace CheckedCursor

/-- A computation that does not touch the buffer. -/
def ofChecked {α : Type} (c : Checked WalDecodeError α) : CheckedCursor α := fun _ pos => do
  return (← c, pos)

def u8 (what : String) : CheckedCursor UInt8 := fun buf pos =>
  match buf[pos]? with
  | none => .error (.error (.truncated what))
  | some b => do return (b, ← Checked.add 64 pos 1)

def take (n : Nat) (what : String) : CheckedCursor (List UInt8) := fun buf pos => do
  let remaining ← Checked.sub buf.length pos
  if remaining < n then .error (.error (.truncated what))
  else
    let s ← Checked.slice buf pos (← Checked.add 64 pos n)
    return (s, ← Checked.add 64 pos n)

/-- The next `n` bytes as a number. -/
def word (n : Nat) (what : String) : CheckedCursor Nat := do
  let s ← take n what
  return fromLeBytes (← ofChecked (bytesAt n s))

def u16 (what : String) : CheckedCursor UInt16 := return UInt16.ofNat (← word 2 what)

def u32 (what : String) : CheckedCursor UInt32 := return UInt32.ofNat (← word 4 what)

def u64 (what : String) : CheckedCursor UInt64 := return UInt64.ofNat (← word 8 what)

def skip (n : Nat) (what : String) : CheckedCursor Unit := do
  let _ ← take n what

end CheckedCursor

theorem bytesAt_eq {n : Nat} {s : List UInt8} (h : s.length = n) : bytesAt n s = .ok s := by
  subst h
  unfold bytesAt
  -- the prefixes of `s`, one byte longer each
  have hbytes : ∀ k ≤ s.length, (List.range k).mapM (Checked.get s)
      = (.ok (s.take k) : Checked WalDecodeError (List UInt8)) := by
    intro k
    induction k with
    | zero => intro _; rfl
    | succ k ih =>
      intro hk
      rw [List.range_succ, List.mapM_append, ih (by omega), List.take_succ_eq_append_getElem (by omega)]
      simp only [Checked.bind_ok, List.mapM_cons, List.mapM_nil,
        Checked.get_eq (show k < s.length by omega)]
      rfl
  rw [hbytes s.length le_rfl, List.take_length]

namespace CheckedCursor

variable {what : String}

theorem follows_u8 : Follows (u8 what) (Cursor.u8 what) Safely := by
  intro buf hbuf pos hpos
  refine ⟨False.elim, fun _ => ?_⟩
  unfold u8 Cursor.u8
  rcases Nat.lt_or_ge pos buf.length with hlt | hge
  · refine Or.inr ⟨buf[pos], pos + 1, hlt, ?_, ?_⟩
    · rw [List.drop_eq_getElem_cons hlt]
    · rw [List.getElem?_eq_getElem hlt, Checked.add_eq (by omega)]
      rfl
  · refine Or.inl ⟨.truncated what, ?_, ?_⟩
    · rw [List.drop_eq_nil_of_le hge]
    · rw [List.getElem?_eq_none hge]

theorem follows_take (n : Nat) : Follows (take n what) (Cursor.take n what) Safely := by
  intro buf hbuf pos hpos
  have hdrop : (buf.drop pos).length = buf.length - pos := List.length_drop
  refine ⟨False.elim, fun _ => ?_⟩
  unfold take Cursor.take
  rw [Checked.sub_eq hpos, Checked.bind_ok, hdrop]
  rcases Nat.lt_or_ge (buf.length - pos) n with hlt | hge
  · rw [if_pos hlt, if_pos hlt]
    exact Or.inl ⟨_, rfl, rfl⟩
  · rw [if_neg (by omega), if_neg (by omega), Checked.add_eq (by omega), Checked.bind_ok,
      Checked.slice_eq (by omega), Nat.add_sub_cancel_left]
    refine Or.inr ⟨_, pos + n, by omega, ?_, rfl⟩
    rw [List.drop_drop]

/-- Checking the indices again changes nothing, as `take` returns what it was asked for. -/
theorem follows_word (n : Nat) :
    Follows (word n what) (Cursor.take n what >>= fun bs => pure (fromLeBytes bs)) Safely := by
  intro buf hbuf pos hpos
  refine ⟨False.elim, fun _ => ?_⟩
  have hrun : word n what buf pos
      = (take n what buf pos >>= fun x => bytesAt n x.1 >>= fun bs => .ok (fromLeBytes bs, x.2)) := by
    show (take n what buf pos >>= fun x => ofChecked (bytesAt n x.1) buf x.2 >>= _) = _
    congr 1
    funext x
    unfold ofChecked
    cases bytesAt n x.1 <;> rfl
  have hread : (Cursor.take n what >>= fun bs => pure (fromLeBytes bs) : Cursor Nat) (buf.drop pos)
      = (Cursor.take n what (buf.drop pos) >>= fun x => .ok (fromLeBytes x.1, x.2)) := rfl
  rw [hrun, hread]
  rcases (follows_take n buf hbuf pos hpos).2 id with ⟨e, hp, hq⟩ | ⟨bs, pos', hpos', hp, hq⟩
  · rw [hp, hq]
    exact Or.inl ⟨e, rfl, rfl⟩
  · rw [hp, hq, Checked.bind_ok, bytesAt_eq (Cursor.take_ok hp).1]
    exact Or.inr ⟨fromLeBytes bs, pos', hpos', rfl, rfl⟩

theorem follows_number {α : Type} (n : Nat) (f : Nat → α) :
    Follows (word n what >>= fun k => pure (f k))
      (Cursor.take n what >>= fun bs => pure (f (fromLeBytes bs))) Safely := by
  have h := (@follows_word what n).map_safely f
  rw [bind_assoc] at h
  exact h

theorem follows_u16 : Follows (u16 what) (Cursor.u16 what) Safely := follows_number 2 UInt16.ofNat

theorem follows_u32 : Follows (u32 what) (Cursor.u32 what) Safely := follows_number 4 UInt32.ofNat

theorem follows_u64 : Follows (u64 what) (Cursor.u64 what) Safely := follows_number 8 UInt64.ofNat

theorem follows_skip (n : Nat) : Follows (skip n what) (Cursor.skip n what) Safely :=
  (follows_take n).map_safely fun _ => ()

end CheckedCursor

/-! ## Decoding -/

def readImageMetaChecked : CheckedCursor ImageMeta := do
  let bimgLen ← CheckedCursor.u16 "bimg_len"
  let holeOffset ← CheckedCursor.u16 "hole_offset"
  let bimgInfo ← CheckedCursor.u8 "bimg_info"
  let hasHole := hasFlag bimgInfo BKPIMAGE_HAS_HOLE
  let holeLength ←
    if hasHole && hasFlag bimgInfo BKPIMAGE_COMPRESSED then CheckedCursor.u16 "hole_length"
    else if hasHole then CheckedCursor.ofChecked do
      let length ← Checked.sub XLOG_BLCKSZ bimgLen.toNat
      return UInt16.ofNat (← Checked.cast 16 length)
    else pure 0
  return {
    bimgLen, holeOffset, holeLength
    compression := compressionFromInfo bimgInfo
    apply := hasFlag bimgInfo BKPIMAGE_APPLY }

/-- The locator of a block, its own or the one of the block before. -/
def readLocatorChecked (sameRel : Bool) (lastLocator : Option Locator) : CheckedCursor Locator :=
  if sameRel then
    match lastLocator with
    | some l => pure l
    | none => fun _ _ => .error (.error .sameRelWithoutPrev)
  else do
    let spc ← CheckedCursor.u32 "spcOid"
    let db ← CheckedCursor.u32 "dbOid"
    let relnode ← CheckedCursor.u32 "relNumber"
    return (spc, db, relnode)

/-- One block header, and the locator a following block may inherit. -/
def readBlockHeaderChecked (lastLocator : Option Locator) : CheckedCursor (BlockWork × Locator) := do
  let forkFlags ← CheckedCursor.u8 "fork_flags"
  let dataLen ← CheckedCursor.u16 "block data_len"
  let forkRaw := forkFlags &&& BKPBLOCK_FORK_MASK
  let imageMeta ←
    if hasFlag forkFlags BKPBLOCK_HAS_IMAGE then some <$> readImageMetaChecked else pure none
  let locator ← readLocatorChecked (hasFlag forkFlags BKPBLOCK_SAME_REL) lastLocator
  let blkno ← CheckedCursor.u32 "blkno"
  match ForkNumber.fromRaw forkRaw with
  | none => fun _ _ => .error (.error (.badFork forkRaw))
  | some fork =>
    return ({
      rel := ⟨locator.1, locator.2.1, locator.2.2, fork⟩
      blkno
      willInit := hasFlag forkFlags BKPBLOCK_WILL_INIT
      hasData := hasFlag forkFlags BKPBLOCK_HAS_DATA
      dataLen, imageMeta }, locator)

def readHeadersChecked :
    Nat → List BlockWork → Option Locator → CheckedCursor (List BlockWork × Nat)
  | 0, _, _ => fun _ _ => .error (.error (.truncated "block_id"))
  | fuel + 1, blocks, lastLocator => do
    let blockId ← CheckedCursor.u8 "block_id"
    if blockId = XLR_BLOCK_ID_DATA_SHORT then
      return (blocks, (← CheckedCursor.u8 "main_data_len").toNat)
    else if blockId = XLR_BLOCK_ID_DATA_LONG then
      return (blocks, (← CheckedCursor.u32 "main_data_len").toNat)
    else if blockId = XLR_BLOCK_ID_ORIGIN then
      CheckedCursor.skip 2 "replication origin"
      readHeadersChecked fuel blocks lastLocator
    else if blockId = XLR_BLOCK_ID_TOPLEVEL_XID then
      CheckedCursor.skip 8 "toplevel xid"
      readHeadersChecked fuel blocks lastLocator
    else if blockId ≤ XLR_MAX_BLOCK_ID then
      let (block, locator) ← readBlockHeaderChecked lastLocator
      readHeadersChecked fuel (blocks ++ [block]) (some locator)
    else fun _ _ => .error (.error (.badBlockId blockId))

def readBlockDataChecked (b : BlockWork) : CheckedCursor DecodedBlock := do
  let image ←
    match b.imageMeta with
    | some m => do
      let bytes ← CheckedCursor.take m.bimgLen.toNat "block image"
      pure (some ⟨bytes, m.holeOffset, m.holeLength, m.compression, m.apply⟩)
    | none => pure none
  let data ← if b.hasData then CheckedCursor.take b.dataLen.toNat "block data" else pure []
  return ⟨b.rel, b.blkno, b.willInit, image, data⟩

def readRecordChecked (lsn : Lsn) (recordLen : Nat) : CheckedCursor DecodedWalRecord := do
  let xlTotLen ← CheckedCursor.u32 "xl_tot_len"
  let xlXid ← CheckedCursor.u32 "xl_xid"
  let _xlPrev ← CheckedCursor.u64 "xl_prev"
  let xlInfo ← CheckedCursor.u8 "xl_info"
  let xlRmid ← CheckedCursor.u8 "xl_rmid"
  CheckedCursor.skip 2 "xl_padding"
  let _xlCrc ← CheckedCursor.u32 "xl_crc"
  if xlTotLen.toNat < SIZE_OF_XLOG_RECORD then
    fun _ _ => .error (.error (.shortTotalLen xlTotLen))
  else if xlTotLen.toNat ≠ recordLen then
    fun _ _ => .error (.error (.badTotalLen xlTotLen recordLen))
  else
    let (blocks, mainDataLen) ← readHeadersChecked recordLen [] none
    let decodedBlocks ← blocks.mapM readBlockDataChecked
    let mainData ← CheckedCursor.take mainDataLen "main data"
    return ⟨lsn, xlRmid, xlInfo, xlXid, mainData, decodedBlocks⟩

/-- Decode a single complete WAL record image into its block references. -/
def decodeWalRecordChecked (lsn : Lsn) (record : List UInt8) :
    Checked WalDecodeError DecodedWalRecord :=
  (readRecordChecked lsn record.length record 0).map Prod.fst

/-! ## Where decoding panics -/

/-- An image header as far as the length of the hole depends on it: `bimg_len` and
`bimg_info`. -/
abbrev ImageHeader := UInt16 × UInt8

/-- The image is announced with a hole and without compression, but is longer than a page. -/
def Oversized (h : ImageHeader) : Prop :=
  hasFlag h.2 BKPIMAGE_HAS_HOLE = true ∧ hasFlag h.2 BKPIMAGE_COMPRESSED = false ∧
    XLOG_BLCKSZ < h.1.toNat

instance (h : ImageHeader) : Decidable (Oversized h) := inferInstanceAs (Decidable (_ ∧ _ ∧ _))

def readImageHeader : Cursor ImageHeader := do
  let bimgLen ← Cursor.u16 "bimg_len"
  let _ ← Cursor.u16 "hole_offset"
  let bimgInfo ← Cursor.u8 "bimg_info"
  return (bimgLen, bimgInfo)

/-- The image header in the block header that starts here. -/
def readBlockImageHeader : Cursor (Option ImageHeader) := do
  let forkFlags ← Cursor.u8 "fork_flags"
  let _ ← Cursor.u16 "block data_len"
  if hasFlag forkFlags BKPBLOCK_HAS_IMAGE then some <$> readImageHeader else pure none

/-- The image headers found behind what `p` reads. -/
def imagesAfter {α : Type} (p : Cursor α) (next : α → List UInt8 → List ImageHeader)
    (xs : List UInt8) : List ImageHeader :=
  match p xs with
  | .error _ => []
  | .ok (a, rest) => next a rest

/-- The image headers that an entry of the header section, and with `next` the entries
behind it, get to. -/
def entryImages (next : Option Locator → List UInt8 → List ImageHeader)
    (lastLocator : Option Locator) (blockId : UInt8) (xs : List UInt8) : List ImageHeader :=
  if blockId = XLR_BLOCK_ID_DATA_SHORT then []
  else if blockId = XLR_BLOCK_ID_DATA_LONG then []
  else if blockId = XLR_BLOCK_ID_ORIGIN then
    imagesAfter (Cursor.skip 2 "replication origin") (fun _ => next lastLocator) xs
  else if blockId = XLR_BLOCK_ID_TOPLEVEL_XID then
    imagesAfter (Cursor.skip 8 "toplevel xid") (fun _ => next lastLocator) xs
  else if blockId ≤ XLR_MAX_BLOCK_ID then
    imagesAfter readBlockImageHeader (fun h _ => h.toList) xs
      ++ imagesAfter (readBlockHeader lastLocator) (fun b => next (some b.2)) xs
  else []

/-- The image headers that the header section starting here gets to. -/
def headerImages : Nat → Option Locator → List UInt8 → List ImageHeader
  | 0, _ => fun _ => []
  | fuel + 1, lastLocator =>
    imagesAfter (Cursor.u8 "block_id") (entryImages (headerImages fuel) lastLocator)

/-- The fixed header, for the length in it. -/
def readTotLen : Cursor UInt32 := do
  let xlTotLen ← Cursor.u32 "xl_tot_len"
  let _ ← Cursor.u32 "xl_xid"
  let _ ← Cursor.u64 "xl_prev"
  let _ ← Cursor.u8 "xl_info"
  let _ ← Cursor.u8 "xl_rmid"
  Cursor.skip 2 "xl_padding"
  let _ ← Cursor.u32 "xl_crc"
  return xlTotLen

/-- The image headers behind a fixed header; none if the length in it is not the record's. -/
def bodyImages (recordLen : Nat) (xlTotLen : UInt32) (xs : List UInt8) : List ImageHeader :=
  if xlTotLen.toNat < SIZE_OF_XLOG_RECORD then []
  else if xlTotLen.toNat ≠ recordLen then []
  else headerImages recordLen none xs

/-- The image headers the decoder reads in a record. -/
def imageHeaders (record : List UInt8) : List ImageHeader :=
  imagesAfter readTotLen (bodyImages record.length) record

/-- The length of the hole: underflow exactly for an oversized image. -/
theorem follows_holeLength (bimgLen : UInt16) (bimgInfo : UInt8) :
    Follows
      (if hasFlag bimgInfo BKPIMAGE_HAS_HOLE && hasFlag bimgInfo BKPIMAGE_COMPRESSED then
          CheckedCursor.u16 "hole_length"
        else if hasFlag bimgInfo BKPIMAGE_HAS_HOLE then CheckedCursor.ofChecked do
          let length ← Checked.sub XLOG_BLCKSZ bimgLen.toNat
          return UInt16.ofNat (← Checked.cast 16 length)
        else pure 0)
      (if hasFlag bimgInfo BKPIMAGE_HAS_HOLE && hasFlag bimgInfo BKPIMAGE_COMPRESSED then
          Cursor.u16 "hole_length"
        else if hasFlag bimgInfo BKPIMAGE_HAS_HOLE then pure (UInt16.ofNat XLOG_BLCKSZ - bimgLen)
        else pure 0)
      fun _ => Oversized (bimgLen, bimgInfo) := by
  cases hhole : hasFlag bimgInfo BKPIMAGE_HAS_HOLE with
  | false =>
    rw [Bool.false_and, if_neg (by decide), if_neg (by decide), if_neg (by decide), if_neg (by decide)]
    refine (Follows.pure 0).congr fun _ => ⟨fun h => ?_, False.elim⟩
    exact absurd (hhole.symm.trans h.1) (by decide)
  | true =>
    cases hcompressed : hasFlag bimgInfo BKPIMAGE_COMPRESSED with
    | true =>
      rw [Bool.true_and, if_pos rfl, if_pos rfl]
      refine CheckedCursor.follows_u16.congr fun _ => ⟨fun h => ?_, False.elim⟩
      exact absurd (hcompressed.symm.trans h.2.1) (by decide)
    | false =>
      rw [Bool.true_and, if_neg (by decide), if_pos rfl, if_neg (by decide), if_pos rfl]
      intro buf hbuf pos hpos
      refine ⟨fun h => ⟨"attempt to subtract with overflow", ?_⟩, fun h => Or.inr ?_⟩
      · unfold CheckedCursor.ofChecked Checked.sub
        rw [if_neg (Nat.not_le.mpr h.2.2)]
        rfl
      · have hle : bimgLen.toNat ≤ XLOG_BLCKSZ := by
          by_contra hlt
          exact h ⟨hhole, hcompressed, Nat.not_le.mp hlt⟩
        have hdiff : UInt16.ofNat (XLOG_BLCKSZ - bimgLen.toNat)
            = UInt16.ofNat XLOG_BLCKSZ - bimgLen := by
          have hpage : (UInt16.ofNat XLOG_BLCKSZ).toNat = XLOG_BLCKSZ := rfl
          rw [← UInt16.toNat_inj, UInt16.toNat_sub, UInt16.toNat_ofNat', hpage]
          simp only [XLOG_BLCKSZ, PAGE_SIZE] at hle ⊢
          omega
        refine ⟨_, pos, hpos, rfl, ?_⟩
        have hcast : XLOG_BLCKSZ - bimgLen.toNat < 2 ^ 16 := by
          simp only [XLOG_BLCKSZ, PAGE_SIZE]
          omega
        unfold CheckedCursor.ofChecked
        rw [Checked.sub_eq hle, Checked.bind_ok, Checked.cast_eq hcast, ← hdiff]
        rfl

theorem follows_readImageMeta :
    Follows readImageMetaChecked readImageMeta
      fun xs => ∃ h rest, readImageHeader xs = .ok (h, rest) ∧ Oversized h := by
  unfold readImageMetaChecked readImageMeta
  simp only [PosReader.ite_bind, Reader.ite_bind]
  refine Follows.congr (CheckedCursor.follows_u16.bind_first fun bimgLen =>
    CheckedCursor.follows_u16.bind_first fun holeOffset =>
      CheckedCursor.follows_u8.bind_first fun bimgInfo =>
        (follows_holeLength bimgLen bimgInfo).bind_last fun holeLength => Follows.pure _) fun xs => ?_
  simp only [readImageHeader, Reader.bind_eq_ok]
  constructor
  · rintro ⟨h, rest, ⟨l, r₁, hl, o, r₂, ho, i, r₃, hi, hpure⟩, hover⟩
    obtain ⟨rfl, rfl⟩ := Prod.mk.inj (Except.ok.inj hpure)
    exact ⟨l, r₁, hl, o, r₂, ho, i, _, hi, hover⟩
  · rintro ⟨l, r₁, hl, o, r₂, ho, i, r₃, hi, hover⟩
    exact ⟨(l, i), r₃, ⟨l, r₁, hl, o, r₂, ho, i, r₃, hi, rfl⟩, hover⟩

theorem follows_readLocator (sameRel : Bool) (last : Option Locator) :
    Follows (readLocatorChecked sameRel last) (readLocator sameRel last) Safely := by
  unfold readLocatorChecked readLocator
  split
  · cases last with
    | none => exact Follows.fail _
    | some l => exact Follows.pure l
  · exact CheckedCursor.follows_u32.bind_safely fun spc =>
      CheckedCursor.follows_u32.bind_safely fun db =>
        CheckedCursor.follows_u32.map_safely fun relnode => (spc, db, relnode)

theorem follows_readBlockHeader (last : Option Locator) :
    Follows (readBlockHeaderChecked last) (readBlockHeader last)
      fun xs => ∃ h rest, readBlockImageHeader xs = .ok (some h, rest) ∧ Oversized h := by
  have himage : ∀ forkFlags : UInt8, Follows
      (if hasFlag forkFlags BKPBLOCK_HAS_IMAGE then some <$> readImageMetaChecked else pure none)
      (if hasFlag forkFlags BKPBLOCK_HAS_IMAGE then some <$> readImageMeta else pure none)
      fun xs => hasFlag forkFlags BKPBLOCK_HAS_IMAGE = true ∧
        ∃ h rest, readImageHeader xs = .ok (h, rest) ∧ Oversized h := by
    intro forkFlags
    split
    · next hflag =>
      rw [← bind_pure_comp, ← bind_pure_comp]
      exact (follows_readImageMeta.bind_last fun m => Follows.pure (some m)).congr fun xs =>
        and_iff_right hflag
    · next hflag =>
      exact (Follows.pure none).congr fun xs => ⟨fun h => hflag h.1, False.elim⟩
  unfold readBlockHeaderChecked readBlockHeader
  simp only [PosReader.ite_bind, Reader.ite_bind]
  refine Follows.congr (CheckedCursor.follows_u8.bind_first fun forkFlags =>
    CheckedCursor.follows_u16.bind_first fun dataLen =>
      (himage forkFlags).bind_last fun imageMeta =>
        (follows_readLocator _ _).bind_safely fun locator =>
          CheckedCursor.follows_u32.bind_safely fun blkno => ?_) fun xs => ?_
  · cases ForkNumber.fromRaw (forkFlags &&& BKPBLOCK_FORK_MASK) with
    | none => exact Follows.fail _
    | some fork => exact Follows.pure _
  simp only [readBlockImageHeader, Reader.bind_eq_ok]
  constructor
  · rintro ⟨h, rest, ⟨flags, r₁, hflags, len, r₂, hlen, hread⟩, hover⟩
    refine ⟨flags, r₁, hflags, len, r₂, hlen, ?_⟩
    split at hread
    · next hflag =>
      rw [← bind_pure_comp, Reader.bind_eq_ok] at hread
      obtain ⟨h', r₃, hh, hpure⟩ := hread
      obtain ⟨hsome, -⟩ := Prod.mk.inj (Except.ok.inj hpure)
      obtain rfl := Option.some.inj hsome
      exact ⟨hflag, h', r₃, hh, hover⟩
    · exact absurd (Prod.mk.inj (Except.ok.inj hread)).1 (by simp)
  · rintro ⟨flags, r₁, hflags, len, r₂, hlen, hflag, h, r₃, hh, hover⟩
    refine ⟨h, r₃, ⟨flags, r₁, hflags, len, r₂, hlen, ?_⟩, hover⟩
    rw [if_pos hflag, ← bind_pure_comp, Reader.bind_eq_ok]
    exact ⟨h, r₃, hh, rfl⟩

/-- Some image header in the list is oversized. -/
def AnyOversized (hs : List ImageHeader) : Prop := ∃ h ∈ hs, Oversized h

instance (hs : List ImageHeader) : Decidable (AnyOversized hs) :=
  inferInstanceAs (Decidable (∃ h ∈ hs, Oversized h))

theorem not_anyOversized_nil : ¬ AnyOversized [] := by
  rintro ⟨h, hmem, -⟩
  nomatch hmem

theorem anyOversized_append (hs hs' : List ImageHeader) :
    AnyOversized (hs ++ hs') ↔ AnyOversized hs ∨ AnyOversized hs' := by
  simp only [AnyOversized, List.mem_append, or_and_right, exists_or]

theorem anyOversized_after {α : Type} {p : Cursor α} {next : α → List UInt8 → List ImageHeader}
    {xs : List UInt8} :
    AnyOversized (imagesAfter p next xs)
      ↔ ∃ a rest, p xs = .ok (a, rest) ∧ AnyOversized (next a rest) := by
  unfold imagesAfter
  cases hp : p xs with
  | error e =>
    refine ⟨fun h => absurd h not_anyOversized_nil, ?_⟩
    rintro ⟨a, rest, hok, -⟩
    simp at hok
  | ok r =>
    obtain ⟨a, rest⟩ := r
    refine ⟨fun h => ⟨a, rest, rfl, h⟩, ?_⟩
    rintro ⟨a', rest', hok, h⟩
    obtain ⟨rfl, rfl⟩ := Prod.mk.inj (Except.ok.inj hok)
    exact h

theorem anyOversized_toList {h : Option ImageHeader} :
    AnyOversized h.toList ↔ ∃ h', h = some h' ∧ Oversized h' := by
  simp only [AnyOversized, Option.mem_toList]

theorem follows_readHeaders :
    ∀ (fuel : Nat) (blocks : List BlockWork) (last : Option Locator),
      Follows (readHeadersChecked fuel blocks last) (readHeaders fuel blocks last)
        fun xs => AnyOversized (headerImages fuel last xs) := by
  intro fuel
  induction fuel with
  | zero =>
    intro blocks last
    exact (Follows.fail _).congr fun xs => ⟨not_anyOversized_nil, False.elim⟩
  | succ fuel ih =>
    intro blocks last
    unfold readHeadersChecked readHeaders
    refine Follows.congr (CheckedCursor.follows_u8.bind_first fun blockId =>
      show Follows _ _ fun xs => AnyOversized (entryImages (headerImages fuel) last blockId xs)
        from ?_) fun xs => anyOversized_after
    unfold entryImages
    by_cases hshort : blockId = XLR_BLOCK_ID_DATA_SHORT
    · simp only [if_pos hshort]
      exact (CheckedCursor.follows_u8.map_safely _).congr fun _ => ⟨not_anyOversized_nil, False.elim⟩
    by_cases hlong : blockId = XLR_BLOCK_ID_DATA_LONG
    · simp only [if_neg hshort, if_pos hlong]
      exact (CheckedCursor.follows_u32.map_safely _).congr fun _ => ⟨not_anyOversized_nil, False.elim⟩
    by_cases horigin : blockId = XLR_BLOCK_ID_ORIGIN
    · simp only [if_neg hshort, if_neg hlong, if_pos horigin]
      exact ((CheckedCursor.follows_skip 2).bind_first fun _ => ih blocks last).congr
        fun _ => anyOversized_after
    by_cases hxid : blockId = XLR_BLOCK_ID_TOPLEVEL_XID
    · simp only [if_neg hshort, if_neg hlong, if_neg horigin, if_pos hxid]
      exact ((CheckedCursor.follows_skip 8).bind_first fun _ => ih blocks last).congr
        fun _ => anyOversized_after
    by_cases hmax : blockId ≤ XLR_MAX_BLOCK_ID
    · simp only [if_neg hshort, if_neg hlong, if_neg horigin, if_neg hxid, if_pos hmax]
      refine ((follows_readBlockHeader last).bind fun b => ih (blocks ++ [b.1]) (some b.2)).congr
        fun xs => ?_
      rw [anyOversized_append, anyOversized_after, anyOversized_after]
      refine or_congr_left ⟨?_, ?_⟩
      · rintro ⟨h, rest, hread, hover⟩
        obtain ⟨h', rfl, hover'⟩ := anyOversized_toList.mp hover
        exact ⟨h', rest, hread, hover'⟩
      · rintro ⟨h, rest, hread, hover⟩
        exact ⟨some h, rest, hread, anyOversized_toList.mpr ⟨h, rfl, hover⟩⟩
    · simp only [if_neg hshort, if_neg hlong, if_neg horigin, if_neg hxid, if_neg hmax]
      exact (Follows.fail _).congr fun _ => ⟨not_anyOversized_nil, False.elim⟩

theorem follows_readBlockData (b : BlockWork) :
    Follows (readBlockDataChecked b) (readBlockData b) Safely := by
  have hdata : Follows
      (if b.hasData then CheckedCursor.take b.dataLen.toNat "block data" else pure [])
      (if b.hasData then Cursor.take b.dataLen.toNat "block data" else pure []) Safely := by
    split
    · exact CheckedCursor.follows_take _
    · exact Follows.pure []
  unfold readBlockDataChecked readBlockData
  simp only [PosReader.ite_bind, Reader.ite_bind]
  cases b.imageMeta with
  | none => exact hdata.map_safely _
  | some m => exact (CheckedCursor.follows_take _).bind_safely fun bytes => hdata.map_safely _

theorem follows_readRecord (lsn : Lsn) (recordLen : Nat) :
    Follows (readRecordChecked lsn recordLen) (readRecord lsn recordLen) fun xs =>
      AnyOversized (imagesAfter readTotLen (bodyImages recordLen) xs) := by
  unfold readRecordChecked readRecord
  refine Follows.congr (CheckedCursor.follows_u32.bind_first fun xlTotLen =>
    CheckedCursor.follows_u32.bind_first fun xid => CheckedCursor.follows_u64.bind_first fun _ =>
      CheckedCursor.follows_u8.bind_first fun info => CheckedCursor.follows_u8.bind_first fun rmid =>
        (CheckedCursor.follows_skip 2).bind_first fun _ => CheckedCursor.follows_u32.bind_first
          fun _ => show Follows _ _ fun xs => AnyOversized (bodyImages recordLen xlTotLen xs)
            from ?_) fun xs => ?_
  · unfold bodyImages
    by_cases hshort : xlTotLen.toNat < SIZE_OF_XLOG_RECORD
    · simp only [if_pos hshort]
      exact (Follows.fail _).congr fun _ => ⟨not_anyOversized_nil, False.elim⟩
    by_cases hbad : xlTotLen.toNat ≠ recordLen
    · simp only [if_neg hshort, if_pos hbad]
      exact (Follows.fail _).congr fun _ => ⟨not_anyOversized_nil, False.elim⟩
    · simp only [if_neg hshort, if_neg hbad]
      exact (follows_readHeaders recordLen [] none).bind_last fun h =>
        (Follows.mapM_safely follows_readBlockData h.1).bind_safely fun ds =>
          (CheckedCursor.follows_take h.2).map_safely _
  · rw [anyOversized_after]
    simp only [readTotLen, Reader.bind_eq_ok]
    constructor
    · rintro ⟨n, rest, ⟨n', r₁, h₁, x, r₂, h₂, p, r₃, h₃, i, r₄, h₄, m, r₅, h₅, s, r₆, h₆, c, r₇, h₇,
        hpure⟩, hover⟩
      obtain ⟨rfl, rfl⟩ := Prod.mk.inj (Except.ok.inj hpure)
      exact ⟨n', r₁, h₁, x, r₂, h₂, p, r₃, h₃, i, r₄, h₄, m, r₅, h₅, s, r₆, h₆, c, _, h₇, hover⟩
    · rintro ⟨n, r₁, h₁, x, r₂, h₂, p, r₃, h₃, i, r₄, h₄, m, r₅, h₅, s, r₆, h₆, c, r₇, h₇, hover⟩
      exact ⟨n, r₇, ⟨n, r₁, h₁, x, r₂, h₂, p, r₃, h₃, i, r₄, h₄, m, r₅, h₅, s, r₆, h₆, c, r₇, h₇, rfl⟩,
        hover⟩

/-- **Decoding panics exactly on an oversized image header**, and is the decoder of `Waldecode`
otherwise. -/
theorem decodeWalRecordChecked_eq (lsn : Lsn) {record : List UInt8} (hlen : record.length < 2 ^ 63) :
    (AnyOversized (imageHeaders record) →
        ∃ what, decodeWalRecordChecked lsn record = .error (.panic what)) ∧
      (¬ AnyOversized (imageHeaders record) →
        decodeWalRecordChecked lsn record = Checked.lift (decodeWalRecord lsn record)) := by
  obtain ⟨hbad, hgood⟩ := follows_readRecord lsn record.length record hlen 0 (Nat.zero_le _)
  unfold decodeWalRecordChecked decodeWalRecord
  refine ⟨fun h => ?_, fun h => ?_⟩
  · obtain ⟨what, hpanic⟩ := hbad h
    exact ⟨what, by rw [hpanic]; rfl⟩
  · rw [List.drop_zero] at hgood
    rcases hgood h with ⟨e, hread, hchecked⟩ | ⟨d, pos, -, hread, hchecked⟩
    · rw [hread, hchecked]
      rfl
    · rw [hread, hchecked]
      rfl

/-! ## Restoring images -/

/-- `for _ in 0..len`: copy from `off` bytes back, up to the size of the output. -/
def pglzCopyChecked (dstLen off : Nat) : Nat → List UInt8 → Checked WalDecodeError (List UInt8)
  | 0, dst => .ok dst
  | len + 1, dst =>
    if dstLen ≤ dst.length then .ok dst
    else do
      let b ← Checked.get dst (← Checked.sub dst.length off)
      pglzCopyChecked dstLen off len (dst ++ [b])

/-- A back-reference: its length and offset. -/
def pglzReferenceChecked : CheckedCursor (Nat × Nat) := fun src sp => do
  let second ← Checked.add 64 sp 1
  if src.length ≤ second then .error (.error (.decompress .pglz))
  else
    let b ← Checked.get src sp
    let b' ← Checked.get src second
    let len ← Checked.add 64 (b &&& 0x0f).toNat 3
    let off := (b &&& 0xf0).toNat * 16 + b'.toNat
    let sp ← Checked.add 64 sp 2
    if len = 18 then
      if src.length ≤ sp then .error (.error (.decompress .pglz))
      else
        let len ← Checked.add 64 len (← Checked.get src sp).toNat
        return ((len, off), ← Checked.add 64 sp 1)
    else return ((len, off), sp)

/-- The up to eight tokens under one control byte. -/
def pglzTokensChecked (dstLen : Nat) (ctrl : UInt8) :
    List UInt8 → List UInt8 → CheckedCursor (List UInt8)
  | [], dst => pure dst
  | bit :: bits, dst => fun src sp =>
    if src.length ≤ sp ∨ dstLen ≤ dst.length then .ok (dst, sp)
    else if (ctrl >>> bit) &&& 1 = 0 then do
      let b ← Checked.get src sp
      let sp ← Checked.add 64 sp 1
      pglzTokensChecked dstLen ctrl bits (dst ++ [b]) src sp
    else do
      let ((len, off), sp) ← pglzReferenceChecked src sp
      if off = 0 ∨ dst.length < off then .error (.error (.decompress .pglz))
      else
        let dst ← pglzCopyChecked dstLen off len dst
        pglzTokensChecked dstLen ctrl bits dst src sp

/-- One control byte and its tokens, as long as there is input and room. -/
def pglzLoopChecked (dstLen : Nat) : Nat → List UInt8 → CheckedCursor (List UInt8)
  | 0, dst => pure dst
  | fuel + 1, dst => fun src sp =>
    if sp < src.length ∧ dst.length < dstLen then do
      let ctrl ← Checked.get src sp
      let sp ← Checked.add 64 sp 1
      let (dst, sp) ← pglzTokensChecked dstLen ctrl [0, 1, 2, 3, 4, 5, 6, 7] dst src sp
      pglzLoopChecked dstLen fuel dst src sp
    else .ok (dst, sp)

def pglzDecompressChecked (src : List UInt8) (dstLen : Nat) : Checked WalDecodeError (List UInt8) :=
  (pglzLoopChecked dstLen src.length [] src 0).map Prod.fst

namespace DecodedImage

def bodyChecked (codecs : Codecs) (img : DecodedImage) (bodyLen : Nat) :
    Checked WalDecodeError (List UInt8) :=
  match img.compression with
  | .none =>
    if img.bytes.length ≠ bodyLen then
      .error (.error (.badImageSize img.bytes.length bodyLen))
    else .ok img.bytes
  | .pglz => pglzDecompressChecked img.bytes bodyLen
  | .lz4 =>
    ((codecs.lz4 img.bytes bodyLen).map Except.ok).getD (.error (.error (.decompress .lz4)))
  | .zstd =>
    ((codecs.zstd img.bytes bodyLen).map Except.ok).getD (.error (.error (.decompress .zstd)))

/-- Reconstruct the full page from the stored bytes. -/
def restoreChecked (codecs : Codecs) (img : DecodedImage) : Checked WalDecodeError (List UInt8) := do
  let hl := img.holeLength.toNat
  let ho := img.holeOffset.toNat
  if XLOG_BLCKSZ < (← Checked.add 64 ho hl) then .error (.error (.badHole ho hl))
  else
    let bodyLen ← Checked.sub XLOG_BLCKSZ hl
    let body ← img.bodyChecked codecs bodyLen
    if body.length ≠ bodyLen then .error (.error (.badImageSize body.length bodyLen))
    else
      let page := List.replicate XLOG_BLCKSZ 0
      let page ← Checked.copyFrom page 0 ho (← Checked.slice body 0 ho)
      let holeEnd ← Checked.add 64 ho hl
      Checked.copyFrom page holeEnd page.length (← Checked.slice body ho body.length)

end DecodedImage

/-- Copying never reads past the output: it only grows. -/
theorem pglzCopyChecked_eq (dstLen off len : Nat) {dst : List UInt8} (hoff : 0 < off)
    (hle : off ≤ dst.length) :
    pglzCopyChecked dstLen off len dst = .ok (pglzCopy dstLen off len dst) := by
  induction len generalizing dst with
  | zero => rfl
  | succ len ih =>
    unfold pglzCopyChecked pglzCopy
    split
    · rfl
    · have hlt : dst.length - off < dst.length := by omega
      rw [Checked.sub_eq hle, Checked.bind_ok, Checked.get_eq hlt, Checked.bind_ok, ih,
        List.getElem?_eq_getElem hlt, Option.getD_some]
      rw [List.length_append]
      omega

/-- A back-reference at the front of the input. -/
def pglzReference : Reader UInt8 WalDecodeError (Nat × Nat)
  | b :: b' :: src =>
    let len := (b &&& 0x0f).toNat + 3
    let off := (b &&& 0xf0).toNat * 16 + b'.toNat
    if len ≠ 18 then .ok ((len, off), src)
    else match src with
      | [] => .error (.decompress .pglz)
      | c :: src => .ok ((len + c.toNat, off), src)
  | _ => .error (.decompress .pglz)

theorem follows_pglzReference : Follows pglzReferenceChecked pglzReference Safely := by
  intro src hsrc sp hsp
  refine ⟨False.elim, fun _ => ?_⟩
  unfold pglzReferenceChecked
  rw [Checked.add_eq (by omega), Checked.bind_ok]
  rcases Nat.lt_or_ge (sp + 1) src.length with hlt | hge
  · have hlow : (src[sp] &&& 0x0f).toNat < 16 := by
      rw [UInt8.toNat_and]
      exact Nat.lt_of_le_of_lt Nat.and_le_right (by decide)
    have hdrop : src.drop sp = src[sp] :: src[sp + 1] :: src.drop (sp + 2) := by
      rw [List.drop_eq_getElem_cons (show sp < src.length by omega), List.drop_eq_getElem_cons hlt]
    rw [if_neg (by omega), Checked.get_eq (by omega), Checked.bind_ok, Checked.get_eq hlt,
      Checked.bind_ok, Checked.add_eq (by omega), Checked.bind_ok, Checked.add_eq (by omega),
      Checked.bind_ok, hdrop]
    by_cases hlen : (src[sp] &&& 0x0f).toNat + 3 = 18
    · rw [if_pos hlen]
      rcases Nat.lt_or_ge (sp + 2) src.length with hlt' | hge'
      · have hbyte := src[sp + 2].toNat_lt
        rw [if_neg (by omega), Checked.get_eq hlt', Checked.bind_ok, Checked.add_eq (by omega),
          Checked.bind_ok, Checked.add_eq (by omega), List.drop_eq_getElem_cons hlt']
        exact Or.inr ⟨_, sp + 2 + 1, by omega, if_neg (not_not.mpr hlen), rfl⟩
      · rw [List.drop_eq_nil_of_le hge', if_pos hge']
        exact Or.inl ⟨_, if_neg (not_not.mpr hlen), rfl⟩
    · rw [if_neg hlen]
      exact Or.inr ⟨_, sp + 2, by omega, if_pos hlen, rfl⟩
  · refine Or.inl ⟨.decompress .pglz, ?_, ?_⟩
    · obtain ⟨rest, hrest⟩ : ∃ rest, src.drop sp = rest := ⟨_, rfl⟩
      have hlen : rest.length ≤ 1 := by
        rw [← hrest, List.length_drop]
        omega
      rw [hrest]
      match rest with
      | [] => rfl
      | [_] => rfl
      | _ :: _ :: _ => simp at hlen
    · rw [if_pos hge]

theorem pglzTokens_reference {dstLen : Nat} {ctrl bit : UInt8} {src dst : List UInt8}
    (bits : List UInt8) (hroom : dst.length < dstLen) (hsrc : src ≠ [])
    (hbit : (ctrl >>> bit) &&& 1 ≠ 0) :
    pglzTokens dstLen ctrl (bit :: bits) src dst
      = (pglzReference src).bind fun ((len, off), rest) =>
          if off = 0 ∨ dst.length < off then .error (.decompress .pglz)
          else pglzTokens dstLen ctrl bits rest (pglzCopy dstLen off len dst) := by
  refine (if_neg (Nat.not_le.mpr hroom)).trans ?_
  match src with
  | [] => exact absurd rfl hsrc
  | [b] => simp [hbit, pglzReference, Except.bind]
  | b :: b' :: src =>
    simp only [hbit, if_false, pglzReference, Except.bind]
    generalize (b &&& 0x0f).toNat + 3 = len
    generalize (b &&& 0xf0).toNat * 16 + b'.toNat = off
    by_cases hlen : len = 18
    · cases src with
      | nil => simp [hlen]
      | cons c src => simp [hlen]
    · simp [hlen]

theorem follows_pglzTokens (dstLen : Nat) (ctrl : UInt8) (bits dst : List UInt8) :
    Follows (pglzTokensChecked dstLen ctrl bits dst)
      (fun src => (pglzTokens dstLen ctrl bits src dst).map Prod.swap) Safely := by
  induction bits generalizing dst with
  | nil => exact Follows.pure dst
  | cons bit bits ih =>
    intro src hlen sp hsp
    refine ⟨False.elim, fun _ => ?_⟩
    unfold pglzTokensChecked
    by_cases hroom : dstLen ≤ dst.length
    · rw [if_pos (Or.inr hroom)]
      have hstop : pglzTokens dstLen ctrl (bit :: bits) (src.drop sp) dst = .ok (src.drop sp, dst) :=
        if_pos hroom
      exact Or.inr ⟨dst, sp, hsp, congrArg (Except.map Prod.swap) hstop, rfl⟩
    rcases Nat.lt_or_ge sp src.length with hlt | hge
    · rw [if_neg (by omega)]
      by_cases hbit : (ctrl >>> bit) &&& 1 = 0
      · have hstep : pglzTokens dstLen ctrl (bit :: bits) (src.drop sp) dst
            = pglzTokens dstLen ctrl bits (src.drop (sp + 1)) (dst ++ [src[sp]]) := by
          rw [List.drop_eq_getElem_cons hlt]
          exact (if_neg hroom).trans (if_pos hbit)
        beta_reduce
        rw [if_pos hbit, Checked.get_eq hlt, Checked.bind_ok, Checked.add_eq (by omega),
          Checked.bind_ok, hstep]
        exact (ih (dst ++ [src[sp]]) src hlen (sp + 1) hlt).2 id
      · have hne : src.drop sp ≠ [] := by
          rw [List.drop_eq_getElem_cons hlt]
          exact List.cons_ne_nil _ _
        beta_reduce
        rw [if_neg hbit, pglzTokens_reference bits (by omega) hne hbit]
        rcases (follows_pglzReference src hlen sp hsp).2 id with ⟨e, href, hchecked⟩ |
          ⟨⟨len, off⟩, sp', hsp', href, hchecked⟩
        · rw [href, hchecked]
          exact Or.inl ⟨e, rfl, rfl⟩
        · rw [href, hchecked, Checked.bind_ok]
          simp only [Except.bind]
          by_cases hoff : off = 0 ∨ dst.length < off
          · rw [if_pos hoff, if_pos hoff]
            exact Or.inl ⟨_, rfl, rfl⟩
          · rw [if_neg hoff, if_neg hoff, pglzCopyChecked_eq dstLen off len (by omega) (by omega),
              Checked.bind_ok]
            exact (ih (pglzCopy dstLen off len dst) src hlen sp' hsp').2 id
    · rw [if_pos (Or.inl hge)]
      have hstop : pglzTokens dstLen ctrl (bit :: bits) [] dst = .ok ([], dst) := if_neg hroom
      rw [List.drop_eq_nil_of_le hge]
      refine Or.inr ⟨dst, sp, hsp, ?_, rfl⟩
      rw [List.drop_eq_nil_of_le hge]
      exact congrArg (Except.map Prod.swap) hstop

theorem map_swap_eq_ok {α β ε : Type} (x : Except ε (α × β)) (a : α) (b : β) :
    x.map Prod.swap = .ok (b, a) ↔ x = .ok (a, b) := by
  cases x with
  | error e => simp [Except.map]
  | ok out => simp [Except.map, Prod.ext_iff, and_comm]

theorem map_swap_eq_error {α β ε : Type} (x : Except ε (α × β)) (e : ε) :
    x.map Prod.swap = .error e ↔ x = .error e := by
  cases x <;> simp [Except.map]

theorem pglzLoopChecked_eq (dstLen : Nat) {src : List UInt8} (hlen : src.length < 2 ^ 63) :
    ∀ (fuel sp : Nat) (dst : List UInt8), sp ≤ src.length →
      (pglzLoopChecked dstLen fuel dst src sp).map Prod.fst
        = Checked.lift (pglzLoop dstLen fuel (src.drop sp) dst) := by
  intro fuel
  induction fuel with
  | zero => intro sp dst hsp; rfl
  | succ fuel ih =>
    intro sp dst hsp
    unfold pglzLoopChecked
    rcases Nat.lt_or_ge sp src.length with hlt | hge
    · rw [List.drop_eq_getElem_cons hlt, pglzLoop]
      by_cases hroom : dstLen ≤ dst.length
      · rw [if_neg (by omega), if_pos hroom]
        rfl
      · rw [if_pos (by omega), if_neg hroom, Checked.get_eq hlt, Checked.bind_ok,
          Checked.add_eq (by omega), Checked.bind_ok]
        rcases (follows_pglzTokens dstLen src[sp] [0, 1, 2, 3, 4, 5, 6, 7] dst src hlen (sp + 1)
          hlt).2 id with ⟨e, htokens, hchecked⟩ | ⟨dst', sp', hsp', htokens, hchecked⟩
        · rw [hchecked, (map_swap_eq_error _ _).mp htokens]
          rfl
        · rw [hchecked, (map_swap_eq_ok _ _ _).mp htokens]
          exact ih sp' dst' hsp'
    · rw [List.drop_eq_nil_of_le hge, if_neg (by omega)]
      rfl

theorem pglzDecompressChecked_eq {src : List UInt8} (hlen : src.length < 2 ^ 63) (dstLen : Nat) :
    pglzDecompressChecked src dstLen = Checked.lift (pglzDecompress src dstLen) :=
  pglzLoopChecked_eq dstLen hlen src.length 0 [] (Nat.zero_le _)

namespace DecodedImage

variable {img : DecodedImage}

theorem bodyChecked_eq (codecs : Codecs) (hlen : img.bytes.length < 2 ^ 63) (bodyLen : Nat) :
    img.bodyChecked codecs bodyLen = Checked.lift (img.body codecs bodyLen) := by
  unfold bodyChecked body
  cases img.compression with
  | none =>
    simp only
    split
    · rfl
    · rfl
  | pglz => exact pglzDecompressChecked_eq hlen bodyLen
  | lz4 => cases codecs.lz4 img.bytes bodyLen <;> rfl
  | zstd => cases codecs.zstd img.bytes bodyLen <;> rfl

theorem restoreChecked_eq (codecs : Codecs) (hlen : img.bytes.length < 2 ^ 63) :
    img.restoreChecked codecs = Checked.lift (img.restore codecs) := by
  have ho := img.holeOffset.toNat_lt
  have hl := img.holeLength.toNat_lt
  have hsize : XLOG_BLCKSZ = 8192 := rfl
  simp only [restoreChecked, restore]
  rw [Checked.add_eq (by omega), Checked.bind_ok]
  by_cases hhole : XLOG_BLCKSZ < img.holeOffset.toNat + img.holeLength.toNat
  · rw [if_pos hhole, if_pos hhole]
    rfl
  rw [if_neg hhole, if_neg hhole, Checked.sub_eq (by omega), Checked.bind_ok,
    bodyChecked_eq codecs hlen]
  cases img.body codecs (XLOG_BLCKSZ - img.holeLength.toNat) with
  | error e => rfl
  | ok body =>
    simp only [Checked.lift, Checked.bind_ok]
    by_cases hbody : body.length ≠ XLOG_BLCKSZ - img.holeLength.toNat
    · rw [if_pos hbody, if_pos hbody]
    · have hbody' : body.length = XLOG_BLCKSZ - img.holeLength.toNat := not_not.mp hbody
      rw [if_neg hbody, if_neg hbody, Checked.slice_eq (by omega), Checked.bind_ok,
        Checked.copyFrom_eq (by simp; omega), Checked.bind_ok, Checked.slice_eq (by omega),
        Checked.bind_ok, Checked.copyFrom_eq (by simp; omega)]
      have hhead : (body.take img.holeOffset.toNat).length = img.holeOffset.toNat := by
        rw [List.length_take]
        omega
      have hfill : min (img.holeOffset.toNat + img.holeLength.toNat - img.holeOffset.toNat)
          (XLOG_BLCKSZ - img.holeOffset.toNat) = img.holeLength.toNat := by
        omega
      have hkeep : (body.take img.holeOffset.toNat).take
          (img.holeOffset.toNat + img.holeLength.toNat) = body.take img.holeOffset.toNat :=
        List.take_of_length_le (by omega)
      have hrest : (body.drop img.holeOffset.toNat).take (body.length - img.holeOffset.toNat)
          = body.drop img.holeOffset.toNat :=
        List.take_of_length_le (by rw [List.length_drop])
      simp only [List.take_zero, List.nil_append, List.drop_zero, Nat.sub_zero, List.drop_replicate,
        List.take_append, List.drop_length, List.append_nil, hhead, hkeep, hrest]
      rw [List.take_replicate, hfill]

theorem length_restore {codecs : Codecs} {page : List UInt8} (h : img.restore codecs = .ok page) :
    page.length = XLOG_BLCKSZ := by
  simp only [restore] at h
  split at h
  · simp at h
  next hhole =>
  split at h
  · simp at h
  next body _ =>
  split at h
  · simp at h
  next hbody =>
  rw [← Except.ok.inj h]
  simp only [List.length_append, List.length_take, List.length_replicate, List.length_drop]
  omega

end DecodedImage

/-! ## Filing the versions -/

/-- The version a block of a record becomes. An image that cannot be restored is not an error. -/
def versionOfBlockChecked (codecs : Codecs) (b : DecodedBlock) (raw : List UInt8) :
    Checked WalDecodeError PageVersion :=
  match b.image with
  | some img =>
    match img.restoreChecked codecs with
    | .ok page => .ok (.image page)
    | .error (.error _) => .ok (.walRecord ⟨b.willInit, raw⟩)
    | .error (.panic what) => .error (.panic what)
  | none => .ok (.walRecord ⟨b.willInit, raw⟩)

def modificationsFromRecordChecked (codecs : Codecs) (decoded : DecodedWalRecord) (raw : List UInt8) :
    Checked WalDecodeError (List Modification) :=
  decoded.blocks.mapM fun b => do
    return ⟨b.rel, b.blkno, decoded.lsn, ← versionOfBlockChecked codecs b raw⟩

namespace Repository

def freezeLockedChecked (r : Repository) : Repository × Checked WalDecodeError Unit :=
  if r.memtable.isEmpty then (r, .ok ())
  else match Checked.add 64 r.nextLayerId 1 with
    | .error f => (r, .error f)
    | .ok next =>
      ({ r with
          memtable := OrdMap.empty
          layers := r.layers ++ [⟨r.nextLayerId, r.memtable⟩]
          nextLayerId := next }, .ok ())

/-- The body of the ingest loop; the state is the one a panic leaves behind as well. -/
def ingestOneChecked (r : Repository) (m : Modification) : Repository × Checked WalDecodeError Unit :=
  let prior := (r.getRelSize m.rel m.lsn).getD 0
  match Checked.add 32 m.block.toNat 1 with
  | .error f => (r, .error f)
  | .ok next =>
    let size := max prior (UInt32.ofNat next)
    let slot := (OrdMap.lookup (toLex (m.rel, m.lsn)) r.relSizes).getD 0
    let r := { r with relSizes := OrdMap.insert (toLex (m.rel, m.lsn)) (max slot size) r.relSizes }
    let r := r.insertVersion m
    if r.freezeThreshold ≤ r.memtable.size then r.freezeLockedChecked else (r, .ok ())

/-- Ingest a batch of page modifications, with the lock held all along. -/
def ingestChecked (r : Repository) : List Modification → Repository × Checked WalDecodeError Unit
  | [] => (r, .ok ())
  | m :: mods =>
    match r.ingestOneChecked m with
    | (r, .error f) => (r, .error f)
    | (r, .ok ()) => r.ingestChecked mods

/-- Decode one already-framed WAL record and ingest its per-page changes. The lock is only
taken for the last part. -/
def ingestRecordChecked (codecs : Codecs) (r : Repository) (lsn : Lsn) (record : List UInt8) :
    Repository × Checked WalDecodeError Unit :=
  match decodeWalRecordChecked lsn record with
  | .error f => (r, .error f)
  | .ok decoded =>
    match modificationsFromRecordChecked codecs decoded record with
    | .error f => (r, .error f)
    | .ok mods => r.ingestChecked mods

end Repository

/-- The stored image, if there is one, is as long as a `u16` can say. -/
def DecodedBlock.ShortImage (b : DecodedBlock) : Prop :=
  ∀ img, b.image = some img → img.bytes.length < 2 ^ 16

theorem yields_readBlockData (w : BlockWork) : Yields (readBlockData w) DecodedBlock.ShortImage := by
  unfold readBlockData
  -- the data that follows the image is not looked at
  have hdata : ∀ image : Option DecodedImage, (∀ img, image = some img → img.bytes.length < 2 ^ 16) →
      Yields ((if w.hasData then Cursor.take w.dataLen.toNat "block data" else pure []) >>= fun data =>
        (pure ⟨w.rel, w.blkno, w.willInit, image, data⟩ : Cursor DecodedBlock))
        DecodedBlock.ShortImage :=
    fun image hshort => Yields.bind_last fun data => Yields.pure hshort
  cases w.imageMeta with
  | none =>
    have hnone := hdata none fun img himg => absurd himg (by simp)
    rw [← Reader.ite_bind] at hnone
    exact hnone
  | some m =>
    have hbytes : Yields (Cursor.take m.bimgLen.toNat "block image")
        fun bytes => bytes.length < 2 ^ 16 := by
      intro xs rest bytes hok
      rw [(Cursor.take_ok hok).1]
      exact m.bimgLen.toNat_lt
    refine hbytes.bind fun bytes hshort => ?_
    have hsome := hdata (some ⟨bytes, m.holeOffset, m.holeLength, m.compression, m.apply⟩)
      fun img himg => by rw [← Option.some.inj himg]; exact hshort
    rw [← Reader.ite_bind] at hsome
    exact hsome

theorem yields_readRecord (lsn : Lsn) (recordLen : Nat) :
    Yields (readRecord lsn recordLen) fun d => d.lsn = lsn ∧ ∀ b ∈ d.blocks, b.ShortImage := by
  unfold readRecord
  refine Yields.bind_last fun xlTotLen => Yields.bind_last fun _ => Yields.bind_last fun _ =>
    Yields.bind_last fun _ => Yields.bind_last fun _ => Yields.bind_last fun _ =>
      Yields.bind_last fun _ => ?_
  split
  · exact Yields.throw _
  split
  · exact Yields.throw _
  · exact Yields.bind_last fun headers => (Yields.mapM yields_readBlockData _).bind fun blocks hblocks =>
      Yields.bind_last fun mainData => Yields.pure ⟨rfl, hblocks⟩

theorem decoded_of_decodeWalRecord {lsn : Lsn} {record : List UInt8} {d : DecodedWalRecord}
    (h : decodeWalRecord lsn record = .ok d) : d.lsn = lsn ∧ ∀ b ∈ d.blocks, b.ShortImage := by
  unfold decodeWalRecord at h
  cases hread : readRecord lsn record.length record with
  | error e =>
    rw [hread] at h
    simp [Except.map] at h
  | ok out =>
    rw [hread] at h
    obtain rfl := Except.ok.inj h
    exact yields_readRecord lsn record.length record out.2 out.1 hread

theorem length_versionOfBlock {codecs : Codecs} {b : DecodedBlock} {raw page : List UInt8}
    (h : versionOfBlock codecs b raw = .image page) : page.length = XLOG_BLCKSZ := by
  unfold versionOfBlock at h
  split at h
  · split at h
    · next hrestore =>
      obtain rfl := PageVersion.image.inj h
      exact DecodedImage.length_restore hrestore
    · simp at h
  · simp at h

theorem versionOfBlockChecked_eq (codecs : Codecs) {b : DecodedBlock} (raw : List UInt8)
    (h : ∀ img, b.image = some img → img.bytes.length < 2 ^ 63) :
    versionOfBlockChecked codecs b raw = .ok (versionOfBlock codecs b raw) := by
  unfold versionOfBlockChecked versionOfBlock
  cases himg : b.image with
  | none => rfl
  | some img =>
    simp only [DecodedImage.restoreChecked_eq codecs (h img himg)]
    cases img.restore codecs <;> rfl

theorem modificationsFromRecordChecked_eq (codecs : Codecs) {d : DecodedWalRecord} (raw : List UInt8)
    (h : ∀ b ∈ d.blocks, ∀ img, b.image = some img → img.bytes.length < 2 ^ 63) :
    modificationsFromRecordChecked codecs d raw = .ok (modificationsFromRecord codecs d raw) := by
  unfold modificationsFromRecordChecked modificationsFromRecord
  revert h
  induction d.blocks with
  | nil => intro _; rfl
  | cons b blocks ih =>
    intro h
    rw [List.mapM_cons, ih fun b' hb' => h b' (List.mem_cons_of_mem _ hb'),
      versionOfBlockChecked_eq codecs raw (h b List.mem_cons_self)]
    rfl

namespace Repository

theorem freezeLockedChecked_eq {r : Repository} (h : r.nextLayerId + 1 < 2 ^ 64) :
    r.freezeLockedChecked = (r.freezeLocked, .ok ()) := by
  unfold freezeLockedChecked freezeLocked
  rw [Checked.add_eq h]
  split <;> rfl

theorem nextLayerId_ingestOne_le (r : Repository) (m : Modification) :
    (r.ingestOne m).nextLayerId ≤ r.nextLayerId + 1 := by
  simp only [ingestOne]
  split
  · unfold freezeLocked
    split
    · exact Nat.le_succ _
    · exact le_rfl
  · exact Nat.le_succ _

theorem ingestOneChecked_eq {r : Repository} {m : Modification} (hblock : m.block.toNat + 1 < 2 ^ 32)
    (hlayer : r.nextLayerId + 1 < 2 ^ 64) : r.ingestOneChecked m = (r.ingestOne m, .ok ()) := by
  have hnext : UInt32.ofNat (m.block.toNat + 1) = m.block + 1 := by
    rw [UInt32.ofNat_add, UInt32.ofNat_toNat]
    rfl
  have hstep : r.ingestOneChecked m
      = if ((r.trackRelSize m).insertVersion m).freezeThreshold
            ≤ ((r.trackRelSize m).insertVersion m).memtable.size then
          ((r.trackRelSize m).insertVersion m).freezeLockedChecked
        else ((r.trackRelSize m).insertVersion m, .ok ()) := by
    unfold ingestOneChecked
    rw [Checked.add_eq hblock]
    simp only [hnext]
    rfl
  rw [hstep]
  simp only [ingestOne]
  split
  · exact freezeLockedChecked_eq hlayer
  · rfl

theorem ingestChecked_eq :
    ∀ {mods : List Modification} {r : Repository}, (∀ m ∈ mods, m.block.toNat + 1 < 2 ^ 32) →
      r.nextLayerId + mods.length < 2 ^ 64 → r.ingestChecked mods = (r.ingest mods, .ok ()) := by
  intro mods
  induction mods with
  | nil => intro r _ _; rfl
  | cons m mods ih =>
    intro r hblocks hlayers
    have hone : r.nextLayerId + 1 < 2 ^ 64 :=
      lt_of_le_of_lt (Nat.add_le_add_left (Nat.le_add_left 1 mods.length) _) hlayers
    have hrest : (r.ingestOne m).nextLayerId + mods.length < 2 ^ 64 := by
      refine lt_of_le_of_lt (Nat.add_le_add_right (nextLayerId_ingestOne_le r m) _) ?_
      rwa [Nat.add_assoc, Nat.add_comm 1]
    unfold ingestChecked
    rw [ingestOneChecked_eq (hblocks m List.mem_cons_self) hone]
    exact ih (fun m' hm' => hblocks m' (List.mem_cons_of_mem _ hm')) hrest

end Repository

/-- Where the version of a block is filed. -/
def DecodedBlock.slot (b : DecodedBlock) (lsn : Lsn) : Slot := toLex (⟨b.rel, b.blkno⟩, lsn)

/-- What a record must not do to a repository. -/
structure Harmless (r : Repository) (lsn : Lsn) (record : List UInt8) : Prop where
  images : ¬ AnyOversized (imageHeaders record)
  blocks : ∀ d, decodeWalRecord lsn record = .ok d → ∀ b ∈ d.blocks, b.blkno.toNat + 1 < 2 ^ 32
  layers : ∀ d, decodeWalRecord lsn record = .ok d → r.nextLayerId + d.blocks.length < 2 ^ 64
  slots : ∀ d, decodeWalRecord lsn record = .ok d → (d.blocks.map (DecodedBlock.slot · lsn)).Nodup
  fresh : ∀ d, decodeWalRecord lsn record = .ok d → ∀ b ∈ d.blocks, b.slot lsn ∉ r.openSlots

/-- A record with these block headers, no block data and one byte of main data. -/
def recordOf (headers : List UInt8) : List UInt8 :=
  leBytes 4 (SIZE_OF_XLOG_RECORD + headers.length + 3) ++ leBytes 4 700 ++ leBytes 8 0 ++ [0, 1, 0, 0]
    ++ leBytes 4 0 ++ headers ++ [XLR_BLOCK_ID_DATA_SHORT, 1, 7]

/-- The header of a block of relation `1663/5/16384` without image and data. -/
def blockRef (id : UInt8) (blkno : UInt32) : List UInt8 :=
  [id, 0, 0, 0] ++ leBytes 4 1663 ++ leBytes 4 5 ++ leBytes 4 16384 ++ leBytes 4 blkno.toNat

def noCodecs : Codecs := ⟨fun _ _ => none, fun _ _ => none⟩

/-- The header of a block with an image of 8193 bytes, with a hole and without compression. -/
def oversizedImage : List UInt8 :=
  [0, 0x10, 0, 0] ++ leBytes 2 8193 ++ leBytes 2 0 ++ [BKPIMAGE_HAS_HOLE]

end AethelDB.Pageserver
