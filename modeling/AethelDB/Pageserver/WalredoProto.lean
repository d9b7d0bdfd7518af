import AethelDB.Common.Text
import AethelDB.Lib.Wire
import AethelDB.Pageserver.WalredoProcess

/-!
# The pipe between the page server and its wal-redo process

`pageserver/src/walredo_proto.rs`: the requests and responses, how they are written, and how they
are decoded from a complete buffer. Also the reading half of `PostgresRedoManager::exchange`
(`pageserver/src/walredo_process.rs`), which takes a response off the pipe. Nothing on the pipe says
how long a message is; a reader that is out by one byte is out for good.

The decoders look their fixed fields up by offset. Read one after the other they are the same
fields, with the reserved bytes between them skipped on account of the next field, whose lookup is
what fails when they are missing.
-/

namespace AethelDB.Pageserver

open AethelDB.Lib AethelDB.Text

namespace WalredoProto

def REQ_MAGIC : UInt32 := 0x57524431

def RESP_MAGIC : UInt32 := 0x57525231

def VERSION : UInt8 := 1

/-- A base image follows the header. -/
def FLAG_HAS_BASE : UInt8 := 1

def RESP_HEADER_LEN : Nat := 8

def STATUS_OK : UInt8 := 0

def STATUS_ERR : UInt8 := 1

end WalredoProto

open WalredoProto

inductive ProtoError where
  | truncated (what : String)
  | badMagic (got want : UInt32)
  | badVersion (version : UInt8)
  | badStatus (status : UInt8)
deriving DecidableEq

/-- A request to reconstruct one page: a base image and the WAL records to apply. -/
structure RedoRequest where
  rel : RelTag
  blkno : UInt32
  /-- `None` starts from an all-zero page. -/
  baseImage : Option (List UInt8)
  records : RedoRecords

inductive RedoResponse where
  | page (bytes : List UInt8)
  | error (msg : String)
deriving DecidableEq

/-! ## Requests -/

/-- A record with its LSN and its length. -/
def encodeRecord (r : Lsn × List UInt8) : List UInt8 :=
  toBeBytes 8 r.1.raw.toNat ++ (toBeBytes 4 r.2.length ++ r.2)

namespace RedoRequest

/-- The 28 bytes up to the block number. -/
def header (r : RedoRequest) : List UInt8 :=
  toBeBytes 4 REQ_MAGIC.toNat
    ++ ([VERSION, if r.baseImage.isSome then FLAG_HAS_BASE else 0] ++ ([0, 0]
    ++ (toBeBytes 4 r.rel.spcNode.toNat ++ (toBeBytes 4 r.rel.dbNode.toNat
    ++ (toBeBytes 4 r.rel.relNode.toNat ++ ([r.rel.fork.toByte] ++ ([0, 0, 0]
    ++ toBeBytes 4 r.blkno.toNat)))))))

/-- Header, base image if there is one, and records. The count and the lengths are cut to 32
bits. -/
def encode (r : RedoRequest) : List UInt8 :=
  r.header
    ++ (r.baseImage.getD [] ++ (toBeBytes 4 r.records.length ++ r.records.flatMap encodeRecord))

end RedoRequest

def RedoRequest.readRecord : Reader UInt8 ProtoError (Lsn × List UInt8) := do
  let lsn ← Reader.u64 (.truncated "record lsn")
  let len ← Reader.u32 (.truncated "record len")
  let record ← Reader.exactly len.toNat (.truncated "record bytes")
  return (⟨lsn⟩, record)

namespace RedoRequest

/-- The base image, if the flags announce one. -/
def readBase (flags : UInt8) : Reader UInt8 ProtoError (Option (List UInt8)) :=
  if flags &&& FLAG_HAS_BASE ≠ 0 then some <$> Reader.exactly PAGE_SIZE (.truncated "base image")
  else pure none

/-- What follows the block number. -/
def readBody (rel : RelTag) (blkno : UInt32) (flags : UInt8) : Reader UInt8 ProtoError RedoRequest := do
  let baseImage ← readBase flags
  let n ← Reader.u32 (.truncated "n_records")
  let records ← readRecord.times n.toNat
  return ⟨rel, blkno, baseImage, records⟩

def read : Reader UInt8 ProtoError RedoRequest := do
  let magic ← Reader.u32 (.truncated "magic")
  if magic ≠ REQ_MAGIC then throw (.badMagic magic REQ_MAGIC)
  else
    let version ← Reader.byte (.truncated "version")
    if version ≠ VERSION then throw (.badVersion version)
    else
      let flags ← Reader.byte (.truncated "flags")
      let _ ← Reader.exactly 2 (.truncated "spc")
      let spc ← Reader.u32 (.truncated "spc")
      let db ← Reader.u32 (.truncated "db")
      let relnode ← Reader.u32 (.truncated "relnode")
      let forkRaw ← Reader.byte (.truncated "fork")
      match ForkNumber.fromRaw forkRaw with
      | none => throw (.truncated "fork")
      | some fork =>
        let _ ← Reader.exactly 3 (.truncated "blkno")
        let blkno ← Reader.u32 (.truncated "blkno")
        readBody ⟨spc, db, relnode, fork⟩ blkno flags

def decode (buf : List UInt8) : Except ProtoError RedoRequest := Prod.fst <$> read buf

/-- The base image is a page, and the count and the lengths fit their fields. -/
structure Fits (r : RedoRequest) : Prop where
  base : ∀ img ∈ r.baseImage, img.length = PAGE_SIZE
  count : r.records.length < 2 ^ 32
  lengths : ∀ record ∈ r.records, record.2.length < 2 ^ 32

/-- The request also fits what PostgreSQL allocates for it. -/
structure WithinLimits (r : RedoRequest) : Prop where
  base : ∀ img ∈ r.baseImage, img.length = PAGE_SIZE
  count : r.records.length < 2 ^ 26
  lengths : ∀ record ∈ r.records, record.2.length < 2 ^ 29

theorem length_header (r : RedoRequest) : r.header.length = 28 := by simp [header]

end RedoRequest

theorem RedoRequest.takes_readRecord {r : Lsn × List UInt8} (h : r.2.length < 2 ^ 32) :
    Takes readRecord (encodeRecord r) r := by
  refine (takes_u64 r.1.raw _).bind ((takes_u32_ofNat h _).bind ?_)
  exact (takes_exactly (UInt32.toNat_ofNat_of_lt' h).symm _).bind_pure fun record =>
    ((⟨r.1.raw⟩, record) : Lsn × List UInt8)

theorem RedoRequest.steady_readRecord : Steady readRecord :=
  (steady_u64 _).bind fun _ => (steady_u32 _).bind fun _ => (steady_exactly _ _).bind fun _ =>
    Steady.pure _

namespace RedoRequest

variable {r : RedoRequest}

theorem WithinLimits.fits (h : r.WithinLimits) : r.Fits where
  base := h.base
  count := by
    have hlt := h.count
    omega
  lengths := by
    intro record hrecord
    have hlt := h.lengths record hrecord
    omega

theorem flag_eq (b : Bool) :
    ((if b then FLAG_HAS_BASE else 0 : UInt8) &&& FLAG_HAS_BASE ≠ 0) ↔ b = true := by
  cases b <;> decide

theorem takes_readBase (h : r.Fits) :
    Takes (readBase (if r.baseImage.isSome then FLAG_HAS_BASE else 0)) (r.baseImage.getD [])
      r.baseImage := by
  rw [readBase, if_congr (flag_eq r.baseImage.isSome) rfl rfl]
  cases hbase : r.baseImage with
  | none => exact Takes.pure none
  | some img => exact (takes_exactly (h.base img hbase) _).map some

theorem takes_readBody (h : r.Fits) :
    Takes (readBody r.rel r.blkno (if r.baseImage.isSome then FLAG_HAS_BASE else 0))
      (r.baseImage.getD [] ++ (toBeBytes 4 r.records.length ++ r.records.flatMap encodeRecord)) r := by
  have htimes := Takes.times fun record hrecord => takes_readRecord (h.lengths record hrecord)
  rw [← UInt32.toNat_ofNat_of_lt' h.count] at htimes
  refine (takes_readBase h).bind ((takes_u32_ofNat h.count _).bind ?_)
  exact htimes.bind_pure fun records => ({ r with records := records } : RedoRequest)

/-- **A request is read back**, whatever follows it. -/
theorem takes_read (h : r.Fits) : Takes read r.encode r := by
  unfold encode header
  simp only [List.append_assoc]
  refine (takes_u32 REQ_MAGIC _).bind ?_
  refine (takes_byte VERSION _).bind ?_
  refine (takes_byte _ _).bind ?_
  refine (takes_exactly (show ([0, 0] : List UInt8).length = 2 from rfl) _).bind ?_
  refine (takes_u32 _ _).bind ((takes_u32 _ _).bind ((takes_u32 _ _).bind ?_))
  refine (takes_byte _ _).bind ?_
  rw [ForkNumber.fromRaw_toByte]
  refine (takes_exactly (show ([0, 0, 0] : List UInt8).length = 3 from rfl) _).bind ?_
  exact (takes_u32 _ _).bind (takes_readBody h)

theorem steady_readBase (flags : UInt8) : Steady (readBase flags) := by
  unfold readBase
  split
  · exact (steady_exactly _ _).map some
  · exact Steady.pure none

theorem steady_readBody (rel : RelTag) (blkno : UInt32) (flags : UInt8) :
    Steady (readBody rel blkno flags) :=
  (steady_readBase flags).bind fun _ => (steady_u32 _).bind fun _ =>
    (steady_readRecord.times _).bind fun _ => Steady.pure _

theorem steady_read : Steady read := by
  refine (steady_u32 _).bind fun magic => ?_
  split
  · exact Steady.throw _
  · refine (steady_byte _).bind fun version => ?_
    split
    · exact Steady.throw _
    · refine (steady_byte _).bind fun flags => (steady_exactly _ _).bind fun _ => ?_
      refine (steady_u32 _).bind fun _ => (steady_u32 _).bind fun _ => (steady_u32 _).bind fun _ => ?_
      refine (steady_byte _).bind fun forkRaw => ?_
      split
      · exact Steady.throw _
      · exact (steady_exactly _ _).bind fun _ => (steady_u32 _).bind fun _ => steady_readBody _ _ _

theorem decode_encode (h : r.Fits) : decode r.encode = .ok r := by
  have hread := takes_read h []
  rw [List.append_nil] at hread
  rw [decode, hread]
  rfl

theorem read_prefix (h : r.Fits) {front more : List UInt8} (hsplit : r.encode = front ++ more)
    (hmore : more ≠ []) : ∃ e, read front = .error e := by
  have htake := takes_read h
  rw [hsplit] at htake
  exact htake.error_of_prefix steady_read hmore

theorem decode_prefix (h : r.Fits) {front more : List UInt8} (hsplit : r.encode = front ++ more)
    (hmore : more ≠ []) : ∃ e, decode front = .error e := by
  obtain ⟨e, he⟩ := read_prefix h hsplit hmore
  refine ⟨e, ?_⟩
  rw [decode, he]
  rfl

end RedoRequest

/-! ## Responses -/

namespace RedoResponse

def encode : RedoResponse → List UInt8
  | .page bytes => toBeBytes 4 RESP_MAGIC.toNat ++ ([VERSION, STATUS_OK] ++ ([0, 0] ++ bytes))
  | .error msg =>
    toBeBytes 4 RESP_MAGIC.toNat ++ ([VERSION, STATUS_ERR] ++ ([0, 0]
      ++ (toBeBytes 4 (utf8 msg.toList).length ++ utf8 msg.toList)))

def read : Reader UInt8 ProtoError RedoResponse := do
  let magic ← Reader.u32 (.truncated "magic")
  if magic ≠ RESP_MAGIC then throw (.badMagic magic RESP_MAGIC)
  else
    let version ← Reader.byte (.truncated "version")
    if version ≠ VERSION then throw (.badVersion version)
    else
      let status ← Reader.byte (.truncated "status")
      if status = STATUS_OK then
        let _ ← Reader.exactly 2 (.truncated "page")
        let page ← Reader.exactly PAGE_SIZE (.truncated "page")
        return .page page
      else if status = STATUS_ERR then
        let _ ← Reader.exactly 2 (.truncated "error len")
        let len ← Reader.u32 (.truncated "error len")
        let msg ← Reader.exactly len.toNat (.truncated "error msg")
        return .error (String.ofList (fromUtf8Lossy msg))
      else throw (.badStatus status)

def decode (buf : List UInt8) : Except ProtoError RedoResponse := Prod.fst <$> read buf

/-- A page has the page size, and the length of a message fits its field. -/
def WellFormed : RedoResponse → Prop
  | .page bytes => bytes.length = PAGE_SIZE
  | .error msg => (utf8 msg.toList).length < 2 ^ 32

end RedoResponse

/-- What `read_exact` reports when the pipe ends. -/
def unexpectedEof (what : String) : RedoError :=
  .process (what ++ ": failed to fill whole buffer")

/-- A 32-bit number as `{:#010x}` prints it. -/
def hexDword (n : UInt32) : String :=
  "0x" ++ String.ofList (List.leftpad 8 '0' (Nat.toDigits 16 n.toNat))

/-- The reading half of `exchange`: the header as a whole, then the page or the message. -/
def readReply : Reader UInt8 RedoError RedoResponse := do
  let header ← Reader.exactly RESP_HEADER_LEN (unexpectedEof "read response header")
  let magic := UInt32.ofNat (fromBeBytes (field header 0 4))
  if magic ≠ RESP_MAGIC then throw (.process ("bad response magic " ++ hexDword magic))
  else if header.getD 4 0 ≠ VERSION then
    throw (.process ("bad response version " ++ toString (header.getD 4 0).toNat))
  else if header.getD 5 0 = STATUS_OK then
    let page ← Reader.exactly PAGE_SIZE (unexpectedEof "read page")
    return .page page
  else if header.getD 5 0 = STATUS_ERR then
    let len ← Reader.u32 (unexpectedEof "read error len")
    let msg ← Reader.exactly len.toNat (unexpectedEof "read error msg")
    return .error (String.ofList (fromUtf8Lossy msg))
  else throw (.process ("unknown response status " ++ toString (header.getD 5 0).toNat))

/-- A response header with the given status. -/
def replyHeader (status : UInt8) : List UInt8 :=
  toBeBytes 4 RESP_MAGIC.toNat ++ [VERSION, status, 0, 0]

theorem takes_readReply_page {page : List UInt8} (h : page.length = PAGE_SIZE) :
    Takes readReply (replyHeader STATUS_OK ++ page) (.page page) := by
  refine (takes_exactly (show (replyHeader STATUS_OK).length = 8 from rfl) _).bind ?_
  exact (takes_exactly h _).bind_pure RedoResponse.page

theorem takes_readReply_error {msg : List UInt8} (h : msg.length < 2 ^ 32) :
    Takes readReply (replyHeader STATUS_ERR ++ (toBeBytes 4 msg.length ++ msg))
      (.error (String.ofList (fromUtf8Lossy msg))) := by
  refine (takes_exactly (show (replyHeader STATUS_ERR).length = 8 from rfl) _).bind ?_
  refine (takes_u32_ofNat h _).bind ?_
  exact (takes_exactly (UInt32.toNat_ofNat_of_lt' h).symm _).bind_pure fun msg =>
    RedoResponse.error (String.ofList (fromUtf8Lossy msg))

/-- Only the child's own verdict is a `redoFailed`. -/
theorem fails_readReply : Fails readReply fun e => ∃ text, e = .process text := by
  refine (fails_exactly _ ⟨_, rfl⟩).bind fun header => ?_
  dsimp only
  split
  · exact Fails.throw ⟨_, rfl⟩
  · split
    · exact Fails.throw ⟨_, rfl⟩
    · split
      · exact (fails_exactly _ ⟨_, rfl⟩).bind fun _ => Fails.pure _
      · split
        · exact (fails_u32 ⟨_, rfl⟩).bind fun _ => (fails_exactly _ ⟨_, rfl⟩).bind fun _ => Fails.pure _
        · exact Fails.throw ⟨_, rfl⟩

theorem steady_readReply : Steady readReply := by
  refine (steady_exactly _ _).bind fun header => ?_
  dsimp only
  split
  · exact Steady.throw _
  · split
    · exact Steady.throw _
    · split
      · exact (steady_exactly _ _).bind fun _ => Steady.pure _
      · split
        · exact (steady_u32 _).bind fun _ => (steady_exactly _ _).bind fun _ => Steady.pure _
        · exact Steady.throw _

namespace RedoResponse

variable {r : RedoResponse}

/-- **A response is read back**, whatever follows it. -/
theorem takes_reply (h : r.WellFormed) : Takes readReply r.encode r := by
  cases r with
  | page bytes => exact takes_readReply_page h
  | error msg =>
    have htake := takes_readReply_error h
    rw [fromUtf8Lossy_utf8, String.ofList_toList] at htake
    exact htake

theorem takes_read (h : r.WellFormed) : Takes read r.encode r := by
  cases r with
  | page bytes =>
    refine (takes_u32 RESP_MAGIC _).bind ((takes_byte VERSION _).bind ((takes_byte STATUS_OK _).bind ?_))
    refine (takes_exactly (show ([0, 0] : List UInt8).length = 2 from rfl) _).bind ?_
    exact (takes_exactly h _).bind_pure RedoResponse.page
  | error msg =>
    have hlossy : String.ofList (fromUtf8Lossy (utf8 msg.toList)) = msg := by
      rw [fromUtf8Lossy_utf8, String.ofList_toList]
    refine (takes_u32 RESP_MAGIC _).bind ((takes_byte VERSION _).bind ((takes_byte STATUS_ERR _).bind ?_))
    refine (takes_exactly (show ([0, 0] : List UInt8).length = 2 from rfl) _).bind ((takes_u32_ofNat h _).bind ?_)
    have htake := (takes_exactly (UInt32.toNat_ofNat_of_lt' h).symm
      (ProtoError.truncated "error msg")).bind_pure fun m =>
        RedoResponse.error (String.ofList (fromUtf8Lossy m))
    rwa [hlossy] at htake

theorem decode_encode (h : r.WellFormed) : decode r.encode = .ok r := by
  have hread := takes_read h []
  rw [List.append_nil] at hread
  rw [decode, hread]
  rfl

end RedoResponse

end AethelDB.Pageserver
