import AethelDB.Compute.Basic
import AethelDB.Pageserver.WalredoMock

/-!
# The wal-redo process in PostgreSQL

The reader and the writers of `compute/patches/0002-wal-redo-mode.patch`. `read_request` fills a
`WalRedoRequest` from standard input; `write_page_response` and `write_error_response` answer.

Only the first `read_full` looks at whether the input has ended. Where it ends later, the buffer
keeps what was in its memory before (`junk`) and the reader goes on with that; on input that holds
the whole request none of it is ever looked at. `palloc` ends the process for sizes beyond
`MaxAllocSize`, which is where the bounds on requests come from.

`redo_readers_agree` puts the three readers of requests and the two writers of responses side by
side.
-/

namespace AethelDB.Compute

open AethelDB.Lib AethelDB.Pageserver AethelDB.Text

namespace WalRedo

def WR_REQ_MAGIC : UInt32 := 0x57524431

def WR_RESP_MAGIC : UInt32 := 0x57525231

def WR_VERSION : UInt8 := 1

def WR_FLAG_HAS_BASE : UInt8 := 1

def WR_STATUS_OK : UInt8 := 0

def WR_STATUS_ERR : UInt8 := 1

inductive Fatal where
  | badMagic
  | badVersion (version : UInt8)
  | invalidAlloc (size : Nat)
deriving DecidableEq

/-- One decoded request; `rlocator` is spread out into its three numbers. -/
structure WalRedoRequest where
  spcOid : UInt32
  dbOid : UInt32
  relNumber : UInt32
  forknum : UInt8
  blkno : UInt32
  hasBase : Bool
  base : List UInt8
  nRecords : UInt32
  lsns : List UInt64
  records : List (List UInt8)
  recordLens : List UInt32
deriving DecidableEq

/-! ## Reading -/

section Read

variable (junk : Nat → UInt8)

def palloc (size : Nat) : Reader UInt8 Fatal (List UInt8) :=
  if size ≤ MaxAllocSize then pure (uninit junk size) else throw (.invalidAlloc size)

/-- Fill a buffer; `false`, and only its beginning filled, when the input ends before. -/
def readFull (buf : List UInt8) : Reader UInt8 Fatal (Bool × List UInt8) := fun input =>
  if buf.length ≤ input.length then .ok ((true, input.take buf.length), input.drop buf.length)
  else .ok ((false, input ++ buf.drop input.length), [])

/-- The base page: from the input, or zeros. -/
def readBase (hasBase : Bool) : Reader UInt8 Fatal (List UInt8) :=
  if hasBase then Prod.snd <$> readFull (uninit junk BLCKSZ) else pure (List.replicate BLCKSZ 0)

/-- The body of the loop over the records. -/
def readRecord : Reader UInt8 Fatal (UInt64 × UInt32 × List UInt8) := do
  let rh ← Prod.snd <$> readFull (uninit junk 12)
  let buf ← palloc junk (getBe32 (rh.drop 8)).toNat
  let record ← Prod.snd <$> readFull buf
  return (getBe64 rh, getBe32 (rh.drop 8), record)

/-- What follows a header that is in order. -/
def readBody (hdr : List UInt8) : Reader UInt8 Fatal (Option WalRedoRequest) := do
  let hasBase := hdr.getD 5 0 &&& WR_FLAG_HAS_BASE ≠ 0
  let base ← readBase junk hasBase
  let nbuf ← Prod.snd <$> readFull (uninit junk 4)
  let n := getBe32 nbuf
  let _lsns ← palloc junk (8 * max n.toNat 1)
  let _records ← palloc junk (8 * max n.toNat 1)
  let _recordLens ← palloc junk (4 * max n.toNat 1)
  let rows ← (readRecord junk).times n.toNat
  return some
    { spcOid := getBe32 (hdr.drop 8)
      dbOid := getBe32 (hdr.drop 12)
      relNumber := getBe32 (hdr.drop 16)
      forknum := hdr.getD 20 0
      blkno := getBe32 (hdr.drop 24)
      hasBase := hasBase
      base := base
      nRecords := n
      lsns := rows.map fun row => row.1
      records := rows.map fun row => row.2.2
      recordLens := rows.map fun row => row.2.1 }

/-- Read one request; `none` (`false` in the source) at the end of the input. -/
def readRequest : Reader UInt8 Fatal (Option WalRedoRequest) := do
  let hdr ← readFull (uninit junk 28)
  if hdr.1 = false then return none
  else if getBe32 hdr.2 ≠ WR_REQ_MAGIC then throw .badMagic
  else if hdr.2.getD 4 0 ≠ WR_VERSION then throw (.badVersion (hdr.2.getD 4 0))
  else readBody junk hdr.2

end Read

/-! ## Writing -/

def writePageResponse (page : List UInt8) : List UInt8 :=
  putBe32 WR_RESP_MAGIC ++ [WR_VERSION, WR_STATUS_OK, 0, 0] ++ page.take BLCKSZ

/-- The text is given without the zero byte at its end, so `strlen` is its length. -/
def writeErrorResponse (msg : List UInt8) : List UInt8 :=
  putBe32 WR_RESP_MAGIC ++ [WR_VERSION, WR_STATUS_ERR, 0, 0]
    ++ putBe32 (UInt32.ofNat msg.length) ++ msg

/-! ## Where a request ends -/

/-- The request as the C side holds it. -/
def WalRedoRequest.of (r : RedoRequest) : WalRedoRequest where
  spcOid := r.rel.spcNode
  dbOid := r.rel.dbNode
  relNumber := r.rel.relNode
  forknum := r.rel.fork.toByte
  blkno := r.blkno
  hasBase := r.baseImage.isSome
  base := r.baseImage.getD (List.replicate PAGE_SIZE 0)
  nRecords := UInt32.ofNat r.records.length
  lsns := r.records.map fun record => record.1.raw
  records := r.records.map fun record => record.2
  recordLens := r.records.map fun record => UInt32.ofNat record.2.length

section Takes

variable {junk : Nat → UInt8} {r : RedoRequest}

theorem takes_readFull {buf xs : List UInt8} (h : xs.length = buf.length) :
    Takes (readFull buf) xs (true, xs) := by
  intro rest
  have hle : buf.length ≤ (xs ++ rest).length := by
    rw [List.length_append]
    omega
  rw [readFull, if_pos hle, ← h, List.take_left, List.drop_left]

theorem takes_filled {n : Nat} {xs : List UInt8} (h : xs.length = n) :
    Takes (Prod.snd <$> readFull (uninit junk n)) xs xs :=
  (takes_readFull (by rw [h, length_uninit])).map Prod.snd

theorem takes_palloc {size : Nat} (h : size ≤ MaxAllocSize) :
    Takes (palloc junk size) [] (uninit junk size) := by
  rw [palloc, if_pos h]
  exact Takes.pure _

theorem takes_readRecord (junk : Nat → UInt8) {record : Lsn × List UInt8} (h : record.2.length < 2 ^ 29) :
    Takes (readRecord junk) (encodeRecord record)
      (record.1.raw, UInt32.ofNat record.2.length, record.2) := by
  have hlen : (UInt32.ofNat record.2.length).toNat = record.2.length :=
    UInt32.toNat_ofNat_of_lt' (show record.2.length < 2 ^ 32 by omega)
  obtain ⟨rh, hrh⟩ : ∃ rh, rh = toBeBytes 8 record.1.raw.toNat ++ toBeBytes 4 record.2.length := ⟨_, rfl⟩
  have hlsn : getBe64 rh = record.1.raw := by rw [hrh, getBe64_toBeBytes]
  have hcount : getBe32 (rh.drop 8) = UInt32.ofNat record.2.length := by
    have hdrop : rh.drop 8 = toBeBytes 4 record.2.length := by
      rw [hrh]
      exact List.drop_left' (length_toBeBytes ..)
    have hget := getBe32_toBeBytes (UInt32.ofNat record.2.length) []
    rwa [hlen, List.append_nil, ← hdrop] at hget
  have halloc : Takes (palloc junk (getBe32 (rh.drop 8)).toNat) [] (uninit junk record.2.length) := by
    rw [hcount, hlen]
    exact takes_palloc (show record.2.length ≤ 0x3fffffff by omega)
  have hencode : encodeRecord record = rh ++ ([] ++ record.2) := by
    rw [hrh, List.nil_append, List.append_assoc]
    rfl
  rw [hencode]
  refine (takes_filled (by simp [hrh])).bind (halloc.bind ?_)
  rw [hlsn, hcount]
  exact (takes_filled rfl).bind_pure fun bytes => (record.1.raw, UInt32.ofNat record.2.length, bytes)

theorem header_fields (r : RedoRequest) :
    getBe32 r.header = WR_REQ_MAGIC ∧ r.header.getD 4 0 = WR_VERSION
      ∧ getBe32 (r.header.drop 8) = r.rel.spcNode ∧ getBe32 (r.header.drop 12) = r.rel.dbNode
      ∧ getBe32 (r.header.drop 16) = r.rel.relNode ∧ r.header.getD 20 0 = r.rel.fork.toByte
      ∧ getBe32 (r.header.drop 24) = r.blkno :=
  ⟨getBe32_toBeBytes WalredoProto.REQ_MAGIC _, rfl, getBe32_toBeBytes r.rel.spcNode _,
    getBe32_toBeBytes r.rel.dbNode _, getBe32_toBeBytes r.rel.relNode _, rfl,
    getBe32_toBeBytes r.blkno []⟩

theorem hasBase_header (r : RedoRequest) :
    decide (r.header.getD 5 0 &&& WR_FLAG_HAS_BASE ≠ 0) = r.baseImage.isSome := by
  rw [WalredoMock.flags_header]
  exact Bool.eq_iff_iff.mpr (decide_eq_true_iff.trans (RedoRequest.flag_eq r.baseImage.isSome))

theorem takes_readBase (h : r.WithinLimits) :
    Takes (readBase junk r.baseImage.isSome) (r.baseImage.getD [])
      (r.baseImage.getD (List.replicate PAGE_SIZE 0)) := by
  cases hbase : r.baseImage with
  | none => exact Takes.pure _
  | some img => exact takes_filled (h.base img hbase)

/-- The arrays for fewer than `2 ^ 26` records fit an allocation. -/
theorem takes_arrays (junk : Nat → UInt8) {n width : Nat} (h : n < 2 ^ 26) (hwidth : width ≤ 8) :
    Takes (palloc junk (width * max n 1)) [] (uninit junk (width * max n 1)) := by
  apply takes_palloc
  calc width * max n 1 ≤ 8 * max n 1 := Nat.mul_le_mul_right _ hwidth
    _ ≤ 0x3fffffff := by omega

theorem takes_readBody (h : r.WithinLimits) :
    Takes (readBody junk r.header)
      (r.baseImage.getD [] ++ (toBeBytes 4 r.records.length ++ r.records.flatMap encodeRecord))
      (some (.of r)) := by
  have hcount := h.count
  obtain ⟨n, hn⟩ : ∃ n, n = UInt32.ofNat r.records.length := ⟨_, rfl⟩
  have hlen : n.toNat = r.records.length := by
    rw [hn]
    exact UInt32.toNat_ofNat_of_lt' (show r.records.length < 2 ^ 32 by omega)
  have hget : getBe32 (toBeBytes 4 r.records.length) = n := by
    have hself := getBe32_toBeBytes n []
    rwa [hlen, List.append_nil] at hself
  have hrows := Takes.times_map fun record hrecord =>
    takes_readRecord junk (h.lengths record hrecord)
  obtain ⟨-, -, hspc, hdb, hrel, hfork, hblkno⟩ := header_fields r
  unfold readBody
  simp only [hasBase_header, hspc, hdb, hrel, hfork, hblkno]
  refine (takes_readBase h).bind ?_
  refine (takes_filled (length_toBeBytes ..)).bind ?_
  rw [hget, hlen]
  have hlsns := takes_arrays junk hcount (le_refl 8)
  have hlens := takes_arrays junk hcount (show 4 ≤ 8 by omega)
  intro rest
  refine (Reader.bind_of_ok _ (hlsns _)).trans ?_
  refine (Reader.bind_of_ok _ (hlsns _)).trans ?_
  refine (Reader.bind_of_ok _ (hlens _)).trans ?_
  refine (Reader.bind_of_ok _ (hrows rest)).trans ?_
  simp only [List.map_map, Function.comp_def, hn]
  rfl

/-- **A request is taken off the input as it was put there.** -/
theorem takes_readRequest (junk : Nat → UInt8) (h : r.WithinLimits) :
    Takes (readRequest junk) r.encode (some (.of r)) := by
  obtain ⟨hmagic, hversion, -⟩ := header_fields r
  refine (takes_readFull (by rw [r.length_header, length_uninit])).bind ?_
  rw [if_neg (by simp), if_neg (not_not_intro hmagic), if_neg (not_not_intro hversion)]
  exact takes_readBody h

end Takes

/-! ## Responses -/

theorem replyHeader_eq (status : UInt8) :
    putBe32 WR_RESP_MAGIC ++ [WR_VERSION, status, 0, 0] = replyHeader status := by
  rw [putBe32_eq]
  rfl

theorem takes_writePageResponse {page : List UInt8} (h : page.length = BLCKSZ) :
    Takes readReply (writePageResponse page) (.page page) := by
  rw [writePageResponse, replyHeader_eq, ← h, List.take_length]
  exact takes_readReply_page h

theorem takes_writeErrorResponse {msg : List UInt8} (h : msg.length < 2 ^ 32) :
    Takes readReply (writeErrorResponse msg) (.error (String.ofList (fromUtf8Lossy msg))) := by
  rw [writeErrorResponse, replyHeader_eq, putBe32_eq, UInt32.toNat_ofNat_of_lt' h, List.append_assoc]
  exact takes_readReply_error h

/-! ## Agreement -/

/-- **One protocol.** Over any stream of requests `RedoRequest::decode` (given one message), the
reader of the reference process and the reader in C find the same requests and leave the input at
the same places; `decode` refuses a request that is cut short. Every response of either writer is
read back by the page server, which leaves what follows it alone. The reference process writes no
response but such ones. -/
theorem redo_readers_agree (junk : Nat → UInt8) (reqs : List RedoRequest)
    (hreqs : ∀ r ∈ reqs, r.WithinLimits) :
    (∀ r ∈ reqs, RedoRequest.decode r.encode = .ok r
      ∧ ∀ front more, r.encode = front ++ more → more ≠ [] → ∃ e, RedoRequest.decode front = .error e)
    ∧ (∀ done r later, reqs = done ++ r :: later →
      WalredoMock.readRequest ((r :: later).flatMap RedoRequest.encode)
          = .ok (some r, later.flatMap RedoRequest.encode)
        ∧ readRequest junk ((r :: later).flatMap RedoRequest.encode)
          = .ok (some (WalRedoRequest.of r), later.flatMap RedoRequest.encode))
    ∧ WalredoMock.readRequest.times (reqs.length + 1) (reqs.flatMap RedoRequest.encode)
      = .ok (reqs.map some ++ [none], [])
    ∧ (readRequest junk).times (reqs.length + 1) (reqs.flatMap RedoRequest.encode)
      = .ok ((reqs.map fun r => some (WalRedoRequest.of r)) ++ [none], [])
    ∧ (∀ resp : RedoResponse, resp.WellFormed →
      RedoResponse.decode resp.encode = .ok resp ∧ Takes readReply resp.encode resp)
    ∧ (∀ fail, ∀ r ∈ reqs, (WalredoMock.answer fail r).WellFormed)
    ∧ (∀ page : List UInt8, page.length = BLCKSZ → Takes readReply (writePageResponse page) (.page page))
    ∧ ∀ msg : List UInt8, msg.length < 2 ^ 32 →
      Takes readReply (writeErrorResponse msg) (.error (String.ofList (fromUtf8Lossy msg))) := by
  refine ⟨fun r hr => ?_, fun done r later hsplit => ?_, ?_, ?_, fun resp hresp => ?_, fun fail r hr => ?_,
    fun page => takes_writePageResponse, fun msg => takes_writeErrorResponse⟩
  · exact ⟨RedoRequest.decode_encode (hreqs r hr).fits, fun front more hsplit hmore =>
      RedoRequest.decode_prefix (hreqs r hr).fits hsplit hmore⟩
  · have hr : r.WithinLimits := hreqs r (by simp [hsplit])
    rw [List.flatMap_cons]
    exact ⟨WalredoMock.takes_readRequest hr.fits _, takes_readRequest junk hr _⟩
  · exact Takes.times_end (fun r hr => WalredoMock.takes_readRequest (hreqs r hr).fits) rfl
  · exact Takes.times_end (fun r hr => takes_readRequest junk (hreqs r hr)) rfl
  · exact ⟨RedoResponse.decode_encode hresp, RedoResponse.takes_reply hresp⟩
  · exact WalredoMock.wellFormed_answer fail (hreqs r hr).fits

/-- A request for the second block of a relation, from a zero page. -/
def sampleRequest : RedoRequest :=
  ⟨⟨1663, 5, 16384, .main⟩, 1, none, [(⟨10⟩, [0, 4, 0, 1, 7])]⟩

theorem redo_readers_agree_sample :
    WalredoMock.readRequest.times 2 sampleRequest.encode = .ok ([some sampleRequest, none], []) := by
  have hlimits : ∀ r ∈ [sampleRequest], r.WithinLimits := by
    intro r hr
    rw [List.mem_singleton.mp hr]
    exact ⟨by simp [sampleRequest], by simp [sampleRequest], by simp [sampleRequest]⟩
  have hmock := (redo_readers_agree (fun _ => 0) [sampleRequest] hlimits).2.2.1
  rwa [List.flatMap_cons, List.flatMap_nil, List.append_nil] at hmock

end WalRedo

end AethelDB.Compute
