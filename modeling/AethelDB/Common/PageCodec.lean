import AethelDB.Common.PageService
import AethelDB.Common.Text
import AethelDB.Lib.Wire

/-!
# The page service on the wire

The codecs of `common/src/page_service.rs`. A message is a header of eight bytes and a payload; the
type of a request says how long its payload is, and a response carries the length of its payload.
Fields are found by offset. What is written here as a list of parts is what the encoders append one
after the other, so each lookup is a part number and a sum of lengths.
-/

namespace AethelDB

open AethelDB.Lib AethelDB.Text

namespace PageService

def MAGIC : UInt32 := 0x53504731

def VERSION : UInt8 := 1

def TYPE_GET_PAGE : UInt8 := 1

def TYPE_GET_REL_SIZE : UInt8 := 2

def STATUS_OK : UInt8 := 0

def STATUS_NOT_FOUND : UInt8 := 1

def STATUS_ERROR : UInt8 := 2

/-- Tenant, timeline, tablespace, database, relation, block and LSN. -/
def GET_PAGE_PAYLOAD : Nat := 16 + 16 + 4 + 4 + 4 + 4 + 8

/-- The same without the block. -/
def GET_REL_SIZE_PAYLOAD : Nat := 16 + 16 + 4 + 4 + 4 + 8

def HEADER_LEN : Nat := 8

end PageService

open PageService

/-! ## Requests -/

namespace Request

/-- The header and the part of the payload that both types have. -/
def commonParts (typeTag : UInt8) (tenant : TenantId) (timeline : TimelineId) (rel : RelTag) :
    List (List UInt8) :=
  [toBeBytes 4 MAGIC.toNat, [VERSION], [typeTag], [rel.fork.toByte], [0],
    tenant.id.bytes, timeline.id.bytes,
    toBeBytes 4 rel.spcNode.toNat, toBeBytes 4 rel.dbNode.toNat, toBeBytes 4 rel.relNode.toNat]

def parts : Request → List (List UInt8)
  | .getPage tenant timeline rel block lsn =>
    commonParts TYPE_GET_PAGE tenant timeline rel
      ++ [toBeBytes 4 block.toNat, toBeBytes 8 lsn.raw.toNat]
  | .getRelSize tenant timeline rel lsn =>
    commonParts TYPE_GET_REL_SIZE tenant timeline rel ++ [toBeBytes 8 lsn.raw.toNat]

def encode (r : Request) : List UInt8 := r.parts.flatten

/-- The length of a whole message, from its header. -/
def totalLen (header : List UInt8) : Except String Nat :=
  if header.length < HEADER_LEN then .error (parseError "request header too short")
  else if getU32 header 0 ≠ MAGIC then .error (parseError "bad protocol magic")
  else if header.getD 4 0 ≠ VERSION then .error (parseError "unsupported protocol version")
  else if header.getD 5 0 = TYPE_GET_PAGE then .ok (HEADER_LEN + GET_PAGE_PAYLOAD)
  else if header.getD 5 0 = TYPE_GET_REL_SIZE then .ok (HEADER_LEN + GET_REL_SIZE_PAYLOAD)
  else .error (parseError "unknown request type")

/-- The fields of the payload, which is long enough for its type. -/
def decodeBody (typeTag : UInt8) (fork : ForkNumber) (body : List UInt8) : Request :=
  let tenant : TenantId := ⟨HexId.fromBytes (field body 0 16)⟩
  let timeline : TimelineId := ⟨HexId.fromBytes (field body 16 16)⟩
  let rel : RelTag := ⟨getU32 body 32, getU32 body 36, getU32 body 40, fork⟩
  if typeTag = TYPE_GET_PAGE then .getPage tenant timeline rel (getU32 body 44) ⟨getU64 body 48⟩
  else .getRelSize tenant timeline rel ⟨getU64 body 44⟩

def decode (buf : List UInt8) : Except String Request :=
  if buf.length < HEADER_LEN then .error (parseError "request shorter than header")
  else if getU32 buf 0 ≠ MAGIC then .error (parseError "bad protocol magic")
  else if buf.getD 4 0 ≠ VERSION then .error (parseError "unsupported protocol version")
  else
    match ForkNumber.fromRaw (buf.getD 6 0) with
    | none => .error (parseError "invalid fork number")
    | some fork =>
      let typeTag := buf.getD 5 0
      let body := buf.drop HEADER_LEN
      if typeTag = TYPE_GET_PAGE then
        if body.length < GET_PAGE_PAYLOAD then .error (parseError "request payload truncated")
        else .ok (decodeBody typeTag fork body)
      else if typeTag = TYPE_GET_REL_SIZE then
        if body.length < GET_REL_SIZE_PAYLOAD then .error (parseError "request payload truncated")
        else .ok (decodeBody typeTag fork body)
      else .error (parseError "unknown request type")

section Lemmas

variable {tag : UInt8} {tenant : TenantId} {timeline : TimelineId} {rel : RelTag}
  {more : List (List UInt8)} {buf : List UInt8}

/-- The parts both types have, whatever else comes. -/
theorem fields_commonParts (hbuf : (commonParts tag tenant timeline rel ++ more).flatten <+: buf) :
    getU32 buf 0 = MAGIC ∧ buf.getD 4 0 = VERSION ∧ buf.getD 5 0 = tag
      ∧ buf.getD 6 0 = rel.fork.toByte
      ∧ field buf 8 16 = tenant.id.bytes ∧ field buf 24 16 = timeline.id.bytes
      ∧ getU32 buf 40 = rel.spcNode ∧ getU32 buf 44 = rel.dbNode ∧ getU32 buf 48 = rel.relNode := by
  have htenant := tenant.id.size
  have htimeline := timeline.id.size
  refine ⟨getU32_part (i := 0) hbuf rfl rfl, getD_part (i := 1) hbuf rfl rfl 0,
    getD_part (i := 2) hbuf rfl rfl 0, getD_part (i := 3) hbuf rfl rfl 0,
    field_part (i := 5) hbuf rfl rfl htenant, field_part (i := 6) hbuf rfl ?_ htimeline,
    getU32_part (i := 7) hbuf rfl ?_, getU32_part (i := 8) hbuf rfl ?_, getU32_part (i := 9) hbuf rfl ?_⟩
  all_goals simp [commonParts, htenant, htimeline]

theorem length_commonParts (tag : UInt8) (tenant : TenantId) (timeline : TimelineId) (rel : RelTag)
    (more : List (List UInt8)) :
    (commonParts tag tenant timeline rel ++ more).flatten.length = 52 + more.flatten.length := by
  simp only [commonParts, List.flatten_append, List.length_append, List.length_flatten, List.map_cons,
    List.map_nil, List.sum_cons, List.sum_nil, length_toBeBytes, List.length_cons, List.length_nil,
    tenant.id.size, timeline.id.size]
  omega

theorem take_commonParts (more : List (List UInt8)) (rest : List UInt8) :
    ((commonParts tag tenant timeline rel ++ more).flatten ++ rest).take HEADER_LEN
      = toBeBytes 4 MAGIC.toNat ++ [VERSION, tag, rel.fork.toByte, 0] := rfl

/-- A message that is in order and long enough is decoded by its fields. -/
theorem decode_commonParts (hbuf : buf = (commonParts tag tenant timeline rel ++ more).flatten)
    (h : tag = TYPE_GET_PAGE ∧ more.flatten.length = 12 ∨ tag = TYPE_GET_REL_SIZE ∧ more.flatten.length = 8) :
    decode buf = .ok (decodeBody tag rel.fork (buf.drop 8)) := by
  have hstarts : (commonParts tag tenant timeline rel ++ more).flatten <+: buf := hbuf ▸ List.prefix_rfl
  obtain ⟨hmagic, hversion, htag, hfork, -⟩ := fields_commonParts hstarts
  have hlen : buf.length = 52 + more.flatten.length := by
    rw [hbuf]
    exact length_commonParts tag tenant timeline rel more
  have hheader : ¬buf.length < HEADER_LEN := by
    rw [hlen, HEADER_LEN]
    omega
  rw [decode, if_neg hheader, if_neg (not_not_intro hmagic), if_neg (not_not_intro hversion), hfork,
    ForkNumber.fromRaw_toByte]
  simp only [htag, List.length_drop, hlen]
  rcases h with ⟨rfl, hmore⟩ | ⟨rfl, hmore⟩
  · rw [hmore]
    rfl
  · rw [hmore]
    rfl

end Lemmas

theorem length_encode (r : Request) :
    r.encode.length = match r with
      | .getPage .. => HEADER_LEN + GET_PAGE_PAYLOAD
      | .getRelSize .. => HEADER_LEN + GET_REL_SIZE_PAYLOAD := by
  cases r <;> (rw [encode, parts, length_commonParts]; simp; rfl)

theorem totalLen_encode (r : Request) (rest : List UInt8) :
    totalLen ((r.encode ++ rest).take HEADER_LEN) = .ok r.encode.length := by
  rw [length_encode]
  cases r with
  | getPage tenant timeline rel block lsn =>
    rw [encode, parts, take_commonParts]
    rfl
  | getRelSize tenant timeline rel lsn =>
    rw [encode, parts, take_commonParts]
    rfl

/-- **A request is decoded to itself.** -/
theorem decode_encode (r : Request) : decode r.encode = .ok r := by
  cases r with
  | getPage tenant timeline rel block lsn =>
    generalize hdef : (getPage tenant timeline rel block lsn).encode = buf
    have hbuf : (getPage tenant timeline rel block lsn).parts.flatten <+: buf := hdef ▸ List.prefix_rfl
    have hblock : getU32 buf 52 = block := getU32_part (i := 10) hbuf rfl
      (by simp [parts, commonParts, tenant.id.size, timeline.id.size])
    have hlsn : getU64 buf 56 = lsn.raw := getU64_part (i := 11) hbuf rfl
      (by simp [parts, commonParts, tenant.id.size, timeline.id.size])
    obtain ⟨-, -, -, -, htenant, htimeline, hspc, hdb, hrel⟩ := fields_commonParts hbuf
    rw [decode_commonParts hdef.symm (.inl ⟨rfl, by simp⟩)]
    simp only [decodeBody, if_pos, field_drop, getU32_drop, getU64_drop, htenant, htimeline, hspc, hdb,
      hrel, hblock, hlsn, HexId.fromBytes_bytes]
  | getRelSize tenant timeline rel lsn =>
    generalize hdef : (getRelSize tenant timeline rel lsn).encode = buf
    have hbuf : (getRelSize tenant timeline rel lsn).parts.flatten <+: buf := hdef ▸ List.prefix_rfl
    have hlsn : getU64 buf 52 = lsn.raw := getU64_part (i := 10) hbuf rfl
      (by simp [parts, commonParts, tenant.id.size, timeline.id.size])
    obtain ⟨-, -, -, -, htenant, htimeline, hspc, hdb, hrel⟩ := fields_commonParts hbuf
    have htype : TYPE_GET_REL_SIZE ≠ TYPE_GET_PAGE := by decide
    rw [decode_commonParts hdef.symm (.inr ⟨rfl, by simp⟩)]
    simp only [decodeBody, if_neg htype, field_drop, getU32_drop, getU64_drop, htenant, htimeline, hspc,
      hdb, hrel, hlsn, HexId.fromBytes_bytes]

end Request

/-! ## Responses -/

namespace Response

def status : Response → UInt8
  | .page _ => STATUS_OK
  | .relSize _ => STATUS_OK
  | .notFound => STATUS_NOT_FOUND
  | .error _ => STATUS_ERROR

def payload : Response → List UInt8
  | .page bytes => bytes
  | .relSize n => toBeBytes 4 n.toNat
  | .notFound => []
  | .error msg => utf8 msg.toList

/-- Header, length and payload. -/
def frame (status : UInt8) (payload : List UInt8) : List (List UInt8) :=
  [toBeBytes 4 MAGIC.toNat, [VERSION], [status], [0], [0], toBeBytes 4 payload.length, payload]

def encode (r : Response) : List UInt8 := (frame r.status r.payload).flatten

/-- Decode a response from a complete message buffer. -/
def decode (buf : List UInt8) : Except String Response :=
  if buf.length < HEADER_LEN + 4 then .error (parseError "response shorter than header")
  else if getU32 buf 0 ≠ MAGIC then .error (parseError "bad protocol magic")
  else if buf.getD 4 0 ≠ VERSION then .error (parseError "unsupported protocol version")
  else
    let len := (getU32 buf 8).toNat
    if buf.length < HEADER_LEN + 4 + len then .error (parseError "response payload truncated")
    else
      let payload := field buf (HEADER_LEN + 4) len
      if buf.getD 5 0 = STATUS_OK then
        if len = PAGE_SIZE then .ok (.page payload)
        else if len = 4 then .ok (.relSize (getU32 payload 0))
        else .error (parseError "OK response with unexpected payload length")
      else if buf.getD 5 0 = STATUS_NOT_FOUND then .ok .notFound
      else if buf.getD 5 0 = STATUS_ERROR then .ok (.error (String.ofList (fromUtf8Lossy payload)))
      else .error (parseError "unknown response status")

/-- A page has the page size, and an error text is below half a gigabyte. -/
def WellFormed : Response → Prop
  | .page bytes => bytes.length = PAGE_SIZE
  | .error msg => (utf8 msg.toList).length < 2 ^ 29
  | _ => True

theorem WellFormed.payload_lt {r : Response} (h : r.WellFormed) : r.payload.length < 2 ^ 29 := by
  cases r with
  | page bytes =>
    have hsize : bytes.length = 8192 := h
    simp [payload, hsize]
  | relSize n => simp [payload]
  | notFound => simp [payload]
  | error msg => exact h

theorem fields_frame {status : UInt8} {payload buf : List UInt8} (hlen : payload.length < 2 ^ 32)
    (hbuf : (frame status payload).flatten <+: buf) :
    getU32 buf 0 = MAGIC ∧ buf.getD 4 0 = VERSION ∧ buf.getD 5 0 = status
      ∧ (getU32 buf 8).toNat = payload.length ∧ field buf 12 payload.length = payload :=
  ⟨getU32_part (i := 0) hbuf rfl rfl, getD_part (i := 1) hbuf rfl rfl 0,
    getD_part (i := 2) hbuf rfl rfl 0, toNat_getU32_part (i := 5) hlen hbuf rfl rfl,
    field_part (i := 6) hbuf rfl rfl rfl⟩

theorem length_frame (status : UInt8) (payload : List UInt8) :
    (frame status payload).flatten.length = 12 + payload.length := by
  simp only [frame, List.length_flatten, List.map_cons, List.map_nil, List.sum_cons, List.sum_nil,
    length_toBeBytes, List.length_cons, List.length_nil]
  omega

/-- **A response is decoded to itself.** -/
theorem response_round_trip {r : Response} (h : r.WellFormed) : decode r.encode = .ok r := by
  have hlt := h.payload_lt
  have hbuf : (frame r.status r.payload).flatten <+: r.encode := List.prefix_rfl
  obtain ⟨hmagic, hversion, hstatus, hlen, hpayload⟩ := fields_frame (by omega) hbuf
  have htotal : r.encode.length = 12 + r.payload.length := length_frame r.status r.payload
  have hheader : ¬r.encode.length < HEADER_LEN + 4 := by
    rw [htotal, HEADER_LEN]
    omega
  have hwhole : ¬r.encode.length < HEADER_LEN + 4 + r.payload.length := by
    rw [htotal, HEADER_LEN]
    omega
  change field r.encode (HEADER_LEN + 4) r.payload.length = r.payload at hpayload
  rw [decode, if_neg hheader, if_neg (not_not_intro hmagic), if_neg (not_not_intro hversion)]
  simp only [hlen, hstatus, hpayload]
  rw [if_neg hwhole]
  cases r with
  | page bytes =>
    have hsize : bytes.length = PAGE_SIZE := h
    simp only [status, payload, hsize, if_pos]
  | relSize n =>
    have hself := ofNat_fromBeBytes_u32 n
    simp only [status, payload, length_toBeBytes, if_pos]
    rw [if_neg (by decide), getU32, field, List.drop_zero, List.take_of_length_le (by simp), hself]
  | notFound => rfl
  | error msg =>
    simp only [status, payload, fromUtf8Lossy_utf8, String.ofList_toList]
    rfl

theorem response_round_trip_sample : decode (encode (.relSize 7)) = .ok (.relSize 7) :=
  response_round_trip trivial

end Response

end AethelDB
