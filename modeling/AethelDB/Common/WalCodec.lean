import AethelDB.Common.WalService
import AethelDB.Lib.Wire

/-!
# The WAL service on the wire

The codecs of `common/src/wal_service.rs`. Every message starts with the same eight bytes, which say
what type it is; the rest has a fixed layout, in which fields are found by offset, and only an
append, a replicate and a read response are followed by a payload whose length stands in the layout.

The status of a response is a byte here, whatever its value. The safekeeper's own responses have one
of the three that are named (`AppendResponse.wire`, `ReadResponse.wire`).
-/

namespace AethelDB

open AethelDB.Lib

namespace WalService

def MAGIC : UInt32 := 0x53574C31

def VERSION : UInt8 := 1

def TYPE_APPEND : UInt8 := 1

def TYPE_READ : UInt8 := 2

def TYPE_REPLICATE : UInt8 := 3

def TYPE_VOTE : UInt8 := 4

def PREFIX_LEN : Nat := 8

def REQUEST_HEADER_LEN : Nat := 60

def RESPONSE_LEN : Nat := 32

def READ_REQUEST_LEN : Nat := 52

def READ_RESPONSE_HEADER_LEN : Nat := 28

def VOTE_REQUEST_LEN : Nat := 56

def VOTE_RESPONSE_LEN : Nat := 24

/-- The common beginning; `tag` is the type of a request and the status of a response. -/
def prefixParts (tag : UInt8) : List (List UInt8) :=
  [toBeBytes 4 MAGIC.toNat, [VERSION], [tag], [0], [0]]

/-- Check the common prefix and return the message type. -/
def messageType (start : List UInt8) : Except String UInt8 :=
  if start.length < PREFIX_LEN then .error (parseError "WAL message prefix too short")
  else if getU32 start 0 ≠ MAGIC then .error (parseError "bad WAL protocol magic")
  else if start.getD 4 0 ≠ VERSION then .error (parseError "unsupported WAL protocol version")
  else .ok (start.getD 5 0)

section Prefix

variable {tag : UInt8} {more : List (List UInt8)} {buf : List UInt8}

theorem fields_prefixParts (hbuf : (prefixParts tag ++ more).flatten <+: buf) :
    getU32 buf 0 = MAGIC ∧ buf.getD 4 0 = VERSION ∧ buf.getD 5 0 = tag :=
  ⟨getU32_part (i := 0) hbuf rfl rfl, getD_part (i := 1) hbuf rfl rfl 0,
    getD_part (i := 2) hbuf rfl rfl 0⟩

theorem length_prefixParts (tag : UInt8) (more : List (List UInt8)) :
    (prefixParts tag ++ more).flatten.length = 8 + more.flatten.length := by
  rw [List.flatten_append, List.length_append]
  rfl

theorem messageType_prefixParts (hbuf : (prefixParts tag ++ more).flatten <+: buf) :
    messageType buf = .ok tag := by
  obtain ⟨hmagic, hversion, htag⟩ := fields_prefixParts hbuf
  have hlen : ¬buf.length < PREFIX_LEN := by
    have hle := hbuf.length_le
    rw [length_prefixParts] at hle
    rw [PREFIX_LEN]
    omega
  rw [messageType, if_neg hlen, if_neg (not_not_intro hmagic), if_neg (not_not_intro hversion), htag]

end Prefix

/-- Tenant and timeline, which all requests have after the prefix. -/
def idParts (tenant : TenantId) (timeline : TimelineId) : List (List UInt8) :=
  [tenant.id.bytes, timeline.id.bytes]

/-- The two identifiers at their offsets. -/
def tenantAt (buf : List UInt8) : TenantId := ⟨HexId.fromBytes (field buf 8 16)⟩

def timelineAt (buf : List UInt8) : TimelineId := ⟨HexId.fromBytes (field buf 24 16)⟩

section Ids

variable {tag : UInt8} {tenant : TenantId} {timeline : TimelineId} {more : List (List UInt8)}
  {buf : List UInt8}

theorem fields_idParts (hbuf : (prefixParts tag ++ (idParts tenant timeline ++ more)).flatten <+: buf) :
    tenantAt buf = tenant ∧ timelineAt buf = timeline := by
  have htenant : field buf 8 16 = tenant.id.bytes := field_part (i := 5) hbuf rfl rfl tenant.id.size
  have htimeline : field buf 24 16 = timeline.id.bytes :=
    field_part (i := 6) hbuf rfl (by simp [prefixParts, idParts, tenant.id.size]) timeline.id.size
  rw [tenantAt, timelineAt, htenant, htimeline, HexId.fromBytes_bytes, HexId.fromBytes_bytes]
  exact ⟨rfl, rfl⟩

/-- The offset of what follows the identifiers: 40 and the lengths in between. -/
theorem sum_idParts (k : Nat) :
    (((prefixParts tag ++ (idParts tenant timeline ++ more)).take (7 + k)).map List.length).sum
      = 40 + ((more.take k).map List.length).sum := by
  have htake : (prefixParts tag ++ (idParts tenant timeline ++ more)).take (7 + k)
      = prefixParts tag ++ (idParts tenant timeline ++ more.take k) := by
    rw [Nat.add_comm]
    rfl
  rw [htake]
  simp only [prefixParts, idParts, List.map_append, List.sum_append, List.map_cons, List.map_nil,
    List.sum_cons, List.sum_nil, length_toBeBytes, List.length_cons, List.length_nil, tenant.id.size,
    timeline.id.size]
  omega

end Ids

end WalService

open WalService

/-! ## Appends -/

namespace AppendRequest

def headerParts (r : AppendRequest) (msgType : UInt8) : List (List UInt8) :=
  prefixParts msgType ++ (idParts r.tenant r.timeline
    ++ [toBeBytes 8 r.term.toNat, toBeBytes 8 r.startLsn.raw.toNat, toBeBytes 4 r.payload.length])

def encodeAs (r : AppendRequest) (msgType : UInt8) : List UInt8 :=
  (r.headerParts msgType).flatten ++ r.payload

def encode (r : AppendRequest) : List UInt8 := r.encodeAs TYPE_APPEND

def encodeReplicate (r : AppendRequest) : List UInt8 := r.encodeAs TYPE_REPLICATE

def payloadLen (header : List UInt8) : Except String Nat :=
  if header.length < REQUEST_HEADER_LEN then .error (parseError "append header too short")
  else if getU32 header 0 ≠ MAGIC then .error (parseError "bad WAL protocol magic")
  else if header.getD 4 0 ≠ VERSION then .error (parseError "unsupported WAL protocol version")
  else if header.getD 5 0 ≠ TYPE_APPEND ∧ header.getD 5 0 ≠ TYPE_REPLICATE then
    .error (parseError "unexpected WAL message type")
  else .ok (getU32 header 56).toNat

def decode (buf : List UInt8) : Except String AppendRequest := do
  let plen ← payloadLen buf
  if buf.length < REQUEST_HEADER_LEN + plen then .error (parseError "append payload truncated")
  else .ok ⟨tenantAt buf, timelineAt buf, getU64 buf 40, ⟨getU64 buf 48⟩, field buf REQUEST_HEADER_LEN plen⟩

variable {r : AppendRequest} {msgType : UInt8}

theorem length_headerParts (r : AppendRequest) (msgType : UInt8) :
    (r.headerParts msgType).flatten.length = REQUEST_HEADER_LEN := by
  rw [headerParts, length_prefixParts]
  simp [idParts, r.tenant.id.size, r.timeline.id.size, REQUEST_HEADER_LEN]

theorem payloadLen_headerParts (htype : msgType = TYPE_APPEND ∨ msgType = TYPE_REPLICATE)
    (hlen : r.payload.length < 2 ^ 32) {buf : List UInt8} (hbuf : (r.headerParts msgType).flatten <+: buf) :
    payloadLen buf = .ok r.payload.length := by
  obtain ⟨hmagic, hversion, htag⟩ := fields_prefixParts hbuf
  have hheader : ¬buf.length < REQUEST_HEADER_LEN := by
    have hle := hbuf.length_le
    rw [length_headerParts] at hle
    omega
  have hget : (getU32 buf 56).toNat = r.payload.length :=
    toNat_getU32_part (i := 9) hlen hbuf rfl (sum_idParts 2)
  have hknown : ¬(msgType ≠ TYPE_APPEND ∧ msgType ≠ TYPE_REPLICATE) := by
    rintro ⟨ha, hr⟩
    exact htype.elim ha hr
  rw [payloadLen, if_neg hheader, if_neg (not_not_intro hmagic), if_neg (not_not_intro hversion), htag,
    if_neg hknown, hget]

/-- **A request is decoded to itself**, under either type. -/
theorem decode_encodeAs (htype : msgType = TYPE_APPEND ∨ msgType = TYPE_REPLICATE)
    (hlen : r.payload.length < 2 ^ 32) : decode (r.encodeAs msgType) = .ok r := by
  have hbuf : (r.headerParts msgType).flatten <+: r.encodeAs msgType := List.prefix_append _ _
  have hterm : getU64 (r.encodeAs msgType) 40 = r.term := getU64_part (i := 7) hbuf rfl (sum_idParts 0)
  have hstart : getU64 (r.encodeAs msgType) 48 = r.startLsn.raw :=
    getU64_part (i := 8) hbuf rfl (sum_idParts 1)
  obtain ⟨htenant, htimeline⟩ := fields_idParts hbuf
  have hpayload : field (r.encodeAs msgType) REQUEST_HEADER_LEN r.payload.length = r.payload :=
    field_append_right (r.length_headerParts msgType) rfl
  have hwhole : ¬(r.encodeAs msgType).length < REQUEST_HEADER_LEN + r.payload.length := by
    rw [encodeAs, List.length_append, length_headerParts]
    omega
  have hplen : payloadLen (r.encodeAs msgType) = .ok r.payload.length :=
    payloadLen_headerParts htype hlen hbuf
  unfold decode
  rw [hplen]
  dsimp only [Bind.bind, Except.bind]
  rw [if_neg hwhole, htenant, htimeline, hpayload, hterm, hstart]

end AppendRequest

/-! ## Reads -/

namespace ReadRequest

def parts (r : ReadRequest) : List (List UInt8) :=
  prefixParts TYPE_READ ++ (idParts r.tenant r.timeline
    ++ [toBeBytes 8 r.startLsn.raw.toNat, toBeBytes 4 r.maxBytes.toNat])

def encode (r : ReadRequest) : List UInt8 := r.parts.flatten

def decode (buf : List UInt8) : Except String ReadRequest := do
  if buf.length < READ_REQUEST_LEN then .error (parseError "read request too short")
  else
    let msgType ← messageType buf
    if msgType ≠ TYPE_READ then .error (parseError "unexpected WAL message type")
    else .ok ⟨tenantAt buf, timelineAt buf, ⟨getU64 buf 40⟩, getU32 buf 48⟩

theorem length_encode (r : ReadRequest) : r.encode.length = READ_REQUEST_LEN := by
  rw [encode, parts, length_prefixParts]
  simp [idParts, r.tenant.id.size, r.timeline.id.size, READ_REQUEST_LEN]

theorem decode_encode (r : ReadRequest) : decode r.encode = .ok r := by
  have hbuf : r.parts.flatten <+: r.encode := List.prefix_rfl
  have hstart : getU64 r.encode 40 = r.startLsn.raw := getU64_part (i := 7) hbuf rfl (sum_idParts 0)
  have hmax : getU32 r.encode 48 = r.maxBytes := getU32_part (i := 8) hbuf rfl (sum_idParts 1)
  obtain ⟨htenant, htimeline⟩ := fields_idParts hbuf
  have htype : messageType r.encode = .ok TYPE_READ := messageType_prefixParts hbuf
  rw [decode, if_neg (by rw [r.length_encode]; omega), htype]
  dsimp only [Bind.bind, Except.bind]
  rw [if_neg (not_not_intro rfl), htenant, htimeline, hstart, hmax]

end ReadRequest

/-! ## Votes -/

structure VoteRequest where
  tenant : TenantId
  timeline : TimelineId
  term : UInt64
  candidate : UInt64

namespace VoteRequest

def parts (r : VoteRequest) : List (List UInt8) :=
  prefixParts TYPE_VOTE ++ (idParts r.tenant r.timeline
    ++ [toBeBytes 8 r.term.toNat, toBeBytes 8 r.candidate.toNat])

def encode (r : VoteRequest) : List UInt8 := r.parts.flatten

def decode (buf : List UInt8) : Except String VoteRequest := do
  if buf.length < VOTE_REQUEST_LEN then .error (parseError "vote request too short")
  else
    let msgType ← messageType buf
    if msgType ≠ TYPE_VOTE then .error (parseError "unexpected WAL message type")
    else .ok ⟨tenantAt buf, timelineAt buf, getU64 buf 40, getU64 buf 48⟩

theorem length_encode (r : VoteRequest) : r.encode.length = VOTE_REQUEST_LEN := by
  rw [encode, parts, length_prefixParts]
  simp [idParts, r.tenant.id.size, r.timeline.id.size, VOTE_REQUEST_LEN]

theorem decode_encode (r : VoteRequest) : decode r.encode = .ok r := by
  have hbuf : r.parts.flatten <+: r.encode := List.prefix_rfl
  have hterm : getU64 r.encode 40 = r.term := getU64_part (i := 7) hbuf rfl (sum_idParts 0)
  have hcandidate : getU64 r.encode 48 = r.candidate := getU64_part (i := 8) hbuf rfl (sum_idParts 1)
  obtain ⟨htenant, htimeline⟩ := fields_idParts hbuf
  have htype : messageType r.encode = .ok TYPE_VOTE := messageType_prefixParts hbuf
  rw [decode, if_neg (by rw [r.length_encode]; omega), htype]
  dsimp only [Bind.bind, Except.bind]
  rw [if_neg (not_not_intro rfl), htenant, htimeline, hterm, hcandidate]

end VoteRequest

structure VoteResponse where
  granted : Bool
  term : UInt64
  flushLsn : Lsn

namespace VoteResponse

def parts (r : VoteResponse) : List (List UInt8) :=
  prefixParts r.granted.toUInt8 ++ [toBeBytes 8 r.term.toNat, toBeBytes 8 r.flushLsn.raw.toNat]

def encode (r : VoteResponse) : List UInt8 := r.parts.flatten

def decode (buf : List UInt8) : Except String VoteResponse :=
  if buf.length < VOTE_RESPONSE_LEN then .error (parseError "vote response too short")
  else if getU32 buf 0 ≠ MAGIC ∨ buf.getD 4 0 ≠ VERSION then .error (parseError "bad vote response header")
  else .ok ⟨buf.getD 5 0 ≠ 0, getU64 buf 8, ⟨getU64 buf 16⟩⟩

theorem decode_encode (r : VoteResponse) : decode r.encode = .ok r := by
  have hbuf : r.parts.flatten <+: r.encode := List.prefix_rfl
  have hterm : getU64 r.encode 8 = r.term := getU64_part (i := 5) hbuf rfl rfl
  have hflush : getU64 r.encode 16 = r.flushLsn.raw := getU64_part (i := 6) hbuf rfl rfl
  obtain ⟨hmagic, hversion, htag⟩ := fields_prefixParts hbuf
  have hlen : r.encode.length = VOTE_RESPONSE_LEN := length_prefixParts _ _
  have hgranted : decide (r.granted.toUInt8 ≠ 0) = r.granted := by cases r.granted <;> rfl
  rw [decode, if_neg (by rw [hlen]; omega),
    if_neg (not_or_intro (not_not_intro hmagic) (not_not_intro hversion)), htag, hterm, hflush]
  simp only [hgranted]

end VoteResponse

/-! ## Responses with a status -/

def Status.toByte : Status → UInt8
  | .ok => 0
  | .staleTerm => 1
  | .rejected => 2

namespace WalService

structure AppendResponse where
  status : UInt8
  term : UInt64
  flushLsn : Lsn
  commitLsn : Lsn

namespace AppendResponse

def parts (r : AppendResponse) : List (List UInt8) :=
  prefixParts r.status
    ++ [toBeBytes 8 r.term.toNat, toBeBytes 8 r.flushLsn.raw.toNat, toBeBytes 8 r.commitLsn.raw.toNat]

def encode (r : AppendResponse) : List UInt8 := r.parts.flatten

def decode (buf : List UInt8) : Except String AppendResponse :=
  if buf.length < RESPONSE_LEN then .error (parseError "append response too short")
  else if getU32 buf 0 ≠ MAGIC ∨ buf.getD 4 0 ≠ VERSION then .error (parseError "bad WAL response header")
  else .ok ⟨buf.getD 5 0, getU64 buf 8, ⟨getU64 buf 16⟩, ⟨getU64 buf 24⟩⟩

theorem decode_encode (r : AppendResponse) : decode r.encode = .ok r := by
  have hbuf : r.parts.flatten <+: r.encode := List.prefix_rfl
  have hterm : getU64 r.encode 8 = r.term := getU64_part (i := 5) hbuf rfl rfl
  have hflush : getU64 r.encode 16 = r.flushLsn.raw := getU64_part (i := 6) hbuf rfl rfl
  have hcommit : getU64 r.encode 24 = r.commitLsn.raw := getU64_part (i := 7) hbuf rfl rfl
  obtain ⟨hmagic, hversion, htag⟩ := fields_prefixParts hbuf
  have hlen : r.encode.length = RESPONSE_LEN := length_prefixParts _ _
  rw [decode, if_neg (by rw [hlen]; omega),
    if_neg (not_or_intro (not_not_intro hmagic) (not_not_intro hversion)), htag, hterm, hflush, hcommit]

end AppendResponse

/-- The reply to a read: a chunk of WAL. -/
structure ReadResponse where
  status : UInt8
  commitLsn : Lsn
  startLsn : Lsn
  payload : List UInt8

namespace ReadResponse

def headerParts (r : ReadResponse) : List (List UInt8) :=
  prefixParts r.status
    ++ [toBeBytes 8 r.commitLsn.raw.toNat, toBeBytes 8 r.startLsn.raw.toNat, toBeBytes 4 r.payload.length]

def encode (r : ReadResponse) : List UInt8 := r.headerParts.flatten ++ r.payload

def payloadLen (header : List UInt8) : Except String Nat :=
  if header.length < READ_RESPONSE_HEADER_LEN then .error (parseError "read response header too short")
  else if getU32 header 0 ≠ MAGIC ∨ header.getD 4 0 ≠ VERSION then
    .error (parseError "bad WAL read response header")
  else .ok (getU32 header 24).toNat

def decode (buf : List UInt8) : Except String ReadResponse := do
  let plen ← payloadLen buf
  if buf.length < READ_RESPONSE_HEADER_LEN + plen then
    .error (parseError "read response payload truncated")
  else .ok ⟨buf.getD 5 0, ⟨getU64 buf 8⟩, ⟨getU64 buf 16⟩, field buf READ_RESPONSE_HEADER_LEN plen⟩

variable {r : ReadResponse}

theorem length_headerParts (r : ReadResponse) :
    r.headerParts.flatten.length = READ_RESPONSE_HEADER_LEN := length_prefixParts _ _

theorem payloadLen_headerParts (hlen : r.payload.length < 2 ^ 32) {buf : List UInt8}
    (hbuf : r.headerParts.flatten <+: buf) : payloadLen buf = .ok r.payload.length := by
  obtain ⟨hmagic, hversion, -⟩ := fields_prefixParts hbuf
  have hheader : ¬buf.length < READ_RESPONSE_HEADER_LEN := by
    have hle := hbuf.length_le
    rw [length_headerParts] at hle
    omega
  have hget : (getU32 buf 24).toNat = r.payload.length := toNat_getU32_part (i := 7) hlen hbuf rfl rfl
  rw [payloadLen, if_neg hheader, if_neg (not_or_intro (not_not_intro hmagic) (not_not_intro hversion)),
    hget]

theorem decode_encode (hlen : r.payload.length < 2 ^ 32) : decode r.encode = .ok r := by
  have hbuf : r.headerParts.flatten <+: r.encode := List.prefix_append _ _
  have hcommit : getU64 r.encode 8 = r.commitLsn.raw := getU64_part (i := 5) hbuf rfl rfl
  have hstart : getU64 r.encode 16 = r.startLsn.raw := getU64_part (i := 6) hbuf rfl rfl
  obtain ⟨-, -, htag⟩ := fields_prefixParts hbuf
  have hpayload : field r.encode READ_RESPONSE_HEADER_LEN r.payload.length = r.payload :=
    field_append_right r.length_headerParts rfl
  have hwhole : ¬r.encode.length < READ_RESPONSE_HEADER_LEN + r.payload.length := by
    rw [encode, List.length_append, length_headerParts]
    omega
  have hplen : payloadLen r.encode = .ok r.payload.length := payloadLen_headerParts hlen hbuf
  unfold decode
  rw [hplen]
  dsimp only [Bind.bind, Except.bind]
  rw [if_neg hwhole, hpayload, hcommit, hstart, htag]

end ReadResponse

end WalService

/-- The response as it goes on the wire. -/
def AppendResponse.wire (r : AppendResponse) : WalService.AppendResponse :=
  ⟨r.status.toByte, r.term, r.flushLsn, r.commitLsn⟩

def ReadResponse.wire (r : ReadResponse) : WalService.ReadResponse :=
  ⟨r.status.toByte, r.commitLsn, r.startLsn, r.payload⟩

end AethelDB
