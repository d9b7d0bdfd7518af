import AethelDB.Compute.Basic
import AethelDB.Pageserver.Server

/-!
# The storage manager's end of the page service

`compute/extension/aethel_smgr/aethel_smgr.c`: the builders of the two requests, and how
`aethel_smgr_read`, `aethel_smgr_nblocks` and `aethel_smgr_exists` take a response off the cached
connection. An error of the server is reported with `ereport`, which leaves the connection open for
the next call; so the callback must have taken the whole response by then. A response that is not
what the callback asked for, or that is cut short, closes the connection.

A reader here fails when it closes the connection. What it returns may still be an error
(`Except ErrMsg`), which is what the caller of the callback gets.

`SmgrCall.run` is a callback against the loop of `handle_page_conn`: both ends of one connection
with the bytes under way in either direction. After every call that keeps the connection there are
none left (`aligned_run`).
-/

namespace AethelDB.Compute

open AethelDB.Lib AethelDB.Text

namespace Smgr

def SP_MAGIC : UInt32 := 0x53504731

def SP_VERSION : UInt8 := 1

def SP_TYPE_GET_PAGE : UInt8 := 1

def SP_TYPE_GET_RELSIZE : UInt8 := 2

def SP_STATUS_OK : UInt8 := 0

def SP_REQ_HEADER : Nat := 8

def SP_GET_PAGE_LEN : Nat := SP_REQ_HEADER + 16 + 16 + 12 + 4 + 8

def SP_GET_RELSIZE_LEN : Nat := SP_REQ_HEADER + 16 + 16 + 12 + 8

def SP_RESP_HEADER : Nat := 12

abbrev ErrMsg := List UInt8

def errmsg (s : String) : ErrMsg := utf8 s.toList

/-! ## Requests -/

section Build

variable (junk : Nat → UInt8) (tenant : TenantId) (timeline : TimelineId)

def spFillCommon (p : List UInt8) (type : UInt8) (rel : RelTag) : List UInt8 :=
  store p
    [(0, putBe32 SP_MAGIC), (4, [SP_VERSION]), (5, [type]), (6, [rel.fork.toByte]), (7, [0]),
      (8, tenant.id.bytes), (24, timeline.id.bytes),
      (40, putBe32 rel.spcNode), (44, putBe32 rel.dbNode), (48, putBe32 rel.relNode)]

def getPageBytes (rel : RelTag) (block : UInt32) (lsn : Lsn) : List UInt8 :=
  store (spFillCommon tenant timeline (uninit junk SP_GET_PAGE_LEN) SP_TYPE_GET_PAGE rel)
    [(52, putBe32 block), (56, putBe64 lsn.raw)]

/-- The request of `aethel_smgr_nblocks` and `aethel_smgr_exists`. -/
def getRelSizeBytes (rel : RelTag) (lsn : Lsn) : List UInt8 :=
  store (spFillCommon tenant timeline (uninit junk SP_GET_RELSIZE_LEN) SP_TYPE_GET_RELSIZE rel)
    [(52, putBe64 lsn.raw)]

end Build

/-! ## Responses -/

def spReadAll (len : Nat) : Reader UInt8 ErrMsg (List UInt8) :=
  Reader.exactly len (errmsg "aethel_smgr: page server closed connection mid-response")

/-- Memory for a payload, and the payload. A size that `palloc` refuses is reported before anything
is read. -/
def readPayload (size len : Nat) : Reader UInt8 ErrMsg (Except ErrMsg (List UInt8)) :=
  if size ≤ MaxAllocSize then Except.ok <$> spReadAll len
  else pure (.error (errmsg ("invalid memory alloc request size " ++ toString size)))

/-- The response header: the length of the payload if the status is OK, else the error with its
payload. -/
def spReadStatus : Reader UInt8 ErrMsg (Except ErrMsg UInt32) := do
  let hdr ← spReadAll SP_RESP_HEADER
  if getBe32 hdr ≠ SP_MAGIC ∨ hdr.getD 4 0 ≠ SP_VERSION then
    throw (errmsg "aethel_smgr: malformed response header from page server")
  else if hdr.getD 5 0 = SP_STATUS_OK then return .ok (getBe32 (hdr.drop 8))
  else if 0 < getBe32 (hdr.drop 8) then
    let payload ← readPayload (getBe32 (hdr.drop 8) + 1).toNat (getBe32 (hdr.drop 8)).toNat
    match payload with
    | .error e => return .error e
    | .ok msg => return .error (errmsg "aethel_smgr: page server error: " ++ msg.takeWhile (· ≠ 0))
  else pure (.error
    (errmsg ("aethel_smgr: page server returned status " ++ toString (hdr.getD 5 0).toNat)))

inductive SmgrValue where
  | page (bytes : List UInt8)
  | nblocks (n : UInt32)
  | found (b : Bool)
deriving DecidableEq

def aethelSmgrRead : Reader UInt8 ErrMsg (Except ErrMsg SmgrValue) := do
  let status ← spReadStatus
  match status with
  | .error e => return .error e
  | .ok len =>
    if len.toNat ≠ BLCKSZ then
      throw (errmsg ("aethel_smgr: expected " ++ toString BLCKSZ ++ "-byte page, got "
        ++ toString len.toNat ++ " bytes"))
    else
      let page ← spReadAll BLCKSZ
      return .ok (.page page)

def aethelSmgrNblocks : Reader UInt8 ErrMsg (Except ErrMsg SmgrValue) := do
  let status ← spReadStatus
  match status with
  | .error e => return .error e
  | .ok len =>
    if len.toNat ≠ 4 then
      throw (errmsg ("aethel_smgr: expected 4-byte rel size, got " ++ toString len.toNat ++ " bytes"))
    else
      let payload ← spReadAll 4
      return .ok (.nblocks (getBe32 payload))

/-- `aethel_smgr_exists` does not look at the magic and drains whatever comes. -/
def aethelSmgrExists : Reader UInt8 ErrMsg (Except ErrMsg SmgrValue) := do
  let hdr ← spReadAll SP_RESP_HEADER
  if 0 < getBe32 (hdr.drop 8) then
    let scratch ← readPayload (getBe32 (hdr.drop 8)).toNat (getBe32 (hdr.drop 8)).toNat
    match scratch with
    | .error e => return .error e
    | .ok _ => return .ok (.found (hdr.getD 5 0 = SP_STATUS_OK))
  else return .ok (.found (hdr.getD 5 0 = SP_STATUS_OK))

/-- A callback that talks to the page server. -/
inductive SmgrCall where
  | smgrRead (rel : RelTag) (block : UInt32)
  | smgrNblocks (rel : RelTag)
  | smgrExists (rel : RelTag)

namespace SmgrCall

/-- The request it stands for; the callbacks ask at `InvalidXLogRecPtr`. -/
def request (tenant : TenantId) (timeline : TimelineId) : SmgrCall → Request
  | .smgrRead rel block => .getPage tenant timeline rel block Lsn.INVALID
  | .smgrNblocks rel => .getRelSize tenant timeline rel Lsn.INVALID
  | .smgrExists rel => .getRelSize tenant timeline rel Lsn.INVALID

def bytes (junk : Nat → UInt8) (tenant : TenantId) (timeline : TimelineId) : SmgrCall → List UInt8
  | .smgrRead rel block => getPageBytes junk tenant timeline rel block Lsn.INVALID
  | .smgrNblocks rel => getRelSizeBytes junk tenant timeline rel Lsn.INVALID
  | .smgrExists rel => getRelSizeBytes junk tenant timeline rel Lsn.INVALID

def receive : SmgrCall → Reader UInt8 ErrMsg (Except ErrMsg SmgrValue)
  | .smgrRead .. => aethelSmgrRead
  | .smgrNblocks _ => aethelSmgrNblocks
  | .smgrExists _ => aethelSmgrExists

end SmgrCall

/-! ## The requests are those of the Rust encoder -/

section Build

variable (junk : Nat → UInt8) (tenant : TenantId) (timeline : TimelineId) (rel : RelTag)

theorem spFillCommon_eq (type : UInt8) (p : List UInt8) :
    spFillCommon tenant timeline p type rel
      = store p (layout 0 (Request.commonParts type tenant timeline rel)) := by
  have htenant := tenant.id.size
  have htimeline := timeline.id.size
  simp only [spFillCommon, Request.commonParts, layout, putBe32_eq, length_toBeBytes, List.length_cons,
    List.length_nil, htenant, htimeline]
  rfl

theorem store_parts {n : Nat} (parts : List (List UInt8)) (h : parts.flatten.length = n) :
    store (uninit junk n) (layout 0 parts) = parts.flatten := by
  have hall := store_layout parts [] (uninit junk n)
  rw [List.nil_append, List.nil_append, List.length_nil, h, List.drop_of_length_le (by simp),
    List.append_nil] at hall
  exact hall

theorem layout_append (o : Nat) (xs ys : List (List UInt8)) :
    layout o (xs ++ ys) = layout o xs ++ layout (o + xs.flatten.length) ys := by
  induction xs generalizing o with
  | nil => rfl
  | cons x xs ih => simp [layout, ih, Nat.add_assoc]

theorem store_append (p : List UInt8) (xs ys : List (Nat × List UInt8)) :
    store p (xs ++ ys) = store (store p xs) ys := List.foldl_append

theorem store_commonParts (type : UInt8) {n : Nat} (more : List (List UInt8))
    (h : 52 + more.flatten.length = n) :
    store (spFillCommon tenant timeline (uninit junk n) type rel) (layout 52 more)
      = (Request.commonParts type tenant timeline rel ++ more).flatten := by
  have hcommon := Request.length_commonParts type tenant timeline rel
  have hstart := hcommon []
  rw [List.append_nil, List.flatten_nil, List.length_nil, Nat.add_zero] at hstart
  have hall := store_parts junk (Request.commonParts type tenant timeline rel ++ more)
    ((hcommon more).trans h)
  rwa [layout_append, store_append, hstart, ← spFillCommon_eq] at hall

theorem getPageBytes_eq (block : UInt32) (lsn : Lsn) :
    getPageBytes junk tenant timeline rel block lsn
      = (Request.getPage tenant timeline rel block lsn).encode := by
  have hstore := store_commonParts junk tenant timeline rel SP_TYPE_GET_PAGE (n := SP_GET_PAGE_LEN)
    [toBeBytes 4 block.toNat, toBeBytes 8 lsn.raw.toNat] (by simp; rfl)
  rw [getPageBytes, putBe32_eq, putBe64_eq]
  exact hstore

theorem getRelSizeBytes_eq (lsn : Lsn) :
    getRelSizeBytes junk tenant timeline rel lsn
      = (Request.getRelSize tenant timeline rel lsn).encode := by
  have hstore := store_commonParts junk tenant timeline rel SP_TYPE_GET_RELSIZE (n := SP_GET_RELSIZE_LEN)
    [toBeBytes 8 lsn.raw.toNat] (by simp; rfl)
  rw [getRelSizeBytes, putBe64_eq]
  exact hstore

theorem SmgrCall.bytes_eq (call : SmgrCall) :
    call.bytes junk tenant timeline = (call.request tenant timeline).encode := by
  cases call with
  | smgrRead rel block => exact getPageBytes_eq junk tenant timeline rel block Lsn.INVALID
  | smgrNblocks rel => exact getRelSizeBytes_eq junk tenant timeline rel Lsn.INVALID
  | smgrExists rel => exact getRelSizeBytes_eq junk tenant timeline rel Lsn.INVALID

end Build

/-! ## Each response is taken whole -/

/-- The text a callback reports for a status other than OK. -/
def statusText (status : UInt8) (payload : List UInt8) : ErrMsg :=
  if 0 < payload.length then errmsg "aethel_smgr: page server error: " ++ payload.takeWhile (· ≠ 0)
  else errmsg ("aethel_smgr: page server returned status " ++ toString status.toNat)

/-- What the callback makes of a response; `none` if it closes the connection over it. -/
def SmgrCall.outcome : SmgrCall → Response → Option (Except ErrMsg SmgrValue)
  | .smgrRead .., .page bytes => some (.ok (.page bytes))
  | .smgrRead .., .relSize _ => none
  | .smgrNblocks _, .page _ => none
  | .smgrNblocks _, .relSize n => some (.ok (.nblocks n))
  | .smgrExists _, resp => some (.ok (.found (resp.status = SP_STATUS_OK)))
  | _, resp => some (.error (statusText resp.status resp.payload))

/-- The twelve bytes before the payload. -/
def respHeader (status : UInt8) (len : Nat) : List UInt8 :=
  toBeBytes 4 SP_MAGIC.toNat ++ ([SP_VERSION, status, 0, 0] ++ toBeBytes 4 len)

theorem encode_eq_header (resp : Response) :
    resp.encode = respHeader resp.status resp.payload.length ++ resp.payload := by
  simp only [Response.encode, Response.frame, respHeader, List.flatten_cons, List.flatten_nil,
    List.append_nil, List.append_assoc, List.cons_append, List.nil_append]
  rfl

section Receive

variable {status : UInt8} {payload : List UInt8} {len : Nat}

theorem respHeader_fields (status : UInt8) (hlen : len < 2 ^ 32) :
    getBe32 (respHeader status len) = SP_MAGIC ∧ (respHeader status len).getD 4 0 = SP_VERSION
      ∧ (respHeader status len).getD 5 0 = status
      ∧ getBe32 ((respHeader status len).drop 8) = UInt32.ofNat len := by
  have hcount := getBe32_toBeBytes (UInt32.ofNat len) []
  rw [UInt32.toNat_ofNat_of_lt' hlen, List.append_nil] at hcount
  exact ⟨getBe32_toBeBytes SP_MAGIC _, rfl, rfl, hcount⟩

theorem takes_header (status : UInt8) (len : Nat) :
    Takes (spReadAll SP_RESP_HEADER) (respHeader status len) (respHeader status len) :=
  takes_exactly (by simp [respHeader, SP_RESP_HEADER]) _

theorem takes_readPayload {size : Nat} (h : size ≤ MaxAllocSize) (payload : List UInt8) :
    Takes (readPayload size payload.length) payload (.ok payload) := by
  rw [readPayload, if_pos h]
  exact (takes_exactly rfl _).map Except.ok

theorem takes_spReadStatus_ok (hlen : len < 2 ^ 32) :
    Takes spReadStatus (respHeader SP_STATUS_OK len) (.ok (UInt32.ofNat len)) := by
  obtain ⟨hmagic, hversion, hstatus, hcount⟩ := respHeader_fields SP_STATUS_OK hlen
  intro rest
  refine (Reader.bind_of_ok _ (takes_header SP_STATUS_OK len rest)).trans ?_
  rw [if_neg (not_or_intro (not_not_intro hmagic) (not_not_intro hversion)), if_pos hstatus, hcount]
  rfl

/-- With any other status the payload goes with the header. -/
theorem takes_spReadStatus_error (hstatus : status ≠ SP_STATUS_OK) (hlen : payload.length < 2 ^ 29) :
    Takes spReadStatus (respHeader status payload.length ++ payload)
      (.error (statusText status payload)) := by
  obtain ⟨hmagic, hversion, hfield, hcount⟩ :=
    respHeader_fields status (show payload.length < 2 ^ 32 by omega)
  have hnat : (UInt32.ofNat payload.length).toNat = payload.length :=
    UInt32.toNat_ofNat_of_lt' (show payload.length < 2 ^ 32 by omega)
  refine (takes_header status payload.length).bind ?_
  rw [if_neg (not_or_intro (not_not_intro hmagic) (not_not_intro hversion)), hfield, if_neg hstatus,
    hcount, statusText]
  have hpos : 0 < UInt32.ofNat payload.length ↔ 0 < payload.length := by
    rw [UInt32.lt_iff_toNat_lt, hnat]
    rfl
  by_cases hempty : 0 < payload.length
  · have hsize : (UInt32.ofNat payload.length + 1).toNat ≤ MaxAllocSize := by
      rw [UInt32.toNat_add, hnat]
      refine (Nat.mod_le _ _).trans ?_
      show payload.length + 1 ≤ 0x3fffffff
      omega
    rw [if_pos (hpos.mpr hempty), if_pos hempty, hnat]
    intro rest
    exact (Reader.bind_of_ok _ (takes_readPayload hsize payload rest)).trans rfl
  · have hnil : payload = [] := List.length_eq_zero_iff.mp (by omega)
    rw [if_neg (mt hpos.mp hempty), if_neg hempty, hnil]
    exact Takes.pure _

theorem takes_aethelSmgrExists (status : UInt8) (hlen : payload.length < 2 ^ 29) :
    Takes aethelSmgrExists (respHeader status payload.length ++ payload)
      (.ok (.found (status = SP_STATUS_OK))) := by
  obtain ⟨-, -, hfield, hcount⟩ := respHeader_fields status (show payload.length < 2 ^ 32 by omega)
  have hnat : (UInt32.ofNat payload.length).toNat = payload.length :=
    UInt32.toNat_ofNat_of_lt' (show payload.length < 2 ^ 32 by omega)
  have hpos : 0 < UInt32.ofNat payload.length ↔ 0 < payload.length := by
    rw [UInt32.lt_iff_toNat_lt, hnat]
    rfl
  refine (takes_header status payload.length).bind ?_
  rw [hfield, hcount]
  by_cases hempty : 0 < payload.length
  · rw [if_pos (hpos.mpr hempty), hnat]
    intro rest
    exact (Reader.bind_of_ok _
      (takes_readPayload (show payload.length ≤ 0x3fffffff by omega) payload rest)).trans rfl
  · have hnil : payload = [] := List.length_eq_zero_iff.mp (by omega)
    rw [if_neg (mt hpos.mp hempty), hnil]
    exact Takes.pure _

/-- The two callbacks that look at the status, when it is not OK. -/
theorem takes_of_status {f : UInt32 → Reader UInt8 ErrMsg (Except ErrMsg SmgrValue)}
    (hstatus : status ≠ SP_STATUS_OK) (hlen : payload.length < 2 ^ 29) :
    Takes (do
        let status ← spReadStatus
        match status with
        | .error e => return .error e
        | .ok len => f len)
      (respHeader status payload.length ++ payload) (.error (statusText status payload)) := by
  intro rest
  exact (Reader.bind_of_ok _ (takes_spReadStatus_error hstatus hlen rest)).trans rfl

theorem takes_page {page : List UInt8} (h : page.length = BLCKSZ) :
    Takes aethelSmgrRead (respHeader SP_STATUS_OK page.length ++ page) (.ok (.page page)) := by
  have hlt : page.length < 2 ^ 32 := by
    rw [h, BLCKSZ]
    omega
  refine (takes_spReadStatus_ok hlt).bind ?_
  dsimp only
  rw [UInt32.toNat_ofNat_of_lt' hlt, if_neg (not_not_intro h)]
  exact (takes_exactly h _).bind_pure fun page => Except.ok (SmgrValue.page page)

theorem takes_nblocks (n : UInt32) :
    Takes aethelSmgrNblocks (respHeader SP_STATUS_OK 4 ++ toBeBytes 4 n.toNat) (.ok (.nblocks n)) := by
  have hget := getBe32_toBeBytes n []
  rw [List.append_nil] at hget
  refine (takes_spReadStatus_ok (show 4 < 2 ^ 32 by omega)).bind ?_
  have htake := (takes_exactly (length_toBeBytes 4 n.toNat)
    (errmsg "aethel_smgr: page server closed connection mid-response")).bind_pure fun payload =>
      (Except.ok (SmgrValue.nblocks (getBe32 payload)) : Except ErrMsg SmgrValue)
  rw [hget] at htake
  exact htake

/-- A payload of another length than the one asked for closes the connection. -/
theorem refuses_read (hlen : len < 2 ^ 32) (hne : len ≠ BLCKSZ) (rest : List UInt8) :
    ∃ e, aethelSmgrRead (respHeader SP_STATUS_OK len ++ rest) = .error e := by
  rw [aethelSmgrRead, Reader.bind_of_ok _ (takes_spReadStatus_ok hlen rest)]
  dsimp only
  rw [UInt32.toNat_ofNat_of_lt' hlen, if_pos hne]
  exact ⟨_, rfl⟩

theorem refuses_nblocks (hlen : len < 2 ^ 32) (hne : len ≠ 4) (rest : List UInt8) :
    ∃ e, aethelSmgrNblocks (respHeader SP_STATUS_OK len ++ rest) = .error e := by
  rw [aethelSmgrNblocks, Reader.bind_of_ok _ (takes_spReadStatus_ok hlen rest)]
  dsimp only
  rw [UInt32.toNat_ofNat_of_lt' hlen, if_pos hne]
  exact ⟨_, rfl⟩

end Receive

/-- A callback takes exactly the response, or closes the connection over it. -/
def SmgrCall.TakesOrCloses (call : SmgrCall) (resp : Response) : Prop :=
  match call.outcome resp with
  | some result => Takes call.receive resp.encode result
  | none => ∀ rest, ∃ e, call.receive (resp.encode ++ rest) = .error e

theorem SmgrCall.takesOrCloses (call : SmgrCall) {resp : Response} (h : resp.WellFormed) :
    call.TakesOrCloses resp := by
  have hlt := h.payload_lt
  have hnotFound : PageService.STATUS_NOT_FOUND ≠ SP_STATUS_OK := by decide
  have herror : PageService.STATUS_ERROR ≠ SP_STATUS_OK := by decide
  unfold TakesOrCloses
  rw [encode_eq_header]
  cases call with
  | smgrExists rel => exact takes_aethelSmgrExists resp.status hlt
  | smgrRead rel block =>
    cases resp with
    | page bytes => exact takes_page h
    | relSize n =>
      intro rest
      rw [List.append_assoc]
      exact refuses_read (by simp [Response.payload]) (by simp [Response.payload, BLCKSZ]) _
    | notFound => exact takes_of_status hnotFound hlt
    | error msg => exact takes_of_status herror hlt
  | smgrNblocks rel =>
    cases resp with
    | page bytes =>
      intro rest
      have hsize : bytes.length = 8192 := h
      rw [List.append_assoc]
      exact refuses_nblocks (by simp [Response.payload, hsize]) (by simp [Response.payload, hsize]) _
    | relSize n => exact takes_nblocks n
    | notFound => exact takes_of_status hnotFound hlt
    | error msg => exact takes_of_status herror hlt

/-! A callback looks at no more than it takes. -/

theorem steady_readPayload (size len : Nat) : Steady (readPayload size len) := by
  unfold readPayload
  split
  · exact (steady_exactly _ _).map Except.ok
  · exact Steady.pure _

theorem steady_spReadStatus : Steady spReadStatus := by
  refine (steady_exactly _ _).bind fun hdr => ?_
  split
  · exact Steady.throw _
  · split
    · exact Steady.pure _
    · split
      · refine (steady_readPayload _ _).bind fun payload => ?_
        cases payload <;> exact Steady.pure _
      · exact Steady.pure _

theorem SmgrCall.steady_receive (call : SmgrCall) : Steady call.receive := by
  cases call with
  | smgrExists rel =>
    refine (steady_exactly _ _).bind fun hdr => ?_
    split
    · refine (steady_readPayload _ _).bind fun scratch => ?_
      cases scratch <;> exact Steady.pure _
    · exact Steady.pure _
  | _ =>
    refine steady_spReadStatus.bind fun status => ?_
    cases status with
    | error e => exact Steady.pure _
    | ok len =>
      dsimp only
      split
      · exact Steady.throw _
      · exact (steady_exactly _ _).bind fun _ => Steady.pure _

/-! ## One connection -/

/-- A connection: what the server has not read yet, and what the client has not. -/
structure Socket where
  toServer : List UInt8
  toClient : List UInt8
deriving DecidableEq

structure SmgrEnv where
  /-- The text with which `sp_connect` fails, if there is no connection yet. -/
  connectFails : Option ErrMsg
  sendFails : Bool
  /-- The response the server computes for a request. -/
  answer : Request → Response
  /-- How many of the bytes for the client arrive before the connection ends. -/
  arrives : Nat

/-- The requests the server's loop takes off its input, and the input it is left with. -/
def requestsOn : Nat → List UInt8 → List Request × List UInt8
  | 0, input => ([], input)
  | fuel + 1, input =>
    match Pageserver.readPageRequest input with
    | .ok (some req, rest) =>
      let (reqs, unread) := requestsOn fuel rest
      (req :: reqs, unread)
    | _ => ([], input)

/-- What a call leaves behind: the connection, if it is kept, what the server was asked, and what
the callback returned. -/
structure SmgrStep where
  conn : Option Socket
  served : List Request
  result : Except ErrMsg SmgrValue

section Run

variable (junk : Nat → UInt8) (tenant : TenantId) (timeline : TimelineId)

/-- A callback: connect if need be, send the request, let the server answer, take the response. -/
def SmgrCall.run (call : SmgrCall) (env : SmgrEnv) (conn : Option Socket) : SmgrStep :=
  match conn, env.connectFails with
  | none, some e => ⟨none, [], .error e⟩
  | _, _ =>
    if env.sendFails then ⟨none, [], .error (errmsg "aethel_smgr: send to page server failed")⟩
    else
      let s := conn.getD ⟨[], []⟩
      let input := s.toServer ++ call.bytes junk tenant timeline
      let (reqs, unread) := requestsOn input.length input
      let stream := s.toClient ++ reqs.flatMap fun req => (env.answer req).encode
      match call.receive (stream.take env.arrives) with
      | .error e => ⟨none, reqs, .error e⟩
      | .ok (result, rest) => ⟨some ⟨unread, rest ++ stream.drop env.arrives⟩, reqs, result⟩

def connStep (conn : Option Socket) (c : SmgrCall × SmgrEnv) : Option Socket :=
  (c.1.run junk tenant timeline c.2 conn).conn

/-- There is no connection, or nothing is under way on it. -/
def Aligned (conn : Option Socket) : Prop := ∀ s ∈ conn, s = ⟨[], []⟩

theorem requestsOn_encode (req : Request) :
    requestsOn req.encode.length req.encode = ([req], []) := by
  have hread := Pageserver.takes_readPageRequest req []
  rw [List.append_nil] at hread
  obtain ⟨n, hn⟩ : ∃ n, req.encode.length = n + 1 := by
    have hlen := req.length_encode
    cases req <;> exact ⟨_, hlen⟩
  rw [hn, requestsOn, hread]
  cases n <;> rfl

section Call

variable {conn : Option Socket} {call : SmgrCall} {env : SmgrEnv}

/-- What a call comes to once the request is sent on a connection with nothing under way. -/
theorem run_of_sent (hconn : Aligned conn) (hopen : conn ≠ none ∨ env.connectFails = none)
    (hsend : env.sendFails = false) :
    call.run junk tenant timeline env conn =
      match call.receive ((env.answer (call.request tenant timeline)).encode.take env.arrives) with
      | .error e => ⟨none, [call.request tenant timeline], .error e⟩
      | .ok (result, rest) =>
        ⟨some ⟨[], rest ++ (env.answer (call.request tenant timeline)).encode.drop env.arrives⟩,
          [call.request tenant timeline], result⟩ := by
  have hempty : conn.getD ⟨[], []⟩ = ⟨[], []⟩ := by
    cases conn with
    | none => rfl
    | some s => exact hconn s rfl
  have hrequests := requestsOn_encode (call.request tenant timeline)
  rw [← call.bytes_eq junk] at hrequests
  unfold SmgrCall.run
  split
  · next e he => exact absurd hopen (by simp [he])
  · simp only [hsend, hempty, List.nil_append, hrequests, List.flatMap_singleton]
    rfl

/-- **One call.** If it keeps the connection, the server was asked for this request and nothing
else, the callback returns what it makes of the response, and nothing is under way. -/
theorem run_kept (hconn : Aligned conn) (hanswer : (env.answer (call.request tenant timeline)).WellFormed)
    {s : Socket} (hs : (call.run junk tenant timeline env conn).conn = some s) :
    s = ⟨[], []⟩
      ∧ (call.run junk tenant timeline env conn).served = [call.request tenant timeline]
      ∧ call.outcome (env.answer (call.request tenant timeline))
        = some (call.run junk tenant timeline env conn).result := by
  by_cases hopen : conn ≠ none ∨ env.connectFails = none
  · cases hsend : env.sendFails with
    | true =>
      have hnone : (call.run junk tenant timeline env conn).conn = none := by
        unfold SmgrCall.run
        split
        · rfl
        · rw [hsend]
          rfl
      exact absurd (hnone.symm.trans hs) (by simp)
    | false =>
      rw [run_of_sent junk tenant timeline hconn hopen hsend] at hs ⊢
      cases hreceive : call.receive
          ((env.answer (call.request tenant timeline)).encode.take env.arrives) with
      | error e =>
        rw [hreceive] at hs
        simp at hs
      | ok got =>
        obtain ⟨result, rest⟩ := got
        -- what it made of the part that arrived it would have made of the whole
        have hwhole := call.steady_receive _ _ _ hreceive
          ((env.answer (call.request tenant timeline)).encode.drop env.arrives)
        rw [List.take_append_drop] at hwhole
        have htakes := call.takesOrCloses hanswer
        unfold SmgrCall.TakesOrCloses at htakes
        rw [hreceive] at hs
        cases houtcome : call.outcome (env.answer (call.request tenant timeline)) with
        | none =>
          rw [houtcome] at htakes
          obtain ⟨e, he⟩ := htakes []
          rw [List.append_nil, hwhole] at he
          simp at he
        | some expected =>
          rw [houtcome] at htakes
          have htaken := htakes []
          rw [List.append_nil, hwhole] at htaken
          obtain ⟨rfl, hrest⟩ := Prod.mk.inj (Except.ok.inj htaken)
          dsimp only at hs
          rw [hrest] at hs
          exact ⟨(Option.some.inj hs).symm, rfl, rfl⟩
  · obtain ⟨hnone, hfails⟩ := not_or.mp hopen
    obtain ⟨e, he⟩ := Option.ne_none_iff_exists'.mp hfails
    rw [not_not.mp hnone] at hs
    unfold SmgrCall.run at hs
    rw [he] at hs
    simp at hs

/-- With nothing failing, a call whose response is of the kind it asked for keeps the connection. -/
theorem run_keeps (hconn : Aligned conn) (hanswer : (env.answer (call.request tenant timeline)).WellFormed)
    (hopen : conn ≠ none ∨ env.connectFails = none) (hsend : env.sendFails = false)
    (harrives : (env.answer (call.request tenant timeline)).encode.length ≤ env.arrives)
    (hkind : (call.outcome (env.answer (call.request tenant timeline))).isSome) :
    (call.run junk tenant timeline env conn).conn = some ⟨[], []⟩ := by
  obtain ⟨expected, houtcome⟩ := Option.isSome_iff_exists.mp hkind
  have htakes := call.takesOrCloses hanswer
  unfold SmgrCall.TakesOrCloses at htakes
  rw [houtcome] at htakes
  have htaken := htakes []
  rw [List.append_nil] at htaken
  rw [run_of_sent junk tenant timeline hconn hopen hsend, List.take_of_length_le harrives, htaken,
    List.drop_of_length_le harrives]
  rfl

end Call

/-- The responses that a list of calls can meet. -/
def AnswersWellFormed (calls : List (SmgrCall × SmgrEnv)) : Prop :=
  ∀ c ∈ calls, ∀ req, (c.2.answer req).WellFormed

/-- **Along any run of calls** the connection has nothing under way. -/
theorem aligned_run {calls : List (SmgrCall × SmgrEnv)} (h : AnswersWellFormed calls) :
    Aligned (run (connStep junk tenant timeline) none calls) := by
  induction calls using List.reverseRecOn with
  | nil => exact fun s hs => absurd hs (by simp)
  | append_singleton calls c ih =>
    have hbefore := ih fun c hc => h c (List.mem_append_left _ hc)
    rw [run_concat]
    intro s hs
    exact (run_kept junk tenant timeline hbefore (h c (by simp) _) hs).1

end Run

/-- The page server's own answers are of the kind that was asked for. -/
theorem outcome_answer (m : Pageserver.TenantManager) (tenant : TenantId) (timeline : TimelineId)
    (call : SmgrCall) : (call.outcome (Pageserver.answer m (call.request tenant timeline))).isSome := by
  cases call with
  | smgrExists rel => rfl
  | _ =>
    unfold Pageserver.answer
    split
    · rfl
    · dsimp only [SmgrCall.request]
      split <;> rfl

/-- **The two ends agree.** The requests built in C are those of the Rust encoder, for every LSN;
their first eight bytes give their length and they decode to the same request. A callback takes
exactly the response that was written, or closes the connection, which the page server's own answers
never make it do. So after any calls with any responses and failures, a call that keeps the
connection has had its own request served and nothing else, returns what it makes of the response to
it, and leaves nothing under way in either direction; and it keeps the connection unless something
fails or the response is of another kind. -/
theorem page_service_agrees (junk : Nat → UInt8) (tenant : TenantId) (timeline : TimelineId) :
    (∀ rel block lsn,
      let req := Request.getPage tenant timeline rel block lsn
      let bytes := getPageBytes junk tenant timeline rel block lsn
      bytes = req.encode ∧ Request.totalLen (bytes.take 8) = .ok bytes.length
        ∧ Request.decode bytes = .ok req)
    ∧ (∀ rel lsn,
      let req := Request.getRelSize tenant timeline rel lsn
      let bytes := getRelSizeBytes junk tenant timeline rel lsn
      bytes = req.encode ∧ Request.totalLen (bytes.take 8) = .ok bytes.length
        ∧ Request.decode bytes = .ok req)
    ∧ (∀ (call : SmgrCall) (resp : Response), resp.WellFormed → call.TakesOrCloses resp)
    ∧ (∀ (call : SmgrCall) (m : Pageserver.TenantManager),
      (call.outcome (Pageserver.answer m (call.request tenant timeline))).isSome)
    ∧ ∀ (calls : List (SmgrCall × SmgrEnv)) (call : SmgrCall) (env : SmgrEnv),
      AnswersWellFormed (calls ++ [(call, env)]) →
      let before := run (connStep junk tenant timeline) none calls
      let after := call.run junk tenant timeline env before
      let resp := env.answer (call.request tenant timeline)
      (∀ s, after.conn = some s →
        s = ⟨[], []⟩ ∧ after.served = [call.request tenant timeline]
          ∧ call.outcome resp = some after.result)
      ∧ ((before ≠ none ∨ env.connectFails = none) → env.sendFails = false →
        resp.encode.length ≤ env.arrives → (call.outcome resp).isSome → after.conn = some ⟨[], []⟩) := by
  have hmessage : ∀ req : Request, Request.totalLen (req.encode.take 8) = .ok req.encode.length := by
    intro req
    have htotal := req.totalLen_encode []
    rwa [List.append_nil] at htotal
  refine ⟨fun rel block lsn => ?_, fun rel lsn => ?_, fun call resp => call.takesOrCloses,
    fun call m => outcome_answer m tenant timeline call, fun calls call env hanswers => ?_⟩
  · rw [getPageBytes_eq]
    exact ⟨rfl, hmessage _, Request.decode_encode _⟩
  · rw [getRelSizeBytes_eq]
    exact ⟨rfl, hmessage _, Request.decode_encode _⟩
  · have hearlier : AnswersWellFormed calls := fun c hc => hanswers c (List.mem_append_left _ hc)
    have haligned := aligned_run junk tenant timeline hearlier
    have hresp := hanswers (call, env) (by simp) (call.request tenant timeline)
    exact ⟨fun s hs => run_kept junk tenant timeline haligned hresp hs,
      run_keeps junk tenant timeline haligned hresp⟩

/-- A server without the relation: the callback says so and keeps the connection. -/
theorem page_service_agrees_notFound :
    ((SmgrCall.smgrExists ⟨1663, 5, 16384, .main⟩).run (fun _ => 0) TenantId.ZERO TimelineId.ZERO
      ⟨none, false, fun _ => .notFound, 12⟩ none).conn = some ⟨[], []⟩ := by
  have hagree := (page_service_agrees (fun _ => 0) TenantId.ZERO TimelineId.ZERO).2.2.2.2 []
    (.smgrExists ⟨1663, 5, 16384, .main⟩) ⟨none, false, fun _ => .notFound, 12⟩
    (fun c hc req => by rw [List.mem_singleton.mp hc]; trivial)
  exact hagree.2 (.inr rfl) rfl (Nat.le_refl 12) rfl

end Smgr

end AethelDB.Compute
