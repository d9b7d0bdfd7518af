import AethelDB.Common.Text
import AethelDB.Lib.Duplex
import AethelDB.Proxy.Protocol
import AethelDB.Proxy.Tenant

/-!
# SCRAM-SHA-256 at the proxy

`proxy/src/scram.rs`: the proxy checks a client's password before it wakes a compute node
(`authenticate`), and it can prove one itself (`client_authenticate`). Both are parties that
read and write a stream; what they do between two messages is a function of its own here
(`serverFirst`, `serverFinal`, `clientFinal`, `clientVerify`), in the order of the source.

HMAC, SHA-256 and base64 are not modelled. `Primitives` has what the exchange rests on: the
length of a digest, and that base64 can be decoded and has no comma in it.

A message is text with fields `k=value`, separated by commas. Each side searches the text of
the other for the fields it needs, the first one with the right letter, and the server cuts the
proof off at the last `,p=`. Nothing is escaped: a user name may contain commas and look like
fields, and the nonce the server answers may then be a part of the user name. The exchange
works all the same (`scram_complete`), since the client takes the nonce from the server's
answer, and since what both sides sign is the text as it was sent.
-/

namespace AethelDB.Proxy

open AethelDB.Lib AethelDB.Text

inductive ScramError where
  | io
  | protocol (what : String)
  | authFailed
deriving DecidableEq

/-- HMAC-SHA-256, SHA-256 and the standard base64 alphabet. -/
structure Primitives where
  hmac : List UInt8 → List UInt8 → List UInt8
  sha256 : List UInt8 → List UInt8
  encode : List UInt8 → List Char
  decode : List Char → Option (List UInt8)
  length_hmac : ∀ key data, (hmac key data).length = 32
  length_sha256 : ∀ data, (sha256 data).length = 32
  decode_encode : ∀ bytes, decode (encode bytes) = some bytes
  comma_not_mem_encode : ∀ bytes, ',' ∉ encode bytes

/-- The bytes of two digests, one by one. -/
def xorBytes (a b : List UInt8) : List UInt8 := List.zipWith (· ^^^ ·) a b

/-- `Option::ok_or`, with a protocol error. -/
def okOr {α : Type} (o : Option α) (what : String) : Except ScramError α :=
  match o with
  | some a => .ok a
  | none => .error (.protocol what)

/-! ## Messages -/

/-- Tag of the messages a client sends, `b'p'`. -/
def TAG_P : UInt8 := 112

/-- Tag of the authentication messages a server sends, `b'R'`. -/
def TAG_R : UInt8 := 82

/-- A tag, a length that counts itself, and the body. -/
def frame (tag : UInt8) (body : List UInt8) : List UInt8 :=
  tag :: (i32ToBe (Int32.ofNat (4 + body.length)) ++ body)

def writePMessage (body : List UInt8) : Proc UInt8 ScramError Unit := Proc.writeAll (frame TAG_P body)

def writeAuthMessage (subtype : Int32) (body : List UInt8) : Proc UInt8 ScramError Unit :=
  Proc.writeAll (frame TAG_R (i32ToBe subtype ++ body))

def MAX_MESSAGE : Nat := 2 ^ 20

def readMessage : Proc UInt8 ScramError (UInt8 × List UInt8) := do
  let tag ← Proc.readExact .io 1
  let lenBuf ← Proc.readExact .io 4
  let len := (i32FromBe lenBuf).toInt
  if 4 ≤ len ∧ len ≤ MAX_MESSAGE then
    let body ← Proc.readExact .io (len - 4).toNat
    return (tag.headD 0, body)
  else Proc.lift (.error (.protocol "message length out of range"))

def MECHANISM : List UInt8 := utf8 "SCRAM-SHA-256".toList

/-- Parse a SASLInitialResponse body: mechanism, a zero byte, a length and the data. -/
def parseSaslInitial (body : List UInt8) : Except ScramError (List Char) :=
  match body.dropWhile (· ≠ 0) with
  | [] => .error (.protocol "no mechanism")
  | _ :: rest =>
    if body.takeWhile (· ≠ 0) ≠ MECHANISM then .error (.protocol "unsupported SASL mechanism")
    else if rest.length < 4 then .error (.protocol "truncated SASLInitialResponse")
    else
      let dataLen := (i32FromBe (rest.take 4)).toInt
      let data := rest.drop 4
      if dataLen < 0 ∨ dataLen ≠ data.length then .error (.protocol "bad SASL data length")
      else okOr (fromUtf8 data) "bad utf8"

/-- What is behind the second comma of a client-first message. -/
def stripGs2Header (clientFirst : List Char) : Except ScramError (List Char) := do
  let (_, rest) ← okOr (splitOnce ',' clientFirst) "bad gs2 header"
  let (_, bare) ← okOr (splitOnce ',' rest) "bad gs2 header"
  return bare

/-- The value of the first field with this letter. -/
def field (msg : List Char) (key : Char) : Option (List Char) :=
  (msg.splitOn ',').findSome? (stripStart [key, '='])

/-! ## Keys -/

section Exchange

variable (P : Primitives)

/-- The rounds of `hi` after the first one. -/
def hiLoop (password : List UInt8) : Nat → List UInt8 → List UInt8 → List UInt8
  | 0, _, result => result
  | n + 1, u, result =>
    let u := P.hmac password u
    hiLoop password n u (xorBytes result u)

/-- PBKDF2 with a single block of output. -/
def hi (password salt : List UInt8) (iterations : UInt32) : List UInt8 :=
  let u := P.hmac password (salt ++ [0, 0, 0, 1])
  hiLoop P password (iterations.toNat - 1) u u

def clientKeyOf (salted : List UInt8) : List UInt8 := P.hmac salted (utf8 "Client Key".toList)

def serverKeyOf (salted : List UInt8) : List UInt8 := P.hmac salted (utf8 "Server Key".toList)

/-- Derive a verifier from a cleartext password. -/
def ScramSecret.fromPassword (password : List Char) (salt : List UInt8) (iterations : UInt32) :
    ScramSecret :=
  let salted := hi P (utf8 password) salt iterations
  { iterations, salt
    storedKey := ⟨(P.sha256 (clientKeyOf P salted)).toArray, P.length_sha256 _⟩
    serverKey := ⟨(serverKeyOf P salted).toArray, P.length_hmac _ _⟩ }

/-- The nonce made of these random bytes. -/
def makeNonce (random : List UInt8) : List Char := P.encode random

/-- What both sides sign. -/
def authMessage (clientFirstBare serverFirst clientFinalWithoutProof : List Char) : List Char :=
  clientFirstBare ++ ",".toList ++ serverFirst ++ ",".toList ++ clientFinalWithoutProof

/-! ## The server -/

def serverFirstText (combinedNonce : List Char) (salt : List UInt8) (iterations : UInt32) : List Char :=
  "r=".toList ++ combinedNonce ++ ",s=".toList ++ P.encode salt ++ ",i=".toList
    ++ decimal iterations.toNat

/-- What the server knows after it has answered the first message. -/
structure ServerFirst where
  clientFirstBare : List Char
  combinedNonce : List Char
  text : List Char
deriving DecidableEq

/-- From SASLInitialResponse to the server-first message. -/
def serverFirst (secret : ScramSecret) (random : List UInt8) (tag : UInt8) (body : List UInt8) :
    Except ScramError ServerFirst := do
  if tag ≠ TAG_P then .error (.protocol "expected SASLInitialResponse")
  else
    let clientFirst ← parseSaslInitial body
    let clientFirstBare ← stripGs2Header clientFirst
    let clientNonce ← okOr (field clientFirstBare 'r') "no client nonce"
    let combinedNonce := clientNonce ++ makeNonce P random
    return ⟨clientFirstBare, combinedNonce, serverFirstText P combinedNonce secret.salt secret.iterations⟩

/-- From the client-final message to the server-final one. -/
def serverFinal (secret : ScramSecret) (first : ServerFirst) (tag : UInt8) (body : List UInt8) :
    Except ScramError (List Char) := do
  if tag ≠ TAG_P then .error (.protocol "expected SASLResponse")
  else
    let clientFinal ← okOr (fromUtf8 body) "bad utf8"
    let proofB64 ← okOr (field clientFinal 'p') "no client proof"
    let finalNonce ← okOr (field clientFinal 'r') "no nonce"
    if finalNonce ≠ first.combinedNonce then .error (.protocol "nonce mismatch")
    else
      let withoutProof ← okOr ((rsplitOnce ",p=".toList clientFinal).map Prod.fst) "no proof field"
      let message := utf8 (authMessage first.clientFirstBare first.text withoutProof)
      let clientSignature := P.hmac secret.storedKey.toList message
      let proof ← okOr (P.decode proofB64) "bad proof base64"
      if proof.length ≠ 32 then .error (.protocol "bad proof length")
      else if P.sha256 (xorBytes proof clientSignature) ≠ secret.storedKey.toList then .error .authFailed
      else return "v=".toList ++ P.encode (P.hmac secret.serverKey.toList message)

def authenticate (secret : ScramSecret) (random : List UInt8) : Proc UInt8 ScramError Unit := do
  writeAuthMessage 10 (MECHANISM ++ [0, 0])
  let (tag, body) ← readMessage
  let first ← Proc.lift (serverFirst P secret random tag body)
  writeAuthMessage 11 (utf8 first.text)
  let (tag, body) ← readMessage
  let final ← Proc.lift (serverFinal P secret first tag body)
  writeAuthMessage 12 (utf8 final)

/-! ## The client -/

def clientFirstBare (user nonce : List Char) : List Char := "n=".toList ++ user ++ ",r=".toList ++ nonce

/-- The header of a client that does not use channel binding. -/
def GS2_HEADER : List Char := "n,,".toList

/-- The body of SASLInitialResponse. -/
def saslInitial (clientFirst : List Char) : List UInt8 :=
  MECHANISM ++ [0] ++ i32ToBe (Int32.ofNat (utf8 clientFirst).length) ++ utf8 clientFirst

/-- What the client knows after it has sent its proof. -/
structure ClientFinal where
  salted : List UInt8
  authMessage : List Char
  text : List Char
deriving DecidableEq

/-- From the server-first message to the client-final one. -/
def clientFinal (password bare : List Char) (body : List UInt8) : Except ScramError ClientFinal := do
  let serverFirst ← okOr (fromUtf8 (body.drop 4)) "bad utf8"
  let combinedNonce ← okOr (field serverFirst 'r') "no nonce"
  let saltB64 ← okOr (field serverFirst 's') "no salt"
  let salt ← okOr (P.decode saltB64) "bad salt"
  let iterations ← okOr ((field serverFirst 'i').bind parseU32) "no iterations"
  let salted := hi P (utf8 password) salt iterations
  let storedKey := P.sha256 (clientKeyOf P salted)
  let withoutProof := "c=biws,r=".toList ++ combinedNonce
  let message := authMessage bare serverFirst withoutProof
  let clientSignature := P.hmac storedKey (utf8 message)
  let proof := xorBytes (clientKeyOf P salted) clientSignature
  return ⟨salted, message, withoutProof ++ ",p=".toList ++ P.encode proof⟩

/-- Check the signature in the server-final message. -/
def clientVerify (final : ClientFinal) (body : List UInt8) : Except ScramError Unit := do
  let serverFinal ← okOr (fromUtf8 (body.drop 4)) "bad utf8"
  let v ← okOr (field serverFinal 'v') "no server signature"
  if v ≠ P.encode (P.hmac (serverKeyOf P final.salted) (utf8 final.authMessage)) then .error .authFailed
  else return ()

def clientAuthenticate (user password : List Char) (random : List UInt8) :
    Proc UInt8 ScramError Unit := do
  let (tag, body) ← readMessage
  if tag ≠ TAG_R ∨ body.take 4 ≠ i32ToBe 10 then
    Proc.lift (.error (.protocol "expected AuthenticationSASL"))
  else
    let bare := clientFirstBare user (makeNonce P random)
    writePMessage (saslInitial (GS2_HEADER ++ bare))
    let (_, body) ← readMessage
    let final ← Proc.lift (clientFinal P password bare body)
    writePMessage (utf8 final.text)
    let (_, body) ← readMessage
    Proc.lift (clientVerify P final body)

end Exchange

/-! ## Reading a message -/

section Read

variable {tag : UInt8} {body : List UInt8} (hbody : 4 + body.length ≤ MAX_MESSAGE)
include hbody

/-- The length of a message is in range and says how much of it is still to come. -/
theorem frame_length :
    (4 ≤ (i32FromBe (i32ToBe (Int32.ofNat (4 + body.length)))).toInt ∧
      (i32FromBe (i32ToBe (Int32.ofNat (4 + body.length)))).toInt ≤ MAX_MESSAGE) ∧
      body.length = ((i32FromBe (i32ToBe (Int32.ofNat (4 + body.length)))).toInt - 4).toNat := by
  have hmax : MAX_MESSAGE = 2 ^ 20 := rfl
  rw [i32FromBe_i32ToBe, Int32.toInt_ofNat_of_lt (by omega)]
  omega

theorem runOn_readMessage_bind {α : Type} (f : UInt8 × List UInt8 → Proc UInt8 ScramError α)
    (input : List UInt8) :
    (readMessage >>= f).runOn (frame tag body ++ input) = (f (tag, body)).runOn input := by
  obtain ⟨hrange, hlen⟩ := frame_length hbody
  have hframe : frame tag body ++ input
      = [tag] ++ (i32ToBe (Int32.ofNat (4 + body.length)) ++ (body ++ input)) := by
    simp [frame]
  rw [readMessage, Proc.bind_assoc, hframe,
    Proc.runOn_readExact_bind ScramError.io (show [tag].length = 1 from rfl), Proc.bind_assoc,
    Proc.runOn_readExact_bind ScramError.io (length_i32ToBe _)]
  simp only [if_pos hrange]
  rw [Proc.bind_assoc, Proc.runOn_readExact_bind ScramError.io hlen]
  rfl

theorem leads_readMessage_left {ε α α' : Type} {q : Proc UInt8 ε α'} (toRight : List UInt8)
    (f : UInt8 × List UInt8 → Proc UInt8 ScramError α) :
    Duplex.Leads ⟨readMessage >>= f, q, frame tag body, toRight⟩ ⟨f (tag, body), q, [], toRight⟩ := by
  obtain ⟨hrange, hlen⟩ := frame_length hbody
  have hframe : frame tag body
      = [tag] ++ (i32ToBe (Int32.ofNat (4 + body.length)) ++ (body ++ [])) := by
    simp [frame]
  rw [readMessage, Proc.bind_assoc, hframe]
  refine (Duplex.leads_readExact_left _ _ ScramError.io (show [tag].length = 1 from rfl) _).trans ?_
  rw [Proc.bind_assoc]
  refine (Duplex.leads_readExact_left _ _ ScramError.io (length_i32ToBe _) _).trans ?_
  simp only [if_pos hrange]
  rw [Proc.bind_assoc]
  exact Duplex.leads_readExact_left _ _ ScramError.io hlen _

theorem leads_readMessage_right {ε α α' : Type} {p : Proc UInt8 ε α} (toLeft : List UInt8)
    (f : UInt8 × List UInt8 → Proc UInt8 ScramError α') :
    Duplex.Leads ⟨p, readMessage >>= f, toLeft, frame tag body⟩ ⟨p, f (tag, body), toLeft, []⟩ :=
  (leads_readMessage_left hbody toLeft f).swap

end Read

/-! ## Fields -/

section Fields

variable {key : Char} {v a rest s : List Char}

theorem stripStart_field (key : Char) (v : List Char) : stripStart [key, '='] (key :: '=' :: v) = some v := by
  simp [stripStart]

theorem comma_not_mem_splitOn (s : List Char) : ∀ a ∈ s.splitOn ',', ',' ∉ a := by
  induction s with
  | nil => simp
  | cons c s ih =>
    rw [List.splitOn_cons_eq_if_modifyHead]
    split
    · intro a ha
      rcases List.mem_cons.mp ha with rfl | ha
      · simp
      · exact ih a ha
    · next hc =>
      obtain ⟨x, xs, hx⟩ := List.exists_cons_of_ne_nil (List.splitOn_ne_nil ',' s)
      rw [hx] at ih ⊢
      intro a ha
      rcases List.mem_cons.mp ha with rfl | ha
      · have hne : ',' ≠ c := fun h => hc (beq_iff_eq.mpr h.symm)
        simp [hne, ih x List.mem_cons_self]
      · exact ih a (List.mem_cons_of_mem _ ha)

theorem comma_not_mem_field (h : field s key = some v) : ',' ∉ v := by
  obtain ⟨a, ha, hv⟩ := List.exists_of_findSome?_eq_some h
  intro hmem
  refine comma_not_mem_splitOn s a ha ?_
  unfold stripStart at hv
  split at hv
  · obtain rfl := Option.some.inj hv
    exact List.mem_of_mem_drop hmem
  · simp at hv

theorem field_last (hkey : key ≠ ',') (hv : ',' ∉ v) : field (key :: '=' :: v) key = some v := by
  have hpiece : ',' ∉ key :: '=' :: v := by simp [hkey.symm, hv]
  rw [field, List.splitOn_eq_singleton hpiece, List.findSome?_cons, stripStart_field]

theorem field_here (hkey : key ≠ ',') (hv : ',' ∉ v) (rest : List Char) :
    field (key :: '=' :: (v ++ ',' :: rest)) key = some v := by
  have hpiece : ',' ∉ key :: '=' :: v := by simp [hkey.symm, hv]
  have hsplit : (key :: '=' :: (v ++ ',' :: rest)).splitOn ',' = (key :: '=' :: v) :: rest.splitOn ',' :=
    List.splitOn_append_cons_self_of_not_mem hpiece rest
  rw [field, hsplit, List.findSome?_cons, stripStart_field]

theorem field_skip {key' : Char} (hne : key ≠ key') (hkey : key' ≠ ',') (hv : ',' ∉ v) (rest : List Char) :
    field (key' :: '=' :: (v ++ ',' :: rest)) key = field rest key := by
  have hpiece : ',' ∉ key' :: '=' :: v := by simp [hkey.symm, hv]
  have hsplit : (key' :: '=' :: (v ++ ',' :: rest)).splitOn ',' = (key' :: '=' :: v) :: rest.splitOn ',' :=
    List.splitOn_append_cons_self_of_not_mem hpiece rest
  have hnone : stripStart [key, '='] (key' :: '=' :: v) = none := by
    simp [stripStart, hne]
  rw [field, hsplit, List.findSome?_cons, hnone, field]

/-- A field behind anything is found, unless there is one with its letter before. -/
theorem field_behind (hkey : key ≠ ',') (hv : ',' ∉ v) (before : List Char) :
    field (before ++ ',' :: key :: '=' :: v) key = some ((field before key).getD v) := by
  have hlast := field_last hkey hv
  unfold field at hlast ⊢
  rw [List.splitOn_append_cons_self, List.findSome?_append, hlast]
  cases (before.splitOn ',').findSome? (stripStart [key, '=']) <;> rfl

end Fields

/-- Some nonce is found in the client's first message: one in the user name, or else the
client's own. -/
theorem field_clientFirstBare (user : List Char) {nonce : List Char} (hnonce : ',' ∉ nonce) :
    field (clientFirstBare user nonce) 'r' = some ((field ("n=".toList ++ user) 'r').getD nonce) := by
  rw [← field_behind (by decide) hnonce]
  show field ("n=".toList ++ user ++ ",r=".toList ++ nonce) 'r' = _
  simp

theorem xorBytes_xorBytes {a b : List UInt8} (h : a.length = b.length) :
    xorBytes (xorBytes a b) b = a := by
  unfold xorBytes
  induction a generalizing b with
  | nil => rfl
  | cons x a ih =>
    cases b with
    | nil => simp at h
    | cons y b =>
      simp only [List.zipWith_cons_cons]
      rw [ih (Nat.succ.inj h), UInt8.xor_assoc, UInt8.xor_self, UInt8.xor_zero]

theorem length_xorBytes {a b : List UInt8} (h : a.length = b.length) :
    (xorBytes a b).length = a.length := by
  simp [xorBytes, h]

theorem parseSaslInitial_saslInitial {clientFirst : List Char}
    (h : (utf8 clientFirst).length < 2 ^ 31) :
    parseSaslInitial (saslInitial clientFirst) = .ok clientFirst := by
  have hzero : ∀ b ∈ MECHANISM, decide (b ≠ 0) = true := by decide +kernel
  have hbody : saslInitial clientFirst
      = MECHANISM ++ 0 :: (i32ToBe (Int32.ofNat (utf8 clientFirst).length) ++ utf8 clientFirst) := by
    simp [saslInitial]
  have hdrop : (saslInitial clientFirst).dropWhile (· ≠ 0)
      = 0 :: (i32ToBe (Int32.ofNat (utf8 clientFirst).length) ++ utf8 clientFirst) := by
    rw [hbody, List.dropWhile_append_of_pos hzero]
    rfl
  have htake : (saslInitial clientFirst).takeWhile (· ≠ 0) = MECHANISM := by
    rw [hbody, List.takeWhile_append_of_pos hzero]
    simp
  unfold parseSaslInitial
  rw [hdrop]
  simp only [htake, ne_eq, not_true, if_false]
  rw [if_neg (by rw [List.length_append, length_i32ToBe]; omega),
    List.take_left' (length_i32ToBe _), List.drop_left' (length_i32ToBe _),
    i32FromBe_i32ToBe, Int32.toInt_ofNat_of_lt h, if_neg (by simp), fromUtf8_utf8]
  rfl

theorem comma_not_mem_makeNonce (P : Primitives) (random : List UInt8) : ',' ∉ makeNonce P random :=
  P.comma_not_mem_encode random

theorem stripGs2Header_eq (bare : List Char) : stripGs2Header (GS2_HEADER ++ bare) = .ok bare := rfl

theorem okOr_some {α : Type} (a : α) (what : String) : okOr (some a) what = .ok a := rfl

theorem ok_bind {α γ : Type} (a : α) (f : α → Except ScramError γ) : (Except.ok a >>= f) = f a := rfl

/-- The server finds the client's first message in what was sent, and a nonce in it. -/
theorem serverFirst_eq (P : Primitives) (secret : ScramSecret) (random : List UInt8)
    {header bare nonce : List Char} (hstrip : stripGs2Header (header ++ bare) = .ok bare)
    (hnonce : field bare 'r' = some nonce) (hlen : (utf8 (header ++ bare)).length < 2 ^ 31) :
    serverFirst P secret random TAG_P (saslInitial (header ++ bare))
      = .ok ⟨bare, nonce ++ makeNonce P random,
        serverFirstText P (nonce ++ makeNonce P random) secret.salt secret.iterations⟩ := by
  unfold serverFirst
  rw [if_neg (by simp), parseSaslInitial_saslInitial hlen, ok_bind, hstrip, ok_bind, hnonce, okOr_some,
    ok_bind]
  rfl

theorem serverFirstText_eq (P : Primitives) (nonce : List Char) (salt : List UInt8) (iterations : UInt32) :
    serverFirstText P nonce salt iterations = 'r' :: '=' :: (nonce ++ ',' ::
      's' :: '=' :: (P.encode salt ++ ',' :: 'i' :: '=' :: decimal iterations.toNat)) := by
  show "r=".toList ++ nonce ++ ",s=".toList ++ P.encode salt ++ ",i=".toList ++ decimal iterations.toNat = _
  simp

/-- The three fields of the server's answer. -/
theorem field_serverFirstText (P : Primitives) {nonce : List Char} (hnonce : ',' ∉ nonce)
    (salt : List UInt8) (iterations : UInt32) :
    field (serverFirstText P nonce salt iterations) 'r' = some nonce ∧
      field (serverFirstText P nonce salt iterations) 's' = some (P.encode salt) ∧
      field (serverFirstText P nonce salt iterations) 'i' = some (decimal iterations.toNat) := by
  have hsalt := P.comma_not_mem_encode salt
  have hdigits : ',' ∉ decimal iterations.toNat := by
    intro hmem
    exact absurd (Nat.isDigit_of_mem_toDigits (by decide) (by decide) hmem) (by decide)
  rw [serverFirstText_eq]
  refine ⟨field_here (by decide) hnonce _, ?_, ?_⟩
  · rw [field_skip (by decide) (by decide) hnonce, field_here (by decide) hsalt]
  · rw [field_skip (by decide) (by decide) hnonce, field_skip (by decide) (by decide) hsalt,
      field_last (by decide) hdigits]

/-! ## What is said in an exchange -/

/-- A password and what the two sides make of it: the verifier's salt and iteration count, the
client's first message, the nonce of the server's answer, and the binding the client claims. -/
structure Transcript where
  password : List Char
  salt : List UInt8
  iterations : UInt32
  bare : List Char
  nonce : List Char
  binding : List Char
deriving DecidableEq

namespace Transcript

variable (P : Primitives) (t : Transcript)

def secret : ScramSecret := .fromPassword P t.password t.salt t.iterations

def salted : List UInt8 := hi P (utf8 t.password) t.salt t.iterations

def serverFirst : ServerFirst := ⟨t.bare, t.nonce, serverFirstText P t.nonce t.salt t.iterations⟩

def withoutProof : List Char := "c=".toList ++ t.binding ++ ",r=".toList ++ t.nonce

def signed : List Char := authMessage t.bare (t.serverFirst P).text t.withoutProof

def proof : List UInt8 :=
  xorBytes (clientKeyOf P (t.salted P)) (P.hmac (t.secret P).storedKey.toList (utf8 (t.signed P)))

def clientFinal : ClientFinal :=
  ⟨t.salted P, t.signed P, t.withoutProof ++ ",p=".toList ++ P.encode (t.proof P)⟩

def serverFinal : List Char :=
  "v=".toList ++ P.encode (P.hmac (t.secret P).serverKey.toList (utf8 (t.signed P)))

theorem length_clientKeyOf :
    (clientKeyOf P (t.salted P)).length
      = (P.hmac (t.secret P).storedKey.toList (utf8 (t.signed P))).length := by
  rw [clientKeyOf, P.length_hmac, P.length_hmac]

theorem length_proof : (t.proof P).length = 32 := by
  rw [proof, length_xorBytes (t.length_clientKeyOf P), clientKeyOf, P.length_hmac]

variable {t}

theorem withoutProof_eq : t.withoutProof = 'c' :: '=' :: (t.binding ++ ',' :: 'r' :: '=' :: t.nonce) := by
  show "c=".toList ++ t.binding ++ ",r=".toList ++ t.nonce = _
  simp

theorem clientFinal_eq (hnonce : ',' ∉ t.nonce) (hbinding : t.binding = "biws".toList) :
    Proxy.clientFinal P t.password t.bare (i32ToBe 11 ++ utf8 (t.serverFirst P).text)
      = .ok (t.clientFinal P) := by
  obtain ⟨hr, hs, hi⟩ := field_serverFirstText P hnonce t.salt t.iterations
  have hwithout : "c=biws,r=".toList ++ t.nonce = t.withoutProof := by
    simp [withoutProof_eq, hbinding]
  unfold Proxy.clientFinal serverFirst
  rw [List.drop_left' (length_i32ToBe _), fromUtf8_utf8, okOr_some, ok_bind, hr, okOr_some, ok_bind, hs,
    okOr_some, ok_bind, P.decode_encode, okOr_some, ok_bind, hi, Option.bind_some, parseU32_decimal,
    okOr_some, ok_bind, hwithout]
  rfl

theorem clientFinal_text : (t.clientFinal P).text = 'c' :: '=' :: (t.binding ++ ',' :: 'r' :: '=' ::
    (t.nonce ++ ',' :: 'p' :: '=' :: P.encode (t.proof P))) := by
  show t.withoutProof ++ ",p=".toList ++ P.encode (t.proof P) = _
  simp [withoutProof_eq]

/-- The server finds the proof and the nonce, and cuts off what was signed. -/
theorem serverFinal_eq (hnonce : ',' ∉ t.nonce) (hbinding : ',' ∉ t.binding) :
    Proxy.serverFinal P (t.secret P) (t.serverFirst P) TAG_P (utf8 (t.clientFinal P).text)
      = .ok (t.serverFinal P) := by
  have hproof := P.comma_not_mem_encode (t.proof P)
  have htext := t.clientFinal_text P
  have hp : field (t.clientFinal P).text 'p' = some (P.encode (t.proof P)) := by
    rw [htext, field_skip (by decide) (by decide) hbinding, field_skip (by decide) (by decide) hnonce,
      field_last (by decide) hproof]
  have hr : field (t.clientFinal P).text 'r' = some t.nonce := by
    rw [htext, field_skip (by decide) (by decide) hbinding, field_here (by decide) hnonce]
  have hcut : rsplitOnce ",p=".toList (t.clientFinal P).text
      = some (t.withoutProof, P.encode (t.proof P)) := by
    have h : rsplitOnce [',', 'p', '='] _ = _ := rsplitOnce_append (by decide) hproof t.withoutProof
    rw [← h]
    simp [clientFinal]
  have hsigned : authMessage (t.serverFirst P).clientFirstBare (t.serverFirst P).text t.withoutProof
      = t.signed P := rfl
  have hstored : P.sha256 (clientKeyOf P (t.salted P)) = (t.secret P).storedKey.toList := rfl
  unfold Proxy.serverFinal
  rw [if_neg (by simp), fromUtf8_utf8, okOr_some, ok_bind, hp, okOr_some, ok_bind, hr, okOr_some, ok_bind,
    if_neg (by simp [serverFirst]), hcut, Option.map_some, okOr_some, ok_bind, hsigned, P.decode_encode,
    okOr_some, ok_bind, if_neg (by simp [t.length_proof]), proof,
    xorBytes_xorBytes (t.length_clientKeyOf P),
    if_neg (by simp [hstored])]
  rfl

theorem clientVerify_eq (t : Transcript) :
    clientVerify P (t.clientFinal P) (i32ToBe 12 ++ utf8 (t.serverFinal P)) = .ok () := by
  have hv : field (t.serverFinal P) 'v'
      = some (P.encode (P.hmac (t.secret P).serverKey.toList (utf8 (t.signed P)))) :=
    field_last (by decide) (P.comma_not_mem_encode _)
  have hkey : serverKeyOf P (t.clientFinal P).salted = (t.secret P).serverKey.toList := rfl
  unfold clientVerify
  rw [List.drop_left' (length_i32ToBe _), fromUtf8_utf8, okOr_some, ok_bind, hv, okOr_some, ok_bind, hkey]
  exact if_neg (not_not_intro rfl)

end Transcript

/-! ## Completeness -/

/-- Both sides accept, and nothing is left unread. -/
def accepted : Duplex UInt8 ScramError Unit ScramError Unit := ⟨.done (.ok ()), .done (.ok ()), [], []⟩

/-- If each side can go on from what the other one sends, one order of moves leads to the end. -/
theorem leads_of_stages {P : Primitives} {user password : List Char} {secret : ScramSecret}
    {clientRandom serverRandom : List UInt8} {bare verdict : List Char} {first : ServerFirst}
    {final : ClientFinal}
    (hfirst : serverFirst P secret serverRandom TAG_P (saslInitial (GS2_HEADER ++ bare)) = .ok first)
    (hfinal : clientFinal P password bare (i32ToBe 11 ++ utf8 first.text) = .ok final)
    (hverdict : serverFinal P secret first TAG_P (utf8 final.text) = .ok verdict)
    (hverify : clientVerify P final (i32ToBe 12 ++ utf8 verdict) = .ok ())
    (hfits : ∀ body ∈ [i32ToBe 10 ++ (MECHANISM ++ [0, 0]), saslInitial (GS2_HEADER ++ bare),
      i32ToBe 11 ++ utf8 first.text, utf8 final.text, i32ToBe 12 ++ utf8 verdict],
      4 + body.length ≤ MAX_MESSAGE)
    (hbare : bare = clientFirstBare user (makeNonce P clientRandom)) :
    Duplex.Leads
      ⟨clientAuthenticate P user password clientRandom, authenticate P secret serverRandom, [], []⟩
      accepted := by
  simp only [List.forall_mem_cons] at hfits
  obtain ⟨hsize₁, hsize₂, hsize₃, hsize₄, hsize₅, _⟩ := hfits
  subst hbare
  -- AuthenticationSASL
  refine (Duplex.leads_writeAll_right _ _ _ _).trans ?_
  rw [List.nil_append]
  refine (leads_readMessage_left hsize₁ _ _).trans ?_
  simp only
  rw [if_neg (by simp [List.take_left' (length_i32ToBe 10)])]
  -- SASLInitialResponse
  refine (Duplex.leads_writeAll_left _ _ _ _).trans ?_
  rw [List.nil_append]
  refine (leads_readMessage_right hsize₂ _ _).trans ?_
  simp only
  rw [hfirst, Proc.lift_ok_bind]
  -- AuthenticationSASLContinue
  refine (Duplex.leads_writeAll_right _ _ _ _).trans ?_
  rw [List.nil_append]
  refine (leads_readMessage_left hsize₃ _ _).trans ?_
  simp only
  rw [hfinal, Proc.lift_ok_bind]
  -- SASLResponse
  refine (Duplex.leads_writeAll_left _ _ _ _).trans ?_
  rw [List.nil_append]
  refine (leads_readMessage_right hsize₄ _ _).trans ?_
  simp only
  rw [hverdict, Proc.lift_ok_bind]
  -- AuthenticationSASLFinal
  refine (Duplex.leads_writeAll_right_done _ _ _).trans ?_
  rw [List.nil_append]
  refine (leads_readMessage_left hsize₅ _ _).trans ?_
  simp only
  rw [hverify]
  exact .refl _

/-- A password, the verifier's salt and iteration count, a user name and what the two nonces
are made of. -/
structure Exchange where
  user : List Char
  password : List Char
  salt : List UInt8
  iterations : UInt32
  clientRandom : List UInt8
  serverRandom : List UInt8
deriving DecidableEq

namespace Exchange

variable (P : Primitives) (x : Exchange)

def bare : List Char := clientFirstBare x.user (makeNonce P x.clientRandom)

/-- The nonce the server finds in the client's first message. -/
def clientNonce : List Char := (field (x.bare P) 'r').getD []

def transcript : Transcript where
  password := x.password
  salt := x.salt
  iterations := x.iterations
  bare := x.bare P
  nonce := x.clientNonce P ++ makeNonce P x.serverRandom
  binding := "biws".toList

def messages : List (List UInt8) :=
  [i32ToBe 10 ++ (MECHANISM ++ [0, 0]), saslInitial (GS2_HEADER ++ x.bare P),
    i32ToBe 11 ++ utf8 ((x.transcript P).serverFirst P).text,
    utf8 ((x.transcript P).clientFinal P).text, i32ToBe 12 ++ utf8 ((x.transcript P).serverFinal P)]

/-- The client, the server with a verifier of the same password, and an empty stream. -/
def start : Duplex UInt8 ScramError Unit ScramError Unit where
  left := clientAuthenticate P x.user x.password x.clientRandom
  right := authenticate P (.fromPassword P x.password x.salt x.iterations) x.serverRandom
  toLeft := []
  toRight := []

theorem field_bare : field (x.bare P) 'r' = some (x.clientNonce P) := by
  rw [clientNonce, bare, field_clientFirstBare _ (comma_not_mem_makeNonce P _), Option.getD_some]

theorem comma_not_mem_nonce : ',' ∉ (x.transcript P).nonce := by
  have hclient := comma_not_mem_field (x.field_bare P)
  have hserver := comma_not_mem_makeNonce P x.serverRandom
  simp only [transcript, List.mem_append, not_or]
  exact ⟨hclient, hserver⟩

/-- One order in which the exchange comes to its end. -/
theorem leads_accepted (hfits : ∀ body ∈ x.messages P, 4 + body.length ≤ MAX_MESSAGE) :
    Duplex.Leads (x.start P) accepted := by
  have hmax : MAX_MESSAGE = 2 ^ 20 := rfl
  have hinitial := hfits (saslInitial (GS2_HEADER ++ x.bare P)) (by simp [messages])
  have hdata : (utf8 (GS2_HEADER ++ x.bare P)).length < 2 ^ 31 := by
    rw [saslInitial, List.length_append] at hinitial
    omega
  have hcomma := x.comma_not_mem_nonce P
  have hfirst : serverFirst P ((x.transcript P).secret P) x.serverRandom TAG_P
      (saslInitial (GS2_HEADER ++ x.bare P)) = .ok ((x.transcript P).serverFirst P) :=
    serverFirst_eq P _ _ (stripGs2Header_eq _) (x.field_bare P) hdata
  exact leads_of_stages hfirst (Transcript.clientFinal_eq P hcomma rfl)
    (Transcript.serverFinal_eq P hcomma (show ',' ∉ "biws".toList by decide))
    (Transcript.clientVerify_eq P _) hfits rfl

end Exchange

/-- **SCRAM completeness.** Whatever HMAC, SHA-256 and base64 do beyond `Primitives`: for every
password, salt, iteration count, user name and pair of nonces, as long as no message is longer
than what is read, the client and the server with a verifier of the same password both end
with `Ok`, in every order in which they are scheduled. -/
theorem scram_complete (P : Primitives) (x : Exchange)
    (hfits : ∀ body ∈ x.messages P, 4 + body.length ≤ MAX_MESSAGE) (sched : Nat → Side)
    (hfair : Duplex.Fair sched) :
    ∃ n, ∀ m ≥ n, let s := Duplex.runTo sched (x.start P) m
      s.left.result = some (.ok ()) ∧ s.right.result = some (.ok ()) := by
  obtain ⟨n, hpath⟩ := x.leads_accepted P hfits
  obtain ⟨k, hk⟩ := Duplex.eventually hpath ⟨rfl, rfl⟩ hfair
  refine ⟨k, fun m hm => ?_⟩
  rw [hk m hm]
  exact ⟨rfl, rfl⟩

/-- A letter for a byte, not an ASCII one. -/
def sampleLetter (b : UInt8) : Char := Char.ofNat (0x100 + b.toNat)

theorem toNat_sampleLetter (b : UInt8) : (sampleLetter b).toNat = 0x100 + b.toNat := by
  have hlt := b.toNat_lt
  have hvalid : Nat.isValidChar (0x100 + b.toNat) := Or.inl (by omega)
  unfold sampleLetter
  rw [Char.toNat_ofNat, if_pos hvalid]

theorem sampleLetter_ne {c : Char} (hc : c.toNat < 0x100) (b : UInt8) : sampleLetter b ≠ c := by
  rintro rfl
  rw [toNat_sampleLetter] at hc
  omega

/-- Primitives to evaluate the exchange with: digests that depend on the lengths of their inputs
only, and a letter for each byte, except that the header of a client without channel binding
is encoded as base64 does. -/
def samplePrimitives : Primitives where
  hmac key data := List.replicate 32 (UInt8.ofNat (7 * key.length + data.length))
  sha256 data := List.replicate 32 (UInt8.ofNat data.length)
  encode bytes :=
    if bytes = utf8 GS2_HEADER then "biws".toList
    else bytes.map sampleLetter
  decode s :=
    if s = "biws".toList then some (utf8 GS2_HEADER)
    else some (s.map fun c => UInt8.ofNat (c.toNat - 0x100))
  length_hmac _ _ := List.length_replicate
  length_sha256 _ := List.length_replicate
  decode_encode bytes := by
    by_cases hheader : bytes = utf8 GS2_HEADER
    · rw [if_pos hheader, if_pos rfl, hheader]
    · have hne : bytes.map sampleLetter ≠ "biws".toList := by
        intro h
        have hmem : 'b' ∈ bytes.map sampleLetter := h ▸ List.mem_cons_self
        obtain ⟨b, _, hb⟩ := List.mem_map.mp hmem
        exact sampleLetter_ne (by decide) b hb
      rw [if_neg hheader, if_neg hne, List.map_map]
      have hid : ((fun c : Char => UInt8.ofNat (c.toNat - 0x100)) ∘ sampleLetter) = id := by
        funext b
        simp [toNat_sampleLetter]
      rw [hid, List.map_id]
  comma_not_mem_encode bytes := by
    split
    · decide
    · intro hmem
      obtain ⟨b, _, hb⟩ := List.mem_map.mp hmem
      exact sampleLetter_ne (by decide) b hb

/-- A user name that looks like fields of its own. -/
def sampleExchange : Exchange where
  user := "a,r=b,p=c".toList
  password := "s3cret".toList
  salt := [1, 2, 3]
  iterations := 2
  clientRandom := List.replicate 18 4
  serverRandom := List.replicate 18 5

theorem fair_alternate : Duplex.Fair fun n => if n % 2 = 0 then .left else .right := by
  intro side n
  cases side with
  | left => exact ⟨2 * n, by omega, if_pos (by omega)⟩
  | right => exact ⟨2 * n + 1, by omega, if_neg (by omega)⟩

theorem scram_complete_sample :
    (sampleExchange.transcript samplePrimitives).nonce
        = "b".toList ++ samplePrimitives.encode sampleExchange.serverRandom ∧
      ∃ n, ∀ m ≥ n,
        let s := Duplex.runTo (fun n => if n % 2 = 0 then .left else .right)
          (sampleExchange.start samplePrimitives) m
        s.left.result = some (.ok ()) ∧ s.right.result = some (.ok ()) :=
  ⟨by decide +kernel, scram_complete samplePrimitives sampleExchange (by decide +kernel) _ fair_alternate⟩

end AethelDB.Proxy
