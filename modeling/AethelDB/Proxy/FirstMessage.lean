import AethelDB.Lib.OrdMap
import AethelDB.Lib.Wire
import AethelDB.Common.Text
import AethelDB.Proxy.Protocol

/-!
# The first message of a client

`parse_first_message` of `proxy/src/protocol.rs`. The packet has no type byte: a length, a request
code and, for a startup message, a block of NUL-terminated keys and values with a lone NUL behind
them.

The length is compared with the buffer, so that a packet is never taken for a longer or a shorter
one. What is not compared is where the message ends inside the packet. An SSL or GSS request is
known by its code alone, a cancel request by having at least sixteen bytes, and the parameters end
at the first empty key. Whatever follows is accepted and ignored
(`parseFirstMessage_eq_ok`), and for a startup message it is part of what is replayed to the backend.
So the parser accepts exactly the protocol on those packets that do not go on behind a complete
message, and on no others.
-/

namespace AethelDB.Proxy

open AethelDB.Lib AethelDB.Text

/-! ## The parser -/

def SSL_REQUEST_CODE : Int32 := 80877103

def GSS_REQUEST_CODE : Int32 := 80877104

def MAX_STARTUP_LEN : Nat := 64 * 1024

/-- The four length bytes and the four code bytes. -/
def MIN_STARTUP_LEN : Nat := 8

inductive ProtocolError where
  | badLength (length : Nat)
  | lengthMismatch (declared got : Nat)
  | unterminatedParameters
  | invalidUtf8

structure StartupMessage where
  protocol : Int32
  parameters : OrdMap String String
  /-- The untouched packet, for the replay to the backend. -/
  raw : List UInt8

inductive FirstMessage where
  | startup (message : StartupMessage)
  | sslRequest
  | gssEncRequest
  | cancelRequest (processId secretKey : Int32)

/-- `i32 as usize`: the sign is extended to 64 bits. -/
def usizeOfI32 (n : Int32) : Nat := (n.toInt % 2 ^ 64).toNat

def readI32 (buf : List UInt8) (off : Nat) : Int32 := i32FromBe (field buf off 4)

/-- Split off the next NUL-terminated string. -/
def takeCstr : Reader UInt8 ProtocolError String := fun body =>
  match body.idxOf? 0 with
  | none => .error .unterminatedParameters
  | some nul =>
    match fromUtf8 (body.take nul) with
    | none => .error .invalidUtf8
    | some s => .ok (String.ofList s, body.drop (nul + 1))

/-- The loop of `parse_parameters`; each turn takes at least three bytes. -/
def parametersLoop : Nat → OrdMap String String → Reader UInt8 ProtocolError (OrdMap String String)
  | 0, _ => throw .unterminatedParameters
  | fuel + 1, params => fun body =>
    match body with
    | [] => .error .unterminatedParameters
    | b :: rest =>
      if b = 0 then .ok (params, b :: rest)
      else
        (do
          let key ← takeCstr
          let value ← takeCstr
          parametersLoop fuel (params.insert key value) : Reader ..) (b :: rest)

def parseParameters (body : List UInt8) : Except ProtocolError (OrdMap String String) :=
  Prod.fst <$> parametersLoop (body.length + 1) OrdMap.empty body

/-- What `parse_first_message` makes of the code, once the length is in order. -/
def parseBody (raw : List UInt8) (code : Int32) : Except ProtocolError FirstMessage :=
  if code = SSL_REQUEST_CODE then .ok .sslRequest
  else if code = GSS_REQUEST_CODE then .ok .gssEncRequest
  else if code = CANCEL_REQUEST_CODE then
    if raw.length < 16 then .error (.badLength raw.length)
    else .ok (.cancelRequest (readI32 raw 8) (readI32 raw 12))
  else (fun parameters => .startup ⟨code, parameters, raw⟩) <$> parseParameters (raw.drop 8)

/-- Parse a complete first packet, its length field included. -/
def parseFirstMessage (raw : List UInt8) : Except ProtocolError FirstMessage :=
  if raw.length < MIN_STARTUP_LEN then .error (.badLength raw.length)
  else
    let declared := usizeOfI32 (readI32 raw 0)
    if ¬(MIN_STARTUP_LEN ≤ declared ∧ declared ≤ MAX_STARTUP_LEN) then .error (.badLength declared)
    else if declared ≠ raw.length then .error (.lengthMismatch declared raw.length)
    else parseBody raw (readI32 raw 4)

/-! ## The protocol -/

/-- A string with its terminator. -/
def cstr (s : String) : List UInt8 := utf8 s.toList ++ [0]

/-- Keys and values, and a lone NUL behind them. -/
def parameterBlock (pairs : List (String × String)) : List UInt8 :=
  (pairs.flatMap fun p => cstr p.1 ++ cstr p.2) ++ [0]

/-- Keys are not empty, and NUL is in no string. -/
def Parameters (pairs : List (String × String)) : Prop :=
  ∀ p ∈ pairs, p.1 ≠ "" ∧ 0 ∉ utf8 p.1.toList ∧ 0 ∉ utf8 p.2.toList

/-- What a list of pairs says of a key: its last value. -/
def lastValue (pairs : List (String × String)) (key : String) : Option String :=
  ((pairs.filter fun p => p.1 = key).getLast?).map Prod.snd

/-- The request codes that are no protocol versions. -/
def IsRequestCode (code : Int32) : Prop :=
  code = SSL_REQUEST_CODE ∨ code = GSS_REQUEST_CODE ∨ code = CANCEL_REQUEST_CODE

/-- The packet of a message, as the protocol has it. -/
def IsFirstMessage (raw : List UInt8) : FirstMessage → Prop
  | .sslRequest => raw = i32ToBe 8 ++ i32ToBe SSL_REQUEST_CODE
  | .gssEncRequest => raw = i32ToBe 8 ++ i32ToBe GSS_REQUEST_CODE
  | .cancelRequest processId secretKey => raw = cancelRequestBytes processId secretKey
  | .startup message =>
    MIN_STARTUP_LEN ≤ raw.length ∧ raw.length ≤ MAX_STARTUP_LEN ∧ ¬IsRequestCode message.protocol
      ∧ message.raw = raw
      ∧ ∃ pairs, Parameters pairs
        ∧ raw = i32ToBe (Int32.ofNat raw.length) ++ (i32ToBe message.protocol ++ parameterBlock pairs)
        ∧ ∀ key, message.parameters.lookup key = lastValue pairs key

/-- A packet of the right length with a code and what follows it. -/
def Framed (raw : List UInt8) (code : Int32) (body : List UInt8) : Prop :=
  raw.length ≤ MAX_STARTUP_LEN ∧ raw = i32ToBe (Int32.ofNat raw.length) ++ (i32ToBe code ++ body)

/-- What has to follow a code: nothing, a backend's key, or parameters. -/
def CompletePayload (code : Int32) (payload : List UInt8) : Prop :=
  if code = SSL_REQUEST_CODE ∨ code = GSS_REQUEST_CODE then payload = []
  else if code = CANCEL_REQUEST_CODE then payload.length = 8
  else ∃ pairs, Parameters pairs ∧ payload = parameterBlock pairs

/-- The packet goes on behind a complete message. -/
def GoesOn (raw : List UInt8) : Prop :=
  ∃ code payload extra, CompletePayload code payload ∧ extra ≠ [] ∧ Framed raw code (payload ++ extra)

/-- A message, and the payload it is read from. -/
def Carries (raw : List UInt8) (code : Int32) (payload : List UInt8) (msg : FirstMessage) : Prop :=
  if code = SSL_REQUEST_CODE then msg = .sslRequest ∧ payload = []
  else if code = GSS_REQUEST_CODE then msg = .gssEncRequest ∧ payload = []
  else if code = CANCEL_REQUEST_CODE then
    ∃ processId secretKey, msg = .cancelRequest processId secretKey
      ∧ payload = i32ToBe processId ++ i32ToBe secretKey
  else
    ∃ pairs, Parameters pairs ∧ payload = parameterBlock pairs
      ∧ msg = .startup ⟨code, OrdMap.empty.insertAll pairs, raw⟩

/-! ## Strings and parameters -/

variable {body rest : List UInt8}

theorem idxOf?_append_cons {bytes : List UInt8} (h : 0 ∉ bytes) (rest : List UInt8) :
    (bytes ++ 0 :: rest).idxOf? 0 = some bytes.length := by
  induction bytes with
  | nil => rfl
  | cons b bytes ih =>
    obtain ⟨hb, hbytes⟩ := not_or.mp (mt List.mem_cons.mpr h)
    rw [List.cons_append, List.idxOf?_cons, if_neg (by simpa using Ne.symm hb), ih hbytes]
    rfl

theorem takeCstr_append {bytes : List UInt8} (h : 0 ∉ bytes) (rest : List UInt8) :
    takeCstr (bytes ++ 0 :: rest) = match fromUtf8 bytes with
      | none => .error .invalidUtf8
      | some s => .ok (String.ofList s, rest) := by
  have hdrop : (bytes ++ 0 :: rest).drop (bytes.length + 1) = rest := by
    rw [List.drop_append, List.drop_of_length_le (by omega)]
    simp
  unfold takeCstr
  rw [idxOf?_append_cons h]
  dsimp only
  rw [List.take_left, hdrop]

/-- **A string is taken off exactly if it stands there with its terminator.** -/
theorem takeCstr_eq_ok {s : String} :
    takeCstr body = .ok (s, rest) ↔ 0 ∉ utf8 s.toList ∧ body = cstr s ++ rest := by
  constructor
  · intro h
    by_cases hnul : 0 ∈ body
    · obtain ⟨bytes, after, rfl, hbytes⟩ := List.eq_append_cons_of_mem hnul
      rw [takeCstr_append hbytes] at h
      cases htext : fromUtf8 bytes with
      | none =>
        rw [htext] at h
        cases h
      | some text =>
        rw [htext] at h
        obtain ⟨rfl, rfl⟩ := Prod.mk.inj (Except.ok.inj h)
        obtain rfl := fromUtf8_eq_some.mp htext
        rw [cstr, String.toList_ofList, List.append_assoc]
        exact ⟨hbytes, rfl⟩
    · rw [takeCstr, List.idxOf?_eq_none_iff.mpr hnul] at h
      cases h
  · rintro ⟨hs, rfl⟩
    rw [cstr, List.append_assoc, List.singleton_append, takeCstr_append hs, fromUtf8_utf8]
    simp only [String.ofList_toList]

theorem parameterBlock_cons (p : String × String) (pairs : List (String × String)) :
    parameterBlock (p :: pairs) = cstr p.1 ++ (cstr p.2 ++ parameterBlock pairs) := by
  simp [parameterBlock]

theorem parameters_cons {p : String × String} {pairs : List (String × String)} :
    Parameters (p :: pairs)
      ↔ (p.1 ≠ "" ∧ 0 ∉ utf8 p.1.toList ∧ 0 ∉ utf8 p.2.toList) ∧ Parameters pairs := by
  simp [Parameters]

theorem head_cstr {s : String} (hne : s ≠ "") (hnul : 0 ∉ utf8 s.toList) {b : UInt8}
    {more : List UInt8} (h : b :: rest = cstr s ++ more) : b ≠ 0 := by
  have hbytes : utf8 s.toList ≠ [] := by
    intro hnil
    apply hne
    have hback := fromUtf8_utf8 s.toList
    rw [hnil] at hback
    have hchars : [] = s.toList := Option.some.inj hback
    rw [← String.toList_inj, ← hchars]
    rfl
  obtain ⟨b', bytes, hcons⟩ := List.exists_cons_of_ne_nil hbytes
  rw [cstr, hcons] at h
  obtain ⟨rfl, -⟩ := List.cons.inj h
  rintro rfl
  exact hnul (hcons ▸ List.mem_cons_self)

/-- **The loop returns exactly if a block of parameters stands there**, and stops at its last
byte. -/
theorem parametersLoop_eq_ok {fuel : Nat} {params m : OrdMap String String}
    (hfuel : body.length < fuel) :
    parametersLoop fuel params body = .ok (m, rest) ↔
      ∃ pairs extra, Parameters pairs ∧ body = parameterBlock pairs ++ extra ∧ rest = 0 :: extra
        ∧ m = params.insertAll pairs := by
  induction fuel generalizing params body with
  | zero => omega
  | succ fuel ih =>
    cases body with
    | nil =>
      constructor
      · intro h
        cases h
      · rintro ⟨pairs, extra, -, hbody, -⟩
        simp [parameterBlock] at hbody
    | cons b body =>
      by_cases hb : b = 0
      · subst hb
        constructor
        · intro h
          obtain ⟨rfl, rfl⟩ := Prod.mk.inj (Except.ok.inj h)
          exact ⟨[], body, by simp [Parameters], rfl, rfl, rfl⟩
        · rintro ⟨pairs, extra, hpairs, hbody, rfl, rfl⟩
          cases pairs with
          | nil =>
            obtain rfl := (List.cons.inj hbody).2
            rfl
          | cons p pairs =>
            obtain ⟨⟨hne, hkey, -⟩, -⟩ := parameters_cons.mp hpairs
            rw [parameterBlock_cons, List.append_assoc] at hbody
            exact absurd rfl (head_cstr hne hkey hbody)
      · -- a turn: key, value, and the loop on what is left
        have hturn : parametersLoop (fuel + 1) params (b :: body) = (do
            let key ← takeCstr
            let value ← takeCstr
            parametersLoop fuel (params.insert key value) : Reader ..) (b :: body) := if_neg hb
        rw [hturn, Reader.bind_eq_ok]
        constructor
        · rintro ⟨key, body', htakeKey, hthen⟩
          obtain ⟨value, body'', htakeValue, hloop⟩ := Reader.bind_ok hthen
          obtain ⟨hkey, hbody⟩ := takeCstr_eq_ok.mp htakeKey
          obtain ⟨hvalue, rfl⟩ := takeCstr_eq_ok.mp htakeValue
          have hlen := congrArg List.length hbody
          simp only [cstr, List.length_append, List.length_cons, List.length_nil] at hlen hfuel
          obtain ⟨pairs, extra, hpairs, rfl, hrest, hm⟩ := (ih (by omega)).mp hloop
          refine ⟨(key, value) :: pairs, extra, parameters_cons.mpr ⟨⟨?_, hkey, hvalue⟩, hpairs⟩, ?_, hrest, hm⟩
          · rintro rfl
            exact hb (List.cons.inj hbody).1
          · rw [hbody, parameterBlock_cons, List.append_assoc, List.append_assoc]
        · rintro ⟨pairs, extra, hpairs, hbody, hrest, hm⟩
          cases pairs with
          | nil => exact absurd (List.cons.inj hbody).1 hb
          | cons p pairs =>
            obtain ⟨⟨-, hkey, hvalue⟩, hpairs⟩ := parameters_cons.mp hpairs
            rw [parameterBlock_cons, List.append_assoc, List.append_assoc] at hbody
            have hlen := congrArg List.length hbody
            simp only [cstr, List.length_append, List.length_cons, List.length_nil] at hlen hfuel
            refine ⟨p.1, _, takeCstr_eq_ok.mpr ⟨hkey, hbody⟩, Reader.bind_eq_ok.mpr
              ⟨p.2, _, takeCstr_eq_ok.mpr ⟨hvalue, rfl⟩, (ih ?_).mpr ⟨pairs, extra, hpairs, rfl, hrest, hm⟩⟩⟩
            rw [List.length_append]
            omega

theorem parseParameters_eq_ok {m : OrdMap String String} :
    parseParameters body = .ok m ↔
      ∃ pairs extra, Parameters pairs ∧ body = parameterBlock pairs ++ extra
        ∧ m = OrdMap.empty.insertAll pairs := by
  have hloop : ∀ rest, parametersLoop (body.length + 1) OrdMap.empty body = .ok (m, rest) ↔
      ∃ pairs extra, Parameters pairs ∧ body = parameterBlock pairs ++ extra ∧ rest = 0 :: extra
        ∧ m = OrdMap.empty.insertAll pairs := fun rest => parametersLoop_eq_ok (Nat.lt_succ_self _)
  constructor
  · intro h
    cases hr : parametersLoop (body.length + 1) OrdMap.empty body with
    | error e =>
      rw [parseParameters, hr] at h
      cases h
    | ok r =>
      rw [parseParameters, hr] at h
      obtain ⟨m', rest⟩ := r
      obtain rfl : m' = m := Except.ok.inj h
      obtain ⟨pairs, extra, hpairs, hbody, -, hm⟩ := (hloop rest).mp hr
      exact ⟨pairs, extra, hpairs, hbody, hm⟩
  · rintro ⟨pairs, extra, hpairs, hbody, hm⟩
    rw [parseParameters, (hloop (0 :: extra)).mpr ⟨pairs, extra, hpairs, hbody, rfl, hm⟩]
    rfl

/-- No block of parameters goes on behind another one. -/
theorem parameterBlock_append {pairs pairs' : List (String × String)} {extra : List UInt8}
    (h : Parameters pairs) (h' : Parameters pairs')
    (heq : parameterBlock pairs ++ extra = parameterBlock pairs') : extra = [] := by
  -- the loop stops at one place only
  have hstops : ∀ pairs extra', Parameters pairs → parameterBlock pairs' = parameterBlock pairs ++ extra' →
      parametersLoop ((parameterBlock pairs').length + 1) OrdMap.empty (parameterBlock pairs')
        = .ok (OrdMap.empty.insertAll pairs, 0 :: extra') := fun pairs extra' hpairs hsplit =>
    (parametersLoop_eq_ok (Nat.lt_succ_self _)).mpr ⟨pairs, extra', hpairs, hsplit, rfl, rfl⟩
  have hfirst := hstops pairs extra h heq.symm
  rw [hstops pairs' [] h' (List.append_nil _).symm] at hfirst
  exact (List.cons.inj (Prod.mk.inj (Except.ok.inj hfirst)).2).2.symm

/-! ## Packets -/

section Packets

variable {raw : List UInt8} {code : Int32} {body payload extra : List UInt8} {msg : FirstMessage}

theorem readI32_append {start : List UInt8} {off : Nat} (h : start.length = off) (n : Int32)
    (rest : List UInt8) : readI32 (start ++ (i32ToBe n ++ rest)) off = n := by
  rw [readI32, field_append h (length_i32ToBe n), i32FromBe_i32ToBe]

theorem usizeOfI32_eq {n : Int32} {len : Nat} (h : len ≤ MAX_STARTUP_LEN) :
    usizeOfI32 n = len ↔ n = Int32.ofNat len := by
  have hmax : MAX_STARTUP_LEN = 65536 := rfl
  have hof : (Int32.ofNat len).toInt = len := Int32.toInt_ofNat_of_lt (by omega)
  have hlo := n.le_toInt
  have hhi := n.toInt_lt
  rw [← Int32.toInt_inj, hof, usizeOfI32]
  omega

theorem Framed.fields (h : Framed raw code body) :
    MIN_STARTUP_LEN ≤ raw.length ∧ readI32 raw 0 = Int32.ofNat raw.length ∧ readI32 raw 4 = code
      ∧ raw.drop 8 = body := by
  obtain ⟨-, hraw⟩ := h
  have hlen := congrArg List.length hraw
  simp only [List.length_append, length_i32ToBe] at hlen
  have hlength : readI32 ([] ++ (i32ToBe (Int32.ofNat raw.length) ++ (i32ToBe code ++ body))) 0
      = Int32.ofNat raw.length := readI32_append rfl _ _
  have hcode := readI32_append (length_i32ToBe (Int32.ofNat raw.length)) code body
  rw [List.nil_append, ← hraw] at hlength
  rw [← hraw] at hcode
  refine ⟨by rw [MIN_STARTUP_LEN]; omega, hlength, hcode, ?_⟩
  rw [hraw]
  rfl

theorem i32ToBe_readI32 {off : Nat} (h : off + 4 ≤ raw.length) :
    i32ToBe (readI32 raw off) = field raw off 4 := by
  apply i32ToBe_i32FromBe
  rw [field, List.length_take, List.length_drop]
  omega

/-- The parser's checks of the length are those of a frame. -/
theorem framed_of_declared (hmin : MIN_STARTUP_LEN ≤ raw.length)
    (hdeclared : usizeOfI32 (readI32 raw 0) = raw.length) (hmax : raw.length ≤ MAX_STARTUP_LEN) :
    Framed raw (readI32 raw 4) (raw.drop 8) := by
  have height : 8 ≤ raw.length := hmin
  refine ⟨hmax, ?_⟩
  rw [← (usizeOfI32_eq hmax).mp hdeclared, i32ToBe_readI32 (by omega), i32ToBe_readI32 (by omega), field, field,
    List.drop_zero]
  conv_lhs => rw [← List.take_append_drop 4 raw, ← List.take_append_drop 4 (raw.drop 4), List.drop_drop]

theorem parseFirstMessage_framed (h : Framed raw code body) :
    parseFirstMessage raw = parseBody raw code := by
  obtain ⟨hmin, hlength, hcode, -⟩ := h.fields
  have hdeclared : usizeOfI32 (readI32 raw 0) = raw.length := (usizeOfI32_eq h.1).mpr hlength
  unfold parseFirstMessage
  rw [if_neg (Nat.not_lt.mpr hmin)]
  dsimp only
  rw [hdeclared, if_neg (not_not_intro ⟨hmin, h.1⟩), if_neg (not_not_intro rfl), hcode]

theorem framed_of_ok (h : parseFirstMessage raw = .ok msg) : Framed raw (readI32 raw 4) (raw.drop 8) := by
  unfold parseFirstMessage at h
  dsimp only at h
  split at h
  · cases h
  · next hmin =>
    split at h
    · cases h
    · next hrange =>
      split at h
      · cases h
      · next hdeclared =>
        have hdeclared := not_not.mp hdeclared
        exact framed_of_declared (Nat.le_of_not_lt hmin) hdeclared (hdeclared ▸ (not_not.mp hrange).2)

theorem Framed.cancelKey (h : Framed raw code body) {processId secretKey : Int32} :
    ¬raw.length < 16 ∧ readI32 raw 8 = processId ∧ readI32 raw 12 = secretKey ↔
      ∃ extra, body = i32ToBe processId ++ i32ToBe secretKey ++ extra := by
  obtain ⟨hmin, -, -, hbody⟩ := h.fields
  have height : 8 ≤ raw.length := hmin
  have hlen : raw.length = 8 + body.length := by
    rw [← hbody, List.length_drop]
    omega
  have hkey : readI32 raw 8 = readI32 body 0 ∧ readI32 raw 12 = readI32 body 4 := by
    rw [← hbody, readI32, readI32, readI32, readI32, field_drop, field_drop]
    exact ⟨rfl, rfl⟩
  rw [hkey.1, hkey.2]
  constructor
  · rintro ⟨hlong, rfl, rfl⟩
    refine ⟨body.drop 8, ?_⟩
    rw [i32ToBe_readI32 (by omega), i32ToBe_readI32 (by omega), field, field, List.drop_zero,
      List.append_assoc]
    conv_lhs => rw [← List.take_append_drop 4 body, ← List.take_append_drop 4 (body.drop 4), List.drop_drop]
  · rintro ⟨extra, rfl⟩
    have hprocess : readI32 ([] ++ (i32ToBe processId ++ (i32ToBe secretKey ++ extra))) 0 = processId :=
      readI32_append rfl _ _
    have hsecret := readI32_append (length_i32ToBe processId) secretKey extra
    simp only [List.length_append, length_i32ToBe] at hlen
    rw [List.append_assoc]
    exact ⟨by omega, hprocess, hsecret⟩

/-- The rest of a packet is read by the code alone, and may go on behind the payload. -/
theorem parseBody_eq_ok (h : Framed raw code body) :
    parseBody raw code = .ok msg ↔ ∃ payload extra, body = payload ++ extra ∧ Carries raw code payload msg := by
  obtain ⟨hmin, -, -, hbody⟩ := h.fields
  have hplain : ∀ m, (.ok m : Except ProtocolError FirstMessage) = .ok msg ↔
      ∃ payload extra, body = payload ++ extra ∧ msg = m ∧ payload = [] := by
    intro m
    constructor
    · intro hmsg
      exact ⟨[], body, rfl, (Except.ok.inj hmsg).symm, rfl⟩
    · rintro ⟨payload, extra, -, rfl, -⟩
      rfl
  unfold parseBody Carries
  by_cases hssl : code = SSL_REQUEST_CODE
  · simp only [if_pos hssl]
    exact hplain _
  by_cases hgss : code = GSS_REQUEST_CODE
  · simp only [if_neg hssl, if_pos hgss]
    exact hplain _
  by_cases hcancel : code = CANCEL_REQUEST_CODE
  · simp only [if_neg hssl, if_neg hgss, if_pos hcancel]
    constructor
    · intro hmsg
      split at hmsg
      · cases hmsg
      · next hlong =>
        obtain ⟨extra, hsplit⟩ := h.cancelKey.mp ⟨hlong, rfl, rfl⟩
        exact ⟨_, extra, hsplit, _, _, (Except.ok.inj hmsg).symm, rfl⟩
    · rintro ⟨payload, extra, hsplit, processId, secretKey, rfl, rfl⟩
      obtain ⟨hlong, hprocess, hsecret⟩ := h.cancelKey.mpr ⟨extra, hsplit⟩
      rw [if_neg hlong, hprocess, hsecret]
  · simp only [if_neg hssl, if_neg hgss, if_neg hcancel, hbody]
    constructor
    · intro hmsg
      cases hp : parseParameters body with
      | error e =>
        rw [hp] at hmsg
        cases hmsg
      | ok m =>
        rw [hp] at hmsg
        obtain ⟨pairs, extra, hpairs, hsplit, rfl⟩ := parseParameters_eq_ok.mp hp
        exact ⟨_, extra, hsplit, pairs, hpairs, rfl, (Except.ok.inj hmsg).symm⟩
    · rintro ⟨payload, extra, hsplit, pairs, hpairs, rfl, rfl⟩
      rw [parseParameters_eq_ok.mpr ⟨pairs, extra, hpairs, hsplit, rfl⟩]
      rfl

/-- **What is accepted**: a packet of the right length that begins with a complete message. -/
theorem parseFirstMessage_eq_ok :
    parseFirstMessage raw = .ok msg ↔
      ∃ code payload extra, Framed raw code (payload ++ extra) ∧ Carries raw code payload msg := by
  constructor
  · intro h
    have hframed := framed_of_ok h
    rw [parseFirstMessage_framed hframed, parseBody_eq_ok hframed] at h
    obtain ⟨payload, extra, hsplit, hcarries⟩ := h
    rw [hsplit] at hframed
    exact ⟨_, payload, extra, hframed, hcarries⟩
  · rintro ⟨code, payload, extra, hframed, hcarries⟩
    rw [parseFirstMessage_framed hframed, parseBody_eq_ok hframed]
    exact ⟨payload, extra, rfl, hcarries⟩

theorem CompletePayload.carries (raw : List UInt8) (h : CompletePayload code payload) :
    ∃ msg, Carries raw code payload msg := by
  unfold CompletePayload at h
  unfold Carries
  by_cases hssl : code = SSL_REQUEST_CODE
  · rw [if_pos (.inl hssl)] at h
    simp only [if_pos hssl]
    exact ⟨_, rfl, h⟩
  by_cases hgss : code = GSS_REQUEST_CODE
  · rw [if_pos (.inr hgss)] at h
    simp only [if_neg hssl, if_pos hgss]
    exact ⟨_, rfl, h⟩
  rw [if_neg (not_or_intro hssl hgss)] at h
  by_cases hcancel : code = CANCEL_REQUEST_CODE
  · rw [if_pos hcancel] at h
    simp only [if_neg hssl, if_neg hgss, if_pos hcancel]
    refine ⟨_, readI32 payload 0, readI32 payload 4, rfl, ?_⟩
    rw [i32ToBe_readI32 (by omega), i32ToBe_readI32 (by omega), field, field, List.drop_zero]
    conv_lhs => rw [← List.take_append_drop 4 payload]
    rw [List.take_of_length_le (i := 4) (l := payload.drop 4) (by rw [List.length_drop]; omega)]
  · rw [if_neg hcancel] at h
    obtain ⟨pairs, hpairs, hpayload⟩ := h
    simp only [if_neg hssl, if_neg hgss, if_neg hcancel]
    exact ⟨_, pairs, hpairs, hpayload, rfl⟩

theorem Carries.complete (h : Carries raw code payload msg) : CompletePayload code payload := by
  unfold Carries at h
  unfold CompletePayload
  by_cases hssl : code = SSL_REQUEST_CODE
  · rw [if_pos hssl] at h
    rw [if_pos (.inl hssl)]
    exact h.2
  rw [if_neg hssl] at h
  by_cases hgss : code = GSS_REQUEST_CODE
  · rw [if_pos hgss] at h
    rw [if_pos (.inr hgss)]
    exact h.2
  rw [if_neg hgss] at h
  rw [if_neg (not_or_intro hssl hgss)]
  by_cases hcancel : code = CANCEL_REQUEST_CODE
  · rw [if_pos hcancel] at h ⊢
    obtain ⟨processId, secretKey, -, rfl⟩ := h
    simp
  · rw [if_neg hcancel] at h ⊢
    obtain ⟨pairs, hpairs, hpayload, -⟩ := h
    exact ⟨pairs, hpairs, hpayload⟩

/-- A complete payload does not go on. -/
theorem CompletePayload.append (h : CompletePayload code payload)
    (h' : CompletePayload code (payload ++ extra)) : extra = [] := by
  unfold CompletePayload at h h'
  by_cases hnegotiate : code = SSL_REQUEST_CODE ∨ code = GSS_REQUEST_CODE
  · rw [if_pos hnegotiate] at h'
    exact (List.append_eq_nil_iff.mp h').2
  rw [if_neg hnegotiate] at h h'
  by_cases hcancel : code = CANCEL_REQUEST_CODE
  · rw [if_pos hcancel] at h h'
    rw [List.length_append] at h'
    exact List.length_eq_zero_iff.mp (by omega)
  · rw [if_neg hcancel] at h h'
    obtain ⟨pairs, hpairs, rfl⟩ := h
    obtain ⟨pairs', hpairs', heq⟩ := h'
    exact parameterBlock_append hpairs hpairs' heq

theorem request_codes_distinct :
    GSS_REQUEST_CODE ≠ SSL_REQUEST_CODE ∧ CANCEL_REQUEST_CODE ≠ SSL_REQUEST_CODE
      ∧ CANCEL_REQUEST_CODE ≠ GSS_REQUEST_CODE := by
  decide

theorem carries_sslRequest :
    Carries raw code payload .sslRequest ↔ code = SSL_REQUEST_CODE ∧ payload = [] := by
  unfold Carries
  split_ifs <;> simp_all

theorem carries_gssEncRequest :
    Carries raw code payload .gssEncRequest ↔ code = GSS_REQUEST_CODE ∧ payload = [] := by
  have hcodes := request_codes_distinct
  unfold Carries
  split_ifs <;> simp_all [Ne.symm]

theorem carries_cancelRequest {processId secretKey : Int32} :
    Carries raw code payload (.cancelRequest processId secretKey) ↔
      code = CANCEL_REQUEST_CODE ∧ payload = i32ToBe processId ++ i32ToBe secretKey := by
  have hcodes := request_codes_distinct
  unfold Carries
  split_ifs <;> simp_all [Ne.symm]

theorem carries_startup {m : StartupMessage} :
    Carries raw code payload (.startup m) ↔
      ¬IsRequestCode code ∧ ∃ pairs, Parameters pairs ∧ payload = parameterBlock pairs
        ∧ m = ⟨code, OrdMap.empty.insertAll pairs, raw⟩ := by
  unfold Carries IsRequestCode
  split_ifs <;> simp_all

theorem lookup_insertAll_empty (pairs : List (String × String)) (key : String) :
    (OrdMap.empty.insertAll pairs).lookup key = lastValue pairs key := by
  rw [OrdMap.lookup_insertAll, lastValue]
  exact Option.or_none

theorem framed_iff {n : Nat} (hn : 8 + body.length = n) (hmax : n ≤ MAX_STARTUP_LEN) :
    Framed raw code body ↔ raw = i32ToBe (Int32.ofNat n) ++ (i32ToBe code ++ body) := by
  have hlength : ∀ m : Int32, (i32ToBe m ++ (i32ToBe code ++ body)).length = n := by
    intro m
    simp only [List.length_append, length_i32ToBe]
    omega
  constructor
  · rintro ⟨-, hraw⟩
    have hlen : raw.length = n := (congrArg List.length hraw).trans (hlength _)
    rw [hlen] at hraw
    exact hraw
  · rintro rfl
    exact ⟨by rw [hlength]; exact hmax, by rw [hlength]⟩

theorem isFirstMessage_iff :
    IsFirstMessage raw msg ↔ ∃ code payload, Framed raw code payload ∧ Carries raw code payload msg := by
  have honly : ∀ {c p}, Framed raw c p ↔ ∃ code payload, Framed raw code payload ∧ code = c ∧ payload = p := by
    intro c p
    constructor
    · exact fun h => ⟨_, _, h, rfl, rfl⟩
    · rintro ⟨code, payload, h, rfl, rfl⟩
      exact h
  cases msg with
  | sslRequest =>
    have hframe : Framed raw SSL_REQUEST_CODE [] ↔ raw = i32ToBe 8 ++ i32ToBe SSL_REQUEST_CODE :=
      framed_iff rfl (by simp [MAX_STARTUP_LEN])
    simp only [carries_sslRequest, IsFirstMessage, ← hframe]
    exact honly
  | gssEncRequest =>
    have hframe : Framed raw GSS_REQUEST_CODE [] ↔ raw = i32ToBe 8 ++ i32ToBe GSS_REQUEST_CODE :=
      framed_iff rfl (by simp [MAX_STARTUP_LEN])
    simp only [carries_gssEncRequest, IsFirstMessage, ← hframe]
    exact honly
  | cancelRequest processId secretKey =>
    have hframe : Framed raw CANCEL_REQUEST_CODE (i32ToBe processId ++ i32ToBe secretKey) ↔
        raw = cancelRequestBytes processId secretKey := framed_iff rfl (by simp [MAX_STARTUP_LEN])
    simp only [carries_cancelRequest, IsFirstMessage, ← hframe]
    exact honly
  | startup m =>
    simp only [carries_startup]
    constructor
    · rintro ⟨-, hmax, hcode, hm, pairs, hpairs, hraw, hlookup⟩
      obtain ⟨protocol, parameters, raw'⟩ := m
      obtain rfl : raw' = raw := hm
      obtain rfl : parameters = OrdMap.empty.insertAll pairs :=
        OrdMap.ext_lookup fun key => (hlookup key).trans (lookup_insertAll_empty pairs key).symm
      exact ⟨protocol, _, ⟨hmax, hraw⟩, hcode, pairs, hpairs, rfl, rfl⟩
    · rintro ⟨code, payload, hframed, hcode, pairs, hpairs, rfl, rfl⟩
      exact ⟨hframed.fields.1, hframed.1, hcode, rfl, pairs, hpairs, hframed.2, lookup_insertAll_empty pairs⟩

/-- A packet that goes on behind a complete message is not one of the protocol. -/
theorem GoesOn.not_isFirstMessage (h : GoesOn raw) (msg : FirstMessage) : ¬IsFirstMessage raw msg := by
  intro hmsg
  obtain ⟨code, payload, extra, hcomplete, hextra, hframed⟩ := h
  obtain ⟨code', payload', hframed', hcarries'⟩ := isFirstMessage_iff.mp hmsg
  obtain ⟨-, -, hcode, hbody⟩ := hframed.fields
  obtain ⟨-, -, hcode', hbody'⟩ := hframed'.fields
  have hsame := hcarries'.complete
  rw [← hcode', ← hbody', hcode, hbody] at hsame
  exact hextra (hcomplete.append hsame)

/-- It is accepted all the same. -/
theorem GoesOn.accepted (h : GoesOn raw) : ∃ msg, parseFirstMessage raw = .ok msg := by
  obtain ⟨code, payload, extra, hcomplete, -, hframed⟩ := h
  obtain ⟨msg, hcarries⟩ := hcomplete.carries raw
  exact ⟨msg, parseFirstMessage_eq_ok.mpr ⟨code, payload, extra, hframed, hcarries⟩⟩

end Packets

/-- **The parser accepts exactly the protocol on a packet if and only if the packet does not go on
behind a complete message.** -/
theorem accepts_exactly_protocol_iff (raw : List UInt8) :
    (∀ msg, parseFirstMessage raw = .ok msg ↔ IsFirstMessage raw msg) ↔ ¬GoesOn raw := by
  constructor
  · intro hexact hgoes
    obtain ⟨msg, haccepted⟩ := hgoes.accepted
    exact hgoes.not_isFirstMessage msg ((hexact msg).mp haccepted)
  · intro hends msg
    rw [parseFirstMessage_eq_ok, isFirstMessage_iff]
    constructor
    · rintro ⟨code, payload, extra, hframed, hcarries⟩
      have hextra : extra = [] := by
        by_contra hne
        exact hends ⟨code, payload, extra, hcarries.complete, hne, hframed⟩
      rw [hextra, List.append_nil] at hframed
      exact ⟨code, payload, hframed, hcarries⟩
    · rintro ⟨code, payload, hframed, hcarries⟩
      exact ⟨code, payload, [], by rwa [List.append_nil], hcarries⟩

/-- A cancel request of seventeen bytes, an SSL request of nine and a startup message with a byte
behind its last NUL are accepted, and none of them is a packet of the protocol. -/
theorem accepts_trailing_bytes :
    parseFirstMessage (i32ToBe 17 ++ (i32ToBe CANCEL_REQUEST_CODE ++ (i32ToBe 42 ++ i32ToBe 7 ++ [1])))
        = .ok (.cancelRequest 42 7)
      ∧ parseFirstMessage (i32ToBe 9 ++ (i32ToBe SSL_REQUEST_CODE ++ [0])) = .ok .sslRequest
      ∧ parseFirstMessage (i32ToBe 10 ++ (i32ToBe 0x30000 ++ [0, 1]))
        = .ok (.startup ⟨0x30000, OrdMap.empty, i32ToBe 10 ++ (i32ToBe 0x30000 ++ [0, 1])⟩)
      ∧ (∀ msg, ¬IsFirstMessage
          (i32ToBe 17 ++ (i32ToBe CANCEL_REQUEST_CODE ++ (i32ToBe 42 ++ i32ToBe 7 ++ [1]))) msg)
      ∧ (∀ msg, ¬IsFirstMessage (i32ToBe 9 ++ (i32ToBe SSL_REQUEST_CODE ++ [0])) msg)
      ∧ ∀ msg, ¬IsFirstMessage (i32ToBe 10 ++ (i32ToBe 0x30000 ++ [0, 1])) msg := by
  have hcancel : GoesOn (i32ToBe 17 ++ (i32ToBe CANCEL_REQUEST_CODE ++ (i32ToBe 42 ++ i32ToBe 7 ++ [1]))) :=
    ⟨CANCEL_REQUEST_CODE, i32ToBe 42 ++ i32ToBe 7, [1], rfl, by simp,
      (framed_iff (n := 17) rfl (by simp [MAX_STARTUP_LEN])).mpr rfl⟩
  have hssl : GoesOn (i32ToBe 9 ++ (i32ToBe SSL_REQUEST_CODE ++ [0])) :=
    ⟨SSL_REQUEST_CODE, [], [0], rfl, by simp, (framed_iff (n := 9) rfl (by simp [MAX_STARTUP_LEN])).mpr rfl⟩
  have hstartup : GoesOn (i32ToBe 10 ++ (i32ToBe 0x30000 ++ [0, 1])) :=
    ⟨0x30000, [0], [1], ⟨[], by simp [Parameters], rfl⟩, by simp,
      (framed_iff (n := 10) rfl (by simp [MAX_STARTUP_LEN])).mpr rfl⟩
  exact ⟨rfl, rfl, rfl, hcancel.not_isFirstMessage, hssl.not_isFirstMessage, hstartup.not_isFirstMessage⟩

end AethelDB.Proxy
