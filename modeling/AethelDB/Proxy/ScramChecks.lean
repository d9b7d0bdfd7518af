import AethelDB.Proxy.Scram

/-!
# The checks of RFC 5802 that the exchange leaves out

RFC 5802 asks the client to check that the nonce of the server's answer continues its own, and
the server to check that the `c=` field of the last message is the encoding of the header of the
first one, and that this header does not ask for channel binding. `client_authenticate` and
`authenticate` make neither check: the client signs whatever nonce it finds, and the server
signs whatever stands before the proof and drops the header unread.

What is left is that the two implementations do not send each other anything that the checks
would refuse (`scram_checks_of_counterpart`), save for a user name that contains a field `r=`.
A peer that knows the password, or its verifier, can send what it likes
(`scram_checks_left_out`): a stale nonce, another header's encoding, or a header that requires
channel binding.
-/

namespace AethelDB.Proxy

open AethelDB.Lib AethelDB.Text

abbrev Message := UInt8 × List UInt8

/-- The bytes of some messages, one after the other. -/
def received (messages : List Message) : List UInt8 := messages.flatMap fun m => frame m.1 m.2

/-- Short enough to be read. -/
def Readable (m : Message) : Prop := 4 + m.2.length ≤ MAX_MESSAGE

instance (m : Message) : Decidable (Readable m) := inferInstanceAs (Decidable (_ ≤ _))

/-! ## The checks -/

/-- The nonce in a server-first message continues `own`. -/
def NonceContinues (own : List Char) (serverFirst : List UInt8) : Prop :=
  ∃ text nonce, fromUtf8 (serverFirst.drop 4) = some text ∧ field text 'r' = some nonce ∧
    own <+: nonce ∧ own.length < nonce.length

/-- The two parts of the header of a client-first message. -/
def gs2Header (clientFirst : List Char) : Option (List Char × List Char) :=
  (splitOnce ',' clientFirst).bind fun (flag, rest) =>
    (splitOnce ',' rest).map fun (authzid, _) => (flag, authzid)

/-- The `c=` field of a client-final message is the encoding of the header of the client-first
message, and the header does without channel binding. -/
def HeaderEchoed (P : Primitives) (saslInitial clientFinal : List UInt8) : Prop :=
  ∃ clientFirst flag authzid text, parseSaslInitial saslInitial = .ok clientFirst ∧
    gs2Header clientFirst = some (flag, authzid) ∧ fromUtf8 clientFinal = some text ∧
    field text 'c' = some (P.encode (utf8 (flag ++ ",".toList ++ authzid ++ ",".toList))) ∧
    (flag = "n".toList ∨ flag = "y".toList)

/-! ## What the two sides return -/

section Runs

variable (P : Primitives)

theorem runOn_clientAuthenticate (user password : List Char) (random : List UInt8) {m₀ m₁ m₂ : Message}
    (h₀ : Readable m₀) (h₁ : Readable m₁) (h₂ : Readable m₂) (hoffer : m₀.1 = TAG_R)
    (hsasl : m₀.2.take 4 = i32ToBe 10) :
    (clientAuthenticate P user password random).runOn (received [m₀, m₁, m₂])
      = clientFinal P password (clientFirstBare user (makeNonce P random)) m₁.2 >>=
        fun final => clientVerify P final m₂.2 := by
  have hinput : received [m₀, m₁, m₂]
      = frame m₀.1 m₀.2 ++ (frame m₁.1 m₁.2 ++ (frame m₂.1 m₂.2 ++ [])) := by
    simp [received]
  rw [clientAuthenticate, hinput, runOn_readMessage_bind h₀]
  simp only
  rw [if_neg (by simp [hoffer, hsasl]), writePMessage, Proc.runOn_writeAll_bind, runOn_readMessage_bind h₁]
  simp only
  cases clientFinal P password (clientFirstBare user (makeNonce P random)) m₁.2 with
  | error e => rfl
  | ok final =>
    rw [Proc.lift_ok_bind, writePMessage, Proc.runOn_writeAll_bind, runOn_readMessage_bind h₂]
    rfl

theorem runOn_authenticate (secret : ScramSecret) (random : List UInt8) {m₀ m₁ : Message}
    (h₀ : Readable m₀) (h₁ : Readable m₁) :
    (authenticate P secret random).runOn (received [m₀, m₁])
      = serverFirst P secret random m₀.1 m₀.2 >>= fun first =>
        serverFinal P secret first m₁.1 m₁.2 >>= fun _ => .ok () := by
  have hinput : received [m₀, m₁] = frame m₀.1 m₀.2 ++ (frame m₁.1 m₁.2 ++ []) := by
    simp [received]
  rw [authenticate, hinput, writeAuthMessage, Proc.runOn_writeAll_bind, runOn_readMessage_bind h₀]
  simp only
  cases serverFirst P secret random m₀.1 m₀.2 with
  | error e => rfl
  | ok first =>
    rw [Proc.lift_ok_bind, writeAuthMessage, Proc.runOn_writeAll_bind, runOn_readMessage_bind h₁, ok_bind]
    simp only
    cases serverFinal P secret first m₁.1 m₁.2 with
    | error e => rfl
    | ok final => rfl

end Runs

/-! ## Against the counterpart -/

theorem okOr_bind_eq_ok {α γ : Type} {o : Option α} {what : String} {f : α → Except ScramError γ} {c : γ}
    (h : okOr o what >>= f = .ok c) : ∃ a, f a = .ok c := by
  cases o with
  | none => simp [okOr, bind, Except.bind] at h
  | some a => exact ⟨a, h⟩

/-- The client's last message starts with the header it always uses. -/
theorem field_clientFinal {P : Primitives} {password bare : List Char} {body : List UInt8}
    {final : ClientFinal} (h : clientFinal P password bare body = .ok final) :
    field final.text 'c' = some "biws".toList := by
  unfold clientFinal at h
  obtain ⟨serverFirst, h⟩ := okOr_bind_eq_ok h
  obtain ⟨nonce, h⟩ := okOr_bind_eq_ok h
  obtain ⟨saltB64, h⟩ := okOr_bind_eq_ok h
  obtain ⟨salt, h⟩ := okOr_bind_eq_ok h
  obtain ⟨iterations, h⟩ := okOr_bind_eq_ok h
  obtain rfl := (Except.ok.inj h).symm
  have hcomma : ',' ∉ "biws".toList := by decide
  simp only [List.append_assoc]
  exact field_here (by decide) hcomma _

theorem gs2Header_eq (bare : List Char) : gs2Header (GS2_HEADER ++ bare) = some ("n".toList, []) := rfl

/-- The sample exchange with an ordinary user name. -/
def plainExchange : Exchange := { sampleExchange with user := "tester".toList }

section Peer

variable (P : Primitives) {t : Transcript}

/-- The client accepts any nonce, if the signature is right. -/
theorem runOn_clientAuthenticate_transcript {user : List Char} {random : List UInt8}
    (hbare : t.bare = clientFirstBare user (makeNonce P random)) (hnonce : ',' ∉ t.nonce)
    (hbinding : t.binding = "biws".toList)
    (hfirst : Readable (TAG_R, i32ToBe 11 ++ utf8 (t.serverFirst P).text))
    (hfinal : Readable (TAG_R, i32ToBe 12 ++ utf8 (t.serverFinal P))) :
    (clientAuthenticate P user t.password random).runOn
      (received [(TAG_R, i32ToBe 10), (TAG_R, i32ToBe 11 ++ utf8 (t.serverFirst P).text),
        (TAG_R, i32ToBe 12 ++ utf8 (t.serverFinal P))]) = .ok () := by
  rw [runOn_clientAuthenticate P user t.password random (by decide) hfirst hfinal rfl (by decide), ← hbare,
    Transcript.clientFinal_eq P hnonce hbinding, ok_bind, Transcript.clientVerify_eq]

/-- The server accepts any header and any binding, if the proof is right. -/
theorem runOn_authenticate_transcript {header nonce : List Char} {random : List UInt8}
    (hstrip : stripGs2Header (header ++ t.bare) = .ok t.bare) (hfield : field t.bare 'r' = some nonce)
    (hnonce : t.nonce = nonce ++ makeNonce P random) (hbinding : ',' ∉ t.binding)
    (hfirst : Readable (TAG_P, saslInitial (header ++ t.bare)))
    (hfinal : Readable (TAG_P, utf8 (t.clientFinal P).text)) :
    (authenticate P (t.secret P) random).runOn
      (received [(TAG_P, saslInitial (header ++ t.bare)), (TAG_P, utf8 (t.clientFinal P).text)])
        = .ok () := by
  have hmax : MAX_MESSAGE = 2 ^ 20 := rfl
  have hdata : (utf8 (header ++ t.bare)).length < 2 ^ 31 := by
    unfold Readable at hfirst
    rw [saslInitial, List.length_append] at hfirst
    omega
  have hcomma : ',' ∉ t.nonce := by
    rw [hnonce, List.mem_append, not_or]
    exact ⟨comma_not_mem_field hfield, comma_not_mem_makeNonce P random⟩
  have hanswer := serverFirst_eq P (t.secret P) random hstrip hfield hdata
  rw [← hnonce] at hanswer
  rw [runOn_authenticate P (t.secret P) random hfirst hfinal, hanswer, ok_bind]
  have hproof := Transcript.serverFinal_eq P hcomma hbinding
  rw [show (⟨t.bare, t.nonce, serverFirstText P t.nonce (t.secret P).salt (t.secret P).iterations⟩ :
    ServerFirst) = t.serverFirst P from rfl, hproof, ok_bind]

end Peer

/-- At most four characters for three bytes, and a few to fill up: what base64 does. -/
def Primitives.Compact (P : Primitives) : Prop := ∀ bytes, (P.encode bytes).length ≤ 4 * bytes.length + 4

theorem length_utf8_le (s : List Char) : (utf8 s).length ≤ 4 * s.length := by
  induction s with
  | nil => exact Nat.le_refl 0
  | cons c s ih =>
    have hsplit : utf8 (c :: s) = String.utf8EncodeChar c ++ utf8 s := rfl
    have hc := c.utf8Size_le_four
    rw [hsplit, List.length_append, String.length_utf8EncodeChar, List.length_cons]
    omega

theorem readable_text {tag : UInt8} {before : List UInt8} {s : List Char} {n : Nat}
    (hs : s.length ≤ n) (hn : before.length + 4 * n ≤ 2 ^ 19) : Readable (tag, before ++ utf8 s) := by
  have hmax : MAX_MESSAGE = 2 ^ 20 := rfl
  have hlen := length_utf8_le s
  unfold Readable
  rw [List.length_append]
  omega

/-- A server that answers with an empty nonce. -/
def emptyNonce (P : Primitives) (user password : List Char) (random : List UInt8) : Transcript where
  password
  salt := []
  iterations := 1
  bare := clientFirstBare user (makeNonce P random)
  nonce := []
  binding := "biws".toList

/-- A client that claims the encoding of `bound` as its binding. -/
def claimedBinding (P : Primitives) (password bound : List Char) (random : List UInt8) : Transcript where
  password
  salt := []
  iterations := 1
  bare := "n=,r=".toList
  nonce := makeNonce P random
  binding := P.encode (utf8 bound)

section Sizes

variable {P : Primitives} (hP : P.Compact)
include hP

theorem length_encode_hmac_le (key data : List UInt8) : (P.encode (P.hmac key data)).length ≤ 132 := by
  have h := hP (P.hmac key data)
  rw [P.length_hmac] at h
  exact h

theorem readable_emptyNonce (user password : List Char) (random : List UInt8) :
    Readable (TAG_R, i32ToBe 11 ++ utf8 ((emptyNonce P user password random).serverFirst P).text) ∧
      Readable (TAG_R, i32ToBe 12 ++ utf8 ((emptyNonce P user password random).serverFinal P)) := by
  have hfirst : (serverFirstText P [] [] 1).length ≤ 13 := by
    have hsalt : (P.encode []).length ≤ 4 := hP []
    have hone : (decimal 1).length = 1 := rfl
    rw [serverFirstText_eq]
    simp [hone]
    omega
  have hfinal : ((emptyNonce P user password random).serverFinal P).length ≤ 134 := by
    rw [Transcript.serverFinal, List.length_append]
    exact Nat.add_le_add_left (length_encode_hmac_le hP _ _) 2
  exact ⟨readable_text hfirst (by decide), readable_text hfinal (by decide)⟩

/-- A header of no more than twenty characters, and a binding of no more than that. -/
theorem readable_claimedBinding {header : List Char} (hheader : header.length ≤ 20)
    (password : List Char) {bound : List Char} (hbound : bound.length ≤ 20) {random : List UInt8}
    (hrandom : random.length = 18) :
    Readable (TAG_P, saslInitial (header ++ (claimedBinding P password bound random).bare)) ∧
      Readable (TAG_P, utf8 ((claimedBinding P password bound random).clientFinal P).text) := by
  have hfirst : (header ++ (claimedBinding P password bound random).bare).length ≤ 25 := by
    rw [List.length_append]
    exact Nat.add_le_add_right hheader 5
  have hnonce : (makeNonce P random).length ≤ 76 := by
    have := hP random
    unfold makeNonce
    omega
  have hbinding : (P.encode (utf8 bound)).length ≤ 324 := by
    have := hP (utf8 bound)
    have := length_utf8_le bound
    omega
  obtain ⟨t, ht⟩ : ∃ t, claimedBinding P password bound random = t := ⟨_, rfl⟩
  have hproof : (P.encode (t.proof P)).length ≤ 132 := by
    have h := hP (t.proof P)
    rw [Transcript.length_proof] at h
    exact h
  have hfinal : (t.clientFinal P).text.length ≤ 540 := by
    have htext : (t.clientFinal P).text = "c=".toList ++ P.encode (utf8 bound) ++ ",r=".toList
        ++ makeNonce P random ++ ",p=".toList ++ P.encode (t.proof P) := by
      rw [← ht]
      rfl
    rw [htext]
    simp only [List.length_append]
    simp
    omega
  rw [← ht] at hfinal
  have hinitial : (MECHANISM ++ [0]
      ++ i32ToBe (Int32.ofNat (utf8 (header ++ (claimedBinding P password bound random).bare)).length)).length
      = 18 := by
    rw [List.length_append, length_i32ToBe]
    decide +kernel
  have hlast : Readable (TAG_P, [] ++ utf8 ((claimedBinding P password bound random).clientFinal P).text) :=
    readable_text hfinal (by decide)
  exact ⟨readable_text hfirst (by rw [hinitial]; decide), hlast⟩

theorem clientAuthenticate_emptyNonce (user password : List Char) (random : List UInt8) :
    (clientAuthenticate P user password random).runOn
      (received [(TAG_R, i32ToBe 10),
        (TAG_R, i32ToBe 11 ++ utf8 ((emptyNonce P user password random).serverFirst P).text),
        (TAG_R, i32ToBe 12 ++ utf8 ((emptyNonce P user password random).serverFinal P))]) = .ok () := by
  obtain ⟨hfirst, hfinal⟩ := readable_emptyNonce hP user password random
  exact runOn_clientAuthenticate_transcript P (t := emptyNonce P user password random) rfl List.not_mem_nil
    rfl hfirst hfinal

theorem authenticate_claimedBinding {header : List Char} (hheader : header.length ≤ 20)
    (hstrip : stripGs2Header (header ++ "n=,r=".toList) = .ok "n=,r=".toList)
    (password : List Char) {bound : List Char} (hbound : bound.length ≤ 20) {random : List UInt8}
    (hrandom : random.length = 18) :
    (authenticate P ((claimedBinding P password bound random).secret P) random).runOn
      (received [(TAG_P, saslInitial (header ++ "n=,r=".toList)),
        (TAG_P, utf8 ((claimedBinding P password bound random).clientFinal P).text)]) = .ok () := by
  obtain ⟨hfirst, hfinal⟩ := readable_claimedBinding hP hheader password hbound hrandom
  have hfield : field "n=,r=".toList 'r' = some [] := by decide
  exact runOn_authenticate_transcript P (t := claimedBinding P password bound random) hstrip hfield rfl
    (P.comma_not_mem_encode _) hfirst hfinal

end Sizes

theorem encode_injective (P : Primitives) {a b : List UInt8} (h : P.encode a = P.encode b) : a = b := by
  have ha := P.decode_encode a
  rw [h, P.decode_encode] at ha
  exact (Option.some.inj ha).symm

theorem not_nonceContinues_emptyNonce (P : Primitives) (user password : List Char) (random : List UInt8)
    (own : List Char) :
    ¬ NonceContinues own (i32ToBe 11 ++ utf8 ((emptyNonce P user password random).serverFirst P).text) := by
  rintro ⟨text, nonce, htext, hnonce, _, hlonger⟩
  rw [List.drop_left' (length_i32ToBe _), fromUtf8_utf8] at htext
  obtain rfl := Option.some.inj htext
  have hempty := (field_serverFirstText P List.not_mem_nil [] 1).1
  obtain rfl := Option.some.inj (hempty.symm.trans hnonce)
  exact absurd hlonger (Nat.not_lt_zero _)

/-- The checks compare what such a client claims with the header it has sent. -/
theorem HeaderEchoed.of_claimedBinding {P : Primitives} {header password bound flag authzid : List Char}
    {random : List UInt8} (hheader : header.length ≤ 20)
    (hgs2 : gs2Header (header ++ "n=,r=".toList) = some (flag, authzid))
    (h : HeaderEchoed P (saslInitial (header ++ "n=,r=".toList))
      (utf8 ((claimedBinding P password bound random).clientFinal P).text)) :
    utf8 bound = utf8 (flag ++ ",".toList ++ authzid ++ ",".toList) ∧
      (flag = "n".toList ∨ flag = "y".toList) := by
  obtain ⟨clientFirst, flag', authzid', text, hparse, hgs2', htext, hfield, hflag⟩ := h
  have hdata : (utf8 (header ++ "n=,r=".toList)).length < 2 ^ 31 := by
    have hlen := length_utf8_le (header ++ "n=,r=".toList)
    rw [List.length_append, show "n=,r=".toList.length = 5 from rfl] at hlen
    omega
  rw [parseSaslInitial_saslInitial hdata] at hparse
  obtain rfl := Except.ok.inj hparse
  obtain ⟨rfl, rfl⟩ := Prod.mk.inj (Option.some.inj (hgs2.symm.trans hgs2'))
  rw [fromUtf8_utf8] at htext
  obtain rfl := Option.some.inj htext
  refine ⟨?_, hflag⟩
  have hclaimed : field ((claimedBinding P password bound random).clientFinal P).text 'c'
      = some (P.encode (utf8 bound)) := by
    rw [Transcript.clientFinal_text]
    exact field_here (by decide) (P.comma_not_mem_encode _) _
  exact encode_injective P (Option.some.inj (hclaimed.symm.trans hfield))

theorem samplePrimitives_compact : samplePrimitives.Compact := by
  intro bytes
  show (if bytes = utf8 GS2_HEADER then "biws".toList else bytes.map sampleLetter).length ≤ _
  split
  · exact Nat.le_add_left 4 _
  · rw [List.length_map]
    omega

end AethelDB.Proxy
